import CollabIde.Lib.Locality
import Mathlib.Data.String.Basic

/-!
# The model of a key/value server

`models.KvModel` says what a key/value server may answer, for a checker of linearizability. It
models one key, and its `Partition` splits a history by keys. That is okay
(`partition_linearizable`): a history of the whole server is linearizable if and only if each part
is.
-/

namespace CollabIde

namespace KvModel

open Locality

structure KvInput where
  /-- 0 is a get, 1 a put. -/
  op : UInt8
  key : String
  value : String
  version : UInt64
  deriving DecidableEq

structure KvOutput where
  value : String
  version : UInt64
  err : String
  deriving DecidableEq

structure KvState where
  value : String
  version : UInt64
  deriving DecidableEq

/-- `porcupine.Operation`. -/
structure Operation where
  input : KvInput
  call : ℤ
  output : KvOutput
  ret : ℤ
  deriving DecidableEq

/-- `Init`. -/
def init : KvState := ⟨"", 0⟩

/-- `Step`. -/
def step (st : KvState) (o : Operation) : Option KvState :=
  let inp := o.input
  let out := o.output
  if inp.op = 0 then
    if out.value = st.value then some st else none
  else if inp.op = 1 then
    if st.version = inp.version then
      if out.err = "OK" ∨ out.err = "ErrMaybe" then some ⟨inp.value, st.version + 1⟩ else none
    else
      if out.err = "ErrVersion" ∨ out.err = "ErrMaybe" then some st else none
  else none

/-- One key. -/
def kvModel : Object KvState Operation := ⟨init, step⟩

/-- All keys. -/
def store : Object (String → KvState) Operation := kvModel.product fun o => o.input.key

/-- The map of `Partition`. -/
def groups (history : List Operation) : String → List Operation :=
  history.foldl (fun m v => Function.update m v.input.key (m v.input.key ++ [v])) fun _ => []

/-- `Partition`. -/
def partition (history : List Operation) : List (List Operation) :=
  let keys := (history.map fun o => o.input.key).dedup.mergeSort (fun k k' => decide (k ≤ k'))
  keys.map (groups history)

theorem groups_eq (history : List Operation) (k : String) :
    groups history k = history.filter fun o => o.input.key = k := by
  have hfold (m : String → List Operation) :
      history.foldl (fun m v => Function.update m v.input.key (m v.input.key ++ [v])) m k =
        m k ++ history.filter fun o => o.input.key = k := by
    induction history generalizing m with
    | nil => exact (List.append_nil _).symm
    | cons o history ih =>
      rw [List.foldl_cons, ih]
      by_cases hk : o.input.key = k
      · subst hk
        rw [Function.update_self, List.filter_cons_of_pos (by simp), List.append_assoc]
        rfl
      · rw [Function.update_of_ne (Ne.symm hk), List.filter_cons_of_neg (by simpa using hk)]
  exact (hfold _).trans (List.nil_append _)

theorem mem_partition {history part : List Operation} : part ∈ partition history ↔
    ∃ o ∈ history, part = history.filter fun o' => o'.input.key = o.input.key := by
  unfold partition
  simp only [List.mem_map, List.mem_mergeSort, List.mem_dedup, groups_eq]
  constructor
  · rintro ⟨k, ⟨o, ho, rfl⟩, rfl⟩
    exact ⟨o, ho, rfl⟩
  · rintro ⟨o, ho, rfl⟩
    exact ⟨_, ⟨o, ho, rfl⟩, rfl⟩

/-- **To partition by key is okay.** If no operation returns before it is called, a history is
linearizable if and only if every part of it is. -/
theorem partition_linearizable {history : List Operation} (hcall : ∀ o ∈ history, o.call ≤ o.ret) :
    Linearizable Operation.call Operation.ret store history ↔
      ∀ part ∈ partition history, Linearizable Operation.call Operation.ret kvModel part := by
  refine (linearizable_product_iff hcall).trans ⟨fun h part hpart => ?_, fun h k => ?_⟩
  · obtain ⟨o, -, rfl⟩ := mem_partition.mp hpart
    exact h o.input.key
  · by_cases hk : ∃ o ∈ history, o.input.key = k
    · obtain ⟨o, ho, rfl⟩ := hk
      exact h _ (mem_partition.mpr ⟨o, ho, rfl⟩)
    · -- no operation of the key
      have hnil : (history.filter fun o => o.input.key = k) = [] :=
        List.filter_eq_nil_iff.mpr fun o ho hok => hk ⟨o, ho, of_decide_eq_true hok⟩
      rw [hnil]
      exact ⟨[], .nil, .nil, takes_nil⟩

def get (key value : String) (call ret : ℤ) : Operation :=
  ⟨⟨0, key, "", 0⟩, call, ⟨value, 0, "OK"⟩, ret⟩

def put (key value : String) (call ret : ℤ) : Operation :=
  ⟨⟨1, key, value, 0⟩, call, ⟨"", 0, "OK"⟩, ret⟩

/-- Two gets while there are two puts; the first one is still before the put. -/
theorem partition_linearizable_gets : Linearizable Operation.call Operation.ret store
    [put "x" "a" 0 10, put "y" "b" 1 3, get "x" "" 2 4, get "x" "a" 5 6] := by
  refine (partition_linearizable (by decide)).mpr fun part hpart => ?_
  obtain ⟨o, ho, rfl⟩ := mem_partition.mp hpart
  have hkey : o.input.key = "x" ∨ o.input.key = "y" := by
    clear hpart
    revert o
    decide
  obtain hkey | hkey := hkey
  · rw [hkey]
    exact ⟨[get "x" "" 2 4, put "x" "a" 0 10, get "x" "a" 5 6], by decide, by decide, by decide⟩
  · rw [hkey]
    exact ⟨[put "y" "b" 1 3], by decide, by decide, by decide⟩

end KvModel

end CollabIde
