import CollabIde.Lib.Marking
import CollabIde.Lib.Run
import Mathlib.Algebra.BigOperators.Ring.Finset
import Mathlib.Data.Fintype.Basic

/-!
# labgob

gob sends only the fields whose names start with an upper-case letter. `Encode`, `Decode` and
`Register` first walk over the type of the value, and print an error for every other field. What
has been seen is noted in a map that all goroutines share; so a walk ends on a recursive type, and
leaves to another goroutine what this one has taken up. `Decode` warns about a variable that is not
empty; it may not look at an unexported field, and panics where it comes to one that it would
compare.
-/

namespace CollabIde

namespace Labgob

structure Field (T : Type) where
  name : String
  type : T

/-- What `checkType` sees of a type. -/
inductive Kind (T : Type) where
  | struct (fields : List (Field T))
  | slice (elem : T)
  | array (elem : T)
  | ptr (elem : T)
  | map (elem key : T)
  | other

/-- The types that it visits next. -/
def Kind.types {T : Type} : Kind T → List T
  | .struct fields => fields.map Field.type
  | .slice elem | .array elem | .ptr elem => [elem]
  | .map elem key => [elem, key]
  | .other => []

/-- What `checkDefault` sees of a value. -/
inductive Value where
  /-- The fields with their names; whether they are embedded. -/
  | struct (fields : List (String × Bool × Value))
  | ptr (value : Option Value)
  /-- A number, a bool or a string; whether it is the zero of its type. -/
  | basic (type : String) (zero : Bool)
  | other

/-- What a goroutine has still to do. -/
inductive Work (T : Type) where
  | checkType (t : T)
  /-- An error is printed. -/
  | error (line : String)
  /-- And then counted. -/
  | count
  | warn (what : String)
  | panic

/-- Of `nil` there is no type. -/
def checkValue {T : Type} : Option T → Work T
  | some t => .checkType t
  | none => .panic

/-- What `reflect` notes of the way to a value: whether it is through an unexported field, or ends
in one that is embedded. -/
structure Flag where
  stickyRO : Bool
  embedRO : Bool

/-- `Interface` panics. -/
def Flag.ro (flag : Flag) : Bool := flag.stickyRO || flag.embedRO

/-- The types of the program, with their names. -/
structure Types (T : Type) where
  kind : T → Kind T
  name : T → String
  /-- `unicode.IsUpper`. -/
  isUpper : Char → Bool

namespace Types

variable {T : Type} (types : Types T)

def lower (name : String) : Bool :=
  match name.toList with
  | [] => true
  | c :: _ => !types.isUpper c

def errorLine (t : T) (f : Field T) : String :=
  "labgob error: lower-case field " ++ f.name ++ " of " ++ types.name t ++
    " in RPC or persist/snapshot will break your Raft"

/-- The walk behind a type that has not been seen. -/
def walk (t : T) : List (Work T) :=
  match types.kind t with
  | .struct fields => fields.flatMap fun f =>
      (if types.lower f.name then [.error (types.errorLine t f), .count] else []) ++
        [.checkType f.type]
  | .slice elem | .array elem | .ptr elem => [.checkType elem]
  | .map elem key => [.checkType elem, .checkType key]
  | .other => []

/-- The errors that a type should give. -/
def errorLines (t : T) : List String :=
  match types.kind t with
  | .struct fields => (fields.filter fun f => types.lower f.name).map (types.errorLine t)
  | _ => []

/-- A type contains another one. -/
def Contains (t u : T) : Prop := u ∈ (types.kind t).types

/-- `reflect`'s `Field`: a lower-case field is not exported. -/
def field (flag : Flag) (name : String) (embedded : Bool) : Flag where
  stickyRO := flag.stickyRO || (types.lower name && !embedded)
  embedRO := types.lower name && embedded

/-- What is not empty, as far down as is left. -/
def checkDefault1 : ℕ → Flag → Value → String → List (Work T)
  | 0, _, _, _ => []
  | left + 1, flag, .struct fields, name => fields.flatMap fun f =>
      checkDefault1 left (types.field flag f.1 f.2.1) f.2.2
        (if name ≠ "" then name ++ "." ++ f.1 else f.1)
  | _ + 1, _, .ptr none, _ => []
  | left + 1, flag, .ptr (some value), name => checkDefault1 left flag value name
  | _ + 1, flag, .basic type zero, name =>
    if flag.ro then [.panic]
    else if zero then [] else [.warn (if name = "" then type else name)]
  | _ + 1, _, .other, _ => []

def checkDefault : Option Value → List (Work T)
  | none => []
  | some value => types.checkDefault1 3 ⟨false, false⟩ value ""

end Types

end Labgob

open Labgob

/-- The package's variables and the goroutines in it. -/
structure Labgob (T : Type) where
  checked : List T
  errorCount : ℕ
  /-- The errors and the warnings that have been printed. -/
  errors : List String
  warnings : List String
  goroutines : List (List (Work T))
  /-- A goroutine has panicked, and the process has ended. -/
  panicked : Bool
  /-- What the calls have begun with. -/
  calls : List (Work T)

namespace Labgob

inductive Action (T : Type) where
  /-- A call of `Encode`, `EncodeValue`, `Register` or `RegisterName`; with `nil`, or with a `Value`
  that has no `Interface`. -/
  | encode (value : Option T)
  | decode (value : Option (T × Value))
  | run (i : ℕ)

variable {T : Type} (types : Types T) (s : Labgob T)

def warnLine (what : String) : String :=
  "labgob warning: Decoding into a non-default variable/field " ++ what ++ " may not work"

/-- A goroutine does what comes next, and what comes after it. -/
def perform [DecidableEq T] : Work T → Labgob T × List (Work T)
  | .checkType t =>
    if t ∈ s.checked then (s, [])
    else ({ s with checked := s.checked ++ [t] }, types.walk t)
  | .error line => ({ s with errors := s.errors ++ [line] }, [])
  | .count => ({ s with errorCount := s.errorCount + 1 }, [])
  | .warn what =>
    ({ s with
      warnings := if s.errorCount < 1 then s.warnings ++ [warnLine what] else s.warnings
      errorCount := s.errorCount + 1 }, [])
  | .panic => ({ s with panicked := true }, [])

def call (ws : List (Work T)) : Labgob T :=
  { s with goroutines := s.goroutines ++ [ws], calls := s.calls ++ ws }

/-- `Decode` begins with the value's type, and goes on to what is not empty. -/
def step [DecidableEq T] (x : Action T) : Option (Labgob T) :=
  if s.panicked then none
  else match x with
  | .encode value => some (s.call [checkValue value])
  | .decode value => some (s.call
      (checkValue (value.map Prod.fst) :: types.checkDefault (value.map Prod.snd)))
  | .run i => match s.goroutines[i]? with
    | some (w :: rest) =>
      let r := s.perform types w
      some { r.1 with goroutines := s.goroutines.set i (r.2 ++ rest) }
    | _ => none

def initial : Labgob T := ⟨[], 0, [], [], [], false, []⟩

def machine [DecidableEq T] : Machine (Labgob T) (Action T) where
  init s := s = initial
  step s := s.step types

/-- No new call. -/
def Action.internal : Action T → Bool
  | .run _ => true
  | _ => false

/-- All that the goroutines have still to do. -/
def work : List (Work T) := s.goroutines.flatten

def Work.line : Work T → Option String
  | .error line => some line
  | _ => none

/-- What adds to `errorCount`. -/
def Work.counts : Work T → Bool
  | .count | .warn _ => true
  | _ => false

/-- Each type that the calls' values contain has been checked, and each of its errors has been
printed, once. -/
structure Complete : Prop where
  checked : ∀ t, t ∈ s.checked ↔
    ∃ r, .checkType r ∈ s.calls ∧ Relation.ReflTransGen types.Contains r t
  nodup : s.checked.Nodup
  errors : s.errors.Perm (s.checked.flatMap types.errorLines)
  errorCount : s.errorCount = s.errors.length + s.calls.countP Work.counts
  warnings : s.warnings.length ≤ 1

/-! ## The walk behind one type -/

variable {types s} {t u : T}

theorem mem_walk : .checkType u ∈ types.walk t ↔ types.Contains t u := by
  unfold Types.walk Types.Contains
  cases types.kind t with
  | struct fields =>
    simp only [Kind.types, List.mem_flatMap, List.mem_map]
    refine exists_congr fun f => and_congr_right fun _ => ?_
    split <;> simp [eq_comm]
  | _ => simp [Kind.types]

theorem line_walk : (types.walk t).filterMap Work.line = types.errorLines t := by
  unfold Types.walk Types.errorLines
  cases types.kind t with
  | struct fields =>
    dsimp only
    induction fields with
    | nil => rfl
    | cons f fields ih =>
      rw [List.flatMap_cons, List.filterMap_append, ih, List.filter_cons]
      split <;> simp [Work.line]
  | _ => rfl

theorem counts_walk : (types.walk t).countP Work.counts = (types.errorLines t).length := by
  unfold Types.walk Types.errorLines
  cases types.kind t with
  | struct fields =>
    dsimp only
    induction fields with
    | nil => rfl
    | cons f fields ih =>
      rw [List.flatMap_cons, List.countP_append, ih, List.filter_cons]
      split <;> simp [List.countP_cons, Work.counts, Nat.add_comm]
  | _ => rfl

theorem panic_notMem_walk : .panic ∉ types.walk t := by
  unfold Types.walk
  cases types.kind t with
  | struct fields =>
    simp only [List.mem_flatMap, not_exists, not_and]
    intro f _
    split <;> simp
  | _ => simp

/-- `Decode` warns or panics. -/
theorem line_checkDefault1 (left : ℕ) (flag : Flag) (value : Value) (name : String) :
    (types.checkDefault1 left flag value name).filterMap Work.line = [] := by
  induction left generalizing flag value name with
  | zero => rfl
  | succ left ih =>
    cases value with
    | struct fields =>
      simp only [Types.checkDefault1]
      rw [List.filterMap_flatMap]
      exact List.flatMap_eq_nil_iff.mpr fun f _ => ih _ _ _
    | ptr value =>
      cases value with
      | none => rfl
      | some value => exact ih flag value name
    | basic type zero =>
      simp only [Types.checkDefault1]
      split
      · rfl
      · split <;> rfl
    | other => rfl

theorem line_checkDefault (value : Option Value) :
    (types.checkDefault value).filterMap Work.line = [] := by
  cases value with
  | none => rfl
  | some value => exact line_checkDefault1 3 _ value ""

theorem line_checkValue (value : Option T) : (checkValue value).line = none := by
  cases value <;> rfl

/-! ## The invariant -/

variable (types s) in
/-- `ws` is what is still to be done, in any order. -/
structure Sound (ws : List (Work T)) : Prop where
  marking :
    Marking types.Contains {t | .checkType t ∈ s.calls} {t | t ∈ s.checked} {t | .checkType t ∈ ws}
  nodup : s.checked.Nodup
  errors : (s.errors ++ ws.filterMap Work.line).Perm (s.checked.flatMap types.errorLines)
  errorCount : s.errorCount + ws.countP Work.counts =
    (s.checked.flatMap types.errorLines).length + s.calls.countP Work.counts
  warnings : s.warnings.length ≤ 1 ∧ s.warnings.length ≤ s.errorCount
  panicked : .panic ∈ s.calls ↔ .panic ∈ ws ∨ s.panicked = true

namespace Sound

variable {ws ws' : List (Work T)} {w : Work T}

theorem perm (h : Sound types s ws) (hp : ws.Perm ws') : Sound types s ws' where
  marking := by
    have hmem : {t : T | Work.checkType t ∈ ws'} = {t | .checkType t ∈ ws} :=
      Set.ext fun t => (hp.mem_iff).symm
    rw [hmem]
    exact h.marking
  nodup := h.nodup
  errors := ((hp.symm.filterMap Work.line).append_left s.errors).trans h.errors
  errorCount := by
    rw [hp.symm.countP_eq]
    exact h.errorCount
  warnings := h.warnings
  panicked := by
    rw [h.panicked, hp.mem_iff]

theorem initial : Sound types (initial : Labgob T) [] where
  marking := by
    have hnone {α : Type} (f : T → α) : {t : T | f t ∈ ([] : List α)} = ∅ :=
      Set.eq_empty_of_forall_notMem fun _ => List.not_mem_nil
    exact (hnone Work.checkType).symm ▸ (hnone id).symm ▸ .start
  nodup := List.nodup_nil
  errors := .nil
  errorCount := rfl
  warnings := ⟨Nat.zero_le 1, le_rfl⟩
  panicked := by simp [Labgob.initial]

/-- What does not lead to a new type. -/
theorem tail (h : Sound types s (w :: ws)) (hw : ∀ t, w = .checkType t → t ∈ s.checked) :
    Marking types.Contains {t | .checkType t ∈ s.calls} {t | t ∈ s.checked}
      {t | .checkType t ∈ ws} := by
  refine h.marking.skip (fun u hu => List.mem_cons_of_mem _ hu) fun u hu => ?_
  obtain heq | hu := List.mem_cons.mp hu
  · exact .inl (hw u heq.symm)
  · exact .inr hu

/-- A type that has not been seen. -/
theorem check (h : Sound types s (.checkType t :: ws)) (ht : t ∉ s.checked) :
    Sound types { s with checked := s.checked ++ [t] } (types.walk t ++ ws) where
  marking := by
    have hchecked : {u | u ∈ s.checked ++ [t]} = insert t {u | u ∈ s.checked} := by
      ext u
      simp [or_comm]
    rw [hchecked]
    refine h.marking.mark List.mem_cons_self (fun u hu => ?_) (fun u hu => ?_) fun u hu => ?_
    · obtain hu | hu := List.mem_append.mp hu
      · exact .inr (mem_walk.mp hu)
      · exact .inl (List.mem_cons_of_mem _ hu)
    · obtain heq | hu := List.mem_cons.mp hu
      · cases heq
        exact Set.mem_insert t _
      · exact Set.mem_insert_of_mem t (List.mem_append_right _ hu)
    · exact List.mem_append_left _ (mem_walk.mpr hu)
  nodup := List.nodup_append.mpr ⟨h.nodup, List.nodup_singleton t, fun u hu v hv => by
    cases List.mem_singleton.mp hv
    rintro rfl
    exact ht hu⟩
  errors := by
    rw [List.filterMap_append, line_walk, List.flatMap_append, List.flatMap_singleton]
    refine .trans ?_ (h.errors.append_right _)
    rw [List.append_assoc]
    exact List.Perm.append_left _ List.perm_append_comm
  errorCount := by
    have hcount : s.errorCount + ws.countP Work.counts = _ := h.errorCount
    rw [List.countP_append, counts_walk, List.flatMap_append, List.flatMap_singleton,
      List.length_append]
    dsimp only
    omega
  warnings := h.warnings
  panicked := by
    have hpanic := h.panicked
    simp only [List.mem_cons, reduceCtorEq, false_or] at hpanic
    simpa [panic_notMem_walk] using hpanic

/-- What is no panic. -/
theorem calm (h : Sound types s (w :: ws)) (hw : w ≠ .panic) :
    .panic ∈ s.calls ↔ .panic ∈ ws ∨ s.panicked = true := by
  rw [h.panicked, List.mem_cons, or_iff_right hw.symm]

theorem counted (h : Sound types s (w :: ws)) (hw : w.counts = true) :
    s.errorCount + 1 + ws.countP Work.counts =
      (s.checked.flatMap types.errorLines).length + s.calls.countP Work.counts := by
  have hcount := h.errorCount
  rw [List.countP_cons_of_pos hw] at hcount
  omega

theorem perform [DecidableEq T] (h : Sound types s (w :: ws)) :
    Sound types (s.perform types w).1 ((s.perform types w).2 ++ ws) := by
  cases w with
  | checkType t =>
    unfold Labgob.perform
    dsimp only
    split
    · exact ⟨h.tail fun u hu => by cases hu; assumption, h.nodup, h.errors, h.errorCount,
        h.warnings, h.calm nofun⟩
    · exact h.check ‹_›
  | error line =>
    refine ⟨h.tail (fun u hu => by cases hu), h.nodup, ?_, h.errorCount, h.warnings, h.calm nofun⟩
    have herrors : (s.errors ++ line :: ws.filterMap Work.line).Perm _ := h.errors
    rwa [List.append_cons] at herrors
  | count =>
    exact ⟨h.tail (fun u hu => by cases hu), h.nodup, h.errors, h.counted rfl, ⟨h.warnings.1,
      h.warnings.2.trans (Nat.le_succ _)⟩, h.calm nofun⟩
  | warn what =>
    obtain ⟨hone, hle⟩ := h.warnings
    refine ⟨h.tail (fun u hu => by cases hu), h.nodup, h.errors, h.counted rfl, ?_, h.calm nofun⟩
    -- a warning is the first thing that is counted
    simp only [Labgob.perform]
    split
    · rw [List.length_append, List.length_singleton]
      omega
    · exact ⟨hone, hle.trans (Nat.le_succ _)⟩
  | panic =>
    refine ⟨h.tail (fun u hu => by cases hu), h.nodup, h.errors, h.errorCount, h.warnings, ?_⟩
    exact iff_of_true (h.panicked.mpr (.inl List.mem_cons_self)) (.inr rfl)

/-- A call begins. -/
theorem call (h : Sound types s s.work) {ws : List (Work T)} (hws : ws.filterMap Work.line = []) :
    Sound types (s.call ws) (s.call ws).work := by
  have hwork : (s.call ws).work.Perm (ws ++ s.work) := by
    rw [work, Labgob.call, List.flatten_append, List.flatten_singleton]
    exact List.perm_append_comm
  refine Sound.perm ⟨?_, h.nodup, ?_, ?_, h.warnings, ?_⟩ hwork.symm
  · have hcalls : {u | Work.checkType u ∈ s.calls ++ ws} =
        {u | .checkType u ∈ s.calls} ∪ {u | .checkType u ∈ ws} :=
      Set.ext fun u => List.mem_append
    have hpending : {u | Work.checkType u ∈ ws ++ s.work} =
        {u | .checkType u ∈ s.work} ∪ {u | .checkType u ∈ ws} :=
      Set.ext fun u => List.mem_append.trans Or.comm
    have hroot := h.marking.root {u | .checkType u ∈ ws}
    rwa [← hcalls, ← hpending] at hroot
  · rw [List.filterMap_append, hws]
    exact h.errors
  · have hold := h.errorCount
    rw [List.countP_append]
    simp only [Labgob.call, List.countP_append]
    omega
  · have hold := h.panicked
    simp only [Labgob.call, List.mem_append]
    tauto

end Sound

/-- One of several lists is replaced. -/
theorem flatten_set {α : Type} {l : List (List α)} {i : ℕ} {x : List α} (h : l[i]? = some x) :
    ∃ others, l.flatten.Perm (x ++ others) ∧ ∀ y, (l.set i y).flatten.Perm (y ++ others) := by
  induction l generalizing i with
  | nil => cases h
  | cons a l ih =>
    cases i with
    | zero =>
      cases h
      exact ⟨l.flatten, .refl _, fun y => .refl _⟩
    | succ i =>
      obtain ⟨others, hold, hnew⟩ := ih h
      refine ⟨a ++ others, ?_, fun y => ?_⟩
      · exact (hold.append_left a).trans (List.perm_append_comm_assoc a x others)
      · exact ((hnew y).append_left a).trans (List.perm_append_comm_assoc a y others)

section Steps

variable [DecidableEq T] {s' : Labgob T} {i : ℕ}

/-- A goroutine takes a step. -/
theorem run_eq (h : s.step types (.run i) = some s') : ∃ w others,
    s.work.Perm (w :: others) ∧ s'.work.Perm ((s.perform types w).2 ++ others) ∧
      s' = { (s.perform types w).1 with goroutines := s'.goroutines } := by
  simp only [step] at h
  split at h
  · cases h
  split at h
  · rename_i w rest hi
    cases h
    obtain ⟨others, hold, hnew⟩ := flatten_set hi
    refine ⟨w, rest ++ others, hold, ?_, rfl⟩
    have hnew := hnew ((s.perform types w).2 ++ rest)
    rwa [List.append_assoc] at hnew
  · cases h

/-- No goroutine can go on: nothing is left to do, or the process has ended. -/
theorem work_eq_nil (h : ∀ i, s.step types (.run i) = none) (hs : s.panicked = false) :
    s.work = [] := by
  refine List.flatten_eq_nil_iff.mpr fun g hg => ?_
  obtain ⟨i, hi⟩ := List.mem_iff_getElem?.mp hg
  cases g with
  | nil => rfl
  | cons w rest =>
    have hnone := h i
    rw [step, hs, hi] at hnone
    cases hnone

theorem Sound.step {x : Action T} (h : Sound types s s.work) (hx : s.step types x = some s') :
    Sound types s' s'.work := by
  cases x with
  | encode value =>
    simp only [Labgob.step] at hx
    split at hx
    · cases hx
    · cases hx
      refine h.call ?_
      rw [List.filterMap_cons_none (line_checkValue value)]
      rfl
  | decode value =>
    simp only [Labgob.step] at hx
    split at hx
    · cases hx
    · cases hx
      refine h.call ?_
      rw [List.filterMap_cons_none (line_checkValue _)]
      exact line_checkDefault _
  | run i =>
    obtain ⟨w, others, hold, hnew, heq⟩ := run_eq hx
    obtain ⟨h1, h2, h3, h4, h5, h6⟩ := (h.perm hold).perform.perm hnew.symm
    rw [heq]
    exact ⟨h1, h2, h3, h4, h5, h6⟩

theorem Sound.of_reach (hs : (machine types).Reachable s) : Sound types s s.work := by
  refine Machine.Reach.invariant (I := fun s => Sound types s s.work) ?_
    (fun s x s' _ h _ hx => h.step hx) hs
  rintro s rfl
  exact .initial

/-! ## The walks end -/

variable [Fintype T]

variable (types s) in
/-- What the types that have not been seen can lead to. -/
def unseen : ℕ := ∑ t with t ∉ s.checked, (types.walk t).length

variable (types s) in
/-- How many steps the goroutines can take. -/
def left : ℕ := s.work.length + s.unseen types

theorem perform_unseen (w : Work T) :
    (s.perform types w).1.unseen types + (s.perform types w).2.length = s.unseen types := by
  cases w with
  | checkType t =>
    unfold perform
    dsimp only
    split
    · rfl
    · rename_i ht
      have hmem : t ∈ Finset.univ.filter (· ∉ s.checked) := by simpa using ht
      have hfilter : (Finset.univ.filter fun u => u ∉ s.checked ++ [t]) =
          (Finset.univ.filter (· ∉ s.checked)).erase t := by
        ext u
        simp [and_comm, not_or]
      rw [unseen, unseen, hfilter]
      exact Finset.sum_erase_add _ _ hmem
  | _ => rfl

theorem left_run (h : s.step types (.run i) = some s') : s'.left types + 1 = s.left types := by
  obtain ⟨w, others, hold, hnew, heq⟩ := run_eq h
  have hunseen : (s.perform types w).1.unseen types + (s.perform types w).2.length =
      s.unseen types := perform_unseen w
  have hsame : s'.unseen types = (s.perform types w).1.unseen types := by
    rw [heq]
    rfl
  rw [left, left, hold.length_eq, hnew.length_eq, hsame, List.length_append, List.length_cons]
  omega

omit [DecidableEq T] [Fintype T] in
theorem Sound.complete (h : Sound types s []) : s.Complete types := by
  have herrors := h.errors
  rw [List.filterMap_nil, List.append_nil] at herrors
  have hpending : {t : T | Work.checkType t ∈ ([] : List (Work T))} = ∅ :=
    Set.eq_empty_of_forall_notMem fun _ => List.not_mem_nil
  have hmarking := h.marking
  rw [hpending] at hmarking
  refine ⟨fun t => hmarking.done, h.nodup, herrors, ?_, h.warnings.1⟩
  rw [herrors.length_eq]
  exact h.errorCount

/-- **Each type is checked once**, by whatever goroutine gets to it first. When no more calls are
made, only so many steps are possible. Where none is, either a call has come to what it panics on
and the process has ended, or all types that the calls' values contain have been checked and all
their errors printed. -/
theorem types_checked_once {xs : List (Action T)} (hs : (machine types).Reachable s)
    (hrun : (machine types).run (fun _ x => x.internal = true) s xs = some s') :
    xs.length ≤ s.left types ∧
      ((∀ i, s'.step types (.run i) = none) →
        (s'.panicked = true ↔ .panic ∈ s'.calls) ∧
          (.panic ∉ s'.calls → s'.Complete types)) := by
  induction xs generalizing s with
  | nil =>
    cases hrun
    refine ⟨Nat.zero_le _, fun hend => ?_⟩
    have hsound := Sound.of_reach hs
    cases hp : s'.panicked with
    | true =>
      have hpanic := hsound.panicked.mpr (.inr hp)
      exact ⟨iff_of_true rfl hpanic, fun hno => absurd hpanic hno⟩
    | false =>
      rw [work_eq_nil hend hp] at hsound
      have hpanic := hsound.panicked
      rw [hp] at hpanic
      exact ⟨by simpa using hpanic, fun _ => hsound.complete⟩
  | cons x xs ih =>
    simp only [Machine.run] at hrun
    split at hrun
    · rename_i hinternal
      obtain ⟨s₁, hx, hrun⟩ := Option.bind_eq_some_iff.mp hrun
      obtain ⟨hlen, hend⟩ := ih (.step hs trivial hx) hrun
      refine ⟨?_, hend⟩
      cases x with
      | run i =>
        have hleft := left_run hx
        rw [List.length_cons]
        omega
      | _ => cases hinternal
    · cases hrun

end Steps

/-- `type Node struct { Next *Node; val int }` -/
def nodeTypes : Types (Fin 4) where
  kind
    | 0 => .struct [⟨"Next", 1⟩, ⟨"val", 2⟩]
    | 1 => .ptr 0
    | 2 => .other
    | 3 => .ptr 2
  name
    | 0 => "Node"
    | 2 => "int"
    | _ => ""
  isUpper := Char.isUpper

/-- A node is encoded, while another goroutine decodes into a variable that is not empty. -/
theorem types_checked_once_node : ∃ s s' : Labgob (Fin 4), 8 ≤ s.left nodeTypes ∧
    (s'.errors, s'.errorCount, s'.warnings.length) = (["labgob error: lower-case field val of " ++
      "Node in RPC or persist/snapshot will break your Raft"], 2, 1) ∧
    ((∀ i, s'.step nodeTypes (.run i) = none) →
      (s'.panicked = true ↔ .panic ∈ s'.calls) ∧ (.panic ∉ s'.calls → s'.Complete nodeTypes)) := by
  obtain ⟨s, hs, hv⟩ := (machine nodeTypes).reach_of_run (fun _ _ => True)
    (f := fun s => ((machine nodeTypes).run (fun _ x => x.internal = true) s
      [.run 0, .run 1, .run 1, .run 1, .run 0, .run 0, .run 0, .run 0]).map
        fun s => (s.errors, s.errorCount, s.warnings.length))
    (v := some (["labgob error: lower-case field val of " ++
      "Node in RPC or persist/snapshot will break your Raft"], 2, 1))
    [.encode (some 0), .decode (some (3, .ptr (some (.basic "int" false))))]
    rfl (by decide +kernel)
  obtain ⟨s', hrun, hprinted⟩ := Option.map_eq_some_iff.mp hv
  exact ⟨s, s', (types_checked_once hs hrun).1, hprinted, (types_checked_once hs hrun).2⟩

/-- Nothing may be decoded into a node: its `val` would be compared. -/
example : nodeTypes.checkDefault (some (.ptr (some
    (.struct [("Next", false, .ptr none), ("val", false, .basic "int" true)])))) = [.panic] := rfl

end Labgob

end CollabIde
