import Mathlib.Logic.Function.Basic

/-!
# Maps that may be nil, and what gob leaves out

A Go map is nil or holds entries. Reading and deleting work on both; an assignment to an entry of a
nil map stops the program (`put` is `none`).

Inside a struct gob omits a field with its zero value: a number or a string that is zero, a slice
without elements (nil or not), a nil map. A map that is not nil is sent even if it is empty. What is
omitted is zero after decoding: an empty slice has become nil.
-/

namespace CollabIde

/-- `map[K]V`. -/
inductive NilMap (K V : Type) where
  | nil
  | entries (f : K → Option V)

namespace NilMap

variable {K V W : Type} [DecidableEq K]

/-- `make(map[K]V)`. -/
def make : NilMap K V := .entries fun _ => none

/-- `m[k]`, with its `ok`. -/
def get : NilMap K V → K → Option V
  | nil, _ => none
  | entries f, k => f k

/-- `m[k] = v`. -/
def put : NilMap K V → K → V → Option (NilMap K V)
  | nil, _, _ => none
  | entries f, k, v => some (entries (Function.update f k (some v)))

/-- `delete(m, k)`. -/
def delete : NilMap K V → K → NilMap K V
  | nil, _ => nil
  | entries f, k => entries (Function.update f k none)

/-- The map has been made. -/
def Made (m : NilMap K V) : Prop := ∃ f, m = entries f

variable {m : NilMap K V}

omit [DecidableEq K] in
theorem made_make : (make : NilMap K V).Made := ⟨_, rfl⟩

/-- Assignments to a map that has been made. -/
theorem Made.put (h : m.Made) (k : K) (v : V) :
    ∃ m', m.put k v = some m' ∧ m'.Made ∧ m'.get = Function.update m.get k (some v) := by
  obtain ⟨f, rfl⟩ := h
  exact ⟨_, rfl, ⟨_, rfl⟩, rfl⟩

theorem Made.delete (h : m.Made) (k : K) :
    (m.delete k).Made ∧ (m.delete k).get = Function.update m.get k none := by
  obtain ⟨f, rfl⟩ := h
  exact ⟨⟨_, rfl⟩, rfl⟩

omit [DecidableEq K] in
/-- Maps that have been made are equal if their entries are. -/
theorem Made.eq_of_get {m' : NilMap K V} (h : m.Made) (h' : m'.Made) (hget : m.get = m'.get) :
    m = m' := by
  obtain ⟨f, rfl⟩ := h
  obtain ⟨f', rfl⟩ := h'
  exact congrArg entries hget

/-- The map as a field: nil is omitted, and each element is sent. -/
def send (f : V → W) : NilMap K V → Option (K → Option W)
  | nil => none
  | entries g => some fun k => (g k).map f

/-- The map that is rebuilt. -/
def receive (f : W → V) : Option (K → Option W) → NilMap K V
  | none => nil
  | some g => entries fun k => (g k).map f

omit [DecidableEq K] in
/-- A map comes back as it was, if its elements do. -/
theorem receive_send {f : V → W} {g : W → V} (h : ∀ v, g (f v) = v) :
    receive g (m.send f) = m := by
  cases m with
  | nil => rfl
  | entries e =>
    simp only [send, receive, Option.map_map, Function.comp_def, h, Option.map_id']

end NilMap

namespace Gob

/-- A number or a string as a field. -/
def sendField {α : Type} [DecidableEq α] (zero x : α) : Option α :=
  if x = zero then none else some x

@[simp] theorem getD_sendField {α : Type} [DecidableEq α] (zero x : α) :
    (sendField zero x).getD zero = x := by
  unfold sendField
  split
  · rename_i h
    rw [h]
    rfl
  · rfl

/-- A slice as a field. What comes back is nil if it is omitted. -/
def sendSlice {α : Type} : Option (List α) → Option (List α)
  | some (x :: xs) => some (x :: xs)
  | _ => none

/-- The elements come back. -/
@[simp] theorem sendSlice_getD {α : Type} (xs : Option (List α)) :
    (sendSlice xs).getD [] = xs.getD [] := by
  cases xs with
  | none => rfl
  | some xs => cases xs <;> rfl

end Gob

end CollabIde
