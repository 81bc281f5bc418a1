import Mathlib.Data.List.Basic
import Mathlib.Data.Option.Basic
import Mathlib.Data.Int.Notation

/-!
# Typed values on a stream

A stream carries values that say what they are. A value of an interface type is sent with the name
of its concrete type, and only if that name is registered; if a part of a value cannot be sent,
`Encode` fails and writes nothing. `Decode` fails on a value of another type and at the end of the
stream.

`Codec` and `Concrete` are the types that can be sent, as they are and inside an interface; both
carry their round trip as a field.
-/

namespace CollabIde.Gob

/-- A value on a stream; `T` names the concrete types. -/
inductive Value (T : Type) where
  | int (i : ℤ)
  | string (s : String)
  | bytes (bs : List UInt8)
  | slice (xs : List (Value T))
  | struct (fields : List (Value T))
  | nil
  | iface (type : T) (v : Value T)

/-- A type that can be sent, given the registered names. -/
class Codec (T α : Type) where
  write : (T → Bool) → α → Option (Value T)
  read : Value T → Option α
  read_write : ∀ {reg x v}, write reg x = some v → read v = some x

/-- A type with values that an interface can hold. -/
class Concrete (T α : Type) where
  typeOf : α → T
  write : (T → Bool) → α → Option (Value T)
  read : T → Value T → Option α
  read_write : ∀ {reg x v}, write reg x = some v → read (typeOf x) v = some x

theorem isSome_map_iff {α β : Type} {o : Option α} {f : α → β} :
    (o.map f).isSome ↔ o.isSome := by rw [Option.isSome_map]

variable {T α : Type}

instance : Codec T ℤ where
  write _ i := some (.int i)
  read
    | .int i => some i
    | _ => none
  read_write h := by cases h; rfl

@[simp] theorem write_int (reg : T → Bool) (i : ℤ) : Codec.write reg i = some (.int i) := rfl

/-! ## Slices -/

section Slice

variable [Codec T α] {reg : T → Bool}

/-- The elements of a slice. -/
def writeAll (reg : T → Bool) (xs : List α) : Option (List (Value T)) := xs.mapM (Codec.write reg)

theorem read_writeAll {xs : List α} {vs : List (Value T)} (h : writeAll reg xs = some vs) :
    vs.mapM Codec.read = some xs := by
  induction xs generalizing vs with
  | nil => cases h; rfl
  | cons x xs ih =>
    rw [writeAll, List.mapM_cons] at h
    obtain ⟨v, hv, h⟩ := Option.bind_eq_some_iff.mp h
    obtain ⟨ws, hws, h⟩ := Option.bind_eq_some_iff.mp h
    cases h
    rw [List.mapM_cons, Codec.read_write hv, ih hws]
    rfl

theorem writeAll_isSome {xs : List α} :
    (writeAll reg xs).isSome ↔ ∀ x ∈ xs, (Codec.write reg x).isSome := by
  induction xs with
  | nil => exact iff_of_true rfl fun x hx => by cases hx
  | cons x xs ih =>
    rw [List.forall_mem_cons, ← ih, writeAll, List.mapM_cons]
    cases Codec.write reg x with
    | none => simp
    | some v =>
      cases h : xs.mapM (Codec.write reg) with
      | none => simp [writeAll, h]
      | some vs => simp [writeAll, h]

instance : Codec T (List α) where
  write reg xs := (writeAll reg xs).map .slice
  read
    | .slice vs => vs.mapM Codec.read
    | _ => none
  read_write h := by
    obtain ⟨vs, hvs, rfl⟩ := Option.map_eq_some_iff.mp h
    exact read_writeAll hvs

theorem write_slice_isSome {xs : List α} :
    (Codec.write reg xs).isSome ↔ ∀ x ∈ xs, (Codec.write reg x).isSome := by
  rw [← writeAll_isSome]
  exact isSome_map_iff

/-- An integer is no slice. -/
@[simp] theorem read_slice_int (i : ℤ) :
    (Codec.read (Value.int i : Value T) : Option (List α)) = none := rfl

end Slice

/-! ## Interfaces -/

section Interface

variable [Concrete T α] {reg : T → Bool}

/-- An interface value: nil, or a value of a registered type. -/
def writeIface (reg : T → Bool) : Option α → Option (Value T)
  | none => some .nil
  | some x => if reg (Concrete.typeOf x) then
      (Concrete.write reg x).map (.iface (Concrete.typeOf x)) else none

theorem writeIface_some (x : α) : writeIface reg (some x) = if reg (Concrete.typeOf x) then
    (Concrete.write reg x).map (.iface (Concrete.typeOf x)) else none := rfl

instance : Codec T (Option α) where
  write := writeIface
  read
    | .nil => some none
    | .iface t v => (Concrete.read t v).map some
    | _ => none
  read_write {reg x v} h := by
    cases x with
    | none => cases h; rfl
    | some x =>
      rw [writeIface_some] at h
      split at h
      · obtain ⟨w, hw, rfl⟩ := Option.map_eq_some_iff.mp h
        simp [Concrete.read_write hw]
      · cases h

@[simp] theorem write_nil : (Codec.write reg (none : Option α)) = some .nil := rfl

theorem write_some_isSome {x : α} : (Codec.write reg (some x)).isSome ↔
    reg (Concrete.typeOf x) ∧ (Concrete.write reg x).isSome := by
  change (writeIface reg (some x)).isSome ↔ _
  rw [writeIface_some]
  split
  · rename_i h
    simp [h]
  · rename_i h
    simp [h]

end Interface

/-! ## Streams -/

abbrev Stream (T : Type) := List (Value T)

variable [Codec T α] {reg : T → Bool}

/-- `Encode` with its error ignored. -/
def encode (reg : T → Bool) (s : Stream T) (x : α) : Stream T := s ++ (Codec.write reg x).toList

/-- `Decode`: the value and the rest of the stream. -/
def decode (α : Type) [Codec T α] : Stream T → Option (α × Stream T)
  | [] => none
  | v :: s => (Codec.read v).map (·, s)

theorem decode_write {x : α} {v : Value T} (s : Stream T) (h : Codec.write reg x = some v) :
    decode α (v :: s) = some (x, s) := by
  rw [decode, Codec.read_write h]
  rfl

end CollabIde.Gob
