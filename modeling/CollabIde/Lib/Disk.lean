import Mathlib.Logic.Function.Basic
import Mathlib.Data.List.TakeDrop

/-!
# Files and crashes

A disk is what its files hold, by their paths. A program gives it operations one after the other,
and may crash in between, or in the middle of a write, which then leaves a part of the data.

* `Disk.run`: operations to their end; `Disk.crash`: what is left by a crash in them.
* `Disk.crash_replace`: a file that is written to another path first and then renamed keeps what it
  held, or holds all that was written.
-/

namespace CollabIde

/-- The files by their paths. -/
abbrev Disk (P B : Type) : Type := P → Option (List B)

namespace Disk

variable {P B : Type} [DecidableEq P]

inductive Op (P B : Type) where
  | writeFile (path : P) (data : List B)
  /-- Atomic, and takes the place of what is at the new path. -/
  | rename (oldpath newpath : P)

/-- An operation to its end; `none` is an error. -/
def Op.run (d : Disk P B) : Op P B → Option (Disk P B)
  | .writeFile path data => some (Function.update d path (some data))
  | .rename oldpath newpath => (d oldpath).map fun data =>
    Function.update (Function.update d oldpath none) newpath (some data)

def run (d : Disk P B) : List (Op P B) → Option (Disk P B)
  | [] => some d
  | op :: ops => (op.run d).bind fun d' => run d' ops

/-- An operation that a crash stops; `cut` is how much it has written, if it has begun to. -/
def Op.stop (d : Disk P B) : Op P B → Option ℕ → Disk P B
  | .writeFile path data, some cut => Function.update d path (some (data.take cut))
  | .writeFile _ _, none | .rename _ _, _ => d

/-- A crash in the operation behind the first `k`. -/
def crash (d : Disk P B) : List (Op P B) → ℕ → Option ℕ → Option (Disk P B)
  | [], _, _ => some d
  | op :: _, 0, cut => some (op.stop d cut)
  | op :: ops, k + 1, cut => (op.run d).bind fun d' => crash d' ops k cut

/-- The data at the path, with nothing left at the temporary one. -/
def replace (d : Disk P B) (tmp path : P) (data : List B) : Disk P B :=
  Function.update (Function.update d tmp none) path (some data)

variable {d d' : Disk P B} {tmp path : P} {data : List B} {ops rest : List (Op P B)} {k : ℕ}
  {cut : Option ℕ}

theorem replace_self : d.replace tmp path data path = some data := Function.update_self ..

theorem replace_of_ne {p : P} (ht : p ≠ tmp) (hp : p ≠ path) : d.replace tmp path data p = d p := by
  rw [replace, Function.update_of_ne hp, Function.update_of_ne ht]

/-- A write and a rename. -/
theorem run_replace :
    d.run (.writeFile tmp data :: .rename tmp path :: rest) =
      (d.replace tmp path data).run rest := by
  rw [run, Op.run, Option.bind_some, run, Op.run, Function.update_self, Option.map_some,
    Option.bind_some, Function.update_idem]
  rfl

theorem run_append {d₁ : Disk P B} (h : d.run ops = some d₁) (h₁ : d₁.run rest = some d') :
    d.run (ops ++ rest) = some d' := by
  induction ops generalizing d with
  | nil =>
    cases h
    exact h₁
  | cons op ops ih =>
    obtain ⟨d₂, h₂, h⟩ := Option.bind_eq_some_iff.mp h
    rw [List.cons_append, run, h₂, Option.bind_some]
    exact ih h

/-- What is not written to the end is not at the path. -/
theorem crash_replace
    (h : d.crash (.writeFile tmp data :: .rename tmp path :: rest) k cut = some d') :
    (∀ p, p ≠ tmp → d' p = d p) ∨
      ∃ j, (d.replace tmp path data).crash rest j cut = some d' := by
  match k with
  | 0 =>
    left
    intro p hp
    cases h
    cases cut with
    | none => rfl
    | some cut => exact Function.update_of_ne hp ..
  | 1 =>
    left
    intro p hp
    cases h
    cases cut <;> exact Function.update_of_ne hp ..
  | k + 2 =>
    right
    refine ⟨k, ?_⟩
    rw [crash, Op.run, Option.bind_some, crash, Op.run, Function.update_self, Option.map_some,
      Option.bind_some, Function.update_idem] at h
    exact h

/-- A crash after some of the operations, and before the next one writes. -/
theorem crash_append (h : d.run ops = some d') :
    d.crash (ops ++ rest) ops.length none = some d' := by
  induction ops generalizing d with
  | nil =>
    cases h
    cases rest with
    | nil => rfl
    | cons op rest => cases op <;> rfl
  | cons op ops ih =>
    obtain ⟨d₁, h₁, h⟩ := Option.bind_eq_some_iff.mp h
    rw [List.cons_append, List.length_cons, crash, h₁, Option.bind_some]
    exact ih h

end Disk

end CollabIde
