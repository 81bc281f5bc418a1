import Mathlib.Data.List.Basic
import Mathlib.Data.List.Infix

/-!
# Frames on a stream

A writer puts frames on a stream one after the other; a reader takes frame after frame until it
cannot read one. In a `Framing` a whole frame is read whatever follows it, and a part of a frame
cannot be read. So the reader of a stream that has been cut off anywhere gets exactly the frames
that are on it as a whole (`reads_of_prefix`).
-/

namespace CollabIde

/-- How frames are written and read; `Fits` says which frames can be written. -/
structure Framing (α β ε : Type) where
  write : α → List β
  read : List β → Except ε (α × List β)
  Fits : α → Prop
  read_write : ∀ {a : α} (l : List β), Fits a → read (write a ++ l) = .ok (a, l)
  read_nil : ∃ e, read [] = .error e
  read_part : ∀ {a : α} {l : List β}, Fits a → l <+: write a → l ≠ write a → ∃ e, read l = .error e

namespace Framing

variable {α β ε : Type} (F : Framing α β ε)

/-- Frames one after the other. -/
def stream (as : List α) : List β := as.flatMap F.write

/-- The reader gets the frames `as` and then the error `e`. -/
inductive Reads : List β → List α → ε → Prop
  | stop {l : List β} {e : ε} : F.read l = .error e → Reads l [] e
  | frame {l rest : List β} {a : α} {as : List α} {e : ε} : F.read l = .ok (a, rest) →
    Reads rest as e → Reads l (a :: as) e

/-- A part of a frame, or nothing after the last one. -/
inductive Part (as : List α) (k : ℕ) : List β → Prop
  | none : k = as.length → Part as k []
  | part {a : α} {rest : List β} : as[k]? = some a → rest <+: F.write a → rest ≠ F.write a →
    Part as k rest

variable {F} {l rest : List β} {a : α} {as bs : List α} {e : ε}

@[simp] theorem stream_nil : F.stream [] = [] := rfl

@[simp] theorem stream_cons : F.stream (a :: as) = F.write a ++ F.stream as := rfl

/-- The reader gets the frames of a stream before what follows them. -/
theorem reads_stream (h : ∀ a ∈ as, F.Fits a) :
    F.Reads (F.stream as ++ rest) bs e ↔ ∃ cs, bs = as ++ cs ∧ F.Reads rest cs e := by
  induction as generalizing bs with
  | nil => exact ⟨fun hr => ⟨bs, rfl, hr⟩, fun ⟨_, hbs, hr⟩ => hbs ▸ hr⟩
  | cons a as ih =>
    have hread := F.read_write (F.stream as ++ rest) (h a (List.mem_cons_self ..))
    have ih {bs : List α} := @ih bs fun b hb => h b (List.mem_cons_of_mem a hb)
    rw [stream_cons, List.append_assoc]
    constructor
    · intro hr
      cases hr with
      | stop hstop =>
        rw [hread] at hstop
        cases hstop
      | frame hframe hrest =>
        rw [hread] at hframe
        cases hframe
        obtain ⟨cs, rfl, hr⟩ := ih.mp hrest
        exact ⟨cs, rfl, hr⟩
    · rintro ⟨cs, rfl, hr⟩
      exact .frame hread (ih.mpr ⟨cs, rfl, hr⟩)

/-- What cannot be read as a frame ends the stream. -/
theorem reads_stop {e' : ε} (h : F.read l = .error e') : F.Reads l bs e ↔ bs = [] ∧ e = e' := by
  constructor
  · intro hr
    cases hr with
    | stop hstop =>
      rw [h] at hstop
      cases hstop
      exact ⟨rfl, rfl⟩
    | frame hframe _ =>
      rw [h] at hframe
      cases hframe
  · rintro ⟨rfl, rfl⟩
    exact .stop h

/-- A stream that has been cut off has some frames as a whole, and a part of the next one. -/
theorem exists_part (h : l <+: F.stream as) :
    ∃ k rest, l = F.stream (as.take k) ++ rest ∧ F.Part as k rest := by
  induction as generalizing l with
  | nil =>
    rw [stream_nil, List.prefix_nil] at h
    exact ⟨0, [], h, .none rfl⟩
  | cons a as ih =>
    by_cases hpart : l <+: F.write a ∧ l ≠ F.write a
    · exact ⟨0, l, rfl, .part rfl hpart.1 hpart.2⟩
    · have hwhole : F.write a <+: l := by
        obtain hle | hge := List.prefix_or_prefix_of_prefix h (List.prefix_append _ _)
        · rw [not_and, not_not] at hpart
          exact hpart hle ▸ List.prefix_rfl
        · exact hge
      obtain ⟨l', rfl⟩ := hwhole
      obtain ⟨k, rest, rfl, hrest⟩ := ih ((List.prefix_append_right_inj _).mp h)
      refine ⟨k + 1, rest, ?_, ?_⟩
      · rw [List.take_succ_cons, stream_cons, List.append_assoc]
      · cases hrest with
        | none hk => exact .none (by rw [hk, List.length_cons])
        | part ha hpre hne => exact .part (by rw [List.getElem?_cons_succ, ha]) hpre hne

theorem Part.read {k : ℕ} (hp : F.Part as k rest) (h : ∀ a ∈ as, F.Fits a) :
    ∃ e, F.read rest = .error e := by
  cases hp with
  | none _ => exact F.read_nil
  | part ha hpre hne => exact F.read_part (h _ (List.mem_of_getElem? ha)) hpre hne

/-- The reader of a stream that has been cut off gets exactly the frames that are on it as a
whole. -/
theorem reads_of_prefix (h : ∀ a ∈ as, F.Fits a) (hl : l <+: F.stream as) :
    ∃ k rest, l = F.stream (as.take k) ++ rest ∧ F.Part as k rest ∧
      ∀ bs e, F.Reads l bs e ↔ bs = as.take k ∧ F.read rest = .error e := by
  obtain ⟨k, rest, rfl, hpart⟩ := exists_part hl
  obtain ⟨e', he'⟩ := hpart.read h
  refine ⟨k, rest, rfl, hpart, fun bs e => ?_⟩
  rw [reads_stream fun a ha => h a (List.mem_of_mem_take ha), he']
  constructor
  · rintro ⟨cs, rfl, hr⟩
    obtain ⟨rfl, rfl⟩ := (reads_stop he').mp hr
    exact ⟨List.append_nil _, rfl⟩
  · rintro ⟨rfl, he⟩
    cases he
    exact ⟨[], (List.append_nil _).symm, .stop he'⟩

end Framing

end CollabIde
