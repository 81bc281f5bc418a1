import Mathlib.Algebra.Order.Group.Nat
import Mathlib.Data.List.Basic

/-!
# The text of a Yjs document

`Y.Text` as the page uses it: a text is a list of items, each a run of UTF-16 code units (the
content is `ContentString`; nothing is embedded or formatted, and what is deleted is left out). An
insertion and a deletion first split the item that an index lies in (`findPosition`). A split right
behind a high surrogate puts U+FFFD on both of its sides (`splice`); any other one keeps the text.
-/

namespace CollabIde

/-! ## UTF-16 -/

/-- The code units of a character. -/
def utf16Char (c : Char) : List UInt16 :=
  if c.toNat < 0x10000 then [c.toNat.toUInt16]
  else
    let v := c.toNat - 0x10000
    [(0xD800 + v / 0x400).toUInt16, (0xDC00 + v % 0x400).toUInt16]

/-- The code units of a string. -/
def utf16 (s : String) : List UInt16 := s.toList.flatMap utf16Char

def isHighSurrogate (u : UInt16) : Bool := 0xD800 ≤ u.toNat && u.toNat ≤ 0xDBFF

/-- The text ends with the first half of a pair. -/
def endsHigh (text : List UInt16) : Bool := text.getLast?.any isHighSurrogate

theorem utf16_eq_nil {s : String} : utf16 s = [] ↔ s = "" := by
  constructor
  · intro h
    have hall := List.flatMap_eq_nil_iff.mp h
    have hnil : s.toList = [] := by
      refine List.eq_nil_iff_forall_not_mem.mpr fun c hc => ?_
      have hc := hall c hc
      unfold utf16Char at hc
      split at hc <;> cases hc
    exact String.toList_eq_nil_iff.mp hnil
  · rintro rfl
    rfl

theorem endsHigh_append {a b : List UInt16} (hb : b ≠ []) : endsHigh (a ++ b) = endsHigh b := by
  unfold endsHigh
  rw [List.getLast?_append_of_ne_nil a hb]

theorem isHighSurrogate_eq_false {u : UInt16} (h : u.toNat < 0xD800 ∨ 0xDBFF < u.toNat) :
    isHighSurrogate u = false := by
  unfold isHighSurrogate
  rw [Bool.and_eq_false_iff, decide_eq_false_iff_not, decide_eq_false_iff_not]
  omega

/-- A character ends with its only unit or with a low surrogate. -/
theorem endsHigh_utf16Char (c : Char) : endsHigh (utf16Char c) = false := by
  have hvalid : c.toNat < 0xD800 ∨ 0xDFFF < c.toNat ∧ c.toNat < 0x110000 := c.valid
  unfold utf16Char
  have hlast (a : List UInt16) (u : UInt16) : endsHigh (a ++ [u]) = isHighSurrogate u := by
    rw [endsHigh_append (List.cons_ne_nil _ _)]
    rfl
  split
  · refine (hlast [] _).trans (isHighSurrogate_eq_false ?_)
    rw [Nat.toUInt16_eq, UInt16.toNat_ofNat']
    omega
  · refine (hlast [_] _).trans (isHighSurrogate_eq_false ?_)
    rw [Nat.toUInt16_eq, UInt16.toNat_ofNat']
    omega

theorem utf16Char_ne_nil (c : Char) : utf16Char c ≠ [] := by
  unfold utf16Char
  split <;> exact List.cons_ne_nil _ _

/-- A string has no half of a pair at its end. -/
theorem endsHigh_utf16 (s : String) : endsHigh (utf16 s) = false := by
  unfold utf16
  obtain hnil | ⟨cs, c, hcs⟩ := s.toList.eq_nil_or_concat
  · rw [hnil]
    rfl
  · rw [hcs, List.concat_eq_append, List.flatMap_append, List.flatMap_singleton,
      endsHigh_append (utf16Char_ne_nil c)]
    exact endsHigh_utf16Char c

/-! ## Items -/

/-- `ContentString.splice`: the item keeps what is left of the offset, and a new one gets the
rest. -/
def splice (str : List UInt16) (offset : ℕ) : List UInt16 × List UInt16 :=
  if endsHigh (str.take offset) then
    (str.take (offset - 1) ++ [0xFFFD], 0xFFFD :: str.drop (offset + 1))
  else (str.take offset, str.drop offset)

/-- `findPosition`: the items to the left of an index, and those to its right. -/
def findPosition : List (List UInt16) → ℕ → List (List UInt16) × List (List UInt16)
  | [], _ => ([], [])
  | item :: rest, count =>
    if count = 0 then ([], item :: rest)
    else if count < item.length then
      ([(splice item count).1], (splice item count).2 :: rest)
    else
      (item :: (findPosition rest (count - item.length)).1,
        (findPosition rest (count - item.length)).2)

/-- `ytext.insert`. -/
def insertText (items : List (List UInt16)) (index : ℕ) (text : List UInt16) :
    List (List UInt16) :=
  if text = [] then items
  else (findPosition items index).1 ++ text :: (findPosition items index).2

/-- `ytext.delete`. -/
def deleteText (items : List (List UInt16)) (index length : ℕ) : List (List UInt16) :=
  if length = 0 then items
  else (findPosition items index).1 ++ (findPosition (findPosition items index).2 length).2

/-- The index lies in an item, right behind a high surrogate. -/
def splitsPair : List (List UInt16) → ℕ → Bool
  | [], _ => false
  | item :: rest, index =>
    if index < item.length then endsHigh (item.take index)
    else splitsPair rest (index - item.length)

section Splice

variable {str : List UInt16} {offset : ℕ}

theorem splice_eq (h : endsHigh (str.take offset) = false) :
    splice str offset = (str.take offset, str.drop offset) := by
  rw [splice, if_neg (by rw [h]; exact Bool.false_ne_true)]

theorem endsHigh_ne_nil (h : endsHigh str = true) : str ≠ [] := by
  rintro rfl
  cases h

/-- Both parts have as many units as without the replacement. -/
theorem length_splice (h : offset < str.length) :
    (splice str offset).1.length = offset ∧ (splice str offset).2.length = str.length - offset := by
  unfold splice
  split
  · rename_i hhigh
    have hne : offset ≠ 0 := by
      rintro rfl
      exact endsHigh_ne_nil hhigh rfl
    simp only [List.length_append, List.length_take, List.length_cons, List.length_nil,
      List.length_drop]
    omega
  · exact ⟨List.length_take_of_le h.le, List.length_drop⟩

/-- The left part no longer ends with the first half. -/
theorem splice_ne (h : endsHigh (str.take offset) = true) :
    (splice str offset).1 ≠ str.take offset := by
  intro heq
  rw [splice, if_pos h] at heq
  have hend := congrArg endsHigh heq
  rw [endsHigh_append (List.cons_ne_nil _ _), h] at hend
  exact absurd hend (by decide)

end Splice

section Position

variable {items : List (List UInt16)} {index : ℕ}

theorem length_findPosition (h : index ≤ items.flatten.length) :
    (findPosition items index).1.flatten.length = index ∧
      (findPosition items index).2.flatten.length = items.flatten.length - index := by
  induction items generalizing index with
  | nil =>
    obtain rfl : index = 0 := Nat.le_zero.mp h
    exact ⟨rfl, rfl⟩
  | cons item rest ih =>
    rw [List.flatten_cons, List.length_append] at h ⊢
    unfold findPosition
    split
    · rename_i h0
      subst h0
      simp
    split
    · rename_i hlt
      obtain ⟨hleft, hright⟩ := length_splice hlt
      simp only [List.flatten_cons, List.flatten_nil, List.append_nil, List.length_append, hleft,
        hright, true_and]
      omega
    · have hrest : index - item.length ≤ rest.flatten.length := by omega
      obtain ⟨hleft, hright⟩ := ih hrest
      simp only [List.flatten_cons, List.length_append, hleft, hright]
      omega

/-- A split that breaks no pair keeps the text. -/
theorem findPosition_eq (h : splitsPair items index = false) :
    (findPosition items index).1.flatten = items.flatten.take index ∧
      (findPosition items index).2.flatten = items.flatten.drop index := by
  induction items generalizing index with
  | nil => exact ⟨(List.take_nil).symm, (List.drop_nil).symm⟩
  | cons item rest ih =>
    rw [List.flatten_cons]
    unfold splitsPair at h
    unfold findPosition
    split
    · rename_i h0
      subst h0
      exact ⟨rfl, rfl⟩
    split
    · rename_i hlt
      rw [if_pos hlt] at h
      rw [splice_eq h, List.take_append_of_le_length hlt.le, List.drop_append_of_le_length hlt.le]
      exact ⟨List.append_nil _, List.flatten_cons⟩
    · rename_i hge
      rw [if_neg hge] at h
      obtain ⟨hleft, hright⟩ := ih h
      rw [not_lt] at hge
      rw [List.take_append, List.drop_append, List.take_of_length_le hge,
        List.drop_of_length_le hge, List.flatten_cons, hleft, hright, List.nil_append]
      exact ⟨rfl, rfl⟩

theorem splitsPair_zero : (items : List (List UInt16)) → splitsPair items 0 = false
  | [] => rfl
  | item :: rest => by
    unfold splitsPair
    split
    · rfl
    · rw [Nat.zero_sub]
      exact splitsPair_zero rest

/-- A split that breaks a pair changes the text before the index. -/
theorem findPosition_ne (h : splitsPair items index = true) :
    (findPosition items index).1.flatten ≠ items.flatten.take index := by
  have h0 : index ≠ 0 := by
    rintro rfl
    rw [splitsPair_zero] at h
    cases h
  induction items generalizing index with
  | nil => cases h
  | cons item rest ih =>
    rw [List.flatten_cons]
    unfold splitsPair at h
    unfold findPosition
    rw [if_neg h0]
    split at h
    · rename_i hlt
      rw [if_pos hlt, List.take_append_of_le_length hlt.le]
      exact fun heq => splice_ne h ((List.append_nil _).symm.trans heq)
    · rename_i hge
      have hrest : index - item.length ≠ 0 := by
        intro hz
        rw [hz, splitsPair_zero] at h
        cases h
      rw [if_neg hge, List.take_append, List.take_of_length_le (not_lt.mp hge), List.flatten_cons]
      exact fun heq => ih h hrest (List.append_cancel_left heq)

/-- The text before the index then ends with the first half of a pair. -/
theorem endsHigh_of_splitsPair (h : splitsPair items index = true) :
    endsHigh (items.flatten.take index) = true := by
  induction items generalizing index with
  | nil => cases h
  | cons item rest ih =>
    rw [List.flatten_cons]
    unfold splitsPair at h
    split at h
    · rename_i hlt
      rw [List.take_append_of_le_length hlt.le]
      exact h
    · rename_i hge
      have hend := ih h
      rw [List.take_append, List.take_of_length_le (not_lt.mp hge),
        endsHigh_append (endsHigh_ne_nil hend)]
      exact hend

/-- Between two items nothing is split. -/
theorem findPosition_append {left right : List (List UInt16)} (h : left.flatten.length = index) :
    (findPosition (left ++ right) index).1.flatten = left.flatten ∧
      (findPosition (left ++ right) index).2.flatten = right.flatten := by
  have hkeep : splitsPair (left ++ right) index = false := by
    subst h
    induction left with
    | nil => exact splitsPair_zero right
    | cons item rest ih =>
      rw [List.flatten_cons, List.length_append, List.cons_append, splitsPair,
        if_neg (by omega), Nat.add_sub_cancel_left]
      exact ih
  obtain ⟨hleft, hright⟩ := findPosition_eq hkeep
  rw [hleft, hright, List.flatten_append]
  exact ⟨List.take_left' h, List.drop_left' h⟩

theorem findPosition_zero (items : List (List UInt16)) : findPosition items 0 = ([], items) := by
  cases items with
  | nil => rfl
  | cons item rest => rw [findPosition, if_pos rfl]

theorem insertText_flatten {text : List UInt16} (h : text ≠ []) :
    (insertText items index text).flatten =
      (findPosition items index).1.flatten ++ text ++ (findPosition items index).2.flatten := by
  rw [insertText, if_neg h, List.flatten_append, List.flatten_cons, List.append_assoc]

/-- A "c" in the middle of a pair. -/
example : (insertText [[0xD83D, 0xDE00]] 1 (utf16 "c")).flatten = [0xFFFD, 0x63, 0xFFFD] := by
  decide

theorem length_insertText (h : index ≤ items.flatten.length) (text : List UInt16) :
    (insertText items index text).flatten.length = items.flatten.length + text.length := by
  by_cases hnil : text = []
  · rw [insertText, if_pos hnil, hnil]
    rfl
  · obtain ⟨hleft, hright⟩ := length_findPosition h
    rw [insertText_flatten hnil, List.length_append, List.length_append, hleft, hright]
    omega

end Position

end CollabIde
