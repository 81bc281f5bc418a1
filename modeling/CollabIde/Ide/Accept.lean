import CollabIde.Ide.Frontend
import CollabIde.Ide.YText

/-!
# Accepting a proposal

`handleAcceptProposal` of the page, with `positionUtils.js`: whether the proposal is stale, which
range it resolves to, and the edit are three computations on the same document. A document is its
text with what its relative positions resolve to.

The edit replaces the text that the proposal was made for, or the proposal is rejected, exactly if
the proposal has both positions, these are one when it has no original text, and the edit does not
split a surrogate pair: an empty original text is compared with nothing, without positions there is
no comparison and no index, and Yjs puts U+FFFD in the place of the halves of a pair.
-/

namespace CollabIde

/-- A document of Yjs. -/
structure YDoc where
  /-- The items of `ydoc.getText('content')`. -/
  items : List (List UInt16)
  /-- What a relative position in base64 resolves to: `none` is null or an exception. -/
  position : String → Option ℕ
  /-- Where an insertion at `undefined` goes. -/
  undefinedIndex : ℕ
  position_le : ∀ r i, position r = some i → i ≤ items.flatten.length
  /-- Nothing cannot be decoded. -/
  position_empty : position "" = none

namespace YDoc

variable (ydoc : YDoc)

/-- `ydoc.getText('content').toString()`. -/
def text : List UInt16 := ydoc.items.flatten

/-- `text.slice(start, end)` for indices in the text. -/
def slice (start stop : ℕ) : List UInt16 := (ydoc.text.drop start).take (stop - start)

/-- `resolveRange`. -/
def resolveRange (relStart relEnd : String) : Option (ℕ × ℕ) := do
  let start ← ydoc.position relStart
  let stop ← ydoc.position relEnd
  some (start, stop)

def isStale (p : Proposal) : Bool :=
  if p.relStart = "" ∨ p.relEnd = "" then false
  else match ydoc.resolveRange p.relStart p.relEnd with
    | none => true
    | some (start, stop) =>
      if p.originalText = "" then false else ydoc.slice start stop ≠ utf16 p.originalText

end YDoc

/-- The frame that is sent. -/
inductive Decision where
  | accept (p : Proposal)
  | reject (id : String)

/-- What a click leaves: the text, the frame, and the proposals that the page still shows. -/
structure Clicked where
  text : List UInt16
  sent : Decision
  proposals : List Proposal

section Click

variable (ydoc : YDoc) (proposals : List Proposal) (p : Proposal)

def handleRejectProposal : Clicked where
  text := ydoc.text
  sent := .reject p.id
  proposals := proposals.filter (·.id ≠ p.id)

/-- The end of `handleAcceptProposal`. -/
def accepted (items : List (List UInt16)) : Clicked where
  text := items.flatten
  sent := .accept p
  proposals := proposals.filter (·.id ≠ p.id)

/-- The edit of the range. -/
def replaceRange (start stop : ℕ) : List (List UInt16) :=
  let items := if start < stop then deleteText ydoc.items start (stop - start) else ydoc.items
  insertText items start (utf16 p.replacement)

/-- The server forwards no `startIndex` and no `endIndex`: without positions both are `undefined`,
nothing is deleted, and the insertion has no index. -/
def handleAcceptProposal : Clicked :=
  if p.relStart ≠ "" ∧ p.relEnd ≠ "" then
    if ydoc.isStale p then handleRejectProposal ydoc proposals p
    else match ydoc.resolveRange p.relStart p.relEnd with
      | none => handleRejectProposal ydoc proposals p
      | some (start, stop) => accepted proposals p (replaceRange ydoc p start stop)
  else accepted proposals p (insertText ydoc.items ydoc.undefinedIndex (utf16 p.replacement))

end Click

/-- The document is left and the proposal rejected, or the range that it resolves to has the
original text and is replaced. -/
def Exact (ydoc : YDoc) (p : Proposal) (c : Clicked) : Prop :=
  (c.text = ydoc.text ∧ c.sent = .reject p.id) ∨
    ∃ start stop, ydoc.resolveRange p.relStart p.relEnd = some (start, stop) ∧
      ydoc.slice start stop = utf16 p.originalText ∧
      c.text = ydoc.text.take start ++ utf16 p.replacement ++ ydoc.text.drop stop

variable {ydoc : YDoc} {proposals : List Proposal} {p : Proposal} {start stop : ℕ}

namespace YDoc

theorem resolveRange_le (h : ydoc.resolveRange p.relStart p.relEnd = some (start, stop)) :
    start ≤ ydoc.text.length ∧ stop ≤ ydoc.text.length := by
  obtain ⟨i, hi, h⟩ := Option.bind_eq_some_iff.mp h
  obtain ⟨j, hj, h⟩ := Option.bind_eq_some_iff.mp h
  cases h
  exact ⟨ydoc.position_le _ _ hi, ydoc.position_le _ _ hj⟩

/-- Without a position there is no range. -/
theorem resolveRange_none (h : p.relStart = "" ∨ p.relEnd = "") :
    ydoc.resolveRange p.relStart p.relEnd = none := by
  unfold resolveRange
  obtain h | h := h
  · rw [h, position_empty]
    rfl
  · rw [h, position_empty]
    cases ydoc.position p.relStart <;> rfl

/-- What cannot be resolved is stale. -/
theorem isStale_none (hrel : p.relStart ≠ "" ∧ p.relEnd ≠ "")
    (hrange : ydoc.resolveRange p.relStart p.relEnd = none) : ydoc.isStale p = true := by
  rw [isStale, if_neg (not_or.mpr hrel), hrange]

/-- What is resolved is stale if there is an original text and the range has another one. -/
theorem isStale_some (hrel : p.relStart ≠ "" ∧ p.relEnd ≠ "")
    (hrange : ydoc.resolveRange p.relStart p.relEnd = some (start, stop)) :
    ydoc.isStale p = true ↔
      p.originalText ≠ "" ∧ ydoc.slice start stop ≠ utf16 p.originalText := by
  rw [isStale, if_neg (not_or.mpr hrel), hrange]
  dsimp only
  split
  · rename_i h
    exact iff_of_false Bool.false_ne_true fun hne => hne.1 h
  · rename_i h
    rw [decide_eq_true_eq]
    exact (and_iff_right h).symm

/-- The text of a range is empty if the range is. -/
theorem slice_eq_nil (hstart : start ≤ ydoc.text.length) (hstop : stop ≤ ydoc.text.length) :
    ydoc.slice start stop = [] ↔ stop ≤ start := by
  unfold slice
  rw [← List.length_eq_zero_iff, List.length_take, List.length_drop]
  omega

end YDoc

/-- The edit cuts the text at the start of its range. -/
def Cuts (ydoc : YDoc) (p : Proposal) (start stop : ℕ) : Prop :=
  ydoc.slice start stop = utf16 p.originalText ∧ (p.originalText ≠ "" ∨ p.replacement ≠ "")

/-- What an edit that cuts leaves. -/
theorem replaceRange_flatten (h : start ≤ stop) (hstop : stop ≤ ydoc.text.length)
    (hcuts : start < stop ∨ p.replacement ≠ "") :
    (replaceRange ydoc p start stop).flatten =
      (findPosition ydoc.items start).1.flatten ++ utf16 p.replacement ++
        (findPosition (findPosition ydoc.items start).2 (stop - start)).2.flatten := by
  have hlen : (findPosition ydoc.items start).1.flatten.length = start :=
    (length_findPosition (h.trans hstop)).1
  unfold replaceRange
  obtain rfl | hlt := h.eq_or_lt
  · have hne : utf16 p.replacement ≠ [] :=
      mt utf16_eq_nil.mp (hcuts.resolve_left (lt_irrefl _))
    rw [if_neg (lt_irrefl _), insertText_flatten hne, Nat.sub_self, findPosition_zero]
  · rw [if_pos hlt, deleteText, if_neg (by omega)]
    by_cases hnil : utf16 p.replacement = []
    · rw [insertText, if_pos hnil, hnil, List.flatten_append, List.append_nil]
    · rw [insertText_flatten hnil, (findPosition_append hlen).1, (findPosition_append hlen).2]

/-- The edit of a range in order that splits no pair at its start. -/
theorem replaceRange_eq (h : start ≤ stop) (hstop : stop ≤ ydoc.text.length)
    (hslice : ydoc.slice start stop = utf16 p.originalText)
    (hkeep : Cuts ydoc p start stop → splitsPair ydoc.items start = false) :
    (replaceRange ydoc p start stop).flatten =
      ydoc.text.take start ++ utf16 p.replacement ++ ydoc.text.drop stop := by
  by_cases hcuts : start < stop ∨ p.replacement ≠ ""
  · have horiginal : p.originalText ≠ "" ∨ p.replacement ≠ "" := by
      refine hcuts.imp_left fun hlt hempty => ?_
      have hnil := hslice.trans (utf16_eq_nil.mpr hempty)
      exact hlt.not_ge ((YDoc.slice_eq_nil (h.trans hstop) hstop).mp hnil)
    obtain ⟨hleft, hright⟩ := findPosition_eq (hkeep ⟨hslice, horiginal⟩)
    -- the original text has no half of a pair at its end, so that the other split keeps all
    have hend : splitsPair (findPosition ydoc.items start).2 (stop - start) = false := by
      by_contra hsplit
      have hhigh := endsHigh_of_splitsPair (Bool.not_eq_false _ ▸ hsplit)
      rw [hright] at hhigh
      change endsHigh (ydoc.slice start stop) = true at hhigh
      rw [hslice, endsHigh_utf16] at hhigh
      cases hhigh
    rw [replaceRange_flatten h hstop hcuts, hleft, (findPosition_eq hend).2, hright,
      List.drop_drop, Nat.add_sub_cancel' h]
    rfl
  · obtain ⟨hge, hempty⟩ := not_or.mp hcuts
    obtain rfl : start = stop := le_antisymm h (not_lt.mp hge)
    have hnil : utf16 p.replacement = [] := utf16_eq_nil.mpr (not_not.mp hempty)
    rw [replaceRange, if_neg hge, insertText, if_pos hnil, hnil, List.append_nil,
      List.take_append_drop]
    rfl

/-- An edit that splits a pair at its start changes the text before it. -/
theorem replaceRange_splits (h : start ≤ stop) (hstop : stop ≤ ydoc.text.length)
    (hcuts : start < stop ∨ p.replacement ≠ "") (hsplit : splitsPair ydoc.items start = true) :
    (replaceRange ydoc p start stop).flatten ≠
      ydoc.text.take start ++ utf16 p.replacement ++ ydoc.text.drop stop := by
  intro heq
  have hlen : (findPosition ydoc.items start).1.flatten.length = start :=
    (length_findPosition (h.trans hstop)).1
  have hlen' : (ydoc.text.take start).length = start := List.length_take_of_le (h.trans hstop)
  rw [replaceRange_flatten h hstop hcuts, List.append_assoc, List.append_assoc] at heq
  exact findPosition_ne hsplit (List.append_inj heq (hlen.trans hlen'.symm)).1

/-- The edit of an inverted range keeps what lies between its ends. -/
theorem replaceRange_ne (h : stop < start) (hstart : start ≤ ydoc.text.length) :
    (replaceRange ydoc p start stop).flatten ≠
      ydoc.text.take start ++ utf16 p.replacement ++ ydoc.text.drop stop := by
  intro heq
  have hlen := congrArg List.length heq
  unfold replaceRange at hlen
  rw [if_neg h.not_gt, length_insertText hstart] at hlen
  change ydoc.text.length + _ = _ at hlen
  simp only [List.length_append, List.length_take, List.length_drop] at hlen
  omega

/-- **Accepting a proposal is exact** if and only if it has both positions and, where they resolve
to a range, the range is empty if the original text is, and an edit does not split a pair. -/
theorem accept_exact (ydoc : YDoc) (proposals : List Proposal) (p : Proposal) :
    Exact ydoc p (handleAcceptProposal ydoc proposals p) ↔
      p.relStart ≠ "" ∧ p.relEnd ≠ "" ∧ ∀ start stop,
        ydoc.resolveRange p.relStart p.relEnd = some (start, stop) →
        (p.originalText = "" → start = stop) ∧
          (Cuts ydoc p start stop → splitsPair ydoc.items start = false) := by
  unfold handleAcceptProposal
  by_cases hrel : p.relStart ≠ "" ∧ p.relEnd ≠ ""
  · rw [if_pos hrel]
    cases hrange : ydoc.resolveRange p.relStart p.relEnd with
    | none =>
      rw [if_pos (YDoc.isStale_none hrel hrange)]
      refine iff_of_true (.inl ⟨rfl, rfl⟩) ⟨hrel.1, hrel.2, fun start stop h => ?_⟩
      cases h
    | some range =>
      obtain ⟨start, stop⟩ := range
      obtain ⟨hstart, hstop⟩ := YDoc.resolveRange_le hrange
      have hstale := YDoc.isStale_some hrel hrange
      by_cases hdiffers : p.originalText ≠ "" ∧ ydoc.slice start stop ≠ utf16 p.originalText
      · rw [if_pos (hstale.mpr hdiffers)]
        refine iff_of_true (.inl ⟨rfl, rfl⟩) ⟨hrel.1, hrel.2, fun i j h => ?_⟩
        cases h
        exact ⟨fun h => absurd h hdiffers.1, fun h => absurd h.1 hdiffers.2⟩
      rw [if_neg fun h => hdiffers (hstale.mp h)]
      constructor
      · rintro (⟨-, h⟩ | ⟨i, j, hij, hslice, htext⟩)
        · cases h
        cases hrange.symm.trans hij
        have hle : start ≤ stop := by
          by_contra hlt
          exact replaceRange_ne (not_le.mp hlt) hstart htext
        refine ⟨hrel.1, hrel.2, fun i j h => ?_⟩
        cases h
        refine ⟨fun hempty => ?_, fun hcuts => ?_⟩
        · rw [hempty, utf16_eq_nil.mpr rfl, YDoc.slice_eq_nil hstart hstop] at hslice
          exact le_antisymm hle hslice
        · by_contra hsplit
          refine replaceRange_splits hle hstop (hcuts.2.imp_left fun hne => ?_)
            (Bool.not_eq_false _ ▸ hsplit) htext
          by_contra hge
          have hnil := (YDoc.slice_eq_nil hstart hstop).mpr (not_lt.mp hge)
          exact hne (utf16_eq_nil.mp (hslice.symm.trans hnil))
      · rintro ⟨-, -, h⟩
        obtain ⟨hempty, hkeep⟩ := h start stop rfl
        have hslice : ydoc.slice start stop = utf16 p.originalText := by
          by_cases horiginal : p.originalText = ""
          · rw [horiginal, utf16_eq_nil.mpr rfl, YDoc.slice_eq_nil hstart hstop]
            exact (hempty horiginal).ge
          · exact not_not.mp fun h => hdiffers ⟨horiginal, h⟩
        have hle : start ≤ stop := by
          by_cases horiginal : p.originalText = ""
          · exact (hempty horiginal).le
          · by_contra hlt
            have hnil := (YDoc.slice_eq_nil hstart hstop).mpr (not_le.mp hlt).le
            exact horiginal (utf16_eq_nil.mp (hslice.symm.trans hnil))
        exact .inr ⟨start, stop, hrange, hslice, replaceRange_eq hle hstop hslice hkeep⟩
  · rw [if_neg hrel]
    have hor : p.relStart = "" ∨ p.relEnd = "" := by
      by_contra h
      exact hrel (not_or.mp h)
    refine iff_of_false ?_ fun h => hrel ⟨h.1, h.2.1⟩
    rintro (⟨-, h⟩ | ⟨start, stop, h, -⟩)
    · cases h
    · cases (YDoc.resolveRange_none hor).symm.trans h

/-- The text "ab", where the positions "s" and "e" are the two ends. -/
def twoLetters : YDoc where
  items := [utf16 "ab"]
  position r := if r = "s" then some 0 else if r = "e" then some 2 else none
  undefinedIndex := 0
  position_le r i h := by
    split at h
    · cases h
      exact Nat.zero_le _
    · split at h
      · cases h
        decide
      · cases h
  position_empty := rfl

/-- A proposal with an empty original text deletes the whole text. -/
theorem accept_deletes : ¬ ∀ (ydoc : YDoc) (proposals : List Proposal) (p : Proposal),
    Exact ydoc p (handleAcceptProposal ydoc proposals p) := by
  intro h
  obtain ⟨-, hsent⟩ | ⟨start, stop, hrange, hslice, -⟩ :=
    h twoLetters [] { id := "p", replacement := "c", relStart := "s", relEnd := "e" }
  · cases hsent
  · cases hrange
    revert hslice
    decide

end CollabIde
