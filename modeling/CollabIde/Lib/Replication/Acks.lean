import CollabIde.Lib.Replication.Elections

/-!
# Stored entries stay

Under the disciplines of terms and acks, a node keeps what it has stored of a leader's history as
long as its stored term is that leader's (`Acks.now`): what the leader counts on is still there.
-/

set_option linter.unusedSectionVars false

namespace CollabIde.Replication

variable {N T E : Type} [DecidableEq N] [Fintype N] [LinearOrder T] [HasTerm E T]

structure Acks (a : State N T E) : Prop where
  le : ∀ {v t}, 0 < a.ack v t →
    t ≤ (a.node v).saved ∧ ∃ c L, a.ldr t = some (c, L) ∧ a.ack v t ≤ L.length
  now : ∀ {v c L}, a.ldr (a.node v).saved = some (c, L) →
    L.take (a.ack v (a.node v).saved) <+: (a.node v).hist
  leader : ∀ {c}, (a.node c).role = .leader → a.ack c (a.node c).term = (a.node c).hist.length

namespace Acks

variable {D : Discipline} {a a' : State N T E} {t₀ t : T} {v c : N} {L M m : List E} {k : ℕ}

theorem start (h : Start t₀ a) : Acks a where
  le {v t} ha := by rw [h.ack] at ha; cases ha
  now hl := by rw [h.ldr] at hl; cases hl
  leader {c} hc := by rw [h.node] at hc; cases hc

theorem ack_le_length (hi : Acks a) (hl : a.ldr t = some (c, L)) : a.ack v t ≤ L.length := by
  rcases Nat.eq_zero_or_pos (a.ack v t) with h | h
  · omega
  · obtain ⟨-, d, L', hl', hle⟩ := hi.le h
    rw [hl] at hl'
    cases hl'
    exact hle

/-- Nothing is stored of a term without a leader. -/
theorem ack_none (hi : Acks a) (hl : a.ldr t = none) : a.ack v t = 0 := by
  rcases Nat.eq_zero_or_pos (a.ack v t) with h | h
  · exact h
  · obtain ⟨-, d, L', hl', -⟩ := hi.le h
    rw [hl] at hl'
    cases hl'

/-- What a node has stored of a term is still in its history when it stores that term. -/
theorem now_of_le (hi : Acks a) (ht : (a.node v).saved ≤ t) (hl : a.ldr t = some (c, L)) :
    L.take (a.ack v t) <+: (a.node v).hist := by
  rcases ht.eq_or_lt with rfl | hlt
  · exact hi.now hl
  · have : a.ack v t = 0 := by
      by_contra h0
      have := (hi.le (Nat.pos_of_ne_zero h0)).1
      order
    rw [this, List.take_zero]
    exact List.nil_prefix

/-- A change of one node that stores no earlier term and keeps what it has stored of its term. -/
theorem set (hi : Acks a) {x : Node N T E} (hm : (a.node v).saved ≤ x.saved)
    (hn : ∀ d L, a.ldr x.saved = some (d, L) → L.take (a.ack v x.saved) <+: x.hist)
    (hl : x.role = .leader → a.ack v x.term = x.hist.length) : Acks (a.set v x) where
  le {w u} h := by
    obtain ⟨h1, h2⟩ := hi.le (v := w) (t := u) h
    refine ⟨?_, h2⟩
    rw [set_node]; split
    · subst_vars; exact h1.trans hm
    · exact h1
  now {w d L} h := by
    rw [set_node] at h ⊢
    split at h
    · subst_vars
      simp only [↓reduceIte]
      exact hn d L h
    · rename_i hw
      simp only [hw, ↓reduceIte]
      exact hi.now h
  leader {w} h := by
    rw [set_node] at h ⊢
    split at h
    · subst_vars
      simp only [↓reduceIte]
      exact hl h
    · rename_i hw
      simp only [hw, ↓reduceIte]
      exact hi.leader h

/-- The same history. -/
theorem set_same (hi : Acks a) {x : Node N T E} (hm : (a.node v).saved ≤ x.saved)
    (hh : x.hist = (a.node v).hist)
    (hl : x.role = .leader → (a.node v).role = .leader ∧ x.term = (a.node v).term) :
    Acks (a.set v x) :=
  hi.set hm (fun d L h => by rw [hh]; exact hi.now_of_le hm h) fun hr => by
    rw [(hl hr).2, hh]; exact hi.leader (hl hr).1

/-- A node takes a history of its term's leader and drops no entry of that leader: it has stored
no more than that history. -/
theorem ack_le_accepted (hi : Acks a) (hh : Histories a) (he : Elections a)
    (hM : a.sent (a.node v).term M k)
    (hd : ∀ x ∈ (a.node v).hist.drop M.length, termOf x ≠ (a.node v).term) :
    a.ack v (a.node v).term ≤ M.length := by
  obtain ⟨c, L, hL, -, hx⟩ := hh.sent hM
  by_contra hlt
  obtain ⟨x, h1, h2⟩ := mem_drop_of_take_isPrefix (hi.ack_le_length hL)
    (hi.now_of_le (he.saved v) hL) (by omega : M.length < a.ack v (a.node v).term)
  exact hd x h1 (hx x h2)

theorem accept (hi : Acks a) (hh : Histories a) (he : Elections a)
    (hM : a.sent (a.node v).term M k) (hr : (a.node v).role = .follower)
    (hd : ∀ x ∈ (a.node v).hist.drop M.length, termOf x ≠ (a.node v).term) :
    Acks (a.accept v M) := by
  have hle := hi.ack_le_accepted hh he hM hd
  obtain ⟨c, L, hL, hp, -⟩ := hh.sent hM
  refine ⟨fun {w u} h => ?_, fun {w d L'} h => ?_, fun {w} h => ?_⟩
  · simp only [State.accept, setAck_ack, setAck_node, set_node, set_ack, setAck_ldr,
      set_ldr] at h ⊢
    by_cases hw : w = v
    · subst hw
      by_cases hu : u = (a.node w).term
      · subst hu
        simp only [and_self, ↓reduceIte] at h ⊢
        exact ⟨le_rfl, c, L, hL, by have := hp.length_le; omega⟩
      · simp only [hu, and_false, ↓reduceIte] at h ⊢
        obtain ⟨h1, h2⟩ := hi.le h
        exact ⟨h1.trans (he.saved w), h2⟩
    · simp only [hw, false_and, ↓reduceIte] at h ⊢
      exact hi.le h
  · simp only [State.accept, setAck_ack, setAck_node, set_node, set_ack, setAck_ldr,
      set_ldr] at h ⊢
    by_cases hw : w = v
    · subst hw
      simp only [↓reduceIte, and_self] at h ⊢
      rw [hL] at h
      cases h
      rw [max_eq_right hle, ← List.prefix_iff_eq_take.mp hp]
    · simp only [hw, ↓reduceIte, false_and] at h ⊢
      exact hi.now h
  · simp only [State.accept, setAck_ack, setAck_node, set_node, set_ack] at h ⊢
    by_cases hw : w = v
    · subst hw
      simp only [↓reduceIte, hr] at h
      cases h
    · simp only [hw, ↓reduceIte, false_and] at h ⊢
      exact hi.leader h

/-- The first entries of a leader's history keep what was stored of it. -/
theorem install_isPrefix {h : List E} (hh : L.take k <+: h) (hm : m <+: L) :
    L.take k <+: installed h m := by
  by_cases hp : m <+: h
  · rw [installed_of_isPrefix hp]; exact hh
  · rw [installed_of_not_isPrefix hp]
    rcases prefix_comparable (List.take_prefix k L) hm with h1 | h1
    · exact h1
    · exact absurd (h1.trans hh) hp

/-- A leader `c` of its stored term, whose record is now `x.hist`, which it has stored. -/
theorem lead (hi : Acks a) {x : Node N T E} (hs : x.saved = x.term)
    (hm : (a.node c).saved ≤ x.saved)
    (hx : ∀ d L, a.ldr x.term = some (d, L) → L <+: x.hist)
    (hk : a.ack c x.term ≤ x.hist.length) :
    Acks (((a.set c x).setLdr c x.term x.hist).setAck c x.term x.hist.length) := by
  -- what another node has stored of this term is on the old record
  have hold : ∀ w L', w ≠ c → (a.node w).saved = x.term → L' = x.hist →
      L'.take (a.ack w x.term) <+: (a.node w).hist := by
    rintro w L' - hw rfl
    cases hl : a.ldr x.term with
    | none => rw [hi.ack_none hl, List.take_zero]; exact List.nil_prefix
    | some y =>
      obtain ⟨d, L⟩ := y
      rw [take_eq_of_isPrefix (hx d L hl) (hi.ack_le_length hl)]
      exact hi.now_of_le hw.le hl
  refine ⟨fun {w u} h => ?_, fun {w d L'} h => ?_, fun {w} h => ?_⟩
  · simp only [setAck_ack, setAck_node, setLdr_node, set_node, setLdr_ack, set_ack, setAck_ldr,
      setLdr_ldr, set_ldr] at h ⊢
    by_cases hu : u = x.term
    · subst hu
      by_cases hw : w = c
      · subst hw
        simp only [and_self, ↓reduceIte] at h ⊢
        exact ⟨hs.ge, w, x.hist, rfl, by omega⟩
      · simp only [hw, false_and, ↓reduceIte] at h ⊢
        obtain ⟨h1, d, L, hL, hle⟩ := hi.le h
        exact ⟨h1, c, x.hist, rfl, hle.trans (hx d L hL).length_le⟩
    · simp only [hu, and_false, ↓reduceIte] at h ⊢
      obtain ⟨h1, h2⟩ := hi.le h
      refine ⟨?_, h2⟩
      split
      · subst_vars; exact h1.trans hm
      · exact h1
  · simp only [setAck_ack, setAck_node, setLdr_node, set_node, setLdr_ack, set_ack, setAck_ldr,
      setLdr_ldr, set_ldr] at h ⊢
    by_cases hw : w = c
    · subst hw
      simp only [↓reduceIte, hs, and_self] at h ⊢
      cases h
      exact List.take_prefix _ _
    · simp only [hw, ↓reduceIte, false_and] at h ⊢
      by_cases hu : (a.node w).saved = x.term
      · simp only [hu, ↓reduceIte, Option.some.injEq, Prod.mk.injEq] at h ⊢
        exact hold w L' hw hu h.2.symm
      · simp only [hu, ↓reduceIte] at h
        exact hi.now h
  · simp only [setAck_ack, setAck_node, setLdr_node, set_node, setLdr_ack, set_ack] at h ⊢
    by_cases hw : w = c
    · subst hw
      simp only [and_self, ↓reduceIte]
      omega
    · simp only [hw, ↓reduceIte, false_and] at h ⊢
      exact hi.leader h

theorem step (hi : Acks a) (hh : Histories a) (he : Elections a) (hT : D.terms) (hA : D.acks)
    (hs : Step D a a') : Acks a' := by
  cases hs with
  | reset v t ht =>
    exact hi.set_same ((he.saved v).trans (ht hT).le) rfl fun h => by cases h
  | raise v t _ => exact hi.set_same le_rfl rfl fun h => by cases h
  | demote v => exact hi.set_same le_rfl rfl fun h => by cases h
  | campaign v t ht =>
    have h1 := hi.set_same (v := v)
      (x := { a.node v with term := t, saved := t, vote := some v, role := .candidate })
      ((he.saved v).trans ht.le) rfl fun h => by cases h
    exact ⟨h1.le, h1.now, h1.leader⟩
  | grant v c h _ _ _ =>
    have h1 := hi.set_same (v := v)
      (x := { a.node v with vote := some c, saved := (a.node v).term })
      (he.saved v) rfl fun h => ⟨h, rfl⟩
    exact ⟨h1.le, h1.now, h1.leader⟩
  | win c Q hc _ _ hn =>
    exact hi.lead (c := c) (x := { a.node c with role := .leader })
      (he.busy (by rw [hc]; exact Role.noConfusion)) le_rfl
      (fun d L hL => by rw [hn] at hL; cases hL) (by simp [hi.ack_none hn])
  | append c e hc _ =>
    have hl := hi.leader hc
    have h1 := hi.lead (c := c) (x := { a.node c with
      hist := (a.node c).hist ++ [e], saved := (a.node c).term }) rfl (he.saved c)
      (fun d L hL => by
        rw [hh.leader hc] at hL
        cases hL
        exact List.prefix_append _ _) (by simp [hl])
    simpa [State.append] using h1
  | send c _ => exact ⟨hi.le, hi.now, hi.leader⟩
  | sendSnap c _ => exact ⟨hi.le, hi.now, hi.leader⟩
  | accept v M k hM hr _ hd => exact hi.accept hh he hM hr (hd hA)
  | install v c L m _ hL hm hr _ =>
    refine hi.set (he.saved v) (fun d L' hL' => ?_) fun h => by rw [hr] at h; cases h
    rw [hL] at hL'
    cases hL'
    exact install_isPrefix (hi.now_of_le (he.saved v) hL) hm
  | learn v k _ => exact hi.set_same le_rfl rfl fun h => ⟨h, rfl⟩
  | compact v k _ _ _ => exact hi.set_same (he.saved v) rfl fun h => ⟨h, rfl⟩
  | restart v => exact hi.set_same le_rfl rfl fun h => by cases h

theorem reach (hT : D.terms) (hA : D.acks) (h : Reach D t₀ a) : Acks a := by
  induction h with
  | start h => exact start h
  | step hr hs ih => exact ih.step (.reach hr) (.reach hT hr) hT hA hs

end Acks

end CollabIde.Replication
