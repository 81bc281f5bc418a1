import CollabIde.Lib.Replication.Protocol

/-!
# Histories match

Under no discipline at all, as long as a term has one winner (the guard of `Step.win`), the term
of an entry determines everything before it: each position of each history in the system, also of
a history that was only sent, is one of the history of its term's leader (`Sound`). Two histories
with entries of one term at one position agree up to there (`Sound.matching`).
-/

set_option linter.unusedSectionVars false

namespace CollabIde.Replication

variable {N T E : Type} [DecidableEq N] [Fintype N] [LinearOrder T] [HasTerm E T]

/-! ## The record grows -/

/-- The record of `a'` extends the record of `a`. -/
structure Grows (a a' : State N T E) : Prop where
  stood : ∀ {c t h}, a.stood c t h → a'.stood c t h
  voted : ∀ {v t c}, a.voted v t c → a'.voted v t c
  ldr : ∀ {t c L}, a.ldr t = some (c, L) → ∃ L', a'.ldr t = some (c, L') ∧ L <+: L'
  sent : ∀ {t M k}, a.sent t M k → a'.sent t M k
  snap : ∀ {t k}, a.snap t k → a'.snap t k
  ack : ∀ v t, a.ack v t ≤ a'.ack v t
  base : ∀ v, (a.node v).base ≤ (a'.node v).base

section Grows

variable {a a' : State N T E}

theorem Grows.refl (a : State N T E) : Grows a a :=
  ⟨id, id, fun h => ⟨_, h, List.prefix_refl _⟩, id, id, fun _ _ => le_rfl, fun _ => le_rfl⟩

theorem Grows.trans {a'' : State N T E} (h : Grows a a') (h' : Grows a' a'') : Grows a a'' where
  stood hs := h'.stood (h.stood hs)
  voted hv := h'.voted (h.voted hv)
  ldr hl := by
    obtain ⟨L', h1, hp⟩ := h.ldr hl
    obtain ⟨L'', h2, hp'⟩ := h'.ldr h1
    exact ⟨L'', h2, hp.trans hp'⟩
  sent hs := h'.sent (h.sent hs)
  snap hs := h'.snap (h.snap hs)
  ack v t := (h.ack v t).trans (h'.ack v t)
  base v := (h.base v).trans (h'.base v)

theorem grows_set {v : N} {x : Node N T E} (hb : (a.node v).base ≤ x.base) :
    Grows a (a.set v x) where
  stood := id
  voted := id
  ldr h := ⟨_, h, List.prefix_refl _⟩
  sent := id
  snap := id
  ack _ _ := le_rfl
  base w := by
    rw [set_node]; split
    · subst_vars; exact hb
    · exact le_rfl

theorem grows_setAck {v : N} {t : T} {k : ℕ} : Grows a (a.setAck v t k) where
  stood := id
  voted := id
  ldr h := ⟨_, h, List.prefix_refl _⟩
  sent := id
  snap := id
  ack w u := by rw [setAck_ack]; split <;> omega
  base _ := le_rfl

theorem grows_setLdr {c : N} {t : T} {h : List E}
    (ht : ∀ d L, a.ldr t = some (d, L) → d = c ∧ L <+: h) : Grows a (a.setLdr c t h) where
  stood := id
  voted := id
  ldr {u d L} hl := by
    rw [setLdr_ldr]; split
    · subst_vars
      obtain ⟨rfl, hp⟩ := ht d L hl
      exact ⟨h, rfl, hp⟩
    · exact ⟨L, hl, List.prefix_refl _⟩
  sent := id
  snap := id
  ack _ _ := le_rfl
  base _ := le_rfl

end Grows

/-! ## Sound histories -/

section Sound

/-- Each position of `h` is one of the history of its term's leader. -/
def Sound (a : State N T E) (h : List E) : Prop :=
  ∀ p e, p ++ [e] <+: h → ∃ c L, a.ldr (termOf e) = some (c, L) ∧ p ++ [e] <+: L

variable {a a' : State N T E} {h h' p q : List E} {e f : E}

theorem Sound.nil : Sound a [] := fun p e hp => by simp at hp

theorem Sound.of_isPrefix (hs : Sound a h) (hp : h' <+: h) : Sound a h' :=
  fun p e he => hs p e (he.trans hp)

/-- **Two sound histories** with entries of one term at one position agree up to there. -/
theorem Sound.matching (hs : Sound a h) (hs' : Sound a h') (hp : p ++ [e] <+: h)
    (hq : q ++ [f] <+: h') (hl : p.length = q.length) (ht : termOf e = termOf f) :
    p ++ [e] = q ++ [f] := by
  obtain ⟨c, L, hL, hpL⟩ := hs p e hp
  obtain ⟨c', L', hL', hqL⟩ := hs' q f hq
  rw [ht, hL'] at hL
  cases hL
  exact prefix_eq_of_length hpL hqL (by simp [hl])

end Sound

theorem Sound.mono {a b : State N T E} {h : List E} (hs : Sound a h) (hg : Grows a b) :
    Sound b h := fun p e hp => by
  obtain ⟨c, L, hL, hpL⟩ := hs p e hp
  obtain ⟨L', hL', hp'⟩ := hg.ldr hL
  exact ⟨c, L', hL', hpL.trans hp'⟩

/-! ## The invariant -/

/-- All histories are sound, what was sent is the leader's, and a leader's history is the one on
record. -/
structure Histories (a : State N T E) : Prop where
  hist : ∀ v, Sound a (a.node v).hist
  stood : ∀ {c t h}, a.stood c t h → Sound a h
  ldr : ∀ {t c L}, a.ldr t = some (c, L) → Sound a L
  sent : ∀ {t M k}, a.sent t M k → ∃ c L, a.ldr t = some (c, L) ∧ M <+: L ∧
    ∀ x ∈ L.drop M.length, termOf x = t
  snap : ∀ {t k}, a.snap t k → ∃ c L, a.ldr t = some (c, L) ∧ k ≤ L.length
  leader : ∀ {v}, (a.node v).role = .leader →
    a.ldr (a.node v).term = some (v, (a.node v).hist)
  base : ∀ v, (a.node v).base ≤ (a.node v).hist.length

namespace Histories

section Moves

variable {a : State N T E}

/-- A change of one node that keeps its history sound. -/
theorem set (hi : Histories a) {v : N} {x : Node N T E} (hx : Sound a x.hist)
    (hb : x.base ≤ x.hist.length)
    (hl : x.role = .leader → a.ldr x.term = some (v, x.hist)) : Histories (a.set v x) where
  hist w := by
    rw [set_node]; split
    · exact hx
    · exact hi.hist w
  stood := hi.stood
  ldr := hi.ldr
  sent := hi.sent
  snap := hi.snap
  leader {w} := by
    rw [set_node]; split
    · subst_vars; exact hl
    · exact hi.leader
  base w := by
    rw [set_node]; split
    · exact hb
    · exact hi.base w

theorem setAck (hi : Histories a) {v : N} {t : T} {k : ℕ} : Histories (a.setAck v t k) :=
  ⟨hi.hist, hi.stood, hi.ldr, hi.sent, hi.snap, hi.leader, hi.base⟩

/-- The leader `c` of a term, with the node `x`: its history is now the one on record, and extends
the one that was by entries of the term. -/
theorem lead (hi : Histories a) {c : N} {x : Node N T E}
    (ht : ∀ d L, a.ldr x.term = some (d, L) →
      d = c ∧ L <+: x.hist ∧ ∀ y ∈ x.hist.drop L.length, termOf y = x.term)
    (hx : ∀ p e, p ++ [e] <+: x.hist → p ++ [e] <+: (a.node c).hist ∨ termOf e = x.term)
    (hb : x.base ≤ x.hist.length) : Histories ((a.set c x).setLdr c x.term x.hist) := by
  have hg : Grows a (a.setLdr c x.term x.hist) :=
    grows_setLdr fun d L hL => ⟨(ht d L hL).1, (ht d L hL).2.1⟩
  have hmono : ∀ {h : List E}, Sound a h → Sound ((a.set c x).setLdr c x.term x.hist) h :=
    fun hs => hs.mono (b := a.setLdr c x.term x.hist) hg
  have hsx : Sound ((a.set c x).setLdr c x.term x.hist) x.hist := by
    intro p e hp
    rcases hx p e hp with h1 | h1
    · exact hmono (hi.hist c) p e h1
    · exact ⟨c, x.hist, by simp [setLdr_ldr, h1], hp⟩
  refine ⟨fun v => ?_, fun h' => hmono (hi.stood h'), fun {u d L} hL => ?_,
    fun {u M k} hM => ?_, fun {u k} hk => ?_, fun {v} hv => ?_, fun v => ?_⟩
  · rw [setLdr_node, set_node]; split
    · exact hsx
    · exact hmono (hi.hist v)
  · rw [setLdr_ldr] at hL
    split at hL
    · cases hL; exact hsx
    · exact hmono (hi.ldr hL)
  · obtain ⟨d, L, hL, hp, hd⟩ := hi.sent hM
    rw [setLdr_ldr]
    split
    · subst_vars
      obtain ⟨rfl, hp', hd'⟩ := ht d L hL
      refine ⟨d, x.hist, rfl, hp.trans hp', fun y hy => ?_⟩
      obtain ⟨r, hr⟩ := hp'
      rw [← hr] at hy hd'
      rw [List.drop_append_of_le_length hp.length_le] at hy
      rcases List.mem_append.mp hy with h1 | h1
      · exact hd y h1
      · exact hd' y (by simpa using h1)
    · exact ⟨d, L, hL, hp, hd⟩
  · obtain ⟨d, L, hL, hk⟩ := hi.snap hk
    obtain ⟨L', hL', hp⟩ := hg.ldr hL
    exact ⟨d, L', hL', hk.trans hp.length_le⟩
  · rw [setLdr_node, set_node] at hv ⊢
    rw [setLdr_ldr]
    by_cases hvc : v = c
    · subst hvc; simp
    · rw [if_neg hvc] at hv ⊢
      have hl := hi.leader hv
      by_cases he : (a.node v).term = x.term
      · rw [he] at hl; exact absurd (ht _ _ hl).1 hvc
      · rw [if_neg he]; exact hl
  · rw [setLdr_node, set_node]; split
    · exact hb
    · exact hi.base v

end Moves

variable {D : Discipline} {a a' : State N T E} {t₀ : T}

theorem start (h : Start t₀ a) : Histories a where
  hist v := by rw [h.node]; exact Sound.nil
  stood hs := (h.stood _ _ _ hs).elim
  ldr hl := by rw [h.ldr] at hl; cases hl
  sent hs := (h.sent _ _ _ hs).elim
  snap hs := (h.snap _ _ hs).elim
  leader {v} hv := by rw [h.node] at hv; cases hv
  base v := by rw [h.node]; exact le_rfl

theorem win (hi : Histories a) {c : N} (ht : a.ldr (a.node c).term = none) :
    Histories (a.win c) :=
  (hi.lead (c := c) (x := { a.node c with role := .leader })
    (fun d L hL => by rw [ht] at hL; cases hL) (fun _ _ hp => .inl hp) (hi.base c)).setAck

theorem append (hi : Histories a) {c : N} {e : E} (hc : (a.node c).role = .leader)
    (he : termOf e = (a.node c).term) : Histories (a.append c e) := by
  refine (hi.lead (c := c) (x := { a.node c with
    hist := (a.node c).hist ++ [e], saved := (a.node c).term }) (fun d L hL => ?_)
    (fun p f hp => ?_) ?_).setAck
  · have hl := hi.leader hc
    rw [hl] at hL
    cases hL
    exact ⟨rfl, List.prefix_append _ _, fun y hy => by simp at hy; rw [hy, he]⟩
  · rcases prefix_append_singleton hp with hp' | ⟨-, rfl⟩
    · exact .inl hp'
    · exact .inr he
  · have := hi.base c
    simp only [List.length_append, List.length_singleton]
    omega

/-- A history sent by the leader of the current term. -/
theorem sent_isPrefix (hi : Histories a) {t : T} {M : List E} {k : ℕ} (hM : a.sent t M k) :
    Sound a M := by
  obtain ⟨c, L, hL, hp, -⟩ := hi.sent hM
  exact (hi.ldr hL).of_isPrefix hp

theorem step (hi : Histories a) (hs : Step D a a') : Histories a' := by
  cases hs with
  | reset v t _ => exact hi.set (hi.hist v) (hi.base v) fun h => by cases h
  | raise v t _ => exact hi.set (hi.hist v) (hi.base v) fun h => by cases h
  | demote v => exact hi.set (hi.hist v) (hi.base v) fun h => by cases h
  | campaign v t _ =>
    have h1 := hi.set (v := v)
      (x := { a.node v with term := t, saved := t, vote := some v, role := .candidate })
      (hi.hist v) (hi.base v) fun h => by cases h
    refine ⟨h1.hist, fun {c u h} hst => ?_, h1.ldr, h1.sent, h1.snap, h1.leader, h1.base⟩
    rcases hst with hst | ⟨-, -, rfl⟩
    · exact hi.stood hst
    · exact hi.hist v
  | grant v c h _ _ _ =>
    have h1 := hi.set (v := v)
      (x := { a.node v with vote := some c, saved := (a.node v).term })
      (hi.hist v) (hi.base v) fun h => hi.leader h
    exact ⟨h1.hist, h1.stood, h1.ldr, h1.sent, h1.snap, h1.leader, h1.base⟩
  | win c Q _ _ _ ht => exact hi.win ht
  | append c e hc he => exact hi.append hc he
  | send c hc =>
    refine ⟨hi.hist, hi.stood, hi.ldr, fun {t M k} hM => ?_, hi.snap, hi.leader, hi.base⟩
    rcases hM with hM | ⟨rfl, rfl, -⟩
    · exact hi.sent hM
    · exact ⟨c, _, hi.leader hc, List.prefix_refl _, fun x hx => by simp at hx⟩
  | sendSnap c hc =>
    refine ⟨hi.hist, hi.stood, hi.ldr, hi.sent, fun {t k} hk => ?_, hi.leader, hi.base⟩
    rcases hk with hk | ⟨rfl, rfl⟩
    · exact hi.snap hk
    · exact ⟨c, _, hi.leader hc, hi.base c⟩
  | accept v M k hM hr hb _ =>
    exact (hi.set (hi.sent_isPrefix hM) hb fun h => by rw [hr] at h; cases h).setAck
  | install v c L m _ hL hm hr _ =>
    refine hi.set ?_ (length_le_installed _ _) fun h => by rw [hr] at h; cases h
    by_cases hp : m <+: (a.node v).hist
    · simp only [installed_of_isPrefix hp]; exact hi.hist v
    · simp only [installed_of_not_isPrefix hp]; exact (hi.ldr hL).of_isPrefix hm
  | learn v k _ => exact hi.set (hi.hist v) (hi.base v) fun h => hi.leader h
  | compact v k _ hk _ => exact hi.set (hi.hist v) hk fun h => hi.leader h
  | restart v => exact hi.set (hi.hist v) (hi.base v) fun h => by cases h

theorem reach (h : Reach D t₀ a) : Histories a := by
  induction h with
  | start h => exact start h
  | step _ hs ih => exact ih.step hs

end Histories

/-- Each step extends the record. -/
theorem Step.grows {D : Discipline} {a a' : State N T E} (hi : Histories a) (hs : Step D a a') :
    Grows a a' := by
  cases hs with
  | reset v t _ => exact grows_set le_rfl
  | raise v t _ => exact grows_set le_rfl
  | demote v => exact grows_set le_rfl
  | campaign v t _ =>
    have h1 : Grows a (a.set v { a.node v with
      term := t, saved := t, vote := some v, role := .candidate }) := grows_set le_rfl
    exact ⟨.inl, .inl, h1.ldr, id, id, h1.ack, h1.base⟩
  | grant v c h _ _ _ =>
    have h1 : Grows a (a.set v { a.node v with vote := some c, saved := (a.node v).term }) :=
      grows_set le_rfl
    exact ⟨id, .inl, h1.ldr, id, id, h1.ack, h1.base⟩
  | win c Q _ _ _ ht =>
    have h1 : Grows a (a.set c { a.node c with role := .leader }) := grows_set le_rfl
    refine (h1.trans (grows_setLdr fun d L hL => ?_)).trans grows_setAck
    rw [set_ldr, ht] at hL; cases hL
  | append c e hc he =>
    have h1 : Grows a (a.set c { a.node c with
      hist := (a.node c).hist ++ [e], saved := (a.node c).term }) := grows_set le_rfl
    refine (h1.trans (grows_setLdr fun d L hL => ?_)).trans grows_setAck
    rw [set_ldr, hi.leader hc] at hL
    cases hL
    exact ⟨rfl, List.prefix_append _ _⟩
  | send c hc => exact ⟨id, id, (Grows.refl a).ldr, .inl, id, fun _ _ => le_rfl, fun _ => le_rfl⟩
  | sendSnap c hc =>
    exact ⟨id, id, (Grows.refl a).ldr, id, .inl, fun _ _ => le_rfl, fun _ => le_rfl⟩
  | accept v M k _ _ _ _ =>
    have h1 : Grows a (a.set v { a.node v with hist := M, saved := (a.node v).term }) :=
      grows_set le_rfl
    exact h1.trans grows_setAck
  | install v c L m _ _ _ _ hb => exact grows_set hb.le
  | learn v k _ => exact grows_set le_rfl
  | compact v k hk _ _ => exact grows_set hk
  | restart v => exact grows_set le_rfl

theorem grows_of_steps {D : Discipline} {a a' : State N T E} {t₀ : T} (hr : Reach D t₀ a)
    (hs : Relation.ReflTransGen (Step D) a a') : Grows a a' := by
  induction hs with
  | refl => exact .refl a
  | tail h1 h2 ih => exact ih.trans (h2.grows (.reach (hr.steps h1)))

end CollabIde.Replication
