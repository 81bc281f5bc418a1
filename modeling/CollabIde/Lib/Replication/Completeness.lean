import CollabIde.Lib.Replication.Acks

/-!
# Later leaders have what was committed

Under all disciplines. An entry that the leader of a term added in that term is **live** as long
as a majority has stored it or could (`State.Live`). Whoever has stored a live entry keeps it, a
voter passes it on to the candidate (which is at least as up to date), and so every later leader
has it (`Completeness.ldr_keep`). What a node has learned is part of a history that a majority
has stored, so what any two nodes have learned agrees (`Completeness.committed_comparable`).
-/

set_option linter.unusedSectionVars false

namespace CollabIde.Replication

variable {N T E : Type} [DecidableEq N] [Fintype N] [LinearOrder T] [HasTerm E T]

open State

/-! ## Marks over time -/

/-- The end of `q` was added by the leader of term `t`, and a majority can still store it. -/
def State.Live (a : State N T E) (t : T) (q : List E) : Prop :=
  a.Mark t q ∧ a.Choosable t q.length

section Marks

variable {a a' : State N T E} {t u : T} {p q : List E} {i : ℕ}

theorem mark_mono (hg : Grows a a') (h : a.Mark t q) : a'.Mark t q := by
  obtain ⟨c, L, p, e, hL, hq, hp, he⟩ := h
  obtain ⟨L', hL', hLL⟩ := hg.ldr hL
  exact ⟨c, L', p, e, hL', hq.trans hLL, hp, he⟩

theorem chosen_mono (hg : Grows a a') (h : a.Chosen t i) : a'.Chosen t i := by
  obtain ⟨Q, hQ, hv⟩ := h
  exact ⟨Q, hQ, fun v h => (hv v h).trans (hg.ack v t)⟩

theorem committed_mono (hg : Grows a a') (h : a.Committed p t) : a'.Committed p t := by
  rcases h with h | ⟨u, q, hu, hq, hc, hp⟩
  · exact .inl h
  · exact .inr ⟨u, q, hu, mark_mono hg hq, chosen_mono hg hc, hp⟩

theorem committed_le (h : a.Committed p t) (htu : t ≤ u) : a.Committed p u := by
  rcases h with h | ⟨w, q, hw, hq, hc, hp⟩
  · exact .inl h
  · exact .inr ⟨w, q, hw.trans htu, hq, hc, hp⟩

theorem committed_isPrefix (h : a.Committed p t) (hq : q <+: p) : a.Committed q t := by
  rcases h with rfl | ⟨u, r, hu, hr, hc, hp⟩
  · exact .inl (List.prefix_nil.mp hq)
  · exact .inr ⟨u, r, hu, hr, hc, hq.trans hp⟩

theorem chosen_choosable (h : a.Chosen t i) : a.Choosable t i := by
  obtain ⟨Q, hQ, hv⟩ := h
  exact ⟨Q, hQ, fun v h => .inl (hv v h)⟩

/-- Stored terms only grow, and only a node whose stored term is not later stores more of a term:
what can be stored by a majority could be before. -/
theorem choosable_back {b : State N T E} (hs : ∀ v, (a.node v).saved ≤ (b.node v).saved)
    (ha : ∀ v, b.ack v t = a.ack v t ∨ (a.node v).saved ≤ t) (h : b.Choosable t i) :
    a.Choosable t i := by
  obtain ⟨Q, hQ, hv⟩ := h
  refine ⟨Q, hQ, fun v hvQ => ?_⟩
  rcases ha v with h1 | h1
  · rcases hv v hvQ with h2 | h2
    · exact .inl (h1 ▸ h2)
    · exact .inr ((hs v).trans h2)
  · exact .inr h1

theorem mark_of_ldr (hl : a'.ldr = a.ldr) (h : a'.Mark t q) : a.Mark t q := by
  unfold State.Mark at h ⊢
  rwa [hl] at h

end Marks

/-! ## The invariant -/

structure Completeness (a : State N T E) : Prop where
  ldr_terms : ∀ {t c L}, a.ldr t = some (c, L) → Sorted L ∧ ∀ x ∈ L, termOf x ≤ t
  hist_terms : ∀ v, ∀ x ∈ (a.node v).hist, termOf x ≤ (a.node v).saved
  ack_keep : ∀ {v t q}, a.Live t q → q.length ≤ a.ack v t → q <+: (a.node v).hist
  vote_keep : ∀ {v t u d h q}, a.Live t q → q.length ≤ a.ack v t → t < u → a.voted v u d →
    a.stood d u h → q <+: h
  ldr_keep : ∀ {t u d L q}, a.Live t q → t < u → a.ldr u = some (d, L) → q <+: L
  commit : ∀ v, (a.node v).commit ≤ (a.node v).hist.length ∧
    a.Committed ((a.node v).hist.take (a.node v).commit) (a.node v).saved
  base : ∀ v, (a.node v).base ≤ (a.node v).commit
  sent : ∀ {t M k}, a.sent t M k → k ≤ M.length ∧ a.Committed (M.take k) t
  snap : ∀ {t k c L}, a.snap t k → a.ldr t = some (c, L) → a.Committed (L.take k) t

namespace Completeness

variable {D : Discipline} {a a' : State N T E} {t₀ t u : T} {v c d : N} {L M m p q h : List E}
  {k : ℕ} {e : E}

theorem start (h : Start t₀ a) : Completeness a where
  ldr_terms hl := by rw [h.ldr] at hl; cases hl
  hist_terms v x hx := by rw [h.node] at hx; cases hx
  ack_keep {v t q} hq ha := by
    obtain ⟨⟨c, L, p, e, hL, -⟩, -⟩ := hq
    rw [h.ldr] at hL; cases hL
  vote_keep hq := by
    obtain ⟨⟨c, L, p, e, hL, -⟩, -⟩ := hq
    rw [h.ldr] at hL; cases hL
  ldr_keep hq := by
    obtain ⟨⟨c, L, p, e, hL, -⟩, -⟩ := hq
    rw [h.ldr] at hL; cases hL
  commit v := by rw [h.node]; exact ⟨le_rfl, .inl rfl⟩
  base v := by rw [h.node]
  sent hs := (h.sent _ _ _ hs).elim
  snap hs := (h.snap _ _ hs).elim

/-! ### What is committed is comparable -/

/-- The leader of a term has what was committed up to it. -/
theorem committed_ldr (hi : Completeness a) (hp : a.Committed p t)
    (hL : a.ldr t = some (c, L)) : p <+: L := by
  rcases hp with rfl | ⟨u, q, hu, hq, hc, hp⟩
  · exact List.nil_prefix
  · refine hp.trans ?_
    rcases hu.eq_or_lt with rfl | hlt
    · obtain ⟨d, L', p', e, hL', hqL, -⟩ := hq
      rw [hL] at hL'
      cases hL'
      exact hqL
    · exact hi.ldr_keep ⟨hq, chosen_choosable hc⟩ hlt hL

/-- A live history and a committed one. -/
theorem live_comparable (hi : Completeness a) (hq : a.Live t q) (hp : a.Committed p u) :
    p <+: q ∨ q <+: p := by
  rcases hp with rfl | ⟨w, r, -, hr, hc, hp⟩
  · exact .inl List.nil_prefix
  · have hr' : a.Live w r := ⟨hr, chosen_choosable hc⟩
    have hqr : q <+: r ∨ r <+: q := by
      obtain ⟨c, L, -, -, hL, hqL, -⟩ := hq.1
      obtain ⟨c', L', -, -, hL', hrL, -⟩ := hr
      rcases lt_trichotomy t w with hlt | rfl | hlt
      · exact prefix_comparable (hi.ldr_keep hq hlt hL') hrL
      · rw [hL] at hL'
        cases hL'
        exact prefix_comparable hqL hrL
      · exact prefix_comparable hqL (hi.ldr_keep hr' hlt hL)
    rcases hqr with h1 | h1
    · exact (prefix_comparable h1 hp).symm
    · exact .inl (hp.trans h1)

/-- **What is committed** in any two places agrees. -/
theorem committed_comparable (hi : Completeness a) (hp : a.Committed p t)
    (hq : a.Committed q u) : p <+: q ∨ q <+: p := by
  rcases hq with rfl | ⟨w, r, -, hr, hc, hqr⟩
  · exact .inr List.nil_prefix
  · rcases hi.live_comparable ⟨hr, chosen_choosable hc⟩ hp with h1 | h1
    · exact prefix_comparable h1 hqr
    · exact .inr (hqr.trans h1)

/-- Of finitely many committed histories, one starts with all the others. -/
theorem exists_committed_bound (hi : Completeness a) (hp : a.Committed p t) (l : List (List E))
    (hl : ∀ q ∈ l, ∃ u, a.Committed q u) :
    ∃ q u, a.Committed q u ∧ p <+: q ∧ (∀ r ∈ l, r <+: q) ∧ (q = p ∨ q ∈ l) := by
  induction l with
  | nil =>
    exact ⟨p, t, hp, List.prefix_refl p, fun r hr => absurd hr List.not_mem_nil, .inl rfl⟩
  | cons r l ih =>
    obtain ⟨q, u, hq, hpq, hlq, hmem⟩ := ih fun q hq => hl q (List.mem_cons_of_mem r hq)
    obtain ⟨w, hr⟩ := hl r List.mem_cons_self
    rcases hi.committed_comparable hr hq with h1 | h1
    · refine ⟨q, u, hq, hpq, fun r' hr' => ?_, hmem.imp_right (List.mem_cons_of_mem r)⟩
      rcases List.mem_cons.mp hr' with rfl | hr'
      · exact h1
      · exact hlq r' hr'
    · refine ⟨r, w, hr, hpq.trans h1, fun r' hr' => ?_, .inr List.mem_cons_self⟩
      rcases List.mem_cons.mp hr' with rfl | hr'
      · exact List.prefix_refl r'
      · exact (hlq r' hr').trans h1

/-! ### The pieces of a step -/

/-- One node changes. -/
theorem set (hi : Completeness a) {x : Node N T E} (hm : (a.node v).saved ≤ x.saved)
    (hx : ∀ y ∈ x.hist, termOf y ≤ x.saved)
    (hk : ∀ t q, a.Live t q → q.length ≤ a.ack v t → q <+: x.hist)
    (hc : x.commit ≤ x.hist.length ∧ a.Committed (x.hist.take x.commit) x.saved)
    (hb : x.base ≤ x.commit) : Completeness (a.set v x) := by
  have hs : ∀ w, (a.node w).saved ≤ ((a.set v x).node w).saved := by
    intro w
    rw [set_node]; split
    · subst_vars; exact hm
    · exact le_rfl
  have hback : ∀ {t q}, (a.set v x).Live t q → a.Live t q := fun h =>
    ⟨mark_of_ldr rfl h.1, choosable_back hs (fun _ => .inl rfl) h.2⟩
  refine ⟨hi.ldr_terms, fun w y hy => ?_, fun {w t q} hq hw => ?_,
    fun hq => hi.vote_keep (hback hq), fun hq => hi.ldr_keep (hback hq), fun w => ?_,
    fun w => ?_, hi.sent, hi.snap⟩
  · by_cases hw : w = v
    · subst hw; rw [set_node_self] at hy ⊢; exact hx y hy
    · rw [set_node_ne _ _ hw] at hy ⊢; exact hi.hist_terms w y hy
  · by_cases hwv : w = v
    · subst hwv; rw [set_node_self]; exact hk t q (hback hq) hw
    · rw [set_node_ne _ _ hwv]; exact hi.ack_keep (hback hq) hw
  · by_cases hw : w = v
    · subst hw; rw [set_node_self]; exact hc
    · rw [set_node_ne _ _ hw]; exact hi.commit w
  · by_cases hw : w = v
    · subst hw; rw [set_node_self]; exact hb
    · rw [set_node_ne _ _ hw]; exact hi.base w

/-- One node changes, but not its history. -/
theorem set_same (hi : Completeness a) {x : Node N T E} (hm : (a.node v).saved ≤ x.saved)
    (hh : x.hist = (a.node v).hist)
    (hc : x.commit ≤ x.hist.length ∧ a.Committed (x.hist.take x.commit) x.saved)
    (hb : x.base ≤ x.commit) : Completeness (a.set v x) :=
  hi.set hm (fun y hy => (hi.hist_terms v y (hh ▸ hy)).trans hm)
    (fun _ _ hq hk => hh ▸ hi.ack_keep hq hk) hc hb

/-- What `v` has learned, for a later term and the same history. -/
theorem commit_le (hi : Completeness a) {x : Node N T E} (hm : (a.node v).saved ≤ x.saved)
    (hh : x.hist = (a.node v).hist) (hc : x.commit = (a.node v).commit) :
    x.commit ≤ x.hist.length ∧ a.Committed (x.hist.take x.commit) x.saved := by
  rw [hh, hc]
  exact ⟨(hi.commit v).1, committed_le (hi.commit v).2 hm⟩

/-- `v` has stored `k` entries of the leader of its stored term. -/
theorem setAck (hi : Completeness a) (hs : (a.node v).saved = t)
    (hv : ∀ u d, a.voted v u d → u ≤ t) (hL : a.ldr t = some (c, L))
    (hk : L.take k <+: (a.node v).hist) : Completeness (a.setAck v t k) := by
  have hg : Grows a (a.setAck v t k) := grows_setAck
  have hback : ∀ {u q}, (a.setAck v t k).Live u q → a.Live u q := fun {u q} h =>
    ⟨mark_of_ldr rfl h.1, choosable_back (b := a.setAck v t k) (fun _ => le_rfl) (fun w => by
      by_cases hw : w = v ∧ u = t
      · rw [hw.1, hw.2]; exact .inr hs.le
      · rw [setAck_ack, if_neg hw]; exact .inl rfl) h.2⟩
  refine ⟨hi.ldr_terms, hi.hist_terms, fun {w u q} hq hw => ?_,
    fun {w u s d h q} hq hw hus hvw hd => ?_, fun hq => hi.ldr_keep (hback hq),
    fun w => ⟨(hi.commit w).1, committed_mono hg (hi.commit w).2⟩, hi.base,
    fun hs => ⟨(hi.sent hs).1, committed_mono hg (hi.sent hs).2⟩,
    fun hs hl => committed_mono hg (hi.snap hs hl)⟩
  · rw [setAck_ack] at hw
    by_cases hwv : w = v ∧ u = t
    · rw [if_pos hwv] at hw
      obtain ⟨rfl, rfl⟩ := hwv
      rcases le_max_iff.mp hw with h1 | h1
      · exact hi.ack_keep (hback hq) h1
      · obtain ⟨d, L', -, -, hL', hqL, -⟩ := (hback hq).1
        rw [hL] at hL'
        cases hL'
        exact (take_prefix_of_isPrefix hqL h1).trans hk
    · rw [if_neg hwv] at hw
      exact hi.ack_keep (hback hq) hw
  · rw [setAck_ack] at hw
    by_cases hwv : w = v ∧ u = t
    · obtain ⟨rfl, rfl⟩ := hwv
      exact absurd (hv _ _ hvw) (not_le.mpr hus)
    · rw [if_neg hwv] at hw
      exact hi.vote_keep (hback hq) hw hus hvw hd

/-- The leader of term `t` gets the history `h`: its new entries of the term are longer than what
anyone has stored, and it has what lived before. -/
theorem setLdr (hi : Completeness a) (he : Elections a) (hh : Histories a)
    (hg : Grows a (a.setLdr c t h)) (hterms : Sorted h ∧ ∀ x ∈ h, termOf x ≤ t)
    (hnew : ∀ p e, p ++ [e] <+: h → termOf e = t →
      a.Mark t (p ++ [e]) ∨ ∀ w, a.ack w t ≤ p.length)
    (hkeep : ∀ u q, a.Live u q → u < t → q <+: h) : Completeness (a.setLdr c t h) := by
  have hback : ∀ {u q}, (a.setLdr c t h).Live u q →
      a.Live u q ∨ u = t ∧ q <+: h ∧ (∀ w, a.ack w t < q.length) ∧ a.Choosable t q.length := by
    rintro u q ⟨⟨d, L, p, e, hL, hq, rfl, he'⟩, hch⟩
    rw [setLdr_ldr] at hL
    by_cases hu : u = t
    · subst hu
      simp only [↓reduceIte, Option.some.injEq, Prod.mk.injEq] at hL
      obtain ⟨rfl, rfl⟩ := hL
      rcases hnew p e hq he' with h1 | h1
      · exact .inl ⟨h1, hch⟩
      · exact .inr ⟨rfl, hq, fun w => by have := h1 w; simp; omega, hch⟩
    · rw [if_neg hu] at hL
      exact .inl ⟨⟨d, L, p, e, hL, hq, rfl, he'⟩, hch⟩
  refine ⟨fun {u d L} hl => ?_, hi.hist_terms, fun {w u q} hq hw => ?_,
    fun {w u s d g q} hq hw htu hv hs => ?_, fun {u s d L q} hq htu hl => ?_,
    fun w => ⟨(hi.commit w).1, committed_mono hg (hi.commit w).2⟩, hi.base,
    fun hs => ⟨(hi.sent hs).1, committed_mono hg (hi.sent hs).2⟩,
    fun {u k d L} hs hl => ?_⟩
  · rw [setLdr_ldr] at hl
    split at hl
    · subst_vars; cases hl; exact hterms
    · exact hi.ldr_terms hl
  · rcases hback hq with h1 | ⟨rfl, -, h2, -⟩
    · exact hi.ack_keep h1 hw
    · exact absurd hw (not_le.mpr (h2 w))
  · rcases hback hq with h1 | ⟨rfl, -, h2, -⟩
    · exact hi.vote_keep h1 hw htu hv hs
    · exact absurd hw (not_le.mpr (h2 w))
  · rw [setLdr_ldr] at hl
    by_cases hst : s = t
    · subst hst
      simp only [↓reduceIte, Option.some.injEq, Prod.mk.injEq] at hl
      obtain ⟨rfl, rfl⟩ := hl
      rcases hback hq with h1 | ⟨rfl, -⟩
      · exact hkeep u q h1 htu
      · exact absurd htu (lt_irrefl _)
    · rw [if_neg hst] at hl
      rcases hback hq with h1 | ⟨rfl, -, h2, Q, hQ, h3⟩
      · exact hi.ldr_keep h1 htu hl
      · -- a voter of the later term has stored too little, and can store no more
        obtain ⟨Q', hQ', hv⟩ := he.quorum hl
        obtain ⟨w, hw, hw'⟩ := hQ.meet hQ'
        have h4 := he.voted_le (hv w hw')
        rcases h3 w hw with h5 | h5
        · exact absurd h5 (not_le.mpr (h2 w))
        · exact absurd (h4.trans h5) (not_le.mpr htu)
  · obtain ⟨d', L', hL', hk⟩ := hh.snap hs
    obtain ⟨L'', hL'', hp⟩ := hg.ldr hL'
    rw [hl] at hL''
    cases hL''
    rw [take_eq_of_isPrefix hp hk]
    exact committed_mono hg (hi.snap hs hL')

/-! ### The steps -/

/-- A voter's candidate is at least as up to date, and so has what lives of the voter's. -/
theorem upToDate_keep (hi : Completeness a) (hh : Histories a) (hq : a.Live t q)
    (hqv : q <+: (a.node v).hist) (hs : Sound a h) (hup : UpToDate h (a.node v).hist) :
    q <+: h := by
  obtain ⟨d, L, p, e, hL, hqL, rfl, rfl⟩ := hq.1
  have hne : (a.node v).hist ≠ [] := by
    intro h0; rw [h0] at hqv; simp at hqv
  obtain ⟨r, f, hr⟩ : ∃ r f, (a.node v).hist = r ++ [f] :=
    ⟨_, _, (List.dropLast_append_getLast hne).symm⟩
  obtain ⟨p', g, rfl, hup⟩ := hup r f hr
  obtain ⟨d', L', hL', hpL'⟩ := hs p' g (List.prefix_refl _)
  -- the last term of the voter is not before the term of `e`
  have hef : termOf e ≤ termOf f := by
    obtain ⟨d'', L'', hL'', hp''⟩ := hh.hist v r f (hr ▸ List.prefix_refl _)
    by_contra hlt
    have := (hi.ldr_terms hL'').1.length_lt hp'' ((hr ▸ hqv).trans hp'') (not_le.mp hlt)
    have h1 := (hr ▸ hqv).length_le
    simp only [List.length_append, List.length_singleton] at h1
    omega
  have hlt_or : termOf e < termOf g ∨ termOf e = termOf g ∧
      (a.node v).hist.length ≤ (p' ++ [g]).length := by
    rcases hup with h1 | ⟨h1, h2⟩
    · exact .inl (hef.trans_lt h1)
    · rcases hef.eq_or_lt with h3 | h3
      · exact .inr ⟨h3.trans h1, h2⟩
      · exact .inl (h3.trans_eq h1)
  rcases hlt_or with h1 | ⟨h1, h2⟩
  · -- a later leader has `q`, before its own entries
    have hqL' := hi.ldr_keep hq h1 hL'
    have h3 := (hi.ldr_terms hL').1.length_lt hqL' hpL' h1
    exact List.prefix_of_prefix_length_le hqL' hpL' (by simp; omega)
  · rw [← h1, hL] at hL'
    cases hL'
    exact List.prefix_of_prefix_length_le hqL hpL' (hqv.length_le.trans h2)

theorem campaign (hi : Completeness a) (he : Elections a) (ht : (a.node v).term < t) :
    Completeness (a.campaign v t) := by
  have hlt := (he.saved v).trans_lt ht
  have h1 := hi.set_same (v := v)
    (x := { a.node v with term := t, saved := t, vote := some v, role := .candidate }) hlt.le rfl
    (hi.commit_le hlt.le rfl rfl) (hi.base v)
  refine ⟨h1.ldr_terms, h1.hist_terms, h1.ack_keep, fun {w s u d h q} hq hw hsu hv hs => ?_,
    h1.ldr_keep, h1.commit, h1.base, h1.sent, h1.snap⟩
  rcases hs with hs | ⟨rfl, rfl, rfl⟩
  · rcases hv with hv | ⟨rfl, rfl, rfl⟩
    · exact h1.vote_keep hq hw hsu hv hs
    · exact absurd (he.stood_le hs) (not_le.mpr hlt)
  · rcases hv with hv | ⟨rfl, -, -⟩
    · -- nobody has voted for it in a term in which it has not stood
      obtain ⟨g, hg⟩ := he.voted_stood hv
      exact absurd (he.stood_le hg) (not_le.mpr hlt)
    · simpa using h1.ack_keep hq hw

theorem grant (hi : Completeness a) (hh : Histories a) (he : Elections a)
    (hs : a.stood c (a.node v).term h) (hup : UpToDate h (a.node v).hist) :
    Completeness (a.grant v c) := by
  have h1 := hi.set_same (v := v)
    (x := { a.node v with vote := some c, saved := (a.node v).term }) (he.saved v) rfl
    (hi.commit_le (he.saved v) rfl rfl) (hi.base v)
  refine ⟨h1.ldr_terms, h1.hist_terms, h1.ack_keep, fun {w s u d g q} hq hw hsu hv hd => ?_,
    h1.ldr_keep, h1.commit, h1.base, h1.sent, h1.snap⟩
  rcases hv with hv | ⟨rfl, rfl, rfl⟩
  · exact h1.vote_keep hq hw hsu hv hd
  · obtain rfl := he.stood_one hs hd
    have hq' : a.Live s q := ⟨mark_of_ldr rfl hq.1, choosable_back
      (b := a.set w { a.node w with vote := some d, saved := (a.node w).term })
      (fun z => by
        rw [set_node]; split
        · subst_vars; exact he.saved _
        · exact le_rfl) (fun _ => .inl rfl) hq.2⟩
    exact hi.upToDate_keep hh hq' (hi.ack_keep hq' hw) (hh.stood hs) hup

/-- The histories of nodes are sorted, as they are parts of leaders' histories. -/
theorem hist_sorted (hi : Completeness a) (hh : Histories a) (v : N) :
    Sorted (a.node v).hist := by
  rcases List.eq_nil_or_concat (a.node v).hist with h0 | ⟨r, f, hr⟩
  · rw [h0]; exact List.Pairwise.nil
  · rw [List.concat_eq_append] at hr
    obtain ⟨d, L, hL, hp⟩ := hh.hist v r f (by rw [hr])
    rw [hr]
    exact (hi.ldr_terms hL).1.of_isPrefix hp

/-- The leader `c` of its stored term, whose record is now `x.hist`, which it has stored. -/
theorem lead (hi : Completeness a) (he : Elections a) {x : Node N T E}
    (h1 : Completeness (a.setLdr c x.term x.hist)) (hs : x.saved = x.term)
    (hm : (a.node c).saved ≤ x.saved) (hx : ∀ y ∈ x.hist, termOf y ≤ x.saved)
    (hp : (a.node c).hist <+: x.hist) (hc : x.commit = (a.node c).commit)
    (hb : x.base = (a.node c).base) :
    Completeness (((a.set c x).setLdr c x.term x.hist).setAck c x.term k) := by
  have h2 : Completeness ((a.setLdr c x.term x.hist).set c x) := by
    refine h1.set hm hx (fun _ _ hq hk => (h1.ack_keep hq hk).trans hp) ⟨?_, ?_⟩ ?_
    · rw [hc]; exact (hi.commit c).1.trans hp.length_le
    · rw [hc, take_eq_of_isPrefix hp (hi.commit c).1]
      exact committed_le (h1.commit c).2 hm
    · rw [hb, hc]; exact hi.base c
  exact h2.setAck (v := c) (L := x.hist) (c := c) (by simp [hs])
    (fun u d hv => (he.voted_le hv).trans (hm.trans hs.le)) (by simp [State.set, setLdr_ldr])
    (by simpa using List.take_prefix k x.hist)

theorem win (hi : Completeness a) (hh : Histories a) (he : Elections a)
    {Q : Finset N} (hc : (a.node c).role = .candidate) (hQ : IsMajority Q)
    (hv : ∀ v ∈ Q, a.voted v (a.node c).term c) (hn : a.ldr (a.node c).term = none) :
    Completeness (a.win c) := by
  have hsv : (a.node c).saved = (a.node c).term := he.busy (by rw [hc]; exact Role.noConfusion)
  refine hi.lead he (x := { a.node c with role := .leader }) ?_ hsv le_rfl (hi.hist_terms c)
    (List.prefix_refl _) rfl rfl
  refine hi.setLdr he hh (grows_setLdr fun d L hL => by rw [hn] at hL; cases hL)
    ⟨hi.hist_sorted hh c, fun x hx => (hi.hist_terms c x hx).trans hsv.le⟩
    (fun p e hp he' => ?_) fun u q hq hu => ?_
  · -- no entry of the new term exists yet
    obtain ⟨d, L, hL, -⟩ := hh.hist c p e hp
    rw [he', hn] at hL; cases hL
  · obtain ⟨Q', hQ', hq'⟩ := hq.2
    obtain ⟨v, h1, h2⟩ := hQ.meet hQ'
    have h3 := he.voted_le (hv v h1)
    refine hi.vote_keep hq ?_ hu (hv v h1) (he.cand hc)
    rcases hq' v h2 with h4 | h4
    · exact h4
    · exact absurd (h3.trans h4) (not_le.mpr hu)

theorem append (hi : Completeness a) (hh : Histories a) (he : Elections a) (ha : Acks a)
    (hc : (a.node c).role = .leader) (het : termOf e = (a.node c).term) :
    Completeness (a.append c e) := by
  have hsv : (a.node c).saved = (a.node c).term := he.busy (by rw [hc]; exact Role.noConfusion)
  have hL := hh.leader hc
  have hterms : ∀ x ∈ (a.node c).hist ++ [e], termOf x ≤ (a.node c).term := by
    intro x hx
    rcases List.mem_append.mp hx with h1 | h1
    · exact (hi.hist_terms c x h1).trans hsv.le
    · rw [List.mem_singleton.mp h1, het]
  have hp : (a.node c).hist <+: (a.node c).hist ++ [e] := List.prefix_append _ _
  refine hi.lead he (x := { a.node c with
    hist := (a.node c).hist ++ [e], saved := (a.node c).term }) ?_ rfl hsv.le hterms hp rfl rfl
  refine hi.setLdr he hh (grows_setLdr fun d L hL' => ?_) ⟨?_, hterms⟩ (fun p f hpf hf => ?_)
    fun u q hq hu => (hi.ldr_keep hq hu hL).trans hp
  · rw [hL] at hL'
    cases hL'
    exact ⟨rfl, hp⟩
  · exact (hi.hist_sorted hh c).append_singleton fun x hx =>
      (hi.hist_terms c x hx).trans (hsv.trans het.symm).le
  · rcases prefix_append_singleton hpf with h1 | ⟨rfl, -⟩
    · exact .inl ⟨c, _, p, f, hL, h1, rfl, hf⟩
    · exact .inr fun w => ha.ack_le_length hL

/-- A node that takes the history `M` of its term's leader keeps a live history that ends no later
than what it took, or before the leader's own entries. -/
theorem live_prefix_sent (hi : Completeness a) (hh : Histories a)
    (hM : a.sent t M k) (hq : a.Live u q) (hu : u ≤ t) (hqM : u = t → q.length ≤ M.length) :
    q <+: M := by
  obtain ⟨d, L, hL, hp, hx⟩ := hh.sent hM
  rcases hu.eq_or_lt with rfl | hlt
  · obtain ⟨d', L', -, -, hL', hqL, -⟩ := hq.1
    rw [hL] at hL'
    cases hL'
    exact List.prefix_of_prefix_length_le hqL hp (hqM rfl)
  · have hqL := hi.ldr_keep hq hlt hL
    obtain ⟨-, -, p, e, -, -, rfl, rfl⟩ := hq.1
    exact prefix_of_term_ne hp hx hqL hlt.ne

theorem accept (hi : Completeness a) (hh : Histories a) (he : Elections a) (ha : Acks a)
    (hM : a.sent (a.node v).term M k)
    (hd : ∀ x ∈ (a.node v).hist.drop M.length, termOf x ≠ (a.node v).term) :
    Completeness (a.accept v M) := by
  have hack := ha.ack_le_accepted hh he hM hd
  obtain ⟨d, L, hL, hp, hx⟩ := hh.sent hM
  have hcom := hi.commit v
  have hcL := hi.committed_ldr (committed_le hcom.2 (he.saved v)) hL
  have hlen : ((a.node v).hist.take (a.node v).commit).length = (a.node v).commit := by
    rw [List.length_take]; omega
  -- a committed entry that `M` lacks is the leader's own, and would be dropped
  have hcM : (a.node v).commit ≤ M.length := by
    by_contra hlt
    have htake : L.take (a.node v).commit <+: (a.node v).hist := by
      have h1 := List.prefix_iff_eq_take.mp hcL
      rw [hlen] at h1
      exact h1 ▸ List.take_prefix _ _
    obtain ⟨y, h1, h2⟩ := mem_drop_of_take_isPrefix (hlen ▸ hcL.length_le) htake
      (by omega : M.length < (a.node v).commit)
    exact hd y h1 (hx y h2)
  have hcp : (a.node v).hist.take (a.node v).commit <+: M :=
    List.prefix_of_prefix_length_le hcL hp (by omega)
  have h1 := hi.set (v := v) (x := { a.node v with hist := M, saved := (a.node v).term })
    (he.saved v) (fun y hy => (hi.ldr_terms hL).2 y (hp.subset hy))
    (fun t q hq hk => by
      have hpos : 0 < a.ack v t := by
        obtain ⟨-, -, p, e, -, -, rfl, -⟩ := hq.1
        simp only [List.length_append, List.length_singleton] at hk
        omega
      exact hi.live_prefix_sent hh hM hq ((ha.le hpos).1.trans (he.saved v)) fun htt => by
        subst htt; exact hk.trans hack)
    ⟨hcM, committed_le (committed_isPrefix hcom.2 (by
      rw [List.prefix_iff_eq_take.mp hcp, hlen])) (he.saved v)⟩ (hi.base v)
  exact h1.setAck (v := v) (by simp) (fun u d hv => (he.voted_le hv).trans (he.saved v)) hL
    (by rw [set_node_self, ← List.prefix_iff_eq_take.mp hp])

theorem install (hi : Completeness a) (he : Elections a)
    (hs : a.snap (a.node v).term m.length) (hL : a.ldr (a.node v).term = some (c, L))
    (hm : m <+: L) : Completeness (a.install v m) := by
  have hmc : a.Committed m (a.node v).term := by
    have := hi.snap hs hL
    rwa [← List.prefix_iff_eq_take.mp hm] at this
  have hcom := hi.commit v
  by_cases hmh : m <+: (a.node v).hist
  · have hx := installed_of_isPrefix hmh
    refine hi.set (he.saved v) (fun y hy => ?_) (fun t q hq hk => ?_) ⟨?_, ?_⟩
      (le_max_right _ _)
    · simp only [hx] at hy
      exact (hi.hist_terms v y hy).trans (he.saved v)
    · simp only [hx]; exact hi.ack_keep hq hk
    · simp only [hx]; exact max_le hcom.1 hmh.length_le
    · simp only [hx]
      rcases max_choice (a.node v).commit m.length with h1 | h1
      · rw [h1]; exact committed_le hcom.2 (he.saved v)
      · rw [h1, ← List.prefix_iff_eq_take.mp hmh]; exact hmc
  · have hx := installed_of_not_isPrefix hmh
    have hcm : (a.node v).hist.take (a.node v).commit <+: m := by
      rcases hi.committed_comparable hcom.2 hmc with h1 | h1
      · exact h1
      · exact absurd (h1.trans (List.take_prefix _ _)) hmh
    have hlen : (a.node v).commit ≤ m.length := by
      have := hcm.length_le
      rw [List.length_take] at this
      omega
    refine hi.set (he.saved v) (fun y hy => ?_) (fun t q hq hk => ?_) ⟨?_, ?_⟩
      (le_max_right _ _)
    · simp only [hx] at hy
      exact (hi.ldr_terms hL).2 y (hm.subset hy)
    · simp only [hx]
      rcases hi.live_comparable hq hmc with h1 | h1
      · exact absurd (h1.trans (hi.ack_keep hq hk)) hmh
      · exact h1
    · simp only [hx]; exact max_le hlen le_rfl
    · simp only [hx, max_eq_right hlen, List.take_length]; exact hmc

theorem step (hi : Completeness a) (hh : Histories a) (he : Elections a) (ha : Acks a)
    (hT : D.terms) (hA : D.acks) (hC : D.commits) (hs : Step D a a') : Completeness a' := by
  cases hs with
  | reset v t ht =>
    have hle := (he.saved v).trans (ht hT).le
    exact hi.set_same hle rfl (hi.commit_le hle rfl rfl) (hi.base v)
  | raise v t _ => exact hi.set_same le_rfl rfl (hi.commit v) (hi.base v)
  | demote v => exact hi.set_same le_rfl rfl (hi.commit v) (hi.base v)
  | campaign v t ht => exact hi.campaign he ht
  | grant v c h hst _ hup => exact hi.grant hh he hst hup
  | win c Q hc hQ hv hn => exact hi.win hh he hc hQ hv hn
  | append c e hc het => exact hi.append hh he ha hc het
  | send c hc =>
    have hsv : (a.node c).saved = (a.node c).term := he.busy (by rw [hc]; exact Role.noConfusion)
    refine ⟨hi.ldr_terms, hi.hist_terms, hi.ack_keep, hi.vote_keep, hi.ldr_keep, hi.commit,
      hi.base, fun {t M k} hM => ?_, hi.snap⟩
    rcases hM with hM | ⟨rfl, rfl, rfl⟩
    · exact hi.sent hM
    · exact ⟨(hi.commit c).1, hsv ▸ (hi.commit c).2⟩
  | sendSnap c hc =>
    have hsv : (a.node c).saved = (a.node c).term := he.busy (by rw [hc]; exact Role.noConfusion)
    refine ⟨hi.ldr_terms, hi.hist_terms, hi.ack_keep, hi.vote_keep, hi.ldr_keep, hi.commit,
      hi.base, hi.sent, fun {t k d L} hk hL => ?_⟩
    rcases hk with hk | ⟨rfl, rfl⟩
    · exact hi.snap hk hL
    · have hl : a.ldr (a.node c).term = some (c, (a.node c).hist) := hh.leader hc
      rw [show a.ldr _ = _ from hL] at hl
      cases hl
      exact hsv ▸ committed_isPrefix (hi.commit c).2 (List.take_prefix_take_left (hi.base c))
  | accept v M k hM _ _ hd => exact hi.accept hh he ha hM (hd hA)
  | install v c L m hk hL hm _ _ => exact hi.install he hk hL hm
  | learn v k hk =>
    obtain ⟨h1, h2, h3⟩ := hk hC
    exact hi.set_same le_rfl rfl ⟨h2, h3⟩ h1
  | compact v k _ _ hk =>
    exact hi.set_same (he.saved v) rfl (hi.commit_le (he.saved v) rfl rfl) (hk hC)
  | restart v =>
    exact hi.set_same le_rfl rfl ⟨hh.base v,
      committed_isPrefix (hi.commit v).2 (List.take_prefix_take_left (hi.base v))⟩ le_rfl

theorem reach (hT : D.terms) (hA : D.acks) (hC : D.commits) (h : Reach D t₀ a) :
    Completeness a := by
  induction h with
  | start h => exact start h
  | step hr hs ih =>
    exact ih.step (.reach hr) (.reach hT hr) (.reach hT hA hr) hT hA hC hs

end Completeness

end CollabIde.Replication
