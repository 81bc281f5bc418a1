import CollabIde.Lib.Replication.Histories

/-!
# Each term has one leader

Under the discipline of terms a node votes once in a term, whatever it forgets in a restart: a
vote is stored with its term, and the stored term only grows. Two candidates that win one term
have a voter in common, so they are the same candidate, and it does not win twice
(`Elections.ldr_none`): the guard of `Step.win` costs nothing.
-/

set_option linter.unusedSectionVars false

namespace CollabIde.Replication

variable {N T E : Type} [DecidableEq N] [Fintype N] [LinearOrder T] [HasTerm E T]

/-- Votes and candidacies are backed by what the nodes have stored. -/
structure Elections (a : State N T E) : Prop where
  saved : ∀ v, (a.node v).saved ≤ (a.node v).term
  /-- A candidate and a leader have stored their term. -/
  busy : ∀ {v}, (a.node v).role ≠ .follower → (a.node v).saved = (a.node v).term
  voted_le : ∀ {v t c}, a.voted v t c → t ≤ (a.node v).saved
  voted_now : ∀ {v t c}, a.voted v t c → t = (a.node v).saved → (a.node v).vote = some c
  voted_one : ∀ {v t c c'}, a.voted v t c → a.voted v t c' → c = c'
  voted_stood : ∀ {v t c}, a.voted v t c → ∃ h, a.stood c t h
  stood_voted : ∀ {c t h}, a.stood c t h → a.voted c t c
  stood_one : ∀ {c t h h'}, a.stood c t h → a.stood c t h' → h = h'
  cand : ∀ {c}, (a.node c).role = .candidate → a.stood c (a.node c).term (a.node c).hist
  quorum : ∀ {t c L}, a.ldr t = some (c, L) →
    ∃ Q : Finset N, IsMajority Q ∧ ∀ v ∈ Q, a.voted v t c
  won : ∀ {t c L}, a.ldr t = some (c, L) → (a.node c).term = t → (a.node c).role ≠ .candidate

namespace Elections

variable {D : Discipline} {a a' : State N T E} {t₀ : T}

theorem start (h : Start t₀ a) : Elections a where
  saved v := by rw [h.node]
  busy {v} hv := by rw [h.node] at hv; exact absurd rfl hv
  voted_le hv := (h.voted _ _ _ hv).elim
  voted_now hv := (h.voted _ _ _ hv).elim
  voted_one hv := (h.voted _ _ _ hv).elim
  voted_stood hv := (h.voted _ _ _ hv).elim
  stood_voted hs := (h.stood _ _ _ hs).elim
  stood_one hs := (h.stood _ _ _ hs).elim
  cand {c} hc := by rw [h.node] at hc; cases hc
  quorum hl := by rw [h.ldr] at hl; cases hl
  won hl := by rw [h.ldr] at hl; cases hl

/-- A term has one winner. -/
theorem winner_one (hi : Elections a) {t : T} {c d : N} {Q Q' : Finset N} (hQ : IsMajority Q)
    (hv : ∀ v ∈ Q, a.voted v t c) (hQ' : IsMajority Q') (hv' : ∀ v ∈ Q', a.voted v t d) :
    c = d := by
  obtain ⟨v, h1, h2⟩ := hQ.meet hQ'
  exact hi.voted_one (hv v h1) (hv' v h2)

/-- A candidate with a majority finds its term without a leader. -/
theorem ldr_none (hi : Elections a) {c : N} {Q : Finset N} (hc : (a.node c).role = .candidate)
    (hQ : IsMajority Q) (hv : ∀ v ∈ Q, a.voted v (a.node c).term c) :
    a.ldr (a.node c).term = none := by
  cases hl : a.ldr (a.node c).term with
  | none => rfl
  | some x =>
    obtain ⟨d, L⟩ := x
    obtain ⟨Q', hQ', hv'⟩ := hi.quorum hl
    obtain rfl := hi.winner_one hQ hv hQ' hv'
    exact absurd hc (hi.won hl rfl)

theorem stood_le (hi : Elections a) {c : N} {t : T} {h : List E} (hs : a.stood c t h) :
    t ≤ (a.node c).saved := hi.voted_le (hi.stood_voted hs)

/-- A change of one node that stores no earlier term, keeps the vote of a term it keeps, and does
not make it a candidate. -/
theorem set (hi : Elections a) {v : N} {x : Node N T E} (hx : x.saved ≤ x.term)
    (hm : (a.node v).saved ≤ x.saved)
    (hb : x.role ≠ .follower → x.saved = x.term)
    (hvote : x.saved = (a.node v).saved → x.vote = (a.node v).vote)
    (hc : x.role = .candidate → (a.node v).role = .candidate ∧ x.term = (a.node v).term ∧
      x.hist = (a.node v).hist) : Elections (a.set v x) where
  saved w := by
    rw [set_node]; split
    · exact hx
    · exact hi.saved w
  busy {w} := by
    rw [set_node]; split
    · exact hb
    · exact hi.busy
  voted_le {w t c} hv := by
    rw [set_node]; split
    · subst_vars; exact (hi.voted_le hv).trans hm
    · exact hi.voted_le hv
  voted_now {w t c} hv ht := by
    rw [set_node] at ht ⊢
    split at ht
    · subst_vars
      rw [if_pos rfl]
      have h1 := hi.voted_le hv
      have h2 : x.saved = (a.node w).saved := le_antisymm h1 hm
      rw [hvote h2]
      exact hi.voted_now hv h2
    · rename_i hw
      rw [if_neg hw]
      exact hi.voted_now hv ht
  voted_one := hi.voted_one
  voted_stood := hi.voted_stood
  stood_voted := hi.stood_voted
  stood_one := hi.stood_one
  cand {c} hr := by
    rw [set_node] at hr ⊢
    split at hr
    · subst_vars
      obtain ⟨h1, h2, h3⟩ := hc hr
      rw [if_pos rfl, h2, h3]
      exact hi.cand h1
    · rename_i hw
      rw [if_neg hw]
      exact hi.cand hr
  quorum := hi.quorum
  won {t c L} hl ht hr := by
    rw [set_node] at ht hr
    split at hr
    · subst_vars
      obtain ⟨h1, h2, -⟩ := hc hr
      rw [if_pos rfl] at hl
      rw [h2] at hl
      exact hi.won hl rfl h1
    · rename_i hw
      rw [if_neg hw] at ht
      exact hi.won hl ht hr

theorem setAck (hi : Elections a) {v : N} {t : T} {k : ℕ} : Elections (a.setAck v t k) :=
  ⟨hi.saved, hi.busy, hi.voted_le, hi.voted_now, hi.voted_one, hi.voted_stood, hi.stood_voted,
    hi.stood_one, hi.cand, hi.quorum, hi.won⟩

/-- `c`, not a candidate, leads a term that a majority gave it. -/
theorem setLdr (hi : Elections a) {t : T} {c : N} {h : List E}
    (hq : ∃ Q : Finset N, IsMajority Q ∧ ∀ v ∈ Q, a.voted v t c)
    (hr : (a.node c).role ≠ .candidate) : Elections (a.setLdr c t h) := by
  refine ⟨hi.saved, hi.busy, hi.voted_le, hi.voted_now, hi.voted_one, hi.voted_stood,
    hi.stood_voted, hi.stood_one, hi.cand, fun {u d L} hl => ?_, fun {u d L} hl hu => ?_⟩
  · rw [setLdr_ldr] at hl
    split at hl
    · cases hl; subst_vars; exact hq
    · exact hi.quorum hl
  · rw [setLdr_ldr] at hl
    split at hl
    · cases hl; exact hr
    · exact hi.won hl hu

theorem campaign (hi : Elections a) {v : N} {t : T} (ht : (a.node v).term < t) :
    Elections (a.campaign v t) := by
  have hlt : (a.node v).saved < t := (hi.saved v).trans_lt ht
  have hnew : ∀ {u c}, a.voted v u c → u ≠ t := fun hv he => by
    have := hi.voted_le hv
    order
  refine ⟨fun w => ?_, fun {w} => ?_, fun {w u c} hv => ?_, fun {w u c} hv hu => ?_,
    fun {w u c c'} hv hv' => ?_, fun {w u c} hv => ?_, fun {c u h} hs => ?_,
    fun {c u h h'} hs hs' => ?_, fun {c} hr => ?_, fun {u c L} hl => ?_, fun {u c L} hl hu => ?_⟩
  · simp only [State.campaign, set_node]; split
    · exact le_rfl
    · exact hi.saved w
  · simp only [State.campaign, set_node]; split
    · exact fun _ => rfl
    · exact hi.busy
  · simp only [State.campaign, set_node]
    rcases hv with hv | ⟨rfl, rfl, -⟩
    · split
      · subst_vars; exact ((hi.voted_le hv).trans hlt.le)
      · exact hi.voted_le hv
    · rw [if_pos rfl]
  · simp only [State.campaign, set_node] at hu ⊢
    rcases hv with hv | ⟨rfl, rfl, rfl⟩
    · split at hu
      · subst_vars; exact absurd rfl (hnew hv)
      · rename_i hw
        rw [if_neg hw]
        exact hi.voted_now hv hu
    · rw [if_pos rfl]
  · rcases hv with hv | ⟨rfl, rfl, rfl⟩
    · rcases hv' with hv' | ⟨rfl, rfl, rfl⟩
      · exact hi.voted_one hv hv'
      · exact absurd rfl (hnew hv)
    · rcases hv' with hv' | ⟨-, -, rfl⟩
      · exact absurd rfl (hnew hv')
      · rfl
  · rcases hv with hv | ⟨rfl, rfl, rfl⟩
    · obtain ⟨h, hs⟩ := hi.voted_stood hv
      exact ⟨h, .inl hs⟩
    · exact ⟨_, .inr ⟨rfl, rfl, rfl⟩⟩
  · rcases hs with hs | ⟨rfl, rfl, -⟩
    · exact .inl (hi.stood_voted hs)
    · exact .inr ⟨rfl, rfl, rfl⟩
  · rcases hs with hs | ⟨rfl, rfl, rfl⟩
    · rcases hs' with hs' | ⟨rfl, rfl, rfl⟩
      · exact hi.stood_one hs hs'
      · exact absurd rfl (hnew (hi.stood_voted hs))
    · rcases hs' with hs' | ⟨-, -, rfl⟩
      · exact absurd rfl (hnew (hi.stood_voted hs'))
      · rfl
  · simp only [State.campaign, set_node] at hr ⊢
    split at hr
    · subst_vars
      rw [if_pos rfl]
      exact .inr ⟨rfl, rfl, rfl⟩
    · rename_i hw
      rw [if_neg hw]
      exact .inl (hi.cand hr)
  · obtain ⟨Q, hQ, hv⟩ := hi.quorum hl
    exact ⟨Q, hQ, fun w hw => .inl (hv w hw)⟩
  · simp only [State.campaign, set_node] at hu ⊢
    split at hu
    · subst_vars
      -- the candidate has not stood in this term before, so it has not won it
      obtain ⟨Q, hQ, hv⟩ := hi.quorum hl
      obtain ⟨w, hw, -⟩ := hQ.meet hQ
      obtain ⟨h, hs⟩ := hi.voted_stood (hv w hw)
      exact absurd rfl (hnew (hi.stood_voted hs))
    · rename_i hw
      rw [if_neg hw]
      exact hi.won hl hu

theorem grant (hi : Elections a) {v c : N} {h : List E} (hs : a.stood c (a.node v).term h)
    (hv : (a.node v).vote = none ∨ (a.node v).vote = some c) : Elections (a.grant v c) := by
  -- an earlier vote of this node in this term is for `c`
  have hold : ∀ {d}, a.voted v (a.node v).term d → d = c := fun {d} hd => by
    have h1 := hi.voted_le hd
    have h2 := hi.voted_now hd (le_antisymm h1 (hi.saved v))
    rcases hv with hv | hv
    · rw [hv] at h2; cases h2
    · rw [hv] at h2; cases h2; rfl
  have hx : ∀ w, ((a.grant v c).node w).term = (a.node w).term ∧
      ((a.grant v c).node w).role = (a.node w).role ∧
      ((a.grant v c).node w).hist = (a.node w).hist := by
    intro w
    simp only [State.grant, set_node]
    split
    · subst_vars; exact ⟨rfl, rfl, rfl⟩
    · exact ⟨rfl, rfl, rfl⟩
  refine ⟨fun w => ?_, fun {w} hw => ?_, fun {w u d} hd => ?_, fun {w u d} hd hu => ?_,
    fun {w u d d'} hd hd' => ?_, fun {w u d} hd => ?_, fun hs => .inl (hi.stood_voted hs),
    hi.stood_one, fun {d} hr => ?_, fun {u d L} hl => ?_, fun {u d L} hl hu => ?_⟩
  · simp only [State.grant, set_node]; split
    · exact le_rfl
    · exact hi.saved w
  · rw [(hx w).2.1] at hw
    simp only [State.grant, set_node]; split
    · rfl
    · exact hi.busy hw
  · simp only [State.grant, set_node]
    rcases hd with hd | ⟨rfl, rfl, -⟩
    · split
      · subst_vars; exact (hi.voted_le hd).trans (hi.saved _)
      · exact hi.voted_le hd
    · rw [if_pos rfl]
  · simp only [State.grant, set_node] at hu ⊢
    rcases hd with hd | ⟨rfl, rfl, rfl⟩
    · split at hu
      · subst_vars
        rw [if_pos rfl, hold hd]
      · rename_i hw
        rw [if_neg hw]
        exact hi.voted_now hd hu
    · rw [if_pos rfl]
  · rcases hd with hd | ⟨rfl, rfl, rfl⟩
    · rcases hd' with hd' | ⟨rfl, rfl, rfl⟩
      · exact hi.voted_one hd hd'
      · exact hold hd
    · rcases hd' with hd' | ⟨-, -, rfl⟩
      · exact (hold hd').symm
      · rfl
  · rcases hd with hd | ⟨rfl, rfl, rfl⟩
    · exact hi.voted_stood hd
    · exact ⟨h, hs⟩
  · rw [(hx d).2.1] at hr
    rw [(hx d).1, (hx d).2.2]
    exact hi.cand hr
  · obtain ⟨Q, hQ, hw⟩ := hi.quorum hl
    exact ⟨Q, hQ, fun w h => .inl (hw w h)⟩
  · rw [(hx d).1] at hu
    rw [(hx d).2.1]
    exact hi.won hl hu

theorem step (hi : Elections a) (hh : Histories a) (hD : D.terms) (hs : Step D a a') :
    Elections a' := by
  cases hs with
  | reset v t ht =>
    obtain ht | ⟨rfl, hv⟩ := ht hD
    · have hlt := (hi.saved v).trans_lt ht
      exact hi.set le_rfl hlt.le (fun _ => rfl) (fun he => absurd he hlt.ne')
        fun hr => by cases hr
    · exact hi.set le_rfl (hi.saved v) (fun _ => rfl) (fun _ => hv.symm) fun hr => by cases hr
  | raise v t ht =>
    exact hi.set ((hi.saved v).trans ht.le) le_rfl (fun hr => absurd rfl hr) (fun _ => rfl)
      fun hr => by cases hr
  | demote v =>
    exact hi.set (hi.saved v) le_rfl (fun hr => absurd rfl hr) (fun _ => rfl)
      fun hr => by cases hr
  | campaign v t ht => exact hi.campaign ht
  | grant v c h hst hv _ => exact hi.grant hst hv
  | win c Q hc hQ hv _ =>
    refine ((hi.set (v := c) (x := { a.node c with role := .leader }) (hi.saved c) le_rfl
      (fun _ => hi.busy (by rw [hc]; exact Role.noConfusion)) (fun _ => rfl)
      fun hr => by cases hr).setLdr ⟨Q, hQ, hv⟩ ?_).setAck
    simp
  | append c e hc _ =>
    have hsv := hi.busy (v := c) (by rw [hc]; exact Role.noConfusion)
    refine ((hi.set (v := c) (x := { a.node c with
      hist := (a.node c).hist ++ [e], saved := (a.node c).term }) le_rfl (hi.saved c)
      (fun _ => rfl) (fun _ => rfl) fun hr => by
        rw [show (a.node c).role = .leader from hc] at hr; cases hr).setLdr
      (hi.quorum (hh.leader hc)) ?_).setAck
    simp [hc]
  | send c hc =>
    exact ⟨hi.saved, hi.busy, hi.voted_le, hi.voted_now, hi.voted_one, hi.voted_stood,
      hi.stood_voted, hi.stood_one, hi.cand, hi.quorum, hi.won⟩
  | sendSnap c hc =>
    exact ⟨hi.saved, hi.busy, hi.voted_le, hi.voted_now, hi.voted_one, hi.voted_stood,
      hi.stood_voted, hi.stood_one, hi.cand, hi.quorum, hi.won⟩
  | accept v M k _ hr _ _ =>
    exact (hi.set (v := v) (x := { a.node v with hist := M, saved := (a.node v).term }) le_rfl
      (hi.saved v) (fun _ => rfl) (fun _ => rfl) fun h => by rw [hr] at h; cases h).setAck
  | install v c L m _ _ _ hr _ =>
    exact hi.set le_rfl (hi.saved v) (fun _ => rfl) (fun _ => rfl)
      fun h => by rw [hr] at h; cases h
  | learn v k _ =>
    exact hi.set (hi.saved v) le_rfl hi.busy (fun _ => rfl) fun h => ⟨h, rfl, rfl⟩
  | compact v k _ _ _ =>
    exact hi.set le_rfl (hi.saved v) (fun _ => rfl) (fun _ => rfl) fun h => ⟨h, rfl, rfl⟩
  | restart v =>
    exact hi.set le_rfl le_rfl (fun _ => rfl) (fun _ => rfl) fun h => by cases h

theorem reach (hD : D.terms) (h : Reach D t₀ a) : Elections a := by
  induction h with
  | start h => exact start h
  | step hr hs ih => exact ih.step (.reach hr) hD hs

end Elections

end CollabIde.Replication
