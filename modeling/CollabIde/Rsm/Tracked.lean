import CollabIde.Rsm.Leading
import CollabIde.Rsm.Services

/-!
# The calls, what they give to `Start`, and what their callers see

`Services.Tracked` is the invariant between the calls of all lives of the peers, the proposals and
the history: a call that has an index has proposed its operation there, once, and its caller has
called before. It holds whatever the Rafts do.
-/

namespace CollabIde

open Linearizability (Event)

variable {n : ℕ} {R V S D : Type} {σ : StateMachine R V S D}

/-! ## What a step of the RSM does to the calls -/

namespace RSM

variable {s s' : RSM R V S} {x : Action R D} {c : ℕ} {call call' : Call R V}

/-- Only a message changes the server. -/
theorem step_sm (hm : ∀ m, x ≠ .message m) (hx : s.step σ x = some s') : s'.sm = s.sm := by
  cases stepped hx with
  | restore | doOp | ignore => exact absurd rfl (hm _)
  | _ => rfl

theorem next_le (hx : s.step σ x = some s') : s.next ≤ s'.next := by
  cases stepped hx with
  | submit req => exact Nat.le_succ _
  | _ => exact le_rfl

/-- A call that is the same as before, for its index. -/
structure Call.Goes (call call' : Call R V) : Prop where
  req : call'.req = call.req
  index : call'.index = call.index
  id : call.index ≠ none → call'.id = call.id

/-- Where a call comes from in a step. -/
inductive Origin (s : RSM R V S) (x : Action R D) (c : ℕ) (call' : Call R V) : Prop
  | goes {call : Call R V} : s.calls c = some call → call.Goes call' → Origin s x c call'
  | starts {call : Call R V} {index term : ℤ} : x = .start c (some (index, term)) →
    s.calls c = some call → call.phase = .start → call'.req = call.req →
    call'.index = some index → call'.id = call.id → Origin s x c call'
  | begins {req : R} : x = .submit req → c = s.next → call' = { req := req } → Origin s x c call'

theorem Origin.same (hc : s.calls c = some call) : Origin s x c call :=
  .goes hc ⟨rfl, rfl, fun _ => rfl⟩

/-- One call goes on. -/
theorem Origin.setCall {d : ℕ} {old : Call R V} (hd : s.calls d = some old) (new : Call R V)
    (h : old.Goes new)
    (hcalls : s'.calls = (s.setCall d new).calls) (hc : s'.calls c = some call') :
    Origin s x c call' := by
  rw [hcalls] at hc
  by_cases hcd : c = d
  · subst hcd
    cases setCall_self.symm.trans hc
    exact .goes hd h
  · exact .same ((setCall_ne hcd).symm.trans hc)

theorem Indexed.origin (h : s.Indexed) (hx : s.step σ x = some s')
    (hc : s'.calls c = some call') : Origin s x c call' := by
  cases stepped hx with
  | submit req =>
    by_cases hne : c = s.next
    · subst hne
      cases setCall_self.symm.trans hc
      exact .begins rfl rfl rfl
    · exact .same ((setCall_ne hne).symm.trans hc)
  | @notLeader d call hd hp =>
    exact .setCall hd { call with phase := .done .wrongLeader } ⟨rfl, rfl, fun _ => rfl⟩ rfl hc
  | @start d call index term hd hp =>
    by_cases hcd : c = d
    · subst hcd
      cases setCall_self.symm.trans hc
      exact .starts rfl hd hp rfl rfl rfl
    · exact .same ((setCall_ne hcd).symm.trans hc)
  | @receive d call result hd hp hresult =>
    exact .setCall hd { call with result := none, phase := .unregister result }
      ⟨rfl, rfl, fun _ => rfl⟩ rfl hc
  | restore | doOp | close | tick | unlock => exact .same hc
  | ignore m => exact .same hc
  | @identify i d order call hl hg hd hp =>
    exact .setCall hd { call with id := s.nextOpId, phase := .start }
      ⟨rfl, rfl, fun hne => absurd (h d call hd (.inl hp)) hne⟩ rfl hc
  | @register i d order call index hl hg hd hp hindex =>
    exact .setCall hd { call with phase := .wait } ⟨rfl, rfl, fun _ => rfl⟩ rfl hc
  | @unregister i d order call index result hl hg hd hp hindex =>
    exact .setCall hd { call with phase := .done result } ⟨rfl, rfl, fun _ => rfl⟩ rfl hc
  | beginSection hl hg hsub hperm =>
    obtain ⟨old, hold, rfl⟩ := Option.map_eq_some_iff.mp hc
    exact .goes hold ⟨rfl, rfl, fun _ => rfl⟩
  | @send sec idx rest d call hsec hp hi hd hresult hdel =>
    exact .setCall hd { call with result := some sec.result, sent := call.sent + 1 }
      ⟨rfl, rfl, fun _ => rfl⟩ rfl hc
  | @sendDelete sec idx rest d call hsec hp hi hd hresult hdel =>
    exact .setCall hd { call with result := some sec.result, sent := call.sent + 1 }
      ⟨rfl, rfl, fun _ => rfl⟩ rfl hc

/-- The call that has given it to `Start`. -/
def Proposal.callId (e : Proposal n R) : CallId n := (e.peer, e.life, e.call)

end RSM

/-! ## The invariant -/

namespace Services

variable {s s' : Services n R V S D} {p : Fin n} {c : ℕ}

structure Tracked (s : Services n R V S D) : Prop where
  registered : ∀ p, (s.rsm p).Registered
  indexed : ∀ p, (s.rsm p).Indexed
  proposed : ∀ p c call i, (s.rsm p).calls c = some call → call.index = some i →
    ⟨p, s.life p, c, i, ⟨call.req, call.id⟩⟩ ∈ s.proposals
  lives : ∀ e ∈ s.proposals, e.life ≤ s.life e.peer
  present : ∀ e ∈ s.proposals, e.life = s.life e.peer →
    ∃ call, (s.rsm e.peer).calls e.call = some call ∧ call.index = some e.index
  once : (s.proposals.map RSM.Proposal.callId).Nodup
  fresh : ∀ e ∈ s.proposals, ∀ e' ∈ s.proposals, e.peer = e'.peer → e.index = e'.index →
    e.op.id = e'.op.id → e.life = e'.life
  called : ∀ e ∈ s.proposals, .call e.callId e.op.req ∈ s.history
  begun : ∀ p c call, (s.rsm p).calls c = some call → .call (p, s.life p, c) call.req ∈ s.history
  past : ∀ p l c q, .call (p, l, c) q ∈ s.history →
    l ≤ s.life p ∧ (l = s.life p → c < (s.rsm p).next)

theorem answer_notMem {k : CallId n} {q : R} {g : Option RSM.Goroutine} :
    Event.call k q ∉ s.answer p g := by
  unfold answer
  split
  · split
    · exact fun h => by cases List.mem_singleton.mp h
    · exact List.not_mem_nil
  · exact List.not_mem_nil

/-- Only `Submit` begins a call. -/
theorem call_mem_events {x : RSM.Action R D} {k : CallId n} {q : R} :
    .call k q ∈ s.events p x ↔ x = .submit q ∧ k = (p, s.life p, (s.rsm p).next) := by
  unfold events
  split
  · rename_i req
    constructor
    · intro h
      cases List.mem_singleton.mp h
      exact ⟨rfl, rfl⟩
    · rintro ⟨hx, rfl⟩
      cases hx
      exact List.mem_singleton_self _
  · exact ⟨fun h => absurd h answer_notMem, fun ⟨hx, _⟩ => by cases hx⟩
  · rename_i hsubmit _
    exact ⟨fun h => absurd h List.not_mem_nil, fun ⟨hx, _⟩ => absurd hx (hsubmit q)⟩

/-- What is given to `Start` is the call's operation. -/
theorem mem_proposed {x : RSM.Action R D} {e : RSM.Proposal n R} :
    e ∈ s.proposed p x ↔ ∃ c index term call, x = .start c (some (index, term)) ∧
      (s.rsm p).calls c = some call ∧ e = ⟨p, s.life p, c, index, ⟨call.req, call.id⟩⟩ := by
  unfold proposed
  split
  · rename_i c index term
    constructor
    · intro h
      obtain ⟨call, hc, rfl⟩ := List.mem_map.mp h
      exact ⟨c, index, term, call, rfl, Option.mem_toList.mp hc, rfl⟩
    · rintro ⟨c', index', term', call, hx, hc, rfl⟩
      cases hx
      exact List.mem_map.mpr ⟨call, Option.mem_toList.mpr hc, rfl⟩
  · rename_i hx
    refine ⟨fun h => absurd h List.not_mem_nil, ?_⟩
    rintro ⟨c, index, term, call, rfl, -, -⟩
    exact absurd rfl (hx c index term)

theorem nodup_proposed {x : RSM.Action R D} :
    ((s.proposed p x).map RSM.Proposal.callId).Nodup := by
  unfold proposed
  split
  · rename_i c index term
    cases (s.rsm p).calls c with
    | none => exact List.nodup_nil
    | some call => exact List.nodup_singleton _
  · exact List.nodup_nil

namespace Tracked

theorem initial (sm : S) : (initial sm : Services n R V S D).Tracked where
  registered p := .make p sm
  indexed _ _ _ hc := by cases hc
  proposed _ _ _ _ hc := by cases hc
  lives _ he := absurd he List.not_mem_nil
  present _ he := absurd he List.not_mem_nil
  once := List.nodup_nil
  fresh _ he := absurd he List.not_mem_nil
  called _ he := absurd he List.not_mem_nil
  begun _ _ _ hc := by cases hc
  past _ _ _ _ h := absurd h List.not_mem_nil

/-- The Rafts and what stands above them go on. -/
theorem setReplicas (h : s.Tracked) {r : Replicas n R S D}
    (hlife : ∀ p, (r.cluster.proc p).epoch = s.life p) : { s with replicas := r }.Tracked := by
  have hlife : { s with replicas := r }.life = s.life := funext hlife
  refine ⟨h.registered, h.indexed, ?_, ?_, ?_, h.once, h.fresh, h.called, ?_, ?_⟩
  · rw [hlife]
    exact h.proposed
  · rw [hlife]
    exact h.lives
  · rw [hlife]
    exact h.present
  · rw [hlife]
    exact h.begun
  · rw [hlife]
    exact h.past

/-- A call that is about to get an index has given nothing to `Start`. -/
theorem notMem_of_start (h : s.Tracked) {call : RSM.Call R V} (hc : (s.rsm p).calls c = some call)
    (hp : call.phase = .start) : (p, s.life p, c) ∉ s.proposals.map RSM.Proposal.callId := by
  intro hmem
  obtain ⟨e, he, heq⟩ := List.mem_map.mp hmem
  obtain ⟨rfl, hlife, rfl⟩ : e.peer = p ∧ e.life = s.life p ∧ e.call = c := by
    simpa [RSM.Proposal.callId] using heq
  obtain ⟨call', hc', hindex⟩ := h.present e he hlife
  cases hc.symm.trans hc'
  cases (h.indexed e.peer e.call call hc (.inr hp)).symm.trans hindex

/-- A call begins in the history. -/
theorem notMem_next (h : s.Tracked) (q : R) :
    .call (p, s.life p, (s.rsm p).next) q ∉ s.history := fun hmem =>
  absurd ((h.past _ _ _ _ hmem).2 rfl) (lt_irrefl _)

/-- The RSM of a peer takes a step. -/
theorem setStep (h : s.Tracked) {x : RSM.Action R D} {q : RSM R V S} {r : Replicas n R S D}
    (hlife : ∀ p, (r.cluster.proc p).epoch = s.life p) (hx : (s.rsm p).step σ x = some q)
    (hnew : ∀ e ∈ s.proposed p x, ∀ e' ∈ s.proposals, e'.peer = p → e'.index = e.index →
      e'.op.id = e.op.id → e'.life = s.life p) : (s.setStep p x q r).Tracked := by
  have hlife : (s.setStep p x q r).life = s.life := funext hlife
  have hself : (s.setStep p x q r).rsm p = q := rsm_setStep_self
  have hne {j : Fin n} (hj : j ≠ p) : (s.setStep p x q r).rsm j = s.rsm j := rsm_setStep_ne hj
  obtain ⟨hindexed, hkeeps⟩ := (h.indexed p).step (h.registered p) hx
  have hstarts {e : RSM.Proposal n R} (he : e ∈ s.proposed p x) : ∃ call, e.peer = p ∧
      e.life = s.life p ∧ (s.rsm p).calls e.call = some call ∧ call.phase = .start ∧
      e.op.req = call.req ∧ ∃ call', q.calls e.call = some call' ∧ call'.index = some e.index := by
    obtain ⟨c, index, term, call, rfl, hc, rfl⟩ := mem_proposed.mp he
    cases RSM.stepped hx with
    | start hc' hp =>
      cases hc.symm.trans hc'
      exact ⟨call, rfl, rfl, hc, hp, rfl, _, RSM.setCall_self, rfl⟩
  refine ⟨fun j => ?_, fun j => ?_, fun j c call i hc hi => ?_, fun e he => ?_, fun e he hl => ?_,
    ?_, fun e he e' he' hpeer hindex hid => ?_, fun e he => ?_, fun j c call hc => ?_,
    fun j l c req hmem => ?_⟩
  · by_cases hj : j = p
    · subst hj
      rw [hself]
      exact (h.registered j).step hx
    · rw [hne hj]
      exact h.registered j
  · by_cases hj : j = p
    · subst hj
      rw [hself]
      exact hindexed
    · rw [hne hj]
      exact h.indexed j
  · rw [hlife]
    by_cases hj : j = p
    · subst hj
      rw [hself] at hc
      cases (h.indexed j).origin hx hc with
      | goes hold hgoes =>
        rw [hgoes.index] at hi
        rw [hgoes.req, hgoes.id (by rw [hi]; simp)]
        exact List.mem_append_left _ (h.proposed j c _ i hold hi)
      | starts hxs hold hp hreq hindex hid =>
        rw [hindex, Option.some.injEq] at hi
        refine List.mem_append_right _ (mem_proposed.mpr ⟨c, _, _, _, hxs, hold, ?_⟩)
        rw [hreq, hid, hi]
      | begins hxs hn hcall =>
        rw [hcall] at hi
        cases hi
    · exact List.mem_append_left _ (h.proposed j c call i (hne hj ▸ hc) hi)
  · rw [hlife]
    obtain he | he := List.mem_append.mp he
    · exact h.lives e he
    · obtain ⟨call, rfl, hl, -⟩ := hstarts he
      exact hl.le
  · rw [hlife] at hl
    obtain he | he := List.mem_append.mp he
    · obtain ⟨call, hc, hi⟩ := h.present e he hl
      by_cases hj : e.peer = p
      · rw [hj, hself]
        obtain ⟨call', hc', hstamp⟩ := hkeeps e.call call (hj ▸ hc) (by rw [hi]; simp)
        exact ⟨call', hc', (congrArg Prod.fst hstamp).trans hi⟩
      · exact ⟨call, (hne hj).symm ▸ hc, hi⟩
    · obtain ⟨call, rfl, -, -, -, -, call', hc', hi⟩ := hstarts he
      rw [hself]
      exact ⟨call', hc', hi⟩
  · change ((s.proposals ++ s.proposed p x).map RSM.Proposal.callId).Nodup
    rw [List.map_append, List.nodup_append]
    refine ⟨h.once, nodup_proposed, fun k hk k' hk' => ?_⟩
    obtain ⟨e, he, rfl⟩ := List.mem_map.mp hk'
    obtain ⟨call, hpeer, hl, hc, hp, -⟩ := hstarts he
    rintro rfl
    refine h.notMem_of_start hc hp ?_
    rwa [RSM.Proposal.callId, hpeer, hl] at hk
  · obtain hold | hnow := List.mem_append.mp he
    · obtain hold' | hnow' := List.mem_append.mp he'
      · exact h.fresh e hold e' hold' hpeer hindex hid
      · obtain ⟨call, hp, hl, -⟩ := hstarts hnow'
        exact (hnew e' hnow' e hold (hpeer.trans hp) hindex hid).trans hl.symm
    · obtain ⟨call, hp, hl, -⟩ := hstarts hnow
      obtain hold' | hnow' := List.mem_append.mp he'
      · exact hl.trans (hnew e hnow e' hold' (hpeer.symm.trans hp) hindex.symm hid.symm).symm
      · obtain ⟨call', -, hl', -⟩ := hstarts hnow'
        exact hl.trans hl'.symm
  · obtain he | he := List.mem_append.mp he
    · exact List.mem_append_left _ (h.called e he)
    · obtain ⟨call, hpeer, hl, hc, -, hreq, -⟩ := hstarts he
      rw [RSM.Proposal.callId, hpeer, hl, hreq]
      exact List.mem_append_left _ (h.begun p e.call call hc)
  · rw [hlife]
    by_cases hj : j = p
    · subst hj
      rw [hself] at hc
      cases (h.indexed j).origin hx hc with
      | goes hold hgoes =>
        rw [hgoes.req]
        exact List.mem_append_left _ (h.begun j c _ hold)
      | starts hxs hold hp hreq hindex hid =>
        rw [hreq]
        exact List.mem_append_left _ (h.begun j c _ hold)
      | begins hxs hn hcall =>
        subst hcall
        exact List.mem_append_right _ (call_mem_events.mpr ⟨hxs, by rw [hn]⟩)
    · exact List.mem_append_left _ (h.begun j c call (hne hj ▸ hc))
  · rw [hlife]
    have hnext : (s.rsm j).next ≤ ((s.setStep p x q r).rsm j).next := by
      by_cases hj : j = p
      · subst hj
        rw [hself]
        exact RSM.next_le hx
      · rw [hne hj]
    obtain hmem | hmem := List.mem_append.mp hmem
    · obtain ⟨hl, hlt⟩ := h.past j l c req hmem
      exact ⟨hl, fun heq => (hlt heq).trans_le hnext⟩
    · obtain ⟨rfl, heq⟩ := call_mem_events.mp hmem
      cases heq
      cases hx
      rw [hself]
      exact ⟨le_rfl, fun _ => Nat.lt_succ_self _⟩

/-- A peer starts again, with no calls. -/
theorem remake (h : s.Tracked) {r : Replicas n R S D}
    (hself : (r.cluster.proc p).epoch = s.life p + 1)
    (hne : ∀ j ≠ p, (r.cluster.proc j).epoch = s.life j) : (s.remake p r).Tracked := by
  have hrsm : (s.remake p r).rsm p = .make p (r.reader p).sm := rsm_remake_self
  have hrsm' {j : Fin n} (hj : j ≠ p) : (s.remake p r).rsm j = s.rsm j := rsm_remake_ne hj
  have hlife : (s.remake p r).life p = s.life p + 1 := hself
  have hlife' {j : Fin n} (hj : j ≠ p) : (s.remake p r).life j = s.life j := hne j hj
  have hle (j : Fin n) : s.life j ≤ (s.remake p r).life j := by
    by_cases hj : j = p
    · subst hj
      rw [hlife]
      exact Nat.le_succ _
    · rw [hlife' hj]
  refine ⟨fun j => ?_, fun j => ?_, fun j c call i hc hi => ?_,
    fun e he => (h.lives e he).trans (hle e.peer), fun e he hl => ?_, h.once, h.fresh, h.called,
    fun j c call hc => ?_, fun j l c req hmem => ?_⟩
  · by_cases hj : j = p
    · subst hj
      exact hrsm ▸ .make j _
    · exact hrsm' hj ▸ h.registered j
  · by_cases hj : j = p
    · subst hj
      intro c call hc
      rw [hrsm] at hc
      cases hc
    · exact hrsm' hj ▸ h.indexed j
  · by_cases hj : j = p
    · subst hj
      rw [hrsm] at hc
      cases hc
    · rw [hlife' hj]
      exact h.proposed j c call i (hrsm' hj ▸ hc) hi
  · by_cases hj : e.peer = p
    · have hlt := h.lives e he
      rw [hj, hlife] at hl
      rw [hj] at hlt
      omega
    · rw [hlife' hj] at hl
      rw [hrsm' hj]
      exact h.present e he hl
  · by_cases hj : j = p
    · subst hj
      rw [hrsm] at hc
      cases hc
    · rw [hlife' hj]
      exact h.begun j c call (hrsm' hj ▸ hc)
  · obtain ⟨hl, hlt⟩ := h.past j l c req hmem
    by_cases hj : j = p
    · subst hj
      rw [hlife]
      exact ⟨by omega, fun heq => by omega⟩
    · rw [hlife' hj, hrsm' hj]
      exact ⟨hl, hlt⟩

end Tracked

end Services

end CollabIde
