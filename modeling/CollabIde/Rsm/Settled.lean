import CollabIde.Rsm.Agreement
import CollabIde.Rsm.Tracked

/-!
# The order of the calls

What is committed has been proposed by calls, and settles their order: `Services.Settled` says that
the committed commands are those of the proposals `es`, that `es` explains the history, and that the
RSMs over `es` are in a sound state (`Peers.Sound`), so that an OK is that of the call's own entry.
The committed commands only get more (`Settled.grow`).
-/

namespace CollabIde

open Linearizability (Event Linearizes)

variable {n : ℕ} {R V S D : Type} {σ : StateMachine R V S D} {sm : S}

/-- The server as an object: `DoOp` answers, and its answer is what `Submit` returns. -/
def StateMachine.object (σ : StateMachine R V S D) (sm : S) (req : R) : S × Option V :=
  ((σ.doOp sm req).1, some (σ.doOp sm req).2)

namespace RSM

variable {q q' : RSM R V S} {m : ApplyMsg (Op R) D}

/-- The value of the command is added to the results. -/
theorem message_command (h : q.message σ m = some q') (hsnapshot : m.snapshotValid = false)
    (hvalid : m.commandValid = true) {op : Op R} (hop : m.command = some op) :
    q'.results = q.results ++ [(m.commandIndex, (σ.doOp q.sm op.req).2)] := by
  unfold message at h
  split at h
  case h_2 => cases h
  simp only [hsnapshot, hvalid, hop, Bool.false_eq_true, Bool.true_eq_false, if_false,
    Option.some.injEq] at h
  rw [← h]
  rfl

theorem message_snapshot (h : q.message σ m = some q') (hsnapshot : m.snapshotValid = true) :
    q'.reading = .snapshot m.snapshotIndex ∧ q'.results = q.results := by
  unfold message at h
  split at h
  case h_2 => cases h
  rw [if_pos hsnapshot, Option.some.injEq] at h
  rw [← h]
  exact ⟨rfl, rfl⟩

/-- The calls in the order of their entries. -/
def order (es : List (Proposal n R)) : List (CallId n × R) := es.map fun e => (e.callId, e.op.req)

theorem getElem?_order {es : List (Proposal n R)} {j : ℕ} {e : Proposal n R}
    (he : es[j]? = some e) : (order es)[j]? = some (e.callId, e.op.req) := by
  rw [order, List.getElem?_map, he]
  rfl

/-- The entries are those of the calls. -/
theorem foldl_apply {C : List (LogEntry (Op R))} {es : List (Proposal n R)}
    (h : C.map LogEntry.command = es.map fun e => some e.op) (t : S) :
    C.foldl σ.apply t = Linearizability.after σ.object t (order es) := by
  induction es generalizing C t with
  | nil =>
    rw [List.map_nil, List.map_eq_nil_iff] at h
    rw [h]
    rfl
  | cons e es ih =>
    cases C with
    | nil => cases h
    | cons x C =>
      rw [List.map_cons, List.map_cons, List.cons.injEq] at h
      have hx : σ.apply t x = (σ.object t e.op.req).1 := by
        rw [StateMachine.apply, h.1]
        rfl
      rw [List.foldl_cons, hx]
      exact ih h.2 _

theorem after_order {C : List (LogEntry (Op R))} {es : List (Proposal n R)}
    (h : C.map LogEntry.command = es.map fun e => some e.op) (j : ℕ) :
    σ.after sm C j = Linearizability.after σ.object sm ((order es).take j) := by
  have htake : (C.take j).map LogEntry.command = (es.take j).map fun e => some e.op := by
    rw [List.map_take, List.map_take, h]
  rw [StateMachine.after, foldl_apply htake, order, order, List.map_take]

theorem Peers.entry_eq_some {s : Peers n R V S} {i : ℤ} {e : Proposal n R} :
    s.entry i = some e ↔ ∃ j : ℕ, i = j + 1 ∧ s.committed[j]? = some e := by
  constructor
  · intro h
    unfold entry at h
    split at h
    · exact ⟨(i - 1).toNat, by omega, h⟩
    · cases h
  · rintro ⟨j, rfl, he⟩
    exact (entry_succ s j).trans he

end RSM

namespace Services

open RSM (order)

variable {s s' : Services n R V S D} {C C' : List (LogEntry (RSM.Op R))} {k : Fin n → ℕ}
  {es : List (RSM.Proposal n R)} {p : Fin n}

/-- The RSMs over the committed proposals; `reader` of peer `p` is behind entry `k p`. -/
def peers (s : Services n R V S D) (k : Fin n → ℕ) (es : List (RSM.Proposal n R)) :
    RSM.Peers n R V S where
  rsm := s.rsm
  life := s.life
  applied := k
  proposals := s.proposals
  committed := es

variable (σ sm C k es) in
structure Settled (s : Services n R V S D) : Prop where
  tracked : s.Tracked
  sound : (s.peers k es).Sound
  commands : C.map LogEntry.command = es.map fun e => some e.op
  aligned : ∀ (j : ℕ) e, es[j]? = some e → e.index = j + 1
  values : ∀ p i v, (i, v) ∈ (s.rsm p).results → ∃ (j : ℕ) (e : RSM.Proposal n R),
    i = j + 1 ∧ es[j]? = some e ∧ v = (σ.doOp (σ.after sm C j) e.op.req).2
  linearizes : Linearizes σ.object sm s.history (order es)

namespace Settled

theorem initial : Settled σ sm [] k [] (initial sm : Services n R V S D) where
  tracked := .initial sm
  sound := by
    refine ⟨fun p => .make p sm, fun p => .make p sm, fun p => RSM.Peers.truthful_make p sm,
      fun p i op v hr => ?_, fun e he => ?_, fun e he => ?_, fun p => ⟨.nil, fun r hr => ?_⟩⟩
    · cases hr
    · cases he
    · cases he
    · cases hr
  commands := rfl
  aligned _ _ he := by cases he
  values _ _ _ hr := by cases hr
  linearizes := .nil

theorem length_eq (h : Settled σ sm C k es s) : C.length = es.length := by
  have hlen := congrArg List.length h.commands
  rwa [List.length_map, List.length_map] at hlen

/-- The next entry is committed. -/
theorem snoc (h : Settled σ sm C k es s) {x : LogEntry (RSM.Op R)} {e : RSM.Proposal n R}
    (he : e ∈ s.proposals) (hindex : e.index = C.length + 1) (hx : x.command = some e.op) :
    Settled σ sm (C ++ [x]) k (es ++ [e]) s where
  tracked := h.tracked
  sound := h.sound.commit he
  commands := by
    rw [List.map_append, List.map_append, h.commands, List.map_singleton, List.map_singleton, hx]
  aligned j e' he' := by
    obtain hlt | hle := lt_or_ge j es.length
    · exact h.aligned j e' (List.getElem?_append_left hlt ▸ he')
    · have hlt := (List.getElem?_eq_some_iff.mp he').1
      rw [List.length_append, List.length_singleton] at hlt
      obtain rfl : j = es.length := by omega
      rw [List.getElem?_concat_length, Option.some.injEq] at he'
      rw [← he', hindex, h.length_eq]
  values p i v hr := by
    obtain ⟨j, e', hi, he', hv⟩ := h.values p i v hr
    have hlt := (List.getElem?_eq_some_iff.mp he').1
    refine ⟨j, e', hi, getElem?_of_isPrefix (List.prefix_append ..) he', ?_⟩
    rw [after_of_isPrefix (List.prefix_append ..) (h.length_eq ▸ hlt.le)]
    exact hv
  linearizes := by
    rw [order, List.map_append]
    refine h.linearizes.extend (h.tracked.called e he) fun hmem => ?_
    -- the call has proposed once, and its entry has another index
    rw [order, List.map_map] at hmem
    obtain ⟨e', he', heq⟩ := List.mem_map.mp hmem
    obtain rfl : e' = e := List.inj_on_of_nodup_map h.tracked.once (h.sound.committed he') he heq
    obtain ⟨j, hj⟩ := List.mem_iff_getElem?.mp he'
    have hlt := (List.getElem?_eq_some_iff.mp hj).1
    have hindex' := h.aligned j e' hj
    have hlen := h.length_eq
    omega

/-- More is committed, of what has been proposed. -/
theorem grow (h : Settled σ sm C k es s) (hp : C <+: C')
    (hmem : ∀ (j : ℕ) x, C.length ≤ j → C'[j]? = some x →
      ∃ e ∈ s.proposals, e.index = j + 1 ∧ x.command = some e.op) :
    ∃ es', Settled σ sm C' k es' s := by
  obtain ⟨rest, rfl⟩ := hp
  induction rest generalizing C es with
  | nil =>
    rw [List.append_nil]
    exact ⟨es, h⟩
  | cons x rest ih =>
    have hx : (C ++ x :: rest)[C.length]? = some x := by
      rw [List.getElem?_append_right le_rfl, Nat.sub_self]
      rfl
    have happend : C ++ x :: rest = (C ++ [x]) ++ rest := by
      rw [List.append_assoc, List.singleton_append]
    obtain ⟨e, he, hindex, hcommand⟩ := hmem C.length x le_rfl hx
    rw [happend] at hmem ⊢
    refine ih (h.snoc he hindex hcommand) fun j y hj hy => hmem j y ?_ hy
    rw [List.length_append] at hj
    omega

/-- The Rafts and what stands above them go on. -/
theorem setReplicas (h : Settled σ sm C k es s) {r : Replicas n R S D}
    (hlife : ∀ p, (r.cluster.proc p).epoch = s.life p) :
    Settled σ sm C k es { s with replicas := r } where
  tracked := h.tracked.setReplicas hlife
  sound := by
    have hpeers : { s with replicas := r }.peers k es = s.peers k es := by
      rw [peers, peers]
      congr 1
      exact funext hlife
    rw [hpeers]
    exact h.sound
  commands := h.commands
  aligned := h.aligned
  values := h.values
  linearizes := h.linearizes

/-- No id deceives `reader`. -/
theorem noEarlierLife (h : Settled σ sm C k es s) (p : Fin n) :
    (s.peers k es).NoEarlierLife p (s.rsm p).reading := by
  cases hread : (s.rsm p).reading with
  | command index op v =>
    intro c hc call hcall hnone hid e he hpeer
    obtain ⟨e', he', rfl⟩ := h.sound.reading p index op v hread
    cases he.symm.trans he'
    obtain ⟨j, hj, hget⟩ := RSM.Peers.entry_eq_some.mp he
    have hindex := ((h.tracked.registered p).phase hc hcall).2
    have hmine := h.tracked.proposed p c call index hcall hindex
    have halign := h.aligned j e hget
    exact h.tracked.fresh e (h.sound.committed (RSM.Peers.entry_mem he)) _ hmine hpeer
      (halign.trans hj.symm) hid
  | _ => trivial

theorem freshIds (h : Settled σ sm C k es s) {x : RSM.Action R D} (hfits : (s.rsm p).Fits x) :
    (s.peers k es).FreshIds (.peer p x : RSM.Peers.Action n R S D) := by
  cases x with
  | grant i order => exact ⟨hfits, fun _ => h.noEarlierLife p⟩
  | _ => trivial

/-- An OK is the answer of the server at the call's own entry. -/
theorem answer (h : Settled σ sm C k es s) (g : Option RSM.Goroutine) :
    Linearizes σ.object sm (s.history ++ s.answer p g) (order es) := by
  unfold Services.answer
  split
  · rename_i c
    split
    · rename_i value hphase
      obtain ⟨call, hc, hp⟩ := Option.map_eq_some_iff.mp hphase
      obtain ⟨i, -, ⟨e, he, rfl, hlife, rfl⟩, v, rfl, hv⟩ :=
        (h.sound.truthful p).taken c call hc value (by rw [RSM.Call.taken, hp])
      obtain ⟨j, hj, hget⟩ := RSM.Peers.entry_eq_some.mp he
      obtain ⟨j', e', hj', hget', hval⟩ := h.values e.peer i v hv
      obtain rfl : j = j' := by omega
      cases hget.symm.trans hget'
      have hlife : e.life = s.life e.peer := hlife
      have hid : e.callId = (e.peer, s.life e.peer, e.call) := by rw [RSM.Proposal.callId, hlife]
      rw [← hid]
      refine h.linearizes.ret (RSM.getElem?_order hget) ?_
      rw [← RSM.after_order h.commands, hval]
      rfl
    · rw [List.append_nil]
      exact h.linearizes
  · rw [List.append_nil]
    exact h.linearizes

theorem events (h : Settled σ sm C k es s) (x : RSM.Action R D) :
    Linearizes σ.object sm (s.history ++ s.events p x) (order es) := by
  unfold Services.events
  split
  · exact h.linearizes.call fun q => h.tracked.notMem_next q
  · exact h.answer _
  · rw [List.append_nil]
    exact h.linearizes

/-- `Submit`, `reader` or `leaderCheck` goes on, without a message. -/
theorem setStep (h : Settled σ sm C k es s) {x : RSM.Action R D} {q : RSM R V S}
    {r : Replicas n R S D} (hlife : ∀ p, (r.cluster.proc p).epoch = s.life p)
    (hm : ∀ m, x ≠ .message m) (hfits : (s.rsm p).Fits x) (hx : (s.rsm p).step σ x = some q)
    (hnew : ∀ e ∈ s.proposed p x, ∀ e' ∈ s.proposals, e'.peer = p → e'.index = e.index →
      e'.op.id = e.op.id → e'.life = s.life p) : Settled σ sm C k es (s.setStep p x q r) where
  tracked := h.tracked.setStep hlife hx hnew
  sound := by
    have hpeers : (s.setStep p x q r).peers k es = { (s.peers k es).setRsm p q with
        proposals := (s.peers k es).proposals ++ (s.peers k es).proposed p x } := by
      rw [peers, show (s.setStep p x q r).life = s.life from funext hlife]
      rfl
    rw [hpeers]
    exact h.sound.peer hm (h.freshIds hfits) hx
  commands := h.commands
  aligned := h.aligned
  values j i v hr := by
    refine h.values j i v ?_
    by_cases hj : j = p
    · subst hj
      rwa [rsm_setStep_self, (RSM.step_reading hm hx).1] at hr
    · rwa [rsm_setStep_ne hj] at hr
  linearizes := h.events x

/-- `reader` gets a message. -/
theorem message (h : Settled σ sm C k es s) {m : ApplyMsg (RSM.Op R) D} {q : RSM R V S}
    {r : Replicas n R S D} {l : ℕ} (hlife : ∀ p, (r.cluster.proc p).epoch = s.life p)
    (hm : (s.rsm p).message σ m = some q)
    (hsound : { (s.peers k es).setRsm p q with applied := Function.update k p l }.Sound)
    (hvalues : ∀ i v, (i, v) ∈ q.results → (i, v) ∈ (s.rsm p).results ∨
      ∃ (j : ℕ) (e : RSM.Proposal n R), i = j + 1 ∧ es[j]? = some e ∧
        v = (σ.doOp (σ.after sm C j) e.op.req).2) :
    Settled σ sm C (Function.update k p l) es (s.setStep p (.message m) q r) where
  tracked := h.tracked.setStep hlife hm fun _ he => absurd he List.not_mem_nil
  sound := by
    have hproposals : (s.setStep p (.message m) q r).proposals = s.proposals := List.append_nil _
    have hpeers : (s.setStep p (.message m) q r).peers (Function.update k p l) es =
        { (s.peers k es).setRsm p q with applied := Function.update k p l } := by
      rw [peers, hproposals, show (s.setStep p (.message m) q r).life = s.life from funext hlife]
      rfl
    rw [hpeers]
    exact hsound
  commands := h.commands
  aligned := h.aligned
  values j i v hr := by
    by_cases hj : j = p
    · subst hj
      rw [rsm_setStep_self] at hr
      exact (hvalues i v hr).elim (h.values j i v) id
    · rw [rsm_setStep_ne hj] at hr
      exact h.values j i v hr
  linearizes := h.events (.message m)

/-- `reader` gets the next committed command. -/
theorem command (h : Settled σ sm C k es s) {x : LogEntry (RSM.Op R)} {q : RSM R V S}
    {r : Replicas n R S D} (hlife : ∀ p, (r.cluster.proc p).epoch = s.life p)
    (hx : C[k p]? = some x) (hserver : (s.rsm p).sm = σ.after sm C (k p))
    (hm : (s.rsm p).message σ {
      commandValid := true, command := x.command, commandIndex := (k p : ℤ) + 1 } = some q) :
    Settled σ sm C (Function.update k p (k p + 1)) es (s.setStep p (.message {
      commandValid := true, command := x.command, commandIndex := (k p : ℤ) + 1 }) q r) := by
  obtain ⟨e, he, hop⟩ : ∃ e, es[k p]? = some e ∧ some e.op = x.command := by
    have hget := congrArg (fun l => l[k p]?) h.commands
    rw [List.getElem?_map, List.getElem?_map, hx] at hget
    exact Option.map_eq_some_iff.mp hget.symm
  rw [← hop] at hm ⊢
  refine h.message hlife hm (h.sound.apply he hm) fun i v hr => ?_
  rw [RSM.message_command hm rfl rfl rfl] at hr
  obtain hr | hr := List.mem_append.mp hr
  · exact .inl hr
  · cases List.mem_singleton.mp hr
    exact .inr ⟨k p, e, rfl, he, by rw [hserver]⟩

/-- `reader` gets a snapshot, which does not take it back. -/
theorem snapshot (h : Settled σ sm C k es s) {m : ApplyMsg (RSM.Op R) D} {q : RSM R V S}
    {r : Replicas n R S D} {l : ℕ} (hlife : ∀ p, (r.cluster.proc p).epoch = s.life p)
    (hvalid : m.snapshotValid = true) (hle : k p ≤ l) (hm : (s.rsm p).message σ m = some q) :
    Settled σ sm C (Function.update k p l) es (s.setStep p (.message m) q r) := by
  obtain ⟨hreading, hresults⟩ := RSM.message_snapshot hm hvalid
  refine h.message hlife hm (h.sound.message hm (fun i op v hr => ?_) ?_) fun i v hr => ?_
  · rw [hreading] at hr
    cases hr
  · rw [hresults]
    exact (h.sound.ordered p).mono hle
  · exact .inl (hresults ▸ hr)

/-- A peer starts again. -/
theorem remake (h : Settled σ sm C k es s) {r : Replicas n R S D} (e : ℕ)
    (hself : (r.cluster.proc p).epoch = s.life p + 1)
    (hne : ∀ j ≠ p, (r.cluster.proc j).epoch = s.life j) :
    Settled σ sm C (Function.update k p e) es (s.remake p r) where
  tracked := h.tracked.remake hself hne
  sound := by
    have hlife : (s.remake p r).life = Function.update s.life p (s.life p + 1) := by
      funext j
      by_cases hj : j = p
      · subst hj
        rw [Function.update_self]
        exact hself
      · rw [Function.update_of_ne hj]
        exact hne j hj
    exact h.sound.restart (p := p) rfl hlife rfl rfl rfl
  commands := h.commands
  aligned := h.aligned
  values j i v hr := by
    refine h.values j i v ?_
    by_cases hj : j = p
    · subst hj
      rw [rsm_remake_self] at hr
      cases hr
    · rwa [rsm_remake_ne hj] at hr
  linearizes := h.linearizes

end Settled

end Services

end CollabIde
