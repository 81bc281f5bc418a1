import CollabIde.Raft.Origins
import CollabIde.Rsm.Settled

/-!
# Submit is linearizable

The calls of `Submit`, on all peers and in all their lives, behave like calls of a single server, one
after the other (`submit_linearizable`). The order is that of the committed entries: an entry has
been proposed by a call (`Cluster.EachEntry`), it is committed while the call runs or after it, and
an OK carries what `DoOp` has returned for the call's own entry (`Settled`).
-/

namespace CollabIde

open Replication State
open Linearizability (Linearizes)

variable {n : ℕ} {R V S D : Type} {σ : StateMachine R V S D} {sm : S}

/-! ## The logs -/

section Logs

variable {C C' : List (LogEntry (RSM.Op R))} {k : Fin n → ℕ} {i j : Fin n}

theorem Refines.logSaved {C : Type} {rf : Raft n C D} {x : Node (Fin n) ℤ (LogEntry C)}
    (h : Refines i rf x) : rf.LogSaved where
  log := by
    rw [h.saved]
    rfl
  index := by
    rw [h.saved]
    rfl

/-- The message in the applier's hands. -/
theorem Replica.Follows.message_cases {s : Replica n R S D} {b m a k : ℕ}
    (h : Follows σ C sm s b m a k) {msg : ApplyMsg (RSM.Op R) D} (hl : s.loading = .message msg) :
    msg.snapshotValid = true ∨ ∃ e, C[k]? = some e ∧ msg = {
      commandValid := true, command := e.command, commandIndex := (k : ℤ) + 1 } := by
  have hflight := h.flight
  rw [hl] at hflight
  generalize s.applying = out at hflight
  cases hflight with
  | command he _ => exact .inr ⟨_, he, rfl⟩
  | loaded _ _ _ hc => exact .inl hc.1

namespace Replicas

variable {s s' : Replicas n R S D} {a : RaftState n (RSM.Op R)}
  {P : ℤ → LogEntry (RSM.Op R) → Prop} {x : Action n R D}

/-- No snapshot of the Rafts is ahead of the log. -/
theorem Agreeing.base_le {x : CollabIde.Action n (RSM.Op R) D} {c : Cluster n (RSM.Op R) D}
    (h : Agreeing σ C sm k s) (hs : s.cluster.step x = some c) (hx : x.ofRaft = true)
    (i : Fin n) : (c.proc i).raft.lastIncludedIndex ≤ C.length := by
  obtain ⟨-, -, hkeeps | ⟨q, hq, args, hb, hinstalls⟩⟩ := Cluster.step_snapshot hs hx i
  · obtain ⟨b, m, l, k₀, hf, -⟩ := (h.peer i).follows
    have hbase : (s.cluster.proc i).raft.lastIncludedIndex = b := hf.base
    rw [hkeeps.index, hbase]
    exact_mod_cast hf.base_le.trans hf.le_length
  · obtain ⟨l, hl, hlen, -⟩ := h.request q hq args hb
    rw [hinstalls.index, hl]
    exact_mod_cast hlen

/-- What a peer has committed behind the log stands in its own. -/
theorem Refining.entry_of_committed (h : Refining s a)
    (hlast : C' = C ∨ ∃ i, C' = (a.node i).hist.take (a.node i).commit)
    (hbase : ∀ i, (s.cluster.proc i).raft.lastIncludedIndex ≤ C.length) {m : ℕ}
    {e : LogEntry (RSM.Op R)} (hm : C.length ≤ m) (he : C'[m]? = some e) :
    ∃ i, (s.cluster.proc i).raft.lastIncludedIndex < (m : ℤ) + 1 ∧
      (s.cluster.proc i).raft.entry ((m : ℤ) + 1) = some e := by
  have hlt := (List.getElem?_eq_some_iff.mp he).1
  obtain rfl | ⟨i, rfl⟩ := hlast
  · omega
  rw [List.length_take] at hlt
  have hkeeps := (h.refined.peer i).keeps
  have hb := hbase i
  rw [hkeeps.index] at hb
  refine ⟨i, by rw [hkeeps.index]; omega, ?_⟩
  have hentry := hkeeps.entry_eq (i := m + 1) (by omega) (by omega)
  rw [Nat.add_sub_cancel] at hentry
  rw [List.getElem?_take, if_pos (by omega)] at he
  exact hentry.trans he

/-- What holds of the entries that `Start` makes holds of all. -/
theorem eachEntry_step (h : s.cluster.EachEntry P)
    (hsaved : ∀ i, (s.cluster.proc i).raft.LogSaved)
    (hnew : ∀ i command, x = .raft (.start i command) →
      (s.cluster.proc i).raft.currentRole = .leader → P ((s.cluster.proc i).raft.lastLogIndex + 1)
        ⟨(s.cluster.proc i).raft.currentTerm, command⟩)
    (hs : s.step σ sm x = some s') : s'.cluster.EachEntry P := by
  have hset {i : Fin n} {r : Replica n R S D} (hr : r.raft.EachEntry P) :
      (s.setReplica i r).cluster.EachEntry P :=
    h.setProc (p := { s.cluster.proc i with raft := r.raft, applying := r.applying }) hr rfl
      (List.Subset.refl _)
  cases x with
  | raft x =>
    obtain ⟨-, c, hc, rfl⟩ := step_raft hs
    exact h.step hsaved (fun i command hx => hnew i command (by rw [hx])) hc
  | applier i =>
    obtain ⟨r, hrun, rfl⟩ := Option.map_eq_some_iff.mp hs
    obtain ⟨index, out, -, -, -, rfl⟩ := Replica.applier_eq hrun
    exact hset ((h.log i).congr rfl rfl)
  | load i =>
    obtain ⟨r, hrun, rfl⟩ := Option.map_eq_some_iff.mp hs
    obtain ⟨l, rfl⟩ := Replica.load_eq hrun
    exact hset (h.log i)
  | receive i =>
    obtain ⟨r, hrun, rfl⟩ := Option.map_eq_some_iff.mp hs
    obtain ⟨msg, -, hraft, -, -, -⟩ := Replica.deliver_eq hrun
    exact hset (hraft ▸ h.log i)
  | finish i grown =>
    obtain ⟨r, hrun, rfl⟩ := Option.map_eq_some_iff.mp hs
    obtain ⟨index, rf, -, rfl, ⟨-, rfl⟩ | hsnapshot⟩ := Replica.finish_eq hrun
    · exact hset (h.log i)
    · exact hset ((h.log i).doSnapshot hsnapshot)
  | restart i =>
    cases hs
    exact h.step (x := .restart i) hsaved (fun _ _ hx => by cases hx) rfl
  | crashIn k =>
    obtain ⟨q, -, hs⟩ := Option.bind_eq_some_iff.mp hs
    obtain ⟨c, hc, hs⟩ := Option.bind_eq_some_iff.mp hs
    cases hs
    exact h.step (x := .crashIn k) hsaved (fun _ _ hx => by cases hx) hc

theorem epoch_setReplica {r : Replica n R S D} {i : Fin n} (j : Fin n) :
    ((s.setReplica i r).cluster.proc j).epoch = (s.cluster.proc j).epoch := by
  by_cases hj : j = i
  · subst hj
    simp [Replicas.setReplica, Cluster.setProc]
  · simp [Replicas.setReplica, Cluster.setProc, hj]

theorem reader_remake_ne {c : Cluster n (RSM.Op R) D} {i j : Fin n} (h : j ≠ i) :
    (s.remake σ sm i c).reader j = s.reader j := Function.update_of_ne h ..

theorem sm_setReplica_self {r : Replica n R S D} {i : Fin n} :
    ((s.setReplica i r).reader i).sm = r.sm := by
  simp [Replicas.setReplica]

theorem sm_setReplica_ne {r : Replica n R S D} {i j : Fin n} (h : j ≠ i) :
    ((s.setReplica i r).reader j).sm = (s.reader j).sm := by
  simp [Replicas.setReplica, h]

end Replicas

/-- The server gets the message in the applier's hands. -/
theorem Replica.deliver_sm {s s' : Replica n R S D} (h : s.deliver σ = some s')
    {m : ApplyMsg (RSM.Op R) D} (hl : s.loading = .message m) : s'.sm = σ.handle s.sm m := by
  unfold deliver at h
  split at h
  · rename_i msg _ hmsg
    cases hl.symm.trans hmsg
    cases h
    rfl
  · cases h

end Logs

/-! ## The invariant -/

namespace Services

variable {C : List (LogEntry (RSM.Op R))} {k k' : Fin n → ℕ} {es : List (RSM.Proposal n R)}
  {s s' : Services n R V S D} {r : Replicas n R S D} {p : Fin n}

/-- The entry at the index is what a call has given to `Start` there. -/
def Proposes (s : Services n R V S D) (i : ℤ) (e : LogEntry (RSM.Op R)) : Prop :=
  ∃ e' ∈ s.proposals, e'.index = i ∧ e.command = some e'.op

variable (σ sm C k es) in
/-- The committed commands of the replicas settle the order of the calls. -/
structure Explained (s : Services n R V S D) : Prop where
  refining : ∃ a t, s.replicas.Refining a ∧ a.Committed C t
  agreeing : Replicas.Agreeing σ C sm k s.replicas
  entries : s.replicas.cluster.EachEntry s.Proposes
  server : ∀ p, (s.rsm p).sm = (s.replicas.reader p).sm
  settled : Settled σ sm C k es s

theorem Proposes.mono (hsub : s.proposals ⊆ s'.proposals) {i : ℤ} {e : LogEntry (RSM.Op R)}
    (h : s.Proposes i e) : s'.Proposes i e := by
  obtain ⟨e', he', h⟩ := h
  exact ⟨e', hsub he', h⟩

/-- The servers after a step of one RSM. -/
theorem server_setStep {x : RSM.Action R D} {q : RSM R V S} {r' : Replicas n R S D}
    (hq : q.sm = (r'.reader p).sm) (hne : ∀ j ≠ p, (s.rsm j).sm = (r'.reader j).sm) (j : Fin n) :
    ((s.setStep p x q r).rsm j).sm = (r'.reader j).sm := by
  by_cases hj : j = p
  · subst hj
    rw [rsm_setStep_self]
    exact hq
  · rw [rsm_setStep_ne hj]
    exact hne j hj

namespace Explained

theorem logSaved (h : Explained σ sm C k es s) (i : Fin n) :
    (s.replicas.cluster.proc i).raft.LogSaved := by
  obtain ⟨a, t, hr, -⟩ := h.refining
  exact (hr.refined.peer i).logSaved

/-- A step of the replicas above the Rafts. -/
theorem above (h : Explained σ sm C k es s) {x : Replicas.Action n R D}
    (hs : s.replicas.step σ sm x = some r) (hx : ∀ y, x ≠ .raft y) (hr : s'.replicas = r)
    (hsub : s.proposals ⊆ s'.proposals) (hagreeing : Replicas.Agreeing σ C sm k' r)
    (hserver : ∀ p, (s'.rsm p).sm = (r.reader p).sm) (hsettled : Settled σ sm C k' es s') :
    Explained σ sm C k' es s' := by
  subst hr
  obtain ⟨a, t, hr, hC⟩ := h.refining
  have hok : s.replicas.Ordered x := by
    cases x with
    | raft y => exact absurd rfl (hx y)
    | _ => trivial
  obtain ⟨a', hgrows, hr'⟩ := hr.step h.agreeing hok hs
  exact {
    refining := ⟨a', t, hr', committed_mono hgrows hC⟩
    agreeing := hagreeing
    entries := (Replicas.eachEntry_step h.entries h.logSaved
      (fun i command heq => absurd heq (hx _)) hs).mono fun _ _ => Proposes.mono hsub
    server := hserver
    settled := hsettled }

/-- A step of the RSM of a peer, without the replica. -/
theorem setStep (h : Explained σ sm C k es s) {x : RSM.Action R D} {q : RSM R V S}
    (hm : ∀ m, x ≠ .message m) (hstart : ∀ c answer, x ≠ .start c answer)
    (hfits : (s.rsm p).Fits x) (hx : (s.rsm p).step σ x = some q) :
    Explained σ sm C k es (s.setStep p x q s.replicas) where
  refining := h.refining
  agreeing := h.agreeing
  entries := h.entries.mono fun _ _ => Proposes.mono (List.subset_append_left ..)
  server := server_setStep ((RSM.step_sm hm hx).trans (h.server p)) fun j _ => h.server j
  settled := by
    refine h.settled.setStep (fun _ => rfl) hm hfits hx fun e he => ?_
    obtain ⟨c, index, term, call, rfl, -⟩ := mem_proposed.mp he
    exact absurd rfl (hstart c _)

/-- The Rafts take a step, and may commit more. -/
theorem raft (h : Explained σ sm C k es s) {x : CollabIde.Action n (RSM.Op R) D}
    (hs : s.replicas.step σ sm (.raft x) = some r) (hok : s.replicas.Ordered (.raft x))
    (hr : s'.replicas = r) (hentries : r.cluster.EachEntry s'.Proposes)
    (hserver : ∀ p, (s'.rsm p).sm = (s.replicas.reader p).sm)
    (hsettled : Settled σ sm C k es s') : ∃ C' es', Explained σ sm C' k es' s' := by
  subst hr
  obtain ⟨a, t, hr, hC⟩ := h.refining
  obtain ⟨a', hgrows, hr'⟩ := hr.step h.agreeing hok hs
  obtain ⟨C', t', hC', hp, hbound, hlast⟩ := hr'.exists_bound (committed_mono hgrows hC)
  obtain ⟨hx, c, hc, heq⟩ := Replicas.step_raft hs
  rw [heq] at hr' hentries
  have hagreeing := (h.agreeing.mono hp).raft hc hx hr'.refined hr'.completeness hr'.progress hbound
  obtain ⟨es', hsettled'⟩ := hsettled.grow hp fun m e hm he => by
    obtain ⟨i, hlt, hentry⟩ := hr'.entry_of_committed hlast (h.agreeing.base_le hc hx) hm he
    exact hentries.log i _ e hlt hentry
  exact ⟨C', es', {
    refining := ⟨a', t', by rwa [heq], hC'⟩
    agreeing := by rwa [heq]
    entries := by rwa [heq]
    server := by rwa [heq]
    settled := hsettled' }⟩

/-- `rf.Start(op)` in a call. -/
theorem start (h : Explained σ sm C k es s) {c : ℕ} {call : RSM.Call R V}
    {answer : Option (ℤ × ℤ)} {q : RSM R V S} (hnew : s.NewAt p c)
    (hanswers : s.Answers p c call answer)
    (hx : (s.rsm p).step σ (.start c answer : RSM.Action R D) = some q)
    (hs : s.replicas.step σ sm (.raft (.start p (some ⟨call.req, call.id⟩))) = some r) :
    ∃ C' es', Explained σ sm C' k es' (s.setStep p (.start c answer : RSM.Action R D) q r) := by
  obtain ⟨hcall, hrole⟩ := hanswers
  obtain ⟨-, cl, hcl, rfl⟩ := Replicas.step_raft hs
  have hlife (j : Fin n) : (cl.proc j).epoch = s.life j := (Cluster.step_snapshot hcl rfl j).2.1
  have hserver : q.sm = (s.rsm p).sm := RSM.step_sm (fun m => by simp) hx
  refine h.raft hs ⟨fun _ hk => (by cases hk), fun _ hk => (by cases hk)⟩ rfl ?_
    (server_setStep (hserver.trans (h.server p)) fun j _ => h.server j) ?_
  · -- the new entry is the call's
    refine Replicas.eachEntry_step (h.entries.mono fun _ _ =>
      Proposes.mono (List.subset_append_left ..)) h.logSaved (fun i command heq hleads => ?_) hs
    cases heq
    obtain ⟨hfollows, -⟩ | ⟨-, rfl⟩ := hrole
    · exact absurd hleads hfollows
    · exact ⟨_, List.mem_append_right _ (mem_proposed.mpr ⟨c, _, _, call, rfl, hcall, rfl⟩), rfl,
        rfl⟩
  · refine h.settled.setStep hlife (fun m => by simp) trivial hx fun e he e' he' hpeer hi hid => ?_
    obtain ⟨c', index, term, call', heq, hcall', rfl⟩ := mem_proposed.mp he
    cases heq
    cases hcall.symm.trans hcall'
    obtain ⟨-, hnone⟩ | ⟨hleads, hsome⟩ := hrole
    · cases hnone
    · cases hsome
      exact hnew call hcall hleads e' he' hpeer hi hid

/-- `reader` gets a message. -/
theorem receive (hrestore : ∀ t u, σ.restore t (some (σ.snapshot u)) = u)
    (h : Explained σ sm C k es s) {m : ApplyMsg (RSM.Op R) D} {q : RSM R V S}
    (hloading : (s.replicas.reader p).loading = .message m)
    (hs : s.replicas.step σ sm (.receive p) = some r) (hx : (s.rsm p).message σ m = some q) :
    ∃ k', Explained σ sm C k' es (s.setStep p (.message m) q r) := by
  obtain ⟨b, m', l, k₀, hf, -⟩ := (h.agreeing.peer p).follows
  obtain ⟨r', hdeliver, rfl⟩ := Option.map_eq_some_iff.mp hs
  obtain ⟨msg, e, hmsg, htakes, hagreeing⟩ := h.agreeing.receive hrestore hdeliver
  cases hloading.symm.trans hmsg
  have hlife (j : Fin n) : ((s.replicas.setReplica p r').cluster.proc j).epoch = s.life j :=
    Replicas.epoch_setReplica j
  have hserver : (s.rsm p).sm = σ.after sm C (k p) := (h.server p).trans hf.server
  have hsm : r'.sm = σ.handle (s.replicas.reader p).sm m := Replica.deliver_sm hdeliver hloading
  refine ⟨_, h.above hs (fun y => by simp) rfl (List.subset_append_left ..) hagreeing
    (server_setStep ?_ fun j hj => ?_) ?_⟩
  · rw [RSM.message_sm hx, h.server p, Replicas.sm_setReplica_self, hsm]
  · rw [Replicas.sm_setReplica_ne hj]
    exact h.server j
  · obtain hvalid | ⟨x, hget, rfl⟩ := hf.message_cases hloading
    · exact h.settled.snapshot hlife hvalid htakes.le hx
    · obtain ⟨-, rfl⟩ : _ ∧ e = k p + 1 := htakes
      exact h.settled.command hlife hget hserver hx

/-- `MakeRSM` after a crash. -/
theorem remake (h : Explained σ sm C k es s) {x : Replicas.Action n R D}
    {c : Cluster n (RSM.Op R) D} {e : ℕ}
    (hs : s.replicas.step σ sm x = some (s.replicas.remake σ sm p c)) (hx : ∀ y, x ≠ .raft y)
    (hagreeing : Replicas.Agreeing σ C sm (Function.update k p e) (s.replicas.remake σ sm p c))
    (hself : (c.proc p).epoch = s.life p + 1) (hne : ∀ j ≠ p, (c.proc j).epoch = s.life j) :
    Explained σ sm C (Function.update k p e) es (s.remake p (s.replicas.remake σ sm p c)) := by
  refine h.above hs hx rfl (List.Subset.refl _) hagreeing (fun j => ?_) (h.settled.remake e hself hne)
  by_cases hj : j = p
  · subst hj
    rw [rsm_remake_self]
    rfl
  · rw [rsm_remake_ne hj, Replicas.reader_remake_ne hj]
    exact h.server j

theorem restart (hrestore : ∀ t u, σ.restore t (some (σ.snapshot u)) = u)
    (h : Explained σ sm C k es s) (hs : s.replicas.step σ sm (.restart p) = some r) :
    ∃ k', Explained σ sm C k' es (s.remake p r) := by
  cases hs
  obtain ⟨e, hagreeing⟩ := h.agreeing.restart hrestore p
  refine ⟨_, h.remake (x := .restart p) rfl (fun y => by simp) hagreeing ?_ fun j hj => ?_⟩
  · simp only [Cluster.setProc, Function.update_self]
    rfl
  · simp only [Cluster.setProc, Function.update_of_ne hj]
    rfl

theorem crashIn (hrestore : ∀ t u, σ.restore t (some (σ.snapshot u)) = u)
    (h : Explained σ sm C k es s) {i : ℕ} {q : Envelope n (Rpc (RSM.Op R) D)}
    (hq : s.replicas.cluster.requests[i]? = some q)
    (hs : s.replicas.step σ sm (.crashIn i) = some r) :
    ∃ k', Explained σ sm C k' es (s.remake q.target r) := by
  have hs' := hs
  obtain ⟨q', hq', hs'⟩ := Option.bind_eq_some_iff.mp hs'
  cases hq.symm.trans hq'
  obtain ⟨c, hc, hs'⟩ := Option.bind_eq_some_iff.mp hs'
  cases hs'
  obtain ⟨e, hagreeing⟩ := h.agreeing.crashIn hrestore hq hc
  obtain ⟨q', hq', hc⟩ := Option.bind_eq_some_iff.mp hc
  cases hq.symm.trans hq'
  cases hc
  refine ⟨_, h.remake hs (fun y => by simp) hagreeing ?_ fun j hj => ?_⟩
  · simp only [Cluster.setProc, Function.update_self]
    rfl
  · simp only [Cluster.setProc, Function.update_of_ne hj]
    rfl

theorem initial (hrestore : ∀ t u, σ.restore t (some (σ.snapshot u)) = u) :
    ∃ k, Explained σ sm [] k [] (initial sm : Services n R V S D) := by
  obtain ⟨k, hagreeing⟩ : ∃ k, Replicas.Agreeing σ [] sm k (.initial sm : Replicas n R S D) :=
    Replicas.Agreeing.initial hrestore
  exact ⟨k, ⟨blankState n _, 0, .initial, .inl rfl⟩, hagreeing, .initial, fun _ => rfl, .initial⟩

/-- The applier or `reader` goes on, without a message. -/
theorem aside (h : Explained σ sm C k es s) {x : Replicas.Action n R D} {r' : Replica n R S D}
    (hs : s.replicas.step σ sm x = some (s.replicas.setReplica p r')) (hx : ∀ y, x ≠ .raft y)
    (hagreeing : Replicas.Agreeing σ C sm k (s.replicas.setReplica p r'))
    (hsm : r'.sm = (s.replicas.reader p).sm) :
    Explained σ sm C k es { s with replicas := s.replicas.setReplica p r' } := by
  refine h.above hs hx rfl (List.Subset.refl _) hagreeing (fun j => ?_)
    (h.settled.setReplicas Replicas.epoch_setReplica)
  by_cases hj : j = p
  · subst hj
    rw [Replicas.sm_setReplica_self, hsm]
    exact h.server j
  · rw [Replicas.sm_setReplica_ne hj]
    exact h.server j

theorem step (hrestore : ∀ t u, σ.restore t (some (σ.snapshot u)) = u)
    (h : Explained σ sm C k es s) {x : Action n R D} (hok : s.Lawful x)
    (hx : s.step σ sm x = some s') : ∃ C' k' es', Explained σ sm C' k' es' s' := by
  cases stepped hx with
  | @raft x r hstart hs =>
    have hentries := Replicas.eachEntry_step h.entries h.logSaved
      (fun i command heq => absurd (Replicas.Action.raft.inj heq) (hstart i command)) hs
    obtain ⟨hraft, c, hc, rfl⟩ := Replicas.step_raft hs
    have hlife (j : Fin n) : (c.proc j).epoch = s.life j :=
      (Cluster.step_snapshot hc hraft j).2.1
    obtain ⟨C', es', h'⟩ : ∃ C' es', Explained σ sm C' k es'
        { s with replicas := { s.replicas with cluster := c } } :=
      h.raft hs hok rfl hentries h.server (h.settled.setReplicas hlife)
    exact ⟨C', k, es', h'⟩
  | applier hs =>
    obtain ⟨r, hr, rfl⟩ := Option.map_eq_some_iff.mp hs
    have hagreeing := h.agreeing.applier hr
    obtain ⟨index, out, -, -, -, rfl⟩ := Replica.applier_eq hr
    exact ⟨C, k, es, h.aside hs (fun y => by simp) hagreeing rfl⟩
  | load hs =>
    obtain ⟨r, hr, rfl⟩ := Option.map_eq_some_iff.mp hs
    have hagreeing := h.agreeing.load hr
    obtain ⟨l, rfl⟩ := Replica.load_eq hr
    exact ⟨C, k, es, h.aside hs (fun y => by simp) hagreeing rfl⟩
  | finish hs =>
    obtain ⟨r, hr, rfl⟩ := Option.map_eq_some_iff.mp hs
    have hagreeing := h.agreeing.finish hr
    obtain ⟨index, rf, -, rfl, -⟩ := Replica.finish_eq hr
    exact ⟨C, k, es, h.aside hs (fun y => by simp) hagreeing rfl⟩
  | @rsm p x q hallows hq =>
    refine ⟨C, k, es, h.setStep ?_ ?_ hok hq⟩
    · rintro m rfl
      cases hallows
    · rintro c answer rfl
      cases hallows
  | tick hq => exact ⟨C, k, es, h.setStep (fun m => by simp) (fun c answer => by simp) trivial hq⟩
  | start hanswers hq hs =>
    obtain ⟨C', es', h'⟩ := h.start hok hanswers hq hs
    exact ⟨C', k, es', h'⟩
  | receive hloading hs hq =>
    obtain ⟨k', h'⟩ := h.receive hrestore hloading hs hq
    exact ⟨C, k', es, h'⟩
  | restart hs =>
    obtain ⟨k', h'⟩ := h.restart hrestore hs
    exact ⟨C, k', es, h'⟩
  | crashIn hq hs =>
    obtain ⟨k', h'⟩ := h.crashIn hrestore hq hs
    exact ⟨C, k', es, h'⟩

end Explained

/-- **Submit is linearizable**: the calls of all peers and all lives are in one order, in which a
single server gives the answers that have been returned; and each peer's server is that one after
the first calls of the order. -/
theorem submit_linearizable (hrestore : ∀ t u, σ.restore t (some (σ.snapshot u)) = u)
    (hs : (machine σ sm).Reach Lawful s) : ∃ L, Linearizes σ.object sm s.history L ∧
      ∀ p, ∃ l ≤ L.length, (s.rsm p).sm = Linearizability.after σ.object sm (L.take l) := by
  obtain ⟨C, k, es, h⟩ : ∃ C k es, Explained σ sm C k es s := by
    induction hs with
    | init hi =>
      cases hi
      obtain ⟨k, h⟩ : ∃ k, Explained σ sm [] k [] (initial sm : Services n R V S D) :=
        Explained.initial hrestore
      exact ⟨[], k, [], h⟩
    | step _ hok hx ih =>
      obtain ⟨C, k, es, h⟩ := ih
      exact h.step hrestore hok hx
  refine ⟨RSM.order es, h.settled.linearizes, fun p => ?_⟩
  obtain ⟨b, m, a, k₀, hf, -⟩ := (h.agreeing.peer p).follows
  refine ⟨k p, ?_, ?_⟩
  · rw [RSM.order, List.length_map, ← h.settled.length_eq]
    exact hf.server_le
  · rw [h.server p, ← RSM.after_order h.settled.commands]
    exact hf.server

/-- Peer 0 answers a call and crashes; peer 1 is elected and answers another call. -/
def takeover : List (Action 3 ℕ ℕ) :=
  [.raft (.timeout 0), .raft (.handle 0), .raft (.deliver 0), .rsm 0 (.submit 3),
    .rsm 0 (.grant 0 []), .start 0 0, .rsm 0 (.grant 0 []), .raft (.heartbeat 0),
    .raft (.handle 1), .raft (.deliver 0), .applier 0, .load 0, .receive 0, .finish 0 false,
    .rsm 0 (.grant 0 [1]), .rsm 0 .send, .rsm 0 .unlock, .rsm 0 (.receive 0),
    .rsm 0 (.grant 0 []), .restart 0, .raft (.timeout 1), .raft (.handle 3), .raft (.deliver 0),
    .rsm 1 (.submit 4), .rsm 1 (.grant 0 []), .start 1 0, .rsm 1 (.grant 0 []),
    .raft (.heartbeat 1), .raft (.handle 3), .raft (.deliver 0), .applier 1, .load 1, .receive 1,
    .finish 1 false, .rsm 1 (.grant 0 []), .rsm 1 .unlock, .load 1, .receive 1, .finish 1 true,
    .rsm 1 (.grant 0 [2]), .rsm 1 .send, .rsm 1 .unlock, .rsm 1 (.receive 0),
    .rsm 1 (.grant 0 [])]

theorem submit_linearizable_takeover : ∃ s : Services 3 ℕ ℕ ℕ ℕ,
    s.history = [.call (0, 0, 0) 3, .ret (0, 0, 0) (some 3), .call (1, 0, 0) 4,
      .ret (1, 0, 0) (some 7)] ∧
    ∃ L, Linearizes RSM.adder.object 0 s.history L ∧
      ∀ p, ∃ l ≤ L.length, (s.rsm p).sm =
        Linearizability.after RSM.adder.object 0 (L.take l) := by
  obtain ⟨s, hs, hv⟩ := (machine (n := 3) RSM.adder 0).reach_of_run Lawful
    (f := fun s => s.history) (v := [.call (0, 0, 0) 3, .ret (0, 0, 0) (some 3),
      .call (1, 0, 0) 4, .ret (1, 0, 0) (some 7)]) takeover rfl (by decide +kernel)
  exact ⟨s, hv, submit_linearizable (fun _ _ => rfl) hs⟩

end Services

end CollabIde
