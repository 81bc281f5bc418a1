import CollabIde.Rsm.Replicas

/-!
# The replicas agree

In a run of the replicas whose Rafts keep their disciplines there is one log of commands, part of
the log of every peer as far as the peer has committed, such that every server, on every peer and in
every life, has gone through states of this log alone (`replicas_agree`). `Agreeing` is the
invariant, over the committed history of the replication that the cluster refines: each peer follows
it (`Replica.Follows`), and each snapshot, saved or on its way, is the server after the entries that
it covers. It holds of a longer committed log as well (`Agreeing.mono`).
-/

namespace CollabIde

open Replication State

variable {n : ℕ} {R V S D : Type}

/-! ## A longer log -/

section Grow

variable {σ : StateMachine R V S D} {C C' : List (LogEntry (RSM.Op R))} {sm : S} {b m a k k' : ℕ}

theorem getElem?_of_isPrefix {α : Type} {l l' : List α} {x : α} (hp : l <+: l')
    (h : l[k]? = some x) : l'[k]? = some x := by
  obtain ⟨r, rfl⟩ := hp
  rw [List.getElem?_append_left (List.getElem?_eq_some_iff.mp h).1, h]

theorem after_of_isPrefix (hp : C <+: C') (hk : k ≤ C.length) :
    σ.after sm C' k = σ.after sm C k := by
  rw [StateMachine.after, StateMachine.after, take_eq_of_isPrefix hp hk]

theorem Covers.mono {data : Option D} {index : ℤ} (h : Covers σ C sm data index)
    (hp : C <+: C') : Covers σ C' sm data index := by
  obtain ⟨k, hk, hlen, hdata⟩ := h
  refine ⟨k, hk, hlen.trans hp.length_le, ?_⟩
  rw [after_of_isPrefix hp hlen]
  exact hdata

namespace Replica

variable {s : Replica n R S D}

theorem Batch.mono {out : List (Raft.Outgoing (RSM.Op R))} (h : Batch C k a out) (hp : C <+: C') :
    Batch C' k a out := by
  induction h with
  | nil => exact .nil
  | cons he _ ih => exact .cons (getElem?_of_isPrefix hp he) ih

theorem Flight.grow {out : List (Raft.Outgoing (RSM.Op R))} {l : Loading (RSM.Op R) D}
    (h : Flight σ C sm b a k out l) (hp : C <+: C') (hb : b ≤ C.length) :
    Flight σ C' sm b a k out l := by
  cases h with
  | batch h => exact .batch (h.mono hp)
  | ahead hlt hle => exact .ahead hlt hle
  | command he h => exact .command (getElem?_of_isPrefix hp he) (h.mono hp)
  | snapshot h0 hk ha => exact .snapshot h0 hk ha
  | loaded hk ha hj hl =>
    refine .loaded hk ha hj ?_
    rw [after_of_isPrefix hp (hj.trans hb)]
    exact hl

theorem Folds.mono {hs : List (ApplyMsg (RSM.Op R) D × S)} (h : Folds σ C sm hs k)
    (hp : C <+: C') : Folds σ C' sm hs k := by
  induction h with
  | nil => exact .nil
  | command _ hvalid hlt ih =>
    rw [← after_of_isPrefix hp hlt]
    exact .command ih hvalid (hlt.trans_le hp.length_le)
  | snapshot _ hvalid hle hlen ih =>
    rw [← after_of_isPrefix hp hlen]
    exact .snapshot ih hvalid hle (hlen.trans hp.length_le)

/-- What the server has got is part of the log. -/
theorem Follows.server_le (h : Follows σ C sm s b m a k) : k ≤ C.length := by
  have hb := h.base_le
  have ha := h.applied_le
  have hm := h.le_length
  obtain hk | hk := h.flight.le <;> omega

theorem Follows.mono (h : Follows σ C sm s b m a k) (hp : C <+: C') :
    Follows σ C' sm s b m a k where
  base := h.base
  commit := h.commit
  applied := h.applied
  base_le := h.base_le
  applied_le := h.applied_le
  le_length := h.le_length.trans hp.length_le
  entries i hi him := by
    have hlt : i - 1 < C.length := by
      have := h.le_length
      omega
    rw [h.entries i hi him, List.getElem?_eq_getElem hlt,
      getElem?_of_isPrefix hp (List.getElem?_eq_getElem hlt)]
  snapshot := h.snapshot.mono hp
  server := by rw [h.server, after_of_isPrefix hp h.server_le]
  reading := h.reading
  flight := h.flight.grow hp (h.base_le.trans h.le_length)
  folds := h.folds.mono hp

variable (σ C sm) in
/-- A life of the server, from behind entry `k₀`: each message takes it further in the log, and
leaves it with the state there. -/
inductive Serves (k₀ : ℕ) : List (ApplyMsg (RSM.Op R) D × S) → ℕ → Prop
  | nil : Serves k₀ [] k₀
  | snoc {hs : List (ApplyMsg (RSM.Op R) D × S)} {msg : ApplyMsg (RSM.Op R) D} {k k' : ℕ} :
    Serves k₀ hs k → Takes σ C sm msg k k' → k' ≤ C.length →
    Serves k₀ (hs ++ [(msg, σ.after sm C k')]) k'

theorem Takes.mono {msg : ApplyMsg (RSM.Op R) D} (h : Takes σ C sm msg k k') (hp : C <+: C')
    (hk : k' ≤ C.length) : Takes σ C' sm msg k k' := by
  unfold Takes at h ⊢
  rw [after_of_isPrefix hp hk]
  exact h

theorem Serves.mono {hs : List (ApplyMsg (RSM.Op R) D × S)} {k₀ : ℕ}
    (h : Serves σ C sm k₀ hs k) (hp : C <+: C') : Serves σ C' sm k₀ hs k := by
  induction h with
  | nil => exact .nil
  | snoc _ htakes hlen ih =>
    rw [← after_of_isPrefix hp hlen]
    exact .snoc ih (htakes.mono hp hlen) (hlen.trans hp.length_le)

end Replica

end Grow

/-! ## The invariant -/

namespace Replicas

variable (σ : StateMachine R V S D) (C : List (LogEntry (RSM.Op R))) (sm : S)

/-- Peer `i` follows the log, and its life so far has brought the server behind entry `k`. -/
structure FollowedBy (s : Replicas n R S D) (i : Fin n) (k : ℕ) : Prop where
  follows : ∃ b m a k₀, Replica.Follows σ C sm (s.replica i) b m a k ∧
    Replica.Serves σ C sm k₀ (s.reader i).handled k
  reading : ∀ k ∈ (s.reader i).reading, k ≤ (s.cluster.proc i).raft.lastApplied
  saved : (s.cluster.proc i).raft.SnapshotSaved
  lives : ∀ hs ∈ (s.reader i).lives, ∃ k₀ k, Replica.Serves σ C sm k₀ hs k

/-- The server of peer `i` is behind entry `k i`. -/
structure Agreeing (k : Fin n → ℕ) (s : Replicas n R S D) : Prop where
  peer : ∀ i, FollowedBy σ C sm s i (k i)
  request : ∀ q ∈ s.cluster.requests, ∀ args, q.body = .snapshot args →
    Covers σ C sm args.data args.lastIncludedIndex

variable {σ C sm} {C' : List (LogEntry (RSM.Op R))} {s s' : Replicas n R S D} {i j : Fin n}
  {r r' : Replica n R S D} {a a' : RaftState n (RSM.Op R)} {x : Action n R D} {l : ℕ}
  {k : Fin n → ℕ}

theorem FollowedBy.mono (h : FollowedBy σ C sm s i l) (hp : C <+: C') :
    FollowedBy σ C' sm s i l where
  follows := by
    obtain ⟨b, m, a, k₀, hf, hs⟩ := h.follows
    exact ⟨b, m, a, k₀, hf.mono hp, hs.mono hp⟩
  reading := h.reading
  saved := h.saved
  lives hs hmem := by
    obtain ⟨k₀, k, h⟩ := h.lives hs hmem
    exact ⟨k₀, k, h.mono hp⟩

theorem Agreeing.mono (h : Agreeing σ C sm k s) (hp : C <+: C') : Agreeing σ C' sm k s where
  peer i := (h.peer i).mono hp
  request q hq args hb := (h.request q hq args hb).mono hp

/-- What a peer follows is its own part of the cluster. -/
theorem FollowedBy.congr (h : FollowedBy σ C sm s i l) (hr : s'.replica i = s.replica i)
    (hl : (s'.reader i).lives = (s.reader i).lives) : FollowedBy σ C sm s' i l where
  follows := by
    obtain ⟨b, m, a, k₀, hf, hs⟩ := h.follows
    refine ⟨b, m, a, k₀, hr ▸ hf, ?_⟩
    rw [show (s'.reader i).handled = _ from congrArg Replica.handled hr]
    exact hs
  reading := by
    rw [show (s'.reader i).reading = _ from congrArg Replica.reading hr,
      show (s'.cluster.proc i).raft = _ from congrArg Replica.raft hr]
    exact h.reading
  saved := by
    rw [show (s'.cluster.proc i).raft = _ from congrArg Replica.raft hr]
    exact h.saved
  lives := hl ▸ h.lives

end Replicas

/-! ## Steps above the Raft -/

namespace Replica

variable {σ : StateMachine R V S D} {s s' : Replica n R S D}

theorem applier_eq (h : s.applier = some s') :
    ∃ k out, s.raft.lastApplied ≤ k ∧ s.raft.applier = some ({ s.raft with lastApplied := k }, out) ∧
      s.applying = [] ∧ s' = { s with raft := { s.raft with lastApplied := k }, applying := out } := by
  unfold applier at h
  split at h
  case h_2 => cases h
  rename_i happlying _
  obtain ⟨⟨rf, out⟩, hrun, rfl⟩ := Option.map_eq_some_iff.mp h
  obtain ⟨hlt, rfl, -⟩ | ⟨-, hlt, rfl, -⟩ | ⟨rfl, -⟩ := Raft.applier_cases hrun
  · exact ⟨_, out, hlt.le, hrun, happlying, rfl⟩
  · exact ⟨_, out, hlt.le, hrun, happlying, rfl⟩
  · exact ⟨s.raft.lastApplied, out, le_rfl, hrun, happlying, rfl⟩

theorem load_eq (h : s.load = some s') : ∃ l, s' = { s with loading := l } := by
  unfold load at h
  split at h
  · cases h
    exact ⟨_, rfl⟩
  · cases h
    exact ⟨_, rfl⟩
  · cases h
    exact ⟨_, rfl⟩
  · cases h
    exact ⟨_, rfl⟩
  · cases h

theorem deliver_eq (h : s.deliver σ = some s') : ∃ msg, s.loading = .message msg ∧
    s'.raft = s.raft ∧ s'.applying = s.applying.tail ∧ s'.handled = s.handled ++ [(msg, s'.sm)] ∧
      ∀ i ∈ s'.reading, msg.snapshotValid = false := by
  unfold deliver at h
  split at h
  case h_2 => cases h
  rename_i msg _ hloading
  cases h
  refine ⟨msg, hloading, rfl, rfl, rfl, fun i hi => Bool.eq_false_iff.mpr fun hvalid => ?_⟩
  rw [if_pos hvalid] at hi
  cases hi

theorem finish_eq {grown : Bool} (h : s.finish σ grown = some s') : ∃ index rf,
    s.reading = some index ∧ s' = { s with raft := rf, reading := none } ∧
      (grown = false ∧ rf = s.raft ∨
        s.raft.doSnapshot index (some (σ.snapshot s.sm)) = some rf) := by
  unfold finish at h
  split at h
  · cases h
  rename_i index hreading
  split at h
  · obtain ⟨rf, hrun, rfl⟩ := Option.map_eq_some_iff.mp h
    exact ⟨index, rf, hreading, rfl, .inr hrun⟩
  · rename_i hgrown
    cases h
    exact ⟨index, s.raft, hreading, rfl, .inl ⟨Bool.eq_false_iff.mpr hgrown, rfl⟩⟩

variable {C : List (LogEntry (RSM.Op R))} {sm : S} {b m a k : ℕ}

/-- The command in the applier's hands is one that it has taken. -/
theorem Follows.index_le (h : Follows σ C sm s b m a k) {msg : ApplyMsg (RSM.Op R) D}
    (hl : s.loading = .message msg) (hvalid : msg.snapshotValid = false) : k + 1 ≤ a := by
  have hflight := h.flight
  rw [hl] at hflight
  generalize s.applying = out at hflight
  cases hflight with
  | command _ hb => exact hb.le
  | loaded _ _ _ hc => exact absurd hc.1 (Bool.eq_false_iff.mp hvalid)

end Replica

namespace Replicas

variable {σ : StateMachine R V S D} {C : List (LogEntry (RSM.Op R))} {sm : S}
  {s s' : Replicas n R S D} {c : Cluster n (RSM.Op R) D} {i j : Fin n} {r : Replica n R S D}
  {a a' : RaftState n (RSM.Op R)} {k k' : Fin n → ℕ}

/-- A peer takes a step above its Raft. -/
theorem FollowedBy.setReplica {b m l e e' k₀ : ℕ} (h : FollowedBy σ C sm s i e)
    (hf : Replica.Follows σ C sm r b m l e') (hs : Replica.Serves σ C sm k₀ r.handled e')
    (hreading : ∀ k ∈ r.reading, k ≤ r.raft.lastApplied) (hsaved : r.raft.SnapshotSaved) :
    FollowedBy σ C sm (s.setReplica i r) i e' where
  follows := by
    refine ⟨b, m, l, k₀, ?_, ?_⟩
    · rw [replica_setReplica]
      exact hf
    · simpa [Replicas.setReplica] using hs
  reading := by simpa [Replicas.setReplica, Cluster.setProc] using hreading
  saved := by simpa [Replicas.setReplica, Cluster.setProc] using hsaved
  lives := by
    rw [lives_setReplica]
    exact h.lives

namespace Agreeing

theorem setReplica (h : Agreeing σ C sm k s) (hk : ∀ j ≠ i, k' j = k j)
    (hi : FollowedBy σ C sm (s.setReplica i r) i (k' i)) :
    Agreeing σ C sm k' (s.setReplica i r) where
  peer j := by
    by_cases hj : j = i
    · subst hj
      exact hi
    · rw [hk j hj]
      exact (h.peer j).congr (replica_setReplica_ne hj) lives_setReplica
  request := h.request

theorem applier (h : Agreeing σ C sm k s) (hr : (s.replica i).applier = some r) :
    Agreeing σ C sm k (s.setReplica i r) := by
  have hi := h.peer i
  obtain ⟨b, m, l, k₀, hf, hs⟩ := hi.follows
  obtain ⟨l', hf'⟩ := hf.applier hr
  obtain ⟨applied, out, hle, -, -, rfl⟩ := Replica.applier_eq hr
  exact h.setReplica (fun _ _ => rfl) (hi.setReplica hf' hs
    (fun k hk => (hi.reading k hk).trans hle) ⟨hi.saved.snapshot, hi.saved.index⟩)

theorem load (h : Agreeing σ C sm k s) (hr : (s.replica i).load = some r) :
    Agreeing σ C sm k (s.setReplica i r) := by
  have hi := h.peer i
  obtain ⟨b, m, l, k₀, hf, hs⟩ := hi.follows
  have hf' := hf.load hr
  obtain ⟨l, rfl⟩ := Replica.load_eq hr
  exact h.setReplica (fun _ _ => rfl) (hi.setReplica hf' hs hi.reading hi.saved)

/-- The server gets the message in the applier's hands. -/
theorem receive (hrestore : ∀ t u, σ.restore t (some (σ.snapshot u)) = u)
    (h : Agreeing σ C sm k s) (hr : (s.replica i).deliver σ = some r) :
    ∃ msg e, (s.reader i).loading = .message msg ∧ Replica.Takes σ C sm msg (k i) e ∧
      Agreeing σ C sm (Function.update k i e) (s.setReplica i r) := by
  have hi := h.peer i
  obtain ⟨b, m, l, k₀, hf, hs⟩ := hi.follows
  obtain ⟨msg, e, hloading, htakes, hf'⟩ := hf.deliver hrestore hr
  obtain ⟨msg', hloading', hraft, -, hhandled, hvalid⟩ := Replica.deliver_eq hr
  cases hloading.symm.trans hloading'
  have hserves : Replica.Serves σ C sm k₀ r.handled e := by
    rw [hhandled, hf'.server]
    exact .snoc hs htakes hf'.server_le
  refine ⟨msg, e, hloading, htakes, h.setReplica (fun j hj => Function.update_of_ne hj _ _) ?_⟩
  rw [Function.update_self]
  refine hi.setReplica hf' hserves (fun index hindex => ?_) ?_
  · -- the command has been taken by the applier
    have hle := hf.index_le hloading (hvalid index hindex)
    rw [Replica.Takes, if_neg (Bool.eq_false_iff.mp (hvalid index hindex))] at htakes
    rw [hf'.reading index hindex, hraft, hf.applied, htakes.2]
    exact_mod_cast hle
  · rw [hraft]
    exact hi.saved

theorem finish {grown : Bool} (h : Agreeing σ C sm k s)
    (hr : (s.replica i).finish σ grown = some r) : Agreeing σ C sm k (s.setReplica i r) := by
  have hi := h.peer i
  obtain ⟨b, m, l, k₀, hf, hs⟩ := hi.follows
  obtain ⟨b', hf'⟩ := hf.finish hr
  obtain ⟨index, rf, -, rfl, hrf⟩ := Replica.finish_eq hr
  refine h.setReplica (fun _ _ => rfl) (hi.setReplica hf' hs (fun k hk => by cases hk) ?_)
  obtain ⟨-, rfl⟩ | hrun := hrf
  · exact hi.saved
  · exact Raft.doSnapshot_keepsSnapshot hrun hi.saved

/-- The server of a peer that restarts. -/
theorem remake (hrestore : ∀ t u, σ.restore t (some (σ.snapshot u)) = u) (h : Agreeing σ C sm k s)
    {v : Fin n} {rf : Raft n (RSM.Op R) D} (hproc : ∀ j, j ≠ i → c.proc j = s.cluster.proc j)
    (hkeeps : (s.cluster.proc i).raft.KeepsSnapshot rf)
    (hraft : (c.proc i).raft = .make v rf.persister) (happlying : (c.proc i).applying = [])
    (hrequests : c.requests ⊆ s.cluster.requests) :
    ∃ e, Agreeing σ C sm (Function.update k i e) (s.remake σ sm i c) := by
  have hi := h.peer i
  obtain ⟨b, m, l, k₀, hf, hs⟩ := hi.follows
  obtain ⟨hsaved, hsnapshot, hindex⟩ := (hkeeps.saved hi.saved).make (v := v)
  rw [← hraft] at hsaved hsnapshot hindex
  have hmake : (s.remake σ sm i c).replica i = Replica.make σ v rf.persister sm := by
    simp only [Replicas.replica, Replicas.remake, Function.update_self, hraft, happlying,
      Raft.make_persister]
    rfl
  have hcovers : Covers σ C sm (c.proc i).raft.snapshot (c.proc i).raft.lastIncludedIndex := by
    have hbase : (s.cluster.proc i).raft.lastIncludedIndex = b := hf.base
    rw [hsnapshot, hindex, hkeeps.snapshot, hkeeps.index, hbase]
    exact hf.snapshot
  obtain ⟨b', hf'⟩ := Replica.Follows.make hrestore hmake hcovers
  refine ⟨b', fun j => ?_, fun q hq => h.request q (hrequests hq)⟩
  by_cases hj : j = i
  · subst hj
    rw [Function.update_self]
    refine ⟨⟨b', b', b', b', hf', ?_⟩, fun k hk => ?_, hsaved, fun hs' hmem => ?_⟩
    · simp only [Replicas.remake, Function.update_self]
      exact .nil
    · simp only [Replicas.remake, Function.update_self] at hk
      cases hk
    · simp only [Replicas.remake, Function.update_self] at hmem
      obtain hmem | hmem := List.mem_append.mp hmem
      · exact hi.lives hs' hmem
      · rw [List.mem_singleton.mp hmem]
        exact ⟨k₀, k j, hs⟩
  · rw [Function.update_of_ne hj]
    refine (h.peer j).congr ?_ ?_
    · simp only [Replicas.replica, Replicas.remake, Function.update_of_ne hj, hproc j hj]
    · simp only [Replicas.remake, Function.update_of_ne hj]

theorem restart (hrestore : ∀ t u, σ.restore t (some (σ.snapshot u)) = u)
    (h : Agreeing σ C sm k s) (i : Fin n) : ∃ e, Agreeing σ C sm (Function.update k i e)
      (s.remake σ sm i (s.cluster.setProc i (s.cluster.proc i).restart)) := by
  refine h.remake hrestore (v := (s.cluster.proc i).raft.me) (fun j hj => ?_) (.refl _) ?_ ?_
    (List.Subset.refl _)
  · exact Function.update_of_ne hj _ _
  · simp only [Cluster.setProc, Function.update_self, Proc.restart]
  · simp only [Cluster.setProc, Function.update_self, Proc.restart]

theorem crashIn (hrestore : ∀ t u, σ.restore t (some (σ.snapshot u)) = u)
    (h : Agreeing σ C sm k s) {m : ℕ} {q : Envelope n (Rpc (RSM.Op R) D)}
    (hq : s.cluster.requests[m]? = some q) (hc : s.cluster.crashIn m = some c) :
    ∃ e, Agreeing σ C sm (Function.update k q.target e) (s.remake σ sm q.target c) := by
  obtain ⟨q', hq', hc⟩ := Option.bind_eq_some_iff.mp hc
  cases hq.symm.trans hq'
  cases hc
  refine h.remake hrestore (v := ((s.cluster.proc q.target).raft.serveTerm q.body).me)
    (fun j hj => ?_) (Raft.serveTerm_keepsSnapshot q.body) ?_ ?_
    fun q' hq' => List.mem_of_mem_eraseIdx hq'
  · exact Function.update_of_ne hj _ _
  · simp only [Cluster.setProc, Function.update_self, Proc.restart]
  · simp only [Cluster.setProc, Function.update_self, Proc.restart]

/-- The Rafts take a step: what a peer has committed and what it has installed is of the log. -/
theorem raft (h : Agreeing σ C sm k s) {x : CollabIde.Action n (RSM.Op R) D}
    (hs : s.cluster.step x = some c) (hx : x.ofRaft = true) (hr : Refined c a)
    (hc : Completeness a) (hp : Progress c a)
    (hbound : ∀ i, (a.node i).hist.take (a.node i).commit <+: C) :
    Agreeing σ C sm k { s with cluster := c } where
  peer i := by
    have hi := h.peer i
    obtain ⟨b, m, l, k₀, hf, hserves⟩ := hi.follows
    obtain ⟨happlying, -, hraft⟩ := Cluster.step_snapshot hs hx i
    have hbase : (c.proc i).raft.lastIncludedIndex = (a.node i).base := (hr.peer i).keeps.index
    have hbase₀ : (s.cluster.proc i).raft.lastIncludedIndex = b := hf.base
    have hsnapshot : b ≤ (a.node i).base ∧
        (c.proc i).raft.lastApplied = (s.cluster.proc i).raft.lastApplied ∧
        (c.proc i).raft.SnapshotSaved ∧
        Covers σ C sm (c.proc i).raft.snapshot (a.node i).base := by
      obtain hkeeps | ⟨q, hq, args, hb, hinstalls⟩ := hraft
      · have hb : (a.node i).base = b := by
          rw [hkeeps.index, hbase₀] at hbase
          exact_mod_cast hbase.symm
        rw [hb, hkeeps.snapshot]
        exact ⟨le_rfl, hkeeps.applied, hkeeps.saved hi.saved, hf.snapshot⟩
      · have hcovers := h.request q hq args hb
        have hlt := hinstalls.lt
        rw [hbase₀] at hlt
        have hindex := hinstalls.index.symm.trans hbase
        refine ⟨by omega, hinstalls.applied, hinstalls.saved ?_, ?_⟩
        · obtain ⟨k, hk, -, hdata | ⟨rfl, -⟩⟩ := hcovers
          · rw [hdata]
            rfl
          · omega
        · rw [hinstalls.snapshot, ← hindex]
          exact hcovers
    obtain ⟨hle, happlied, hsaved, hcovers⟩ := hsnapshot
    have hcommit := (hc.commit i).1
    have hle' : l ≤ (a.node i).commit := by
      have := hp.applied i
      rw [happlied, show (s.cluster.proc i).raft.lastApplied = _ from hf.applied,
        (hr.peer i).commit] at this
      exact_mod_cast this
    refine ⟨⟨(a.node i).base, (a.node i).commit, l, k₀, ?_, hserves⟩, fun k hk => ?_, hsaved,
      hi.lives⟩
    · exact {
        base := hbase
        commit := (hr.peer i).commit
        applied := happlied.trans hf.applied
        base_le := hc.base i
        applied_le := hle'
        le_length := by
          have hlen := (hbound i).length_le
          rwa [List.length_take, min_eq_left hcommit] at hlen
        entries := fun j hj hjm => by
          have hentry := (hr.peer i).keeps.entry_eq hj (hjm.trans hcommit)
          have hlt : j - 1 < ((a.node i).hist.take (a.node i).commit).length := by
            rw [List.length_take]
            omega
          have hget := getElem?_of_isPrefix (hbound i) (List.getElem?_eq_getElem hlt)
          rw [hget, ← List.getElem?_eq_getElem hlt, List.getElem?_take, if_pos (by omega)]
          exact hentry
        snapshot := hcovers
        server := hf.server
        reading := hf.reading
        flight := by
          have hflight := hf.flight.mono hle
          rw [show (s.replica i).applying = _ from happlying.symm] at hflight
          exact hflight
        folds := hf.folds }
    · rw [happlied]
      exact hi.reading k hk
  request q hq args hb := by
    obtain hq | ⟨hdata, hindex⟩ := Cluster.snapshot_of_request hs hq hb
    · exact h.request q hq args hb
    · obtain ⟨b, m, l, k₀, hf, -⟩ := (h.peer q.source).follows
      have hbase : (s.cluster.proc q.source).raft.lastIncludedIndex = b := hf.base
      rw [hdata, hindex, hbase]
      exact hf.snapshot

end Agreeing

end Replicas

/-! ## Runs -/

section Cluster

variable {C : Type} {s s' : Cluster n C D} {a : RaftState n C} {i : Fin n}

theorem exists_paired {x : Action n C D} (h : Refined s a) (hR : Replication.Reach full 0 a)
    (hp : Progress s a) (hok : Disciplined s x) (hs : s.step x = some s') :
    ∃ a', Progress.Paired s a x s' a' ∧ Progress s' a' := by
  obtain ⟨a', hsteps, h'⟩ := h.step (Δ := full) hR (fun _ => ⟨trivial, trivial⟩)
    (fun _ => hok.1) (fun _ => hok.2.1)
    (fun _ c hc => (hok.2.2 c hc).trans (hp.applied c.1)) (fun _ i hl j _ => hp.counted i hl j)
    (.inl trivial) hs
  have hpair : Progress.Paired s a x s' a' :=
    ⟨h, hR, h', hR.steps hsteps, grows_of_steps hR hsteps, hok, hs⟩
  exact ⟨a', hpair, hp.step hpair⟩

variable (s i) in
/-- The applier has other messages to send. -/
def Cluster.setApplying (out : List (Raft.Outgoing C)) : Cluster n C D :=
  s.setProc i { s.proc i with applying := out }

theorem setApplying_refined {out : List (Raft.Outgoing C)} (h : Refined s a)
    (hR : Replication.Reach full 0 a) : Refined (s.setApplying i out) a :=
  h.setProc hR (.refl a) (h.peer i) rfl

theorem setApplying_progress {out : List (Raft.Outgoing C)} (h : Progress s a) :
    Progress (s.setApplying i out) a := by
  have hproc (j : Fin n) : ((s.setApplying i out).proc j).raft = (s.proc j).raft ∧
      ((s.setApplying i out).proc j).epoch = (s.proc j).epoch := by
    by_cases hj : j = i
    · subst hj
      simp [Cluster.setApplying, Cluster.setProc]
    · simp [Cluster.setApplying, Cluster.setProc, hj]
  exact {
    counted := fun j => by rw [(hproc j).1]; exact h.counted j
    next := fun j => by rw [(hproc j).1]; exact h.next j
    applied := fun j => by rw [(hproc j).1]; exact h.applied j
    requestEpoch := fun q => by rw [(hproc q.source).2]; exact h.requestEpoch q
    replyEpoch := fun q => by rw [(hproc q.source).2]; exact h.replyEpoch q
    request := fun q => by rw [(hproc q.source).1, (hproc q.source).2]; exact h.request q
    reply := fun q => by rw [(hproc q.source).1, (hproc q.source).2]; exact h.reply q
    hint := h.hint }

end Cluster

namespace Replicas

variable {σ : StateMachine R V S D} {C : List (LogEntry (RSM.Op R))} {sm : S}
  {s s' : Replicas n R S D} {x : Action n R D} {i : Fin n} {r : Replica n R S D}
  {a : RaftState n (RSM.Op R)} {k : Fin n → ℕ}

/-- The cluster refines the replication of one history. -/
structure Refining (s : Replicas n R S D) (a : RaftState n (RSM.Op R)) : Prop where
  reach : Replication.Reach full 0 a
  refined : Refined s.cluster a
  progress : Progress s.cluster a

namespace Refining

theorem initial : Refining (Replicas.initial sm : Replicas n R S D) (blankState n _) :=
  ⟨.start blankState_start, .initial blankState_start, .initial⟩

theorem completeness (h : Refining s a) : Completeness a := .reach trivial trivial trivial h.reach

/-- A committed history that starts with what each peer has committed. It is longer than a given one
only if a peer has committed it. -/
theorem exists_bound (h : Refining s a) {t : ℤ} (hC : a.Committed C t) :
    ∃ C' t', a.Committed C' t' ∧ C <+: C' ∧
      (∀ i, (a.node i).hist.take (a.node i).commit <+: C') ∧
      (C' = C ∨ ∃ i, C' = (a.node i).hist.take (a.node i).commit) := by
  obtain ⟨C', t', hC', hp, hbound, heq⟩ := h.completeness.exists_committed_bound hC
    ((List.finRange n).map fun i => (a.node i).hist.take (a.node i).commit) fun q hq => by
      obtain ⟨i, -, rfl⟩ := List.mem_map.mp hq
      exact ⟨_, (h.completeness.commit i).2⟩
  refine ⟨C', t', hC', hp, fun i => hbound _ (List.mem_map_of_mem (List.mem_finRange i)),
    heq.imp_right fun hmem => ?_⟩
  obtain ⟨i, -, hi⟩ := List.mem_map.mp hmem
  exact ⟨i, hi.symm⟩

/-- A step of the cluster that keeps the disciplines. -/
theorem of_cluster {x : CollabIde.Action n (RSM.Op R) D} (h : Refining s a)
    (hok : Disciplined s.cluster x) (hs : s.cluster.step x = some s'.cluster) :
    ∃ a', Grows a a' ∧ Refining s' a' := by
  obtain ⟨a', hpair, hp⟩ := exists_paired h.refined h.reach h.progress hok hs
  exact ⟨a', hpair.grows, hpair.reach', hpair.refined', hp⟩

/-- A step above the Raft. -/
theorem of_applying {o : List (Raft.Outgoing (RSM.Op R))} (h : Refining s a)
    (hs : s'.cluster = s.cluster.setApplying i o) : ∃ a', Grows a a' ∧ Refining s' a' :=
  ⟨a, .refl a, h.reach, hs ▸ setApplying_refined h.refined h.reach,
    hs ▸ setApplying_progress h.progress⟩

theorem step (h : Refining s a) (hag : Agreeing σ C sm k s) (hok : s.Ordered x)
    (hs : s.step σ sm x = some s') : ∃ a', Grows a a' ∧ Refining s' a' := by
  -- no reply is delivered, no request handled, and no snapshot taken
  have hfree {x : CollabIde.Action n (RSM.Op R) D} (h1 : x.delivered = none) (h2 : x.handled = none)
      (h3 : ∀ c ∈ x.snapshotted, c.2 ≤ (s.cluster.proc c.1).raft.lastApplied) :
      Disciplined s.cluster x :=
    ⟨fun k hk => (by rw [h1] at hk; cases hk), fun k hk => (by rw [h2] at hk; cases hk), h3⟩
  cases x with
  | raft x =>
    obtain ⟨hx, c, hc, rfl⟩ := step_raft hs
    refine h.of_cluster ⟨hok.1, hok.2, fun p hp => ?_⟩ hc
    cases x with
    | snapshot => cases hx
    | _ => cases hp
  | applier i =>
    obtain ⟨r, hr, rfl⟩ := Option.map_eq_some_iff.mp hs
    obtain ⟨k, out, -, hrun, happlying, rfl⟩ := Replica.applier_eq hr
    refine h.of_cluster (x := .apply i) (hfree rfl rfl fun c hc => by cases hc) ?_
    have happlying : (s.cluster.proc i).applying = [] := happlying
    have hrun : (s.cluster.proc i).raft.applier = some (_, out) := hrun
    simp only [Cluster.step, Cluster.apply, happlying, if_true, hrun, Option.map_some]
    rfl
  | load i =>
    obtain ⟨r, hr, rfl⟩ := Option.map_eq_some_iff.mp hs
    obtain ⟨l, rfl⟩ := Replica.load_eq hr
    exact h.of_applying (i := i) (o := (s.cluster.proc i).applying) rfl
  | receive i =>
    obtain ⟨r, hr, rfl⟩ := Option.map_eq_some_iff.mp hs
    obtain ⟨msg, -, hraft, -, -, -⟩ := Replica.deliver_eq hr
    refine h.of_applying (i := i) (o := r.applying) ?_
    rw [Replicas.setReplica, hraft]
    rfl
  | finish i grown =>
    obtain ⟨r, hr, rfl⟩ := Option.map_eq_some_iff.mp hs
    obtain ⟨index, rf, hreading, rfl, ⟨-, rfl⟩ | hrun⟩ := Replica.finish_eq hr
    · exact h.of_applying (i := i) (o := (s.cluster.proc i).applying) rfl
    · refine h.of_cluster (x := .snapshot i index (some (σ.snapshot (s.reader i).sm)))
        (hfree rfl rfl fun c hc => ?_) ?_
      · cases hc
        exact (hag.peer i).reading index hreading
      · have hrun : (s.cluster.proc i).raft.doSnapshot index (some (σ.snapshot (s.reader i).sm)) =
          some rf := hrun
        simp only [Cluster.step, hrun, Option.map_some]
        rfl
  | restart i =>
    cases hs
    exact h.of_cluster (x := .restart i) (hfree rfl rfl fun c hc => by cases hc) rfl
  | crashIn k =>
    obtain ⟨q, -, hs⟩ := Option.bind_eq_some_iff.mp hs
    obtain ⟨c, hc, hs⟩ := Option.bind_eq_some_iff.mp hs
    cases hs
    exact h.of_cluster (x := .crashIn k) (hfree rfl rfl fun c hc => by cases hc) hc

end Refining

/-- The step, once the cluster has a counterpart for it whose committed entries are in the log. -/
theorem Agreeing.step (hrestore : ∀ t u, σ.restore t (some (σ.snapshot u)) = u)
    (h : Agreeing σ C sm k s) (hs : s.step σ sm x = some s') (hr : Refining s' a)
    (hbound : ∀ i, (a.node i).hist.take (a.node i).commit <+: C) :
    ∃ k', Agreeing σ C sm k' s' := by
  cases x with
  | raft x =>
    obtain ⟨hx, c, hc, rfl⟩ := step_raft hs
    exact ⟨k, h.raft hc hx hr.refined hr.completeness hr.progress hbound⟩
  | applier i =>
    obtain ⟨r, hrun, rfl⟩ := Option.map_eq_some_iff.mp hs
    exact ⟨k, h.applier hrun⟩
  | load i =>
    obtain ⟨r, hrun, rfl⟩ := Option.map_eq_some_iff.mp hs
    exact ⟨k, h.load hrun⟩
  | receive i =>
    obtain ⟨r, hrun, rfl⟩ := Option.map_eq_some_iff.mp hs
    obtain ⟨msg, e, -, -, h'⟩ := h.receive hrestore hrun
    exact ⟨_, h'⟩
  | finish i grown =>
    obtain ⟨r, hrun, rfl⟩ := Option.map_eq_some_iff.mp hs
    exact ⟨k, h.finish hrun⟩
  | restart i =>
    cases hs
    obtain ⟨e, h'⟩ := h.restart hrestore i
    exact ⟨_, h'⟩
  | crashIn j =>
    obtain ⟨q, hq, hs⟩ := Option.bind_eq_some_iff.mp hs
    obtain ⟨c, hc, hs⟩ := Option.bind_eq_some_iff.mp hs
    cases hs
    obtain ⟨e, h'⟩ := h.crashIn hrestore hq hc
    exact ⟨_, h'⟩

theorem Agreeing.initial (hrestore : ∀ t u, σ.restore t (some (σ.snapshot u)) = u) :
    ∃ k, Agreeing σ [] sm k (initial sm : Replicas n R S D) := by
  have hpeer (i : Fin n) : ∃ e, FollowedBy σ [] sm (Replicas.initial sm : Replicas n R S D) i e := by
    have hcovers : Covers σ [] sm none 0 := ⟨0, rfl, le_rfl, .inr ⟨rfl, rfl⟩⟩
    obtain ⟨b, hf⟩ := Replica.Follows.make (s := (Replicas.initial sm : Replicas n R S D).replica i)
      hrestore (rfl : _ = Replica.make σ i ⟨none, none⟩ sm) hcovers
    refine ⟨b, ⟨b, b, b, b, hf, .nil⟩, fun k hk => ?_, ⟨rfl, rfl⟩, fun hs hmem => ?_⟩
    · cases hk
    · cases hmem
  choose k hk using hpeer
  exact ⟨k, hk, fun q hq => by cases hq⟩

/-- Every run. -/
theorem agreeing_of_reach (hrestore : ∀ t u, σ.restore t (some (σ.snapshot u)) = u)
    (hs : (machine (n := n) σ sm).Reach Ordered s) : ∃ a C t k, Refining s a ∧ a.Committed C t ∧
      (∀ i, (a.node i).hist.take (a.node i).commit <+: C) ∧ Agreeing σ C sm k s := by
  induction hs with
  | init hi =>
    cases hi
    obtain ⟨k, hk⟩ : ∃ k, Agreeing σ [] sm k (initial sm : Replicas n R S D) :=
      Agreeing.initial hrestore
    exact ⟨blankState n _, [], 0, k, .initial, .inl rfl, fun i => List.prefix_refl [], hk⟩
  | step _ hok hst ih =>
    obtain ⟨a, C, t, k, hr, hC, -, hag⟩ := ih
    obtain ⟨a', hgrows, hr'⟩ := hr.step hag hok hst
    obtain ⟨C', t', hC', hp, hbound, -⟩ := hr'.exists_bound (committed_mono hgrows hC)
    obtain ⟨k', hag'⟩ := (hag.mono hp).step hrestore hst hr' hbound
    exact ⟨a', C', t', k', hr', hC', hbound, hag'⟩

variable (σ C sm) in
/-- Peer `i` holds the log as far as it has committed, and its server has gone through states of the
log alone, in each of its lives. -/
structure OneLog (s : Replicas n R S D) (i : Fin n) : Prop where
  commit : (s.cluster.proc i).raft.commitIndex ≤ C.length
  entries : ∀ j : ℕ, (s.cluster.proc i).raft.lastIncludedIndex < j →
    j ≤ (s.cluster.proc i).raft.commitIndex → (s.cluster.proc i).raft.entry j = C[j - 1]?
  server : ∃ k₀ k, Replica.Serves σ C sm k₀ (s.reader i).handled k ∧
    (s.reader i).sm = σ.after sm C k
  lives : ∀ hs ∈ (s.reader i).lives, ∃ k₀ k, Replica.Serves σ C sm k₀ hs k

/-- **The replicas agree**: one log explains all servers. -/
theorem replicas_agree (hrestore : ∀ t u, σ.restore t (some (σ.snapshot u)) = u)
    (hs : (machine (n := n) σ sm).Reach Ordered s) : ∃ C, ∀ i, OneLog σ C sm s i := by
  obtain ⟨a, C, t, k, -, -, -, hag⟩ := agreeing_of_reach hrestore hs
  refine ⟨C, fun i => ?_⟩
  obtain ⟨b, m, l, k₀, hf, hserves⟩ := (hag.peer i).follows
  have hbase : (s.cluster.proc i).raft.lastIncludedIndex = b := hf.base
  have hcommit : (s.cluster.proc i).raft.commitIndex = m := hf.commit
  refine ⟨?_, fun j hj hjm => ?_, ⟨k₀, k i, hserves, hf.server⟩, (hag.peer i).lives⟩
  · rw [hcommit]
    exact_mod_cast hf.le_length
  · rw [hbase] at hj
    rw [hcommit] at hjm
    exact hf.entries j (by exact_mod_cast hj) (by exact_mod_cast hjm)

/-- A server that keeps the requests it gets. -/
def collector : StateMachine ℕ Unit (List ℕ) (List ℕ) where
  doOp sm req := (sm ++ [req], ())
  snapshot sm := sm
  restore sm data := data.getD sm

/-- Peer 0 commits `7`, applies it and takes a snapshot. Peer 1 gets the entry, peer 2 the snapshot,
and peer 0 crashes and comes back. -/
def threeReplicas : List (Action 3 ℕ (List ℕ)) :=
  [.raft (.timeout 0), .raft (.handle 0), .raft (.deliver 0), .raft (.start 0 (some ⟨7, 1⟩)),
    .raft (.heartbeat 0), .raft (.handle 1), .raft (.deliver 0), .applier 0, .load 0, .receive 0,
    .finish 0 true, .raft (.heartbeat 0), .raft (.handle 2), .raft (.handle 2), .applier 1, .load 1,
    .receive 1, .applier 2, .load 2, .load 2, .load 2, .receive 2, .restart 0]

theorem replicas_agree_three : ∃ s : Replicas 3 ℕ (List ℕ) (List ℕ),
    ((List.finRange 3).map fun i => ((s.reader i).sm, (s.reader i).handled.map Prod.snd,
        (s.reader i).lives.map fun hs => hs.map Prod.snd)) =
      [([7], [], [[[7]]]), ([7], [[7]], []), ([7], [[7]], [])] ∧
    ∃ C, ∀ i, OneLog collector C [] s i := by
  obtain ⟨s, hs, hv⟩ := (machine (n := 3) collector []).reach_of_run Ordered
    (f := fun s => (List.finRange 3).map fun i => ((s.reader i).sm,
      (s.reader i).handled.map Prod.snd, (s.reader i).lives.map fun hs => hs.map Prod.snd))
    (v := [([7], [], [[[7]]]), ([7], [[7]], []), ([7], [[7]], [])]) threeReplicas rfl rfl
  exact ⟨s, hv, replicas_agree (fun _ _ => rfl) hs⟩

end Replicas

end CollabIde
