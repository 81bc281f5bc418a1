import CollabIde.Rsm.Replica

/-!
# `MainCluster` restores the snapshot a second time

A node of the cluster from `MakeRSM` to its first HTTP request. `MakeRSM` has restored the snapshot
on disk and started `reader`; `MainCluster` then registers the peer, reads the snapshot again and
restores it again, while requests come in and `reader` applies commands. The snapshot that is read
may be older than what `reader` has processed (commands are lost) or newer (commands are applied
twice): the server stays right as long as the entries between the two change nothing.
-/

namespace CollabIde

variable {n : ℕ} {U : Type}

/-- How far `MainCluster` has come. -/
inductive Startup (D : Type) where
  /-- `MakeRSM` has returned. -/
  | made
  /-- The peer gets requests. -/
  | registered
  /-- `dp.ReadSnapshot` has returned `snap`, and `index` is the last index that it covers. -/
  | read (snap : Option D) (index : ℤ)
  | serving

/-- A node of the cluster. -/
structure MainCluster (n : ℕ) (U : Type) where
  replica : Replica n (Cmd U) (Sessions U) (Sessions U)
  startup : Startup (Sessions U)
  /-- The last index of the snapshot on disk. -/
  first : ℕ

namespace MainCluster

/-- The sessions of `NewCollabServer`. -/
def newCollabServer : Sessions U := fun _ => none

/-- `MainCluster` up to `MakeRSM`. -/
def make (me : Fin n) (dp : Persister (RSM.Op (Cmd U)) (Sessions U)) : MainCluster n U :=
  let replica := Replica.make (collabServer U) me dp newCollabServer
  ⟨replica, .made, replica.raft.lastIncludedIndex.toNat⟩

inductive Action (U : Type) where
  | replica (x : Replica.Action (Cmd U) (Sessions U))
  | registerRaft
  | readSnapshot
  | restore

/-- Only a registered peer gets requests; `maxraftstate` is -1, so that `reader` takes no
snapshot. -/
def step (s : MainCluster n U) : Action U → Option (MainCluster n U)
  | .replica x => match x, s.startup with
    | .append _, .made => none
    | .install _, .made => none
    | .finish true, _ => none
    | x, _ => (s.replica.step (collabServer U) x).map fun r => { s with replica := r }
  | .registerRaft => match s.startup with
    | .made => some { s with startup := .registered }
    | _ => none
  | .readSnapshot => match s.startup with
    | .registered => some { s with
        startup := .read s.replica.raft.persister.snapshot s.replica.raft.lastIncludedIndex }
    | _ => none
  | .restore => match s.startup with
    | .read snap _ => some { s with
        startup := .serving
        replica := { s.replica with
          sm := if snap.isSome then (collabServer U).restore s.replica.sm snap
            else s.replica.sm } }
    | _ => none

variable (committed : List (LogEntry (RSM.Op (Cmd U))))

/-- The server after the first `k` committed entries. -/
abbrev after (k : ℕ) : Sessions U := (collabServer U).after newCollabServer committed k

/-- `reader` has processed all messages up to index `k`. -/
abbrev Processed (s : MainCluster n U) (k : ℕ) : Prop :=
  Replica.UpTo (collabServer U) committed newCollabServer s.first s.replica.handled k

/-- What is on disk is consistent. -/
def machine : Machine (MainCluster n U) (Action U) where
  init s := ∃ me dp, s = make me dp ∧
    Covers (collabServer U) committed newCollabServer s.replica.raft.snapshot
      s.replica.raft.lastIncludedIndex
  step := step

/-- What the requests respect. -/
def Respects (s : MainCluster n U) : Action U → Prop
  | .replica x => s.replica.Respects (collabServer U) committed newCollabServer x
  | _ => True

/-- The snapshot that is restored the second time covers what `reader` has processed, up to entries
that change nothing. -/
def Meets (s : MainCluster n U) : Action U → Prop
  | .restore => ∀ snap index, s.startup = .read (some snap) index →
      ∀ k, s.Processed committed k → after committed index.toNat = after committed k
  | _ => True

/-- Whenever `reader` has processed all messages up to an index, the server is the fold of the
commands up to there. -/
structure Right (s : MainCluster n U) : Prop where
  processed : ∃ k, s.Processed committed k
  server : ∀ k, s.Processed committed k → s.replica.sm = after committed k

end MainCluster

/-! ## The snapshot of the persister -/

namespace Raft

variable {C D : Type} {rf rf' : Raft n C D}

theorem persist_saved (h : rf.persister.snapshot = rf.snapshot) :
    rf.persist.persister.snapshot = rf.persist.snapshot := by
  rw [persist_snapshot_saved, h, Option.or_self]
  rfl

/-- `AppendEntries` leaves the snapshot and its copy on disk. -/
theorem appendEntries_saved {args : AppendEntriesArgs C} {reply : AppendEntriesReply}
    (h : rf.persister.snapshot = rf.snapshot) (hx : rf.appendEntries args = some (rf', reply)) :
    rf'.persister.snapshot = rf'.snapshot := by
  unfold appendEntries at hx
  split at hx
  · cases hx
    exact h
  have hterm : (rf.appendEntriesTerm args).persister.snapshot =
      (rf.appendEntriesTerm args).snapshot := by
    unfold appendEntriesTerm
    split
    · exact persist_saved h
    · exact h
  generalize hrf₁ : { rf.appendEntriesTerm args with currentRole := .follower } = rf₁ at hx
  have h₁ : rf₁.persister.snapshot = rf₁.snapshot := by
    rw [← hrf₁]
    exact hterm
  unfold appendEntriesRest at hx
  split at hx
  · cases hx
    exact h₁
  split at hx
  · cases hx
    exact h₁
  obtain ⟨e, -, hx⟩ := Option.bind_eq_some_iff.mp hx
  split at hx
  · cases hx
    exact h₁
  obtain ⟨rf₂, h₂, hx⟩ := Option.bind_eq_some_iff.mp hx
  cases hx
  obtain ⟨kept, -, h₂⟩ := Option.bind_eq_some_iff.mp h₂
  cases h₂
  have h₂ : { rf₁ with log := kept ++ args.entries }.persister.snapshot =
      { rf₁ with log := kept ++ args.entries }.snapshot := h₁
  exact persist_saved h₂

/-- An installed snapshot is saved, if it is not nil. -/
theorem installSnapshot_saved {args : InstallSnapshotArgs D} {reply : InstallSnapshotReply}
    (h : rf.persister.snapshot = rf.snapshot)
    (hdata : rf.lastIncludedIndex < args.lastIncludedIndex → args.data.isSome)
    (hx : rf.installSnapshot args = some (rf', reply)) :
    rf'.persister.snapshot = rf'.snapshot := by
  unfold installSnapshot at hx
  split at hx
  · cases hx
    exact h
  split at hx
  · cases hx
    exact h
  rename_i hnew
  obtain ⟨rf₁, h₁, hx⟩ := Option.map_eq_some_iff.mp hx
  cases hx
  obtain ⟨rest, -, rfl⟩ := Option.map_eq_some_iff.mp h₁
  obtain ⟨d, hd⟩ := Option.isSome_iff_exists.mp (hdata (not_le.mp hnew))
  rw [persist_snapshot_saved, persist_snapshot, hd, Option.some_or]

/-- An applier round changes `lastApplied` only. -/
theorem applier_saved {out : List (Outgoing C)} (h : rf.persister.snapshot = rf.snapshot)
    (hx : rf.applier = some (rf', out)) : rf'.persister.snapshot = rf'.snapshot := by
  obtain ⟨-, rfl, -⟩ | ⟨-, -, rfl, -⟩ | ⟨rfl, -⟩ := applier_cases hx <;> exact h

end Raft

/-! ## Runs -/

namespace MainCluster

variable {committed : List (LogEntry (RSM.Op (Cmd U)))} {s s' : MainCluster n U} {b m a k : ℕ}

variable (committed) in
/-- The invariant: the replica follows the committed entries, `reader` has processed as many as the
server has got, and what was read from the disk is a snapshot. -/
structure Starts (s : MainCluster n U) (b m a k : ℕ) : Prop where
  follows : s.replica.Follows (collabServer U) committed newCollabServer b m a k
  processed : s.Processed committed k
  disk : s.replica.raft.persister.snapshot = s.replica.raft.snapshot
  read : ∀ snap index, s.startup = .read snap index →
    Covers (collabServer U) committed newCollabServer snap index

theorem restore_snapshot (t u : Sessions U) :
    (collabServer U).restore t (some ((collabServer U).snapshot u)) = u := rfl

namespace Starts

theorem server (h : Starts committed s b m a k) {k' : ℕ} (hk : s.Processed committed k') :
    s.replica.sm = after committed k' :=
  h.follows.server.trans (h.processed.after_eq restore_snapshot hk)

theorem right (h : Starts committed s b m a k) : s.Right committed :=
  ⟨⟨k, h.processed⟩, fun _ => h.server⟩

/-- A request changes the peer only. -/
theorem setRaft (h : Starts committed s b m a k) {rf : Raft n (RSM.Op (Cmd U)) (Sessions U)}
    {b' m' : ℕ} (hf : Replica.Follows (collabServer U) committed newCollabServer
      { s.replica with raft := rf } b' m' a k)
    (hd : rf.persister.snapshot = rf.snapshot) :
    Starts committed { s with replica := { s.replica with raft := rf } } b' m' a k :=
  ⟨hf, h.processed, hd, h.read⟩

/-- What the replica does. -/
theorem replica (h : Starts committed s b m a k) {x : Replica.Action (Cmd U) (Sessions U)}
    (ho : s.replica.Respects (collabServer U) committed newCollabServer x)
    (hx : s.step (.replica x) = some s') : ∃ b' m' a' k', Starts committed s' b' m' a' k' := by
  have hnever : x ≠ .finish true := by
    rintro rfl
    cases hx
  have hmap : ∃ r, s.replica.step (collabServer U) x = some r ∧ s' = { s with replica := r } := by
    unfold step at hx
    dsimp only at hx
    split at hx
    · cases hx
    · cases hx
    · cases hx
    · obtain ⟨r, hr, rfl⟩ := Option.map_eq_some_iff.mp hx
      exact ⟨r, hr, rfl⟩
  obtain ⟨r, hr, rfl⟩ := hmap
  cases x with
  | append args =>
    obtain ⟨⟨rf, reply⟩, happend, rfl⟩ := Option.map_eq_some_iff.mp hr
    obtain ⟨m', hf⟩ := h.follows.append ho happend
    exact ⟨b, m', a, k, h.setRaft hf (Raft.appendEntries_saved h.disk happend)⟩
  | install args =>
    obtain ⟨⟨rf, reply⟩, hinstall, rfl⟩ := Option.map_eq_some_iff.mp hr
    obtain ⟨b', m', hf⟩ := h.follows.install ho hinstall
    refine ⟨b', m', a, k, h.setRaft hf (Raft.installSnapshot_saved h.disk (fun hlt => ?_) hinstall)⟩
    rw [h.follows.base] at hlt
    rw [(ho (by omega)).2, Option.isSome_some]
  | applier =>
    obtain ⟨a', hf⟩ := h.follows.applier hr
    unfold Replica.step Replica.applier at hr
    dsimp only at hr
    split at hr
    · obtain ⟨⟨rf, out⟩, happlier, rfl⟩ := Option.map_eq_some_iff.mp hr
      exact ⟨b, m, a', k, hf, h.processed, Raft.applier_saved h.disk happlier, h.read⟩
    · cases hr
  | load =>
    have hf := h.follows.load hr
    unfold Replica.step Replica.load at hr
    dsimp only at hr
    refine ⟨b, m, a, k, ?_⟩
    split at hr
    · cases hr
      exact ⟨hf, h.processed, h.disk, h.read⟩
    · cases hr
      exact ⟨hf, h.processed, h.disk, h.read⟩
    · cases hr
      exact ⟨hf, h.processed, h.disk, h.read⟩
    · cases hr
      exact ⟨hf, h.processed, h.disk, h.read⟩
    · cases hr
  | deliver =>
    obtain ⟨msg, k', hmsg, htakes, hf⟩ := h.follows.deliver restore_snapshot hr
    unfold Replica.step Replica.deliver at hr
    dsimp only at hr
    split at hr
    · rename_i msg' _ hloading
      cases hr
      cases hmsg.symm.trans hloading
      exact ⟨b, m, a, k', hf, Replica.upTo_append.mpr ⟨k, h.processed, htakes⟩, h.disk, h.read⟩
    · cases hr
  | finish grown =>
    cases grown with
    | true => exact absurd rfl hnever
    | false =>
      obtain ⟨b', hf⟩ := h.follows.finish hr
      unfold Replica.step Replica.finish at hr
      dsimp only at hr
      split at hr
      · cases hr
      · cases hr
        exact ⟨b', m, a, k, hf, h.processed, h.disk, h.read⟩

/-- `RegisterRaft` and `dp.ReadSnapshot`. -/
theorem registerRaft (h : Starts committed s b m a k) (hx : s.step .registerRaft = some s') :
    Starts committed s' b m a k := by
  unfold step at hx
  dsimp only at hx
  split at hx
  · cases hx
    exact ⟨h.follows, h.processed, h.disk, fun snap index hr => by cases hr⟩
  · cases hx

theorem readSnapshot (h : Starts committed s b m a k) (hx : s.step .readSnapshot = some s') :
    Starts committed s' b m a k := by
  unfold step at hx
  dsimp only at hx
  split at hx
  · cases hx
    refine ⟨h.follows, h.processed, h.disk, fun snap index hr => ?_⟩
    cases hr
    rw [h.disk, h.follows.base]
    exact h.follows.snapshot
  · cases hx

/-- The second restore keeps the server right exactly if what is between changes nothing. -/
theorem restore (h : Starts committed s b m a k) (hx : s.step .restore = some s') :
    (s'.Right committed ↔ s.Meets committed .restore) ∧
      (s.Meets committed .restore → Starts committed s' b m a k) := by
  unfold step at hx
  dsimp only at hx
  split at hx
  case h_2 => cases hx
  rename_i snap index hread
  cases hx
  cases snap with
  | none =>
    have hs : Starts committed { s with startup := .serving } b m a k :=
      ⟨h.follows, h.processed, h.disk, fun snap index hr => by cases hr⟩
    refine ⟨⟨fun _ snap index hr => ?_, fun _ => hs.right⟩, fun _ => hs⟩
    cases hread.symm.trans hr
  | some d =>
    obtain ⟨j, rfl, -, hd | ⟨-, hd⟩⟩ := h.read _ _ hread
    case inr => cases hd
    have hmeets : s.Meets committed .restore ↔ after committed j = after committed k := by
      constructor
      · intro hm
        exact hm d j hread k h.processed
      · intro heq snap index hr k' hk'
        cases hread.symm.trans hr
        exact heq.trans (h.processed.after_eq restore_snapshot hk')
    have hsm : (collabServer U).restore s.replica.sm (some d) = after committed j := by
      rw [hd]
      rfl
    refine ⟨⟨fun hr => hmeets.mpr (hsm.symm.trans (hr.server k h.processed)), fun hm => ?_⟩,
      fun hm => ?_⟩
    · refine ⟨⟨k, h.processed⟩, fun k' hk' => ?_⟩
      exact hsm.trans ((hmeets.mp hm).trans (h.processed.after_eq restore_snapshot hk'))
    · exact ⟨{ h.follows with server := hsm.trans (hmeets.mp hm) }, h.processed, h.disk,
        fun snap index hr => by cases hr⟩

/-- `MakeRSM`. -/
theorem make {me : Fin n} {dp : Persister (RSM.Op (Cmd U)) (Sessions U)}
    (hs : s = MainCluster.make me dp)
    (hc : Covers (collabServer U) committed newCollabServer s.replica.raft.snapshot
      s.replica.raft.lastIncludedIndex) : ∃ b, Starts committed s b b b b := by
  obtain ⟨b, hf⟩ := Replica.Follows.make restore_snapshot (congrArg MainCluster.replica hs) hc
  refine ⟨b, hf, ?_, ?_, fun snap index hr => ?_⟩
  · have hfirst : s.first = s.replica.raft.lastIncludedIndex.toNat := by rw [hs]; rfl
    have hhandled : s.replica.handled = [] := by rw [hs]; rfl
    rw [Processed, hhandled, hfirst, hf.base]
    rfl
  · rw [hs]
    change ((Raft.blank me dp).readPersist dp.raftstate).persister.snapshot =
      ((Raft.blank me dp).readPersist dp.raftstate).snapshot
    unfold Raft.readPersist
    split <;> rfl
  · rw [hs] at hr
    cases hr

/-- One step. -/
theorem step (h : Starts committed s b m a k) {x : Action U} (ho : s.Respects committed x)
    (hx : s.step x = some s') : (s'.Right committed ↔ s.Meets committed x) ∧
      (s.Meets committed x → ∃ b' m' a' k', Starts committed s' b' m' a' k') := by
  have hkept (hs : ∃ b' m' a' k', Starts committed s' b' m' a' k')
      (hm : s.Meets committed x) : (s'.Right committed ↔ s.Meets committed x) ∧
        (s.Meets committed x → ∃ b' m' a' k', Starts committed s' b' m' a' k') := by
    obtain ⟨b', m', a', k', h'⟩ := hs
    exact ⟨⟨fun _ => hm, fun _ => h'.right⟩, fun _ => ⟨b', m', a', k', h'⟩⟩
  cases x with
  | replica x => exact hkept (h.replica ho hx) trivial
  | registerRaft => exact hkept ⟨b, m, a, k, h.registerRaft hx⟩ trivial
  | readSnapshot => exact hkept ⟨b, m, a, k, h.readSnapshot hx⟩ trivial
  | restore => exact ⟨(h.restore hx).1, fun hm => ⟨b, m, a, k, (h.restore hx).2 hm⟩⟩

end Starts

/-- Every run. -/
theorem starts_of_reach
    (hs : (machine committed).Reach (fun s x => s.Respects committed x ∧ s.Meets committed x) s) :
    ∃ b m a k, Starts (n := n) committed s b m a k := by
  refine hs.invariant (I := fun s => ∃ b m a k, Starts committed s b m a k) (fun s h0 => ?_)
    (fun s x s' _ ih ho hx => ?_)
  · obtain ⟨me, dp, hs, hc⟩ := h0
    obtain ⟨b, hb⟩ := Starts.make hs hc
    exact ⟨b, b, b, b, hb⟩
  · obtain ⟨b, m, a, k, h⟩ := ih
    exact (h.step ho.1 hx).2 ho.2

/-- **Start-up recovers the state** while each second restore is of a snapshot behind which `reader`
has processed nothing that changes the server; the first one that is not makes the server wrong. -/
theorem startup_recovers
    (hs : (machine committed).Reach (fun s x => s.Respects committed x ∧ s.Meets committed x) s) :
    s.Right (n := n) committed ∧ ∀ x s', s.Respects committed x → s.step x = some s' →
      (s'.Right committed ↔ s.Meets committed x) := by
  obtain ⟨b, m, a, k, h⟩ := starts_of_reach hs
  exact ⟨h.right, fun x s' ho hx => (h.step ho hx).1⟩

/-- What is on disk: the session was created, and its update is not yet in the log. -/
def created : Persister (RSM.Op (Cmd ℕ)) (Sessions ℕ) :=
  ⟨some ⟨1, -1, [⟨1, none⟩], 1, 1⟩, some (after Replica.updates 1)⟩

theorem created_init : (machine (n := 3) Replica.updates).init (make 0 created) :=
  ⟨0, created, rfl, 1, rfl, by decide, .inl rfl⟩

set_option synthInstance.maxSize 400 in
/-- The snapshot is restored before the first request comes in. -/
theorem startup_recovers_idle : ∃ s : MainCluster 3 ℕ,
    s.replica.handled.length = 1 ∧ s.Right Replica.updates := by
  have h : (machine (n := 3) Replica.updates).Reach
      (fun s x => s.Respects Replica.updates x ∧ s.Meets Replica.updates x) _ := .init created_init
  have h := h.step (x := Action.registerRaft) ⟨trivial, trivial⟩ rfl
  have h := h.step (x := Action.readSnapshot) ⟨trivial, trivial⟩ rfl
  have h := h.step (x := Action.restore) ⟨trivial, by
    intro snap index hr k hk
    cases hr
    cases hk
    rfl⟩ rfl
  have h := h.step (x := Action.replica (.append ⟨1, 0, 1, 1, Replica.updates.drop 1, 2⟩))
    ⟨by dsimp only [Respects, Replica.Respects]; decide, trivial⟩ rfl
  have h := h.step (x := Action.replica .applier) ⟨trivial, trivial⟩ rfl
  have h := h.step (x := Action.replica .load) ⟨trivial, trivial⟩ rfl
  have h := h.step (x := Action.replica .deliver) ⟨trivial, trivial⟩ rfl
  exact ⟨_, rfl, (startup_recovers h).1⟩

set_option synthInstance.maxSize 400 in
/-- An update is applied before `MainCluster` restores the snapshot on disk: the document is
lost. -/
theorem startup_loses_update : ¬ ∀ s : MainCluster 3 ℕ,
    (machine Replica.updates).Reach (Respects Replica.updates) s → s.Right Replica.updates := by
  intro hall
  have h : (machine (n := 3) Replica.updates).Reach (Respects Replica.updates) _ :=
    .init created_init
  have h := h.step (x := Action.registerRaft) trivial rfl
  have h := h.step (x := Action.replica (.append ⟨1, 0, 1, 1, Replica.updates.drop 1, 2⟩))
    (by dsimp only [Respects, Replica.Respects]; decide) rfl
  have h := h.step (x := Action.replica .applier) trivial rfl
  have h := h.step (x := Action.replica .load) trivial rfl
  have h := h.step (x := Action.replica .deliver) trivial rfl
  have h := h.step (x := Action.readSnapshot) trivial rfl
  have h := h.step (x := Action.restore) trivial rfl
  have hlost := (hall _ h).server 2 ⟨2, ⟨rfl, rfl⟩, rfl⟩
  have hdoc := congrArg (fun ss : Sessions ℕ => ss.getDoc "c") hlost
  revert hdoc
  decide

end MainCluster

end CollabIde
