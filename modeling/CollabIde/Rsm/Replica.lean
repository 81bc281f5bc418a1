import CollabIde.Ide.Server
import CollabIde.Raft.Committed
import CollabIde.Rsm.Submit

/-!
# What a replica holds

One peer from `MakeRSM` on: its Raft, its applier, and `reader` with the server. The applier takes a
batch under the lock and sends it without; `rf.snapshot` and `rf.lastIncludedIndex` are read one
after the other, when a snapshot is sent. A message is handed to `reader`, which may call
`rf.Snapshot` after `DoOp`. All of it interleaves with the requests that come in.
-/

namespace CollabIde

open Raft (Outgoing)

variable {n : ℕ} {R V S D : Type}

namespace StateMachine

variable (σ : StateMachine R V S D)

/-- What `reader` does with an entry. -/
def apply (sm : S) (e : LogEntry (RSM.Op R)) : S :=
  match e.command with
  | none => sm
  | some op => (σ.doOp sm op.req).1

/-- The server after the first `k` entries. -/
def after (sm : S) (committed : List (LogEntry (RSM.Op R))) (k : ℕ) : S :=
  (committed.take k).foldl σ.apply sm

/-- What `reader` does with a message. -/
def handle (sm : S) (m : ApplyMsg (RSM.Op R) D) : S :=
  if m.snapshotValid then σ.restore sm m.snapshot
  else if m.commandValid = false then sm
  else match m.command with
    | none => sm
    | some op => (σ.doOp sm op.req).1

end StateMachine

/-- The server as `reader` leaves it. -/
theorem RSM.message_sm {σ : StateMachine R V S D} {s s' : RSM R V S} {m : ApplyMsg (RSM.Op R) D}
    (h : s.message σ m = some s') : s'.sm = σ.handle s.sm m := by
  unfold RSM.message at h
  unfold StateMachine.handle
  split at h
  case h_2 => cases h
  split at h
  · rename_i hsnapshot
    cases h
    rw [if_pos hsnapshot]
    rfl
  rename_i hsnapshot
  rw [if_neg hsnapshot]
  split at h
  · rename_i hvalid
    cases h
    rw [if_pos hvalid]
  rename_i hvalid
  rw [if_neg hvalid]
  generalize m.command = command at h
  cases command with
  | none =>
    cases h
    rfl
  | some op =>
    cases h
    rfl

/-- The editor's server; a snapshot holds the sessions. -/
def collabServer (U : Type) : StateMachine (Cmd U) Unit (Sessions U) (Sessions U) where
  doOp ss cmd := (ss.doOp cmd, ())
  snapshot ss := ss
  restore ss data := data.getD ss

/-- The data is a snapshot of the server after the entries up to the index. -/
def Covers (σ : StateMachine R V S D) (committed : List (LogEntry (RSM.Op R))) (sm : S)
    (data : Option D) (index : ℤ) : Prop :=
  ∃ k : ℕ, index = k ∧ k ≤ committed.length ∧
    (data = some (σ.snapshot (σ.after sm committed k)) ∨ k = 0 ∧ data = none)

/-- How far the applier is with what it sends next. -/
inductive Loading (C D : Type) where
  | idle
  /-- It has read `rf.snapshot`. -/
  | snapshot (data : Option D)
  /-- It has read `rf.lastIncludedIndex`, too. -/
  | index (data : Option D) (index : ℤ)
  /-- It sends on `applyChan`. -/
  | message (m : ApplyMsg C D)

/-- A snapshot with the data is on its way. -/
def Loading.Carries {C D : Type} (data : Option D) : Loading C D → Prop
  | .idle => False
  | .snapshot d | .index d _ => d = data
  | .message m => m.snapshotValid = true ∧ m.snapshot = data

/-- A peer with its applier, its reader, and its server. -/
structure Replica (n : ℕ) (R S D : Type) where
  raft : Raft n (RSM.Op R) D
  /-- What the applier has still to send. -/
  applying : List (Outgoing (RSM.Op R))
  loading : Loading (RSM.Op R) D
  sm : S
  /-- The index of the command that `reader` has applied, before it looks at the log's size. -/
  reading : Option ℤ
  /-- The messages that `reader` has handled, each with the server after it. -/
  handled : List (ApplyMsg (RSM.Op R) D × S)

namespace Replica

variable (σ : StateMachine R V S D) (s : Replica n R S D)

/-- `MakeRSM`. -/
def make (me : Fin n) (persister : Persister (RSM.Op R) D) (sm : S) : Replica n R S D where
  raft := .make me persister
  applying := []
  loading := .idle
  sm := if persister.snapshot.isSome then σ.restore sm persister.snapshot else sm
  reading := none
  handled := []

/-- The applier's next round. -/
def applier : Option (Replica n R S D) :=
  match s.applying, s.loading with
  | [], .idle => s.raft.applier.map fun r => { s with raft := r.1, applying := r.2 }
  | _, _ => none

/-- The applier reads what it sends next. -/
def load : Option (Replica n R S D) :=
  match s.loading, s.applying with
  | .idle, .command command index :: _ => some { s with loading := .message {
      commandValid := true, command := command, commandIndex := index } }
  | .idle, .snapshot :: _ => some { s with loading := .snapshot s.raft.snapshot }
  | .snapshot data, _ => some { s with loading := .index data s.raft.lastIncludedIndex }
  | .index data index, _ => some { s with loading := .message {
      snapshotValid := true, snapshot := data, snapshotIndex := index
      snapshotTerm := s.raft.lastIncludedTerm } }
  | _, _ => none

/-- `reader` gets the message. -/
def deliver : Option (Replica n R S D) :=
  match s.reading, s.loading with
  | none, .message m =>
    let sm := σ.handle s.sm m
    some { s with
      applying := s.applying.tail
      loading := .idle
      sm := sm
      reading := if m.snapshotValid then none else m.command.map fun _ => m.commandIndex
      handled := s.handled ++ [(m, sm)] }
  | _, _ => none

/-- `reader` takes a snapshot of the server if the log has grown. -/
def finish (grown : Bool) : Option (Replica n R S D) :=
  match s.reading with
  | none => none
  | some index =>
    if grown then (s.raft.doSnapshot index (some (σ.snapshot s.sm))).map fun rf =>
      { s with raft := rf, reading := none }
    else some { s with reading := none }

inductive Action (R D : Type) where
  | append (args : AppendEntriesArgs (RSM.Op R))
  | install (args : InstallSnapshotArgs D)
  | applier
  | load
  | deliver
  | finish (grown : Bool)

def step : Action R D → Option (Replica n R S D)
  | .append args => (s.raft.appendEntries args).map fun r => { s with raft := r.1 }
  | .install args => (s.raft.installSnapshot args).map fun r => { s with raft := r.1 }
  | .applier => s.applier
  | .load => s.load
  | .deliver => s.deliver σ
  | .finish grown => s.finish σ grown

/-- A peer after `MakeRSM`, from a snapshot of the server after the entries that it covers. -/
def machine (committed : List (LogEntry (RSM.Op R))) (sm : S) :
    Machine (Replica n R S D) (Action R D) where
  init s := ∃ me persister, s = make σ me persister sm ∧
    Covers σ committed sm s.raft.snapshot s.raft.lastIncludedIndex
  step := step σ

/-- What the requests respect. `AppendEntries` neither removes nor changes an entry up to the commit
index, and `LeaderCommit` covers committed entries only; `InstallSnapshot` carries the term of the
last entry that it covers and a snapshot of the server after that entry. -/
def Respects (committed : List (LogEntry (RSM.Op R))) (sm : S) (s : Replica n R S D) :
    Action R D → Prop
  | .append args => s.raft.Accepts args → ∀ r ∈ s.raft.appendEntries args,
      (∀ i ≤ s.raft.commitIndex.toNat, s.raft.lastIncludedIndex < i →
        r.1.entry i = s.raft.entry i) ∧
      ∀ i ≤ args.leaderCommit.toNat, s.raft.lastIncludedIndex < i → ∀ e ∈ r.1.entry i,
        committed[i - 1]? = some e
  | .install args => 0 < args.lastIncludedIndex →
      committed[args.lastIncludedIndex.toNat - 1]?.map LogEntry.term = some args.lastIncludedTerm ∧
        args.data = some (σ.snapshot (σ.after sm committed args.lastIncludedIndex.toNat))
  | _ => True

end Replica

namespace Replica

variable (σ : StateMachine R V S D) (committed : List (LogEntry (RSM.Op R))) (sm : S)

/-! ## The messages -/

/-- Each message leaves the server after the first `k` entries for some `k`: a command takes it one
entry further, a snapshot never back. -/
inductive Folds : List (ApplyMsg (RSM.Op R) D × S) → ℕ → Prop
  | nil {k : ℕ} : Folds [] k
  | command {hs : List (ApplyMsg (RSM.Op R) D × S)} {m : ApplyMsg (RSM.Op R) D} {k : ℕ} :
    Folds hs k → m.snapshotValid = false → k < committed.length →
    Folds (hs ++ [(m, σ.after sm committed (k + 1))]) (k + 1)
  | snapshot {hs : List (ApplyMsg (RSM.Op R) D × S)} {m : ApplyMsg (RSM.Op R) D} {k j : ℕ} :
    Folds hs k → m.snapshotValid = true → k ≤ j → j ≤ committed.length →
    Folds (hs ++ [(m, σ.after sm committed j)]) j

/-- The message takes `reader` from index `k` to index `k'`. -/
def Takes (m : ApplyMsg (RSM.Op R) D) (k k' : ℕ) : Prop :=
  if m.snapshotValid then k ≤ k' ∧ m.snapshot = some (σ.snapshot (σ.after sm committed k'))
  else m.commandIndex = k' ∧ k' = k + 1

/-- `reader` started behind index `k₀`, and with the messages it has processed all up to `k`. -/
def UpTo (k₀ : ℕ) : List (ApplyMsg (RSM.Op R) D × S) → ℕ → Prop
  | [], k => k = k₀
  | (m, _) :: ms, k => ∃ k', Takes σ committed sm m k₀ k' ∧ UpTo k' ms k

/-- The commands from entry `k + 1` to entry `a`. -/
inductive Batch : ℕ → ℕ → List (Outgoing (RSM.Op R)) → Prop
  | nil {a : ℕ} : Batch a a []
  | cons {k a : ℕ} {e : LogEntry (RSM.Op R)} {rest : List (Outgoing (RSM.Op R))} :
    committed[k]? = some e → Batch (k + 1) a rest →
    Batch k a (.command e.command (k + 1) :: rest)

/-- What is between the applier, which has taken the entries up to `a`, and the server, which has
got those up to `k`; `b` is the last index of the peer's snapshot. -/
inductive Flight (b a k : ℕ) :
    List (Outgoing (RSM.Op R)) → Loading (RSM.Op R) D → Prop
  | batch {out : List (Outgoing (RSM.Op R))} : Batch committed k a out → Flight b a k out .idle
  /-- The server has got a snapshot that was installed after the applier's round. -/
  | ahead : a < k → k ≤ b → Flight b a k [] .idle
  | command {e : LogEntry (RSM.Op R)} {rest : List (Outgoing (RSM.Op R))} :
    committed[k]? = some e → Batch committed (k + 1) a rest →
    Flight b a k (.command e.command (k + 1) :: rest) (.message {
      commandValid := true, command := e.command, commandIndex := k + 1 })
  | snapshot : 0 < a → k ≤ a → a ≤ b → Flight b a k [.snapshot] .idle
  | loaded {j : ℕ} {l : Loading (RSM.Op R) D} : k ≤ a → a ≤ j → j ≤ b →
    l.Carries (some (σ.snapshot (σ.after sm committed j))) → Flight b a k [.snapshot] l

/-- The invariant: `b` is the last index of the snapshot, `m` the commit index, `a` what the applier
has taken, `k` what the server has got. -/
structure Follows (s : Replica n R S D) (b m a k : ℕ) : Prop where
  base : s.raft.lastIncludedIndex = b
  commit : s.raft.commitIndex = m
  applied : s.raft.lastApplied = a
  base_le : b ≤ m
  applied_le : a ≤ m
  le_length : m ≤ committed.length
  entries : ∀ i, b < i → i ≤ m → s.raft.entry i = committed[i - 1]?
  snapshot : Covers σ committed sm s.raft.snapshot b
  server : s.sm = σ.after sm committed k
  reading : ∀ i ∈ s.reading, i = k
  flight : Flight σ committed sm b a k s.applying s.loading
  folds : Folds σ committed sm s.handled k

variable {σ committed sm} {s s' : Replica n R S D} {b m a k : ℕ}

theorem Takes.le {msg : ApplyMsg (RSM.Op R) D} {k' : ℕ} (h : Takes σ committed sm msg k k') :
    k ≤ k' := by
  unfold Takes at h
  split at h
  · exact h.1
  · exact h.2 ▸ Nat.le_succ k

theorem upTo_append {hs : List (ApplyMsg (RSM.Op R) D × S)} {msg : ApplyMsg (RSM.Op R) D} {t : S}
    {k₀ : ℕ} : UpTo σ committed sm k₀ (hs ++ [(msg, t)]) k ↔
      ∃ j, UpTo σ committed sm k₀ hs j ∧ Takes σ committed sm msg j k := by
  induction hs generalizing k₀ with
  | nil => simp [UpTo]
  | cons p hs ih =>
    simp only [List.cons_append, UpTo, ih]
    constructor
    · rintro ⟨i, hi, j, hj, hk⟩
      exact ⟨j, ⟨i, hi, hj⟩, hk⟩
    · rintro ⟨j, ⟨i, hi, hj⟩, hk⟩
      exact ⟨i, hi, j, hj, hk⟩

/-- The messages say how far the server is. -/
theorem UpTo.after_eq {hs : List (ApplyMsg (RSM.Op R) D × S)} {k₀ k' : ℕ}
    (hrestore : ∀ t u, σ.restore t (some (σ.snapshot u)) = u)
    (h : UpTo σ committed sm k₀ hs k) (h' : UpTo σ committed sm k₀ hs k') :
    σ.after sm committed k = σ.after sm committed k' := by
  obtain rfl | ⟨hs, ⟨msg, t⟩, rfl⟩ := List.eq_nil_or_concat hs
  · rw [show k = k₀ from h, show k' = k₀ from h']
  rw [List.concat_eq_append] at h h'
  obtain ⟨j, -, hj⟩ := upTo_append.mp h
  obtain ⟨j', -, hj'⟩ := upTo_append.mp h'
  unfold Takes at hj hj'
  split at hj
  · rename_i hvalid
    rw [if_pos hvalid] at hj'
    rw [← hrestore t (σ.after sm committed k), ← hj.2, hj'.2, hrestore]
  · rename_i hvalid
    rw [if_neg hvalid] at hj'
    rw [show k = k' by have := hj.1.symm.trans hj'.1; omega]

theorem after_succ {e : LogEntry (RSM.Op R)} (he : committed[k]? = some e) :
    σ.after sm committed (k + 1) = σ.apply (σ.after sm committed k) e := by
  rw [StateMachine.after, List.take_add_one, he, Option.toList_some, List.foldl_append]
  rfl

theorem Batch.le {out : List (Outgoing (RSM.Op R))} (h : Batch committed k a out) : k ≤ a := by
  induction h with
  | nil => exact le_rfl
  | cons _ _ ih => omega

/-- What the applier takes from the log is a batch. -/
theorem Batch.of_entries {es : List (LogEntry (RSM.Op R))} (h : es = (committed.take m).drop a)
    (hm : m ≤ committed.length) (ham : a ≤ m) :
    Batch committed a m (es.mapIdx fun i e => .command e.command ((a : ℤ) + 1 + i)) := by
  induction es generalizing a with
  | nil =>
    have hlen := congrArg List.length h
    rw [List.length_nil, List.length_drop, List.length_take] at hlen
    obtain rfl : a = m := by omega
    exact .nil
  | cons e es ih =>
    have hlen := congrArg List.length h
    rw [List.length_cons, List.length_drop, List.length_take] at hlen
    have hlt : a < (committed.take m).length := by
      rw [List.length_take]
      omega
    rw [List.drop_eq_getElem_cons hlt, List.cons.injEq, List.getElem_take] at h
    obtain ⟨rfl, hes⟩ := h
    rw [List.mapIdx_cons]
    have hrest := ih hes (by omega)
    simp only [Nat.cast_zero, add_zero]
    refine .cons (List.getElem?_eq_getElem _) ?_
    convert hrest using 3
    push_cast
    ring_nf

/-- The applier has taken what the server has got, or the snapshot covers it. -/
theorem Flight.le {out : List (Outgoing (RSM.Op R))} {l : Loading (RSM.Op R) D}
    (h : Flight σ committed sm b a k out l) : k ≤ a ∨ k ≤ b := by
  cases h with
  | batch hb => exact .inl hb.le
  | ahead _ hle => exact .inr hle
  | command _ hb => exact .inl (Nat.le_of_succ_le hb.le)
  | snapshot _ hle _ => exact .inl hle
  | loaded hle _ _ _ => exact .inl hle

/-- The peer's snapshot only gets newer. -/
theorem Flight.mono {out : List (Outgoing (RSM.Op R))} {l : Loading (RSM.Op R) D} {b' : ℕ}
    (h : Flight σ committed sm b a k out l) (hb : b ≤ b') :
    Flight σ committed sm b' a k out l := by
  cases h with
  | batch h => exact .batch h
  | ahead hlt hle => exact .ahead hlt (hle.trans hb)
  | command he h => exact .command he h
  | snapshot h0 hk ha => exact .snapshot h0 hk (ha.trans hb)
  | loaded hk ha hj hl => exact .loaded hk ha (hj.trans hb) hl

/-! ## The steps -/

namespace Follows

/-- A request or a snapshot changes the peer's log. -/
theorem setRaft (h : Follows σ committed sm s b m a k) {rf : Raft n (RSM.Op R) D} {b' m' : ℕ}
    (hbase : rf.lastIncludedIndex = b') (hcommit : rf.commitIndex = m')
    (happlied : rf.lastApplied = s.raft.lastApplied) (hbb : b ≤ b') (hbm : b' ≤ m') (hmm : m ≤ m')
    (hlen : m' ≤ committed.length)
    (hentries : ∀ i, b' < i → i ≤ m' → rf.entry i = committed[i - 1]?)
    (hsnapshot : Covers σ committed sm rf.snapshot b') :
    Follows σ committed sm { s with raft := rf } b' m' a k where
  base := hbase
  commit := hcommit
  applied := happlied.trans h.applied
  base_le := hbm
  applied_le := h.applied_le.trans hmm
  le_length := hlen
  entries := hentries
  snapshot := hsnapshot
  server := h.server
  reading := h.reading
  flight := h.flight.mono hbb
  folds := h.folds

theorem append (h : Follows σ committed sm s b m a k) {args : AppendEntriesArgs (RSM.Op R)}
    {rf : Raft n (RSM.Op R) D} {reply : AppendEntriesReply}
    (ho : Respects σ committed sm s (.append args))
    (hx : s.raft.appendEntries args = some (rf, reply)) :
    ∃ m', Follows σ committed sm { s with raft := rf } b m' a k := by
  obtain ⟨hbase, hsnapshot, happlied, hcases⟩ := Raft.appendEntries_cases hx
  rw [h.base] at hbase
  have hcovers : Covers σ committed sm rf.snapshot b := hsnapshot ▸ h.snapshot
  obtain ⟨hlog, hcommit⟩ | ⟨hacc, hlast, hcommit⟩ := hcases
  · refine ⟨m, h.setRaft hbase (hcommit.trans h.commit) happlied le_rfl h.base_le le_rfl h.le_length
      (fun i hi him => ?_) hcovers⟩
    rw [← h.entries i hi him, Raft.entry, Raft.entry, Raft.logIndex, Raft.logIndex, hlog, hbase,
      h.base]
  obtain ⟨hkeep, hcovered⟩ := ho hacc _ hx
  have hprev := hacc.2.1
  rw [h.base] at hprev hkeep hcovered
  rw [h.commit] at hkeep hcommit
  -- what was committed is still there
  have hm : (m : ℤ) ≤ rf.lastLogIndex := by
    obtain hbm | hbm := h.base_le.eq_or_lt
    · omega
    · have he := hkeep m le_rfl (by exact_mod_cast hbm)
      rw [h.entries m hbm le_rfl, List.getElem?_eq_getElem (by have := h.le_length; omega)] at he
      exact (Raft.bounds_of_entry he).2
  obtain ⟨m', hm'⟩ : ∃ m' : ℕ, rf.commitIndex = m' := by
    refine ⟨rf.commitIndex.toNat, ?_⟩
    rw [hcommit]
    split
    · split <;> omega
    · omega
  have hmm : m ≤ m' ∧ m' ≤ rf.lastLogIndex ∧ (m < m' → m' ≤ args.leaderCommit) := by
    rw [hm'] at hcommit
    split at hcommit
    · split at hcommit <;> omega
    · omega
  have hentry (i : ℕ) (hbi : b < i) (hi : i ≤ m') (hmi : m < i) :
      ∃ e, rf.entry i = some e ∧ committed[i - 1]? = some e := by
    obtain ⟨e, he⟩ := rf.entry_isSome (i := i) (by omega) (by omega)
    exact ⟨e, he, hcovered i (by omega) (by exact_mod_cast hbi) e he⟩
  refine ⟨m', h.setRaft hbase hm' happlied le_rfl (h.base_le.trans hmm.1) hmm.1 ?_
    (fun i hbi hi => ?_) hcovers⟩
  · by_contra hlt
    have hlen := h.le_length
    obtain ⟨e, -, he⟩ := hentry m' (by have := h.base_le; omega) le_rfl (by omega)
    have := (List.getElem?_eq_some_iff.mp he).1
    omega
  · by_cases him : i ≤ m
    · rw [hkeep i (by omega) (by exact_mod_cast hbi), h.entries i hbi him]
    · obtain ⟨e, he, hc⟩ := hentry i hbi hi (by omega)
      rw [he, hc]

/-- An installed snapshot covers what the peer had committed, or what is behind it is kept. -/
theorem install (h : Follows σ committed sm s b m a k) {args : InstallSnapshotArgs D}
    {rf : Raft n (RSM.Op R) D} {reply : InstallSnapshotReply}
    (ho : Respects σ committed sm s (.install args))
    (hx : s.raft.installSnapshot args = some (rf, reply)) :
    ∃ b' m', Follows σ committed sm { s with raft := rf } b' m' a k := by
  obtain ⟨happlied, hcases⟩ := Raft.installSnapshot_cases hx
  obtain ⟨hlog, hbase, hsnapshot, hcommit⟩ | ⟨⟨-, hlt⟩, hbase, hsnapshot, hcommit, hcases⟩ := hcases
  · refine ⟨b, m, h.setRaft (hbase.trans h.base) (hcommit.trans h.commit) happlied le_rfl h.base_le
      le_rfl h.le_length (fun i hi him => ?_) (hsnapshot ▸ h.snapshot)⟩
    rw [← h.entries i hi him, Raft.entry, Raft.entry, Raft.logIndex, Raft.logIndex, hlog, hbase]
  rw [h.base] at hlt
  obtain ⟨N, hN⟩ : ∃ N : ℕ, args.lastIncludedIndex = N :=
    ⟨args.lastIncludedIndex.toNat, by omega⟩
  have hbN : b < N := by omega
  obtain ⟨hterm, hdata⟩ := ho (by omega)
  rw [hN, Int.toNat_natCast] at hterm hdata
  obtain ⟨e, he, hterm⟩ := Option.map_eq_some_iff.mp hterm
  have hlen : N ≤ committed.length := by
    have := (List.getElem?_eq_some_iff.mp he).1
    omega
  refine ⟨N, max m N, h.setRaft (hbase.trans hN) ?_ happlied hbN.le (le_max_right m N)
    (le_max_left m N) (max_le h.le_length hlen) (fun i hi him => ?_)
    ⟨N, rfl, hlen, .inl (hsnapshot.trans hdata)⟩⟩
  · rw [hcommit, h.commit, hN]
    omega
  · have hm : i ≤ m := by omega
    -- the peer had the entry itself
    have hentry : s.raft.entry N = some e := by rw [h.entries N hbN (by omega), he]
    obtain ⟨-, -, hkept⟩ | ⟨hnone, -⟩ := hcases
    · rw [hkept i (by rw [hN]; exact_mod_cast hi), h.entries i (by omega) hm]
    · exact absurd hterm (hnone e (hN ▸ hentry))

/-- What the applier takes. -/
theorem applier (h : Follows σ committed sm s b m a k) (hx : s.applier = some s') :
    ∃ a', Follows σ committed sm s' b m a' k := by
  unfold Replica.applier at hx
  split at hx
  case h_2 => cases hx
  rename_i happlying hloading
  obtain ⟨⟨rf, out⟩, hr, rfl⟩ := Option.map_eq_some_iff.mp hx
  have hflight := h.flight
  rw [happlying, hloading] at hflight
  obtain ⟨hlt, rfl, rfl⟩ | ⟨hle, hlt, rfl, es, hes, rfl⟩ | ⟨rfl, rfl⟩ := Raft.applier_cases hr
  · rw [h.base, h.applied] at hlt
    refine ⟨b, { h with applied := h.base, applied_le := h.base_le, flight := ?_ }⟩
    rw [hloading]
    refine .snapshot (by omega) ?_ le_rfl
    obtain hk | hk := hflight.le <;> omega
  · rw [h.base, h.applied] at hle
    rw [h.applied, h.commit] at hlt
    rw [h.applied, h.commit] at hes
    have hba : b ≤ a := by exact_mod_cast hle
    have ham : a < m := by exact_mod_cast hlt
    have hka : k = a := by
      cases hflight with
      | batch hb => cases hb; rfl
      | ahead hak hkb => omega
    refine ⟨m, { h with
      applied := h.commit
      applied_le := le_rfl
      flight := ?_ }⟩
    rw [hloading, hka, h.applied]
    refine .batch (.of_entries (List.ext_getElem? fun i => ?_) h.le_length ham.le)
    rw [List.getElem?_drop, List.getElem?_take]
    have hlen := slice_length hes
    unfold Raft.logIndex at hlen
    by_cases hi : a + i < m
    · rw [if_pos hi]
      have hentry := h.entries (a + i + 1) (by omega) hi
      have hget : es[i]? = some es[i] := List.getElem?_eq_getElem (by omega)
      obtain ⟨hlo, -, hlog⟩ := slice_getElem? hes hget
      unfold Raft.logIndex at hlo hlog
      rw [Nat.add_sub_cancel] at hentry
      rw [hget, ← hlog, ← hentry, Raft.entry, Raft.logIndex, get, if_pos (by push_cast; omega)]
      congr 1
      push_cast
      omega
    · rw [if_neg hi, List.getElem?_eq_none (by omega)]
  · refine ⟨a, { h with flight := ?_ }⟩
    rw [hloading]
    exact hflight

/-- The peer's snapshot, as the applier reads it. -/
theorem load (h : Follows σ committed sm s b m a k) (hx : s.load = some s') :
    Follows σ committed sm s' b m a k := by
  have hflight := h.flight
  unfold Replica.load at hx
  split at hx
  · rename_i command index rest hloading happlying
    cases hx
    rw [happlying, hloading] at hflight
    refine { h with flight := ?_ }
    rw [happlying]
    cases hflight with
    | batch hb =>
      cases hb with
      | cons he hb => exact .command he hb
  · rename_i rest hloading happlying
    cases hx
    rw [happlying, hloading] at hflight
    refine { h with flight := ?_ }
    rw [happlying]
    cases hflight with
    | batch hb => cases hb
    | snapshot h0 hk ha =>
      refine .loaded hk ha le_rfl ?_
      obtain ⟨j, hj, -, hdata | ⟨hj0, -⟩⟩ := h.snapshot
      · obtain rfl : b = j := by exact_mod_cast hj
        exact hdata
      · omega
    | loaded _ _ _ hl => cases hl
  · rename_i data hloading
    cases hx
    generalize happlying : s.applying = out at hflight
    rw [hloading] at hflight
    refine { h with flight := ?_ }
    cases hflight with
    | loaded hk ha hj hl => exact .loaded hk ha hj hl
  · rename_i data index hloading
    cases hx
    generalize happlying : s.applying = out at hflight
    rw [hloading] at hflight
    refine { h with flight := ?_ }
    cases hflight with
    | loaded hk ha hj hl => exact .loaded hk ha hj ⟨rfl, hl⟩
  · cases hx

/-- The server gets the next entry, or a snapshot that is not older than what it has. -/
theorem deliver (hrestore : ∀ t u, σ.restore t (some (σ.snapshot u)) = u)
    (h : Follows σ committed sm s b m a k) (hx : s.deliver σ = some s') :
    ∃ msg k', s.loading = .message msg ∧ Takes σ committed sm msg k k' ∧
      Follows σ committed sm s' b m a k' := by
  have hflight := h.flight
  unfold Replica.deliver at hx
  split at hx
  case h_2 => cases hx
  rename_i msg hreading hloading
  cases hx
  refine ⟨msg, ?_⟩
  rw [hloading] at hflight
  generalize happlying : s.applying = out at hflight
  cases hflight with
  | @command e rest he hb =>
    have hsm : σ.handle s.sm { commandValid := true, command := e.command, commandIndex := k + 1 } =
        σ.after sm committed (k + 1) := by
      rw [after_succ he, ← h.server]
      rfl
    refine ⟨k + 1, hloading, ⟨rfl, rfl⟩, { h with
      server := hsm
      reading := fun i hi => ?_
      flight := .batch hb
      folds := ?_ }⟩
    · obtain ⟨-, -, rfl⟩ := Option.map_eq_some_iff.mp hi
      rfl
    · dsimp only
      rw [hsm]
      exact h.folds.command rfl (List.getElem?_eq_some_iff.mp he).1
  | @loaded j l hk ha hj hl =>
    obtain ⟨hvalid, hdata⟩ := hl
    have hsm : σ.handle s.sm msg = σ.after sm committed j := by
      rw [StateMachine.handle, if_pos hvalid, hdata, hrestore]
    refine ⟨j, hloading, (if_pos hvalid).mpr ⟨hk.trans ha, hdata⟩, { h with
      server := hsm
      reading := fun i hi => ?_
      flight := ?_
      folds := ?_ }⟩
    · rw [if_pos hvalid] at hi
      cases hi
    · obtain rfl | hlt := ha.eq_or_lt
      · exact .batch .nil
      · exact .ahead hlt hj
    · dsimp only
      rw [hsm]
      exact h.folds.snapshot hvalid (hk.trans ha) (hj.trans (h.base_le.trans h.le_length))

/-- The service's own snapshot is of the server as it is. -/
theorem finish (h : Follows σ committed sm s b m a k) {grown : Bool}
    (hx : s.finish σ grown = some s') : ∃ b', Follows σ committed sm s' b' m a k := by
  unfold Replica.finish at hx
  split at hx
  · cases hx
  rename_i index hreading
  have hindex : index = k := h.reading index hreading
  split at hx
  case isFalse =>
    cases hx
    exact ⟨b, { h with reading := fun i hi => by cases hi }⟩
  obtain ⟨rf, hr, rfl⟩ := Option.map_eq_some_iff.mp hx
  obtain ⟨rfl, -⟩ | ⟨hlt, hbase, hsnapshot, hcommit, happlied, hkept⟩ := Raft.doSnapshot_cases hr
  · exact ⟨b, { h with reading := fun i hi => by cases hi }⟩
  rw [h.base, hindex] at hlt
  rw [hindex] at hbase hkept
  have hbk : b < k := by exact_mod_cast hlt
  have hkm : k ≤ m := by
    have ham := h.applied_le
    obtain hk | hk := h.flight.le <;> omega
  have hf := h.setRaft hbase (hcommit.trans h.commit) happlied hbk.le hkm le_rfl h.le_length
    (fun i hi him => by
      rw [hkept i (by exact_mod_cast hi), h.entries i (by omega) him])
    ⟨k, rfl, hkm.trans h.le_length, .inl (by rw [hsnapshot, h.server])⟩
  exact ⟨k, { hf with reading := fun i hi => by cases hi }⟩

/-- `MakeRSM` starts where the snapshot ends. -/
theorem make {me : Fin n} {persister : Persister (RSM.Op R) D}
    (hrestore : ∀ t u, σ.restore t (some (σ.snapshot u)) = u)
    (hs : s = Replica.make σ me persister sm)
    (hc : Covers σ committed sm s.raft.snapshot s.raft.lastIncludedIndex) :
    ∃ b, Follows σ committed sm s b b b b := by
  have hsnapshot : s.raft.snapshot = persister.snapshot := by
    rw [hs]
    change ((Raft.blank me persister).readPersist persister.raftstate).snapshot = _
    unfold Raft.readPersist
    split <;> rfl
  obtain ⟨b, hb, hlen, hdata⟩ := hc
  refine ⟨b, ?_⟩
  have hlast : s.raft.commitIndex = s.raft.lastIncludedIndex ∧
      s.raft.lastApplied = s.raft.lastIncludedIndex := by
    rw [hs]
    exact ⟨rfl, rfl⟩
  exact {
    base := hb
    commit := hlast.1.trans hb
    applied := hlast.2.trans hb
    base_le := le_rfl
    applied_le := le_rfl
    le_length := hlen
    entries := fun i hi him => by omega
    snapshot := ⟨b, rfl, hlen, hdata⟩
    server := by
      rw [hsnapshot] at hdata
      rw [hs]
      change (if persister.snapshot.isSome then σ.restore sm persister.snapshot else sm) = _
      obtain hdata | ⟨rfl, hdata⟩ := hdata
      · rw [hdata, Option.isSome_some, if_pos rfl, hrestore]
      · rw [hdata]
        rfl
    reading := fun i hi => by
      rw [hs] at hi
      cases hi
    flight := by
      rw [hs]
      exact .batch .nil
    folds := by
      rw [hs]
      exact .nil }

/-- One step. -/
theorem step (hrestore : ∀ t u, σ.restore t (some (σ.snapshot u)) = u)
    (h : Follows σ committed sm s b m a k) {x : Action R D}
    (ho : Respects σ committed sm s x) (hx : s.step σ x = some s') :
    ∃ b' m' a' k', k ≤ k' ∧ Follows σ committed sm s' b' m' a' k' := by
  cases x with
  | append args =>
    obtain ⟨⟨rf, reply⟩, hr, rfl⟩ := Option.map_eq_some_iff.mp hx
    obtain ⟨m', h'⟩ := h.append ho hr
    exact ⟨b, m', a, k, le_rfl, h'⟩
  | install args =>
    obtain ⟨⟨rf, reply⟩, hr, rfl⟩ := Option.map_eq_some_iff.mp hx
    obtain ⟨b', m', h'⟩ := h.install ho hr
    exact ⟨b', m', a, k, le_rfl, h'⟩
  | applier =>
    obtain ⟨a', h'⟩ := h.applier hx
    exact ⟨b, m, a', k, le_rfl, h'⟩
  | load => exact ⟨b, m, a, k, le_rfl, h.load hx⟩
  | deliver =>
    obtain ⟨msg, k', -, hk, h'⟩ := h.deliver hrestore hx
    exact ⟨b, m, a, k', hk.le, h'⟩
  | finish grown =>
    obtain ⟨b', h'⟩ := h.finish hx
    exact ⟨b', m, a, k, le_rfl, h'⟩

end Follows

/-- Every run. -/
theorem follows_of_reach (hrestore : ∀ t u, σ.restore t (some (σ.snapshot u)) = u)
    (hs : (machine σ committed sm).Reach (Respects (n := n) σ committed sm) s) :
    ∃ b m a k, Follows σ committed sm s b m a k := by
  refine hs.invariant (I := fun s => ∃ b m a k, Follows σ committed sm s b m a k)
    (fun s h0 => ?_) (fun s x s' _ ih ho hx => ?_)
  · obtain ⟨me, persister, hs, hc⟩ := h0
    obtain ⟨b, hb⟩ := Follows.make hrestore hs hc
    exact ⟨b, b, b, b, hb⟩
  · obtain ⟨b, m, a, k, h⟩ := ih
    obtain ⟨b', m', a', k', -, h'⟩ := h.step hrestore ho hx
    exact ⟨b', m', a', k', h'⟩

/-- The server is the fold of what is committed, after each message that it has got, and the
snapshot is the server after the last entry that it covers. -/
theorem replica_is_fold (hrestore : ∀ t u, σ.restore t (some (σ.snapshot u)) = u)
    (hs : (machine σ committed sm).Reach (Respects (n := n) σ committed sm) s) :
    ∃ k, Folds σ committed sm s.handled k ∧ s.sm = σ.after sm committed k ∧
      Covers σ committed sm s.raft.snapshot s.raft.lastIncludedIndex := by
  obtain ⟨b, m, a, k, h⟩ := follows_of_reach hrestore hs
  exact ⟨k, h.folds, h.server, h.base ▸ h.snapshot⟩

/-- A session is created, and gets two updates. -/
def updates : List (LogEntry (RSM.Op (Cmd ℕ))) :=
  [⟨1, some ⟨.session ⟨"create", "c", "u", ""⟩, 1⟩⟩, ⟨1, some ⟨.crdtUpdate ⟨"c", 7⟩, 2⟩⟩,
    ⟨2, some ⟨.crdtUpdate ⟨"c", 8⟩, 3⟩⟩]

set_option synthInstance.maxSize 400 in
/-- The peer applies the first entry and takes a snapshot; while the applier has the second one in
its hands, a snapshot of all three is installed. -/
theorem replica_is_fold_installed : ∃ s : Replica 3 (Cmd ℕ) (Sessions ℕ) (Sessions ℕ),
    (s.handled.length = 3 ∧ s.raft.lastIncludedIndex = 3) ∧
    ∃ k, Folds (collabServer ℕ) updates (fun _ => none) s.handled k ∧
      s.sm = (collabServer ℕ).after (fun _ => none) updates k ∧
      Covers (collabServer ℕ) updates (fun _ => none) s.raft.snapshot s.raft.lastIncludedIndex := by
  have h : (machine (n := 3) (collabServer ℕ) updates fun _ => none).Reach
      (Respects (collabServer ℕ) updates fun _ => none) _ :=
    .init ⟨0, ⟨none, none⟩, rfl, 0, rfl, by decide, .inr ⟨rfl, rfl⟩⟩
  have h := h.step (x := Action.append ⟨1, 0, 0, 0, updates.take 2, 2⟩)
    (by dsimp only [Respects]; decide) rfl
  have h := h.step (x := Action.applier) trivial rfl
  have h := h.step (x := Action.load) trivial rfl
  have h := h.step (x := Action.deliver) trivial rfl
  have h := h.step (x := Action.finish true) trivial rfl
  have h := h.step (x := Action.install ⟨2, 0, 3, 2, some
    ((collabServer ℕ).after (fun _ => none) updates 3)⟩) (fun _ => ⟨rfl, rfl⟩) rfl
  -- the second entry
  have h := h.step (x := Action.load) trivial rfl
  have h := h.step (x := Action.deliver) trivial rfl
  have h := h.step (x := Action.finish true) trivial rfl
  -- the snapshot
  have h := h.step (x := Action.applier) trivial rfl
  have h := h.step (x := Action.load) trivial rfl
  have h := h.step (x := Action.load) trivial rfl
  have h := h.step (x := Action.load) trivial rfl
  have h := h.step (x := Action.deliver) trivial rfl
  exact ⟨_, ⟨rfl, rfl⟩, replica_is_fold (fun _ _ => rfl) h⟩

end Replica

end CollabIde
