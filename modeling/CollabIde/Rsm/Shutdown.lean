import CollabIde.Rsm.Replica

/-!
# Shutdown

`Kill` next to the applier and `reader` of one peer. `Kill` sets a flag and then closes `applyChan`;
the applier looks at the flag before a round and before each message, and then sends. The messages
that `reader` gets are, from the index on with which the peer was made, the commands that the log
held when the applier took them, and snapshots of the peer (`in_order`). Nothing is sent on the closed
channel, and it is not closed again, as long as it is closed once only and not between the applier's
look at the flag and the end of the send (`shutdown_safe`); a close in between ends in a panic
(`panics_of_close`).
-/

namespace CollabIde

open Raft (Outgoing)

variable {n : ℕ} {R V S D : Type}

/-- The commands that the log holds behind `lastApplied`, up to the commit index. -/
def Raft.unapplied {C : Type} (rf : Raft n C D) : List (ℤ × Option C) :=
  if rf.lastApplied < rf.lastIncludedIndex then []
  else (List.range (rf.commitIndex - rf.lastApplied).toNat).filterMap fun (i : ℕ) =>
    (rf.entry (rf.lastApplied + 1 + i)).map fun e => (rf.lastApplied + 1 + i, e.command)

/-- The applier is not at a message. -/
def Loading.isIdle {C D : Type} : Loading C D → Bool
  | .idle => true
  | _ => false

/-- A peer with its applier, its `reader`, and the calls of `Kill`. -/
structure Shutdown (n : ℕ) (R S D : Type) where
  replica : Replica n R S D
  /-- The applier has found the peer alive, and goes on with a round or with the next message. -/
  checked : Bool
  /-- The applier has returned. -/
  returned : Bool
  dead : Bool
  /-- The calls of `Kill` that have set the flag and not closed the channel yet. -/
  killing : ℕ
  /-- How often the channel has been closed. -/
  closes : ℕ
  panicked : Bool
  /-- `lastApplied` when the peer was made. -/
  made : ℤ
  /-- What the applier has taken: each index with the command that the log held there. -/
  taken : List (ℤ × Option (RSM.Op R))
  /-- The snapshots that the peer has had, each with its last index. -/
  snapshots : List (ℤ × Option D)

namespace Shutdown

inductive Action (R D : Type) where
  | peer (x : Replica.Action R D)
  /-- The applier looks at the flag. -/
  | check
  /-- The applier's send meets a closed channel. -/
  | send
  | kill
  | close

variable (σ : StateMachine R V S D) (s : Shutdown n R S D)

def make (me : Fin n) (persister : Persister (RSM.Op R) D) (sm : S) : Shutdown n R S D where
  replica := .make σ me persister sm
  checked := false
  returned := false
  dead := false
  killing := 0
  closes := 0
  panicked := false
  made := (Raft.make me persister).lastApplied
  taken := []
  snapshots := [((Raft.make me persister).lastIncludedIndex, (Raft.make me persister).snapshot)]

/-- The peer is in a new state. -/
def setReplica (r : Replica n R S D) : Shutdown n R S D :=
  { s with
    replica := r
    snapshots := s.snapshots ++ [(r.raft.lastIncludedIndex, r.raft.snapshot)] }

/-- `reader` gets nothing from a closed channel. -/
def peer : Replica.Action R D → Option (Shutdown n R S D)
  | .applier =>
    if s.checked then s.replica.applier.map fun r =>
      { s.setReplica r with checked := false, taken := s.taken ++ s.replica.raft.unapplied }
    else none
  | .load =>
    if s.checked ∨ s.replica.loading.isIdle = false then
      s.replica.load.map fun r => { s.setReplica r with checked := false }
    else none
  | .deliver => if s.closes = 0 then (s.replica.deliver σ).map s.setReplica else none
  | x => (s.replica.step σ x).map s.setReplica

/-- If the peer is dead, the applier returns; the flag is not reset, so it also does if it was about
to send a snapshot. -/
def check : Option (Shutdown n R S D) :=
  if s.returned = false ∧ s.checked = false ∧ s.replica.loading.isIdle = true then
    some (if s.dead then { s with returned := true } else { s with checked := true })
  else none

def send : Option (Shutdown n R S D) :=
  match s.replica.loading with
  | .message _ => if s.closes = 0 then none else some { s with panicked := true }
  | _ => none

/-- The second half of `Kill`. -/
def close : Option (Shutdown n R S D) :=
  if s.killing = 0 then none
  else some { s with
    killing := s.killing - 1, closes := s.closes + 1, panicked := s.closes ≠ 0 }

def step (x : Action R D) : Option (Shutdown n R S D) :=
  if s.panicked then none
  else match x with
    | .peer x => s.peer σ x
    | .check => s.check
    | .send => s.send
    | .kill => some { s with dead := true, killing := s.killing + 1 }
    | .close => s.close

def machine (n : ℕ) (sm : S) : Machine (Shutdown n R S D) (Action R D) where
  init s := ∃ me persister, s = make σ me persister sm
  step := step σ

/-- The applier has found the peer alive, and the message has not been received. -/
def Sending : Prop :=
  s.replica.loading.isIdle = false ∨ s.checked = true ∧ s.replica.applying.isEmpty = false

instance : Decidable s.Sending := inferInstanceAs (Decidable (_ ∨ _))

/-- The channel is closed once, and not while the applier is sending. -/
def Calm : Action R D → Prop
  | .close => s.closes = 0 ∧ ¬ s.Sending
  | _ => True

instance : (x : Action R D) → Decidable (s.Calm x)
  | .close => inferInstanceAs (Decidable (_ ∧ _))
  | .peer _ | .check | .send | .kill => .isTrue trivial

/-- The message takes `reader` from index `k` to index `k'`: it is the command that was taken there,
or a snapshot that the peer has had at an index in between. -/
def Continues (taken : List (ℤ × Option (RSM.Op R))) (snapshots : List (ℤ × Option D))
    (m : ApplyMsg (RSM.Op R) D) (k k' : ℤ) : Prop :=
  if m.snapshotValid then
    m.snapshotIndex = k' ∧ ∃ j, k ≤ j ∧ j ≤ k' ∧ (j, m.snapshot) ∈ snapshots
  else k' = k + 1 ∧ m.commandIndex = k' ∧ (k', m.command) ∈ taken

/-- Each message is the next one, from index `k₀` to index `k`. -/
def InOrder (taken : List (ℤ × Option (RSM.Op R))) (snapshots : List (ℤ × Option D)) (k₀ : ℤ) :
    List (ApplyMsg (RSM.Op R) D × S) → ℤ → Prop
  | [], k => k = k₀
  | (m, _) :: ms, k =>
    ∃ k', Continues taken snapshots m k₀ k' ∧ InOrder taken snapshots k' ms k

/-- `reader` has got the next messages in the order in which the peer applies, from the index on
with which it was made; the applier has taken each index once. -/
def Received : Prop :=
  (∃ k, InOrder s.taken s.snapshots s.made s.replica.handled k) ∧
    s.taken.Pairwise fun p q => p.1 < q.1

/-- What the calls of `Kill` may not do to the channel. -/
structure Safe : Prop where
  alive : s.panicked = false
  once : s.closes ≤ 1
  killed : s.killing ≠ 0 → s.dead = true
  closed : s.closes ≠ 0 → s.dead = true ∧ ¬ s.Sending

/-! ## Messages in flight -/

/-- The commands from index `k + 1` to index `a`, as they were taken. -/
inductive Commands {C : Type} (taken : List (ℤ × Option C)) : ℤ → ℤ → List (Outgoing C) → Prop
  | nil {a : ℤ} : Commands taken a a []
  | cons {k a : ℤ} {c : Option C} {rest : List (Outgoing C)} : (k + 1, c) ∈ taken →
    Commands taken (k + 1) a rest → Commands taken k a (.command c (k + 1) :: rest)

/-- What is between the applier, which has taken all up to `a`, and `reader`, which has got all up
to `k`; `b` is the last index of the peer's snapshot. -/
inductive Flying {C D : Type} (taken : List (ℤ × Option C)) (snapshots : List (ℤ × Option D))
    (b a k : ℤ) : List (Outgoing C) → Loading C D → Prop
  | batch {out : List (Outgoing C)} : Commands taken k a out → Flying taken snapshots b a k out .idle
  /-- The snapshot that has been sent was newer than the one that the applier had taken. -/
  | ahead : a < k → k ≤ b → Flying taken snapshots b a k [] .idle
  | command {c : Option C} {rest : List (Outgoing C)} {m : ApplyMsg C D} : (k + 1, c) ∈ taken →
    Commands taken (k + 1) a rest → m.snapshotValid = false → m.command = c →
    m.commandIndex = k + 1 → Flying taken snapshots b a k (.command c (k + 1) :: rest) (.message m)
  | snapshot : k ≤ a → a ≤ b → Flying taken snapshots b a k [.snapshot] .idle
  | data {data : Option D} {j : ℤ} : k ≤ a → a ≤ j → j ≤ b → (j, data) ∈ snapshots →
    Flying taken snapshots b a k [.snapshot] (.snapshot data)
  | index {data : Option D} {j i : ℤ} : k ≤ a → a ≤ j → j ≤ i → i ≤ b → (j, data) ∈ snapshots →
    Flying taken snapshots b a k [.snapshot] (.index data i)
  | message {m : ApplyMsg C D} {j : ℤ} : m.snapshotValid = true → k ≤ a → a ≤ j →
    j ≤ m.snapshotIndex → m.snapshotIndex ≤ b → (j, m.snapshot) ∈ snapshots →
    Flying taken snapshots b a k [.snapshot] (.message m)

/-- `reader` has got all messages up to index `k`, from index `k₀` on, in their order. -/
structure Ordered (taken : List (ℤ × Option (RSM.Op R))) (snapshots : List (ℤ × Option D)) (k₀ : ℤ)
    (r : Replica n R S D) (k : ℤ) : Prop where
  flying : Flying taken snapshots r.raft.lastIncludedIndex r.raft.lastApplied k r.applying r.loading
  inOrder : InOrder taken snapshots k₀ r.handled k
  current : (r.raft.lastIncludedIndex, r.raft.snapshot) ∈ snapshots

variable {σ s} {s' : Shutdown n R S D} {r r' : Replica n R S D} {k₀ k : ℤ}
  {taken taken' : List (ℤ × Option (RSM.Op R))} {snapshots snapshots' : List (ℤ × Option D)}

theorem Continues.mono {m : ApplyMsg (RSM.Op R) D} {k' : ℤ} (h : Continues taken snapshots m k k')
    (ht : taken ⊆ taken') (hs : snapshots ⊆ snapshots') : Continues taken' snapshots' m k k' := by
  unfold Continues at h ⊢
  split at h
  · rename_i hm
    rw [if_pos hm]
    obtain ⟨hi, j, hk, hj, hmem⟩ := h
    exact ⟨hi, j, hk, hj, hs hmem⟩
  · rename_i hm
    rw [if_neg hm]
    exact ⟨h.1, h.2.1, ht h.2.2⟩

theorem InOrder.mono {ms : List (ApplyMsg (RSM.Op R) D × S)} (h : InOrder taken snapshots k₀ ms k)
    (ht : taken ⊆ taken') (hs : snapshots ⊆ snapshots') : InOrder taken' snapshots' k₀ ms k := by
  induction ms generalizing k₀ with
  | nil => exact h
  | cons p ms ih =>
    obtain ⟨i, hi, h⟩ := h
    exact ⟨i, hi.mono ht hs, ih h⟩

theorem InOrder.append {ms : List (ApplyMsg (RSM.Op R) D × S)} {m : ApplyMsg (RSM.Op R) D} {t : S}
    {k' : ℤ} (h : InOrder taken snapshots k₀ ms k) (hm : Continues taken snapshots m k k') :
    InOrder taken snapshots k₀ (ms ++ [(m, t)]) k' := by
  induction ms generalizing k₀ with
  | nil =>
    cases h
    exact ⟨k', hm, rfl⟩
  | cons p ms ih =>
    obtain ⟨i, hi, h⟩ := h
    exact ⟨i, hi, ih h⟩

theorem Commands.mono {C : Type} {t t' : List (ℤ × Option C)} {a k : ℤ} {out : List (Outgoing C)}
    (h : Commands t k a out) (ht : t ⊆ t') : Commands t' k a out := by
  induction h with
  | nil => exact .nil
  | cons hc _ ih => exact .cons (ht hc) ih

/-- The commands of a round. -/
theorem Commands.of_mapIdx {C : Type} {t : List (ℤ × Option C)} (es : List (LogEntry C)) (a : ℤ)
    (ht : ∀ (i : ℕ) e, es[i]? = some e → (a + 1 + i, e.command) ∈ t) :
    Commands t a (a + es.length) (es.mapIdx fun i e => .command e.command (a + 1 + i)) := by
  induction es generalizing a with
  | nil =>
    simp only [List.length_nil, Nat.cast_zero, add_zero]
    exact .nil
  | cons e es ih =>
    rw [List.mapIdx_cons]
    have hfirst := ht 0 e rfl
    simp only [Nat.cast_zero, add_zero] at hfirst ⊢
    have hrest := ih (a + 1) fun i e he => by
      have hmem := ht (i + 1) e he
      rw [show a + 1 + ((i + 1 : ℕ) : ℤ) = a + 1 + 1 + i by push_cast; ring] at hmem
      exact hmem
    rw [show a + 1 + (es.length : ℤ) = a + (e :: es).length by push_cast [List.length_cons]; ring]
      at hrest
    refine .cons hfirst ?_
    convert hrest using 2
    funext i e
    congr 1
    push_cast
    ring

/-- The peer's snapshot only gets newer. -/
theorem Flying.mono {C D : Type} {t t' : List (ℤ × Option C)} {d d' : List (ℤ × Option D)}
    {b b' a k : ℤ} {out : List (Outgoing C)} {l : Loading C D} (h : Flying t d b a k out l)
    (ht : t ⊆ t') (hd : d ⊆ d') (hb : b ≤ b') : Flying t' d' b' a k out l := by
  cases h with
  | batch h => exact .batch (h.mono ht)
  | ahead hlt hle => exact .ahead hlt (hle.trans hb)
  | command hc h hm hcommand hi => exact .command (ht hc) (h.mono ht) hm hcommand hi
  | snapshot hk ha => exact .snapshot hk (ha.trans hb)
  | data hk ha hj hmem => exact .data hk ha (hj.trans hb) (hd hmem)
  | index hk ha hj hi hmem => exact .index hk ha hj (hi.trans hb) (hd hmem)
  | message hm hk ha hj hi hmem => exact .message hm hk ha hj (hi.trans hb) (hd hmem)

/-- The entries of a round are the commands behind `lastApplied`. -/
theorem mem_unapplied {C : Type} {rf : Raft n C D} {es : List (LogEntry C)} {i : ℕ} {e : LogEntry C}
    (hle : rf.lastIncludedIndex ≤ rf.lastApplied)
    (hes : slice rf.log (rf.logIndex (rf.lastApplied + 1)) (rf.logIndex rf.commitIndex + 1) = some es)
    (he : es[i]? = some e) : (rf.lastApplied + 1 + i, e.command) ∈ rf.unapplied := by
  obtain ⟨hlo, hhi, hlog⟩ := slice_getElem? hes he
  unfold Raft.logIndex at hlo hhi hlog
  have hi : i < (rf.commitIndex - rf.lastApplied).toNat := by omega
  rw [Raft.unapplied, if_neg hle.not_gt, List.mem_filterMap]
  refine ⟨i, List.mem_range.mpr hi, ?_⟩
  have hentry : rf.entry (rf.lastApplied + 1 + i) = some e := by
    rw [Raft.entry, Raft.logIndex, get, if_pos (by omega), ← hlog]
    congr 1
    omega
  rw [hentry, Option.map_some]

namespace Ordered

theorem mono (h : Ordered taken snapshots k₀ r k) (ht : taken ⊆ taken')
    (hs : snapshots ⊆ snapshots') : Ordered taken' snapshots' k₀ r k :=
  ⟨h.flying.mono ht hs le_rfl, h.inOrder.mono ht hs, hs h.current⟩

/-- A request or a snapshot of the service. -/
theorem setRaft (h : Ordered taken snapshots k₀ r k) {rf : Raft n (RSM.Op R) D} {reading : Option ℤ}
    (ha : rf.lastApplied = r.raft.lastApplied)
    (hb : r.raft.lastIncludedIndex ≤ rf.lastIncludedIndex)
    (hs : (rf.lastIncludedIndex, rf.snapshot) ∈ snapshots) :
    Ordered taken snapshots k₀ { r with raft := rf, reading := reading } k :=
  ⟨ha ▸ h.flying.mono (List.Subset.refl _) (List.Subset.refl _) hb, h.inOrder, hs⟩

theorem applier (h : Ordered taken snapshots k₀ r k) (hx : r.applier = some r')
    (ht : r.raft.unapplied ⊆ taken) : Ordered taken snapshots k₀ r' k := by
  unfold Replica.applier at hx
  split at hx
  case h_2 => cases hx
  rename_i happlying hloading
  obtain ⟨⟨rf, out⟩, hr, rfl⟩ := Option.map_eq_some_iff.mp hx
  have hf := h.flying
  rw [happlying, hloading] at hf
  -- what `reader` has got is covered by the snapshot, or is all that the applier has taken
  have hk : k = r.raft.lastApplied ∨ r.raft.lastApplied < k ∧ k ≤ r.raft.lastIncludedIndex := by
    cases hf with
    | batch hc =>
      cases hc
      exact .inl rfl
    | ahead hlt hle => exact .inr ⟨hlt, hle⟩
  have hcurrent := h.current
  obtain ⟨hlt, rfl, rfl⟩ | ⟨hle, hlt, rfl, es, hes, rfl⟩ | ⟨rfl, rfl⟩ := Raft.applier_cases hr
  · refine ⟨?_, h.inOrder, hcurrent⟩
    rw [hloading]
    refine .snapshot ?_ le_rfl
    dsimp only
    omega
  · refine ⟨?_, h.inOrder, hcurrent⟩
    rw [hloading]
    obtain rfl : k = r.raft.lastApplied := by omega
    have hc := Commands.of_mapIdx es r.raft.lastApplied fun i e he => ht (mem_unapplied hle hes he)
    have hlen := slice_length hes
    unfold Raft.logIndex at hlen
    rw [show r.raft.lastApplied + es.length = r.raft.commitIndex by omega] at hc
    exact .batch hc
  · refine ⟨?_, h.inOrder, hcurrent⟩
    rw [hloading]
    exact hf

theorem load (h : Ordered taken snapshots k₀ r k) (hx : r.load = some r') :
    Ordered taken snapshots k₀ r' k := by
  have hf := h.flying
  have hcurrent := h.current
  unfold Replica.load at hx
  split at hx
  · rename_i command index rest hloading happlying
    cases hx
    rw [happlying, hloading] at hf
    refine ⟨?_, h.inOrder, hcurrent⟩
    dsimp only
    rw [happlying]
    cases hf with
    | batch hc =>
      cases hc with
      | cons hmem hc => exact .command hmem hc rfl rfl rfl
  · rename_i rest hloading happlying
    cases hx
    rw [happlying, hloading] at hf
    refine ⟨?_, h.inOrder, hcurrent⟩
    dsimp only
    rw [happlying]
    cases hf with
    | batch hc => cases hc
    | snapshot hk ha => exact .data hk ha le_rfl hcurrent
  · rename_i data hloading
    cases hx
    generalize happlying : r.applying = out at hf
    rw [hloading] at hf
    refine ⟨?_, h.inOrder, hcurrent⟩
    dsimp only
    cases hf with
    | data hk ha hj hmem => exact .index hk ha hj le_rfl hmem
  · rename_i data index hloading
    cases hx
    generalize happlying : r.applying = out at hf
    rw [hloading] at hf
    refine ⟨?_, h.inOrder, hcurrent⟩
    dsimp only
    cases hf with
    | index hk ha hj hi hmem => exact .message rfl hk ha hj hi hmem
  · cases hx

theorem deliver (h : Ordered taken snapshots k₀ r k) (hx : r.deliver σ = some r') :
    ∃ k', Ordered taken snapshots k₀ r' k' := by
  have hf := h.flying
  have hcurrent := h.current
  unfold Replica.deliver at hx
  split at hx
  case h_2 => cases hx
  rename_i m hreading hloading
  cases hx
  rw [hloading] at hf
  generalize happlying : r.applying = out at hf
  cases hf with
  | command hmem hc hm hcommand hi =>
    refine ⟨k + 1, ?_, h.inOrder.append ?_, hcurrent⟩
    · exact .batch hc
    · rw [Continues, if_neg (by rw [hm]; decide), hcommand]
      exact ⟨rfl, hi, hmem⟩
  | message hm hk ha hj hi hmem =>
    refine ⟨m.snapshotIndex, ?_, h.inOrder.append ?_, hcurrent⟩
    · obtain heq | hlt := (ha.trans hj).eq_or_lt
      · refine .batch ?_
        rw [heq]
        exact .nil
      · exact .ahead hlt hi
    · rw [Continues, if_pos hm]
      exact ⟨rfl, _, hk.trans ha, hj, hmem⟩

theorem step (h : Ordered taken snapshots k₀ r k) {x : Replica.Action R D}
    (hx : r.step σ x = some r') (ht : x = .applier → r.raft.unapplied ⊆ taken)
    (hs : (r'.raft.lastIncludedIndex, r'.raft.snapshot) ∈ snapshots) :
    ∃ k', Ordered taken snapshots k₀ r' k' := by
  cases x with
  | append args =>
    obtain ⟨⟨rf, reply⟩, hr, rfl⟩ := Option.map_eq_some_iff.mp hx
    obtain ⟨hb, -, ha, -⟩ := Raft.appendEntries_cases hr
    exact ⟨k, h.setRaft ha hb.ge hs⟩
  | install args =>
    obtain ⟨⟨rf, reply⟩, hr, rfl⟩ := Option.map_eq_some_iff.mp hx
    obtain ⟨ha, ⟨-, hb, -⟩ | ⟨⟨-, hlt⟩, hb, -⟩⟩ := Raft.installSnapshot_cases hr
    · exact ⟨k, h.setRaft ha hb.ge hs⟩
    · exact ⟨k, h.setRaft ha (hb ▸ hlt.le) hs⟩
  | applier => exact ⟨k, h.applier hx (ht rfl)⟩
  | load => exact ⟨k, h.load hx⟩
  | deliver => exact h.deliver hx
  | finish grown =>
    change r.finish σ grown = some r' at hx
    unfold Replica.finish at hx
    split at hx
    · cases hx
    split at hx
    · obtain ⟨rf, hr, rfl⟩ := Option.map_eq_some_iff.mp hx
      obtain ⟨rfl, -⟩ | ⟨hlt, hb, -, -, ha, -⟩ := Raft.doSnapshot_cases hr
      · exact ⟨k, h.setRaft rfl le_rfl hs⟩
      · exact ⟨k, h.setRaft ha (hb ▸ hlt.le) hs⟩
    · cases hx
      exact ⟨k, h.setRaft rfl le_rfl hs⟩

end Ordered

/-- A step of `Kill` or of the check leaves the peer; any other one is a step of the peer. -/
inductive Stepped (σ : StateMachine R V S D) (s s' : Shutdown n R S D) : Prop
  | stays : s'.replica = s.replica → s'.taken = s.taken → s'.snapshots = s.snapshots →
    s'.made = s.made → Stepped σ s s'
  | applier : s.replica.applier = some s'.replica →
    s'.taken = s.taken ++ s.replica.raft.unapplied →
    s'.snapshots =
      s.snapshots ++ [(s'.replica.raft.lastIncludedIndex, s'.replica.raft.snapshot)] →
    s'.made = s.made → Stepped σ s s'
  | other {x : Replica.Action R D} : x ≠ .applier → s.replica.step σ x = some s'.replica →
    s'.taken = s.taken →
    s'.snapshots =
      s.snapshots ++ [(s'.replica.raft.lastIncludedIndex, s'.replica.raft.snapshot)] →
    s'.made = s.made → Stepped σ s s'

theorem stepped {x : Action R D} (h : s.step σ x = some s') : Stepped σ s s' := by
  unfold step at h
  split at h
  · cases h
  cases x with
  | peer x =>
    cases x with
    | applier =>
      simp only [peer] at h
      split at h
      · obtain ⟨r, hr, rfl⟩ := Option.map_eq_some_iff.mp h
        exact .applier hr rfl rfl rfl
      · cases h
    | load =>
      simp only [peer] at h
      split at h
      · obtain ⟨r, hr, rfl⟩ := Option.map_eq_some_iff.mp h
        exact .other (x := .load) (fun hx => by cases hx) hr rfl rfl rfl
      · cases h
    | deliver =>
      simp only [peer] at h
      split at h
      · obtain ⟨r, hr, rfl⟩ := Option.map_eq_some_iff.mp h
        exact .other (x := .deliver) (fun hx => by cases hx) hr rfl rfl rfl
      · cases h
    | append args =>
      obtain ⟨r, hr, rfl⟩ := Option.map_eq_some_iff.mp h
      exact .other (x := .append args) (fun hx => by cases hx) hr rfl rfl rfl
    | install args =>
      obtain ⟨r, hr, rfl⟩ := Option.map_eq_some_iff.mp h
      exact .other (x := .install args) (fun hx => by cases hx) hr rfl rfl rfl
    | finish grown =>
      obtain ⟨r, hr, rfl⟩ := Option.map_eq_some_iff.mp h
      exact .other (x := .finish grown) (fun hx => by cases hx) hr rfl rfl rfl
  | check =>
    simp only [check] at h
    split at h
    · cases h
      split <;> exact .stays rfl rfl rfl rfl
    · cases h
  | send =>
    simp only [send] at h
    split at h
    · split at h <;> cases h
      exact .stays rfl rfl rfl rfl
    · cases h
  | kill =>
    cases h
    exact .stays rfl rfl rfl rfl
  | close =>
    simp only [close] at h
    split at h <;> cases h
    exact .stays rfl rfl rfl rfl

/-! ## The order of the messages -/

/-- The commands of a round lie between the indices before and after it. -/
theorem unapplied_bounds {C : Type} {rf rf' : Raft n C D} {out : List (Outgoing C)}
    (h : rf.applier = some (rf', out)) {p : ℤ × Option C} (hp : p ∈ rf.unapplied) :
    rf.lastApplied < p.1 ∧ p.1 ≤ rf'.lastApplied := by
  unfold Raft.unapplied at hp
  split at hp
  · cases hp
  rename_i hle
  obtain ⟨i, hi, hp⟩ := List.mem_filterMap.mp hp
  obtain ⟨e, -, rfl⟩ := Option.map_eq_some_iff.mp hp
  rw [List.mem_range] at hi
  rw [Raft.applier, if_neg hle, if_pos (by omega)] at h
  obtain ⟨es, -, h⟩ := Option.bind_eq_some_iff.mp h
  cases h
  dsimp only
  omega

theorem pairwise_unapplied {C : Type} (rf : Raft n C D) :
    rf.unapplied.Pairwise fun p q => p.1 < q.1 := by
  unfold Raft.unapplied
  split
  · exact .nil
  · refine List.pairwise_filterMap.mpr (List.pairwise_lt_range.imp fun {i j} hij p hp q hq => ?_)
    obtain ⟨e, -, rfl⟩ := Option.map_eq_some_iff.mp hp
    obtain ⟨e', -, rfl⟩ := Option.map_eq_some_iff.mp hq
    dsimp only
    omega

/-- Only the applier moves `lastApplied`. -/
theorem step_lastApplied {x : Replica.Action R D} (hne : x ≠ .applier)
    (hx : r.step σ x = some r') : r'.raft.lastApplied = r.raft.lastApplied := by
  cases x with
  | append args =>
    obtain ⟨⟨rf, reply⟩, hr, rfl⟩ := Option.map_eq_some_iff.mp hx
    exact (Raft.appendEntries_cases hr).2.2.1
  | install args =>
    obtain ⟨⟨rf, reply⟩, hr, rfl⟩ := Option.map_eq_some_iff.mp hx
    exact (Raft.installSnapshot_cases hr).1
  | applier => exact absurd rfl hne
  | load =>
    change r.load = some r' at hx
    unfold Replica.load at hx
    split at hx <;> cases hx <;> rfl
  | deliver =>
    change r.deliver σ = some r' at hx
    unfold Replica.deliver at hx
    split at hx <;> cases hx
    rfl
  | finish grown =>
    change r.finish σ grown = some r' at hx
    unfold Replica.finish at hx
    split at hx
    · cases hx
    split at hx
    · obtain ⟨rf, hr, rfl⟩ := Option.map_eq_some_iff.mp hx
      obtain ⟨rfl, -⟩ | ⟨-, -, -, -, ha, -⟩ := Raft.doSnapshot_cases hr
      · rfl
      · exact ha
    · cases hx
      rfl

/-- What `reader` has got, and what the applier has taken. -/
structure Tracked (s : Shutdown n R S D) : Prop where
  ordered : ∃ k, Ordered s.taken s.snapshots s.made s.replica k
  le : ∀ p ∈ s.taken, p.1 ≤ s.replica.raft.lastApplied
  sorted : s.taken.Pairwise fun p q => p.1 < q.1

theorem Tracked.step (h : s.Tracked) (hst : Stepped σ s s') : s'.Tracked := by
  obtain ⟨k, ho⟩ := h.ordered
  cases hst with
  | stays hr ht hs hm =>
    refine ⟨⟨k, ?_⟩, ?_, ?_⟩
    · rw [hr, ht, hs, hm]
      exact ho
    · rw [hr, ht]
      exact h.le
    · rw [ht]
      exact h.sorted
  | applier hr ht hs hm =>
    have hraft := hr
    unfold Replica.applier at hraft
    split at hraft
    case h_2 => cases hraft
    obtain ⟨⟨rf, out⟩, hrun, hr'⟩ := Option.map_eq_some_iff.mp hraft
    have hbounds {p} (hp : p ∈ s.replica.raft.unapplied) :
        s.replica.raft.lastApplied < p.1 ∧ p.1 ≤ s'.replica.raft.lastApplied := by
      rw [← hr']
      exact unapplied_bounds hrun hp
    have hle : s.replica.raft.lastApplied ≤ s'.replica.raft.lastApplied := by
      rw [← hr']
      obtain ⟨hlt, rfl, -⟩ | ⟨-, hlt, rfl, -⟩ | ⟨rfl, -⟩ := Raft.applier_cases hrun
      · exact hlt.le
      · exact hlt.le
      · exact le_rfl
    refine ⟨⟨k, ?_⟩, fun p hp => ?_, ?_⟩
    · rw [ht, hs, hm]
      exact (ho.mono (List.subset_append_left _ _) (List.subset_append_left _ _)).applier hr
        (List.subset_append_right s.taken _)
    · rw [ht] at hp
      obtain hp | hp := List.mem_append.mp hp
      · exact (h.le p hp).trans hle
      · exact (hbounds hp).2
    · rw [ht]
      exact List.pairwise_append.mpr ⟨h.sorted, pairwise_unapplied _,
        fun p hp q hq => (h.le p hp).trans_lt (hbounds hq).1⟩
  | other hne hr ht hs hm =>
    have hlast := step_lastApplied hne hr
    refine ⟨?_, ?_, ?_⟩
    · rw [ht, hs, hm]
      exact (ho.mono (List.Subset.refl _) (List.subset_append_left _ _)).step hr
        (fun hx => absurd hx hne) (List.mem_append_right _ (List.mem_singleton.mpr rfl))
    · rw [ht, hlast]
      exact h.le
    · rw [ht]
      exact h.sorted

variable {sm : S}

/-- `reader` gets the messages in their order, whenever the peer is killed. -/
theorem in_order {ok : Shutdown n R S D → Action R D → Prop}
    (hs : (machine σ n sm).Reach ok s) : s.Received := by
  have h : s.Tracked := by
    refine hs.invariant (fun s h0 => ?_) fun s x s' _ h _ hst => h.step (stepped hst)
    obtain ⟨me, persister, rfl⟩ := h0
    refine ⟨⟨_, .batch .nil, rfl, List.mem_singleton.mpr rfl⟩, fun p hp => ?_, .nil⟩
    cases hp
  obtain ⟨k, ho⟩ := h.ordered
  exact ⟨⟨k, ho.inOrder⟩, h.sorted⟩

/-! ## The channel -/

theorem load_isIdle (h : r.load = some r') (hi : r.loading.isIdle = true) :
    r.applying.isEmpty = false := by
  unfold Replica.load at h
  split at h
  · rename_i happlying
    rw [happlying]
    rfl
  · rename_i happlying
    rw [happlying]
    rfl
  · rename_i hloading
    rw [hloading] at hi
    cases hi
  · rename_i hloading
    rw [hloading] at hi
    cases hi
  · cases h

/-- The applier sends only what it has begun to send. -/
theorem Safe.step (h : s.Safe) {x : Action R D} (hok : s.Calm x) (hst : s.step σ x = some s') :
    s'.Safe := by
  unfold Shutdown.step at hst
  rw [if_neg (by rw [h.alive]; decide)] at hst
  cases x with
  | peer x =>
    -- a step that leaves the calls of `Kill`
    have hkeep {r : Replica n R S D} {checked : Bool} {taken : List (ℤ × Option (RSM.Op R))}
        (hsend : s.closes ≠ 0 → Sending { s with replica := r, checked := checked } → s.Sending) :
        Safe { s.setReplica r with checked := checked, taken := taken } :=
      ⟨h.alive, h.once, h.killed, fun hc => ⟨(h.closed hc).1, fun hs => (h.closed hc).2 (hsend hc hs)⟩⟩
    cases x with
    | applier =>
      simp only [peer] at hst
      split at hst
      · obtain ⟨r, hr, rfl⟩ := Option.map_eq_some_iff.mp hst
        refine hkeep fun _ hs => .inl (hs.elim (fun hl => ?_) fun hl => by cases hl.1)
        unfold Replica.applier at hr
        split at hr
        · obtain ⟨rf, -, rfl⟩ := Option.map_eq_some_iff.mp hr
          exact hl
        · cases hr
      · cases hst
    | load =>
      simp only [peer] at hst
      split at hst
      · rename_i hguard
        obtain ⟨r, hr, rfl⟩ := Option.map_eq_some_iff.mp hst
        refine hkeep fun _ _ => ?_
        cases hi : s.replica.loading.isIdle with
        | false => exact .inl hi
        | true =>
          refine .inr ⟨hguard.resolve_right (by rw [hi]; decide), load_isIdle hr hi⟩
      · cases hst
    | deliver =>
      simp only [peer] at hst
      split at hst
      · rename_i hclosed
        obtain ⟨r, hr, rfl⟩ := Option.map_eq_some_iff.mp hst
        exact hkeep fun hc => absurd hclosed hc
      · cases hst
    | append args =>
      obtain ⟨r, hr, rfl⟩ := Option.map_eq_some_iff.mp hst
      obtain ⟨rf, -, rfl⟩ := Option.map_eq_some_iff.mp hr
      exact hkeep fun _ hs => hs
    | install args =>
      obtain ⟨r, hr, rfl⟩ := Option.map_eq_some_iff.mp hst
      obtain ⟨rf, -, rfl⟩ := Option.map_eq_some_iff.mp hr
      exact hkeep fun _ hs => hs
    | finish grown =>
      obtain ⟨r, hr, rfl⟩ := Option.map_eq_some_iff.mp hst
      refine hkeep fun _ hs => ?_
      change s.replica.finish σ grown = some r at hr
      unfold Replica.finish at hr
      split at hr
      · cases hr
      split at hr
      · obtain ⟨rf, -, rfl⟩ := Option.map_eq_some_iff.mp hr
        exact hs
      · cases hr
        exact hs
  | check =>
    simp only [check] at hst
    split at hst
    · cases hst
      split
      · exact ⟨h.alive, h.once, h.killed, h.closed⟩
      · rename_i hdead
        exact ⟨h.alive, h.once, h.killed, fun hc => absurd (h.closed hc).1 hdead⟩
    · cases hst
  | send =>
    simp only [send] at hst
    split at hst
    · rename_i hloading
      split at hst
      · cases hst
      · rename_i hclosed
        refine absurd (.inl ?_) (h.closed hclosed).2
        rw [hloading]
        rfl
    · cases hst
  | kill =>
    cases hst
    exact ⟨h.alive, h.once, fun _ => rfl, fun hc => ⟨rfl, (h.closed hc).2⟩⟩
  | close =>
    obtain ⟨hclosed, hsend⟩ := hok
    simp only [close] at hst
    split at hst
    · cases hst
    · rename_i hk
      cases hst
      refine ⟨decide_eq_false (not_not.mpr hclosed), ?_, fun _ => h.killed hk,
        fun _ => ⟨h.killed hk, hsend⟩⟩
      change s.closes + 1 ≤ 1
      omega

/-- **Shutdown is safe** if the channel is closed once, and not between the applier's look at the
flag and the end of the send. -/
theorem shutdown_safe (hs : (machine σ n sm).Reach Calm s) :
    s.panicked = false ∧ s.closes ≤ 1 ∧ s.Received := by
  have hsafe : s.Safe := by
    refine hs.invariant (fun s h0 => ?_) fun _ _ _ _ h hok hst => h.step hok hst
    obtain ⟨me, persister, rfl⟩ := h0
    exact ⟨rfl, Nat.zero_le 1, fun hk => absurd rfl hk, fun hc => absurd rfl hc⟩
  exact ⟨hsafe.alive, hsafe.once, in_order hs⟩

variable (σ) in
/-- The applier goes on to its send. -/
def Goes (s s' : Shutdown n R S D) : Prop :=
  s.step σ (.peer .load) = some s' ∨ s.step σ .send = some s'

variable (σ s) in
/-- The applier panics at the end of what it has begun. -/
def Panics : Prop := ∃ s', Relation.ReflTransGen (Goes σ) s s' ∧ s'.panicked = true

theorem Panics.of_load {l : Loading (RSM.Op R) D} (hp : s.panicked = false)
    (hguard : s.checked = true ∨ s.replica.loading.isIdle = false)
    (hr : s.replica.load = some { s.replica with loading := l })
    (h : Panics σ { s.setReplica { s.replica with loading := l } with checked := false }) :
    Panics σ s := by
  obtain ⟨s', hs', hpanic⟩ := h
  refine ⟨s', .head (.inl ?_) hs', hpanic⟩
  simp only [step, hp, Bool.false_eq_true, if_false, peer]
  rw [if_pos hguard, hr]
  rfl

section Sends

variable (hp : s.panicked = false) (hc : s.closes ≠ 0)

include hp hc

theorem panics_of_message {m : ApplyMsg (RSM.Op R) D} (hl : s.replica.loading = .message m) :
    Panics σ s := by
  refine ⟨{ s with panicked := true }, .single (.inr ?_), rfl⟩
  simp only [step, hp, Bool.false_eq_true, if_false, send, hl]
  rw [if_neg hc]

theorem panics_of_index {data : Option D} {i : ℤ} (hl : s.replica.loading = .index data i) :
    Panics σ s := by
  refine .of_load (l := .message {
    snapshotValid := true, snapshot := data, snapshotIndex := i
    snapshotTerm := s.replica.raft.lastIncludedTerm }) hp (.inr ?_) ?_ ?_
  · rw [hl]
    rfl
  · simp only [Replica.load, hl]
  · exact panics_of_message hp hc rfl

theorem panics_of_snapshot {data : Option D} (hl : s.replica.loading = .snapshot data) :
    Panics σ s := by
  refine .of_load (l := .index data s.replica.raft.lastIncludedIndex) hp (.inr ?_) ?_ ?_
  · rw [hl]
    rfl
  · simp only [Replica.load, hl]
  · exact panics_of_index hp hc rfl

/-- The applier sends on the closed channel what it has begun to send. -/
theorem panics_of_sending (hs : s.Sending) : Panics σ s := by
  cases hl : s.replica.loading with
  | message m => exact panics_of_message hp hc hl
  | index data i => exact panics_of_index hp hc hl
  | snapshot data => exact panics_of_snapshot hp hc hl
  | idle =>
    unfold Sending at hs
    rw [hl] at hs
    obtain hidle | ⟨hchecked, hne⟩ := hs
    · cases hidle
    cases ha : s.replica.applying with
    | nil =>
      rw [ha] at hne
      cases hne
    | cons o rest =>
      cases o with
      | snapshot =>
        refine .of_load (l := .snapshot s.replica.raft.snapshot) hp (.inl hchecked) ?_ ?_
        · simp only [Replica.load, hl, ha]
        · exact panics_of_snapshot hp hc rfl
      | command c i =>
        refine .of_load (l := .message { commandValid := true, command := c, commandIndex := i }) hp
          (.inl hchecked) ?_ ?_
        · simp only [Replica.load, hl, ha]
        · exact panics_of_message hp hc rfl

end Sends

/-- A close at another time ends in a panic. -/
theorem panics_of_close (h : s.Safe) (hcalm : ¬ s.Calm .close)
    (hst : s.step σ .close = some s') : Panics σ s' := by
  unfold step at hst
  rw [if_neg (by rw [h.alive]; decide)] at hst
  simp only [close] at hst
  split at hst
  · cases hst
  cases hst
  by_cases hc : s.closes = 0
  · have hs : s.Sending := by
      by_contra hs
      exact hcalm ⟨hc, hs⟩
    exact panics_of_sending (decide_eq_false (not_not.mpr hc)) (Nat.succ_ne_zero _) hs
  · exact ⟨_, .refl, decide_eq_true hc⟩

/-! ## One command -/

/-- The peer commits one entry of its leader, and the applier takes it. -/
def committed : List (Action (Cmd ℕ) (Sessions ℕ)) :=
  [.peer (.append ⟨1, 0, 0, 0, [⟨1, some ⟨.session ⟨"create", "c", "u", ""⟩, 1⟩⟩], 1⟩), .check,
    .peer .applier]

/-- `Kill` sets its flag while the applier waits in its send; `reader` gets the message before the
channel is closed, and the applier returns. -/
theorem shutdown_safe_received : ∃ s : Shutdown 3 (Cmd ℕ) (Sessions ℕ) (Sessions ℕ),
    (s.replica.handled.length = 1 ∧ s.closes = 1 ∧ s.returned = true) ∧ s.panicked = false ∧
      s.closes ≤ 1 ∧ s.Received := by
  obtain ⟨s, hs, hv⟩ := (machine (collabServer ℕ) 3 fun _ => none).reach_of_run Calm
    (f := fun s => (s.replica.handled.length, s.closes, s.returned)) (v := (1, 1, true))
    (committed ++ [.check, .peer .load, .kill, .peer .deliver, .close, .check])
    ⟨0, ⟨none, none⟩, rfl⟩ rfl
  simp only [Prod.mk.injEq] at hv
  exact ⟨s, hv, shutdown_safe hs⟩

/-- `Kill` comes as a whole while the applier waits in its send. -/
theorem kill_panics : ¬ ∀ s : Shutdown 3 (Cmd ℕ) (Sessions ℕ) (Sessions ℕ),
    (machine (collabServer ℕ) 3 fun _ => none).Reachable s → s.panicked = false := by
  intro h
  obtain ⟨s, hs, hv⟩ := (machine (collabServer ℕ) 3 fun _ => none).reach_of_run (fun _ _ => True)
    (f := fun s => s.panicked) (v := true)
    (committed ++ [.check, .peer .load, .kill, .close, .send])
    ⟨0, ⟨none, none⟩, rfl⟩ rfl
  exact absurd (h s hs) (by rw [hv]; decide)

end Shutdown

end CollabIde
