import CollabIde.Raft.CommitRule

/-!
# Fast backtracking repairs a follower

A leader exchanges messages with one follower alone (`exchange`): what `heartbeatTo` chooses, the
follower's handler, the leader's reply handler. `nextIndex` falls with a conflicting term and with a
short log, and rises behind a snapshot; yet from any two logs that match where they share a term
(`Repairable`) it comes to a successful append in finitely many exchanges, and the two logs agree.

An exchange with `nextIndex` in the log either succeeds, or lowers `nextIndex`, or sets it behind
the follower's snapshot, where the next append succeeds; a snapshot leaves the next append or the one
after it to succeed. So `nextIndex` is the measure, and the snapshots are the ends of the recursion.
-/

namespace CollabIde.Raft

variable {n : ℕ} {C D : Type}

/-! ## Exchanges -/

/-- One exchange of the leader with the follower `j`: the new states, and whether an append has
succeeded. -/
def exchange (j : Fin n) (leader follower : Raft n C D) :
    Option (Raft n C D × Raft n C D × Bool) :=
  if leader.currentRole ≠ .leader then none
  else (leader.heartbeatTo j).bind fun
    | .append args => do
      let (follower, reply) ← follower.appendEntries args
      let leader ← leader.appendReply j args reply
      some (leader, follower, reply.success)
    | .snapshot args => do
      let (follower, reply) ← follower.installSnapshot args
      some (leader.snapshotReply j args reply, follower, false)

/-- At most `k` exchanges, up to the first append that succeeds. -/
def exchanges (j : Fin n) : ℕ → Raft n C D → Raft n C D → Option (Raft n C D × Raft n C D × Bool)
  | 0, leader, follower => some (leader, follower, false)
  | k + 1, leader, follower => do
    let (leader, follower, success) ← exchange j leader follower
    if success then some (leader, follower, true) else exchanges j k leader follower

/-! ## Two logs -/

/-- The log of a peer: a sentinel with the snapshot's last term, and terms that do not decrease. -/
structure LogSound (rf : Raft n C D) : Prop where
  sentinel : ∃ e rest, rf.log = e :: rest ∧ e.term = rf.lastIncludedTerm
  index_nonneg : 0 ≤ rf.lastIncludedIndex
  term_nonneg : 0 ≤ rf.lastIncludedTerm
  sorted : CollabIde.Sorted rf.log

/-- The logs agree on the index if both hold it; where one has only its sentinel, on the term. -/
def AgreeAt (rf rf' : Raft n C D) (i : ℤ) : Prop :=
  ∀ e e', rf.entry i = some e → rf'.entry i = some e' → e.term = e'.term ∧
    (rf.lastIncludedIndex < i → rf'.lastIncludedIndex < i → e = e')

/-- Where the one log has a term that the other has there or later, they agree up to that index. -/
def Matching (rf rf' : Raft n C D) : Prop :=
  ∀ p q e e', p ≤ q → rf.entry p = some e → rf'.entry q = some e' → e.term = e'.term →
    ∀ i ≤ p, rf.AgreeAt rf' i

/-- A leader and a follower whose logs may have diverged. In the runs of a cluster no
snapshot is past its peer's commit index, and none has a negative index or term (`InBounds` in
`Raft/Bounds`). -/
structure Repairable (j : Fin n) (leader follower : Raft n C D) : Prop where
  leads : leader.currentRole = .leader
  leader_sound : leader.LogSound
  follower_sound : follower.LogSound
  committed : leader.lastIncludedIndex ≤ leader.commitIndex
  matching : leader.Matching follower
  matching' : follower.Matching leader
  base : follower.lastIncludedIndex ≤ leader.lastLogIndex
  base_term : ∀ e, leader.entry follower.lastIncludedIndex = some e →
    e.term = follower.lastIncludedTerm
  term : follower.currentTerm ≤ leader.currentTerm
  next : leader.nextIndex j ≤ leader.lastLogIndex + 1

/-- The follower has the leader's log, and the leader knows. -/
structure Repaired (j : Fin n) (leader leader' follower' : Raft n C D) : Prop where
  log : leader'.log = leader.log
  base : leader'.lastIncludedIndex = leader.lastIncludedIndex
  matched : leader'.matchIndex j = leader'.lastLogIndex
  last : follower'.lastLogIndex = leader'.lastLogIndex
  agree : ∀ i, leader'.AgreeAt follower' i

/-- Finitely many exchanges repair the follower. -/
def Repairs (j : Fin n) (leader follower : Raft n C D) : Prop :=
  ∃ k leader' follower', exchanges j k leader follower = some (leader', follower', true) ∧
    Repaired j leader leader' follower'

variable {j : Fin n} {leader follower rf rf' : Raft n C D}

namespace LogSound

theorem entry_base (h : rf.LogSound) :
    ∃ e, rf.entry rf.lastIncludedIndex = some e ∧ e.term = rf.lastIncludedTerm := by
  obtain ⟨e, rest, hlog, hterm⟩ := h.sentinel
  refine ⟨e, ?_, hterm⟩
  rw [entry_eq_getElem? le_rfl, sub_self, hlog]
  rfl

theorem base_le_last (h : rf.LogSound) : rf.lastIncludedIndex ≤ rf.lastLogIndex := by
  obtain ⟨e, he, -⟩ := h.entry_base
  exact (bounds_of_entry he).2

theorem entry_term_nonneg (h : rf.LogSound) {i : ℤ} {e : LogEntry C} (he : rf.entry i = some e) :
    0 ≤ e.term := by
  obtain ⟨s, rest, hlog, hterm⟩ := h.sentinel
  have hs : ∀ e ∈ rest, s.term ≤ e.term := (List.pairwise_cons.mp (hlog ▸ h.sorted)).1
  obtain rfl | hmem := List.mem_cons.mp (hlog ▸ mem_of_entry he)
  · rw [hterm]
    exact h.term_nonneg
  · exact (hterm ▸ h.term_nonneg).trans (hs e hmem)

end LogSound

/-- Two states with one log. -/
structure SameLog (rf rf' : Raft n C D) : Prop where
  log : rf.log = rf'.log
  index : rf.lastIncludedIndex = rf'.lastIncludedIndex
  term : rf.lastIncludedTerm = rf'.lastIncludedTerm

namespace SameLog

theorem entry (h : rf.SameLog rf') : rf.entry = rf'.entry := by
  funext i
  rw [Raft.entry, Raft.entry, logIndex, logIndex, h.log, h.index]

theorem lastLogIndex (h : rf.SameLog rf') : rf.lastLogIndex = rf'.lastLogIndex := by
  rw [Raft.lastLogIndex, Raft.lastLogIndex, h.log, h.index]

theorem sound (h : rf.SameLog rf') (hs : rf'.LogSound) : rf.LogSound :=
  ⟨by rw [h.log, h.term]; exact hs.sentinel, by rw [h.index]; exact hs.index_nonneg,
    by rw [h.term]; exact hs.term_nonneg, by rw [h.log]; exact hs.sorted⟩

end SameLog

/-- `nextIndex` and `matchIndex` of the leader, and the follower's term and role, do not matter. -/
theorem Repairable.congr {leader' follower' : Raft n C D} (h : Repairable j leader follower)
    (hl : leader'.SameLog leader) (hf : follower'.SameLog follower)
    (hrole : leader'.currentRole = leader.currentRole)
    (hcommit : leader'.commitIndex = leader.commitIndex)
    (hterm : follower'.currentTerm ≤ leader'.currentTerm)
    (hnext : leader'.nextIndex j ≤ leader'.lastLogIndex + 1) : Repairable j leader' follower' where
  leads := hrole.trans h.leads
  leader_sound := hl.sound h.leader_sound
  follower_sound := hf.sound h.follower_sound
  committed := by rw [hl.index, hcommit]; exact h.committed
  matching := by
    unfold Matching AgreeAt
    rw [hl.entry, hf.entry, hl.index, hf.index]
    exact h.matching
  matching' := by
    unfold Matching AgreeAt
    rw [hl.entry, hf.entry, hl.index, hf.index]
    exact h.matching'
  base := by rw [hf.index, hl.lastLogIndex]; exact h.base
  base_term := by rw [hl.entry, hf.index, hf.term]; exact h.base_term
  term := hterm
  next := hnext

/-! ## Running exchanges -/

/-- An exchange whose append does not succeed is followed by more. -/
theorem Repairs.of_exchange {leader' follower' : Raft n C D}
    (hx : exchange j leader follower = some (leader', follower', false))
    (hlog : leader'.log = leader.log)
    (hbase : leader'.lastIncludedIndex = leader.lastIncludedIndex)
    (h : Repairs j leader' follower') : Repairs j leader follower := by
  obtain ⟨k, l, f, hk, hr⟩ := h
  refine ⟨k + 1, l, f, ?_, ⟨hr.log.trans hlog, hr.base.trans hbase, hr.matched, hr.last, hr.agree⟩⟩
  rw [exchanges, hx]
  exact hk

/-- One exchange may suffice. -/
theorem Repairs.of_success {leader' follower' : Raft n C D}
    (hx : exchange j leader follower = some (leader', follower', true))
    (h : Repaired j leader leader' follower') : Repairs j leader follower := by
  refine ⟨1, leader', follower', ?_, h⟩
  rw [exchanges, hx]
  rfl

/-- What the leader sends while `nextIndex` is in its log. -/
theorem heartbeatTo_append (hlt : leader.lastIncludedIndex < leader.nextIndex j)
    (hle : leader.nextIndex j ≤ leader.lastLogIndex + 1) :
    ∃ args e, leader.heartbeatTo j = some (.append args) ∧ args.term = leader.currentTerm ∧
      args.prevLogIndex = leader.nextIndex j - 1 ∧
      leader.entry (leader.nextIndex j - 1) = some e ∧ args.prevLogTerm = e.term ∧
      leader.entriesFrom (leader.nextIndex j) = some args.entries := by
  obtain ⟨e, he⟩ := leader.entry_isSome (i := leader.nextIndex j - 1) (by omega) (by omega)
  obtain ⟨es, hes⟩ := leader.entriesFrom_isSome (i := leader.nextIndex j) (by omega) hle
  refine ⟨⟨leader.currentTerm, leader.me, leader.nextIndex j - 1, e.term, es, leader.commitIndex⟩,
    e, ?_, rfl, rfl, he, rfl, hes⟩
  rw [heartbeatTo, if_neg hlt.not_ge, he, hes]
  rfl

theorem exchange_append {leader' follower' : Raft n C D} {args : AppendEntriesArgs C}
    {reply : AppendEntriesReply} (hl : leader.currentRole = .leader)
    (hm : leader.heartbeatTo j = some (.append args))
    (hf : follower.appendEntries args = some (follower', reply))
    (hr : leader.appendReply j args reply = some leader') :
    exchange j leader follower = some (leader', follower', reply.success) := by
  rw [exchange, if_neg (by rw [hl]; exact fun h => h rfl), hm, Option.bind_some]
  simp only [hf, Option.bind_eq_bind, Option.bind_some, hr]

/-- A follower with no later term follows the sender of an append. -/
theorem appendEntries_followed {args : AppendEntriesArgs C} (ht : rf.currentTerm ≤ args.term) :
    ∃ rf₁ : Raft n C D, rf₁.SameLog rf ∧ rf₁.currentTerm = args.term ∧
      rf.appendEntries args = rf₁.appendEntriesRest args := by
  obtain ⟨hlog, hindex, hterm, -⟩ := rf.appendEntriesTerm_log args
  refine ⟨{ rf.appendEntriesTerm args with currentRole := .follower }, ⟨hlog, hindex, hterm⟩,
    ?_, ?_⟩
  · change (rf.appendEntriesTerm args).currentTerm = args.term
    unfold appendEntriesTerm
    split
    · rfl
    · omega
  · rw [appendEntries, if_neg ht.not_gt]

/-- What stands in a log that was cut behind `p` and continued with the entries of another log. -/
theorem entry_spliced {p : ℤ} {kept es : List (LogEntry C)} (hkept : rf.entriesTo p = some kept)
    (hes : leader.entriesFrom (p + 1) = some es) (hlog : rf'.log = kept ++ es)
    (hbase : rf'.lastIncludedIndex = rf.lastIncludedIndex) (i : ℤ) :
    rf'.entry i = if i ≤ p then rf.entry i else leader.entry i := by
  have hlen := slice_length hkept
  unfold entriesTo slice at hkept
  unfold entriesFrom slice at hes
  split at hkept
  · rename_i hto
    split at hes
    · rename_i hfrom
      rw [Option.some.injEq] at hkept hes
      rw [List.take_of_length_le (by rw [List.length_drop]; omega)] at hes
      rw [Int.toNat_zero, List.drop_zero, sub_zero] at hkept
      unfold logIndex at *
      by_cases hi : rf.lastIncludedIndex ≤ i
      · rw [entry_eq_getElem? (by omega), hbase, hlog]
        by_cases hip : i ≤ p
        · rw [if_pos hip, entry_eq_getElem? hi, List.getElem?_append_left (by omega), ← hkept,
            List.getElem?_take, if_pos (by omega)]
        · rw [if_neg hip, entry_eq_getElem? (by omega), List.getElem?_append_right (by omega),
            ← hes, List.getElem?_drop]
          congr 1
          omega
      · have hnone {rf : Raft n C D} (hlt : i < rf.lastIncludedIndex) : rf.entry i = none := by
          rw [entry, get_eq_none_iff, logIndex]
          omega
        rw [hnone (by omega), if_pos (by omega), hnone (by omega)]
    · cases hes
  · cases hkept

/-! ## The four kinds of exchange -/

/-- An append that finds its `PrevLogIndex` matched repairs the follower. -/
theorem repairs_of_match {e e' : LogEntry C} (hl : leader.currentRole = .leader)
    (hcommit : leader.lastIncludedIndex ≤ leader.commitIndex)
    (hterm : follower.currentTerm ≤ leader.currentTerm)
    (hlt : leader.lastIncludedIndex < leader.nextIndex j)
    (hle : leader.nextIndex j ≤ leader.lastLogIndex + 1)
    (he : leader.entry (leader.nextIndex j - 1) = some e)
    (he' : follower.entry (leader.nextIndex j - 1) = some e') (hee' : e.term = e'.term)
    (hagree : ∀ i ≤ leader.nextIndex j - 1, leader.AgreeAt follower i) :
    Repairs j leader follower := by
  obtain ⟨args, e₀, hm, hterm₀, hprev, he₀, hprevTerm, hes⟩ := heartbeatTo_append hlt hle
  cases he.symm.trans he₀
  obtain ⟨f, hsame, hft, hrun⟩ := appendEntries_followed (hterm₀ ▸ hterm)
  obtain ⟨hb1, hb2⟩ := bounds_of_entry he'
  rw [← hsame.entry] at he'
  rw [← hsame.lastLogIndex] at hb2
  rw [← hsame.index] at hb1
  rw [← hprev] at hb1 hb2 he' hagree
  -- the follower's answer
  obtain ⟨kept, hkept⟩ := f.entriesTo_isSome hb1 hb2
  have hes' : leader.entriesFrom (args.prevLogIndex + 1) = some args.entries := by
    rw [hprev, sub_add_cancel]
    exact hes
  have hnew : ∃ f',
      f.appendEntriesRest args = some (f', { term := f.currentTerm, success := true }) ∧
      f'.log = kept ++ args.entries ∧ f'.lastIncludedIndex = f.lastIncludedIndex := by
    rw [appendEntriesRest, if_neg hb2.not_gt, if_neg hb1.not_gt, he', Option.bind_eq_bind,
      Option.bind_some, if_neg (not_not.mpr (hee'.symm.trans hprevTerm.symm)), appendNew, hkept]
    exact ⟨_, rfl, rfl, rfl⟩
  obtain ⟨f', hf', hlog, hbase⟩ := hnew
  -- the leader's part
  have hlast : args.prevLogIndex + args.entries.length = leader.lastLogIndex := by
    rw [slice_length hes', logIndex, lastLogIndex]
    omega
  obtain ⟨l, hlr⟩ : ∃ l, l = { leader with
      nextIndex := Function.update leader.nextIndex j
        (args.prevLogIndex + args.entries.length + 1)
      matchIndex := Function.update leader.matchIndex j
        (args.prevLogIndex + args.entries.length) } := ⟨_, rfl⟩
  have hlcommit : l.lastIncludedIndex ≤ l.commitIndex := by
    rw [hlr]
    exact hcommit
  obtain ⟨c, hc⟩ := exists_newCommitIndex args.term hlcommit
  have hreply : leader.appendReply j args { term := f.currentTerm, success := true } =
      some { l with commitIndex := c } := by
    rw [appendReply, if_neg hft.le.not_gt, if_neg (by rw [hterm₀, hl]; simp), if_pos rfl, advance,
      ← hlr, hc]
    rfl
  refine .of_success (exchange_append hl hm (hrun.trans hf') hreply) ?_
  have hentry := entry_spliced hkept hes' hlog hbase
  subst hlr
  refine ⟨rfl, rfl, (Function.update_self ..).trans hlast, ?_, fun i e₁ e₂ h1 h2 => ?_⟩
  · have h1 := slice_length hkept
    have h2 := slice_length hes'
    change f'.lastLogIndex = leader.lastLogIndex
    unfold lastLogIndex logIndex at *
    rw [hlog, hbase, List.length_append]
    push_cast
    omega
  · change leader.entry i = some e₁ at h1
    change e₁.term = e₂.term ∧ (leader.lastIncludedIndex < i → f'.lastIncludedIndex < i → e₁ = e₂)
    rw [hentry] at h2
    rw [hbase, hsame.index]
    split at h2
    · rename_i hi
      rw [hsame.entry] at h2
      exact hagree i hi _ _ h1 h2
    · cases h1.symm.trans h2
      exact ⟨rfl, fun _ _ => rfl⟩

/-- An append that fails moves `nextIndex` as `retreat` says. -/
theorem exchange_retreat {leader' follower' : Raft n C D} {args : AppendEntriesArgs C}
    {reply : AppendEntriesReply} (hl : leader.currentRole = .leader)
    (hm : leader.heartbeatTo j = some (.append args)) (hterm : args.term = leader.currentTerm)
    (hf : follower.appendEntries args = some (follower', reply)) (hle : reply.term ≤ args.term)
    (hfail : reply.success = false) (hr : leader.retreat j reply = some leader') :
    exchange j leader follower = some (leader', follower', false) := by
  rw [← hfail]
  refine exchange_append hl hm hf ?_
  rw [appendReply, if_neg hle.not_gt, if_neg (by rw [hterm, hl]; simp),
    if_neg (by rw [hfail]; decide), hr]

/-- The leader with another `nextIndex`. -/
theorem Repairable.retreat {follower' : Raft n C D} {i : ℤ} (h : Repairable j leader follower)
    (hf : follower'.SameLog follower) (hterm : follower'.currentTerm ≤ leader.currentTerm)
    (hi : i ≤ leader.lastLogIndex + 1) :
    Repairable j { leader with nextIndex := Function.update leader.nextIndex j i } follower' := by
  refine h.congr ⟨rfl, rfl, rfl⟩ hf rfl rfl hterm ?_
  change Function.update leader.nextIndex j i j ≤ leader.lastLogIndex + 1
  rw [Function.update_self]
  exact hi

/-- Right behind the follower's snapshot the logs match. -/
theorem repairs_at_base (h : Repairable j leader follower)
    (hb : leader.lastIncludedIndex ≤ follower.lastIncludedIndex)
    (hi : leader.nextIndex j = follower.lastIncludedIndex + 1) : Repairs j leader follower := by
  have hprev : leader.nextIndex j - 1 = follower.lastIncludedIndex := by omega
  obtain ⟨e, he⟩ := leader.entry_isSome hb h.base
  obtain ⟨e', he', hterm'⟩ := h.follower_sound.entry_base
  have hee' : e.term = e'.term := (h.base_term e he).trans hterm'.symm
  refine repairs_of_match h.leads h.committed h.term (by omega) h.next (hprev ▸ he) (hprev ▸ he')
    hee' ?_
  rw [hprev]
  exact h.matching _ _ e e' le_rfl he he' hee'

/-- An append before the follower's snapshot comes back with the index behind it. -/
theorem repairs_of_behind (h : Repairable j leader follower)
    (hlt : leader.lastIncludedIndex < leader.nextIndex j)
    (hle : leader.nextIndex j ≤ follower.lastIncludedIndex) : Repairs j leader follower := by
  obtain ⟨args, e, hm, hterm, hprev, -⟩ := heartbeatTo_append hlt h.next
  obtain ⟨f, hsame, hft, hrun⟩ := appendEntries_followed (hterm ▸ h.term)
  have hlast := (hsame.sound h.follower_sound).base_le_last
  rw [hsame.index] at hlast
  rw [appendEntriesRest, if_neg (by rw [hprev]; omega),
    if_pos (by rw [hprev, hsame.index]; omega)] at hrun
  refine .of_exchange (exchange_retreat h.leads hm hterm hrun hft.le rfl (if_pos rfl)) rfl rfl
    (repairs_at_base (h.retreat hsame (by rw [hft, hterm]) ?_) ?_ ?_)
  · rw [hsame.index]
    exact add_le_add_left h.base 1
  · rw [hsame.index]
    exact (hlt.trans_le hle).le
  · exact Function.update_self ..

/-- What `InstallSnapshot` does with a newer snapshot. -/
theorem installSnapshot_new {args : InstallSnapshotArgs D} (hterm : rf.currentTerm ≤ args.term)
    (hnew : rf.lastIncludedIndex < args.lastIncludedIndex) :
    ∃ rf' rest, rf.installSnapshot args = some (rf', ⟨args.term⟩) ∧ rf'.currentTerm = args.term ∧
      rf'.lastIncludedIndex = args.lastIncludedIndex ∧
      rf'.log = LogEntry.mk args.lastIncludedTerm none :: rest := by
  have hsome : rf.installSnapshot args ≠ none := installSnapshot_ne_none args
  rw [installSnapshot, if_neg hterm.not_gt, if_neg hnew.not_ge] at hsome ⊢
  obtain ⟨⟨rf', reply⟩, hrun⟩ := Option.ne_none_iff_exists'.mp hsome
  rw [hrun]
  obtain ⟨rf₁, hinstall, heq⟩ := Option.map_eq_some_iff.mp hrun
  obtain ⟨rest, -, rfl⟩ := Option.map_eq_some_iff.mp hinstall
  cases heq
  refine ⟨_, rest, rfl, ?_, rfl, rfl⟩
  change (if rf.currentTerm < args.term then args.term else rf.currentTerm) = args.term
  split <;> omega

/-- A snapshot is followed by an append at its last index. -/
theorem repairs_of_snapshot (h : Repairable j leader follower)
    (hle : leader.nextIndex j ≤ leader.lastIncludedIndex) : Repairs j leader follower := by
  obtain ⟨args, hargs⟩ : ∃ args : InstallSnapshotArgs D, args = {
      term := leader.currentTerm, leaderId := leader.me
      lastIncludedIndex := leader.lastIncludedIndex
      lastIncludedTerm := leader.lastIncludedTerm, data := leader.snapshot } := ⟨_, rfl⟩
  have hm : leader.heartbeatTo j = some (.snapshot args) := by
    rw [heartbeatTo, if_pos hle, hargs]
  have hterm : args.term = leader.currentTerm := by rw [hargs]
  have hindex : args.lastIncludedIndex = leader.lastIncludedIndex := by rw [hargs]
  obtain ⟨l, hl⟩ : ∃ l, l = { leader with
      nextIndex := Function.update leader.nextIndex j (args.lastIncludedIndex + 1)
      matchIndex := Function.update leader.matchIndex j args.lastIncludedIndex } := ⟨_, rfl⟩
  have hreply : leader.snapshotReply j args ⟨args.term⟩ = l := by
    rw [snapshotReply, if_neg (lt_irrefl _), if_neg (by rw [hterm, h.leads]; simp), hl]
  have hexchange {f : Raft n C D} (hf : follower.installSnapshot args = some (f, ⟨args.term⟩)) :
      exchange j leader follower = some (l, f, false) := by
    rw [exchange, if_neg (by rw [h.leads]; exact fun h => h rfl), hm, Option.bind_some]
    simp only [hf, Option.bind_eq_bind, Option.bind_some, hreply]
  have hnext : l.nextIndex j = leader.lastIncludedIndex + 1 := by
    rw [hl, ← hindex]
    exact Function.update_self ..
  have hsame : l.SameLog leader := hl ▸ ⟨rfl, rfl, rfl⟩
  have hlterm : l.currentTerm = leader.currentTerm := by rw [hl]
  have hlrole : l.currentRole = leader.currentRole := by rw [hl]
  have hlcommit : l.commitIndex = leader.commitIndex := by rw [hl]
  have hbl := h.leader_sound.base_le_last
  have hle' : l.nextIndex j ≤ l.lastLogIndex + 1 := by
    rw [hnext, hsame.lastLogIndex]
    omega
  by_cases hnew : follower.lastIncludedIndex < leader.lastIncludedIndex
  · have hfterm : follower.currentTerm ≤ args.term := hterm ▸ h.term
    have hfnew : follower.lastIncludedIndex < args.lastIncludedIndex := hindex ▸ hnew
    obtain ⟨f, rest, hrun, hft, hfi, hlog⟩ := installSnapshot_new hfterm hfnew
    refine .of_exchange (hexchange hrun) hsame.log hsame.index ?_
    -- the sentinel of the snapshot is the leader's
    obtain ⟨e, he, het⟩ := h.leader_sound.entry_base
    have hprev : l.nextIndex j - 1 = leader.lastIncludedIndex := by omega
    have he' : f.entry leader.lastIncludedIndex = some ⟨leader.lastIncludedTerm, none⟩ := by
      rw [entry_eq_getElem? (by omega), hfi, hindex, sub_self, hlog, hargs]
      rfl
    have hprev' : f.entry (l.nextIndex j - 1) = some ⟨leader.lastIncludedTerm, none⟩ :=
      hprev ▸ he'
    refine repairs_of_match (hlrole.trans h.leads) ?_ ?_ ?_ hle' ?_ hprev' het ?_
    · rw [hsame.index, hlcommit]
      exact h.committed
    · rw [hft, hlterm, hterm]
    · rw [hsame.index]
      omega
    · rw [hprev, hsame.entry]
      exact he
    · intro i hi e₁ e₂ h1 h2
      rw [hprev] at hi
      have hbounds := bounds_of_entry h1
      rw [hsame.index] at hbounds ⊢
      obtain rfl : i = leader.lastIncludedIndex := by omega
      rw [hsame.entry] at h1
      cases he.symm.trans h1
      cases he'.symm.trans h2
      exact ⟨het, fun hlt => absurd hlt (lt_irrefl _)⟩
  · have hstale : follower.installSnapshot args =
        some (follower.installSnapshotTerm args, ⟨args.term⟩) := by
      rw [installSnapshot, if_neg (by rw [hterm]; exact h.term.not_gt),
        if_pos (by rw [hindex]; exact not_lt.mp hnew)]
    refine .of_exchange (hexchange hstale) hsame.log hsame.index ?_
    have hrep : Repairable j l (follower.installSnapshotTerm args) := by
      refine h.congr hsame ⟨rfl, rfl, rfl⟩ hlrole hlcommit ?_ hle'
      change (if follower.currentTerm < args.term then args.term else follower.currentTerm) ≤ _
      rw [hlterm, hterm]
      split
      · exact le_rfl
      · exact h.term
    obtain heq | hlt := (not_lt.mp hnew).eq_or_lt
    · refine repairs_at_base hrep ?_ ?_
      · rw [hsame.index]
        exact heq.le
      · rw [hnext, heq]
        rfl
    · refine repairs_of_behind hrep ?_ ?_
      · rw [hsame.index, hnext]
        omega
      · rw [hnext]
        exact hlt

/-- The leader's loop finds an entry of the term. -/
theorem lastXTermIndex_entry {t i : ℤ} {k : ℕ} (h : rf.lastXTermIndex t k = some i) (hi : i ≠ -1) :
    ∃ e, rf.entry i = some e ∧ e.term = t := by
  induction k with
  | zero =>
    cases h
    exact absurd rfl hi
  | succ k ih =>
    rw [lastXTermIndex] at h
    obtain ⟨e, he, h⟩ := Option.bind_eq_some_iff.mp h
    split at h
    · rename_i hterm
      cases h
      exact ⟨e, he, hterm⟩
    · exact ih h

/-- Any other append repairs the follower or lowers `nextIndex`. -/
theorem repairs_or_retreats (h : Repairable j leader follower)
    (hlt : leader.lastIncludedIndex < leader.nextIndex j)
    (hbase : follower.lastIncludedIndex < leader.nextIndex j) :
    Repairs j leader follower ∨ ∃ i f, i < leader.nextIndex j ∧
      exchange j leader follower =
        some ({ leader with nextIndex := Function.update leader.nextIndex j i }, f, false) ∧
      Repairable j { leader with nextIndex := Function.update leader.nextIndex j i } f := by
  obtain ⟨args, e, hm, hterm, hprev, he, hprevTerm, -⟩ := heartbeatTo_append hlt h.next
  obtain ⟨f, hsame, hft, hrun⟩ := appendEntries_followed (hterm ▸ h.term)
  have hnext := h.next
  have hft' : f.currentTerm ≤ leader.currentTerm := by rw [hft, hterm]
  rw [appendEntriesRest, hsame.lastLogIndex, hsame.entry, hsame.index, hprev] at hrun
  by_cases hshort : follower.lastLogIndex < leader.nextIndex j - 1
  · -- the log is too short
    rw [if_pos hshort] at hrun
    exact .inr ⟨follower.lastLogIndex + 1, f, by omega,
      exchange_retreat h.leads hm hterm hrun hft.le rfl (if_pos rfl),
      h.retreat hsame hft' (by omega)⟩
  rw [if_neg hshort, if_neg (by omega)] at hrun
  obtain ⟨e', he'⟩ := follower.entry_isSome (i := leader.nextIndex j - 1) (by omega) (by omega)
  by_cases hee' : e'.term = e.term
  · exact .inl (repairs_of_match h.leads h.committed h.term hlt h.next he he' hee'.symm
      (h.matching _ _ e e' le_rfl he he' hee'.symm))
  -- a conflicting term
  rw [he', Option.bind_eq_bind, Option.bind_some, if_pos (by rw [hprevTerm]; exact hee')] at hrun
  have hpos := h.follower_sound.entry_term_nonneg he'
  obtain ⟨k, hk⟩ := leader.lastXTermIndex_isSome e'.term le_rfl
  obtain ⟨i, hi⟩ : ∃ i, i = if k = -1 then f.firstOfTerm e'.term else k + 1 := ⟨_, rfl⟩
  have hlow : i < leader.nextIndex j := by
    rw [hi]
    split
    · -- the leader has no entry of the term
      have hf : f.entry (leader.nextIndex j - 1) = some e' := hsame.entry ▸ he'
      have := firstOfTerm_le hf (by rw [hsame.index]; omega)
      omega
    · rename_i hk1
      obtain ⟨x, hx, hxt⟩ := lastXTermIndex_entry hk hk1
      by_contra hge
      -- with the term there or later, the leader would have it at `PrevLogIndex`, too
      have hagree := h.matching' _ _ e' x (by omega) he' hx hxt.symm _ le_rfl e' e he' he
      exact hee' hagree.1
  refine .inr ⟨i, f, hlow, exchange_retreat h.leads hm hterm hrun hft.le rfl ?_,
    h.retreat hsame hft' (by omega)⟩
  rw [retreat, if_neg (by change e'.term ≠ -1; omega), hk, hi]
  rfl

/-- **Fast backtracking repairs the follower**: finitely many exchanges lead to an append that
succeeds, the leader knows all its entries to be stored, and the logs agree. -/
theorem backtracking_repairs (h : Repairable j leader follower) : Repairs j leader follower := by
  induction hk : (leader.nextIndex j).toNat using Nat.strong_induction_on
    generalizing leader follower with
  | _ k ih =>
    by_cases hsnapshot : leader.nextIndex j ≤ leader.lastIncludedIndex
    · exact repairs_of_snapshot h hsnapshot
    rw [not_le] at hsnapshot
    by_cases hbehind : leader.nextIndex j ≤ follower.lastIncludedIndex
    · exact repairs_of_behind h hsnapshot hbehind
    obtain hdone | ⟨i, f, hi, hx, hrep⟩ := repairs_or_retreats h hsnapshot (not_le.mp hbehind)
    · exact hdone
    · refine .of_exchange hx rfl rfl (ih _ ?_ hrep rfl)
      have hnonneg := h.leader_sound.index_nonneg
      change (Function.update leader.nextIndex j i j).toNat < k
      rw [Function.update_self, ← hk]
      omega

/-- The leader of term 3, whose first entry is in a snapshot. -/
def trimmedLeader : Raft 3 ℕ Unit :=
  { blank 0 ⟨none, none⟩ with
    currentTerm := 3, currentRole := .leader, lastIncludedIndex := 1, lastIncludedTerm := 1
    commitIndex := 1, nextIndex := fun _ => 3, log := [⟨1, none⟩, ⟨3, some 7⟩] }

/-- A follower with entries of term 2 that were not committed. -/
def divergedFollower : Raft 3 ℕ Unit :=
  { blank 1 ⟨none, none⟩ with
    currentTerm := 2, log := [⟨0, none⟩, ⟨2, some 5⟩, ⟨2, some 6⟩] }

/-- A conflict of term 2 takes the leader back behind its snapshot, and the snapshot replaces the
whole log. -/
theorem backtracking_repairs_snapshot : Repairs 1 trimmedLeader divergedFollower := by
  have hl {i : ℤ} {e : LogEntry ℕ} (he : trimmedLeader.entry i = some e) :
      e.term = 1 ∨ e.term = 3 := by
    have hall : ∀ e ∈ trimmedLeader.log, e.term = 1 ∨ e.term = 3 := by decide
    exact hall e (mem_of_entry he)
  have hf {i : ℤ} {e : LogEntry ℕ} (he : divergedFollower.entry i = some e) :
      e.term = 0 ∨ e.term = 2 := by
    have hall : ∀ e ∈ divergedFollower.log, e.term = 0 ∨ e.term = 2 := by decide
    exact hall e (mem_of_entry he)
  refine backtracking_repairs ⟨rfl, ⟨⟨_, _, rfl, rfl⟩, by decide, by decide, ?_⟩,
    ⟨⟨_, _, rfl, rfl⟩, by decide, by decide, ?_⟩, by decide, ?_, ?_, by decide, ?_, by decide,
    by decide⟩
  · exact List.pairwise_pair.mpr (by decide)
  · change List.Pairwise (fun e e' : LogEntry ℕ => e.term ≤ e'.term) _
    decide
  · intro p q e e' _ he he' heq
    have := hl he
    have := hf he'
    omega
  · intro p q e e' _ he he' heq
    have := hf he
    have := hl he'
    omega
  · intro e he
    cases (bounds_of_entry he).1

end CollabIde.Raft
