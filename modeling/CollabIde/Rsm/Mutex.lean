import CollabIde.Rsm.Registered

/-!
# The mutex of the RSM

`reader` and `leaderCheck` hold `mu` while they send, a channel has room for one result, and its
call takes one result and then needs `mu`. So the third result that is sent on a channel blocks for
good, with `mu` held. It is not ruled out: `leaderCheck` sends at each tick as long as the call has
not deleted its channel.
-/

namespace CollabIde

namespace RSM

variable {R V S D : Type} {σ : StateMachine R V S D} {s s' : RSM R V S}

/-- The goroutine that has `mu` is blocked on the channel of a call that takes no result any more,
or on no channel at all. -/
def Wedged (s : RSM R V S) : Prop :=
  ∃ sec idx rest, s.locked = some sec ∧ sec.pending = idx :: rest ∧ s.send = none ∧
    ∀ c ∈ s.channels.lookup idx, ∀ call ∈ s.calls c, call.phase.received = true

/-- Whenever `reader` or `leaderCheck` is given `mu`, each channel that it is going to send on has
got at most one result. -/
def NoThirdResult (s : RSM R V S) : Action R D → Prop
  | .grant i _ => ∀ g ∈ s.queue[i]?, ∀ idx ∈ s.targets g, ∀ c ∈ s.channels.lookup idx,
      ∀ call ∈ s.calls c, call.sent ≤ 1
  | _ => True

/-- In a section, the channels that still get a result have got at most one. -/
def Roomy (s : RSM R V S) : Prop :=
  ∀ sec ∈ s.locked, ∀ idx ∈ sec.pending, ∀ c ∈ s.channels.lookup idx, ∀ call ∈ s.calls c,
    call.sent ≤ 1

/-- A send blocks on a full channel. -/
theorem send_eq_none {sec : Section V} {idx : ℤ} {rest : List ℤ} {c : ℕ} {call : Call R V}
    (hsec : s.locked = some sec) (hp : sec.pending = idx :: rest)
    (hi : s.channels.lookup idx = some c) (hc : s.calls c = some call) :
    s.send = none ↔ call.result.isSome := by
  simp only [send, hsec, hp, hi, hc]
  split <;> simp_all

/-- No section has begun, so nothing is to be shown. -/
theorem roomy_of_unlocked (h : s.locked = none) : s.Roomy := by
  intro sec hsec
  rw [h] at hsec
  cases hsec

/-- A call goes on without a further result. -/
theorem Roomy.setCall (h : s.Roomy) {c : ℕ} {call call' : Call R V} (hc : s.calls c = some call)
    (hsent : call'.sent = call.sent) : (s.setCall c call').Roomy := by
  intro sec hsec idx hidx j hj old hold
  by_cases hjc : j = c
  · subst hjc
    cases setCall_self.symm.trans hold
    exact hsent ▸ h sec hsec idx hidx j hj call hc
  · exact h sec hsec idx hidx j hj old ((setCall_ne hjc).symm.trans hold)

/-- A section sends a result; the other channels are those of other calls. -/
theorem Roomy.send (h : s.Roomy) (hr : s.Registered) {sec : Section V} {idx : ℤ} {rest : List ℤ}
    {c : ℕ} {call call' : Call R V} (hsec : s.locked = some sec) (hp : sec.pending = idx :: rest)
    (hi : s.channels.lookup idx = some c) (hc : s.calls c = some call) {i : ℤ} (hirest : i ∈ rest)
    {j : ℕ} (hj : s.channels.lookup i = some j) {old : Call R V}
    (hold : (s.setCall c call').calls j = some old) : old.sent ≤ 1 := by
  have hne : idx ∉ rest := (List.nodup_cons.mp (hp ▸ (hr.locked hsec).1)).1
  have hjc : j ≠ c := by
    rintro rfl
    obtain ⟨-, hindex⟩ := hr.phase hi hc
    cases hindex.symm.trans (hr.phase hj hc).2
    exact hne hirest
  exact h sec hsec i (hp ▸ List.mem_cons_of_mem _ hirest) j hj old
    ((setCall_ne hjc).symm.trans hold)

theorem Roomy.step (h : s.Roomy) (hr : s.Registered) {x : Action R D} (ho : s.NoThirdResult x)
    (hx : s.step σ x = some s') : s'.Roomy := by
  cases stepped hx with
  | submit req =>
    intro sec hsec idx hidx j hj old hold
    have hjc : j ≠ s.next := by
      rintro rfl
      obtain ⟨call, hc, -⟩ := hr.own hj
      cases (hr.fresh _ le_rfl).symm.trans hc
    exact h sec hsec idx hidx j hj old ((setCall_ne hjc).symm.trans hold)
  | notLeader hc hp => exact h.setCall hc rfl
  | start hc hp => exact h.setCall hc rfl
  | receive hc hp hresult => exact h.setCall hc rfl
  | restore hidle => exact h
  | ignore m => exact h
  | doOp hidle hm => exact h
  | close hidle => exact h
  | tick hnone => exact h
  | identify hl hg hc hp => exact roomy_of_unlocked hl
  | register hl hg hc hp hindex => exact roomy_of_unlocked hl
  | unregister hl hg hc hp hindex => exact roomy_of_unlocked hl
  | beginSection hl hg hsub hperm =>
    intro sec hsec idx hidx j hj old hold
    cases hsec
    obtain ⟨call, hc, rfl⟩ := Option.map_eq_some_iff.mp hold
    exact ho _ hg idx (hperm.subset hidx) j hj call hc
  | send hsec hp hi hc hresult hd =>
    intro sec' hsec' i hi' j hj old hold
    cases hsec'
    exact h.send hr hsec hp hi hc hi' hj hold
  | @sendDelete sec idx rest c call hsec hp hi hc hresult hd =>
    intro sec' hsec' i hi' j hj old hold
    cases hsec'
    have hne : i ≠ idx := (AList.mem_erase.mp (mem_of_lookup hj)).1
    have hj' : s.channels.lookup i = some j := by
      rwa [deleteAt, Option.mem_def, AList.lookup_erase_ne hne] at hj
    exact h.send hr hsec hp hi hc hi' hj' hold
  | unlock hsec hp => exact roomy_of_unlocked rfl

/-- A call whose channel is full and has got one result at most has not taken it. -/
theorem Call.Counted.not_received {call : Call R V} (h : call.Counted) (hr : call.phase.registered)
    (hfull : call.result.isSome) (hsent : call.sent ≤ 1) : call.phase.received = false := by
  obtain ⟨result, hresult⟩ := Option.isSome_iff_exists.mp hfull
  cases hp : call.phase with
  | wait => rfl
  | unregister r =>
    simp only [Counted, hp, hresult, Option.toList_some, List.length_singleton] at h
    omega
  | _ =>
    rw [hp] at hr
    cases hr

/-- A call that has got two results has taken one and has the other in its channel. -/
theorem Call.Counted.full {call : Call R V} (h : call.Counted) (hr : call.phase.registered)
    (hsent : 1 < call.sent) : call.result.isSome ∧ call.phase.received = true := by
  cases hp : call.phase with
  | wait =>
    have hle := Option.length_toList_le (o := call.result)
    simp only [Counted, hp] at h
    omega
  | unregister r =>
    simp only [Counted, hp] at h
    refine ⟨?_, rfl⟩
    cases hresult : call.result with
    | none =>
      rw [hresult, Option.toList_none, List.length_nil] at h
      omega
    | some result => rfl
  | _ =>
    rw [hp] at hr
    cases hr

theorem Roomy.not_wedged (h : s.Roomy) (hr : s.Registered) : ¬ s.Wedged := by
  rintro ⟨sec, idx, rest, hsec, hp, hsend, hreceived⟩
  have hidx : idx ∈ sec.pending := hp ▸ List.mem_cons_self
  obtain ⟨c, hi⟩ := Option.isSome_iff_exists.mp
    (AList.lookup_isSome.mpr ((hr.locked hsec).2 idx hidx))
  obtain ⟨call, hc, -, hreg, -⟩ := hr.own hi
  have hfull := (send_eq_none hsec hp hi hc).mp hsend
  have hnot := (hr.counted hc).not_received hreg hfull (h sec hsec idx hidx c hi call hc)
  rw [hreceived c hi call hc] at hnot
  cases hnot

theorem roomy_of_reach (hs : (machine σ).Reach NoThirdResult s) : s.Roomy := by
  refine hs.invariant ?_ fun s x s' hr h ho hx => h.step (registered_of_reach hr) ho hx
  rintro s ⟨me, sm, rfl⟩
  exact roomy_of_unlocked rfl

/-- `mu` is given to `reader` or `leaderCheck`. -/
theorem grant_section {i : ℕ} {g : Goroutine} {order : List ℤ} (hl : s.locked = none)
    (hg : s.queue[i]? = some g) (hsub : ∀ c, g ≠ .submit c) (hperm : order.Perm (s.targets g)) :
    ∃ s' deletes, s.grant i order = some s' ∧ s'.channels = s.channels ∧
      s'.locked = some ⟨g, order, s.reply g, deletes⟩ ∧
      ∀ c, ∃ f : Call R V → Bool,
        s'.calls c = (s.calls c).map fun call => { call with passed := f call } := by
  cases g with
  | submit c => exact absurd rfl (hsub c)
  | reader =>
    simp only [grant, hl, hg, beginSection]
    exact ⟨_, _, if_pos hperm, rfl, rfl, fun c => ⟨_, rfl⟩⟩
  | leaderCheck =>
    simp only [grant, hl, hg, beginSection]
    exact ⟨_, _, if_pos hperm, rfl, rfl, fun c => ⟨_, rfl⟩⟩

/-- A third result blocks its sender at once, if its channel is the first that is visited. -/
theorem Registered.wedges (h : s.Registered) {i : ℕ} {order : List ℤ} (hl : s.locked = none)
    (ho : ¬ s.NoThirdResult (.grant i order : Action R D)) :
    ∃ order s', s.grant i order = some s' ∧ s'.Wedged := by
  simp only [NoThirdResult, not_forall, not_le] at ho
  obtain ⟨g, hg, idx, hidx, c, hi, call, hc, hsent⟩ := ho
  obtain ⟨hfull, hreceived⟩ := (h.counted hc).full (h.phase hi hc).1 hsent
  have hsub : ∀ c, g ≠ .submit c := by
    rintro c rfl
    cases hidx
  obtain ⟨s', deletes, hs', hchannels, hsec, hcalls⟩ := grant_section hl hg hsub
    (List.perm_cons_erase hidx).symm
  obtain ⟨f, hf⟩ := hcalls c
  rw [hc, Option.map_some] at hf
  rw [← hchannels] at hi
  refine ⟨_, s', hs', _, idx, _, hsec, rfl, (send_eq_none hsec rfl hi hf).mpr hfull, ?_⟩
  intro c' hc' call' hcall'
  cases hi.symm.trans hc'
  cases hf.symm.trans hcall'
  exact hreceived

/-- **The RSM does not wedge** in the runs in which no channel gets a third result, and a third
result can wedge it at once. -/
theorem never_wedged (hs : (machine σ).Reach NoThirdResult s) : ¬ s.Wedged ∧
    ∀ i order, s.locked = none → ¬ s.NoThirdResult (.grant i order : Action R D) →
      ∃ order s', s.grant i order = some s' ∧ s'.Wedged :=
  ⟨(roomy_of_reach hs).not_wedged (registered_of_reach hs),
    fun _ _ hl ho => (registered_of_reach hs).wedges hl ho⟩

/-! ## Three results -/

instance (s : RSM R V S) : (x : Action R D) → Decidable (s.NoThirdResult x)
  | .grant i _ => inferInstanceAs (Decidable (∀ g ∈ s.queue[i]?, ∀ idx ∈ s.targets g,
      ∀ c ∈ s.channels.lookup idx, ∀ call ∈ s.calls c, call.sent ≤ 1))
  | .submit _ | .start _ _ | .receive _ | .message _ | .close | .tick _ | .send | .unlock =>
    .isTrue trivial

theorem never_wedged_once : ∃ s : RSM ℕ ℕ ℕ, (s.locked.map (·.pending) = some [1]) ∧
    ¬ s.Wedged ∧ ∀ i order, s.locked = none →
      ¬ s.NoThirdResult (.grant i order : Action ℕ ℕ) →
      ∃ order s', s.grant i order = some s' ∧ s'.Wedged := by
  obtain ⟨s, hs, hv⟩ := (machine adder).reach_of_run NoThirdResult
    (f := fun s => s.locked.map (·.pending)) (v := some [1])
    (registers 0 5 1 1 ++ [.message (committed 1 5 1), .grant 0 [1]]) ⟨0, 0, rfl⟩ rfl
  exact ⟨s, hv, never_wedged hs⟩

/-- The goroutines get `mu` in the order in which they come. -/
def FirstCome (_ : RSM R V S) : Action R D → Prop
  | .grant i _ => i = 0
  | _ => True

instance (s : RSM R V S) : (x : Action R D) → Decidable (s.FirstCome x)
  | .grant i _ => inferInstanceAs (Decidable (i = 0))
  | .submit _ | .start _ _ | .receive _ | .message _ | .close | .tick _ | .send | .unlock =>
    .isTrue trivial

/-- `leaderCheck` finds the call's term to be over, twice. Between its two results the call takes
the first one, and `reader` has come with what was committed at the call's index. -/
def thirdResult : List (Action ℕ ℕ) :=
  registers 0 5 1 1 ++ [.tick 2, .grant 0 [1], .send, .unlock, .tick 2, .grant 0 [1],
    .message (committed 1 7 0x100000001), .receive 0, .send, .unlock, .grant 0 [1]]

/-- `reader` is blocked on the channel of a call that has its result. -/
theorem wedges_itself : ¬ ∀ s : RSM ℕ ℕ ℕ, (machine adder).Reach FirstCome s → ¬ s.Wedged := by
  intro h
  obtain ⟨s, hs, hv⟩ := (machine adder).reach_of_run FirstCome
    (f := fun s => (s.locked.map (·.pending), s.send.isNone, s.channels.lookup 1,
      (s.calls 0).map (·.phase)))
    (v := (some [1], true, some 0, some (.unregister .wrongLeader))) thirdResult ⟨0, 0, rfl⟩ rfl
  simp only [Prod.mk.injEq, Option.isNone_iff_eq_none] at hv
  obtain ⟨hlocked, hsend, hi, hphase⟩ := hv
  obtain ⟨sec, hsec, hp⟩ := Option.map_eq_some_iff.mp hlocked
  refine h s hs ⟨sec, 1, [], hsec, hp, hsend, fun c hc call hcall => ?_⟩
  cases hi.symm.trans hc
  rw [Option.mem_def.mp hcall, Option.map_some, Option.some.injEq] at hphase
  rw [hphase]
  rfl

end RSM

end CollabIde
