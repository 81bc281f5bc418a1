import CollabIde.Rsm.Registered

/-!
# The calls that wait

A call waits for `reader`, which looks for it when its index has been applied, or for
`leaderCheck`. Both find it in the maps, where it is only from its second section on: `reader` may
have passed its index before that. And the maps go by index, so a call that gets the index of
another one in a later term replaces its entries, and a call that has its result deletes whatever
is at its index.
-/

namespace CollabIde

namespace RSM

variable {R V S D : Type} {σ : StateMachine R V S D} {s s' : RSM R V S} {c : ℕ} {call : Call R V}

/-- The call has its result, or finds it in its channel. -/
def Call.answered {R V : Type} (call : Call R V) : Bool :=
  call.result.isSome || call.phase.received

/-- The call has an index, and waits for `mu` to register. -/
def Phase.registering {V : Type} : Phase V → Bool
  | .register => true
  | _ => false

theorem phase_of_registering {p : Phase V} (h : p.registering = true) : p = .register := by
  cases p with
  | register => rfl
  | _ => cases h

/-- The goroutine with `mu` is going to send a result to the channel at the index. -/
def Due (s : RSM R V S) (i : ℤ) : Prop := ∃ sec ∈ s.locked, i ∈ sec.pending

/-- The call, which has got index `i` and no result, is not left behind. -/
structure Attended (s : RSM R V S) (c : ℕ) (call : Call R V) (i : ℤ) : Prop where
  /-- `reader` has not looked for the call because of its index, or is about to answer it. -/
  found : call.passed = false ∨ s.channels.lookup i = some c ∧ s.Due i
  /-- Once it is in the maps, no other call drops it. -/
  kept : call.phase = .wait → s.channels.lookup i = some c ∧
    s.chanIds.lookup i = some call.id ∧ s.chanTerms.lookup i = some call.term

/-- The call is attended, or `reader` has passed it and `leaderCheck`, which has read a later term,
will find it. -/
structure InReach (s : RSM R V S) (c : ℕ) (call : Call R V) (i : ℤ) : Prop where
  found : call.passed = false ∨
    s.channels.lookup i = some c ∧ (s.Due i ∨ ∃ term ∈ s.checking, call.term < term)
  kept : call.phase = .wait → s.channels.lookup i = some c ∧
    s.chanIds.lookup i = some call.id ∧ s.chanTerms.lookup i = some call.term

/-- If the goroutine is given `mu`: when `reader` looks for the calls because of a message, no call
that the message covers is still to register; and no call registers or deletes at an index where
another call waits. -/
def UndisturbedBy (s : RSM R V S) : Goroutine → Prop
  | .submit c => ∀ call ∈ s.calls c, ∀ i ∈ call.index, ∀ d ∈ s.channels.lookup i,
      ∀ other ∈ s.calls d, d = c ∨ other.answered
  | .reader => ∀ c < s.next, ∀ call ∈ s.calls c, call.phase.registering = true →
      ∀ i ∈ call.index, s.reading.covers i = false
  | .leaderCheck => True

def Undisturbed (s : RSM R V S) : Action R D → Prop
  | .grant i _ => ∀ g ∈ s.queue[i]?, s.UndisturbedBy g
  | _ => True

/-- Every call that has an index and no result is attended. -/
def Watched (s : RSM R V S) : Prop :=
  ∀ {c call i}, s.calls c = some call → call.index = some i → call.answered = false →
    s.Attended c call i

/-- No call that has an index and no result is out of reach. -/
def Reached (s : RSM R V S) : Prop :=
  ∀ {c call i}, s.calls c = some call → call.index = some i → call.answered = false →
    s.InReach c call i

theorem Watched.reached (h : s.Watched) : s.Reached := fun hc hi hans =>
  ⟨(h hc hi hans).found.imp_right fun ⟨hown, hdue⟩ => ⟨hown, .inl hdue⟩, (h hc hi hans).kept⟩

/-! ## The invariant -/

/-- What holds of a call in each of its phases. -/
def Awaited (s : RSM R V S) (c : ℕ) (call : Call R V) : Prop :=
  match call.phase with
  | .identify | .start => call.index = none ∧ call.passed = false
  | .register => call.passed = false
  | .wait => ∀ i, call.index = some i → call.result = none →
      s.channels.lookup i = some c ∧ (call.passed = false ∨ s.Due i)
  | .unregister _ | .done _ => True

/-- The other calls keep their entries. -/
theorem Awaited.keep {j : ℕ} {old : Call R V} (h : s.Awaited j old)
    (hkeep : ∀ i, old.answered = false → s.channels.lookup i = some j →
      s'.channels.lookup i = some j ∧ (s.Due i → s'.Due i)) : s'.Awaited j old := by
  unfold Awaited at h ⊢
  cases hp : old.phase with
  | wait =>
    simp only [hp] at h ⊢
    intro i hi hr
    obtain ⟨hown, hfound⟩ := h i hi hr
    have hans : old.answered = false := by
      rw [Call.answered, hr, hp]
      rfl
    obtain ⟨hown', hdue⟩ := hkeep i hans hown
    exact ⟨hown', hfound.imp_right hdue⟩
  | _ =>
    rw [hp] at h
    exact h

/-- What holds of all calls. -/
def AllAwaited (s : RSM R V S) : Prop := ∀ c call, s.calls c = some call → s.Awaited c call

/-- A call goes on; the other calls keep their entries. -/
theorem AllAwaited.next (h : s.AllAwaited) (call' : Call R V)
    (hcalls : s'.calls = (s.setCall c call').calls) (hself : s'.Awaited c call')
    (hkeep : ∀ j ≠ c, ∀ old, s.calls j = some old → old.answered = false → ∀ i,
      s.channels.lookup i = some j → s'.channels.lookup i = some j ∧ (s.Due i → s'.Due i)) :
    s'.AllAwaited := by
  intro j old hj
  rw [hcalls] at hj
  by_cases hjc : j = c
  · subst hjc
    cases setCall_self.symm.trans hj
    exact hself
  · have hold := (setCall_ne hjc).symm.trans hj
    exact (h j old hold).keep fun i hans hi => hkeep j hjc old hold hans i hi

/-- A call goes on; the maps and the lock stay. -/
theorem AllAwaited.setCall (h : s.AllAwaited) (call' : Call R V) (hself : s.Awaited c call') :
    (s.setCall c call').AllAwaited :=
  h.next call' rfl hself fun _ _ _ _ _ _ hi => ⟨hi, id⟩

/-- Where another call registers or deletes, no call waits. -/
theorem index_ne {i : ℤ} (hne : ∀ d ∈ s.channels.lookup i, ∀ old ∈ s.calls d, d = c ∨ old.answered)
    {j : ℕ} {old : Call R V} (hj : s.calls j = some old) (hjc : j ≠ c)
    (hans : old.answered = false) {k : ℤ} (hk : s.channels.lookup k = some j) : k ≠ i := by
  rintro rfl
  obtain rfl | ha := hne j hk old hj
  · exact hjc rfl
  · rw [hans] at ha
    cases ha

/-- The other channels of a section stay due. -/
theorem Due.rest {sec : Section V} {idx : ℤ} {rest : List ℤ} (hsec : s.locked = some sec)
    (hp : sec.pending = idx :: rest) (hi : s.channels.lookup idx = some c) {i : ℤ} {j : ℕ}
    (hjc : j ≠ c) (hj : s.channels.lookup i = some j) :
    i ≠ idx ∧ (s.Due i → i ∈ rest) := by
  have hne : i ≠ idx := by
    rintro rfl
    cases hi.symm.trans hj
    exact hjc rfl
  refine ⟨hne, ?_⟩
  rintro ⟨sec', hsec', hmem⟩
  cases hsec.symm.trans hsec'
  rw [hp, List.mem_cons] at hmem
  exact hmem.resolve_left hne

/-- `reader` looks for the calls that its message covers. -/
theorem mem_targets {i : ℤ} (hi : i ∈ s.channels) (hcov : s.reading.covers i = true) :
    i ∈ s.targets .reader := by
  unfold targets
  cases hr : s.reading with
  | command index op result =>
    simp only [hr, Reading.covers, decide_eq_true_eq] at hcov
    subst hcov
    simp only [AList.lookup_isSome.mpr hi, if_true, List.mem_singleton]
  | snapshot index => exact hi
  | _ =>
    rw [hr] at hcov
    cases hcov

/-- A call in the maps that finds a result needs nothing any more. -/
theorem Awaited.of_result (hr : call.phase.registered = true) (hres : call.result.isSome) :
    s.Awaited c call := by
  unfold Awaited
  cases hp : call.phase with
  | wait =>
    intro i _ hnone
    rw [hnone] at hres
    cases hres
  | unregister result => trivial
  | _ =>
    rw [hp] at hr
    cases hr

/-- A section begins: `reader` has looked for the calls that its message covers, and is about to
answer those that it has found. -/
theorem AllAwaited.beginSection (h : s.AllAwaited) (hr : s.Registered) {i : ℕ} {order : List ℤ}
    {g : Goroutine} {deletes : Bool} (ho : s.Undisturbed (.grant i order : Action R D))
    (hl : s.locked = none) (hg : s.queue[i]? = some g) (hperm : order.Perm (s.targets g))
    (hlocked : s'.locked = some ⟨g, order, s.reply g, deletes⟩)
    (hchannels : s'.channels = s.channels)
    (hcalls : s'.calls = fun c => (s.calls c).map fun call => { call with
      passed := call.passed || g = .reader && call.index.any s.reading.covers }) :
    s'.AllAwaited := by
  intro c call hc
  rw [hcalls] at hc
  obtain ⟨old, hold, rfl⟩ := Option.map_eq_some_iff.mp hc
  have hself := h c old hold
  unfold Awaited at hself ⊢
  cases hp : old.phase with
  | identify | start =>
    simp only [hp] at hself ⊢
    refine ⟨hself.1, ?_⟩
    rw [hself.1, hself.2, Option.any_none, Bool.and_false, Bool.or_false]
  | register =>
    simp only [hp] at hself ⊢
    rw [hself, Bool.false_or, Bool.and_eq_false_imp]
    intro hreader
    obtain rfl := of_decide_eq_true hreader
    have hlt : c < s.next := by
      by_contra hge
      cases (hr.fresh c (not_lt.mp hge)).symm.trans hold
    cases hi : old.index with
    | none => rfl
    | some k => exact ho _ hg c hlt old hold (by rw [hp]; rfl) k hi
  | wait =>
    simp only [hp] at hself ⊢
    intro k hk hres
    obtain ⟨hown, hfound⟩ := hself k hk hres
    rw [hchannels]
    refine ⟨hown, ?_⟩
    have hpassed : old.passed = false := hfound.resolve_right fun ⟨sec, hsec, _⟩ => by
      cases hl.symm.trans hsec
    by_cases hreader : g = .reader ∧ s.reading.covers k = true
    · obtain ⟨rfl, hcov⟩ := hreader
      exact .inr ⟨_, hlocked, hperm.symm.subset (mem_targets (mem_of_lookup hown) hcov)⟩
    · left
      rw [hpassed, Bool.false_or, hk, Option.any_some]
      simpa using hreader
  | unregister | done => trivial

theorem AllAwaited.step (h : s.AllAwaited) (hr : s.Registered) {x : Action R D}
    (ho : s.Undisturbed x) (hx : s.step σ x = some s') : s'.AllAwaited := by
  cases stepped hx with
  | submit req => exact h.setCall _ ⟨rfl, rfl⟩
  | notLeader hc hp => exact h.setCall _ trivial
  | @start c call index term hc hp =>
    have hself := h c call hc
    simp only [Awaited, hp] at hself
    exact h.setCall { call with index := some index, term := term, phase := .register }
      hself.2
  | receive hc hp hresult => exact h.setCall _ trivial
  | restore hidle => exact h
  | ignore m => exact h
  | doOp hidle hm => exact h
  | close hidle => exact h
  | tick hnone => exact h
  | @identify i c order call hl hg hc hp =>
    have hself := h c call hc
    simp only [Awaited, hp] at hself
    exact h.setCall { call with id := s.nextOpId, phase := .start } hself
  | @register i c order call index hl hg hc hp hindex =>
    have hself := h c call hc
    simp only [Awaited, hp] at hself
    refine h.next { call with phase := .wait } rfl ?_ fun j hjc old hj hans k hk => ?_
    · intro k hk _
      cases hindex.symm.trans hk
      exact ⟨AList.lookup_insert _, .inl hself⟩
    · have hne := index_ne (ho _ hg call hc index hindex) hj hjc hans hk
      exact ⟨(AList.lookup_insert_ne hne).trans hk, id⟩
  | @unregister i c order call index result hl hg hc hp hindex =>
    refine h.next { call with phase := .done result } rfl trivial
      fun j hjc old hj hans k hk => ?_
    have hne := index_ne (ho _ hg call hc index hindex) hj hjc hans hk
    exact ⟨(AList.lookup_erase_ne hne).trans hk, id⟩
  | beginSection hl hg hsub hperm => exact h.beginSection hr ho hl hg hperm rfl rfl rfl
  | @send sec idx rest c call hsec hp hi hc hresult hd =>
    refine h.next { call with result := some sec.result, sent := call.sent + 1 } rfl ?_
      fun j hjc old hj hans k hk => ⟨hk, fun hdue => ?_⟩
    · exact .of_result (hr.phase hi hc).1 rfl
    · exact ⟨_, rfl, (Due.rest hsec hp hi hjc hk).2 hdue⟩
  | @sendDelete sec idx rest c call hsec hp hi hc hresult hd =>
    refine h.next { call with result := some sec.result, sent := call.sent + 1 } rfl ?_
      fun j hjc old hj hans k hk => ?_
    · exact .of_result (hr.phase hi hc).1 rfl
    · obtain ⟨hne, hrest⟩ := Due.rest hsec hp hi hjc hk
      exact ⟨(AList.lookup_erase_ne hne).trans hk, fun hdue => ⟨_, rfl, hrest hdue⟩⟩
  | unlock hsec hp =>
    refine fun c call hc => (h c call hc).keep fun i _ hi => ⟨hi, ?_⟩
    rintro ⟨sec, hsec', hmem⟩
    cases hsec.symm.trans hsec'
    rw [hp] at hmem
    cases hmem

theorem allAwaited_of_reach (hs : (machine σ).Reach Undisturbed s) : s.AllAwaited := by
  refine hs.invariant ?_ fun s x s' hr h ho hx => h.step (registered_of_reach hr) ho hx
  rintro s ⟨me, sm, rfl⟩ c call hc
  cases hc

/-! ## No call is left behind -/

/-- A call that has no result and is in the maps waits. -/
theorem phase_of_unanswered (hr : call.phase.registered = true) (hans : call.answered = false) :
    call.phase = .wait := by
  rw [Call.answered, Bool.or_eq_false_iff] at hans
  cases hp : call.phase with
  | wait => rfl
  | unregister result =>
    rw [hp] at hans
    cases hans.2
  | _ =>
    rw [hp] at hr
    cases hr

theorem AllAwaited.watched (h : s.AllAwaited) (hr : s.Registered) : s.Watched := by
  intro c call i hc hi hans
  have hself := h c call hc
  rw [Call.answered, Bool.or_eq_false_iff] at hans
  unfold Awaited at hself
  cases hp : call.phase with
  | identify | start =>
    simp only [hp] at hself
    cases hself.1.symm.trans hi
  | register =>
    simp only [hp] at hself
    exact ⟨.inl hself, fun hw => by cases hp.symm.trans hw⟩
  | wait =>
    simp only [hp] at hself
    obtain ⟨hown, hfound⟩ := hself i hi (by simpa using hans.1)
    obtain ⟨call', hc', -, -, hid, hterm⟩ := hr.own hown
    cases hc.symm.trans hc'
    exact ⟨hfound.imp_right fun hdue => ⟨hown, hdue⟩, fun _ => ⟨hown, hid, hterm⟩⟩
  | unregister | done =>
    rw [hp] at hans
    cases hans.2

/-- A call of the maps that still waits is at its index. -/
theorem Reached.own (hw : s'.Reached) (hr : s.Registered) {i : ℤ} (hi : s.channels.lookup i = some c)
    (hc : s.calls c = some call) (hc' : s'.calls c = some call) (hans : call.answered = false) :
    s'.channels.lookup i = some c := by
  obtain ⟨hreg, hindex⟩ := hr.phase hi hc
  exact ((hw hc' hindex hans).kept (phase_of_unanswered hreg hans)).1

/-- A section of a call meets the condition if no other call waits at its index. -/
theorem undisturbed_submit {i : ℕ} {order : List ℤ} {index : ℤ} (hg : s.queue[i]? = some (.submit c))
    (hc : s.calls c = some call) (hindex : call.index = some index)
    (h : ∀ d other, s.channels.lookup index = some d → s.calls d = some other → d ≠ c →
      other.answered ≠ false) : s.Undisturbed (.grant i order : Action R D) := by
  intro g hg'
  cases hg.symm.trans hg'
  intro call' hc' k hk d hd other hother
  cases hc.symm.trans hc'
  cases hindex.symm.trans hk
  by_cases hdc : d = c
  · exact .inl hdc
  · exact .inr (by simpa using h d other hd hother hdc)

/-- A step that does not meet the condition leaves a call behind, out of reach. -/
theorem AllAwaited.disturbed (h : s.AllAwaited) (hr : s.Registered) {x : Action R D}
    (hx : s.step σ x = some s') (ho : ¬ s.Undisturbed x) : ¬ s'.Reached := by
  intro hw
  cases stepped hx with
  | @identify i c order call hl hg hc hp =>
    have hself := h c call hc
    simp only [Awaited, hp] at hself
    refine ho fun g hg' => ?_
    cases hg.symm.trans hg'
    intro call' hc' i hi
    cases hc.symm.trans hc'
    cases hself.1.symm.trans hi
  | register hl hg hc hp hindex =>
    refine ho (undisturbed_submit hg hc hindex fun d other hd hother hdc hans => ?_)
    have hown := hw.own hr hd hother ((setCall_ne hdc).trans hother) hans
    rw [RSM.insertAt, AList.lookup_insert, Option.some.injEq] at hown
    exact hdc hown.symm
  | unregister hl hg hc hp hindex =>
    refine ho (undisturbed_submit hg hc hindex fun d other hd hother hdc hans => ?_)
    have hown := hw.own hr hd hother ((setCall_ne hdc).trans hother) hans
    rw [RSM.deleteAt, AList.lookup_erase] at hown
    cases hown
  | @beginSection i order g deletes hl hg hsub hperm =>
    refine ho fun g' hg' => ?_
    cases hg.symm.trans hg'
    cases g with
    | submit c => exact absurd rfl (hsub c)
    | leaderCheck => trivial
    | reader =>
      intro c _ call hc hreg k hk
      by_contra hcov
      rw [Bool.not_eq_false] at hcov
      have hphase := phase_of_registering hreg
      have hresult := hr.counted hc
      simp only [Call.Counted, hphase] at hresult
      have hans : call.answered = false := by
        rw [Call.answered, hresult.2, hphase]
        rfl
      have hany : call.index.any s.reading.covers = true := by
        rw [Option.mem_def.mp hk, Option.any_some, hcov]
      -- `reader` has passed the call, which is not in the maps
      obtain hpassed | ⟨hown, -⟩ := (@hw c { call with passed := true } k (by
        simp only [Option.mem_def.mp hc, Option.map_some, hany, decide_true, Bool.and_true,
          Bool.or_true]) hk hans).found
      · cases hpassed
      · have hregistered := (hr.phase hown hc).1
        rw [hphase] at hregistered
        cases hregistered
  | _ => exact ho trivial

/-- **No call is left behind** in the runs that meet the condition, and the first step that does
not meet it leaves one behind, out of reach of `reader` and of `leaderCheck`. -/
theorem no_call_left_behind (hs : (machine σ).Reach Undisturbed s) : s.Watched ∧
    ∀ x s', s.step σ x = some s' →
      (s'.Watched ↔ s.Undisturbed x) ∧ (s'.Reached ↔ s.Undisturbed x) := by
  have hr := registered_of_reach hs
  have h := allAwaited_of_reach hs
  refine ⟨h.watched hr, fun x s' hx => ?_⟩
  have hkeeps (ho : s.Undisturbed x) : s'.Watched := (h.step hr ho hx).watched (hr.step hx)
  have hbreaks (hw : s'.Reached) : s.Undisturbed x := by
    by_contra ho
    exact h.disturbed hr hx ho hw
  exact ⟨⟨fun hw => hbreaks hw.reached, hkeeps⟩, hbreaks,
    fun ho => Watched.reached (hkeeps ho)⟩

/-! ## An index that is handed out again -/

instance (s : RSM R V S) : DecidablePred s.UndisturbedBy
  | .submit c => inferInstanceAs (Decidable (∀ call ∈ s.calls c, ∀ i ∈ call.index,
      ∀ d ∈ s.channels.lookup i, ∀ other ∈ s.calls d, d = c ∨ other.answered))
  | .reader => inferInstanceAs (Decidable (∀ c < s.next, ∀ call ∈ s.calls c,
      call.phase.registering = true → ∀ i ∈ call.index, s.reading.covers i = false))
  | .leaderCheck => .isTrue trivial

instance (s : RSM R V S) : (x : Action R D) → Decidable (s.Undisturbed x)
  | .grant i _ => inferInstanceAs (Decidable (∀ g ∈ s.queue[i]?, s.UndisturbedBy g))
  | .submit _ | .start _ _ | .receive _ | .message _ | .close | .tick _ | .send | .unlock =>
    .isTrue trivial

/-- The call has its index and waits; `reader` has the message with it. -/
theorem no_call_left_behind_waits : ∃ s : RSM ℕ ℕ ℕ,
    ((s.calls 0).map (·.phase) = some .wait ∧ s.queue = [.reader]) ∧ s.Watched ∧
      ∀ (x : Action ℕ ℕ) s', s.step adder x = some s' →
        (s'.Watched ↔ s.Undisturbed x) ∧ (s'.Reached ↔ s.Undisturbed x) := by
  obtain ⟨s, hs, hv⟩ := (machine adder).reach_of_run Undisturbed
    (f := fun s => ((s.calls 0).map (·.phase), s.queue)) (v := (some .wait, [.reader]))
    (registers 0 5 1 1 ++ [.message (committed 1 5 1)]) ⟨0, 0, rfl⟩ rfl
  rw [Prod.mk.injEq] at hv
  exact ⟨s, hv, no_call_left_behind hs⟩

/-- The first call gets index 1 in term 1 and is answered by `leaderCheck`. The second one gets the
index in term 3 and registers; then the first one deletes what is at its index, and `reader`
finds nothing there. -/
def sameIndex : List (Action ℕ ℕ) :=
  registers 0 5 1 1 ++ [.submit 7, .grant 0 [], .tick 2, .grant 0 [1], .send, .unlock,
    .start 1 (some (1, 3)), .receive 0, .grant 0 [], .grant 0 [], .message (committed 1 7 2),
    .grant 0 [], .unlock]

/-- The second call waits; its index has been applied, and its channel is in no map. -/
theorem call_left_behind : ¬ ∀ s : RSM ℕ ℕ ℕ, (machine adder).Reachable s → s.Reached := by
  intro h
  obtain ⟨s, hs, hv⟩ := (machine adder).reach_of_run (fun _ _ => True)
    (f := fun s => (s.calls 1, s.channels.lookup 1))
    (v := (some { req := 7, id := 2, index := some 1, term := 3, phase := .wait, passed := true },
      none)) sameIndex ⟨0, 0, rfl⟩ rfl
  rw [Prod.mk.injEq] at hv
  obtain ⟨hc, hi⟩ := hv
  obtain hpassed | ⟨hown, -⟩ := (h s hs hc rfl rfl).found
  · cases hpassed
  · cases hi.symm.trans hown

end RSM

end CollabIde
