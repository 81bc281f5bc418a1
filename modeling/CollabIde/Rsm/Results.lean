import CollabIde.Rsm.Registered

/-!
# The results that calls take

A call takes the result that a section under the lock has sent to its channel, unless `Start`
refuses it. So what holds of the result of every section when it begins, for the calls that wait
there, holds of the results that calls take (`Results.step`). It may depend on what a call keeps
once it has an index.
-/

namespace CollabIde

namespace RSM

variable {R V S D : Type} {σ : StateMachine R V S D} {s s' : RSM R V S} {c : ℕ} {call : Call R V}

/-- The result that the call takes, once it is there. -/
def Call.taken (call : Call R V) : Option (OpResult V) :=
  match call.phase with
  | .wait => call.result
  | .unregister result | .done result => some result
  | _ => none

/-- The call's index, id and term. -/
def Call.stamp (call : Call R V) : Option ℤ × BitVec 64 × ℤ := (call.index, call.id, call.term)

/-- The results that calls take, and those that are being sent, meet `P`. -/
structure Results (s : RSM R V S) (P : ℕ → Option ℤ × BitVec 64 × ℤ → OpResult V → Prop) :
    Prop where
  taken : ∀ c call, s.calls c = some call → ∀ r, call.taken = some r → P c call.stamp r
  locked : ∀ sec, s.locked = some sec → ∀ i ∈ sec.pending, ∀ c, s.channels.lookup i = some c →
    ∀ call, s.calls c = some call → call.taken = none → P c call.stamp sec.result

/-- The result of a section that begins meets `P` at the calls that wait, and so does that of a
call that `Start` refuses. -/
def Answers (s : RSM R V S) (P : ℕ → Option ℤ × BitVec 64 × ℤ → OpResult V → Prop) :
    Action R D → Prop
  | .start c none => ∀ call, s.calls c = some call → P c call.stamp .wrongLeader
  | .grant i _ => ∀ g, s.queue[i]? = some g → ∀ idx ∈ s.targets g, ∀ c,
      s.channels.lookup idx = some c → ∀ call, s.calls c = some call → call.taken = none →
      P c call.stamp (s.reply g)
  | _ => True

variable {P : ℕ → Option ℤ × BitVec 64 × ℤ → OpResult V → Prop}

theorem Results.make (me : ℤ) (sm : S) : (make me sm : RSM R V S).Results P where
  taken c call hc := by cases hc
  locked sec hsec := by cases hsec

theorem Results.mono {Q : ℕ → Option ℤ × BitVec 64 × ℤ → OpResult V → Prop} (h : s.Results P)
    (hm : ∀ c stamp r, P c stamp r → Q c stamp r) : s.Results Q where
  taken c call hc r hr := hm _ _ _ (h.taken c call hc r hr)
  locked sec hsec i hi c hc call hcall hnone :=
    hm _ _ _ (h.locked sec hsec i hi c hc call hcall hnone)

/-- A call goes on with the same result or with none. -/
theorem Results.setCall (h : s.Results P) (hc : s.calls c = some call) (call' : Call R V)
    (htaken : ∀ r, call'.taken = some r → P c call'.stamp r)
    (hnone : ∀ i, s.channels.lookup i = some c → call'.taken = none →
      call.taken = none ∧ call.stamp = call'.stamp) :
    (s.setCall c call').Results P where
  taken j old hj r hr := by
    by_cases hjc : j = c
    · subst hjc
      cases setCall_self.symm.trans hj
      exact htaken r hr
    · exact h.taken j old ((setCall_ne hjc).symm.trans hj) r hr
  locked sec hsec i hi j hj old hold hnil := by
    by_cases hjc : j = c
    · subst hjc
      cases setCall_self.symm.trans hold
      obtain ⟨hnil', hstamp⟩ := hnone i hj hnil
      exact hstamp ▸ h.locked sec hsec i hi j hj call hc hnil'
    · exact h.locked sec hsec i hi j hj old ((setCall_ne hjc).symm.trans hold) hnil

theorem Results.enqueue (h : s.Results P) (g : Goroutine) : (s.enqueue g).Results P := { h with }

/-- The calls stay, and the section under the lock has no more to send. -/
theorem Results.narrow (h : s.Results P) (hcalls : s'.calls = s.calls)
    (hlocked : ∀ sec', s'.locked = some sec' → ∃ sec, s.locked = some sec ∧
      sec.result = sec'.result ∧ ∀ i ∈ sec'.pending, i ∈ sec.pending ∧
        ∀ c, s'.channels.lookup i = some c → s.channels.lookup i = some c) :
    s'.Results P where
  taken c call hc r hr := h.taken c call (hcalls ▸ hc) r hr
  locked sec' hsec' i hi c hc call hcall hnone := by
    obtain ⟨sec, hsec, hresult, hpending⟩ := hlocked sec' hsec'
    obtain ⟨hmem, hlookup⟩ := hpending i hi
    exact hresult ▸ h.locked sec hsec i hmem c (hlookup c hc) call (hcalls ▸ hcall) hnone

/-- A call that has no channel in the maps starts with no result. -/
theorem Results.submit (h : s.Results P) (hr : s.Registered) (req : R) :
    (s.submit req).Results P where
  taken c call hc r hr := by
    by_cases hne : c = s.next
    · subst hne
      cases setCall_self.symm.trans hc
      cases hr
    · exact h.taken c call ((setCall_ne hne).symm.trans hc) r hr
  locked sec hsec i hi c hc call hcall hnone := by
    have hne : c ≠ s.next := by
      rintro rfl
      obtain ⟨old, hold, -⟩ := hr.own hc
      cases (hr.fresh _ le_rfl).symm.trans hold
    exact h.locked sec hsec i hi c hc call ((setCall_ne hne).symm.trans hcall) hnone

/-- A section begins. -/
theorem Results.beginSection (h : s.Results P) {i : ℕ} {order : List ℤ} {g : Goroutine}
    {deletes : Bool} (ho : s.Answers P (.grant i order : Action R D))
    (hg : s.queue[i]? = some g) (hperm : order.Perm (s.targets g)) (f : Call R V → Bool) :
    { s with
      queue := s.queue.eraseIdx i
      locked := some ⟨g, order, s.reply g, deletes⟩
      calls := fun c => (s.calls c).map fun call : Call R V => { call with
        passed := f call } }.Results P where
  taken c call hc r hr := by
    obtain ⟨old, hold, rfl⟩ := Option.map_eq_some_iff.mp hc
    exact h.taken c old hold r hr
  locked sec hsec k hk c hc call hcall hnone := by
    cases hsec
    obtain ⟨old, hold, rfl⟩ := Option.map_eq_some_iff.mp hcall
    exact ho g hg k (hperm.subset hk) c hc old hold hnone

/-- The call that the section sends to takes the result, unless it has one. -/
theorem Results.send (h : s.Results P) (hr : s.Registered) {sec : Section V} {idx : ℤ}
    {rest : List ℤ} (hsec : s.locked = some sec) (hp : sec.pending = idx :: rest)
    (hi : s.channels.lookup idx = some c) (hc : s.calls c = some call)
    (hresult : call.result = none) :
    (s.setCall c { call with result := some sec.result, sent := call.sent + 1 }).Results P := by
  obtain ⟨hreg, hindex⟩ := hr.phase hi hc
  refine h.setCall hc _ (fun r htaken => ?_) fun i _ hnone => ?_
  · cases hphase : call.phase with
    | wait =>
      simp only [Call.taken, hphase, Option.some.injEq] at htaken
      have hnone : call.taken = none := by simp only [Call.taken, hphase, hresult]
      exact htaken ▸ h.locked sec hsec idx (hp ▸ List.mem_cons_self) c hi call hc hnone
    | unregister result =>
      simp only [Call.taken, hphase] at htaken
      exact h.taken c call hc r (by simp only [Call.taken, hphase, htaken])
    | _ =>
      rw [hphase] at hreg
      cases hreg
  · cases hphase : call.phase with
    | wait | unregister =>
      simp only [Call.taken, hphase] at hnone
      cases hnone
    | _ =>
      rw [hphase] at hreg
      cases hreg

/-- A section of a call goes on while the lock is free. -/
theorem Results.section_of_call (h : s.Results P) (hc : s.calls c = some call) (call' : Call R V)
    (htaken : ∀ r, call'.taken = some r → call.taken = some r ∧ call'.stamp = call.stamp)
    (hcalls : s'.calls = (s.setCall c call').calls) (hlocked : s'.locked = none) :
    s'.Results P where
  taken j old hj r hr := by
    rw [hcalls] at hj
    by_cases hjc : j = c
    · subst hjc
      cases setCall_self.symm.trans hj
      obtain ⟨hr', hstamp⟩ := htaken r hr
      exact hstamp ▸ h.taken j call hc r hr'
    · exact h.taken j old ((setCall_ne hjc).symm.trans hj) r hr
  locked sec hsec := by cases hlocked.symm.trans hsec

theorem Results.step (h : s.Results P) (hr : s.Registered) {x : Action R D}
    (ho : s.Answers P x) (hx : s.step σ x = some s') : s'.Results P := by
  cases stepped hx with
  | submit req => exact h.submit hr req
  | @notLeader c call hc hp =>
    refine h.setCall hc _ (fun r hr => ?_) fun i hi hnone => ?_
    · cases hr
      exact ho call hc
    · cases hnone
  | @start c call index term hc hp =>
    refine Results.enqueue (h.setCall hc { call with
      index := some index, term := term, phase := .register } ?_ fun i hi _ => ?_) _
    · intro r hr
      cases hr
    · have hreg := (hr.phase hi hc).1
      rw [hp] at hreg
      cases hreg
  | @receive c call result hc hp hresult =>
    refine Results.enqueue (h.setCall hc { call with
      result := none, phase := .unregister result } ?_ fun i _ hnone => ?_) _
    · intro r hr
      exact h.taken _ _ hc r (by simpa only [Call.taken, hp, hresult] using hr)
    · cases hnone
  | ignore m => exact h
  | restore hidle | doOp hidle hm | close hidle =>
    exact h.narrow rfl fun sec hsec => ⟨sec, hsec, rfl, fun i hi => ⟨hi, fun c => id⟩⟩
  | tick hnone =>
    exact h.narrow rfl fun sec hsec => ⟨sec, hsec, rfl, fun i hi => ⟨hi, fun c => id⟩⟩
  | @identify i c order call hl hg hc hp =>
    exact h.section_of_call hc { call with id := s.nextOpId, phase := .start }
      (fun r hr => by cases hr) rfl hl
  | @register i c order call index hl hg hc hp hindex =>
    have hcount := hr.counted hc
    simp only [Call.Counted, hp] at hcount
    refine h.section_of_call hc { call with phase := .wait } (fun r hr => ?_) rfl hl
    simp only [Call.taken, hcount.2] at hr
    cases hr
  | @unregister i c order call index result hl hg hc hp hindex =>
    refine h.section_of_call hc { call with phase := .done result } (fun r hr => ?_) rfl hl
    exact ⟨by simpa only [Call.taken, hp] using hr, rfl⟩
  | beginSection hl hg hsub hperm => exact h.beginSection ho hg hperm _
  | send hsec hp hi hc hresult hd =>
    refine (h.send hr hsec hp hi hc hresult).narrow rfl fun sec' hsec' => ?_
    cases hsec'
    exact ⟨_, hsec, rfl, fun i hi => ⟨hp ▸ List.mem_cons_of_mem _ hi, fun c => id⟩⟩
  | sendDelete hsec hp hi hc hresult hd =>
    refine (h.send hr hsec hp hi hc hresult).narrow rfl fun sec' hsec' => ?_
    cases hsec'
    refine ⟨_, hsec, rfl, fun i hi => ⟨hp ▸ List.mem_cons_of_mem _ hi, fun c hc => ?_⟩⟩
    have hne := (AList.mem_erase.mp (mem_of_lookup hc)).1
    exact (AList.lookup_erase_ne hne).symm.trans hc
  | unlock hsec hp => exact h.narrow rfl fun sec' hsec' => by cases hsec'

/-! ## What a call keeps -/

/-- A call has no index before `Start` has answered. -/
def Indexed (s : RSM R V S) : Prop :=
  ∀ c call, s.calls c = some call → call.phase = .identify ∨ call.phase = .start →
    call.index = none

/-- A call that has an index keeps it, with its id and its term. -/
def KeepsStamps (s s' : RSM R V S) : Prop :=
  ∀ c call, s.calls c = some call → call.index ≠ none →
    ∃ call', s'.calls c = some call' ∧ call'.stamp = call.stamp

theorem KeepsStamps.of_calls (h : s'.calls = s.calls) : s.KeepsStamps s' :=
  fun _ call hc _ => ⟨call, h ▸ hc, rfl⟩

theorem Indexed.setCall (h : s.Indexed) (hc : s.calls c = some call) (call' : Call R V)
    (hcalls : s'.calls = (s.setCall c call').calls)
    (hindex : call'.phase = .identify ∨ call'.phase = .start → call'.index = none)
    (hkeep : call.index ≠ none → call'.stamp = call.stamp) : s'.Indexed ∧ s.KeepsStamps s' := by
  refine ⟨fun j old hj => ?_, fun j old hj hne => ?_⟩
  · rw [hcalls] at hj
    by_cases hjc : j = c
    · subst hjc
      cases setCall_self.symm.trans hj
      exact hindex
    · exact h j old ((setCall_ne hjc).symm.trans hj)
  · rw [hcalls]
    by_cases hjc : j = c
    · subst hjc
      cases hc.symm.trans hj
      exact ⟨call', setCall_self, hkeep hne⟩
    · exact ⟨old, (setCall_ne hjc).trans hj, rfl⟩

theorem Indexed.step (h : s.Indexed) (hr : s.Registered) {x : Action R D}
    (hx : s.step σ x = some s') : s'.Indexed ∧ s.KeepsStamps s' := by
  have hnone {c : ℕ} {call : Call R V} (hc : s.calls c = some call)
      (hp : call.phase = .identify ∨ call.phase = .start) (hne : call.index ≠ none) : False :=
    hne (h c call hc hp)
  cases stepped hx with
  | submit req =>
    refine ⟨fun c call hc => ?_, fun c call hc _ => ?_⟩
    · by_cases hne : c = s.next
      · subst hne
        cases setCall_self.symm.trans hc
        exact fun _ => rfl
      · exact h c call ((setCall_ne hne).symm.trans hc)
    · have hne : c ≠ s.next := by
        rintro rfl
        cases (hr.fresh _ le_rfl).symm.trans hc
      exact ⟨call, (setCall_ne hne).trans hc, rfl⟩
  | @notLeader c call hc hp =>
    exact h.setCall hc { call with phase := .done .wrongLeader } rfl
      (fun hphase => by simp at hphase) fun _ => rfl
  | @start c call index term hc hp =>
    exact h.setCall hc { call with index := some index, term := term, phase := .register } rfl
      (fun hphase => by simp at hphase) fun hne => (hnone hc (.inr hp) hne).elim
  | @receive c call result hc hp hresult =>
    exact h.setCall hc { call with result := none, phase := .unregister result } rfl
      (fun hphase => by simp at hphase) fun _ => rfl
  | restore hidle | doOp hidle hm | close hidle | tick hnone | unlock hsec hp =>
    exact ⟨h, .of_calls rfl⟩
  | ignore m => exact ⟨h, .of_calls rfl⟩
  | @identify i c order call hl hg hc hp =>
    exact h.setCall hc { call with id := s.nextOpId, phase := .start } rfl
      (fun _ => h c call hc (.inl hp)) fun hne => (hnone hc (.inl hp) hne).elim
  | @register i c order call index hl hg hc hp hindex =>
    exact h.setCall hc { call with phase := .wait } rfl (fun hphase => by simp at hphase)
      fun _ => rfl
  | @unregister i c order call index result hl hg hc hp hindex =>
    exact h.setCall hc { call with phase := .done result } rfl (fun hphase => by simp at hphase)
      fun _ => rfl
  | beginSection hl hg hsub hperm =>
    refine ⟨fun c call hc => ?_, fun c call hc _ => ⟨_, congrArg (Option.map _) hc, rfl⟩⟩
    obtain ⟨old, hold, rfl⟩ := Option.map_eq_some_iff.mp hc
    exact h c old hold
  | @send sec idx rest c call hsec hp hi hc hresult hd =>
    exact h.setCall hc { call with result := some sec.result, sent := call.sent + 1 } rfl
      (h c call hc) fun _ => rfl
  | @sendDelete sec idx rest c call hsec hp hi hc hresult hd =>
    exact h.setCall hc { call with result := some sec.result, sent := call.sent + 1 } rfl
      (h c call hc) fun _ => rfl

end RSM

end CollabIde
