import CollabIde.Rsm.Registered

/-!
# The ids of the operations

An id is made of the number of the peer and of a counter. As long as both are below `2^32`, calls of
different peers have different ids, and so have the calls of one life of a peer. A call keeps its
id and its request.
-/

namespace CollabIde

namespace RSM

variable {R V S D : Type} {σ : StateMachine R V S D} {s s' : RSM R V S} {c : ℕ} {call : Call R V}

/-- `int64(rsm.me)<<32 | rsm.nextId`. -/
def idOf (me : ℤ) (k : BitVec 64) : BitVec 64 := (BitVec.ofInt 64 me <<< 32) ||| k

theorem toNat_idOf {me : ℕ} {k : BitVec 64} (hme : me < 2 ^ 32) (hk : k.toNat < 2 ^ 32) :
    (idOf me k).toNat = me * 2 ^ 32 + k.toNat := by
  have hof : (BitVec.ofInt 64 me).toNat = me := by
    rw [BitVec.ofInt_natCast, BitVec.toNat_ofNat]
    omega
  have hshift : (BitVec.ofInt 64 me <<< 32).toNat = me <<< 32 := by
    rw [BitVec.toNat_shiftLeft, hof, Nat.shiftLeft_eq]
    omega
  rw [idOf, BitVec.toNat_or, hshift, ← Nat.shiftLeft_add_eq_or_of_lt hk, Nat.shiftLeft_eq]

/-- Peer numbers and counters below `2^32` do not run into each other. -/
theorem idOf_inj {me me' : ℕ} {k k' : BitVec 64} (hme : me < 2 ^ 32) (hme' : me' < 2 ^ 32)
    (hk : k.toNat < 2 ^ 32) (hk' : k'.toNat < 2 ^ 32) (h : idOf me k = idOf me' k') :
    me = me' ∧ k = k' := by
  have hnat := congrArg BitVec.toNat h
  rw [toNat_idOf hme hk, toNat_idOf hme' hk'] at hnat
  exact ⟨by omega, BitVec.eq_of_toNat_eq (by omega)⟩

/-- The call has its id. -/
def Phase.identified : Phase V → Bool
  | .identify => false
  | _ => true

/-- The calls of one life of peer `p` have different ids. -/
structure Numbered (s : RSM R V S) (p : ℕ) : Prop where
  me : s.me = p
  next : s.nextId.toNat < 2 ^ 32
  id : ∀ c call, s.calls c = some call → call.phase.identified = true →
    p < 2 ^ 32 ∧ ∃ k : BitVec 64, k.toNat ≤ s.nextId.toNat ∧ call.id = idOf p k
  distinct : ∀ c call d other, s.calls c = some call → s.calls d = some other →
    call.phase.identified = true → other.phase.identified = true → call.id = other.id → c = d

/-- If the goroutine is given `mu` for a new id, the id is made of numbers below `2^32`. -/
def FitsFor (s : RSM R V S) : Goroutine → Prop
  | .submit c => ∀ call ∈ s.calls c, call.phase.identified = false →
      s.me < 2 ^ 32 ∧ s.nextId.toNat + 1 < 2 ^ 32
  | _ => True

/-- New ids are made of numbers below `2^32`. -/
def Fits (s : RSM R V S) : Action R D → Prop
  | .grant i _ => ∀ g ∈ s.queue[i]?, s.FitsFor g
  | _ => True

instance (s : RSM R V S) : DecidablePred s.FitsFor
  | .submit c => inferInstanceAs (Decidable (∀ call ∈ s.calls c, call.phase.identified = false →
      s.me < 2 ^ 32 ∧ s.nextId.toNat + 1 < 2 ^ 32))
  | .reader | .leaderCheck => .isTrue trivial

instance (s : RSM R V S) : (x : Action R D) → Decidable (s.Fits x)
  | .grant i _ => inferInstanceAs (Decidable (∀ g ∈ s.queue[i]?, s.FitsFor g))
  | .submit _ | .start _ _ | .receive _ | .message _ | .close | .tick _ | .send | .unlock =>
    .isTrue trivial

/-- The calls of `s` in `s'`. -/
def Follows (s s' : RSM R V S) : Prop :=
  ∀ c call, s.calls c = some call → ∃ call', s'.calls c = some call' ∧ call'.req = call.req ∧
    (call.phase.identified = true → call'.phase.identified = true ∧ call'.id = call.id)

theorem Numbered.make (p : ℕ) (sm : S) : (make p sm : RSM R V S).Numbered p where
  me := rfl
  next := (by decide : (0 : BitVec 64).toNat < 2 ^ 32)
  id c call hc := by cases hc
  distinct c call d other hc := by cases hc

/-- The calls that have ids have had them before. -/
theorem Numbered.of_calls {p : ℕ} (h : s.Numbered p) (hme : s'.me = s.me)
    (hnext : s'.nextId = s.nextId) (hcalls : ∀ c call', s'.calls c = some call' →
      call'.phase.identified = true →
      ∃ call, s.calls c = some call ∧ call.phase.identified = true ∧ call.id = call'.id) :
    s'.Numbered p where
  me := hme.trans h.me
  next := hnext ▸ h.next
  id c call' hc' hid' := by
    obtain ⟨call, hc, hid, heq⟩ := hcalls c call' hc' hid'
    exact heq ▸ hnext ▸ h.id c call hc hid
  distinct c call' d other' hc' hd' hid' hod' heq := by
    obtain ⟨call, hc, hid, hcall⟩ := hcalls c call' hc' hid'
    obtain ⟨other, hd, hod, hother⟩ := hcalls d other' hd' hod'
    exact h.distinct c call d other hc hd hid hod (hcall.trans (heq.trans hother.symm))

/-- A call that has its id goes on. -/
theorem Numbered.setCall {p : ℕ} (h : s.Numbered p) (hc : s.calls c = some call)
    (call' : Call R V) (hid : call'.phase.identified = true →
      call.phase.identified = true ∧ call.id = call'.id) : (s.setCall c call').Numbered p := by
  refine h.of_calls rfl rfl fun j old hj hold => ?_
  by_cases hjc : j = c
  · subst hjc
    cases setCall_self.symm.trans hj
    exact ⟨call, hc, hid hold⟩
  · exact ⟨old, (setCall_ne hjc).symm.trans hj, hold, rfl⟩

/-- The next id is new. -/
theorem Numbered.identify {p : ℕ} (h : s.Numbered p) (c : ℕ) (call : Call R V) (hp : p < 2 ^ 32)
    (hnext : s.nextId.toNat + 1 < 2 ^ 32) :
    { s.setCall c { call with id := s.nextOpId, phase := .start } with
      nextId := s.nextId + 1 }.Numbered p := by
  have hsucc : (s.nextId + 1).toNat = s.nextId.toNat + 1 := by
    have hone : (1 : BitVec 64).toNat = 1 := rfl
    rw [BitVec.toNat_add, hone]
    omega
  have hid : s.nextOpId = idOf p (s.nextId + 1) := by rw [nextOpId, idOf, h.me]
  -- a call that has its id from before has a smaller number
  have hnew {d : ℕ} {other : Call R V} (hd : s.calls d = some other)
      (hod : other.phase.identified = true) : other.id ≠ s.nextOpId := by
    intro heq
    obtain ⟨-, k, hk, hother⟩ := h.id d other hd hod
    rw [hother, hid] at heq
    obtain ⟨-, rfl⟩ := idOf_inj hp hp (by omega) (by omega) heq
    omega
  refine ⟨h.me, hsucc ▸ hnext, fun j old hj hold => ?_, fun j old d other hj hd hold hod heq => ?_⟩
  · by_cases hjc : j = c
    · subst hjc
      cases setCall_self.symm.trans hj
      exact ⟨hp, s.nextId + 1, le_rfl, hid⟩
    · obtain ⟨-, k, hk, hk'⟩ := h.id j old ((setCall_ne hjc).symm.trans hj) hold
      exact ⟨hp, k, hk.trans (by rw [hsucc]; exact Nat.le_succ _), hk'⟩
  · by_cases hjc : j = c <;> by_cases hdc : d = c
    · exact hjc.trans hdc.symm
    · subst hjc
      cases setCall_self.symm.trans hj
      exact absurd heq.symm (hnew ((setCall_ne hdc).symm.trans hd) hod)
    · subst hdc
      cases setCall_self.symm.trans hd
      exact absurd heq (hnew ((setCall_ne hjc).symm.trans hj) hold)
    · exact h.distinct j old d other ((setCall_ne hjc).symm.trans hj)
        ((setCall_ne hdc).symm.trans hd) hold hod heq

theorem Numbered.step {p : ℕ} (h : s.Numbered p) {x : Action R D} (ho : s.Fits x)
    (hx : s.step σ x = some s') : s'.Numbered p := by
  cases stepped hx with
  | submit req =>
    refine h.of_calls rfl rfl fun c call hc hid => ?_
    by_cases hne : c = s.next
    · subst hne
      cases setCall_self.symm.trans hc
      cases hid
    · exact ⟨call, (setCall_ne hne).symm.trans hc, hid, rfl⟩
  | notLeader hc hp => exact h.setCall hc _ fun _ => ⟨by rw [hp]; rfl, rfl⟩
  | @start c call index term hc hp =>
    exact { h.setCall hc { call with
      index := some index, term := term, phase := .register } fun _ =>
        ⟨by rw [hp]; rfl, rfl⟩ with }
  | @receive c call result hc hp hresult =>
    exact { h.setCall hc { call with result := none, phase := .unregister result }
      fun _ => ⟨by rw [hp]; rfl, rfl⟩ with }
  | restore hidle | doOp hidle hm | close hidle | tick hnone | unlock hsec hp => exact { h with }
  | ignore m => exact h
  | @identify i c order call hl hg hc hp =>
    obtain ⟨hme, hnext⟩ := ho _ hg call hc (by rw [hp]; rfl)
    rw [h.me] at hme
    exact { h.identify c call (by exact_mod_cast hme) hnext with }
  | @register i c order call index hl hg hc hp hindex =>
    exact { h.setCall hc { call with phase := .wait } fun _ =>
      ⟨by rw [hp]; rfl, rfl⟩ with }
  | @unregister i c order call index result hl hg hc hp hindex =>
    exact { h.setCall hc { call with phase := .done result } fun _ =>
      ⟨by rw [hp]; rfl, rfl⟩ with }
  | beginSection hl hg hsub hperm =>
    refine h.of_calls rfl rfl fun c call hc hid => ?_
    obtain ⟨old, hold, rfl⟩ := Option.map_eq_some_iff.mp hc
    exact ⟨old, hold, hid, rfl⟩
  | @send sec idx rest c call hsec hp hi hc hresult hd =>
    exact { h.setCall hc { call with result := some sec.result, sent := call.sent + 1 }
      fun hid => ⟨hid, rfl⟩ with }
  | @sendDelete sec idx rest c call hsec hp hi hc hresult hd =>
    exact { h.setCall hc { call with result := some sec.result, sent := call.sent + 1 }
      fun hid => ⟨hid, rfl⟩ with }

theorem Follows.refl : s.Follows s := fun _ call hc => ⟨call, hc, rfl, fun h => ⟨h, rfl⟩⟩

/-- One call goes on. -/
theorem Follows.setCall (hc : s.calls c = some call) {call' : Call R V}
    (hcalls : s'.calls = (s.setCall c call').calls) (hreq : call'.req = call.req)
    (hid : call.phase.identified = true → call'.phase.identified = true ∧ call'.id = call.id) :
    s.Follows s' := by
  intro j old hj
  rw [hcalls]
  by_cases hjc : j = c
  · subst hjc
    cases hj.symm.trans hc
    exact ⟨call', setCall_self, hreq, hid⟩
  · exact ⟨old, (setCall_ne hjc).trans hj, rfl, fun h => ⟨h, rfl⟩⟩

/-- A call keeps its request and, once it has one, its id. -/
theorem Registered.follows (h : s.Registered) {x : Action R D} (hx : s.step σ x = some s') :
    s.Follows s' := by
  cases stepped hx with
  | submit req =>
    intro c call hc
    have hne : c ≠ s.next := by
      rintro rfl
      cases (h.fresh _ le_rfl).symm.trans hc
    exact ⟨call, (setCall_ne hne).trans hc, rfl, fun h => ⟨h, rfl⟩⟩
  | notLeader hc hp => exact Follows.setCall hc rfl rfl fun _ => ⟨rfl, rfl⟩
  | start hc hp => exact Follows.setCall hc rfl rfl fun _ => ⟨rfl, rfl⟩
  | receive hc hp hresult => exact Follows.setCall hc rfl rfl fun _ => ⟨rfl, rfl⟩
  | restore | doOp | close | tick | unlock => exact fun c call hc => Follows.refl c call hc
  | ignore m => exact .refl
  | identify hl hg hc hp =>
    refine Follows.setCall hc rfl rfl fun hid => ?_
    rw [hp] at hid
    cases hid
  | register hl hg hc hp hindex => exact Follows.setCall hc rfl rfl fun _ => ⟨rfl, rfl⟩
  | unregister hl hg hc hp hindex => exact Follows.setCall hc rfl rfl fun _ => ⟨rfl, rfl⟩
  | beginSection hl hg hsub hperm =>
    intro c call hc
    exact ⟨_, congrArg (Option.map _) hc, rfl, fun hid => ⟨hid, rfl⟩⟩
  | send hsec hp hi hc hresult hd => exact Follows.setCall hc rfl rfl fun hid => ⟨hid, rfl⟩
  | sendDelete hsec hp hi hc hresult hd => exact Follows.setCall hc rfl rfl fun hid => ⟨hid, rfl⟩

end RSM

end CollabIde
