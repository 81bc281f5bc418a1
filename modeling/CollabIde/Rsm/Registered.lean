import CollabIde.Rsm.Submit

/-!
# The calls and the maps

What holds between the calls of `Submit` and the maps of the RSM in every state. The channel at an
index is that of a call that has got the index and still has to unregister, the maps have the same
indexes, and a call's channel has got as many results as the call has received and still finds.
A section under the lock only sends on channels that are in the maps.
-/

namespace CollabIde

namespace RSM

/-- The call has put its channel into the maps, and has not deleted it. -/
def Phase.registered {V : Type} : Phase V → Bool
  | .wait | .unregister _ => true
  | _ => false

/-- The call has taken its result. -/
def Phase.received {V : Type} : Phase V → Bool
  | .unregister _ | .done _ => true
  | _ => false

/-- The results that have been sent to the call are in its channel or received. -/
def Call.Counted {R V : Type} (call : Call R V) : Prop :=
  match call.phase with
  | .identify | .start | .register => call.sent = 0 ∧ call.result = none
  | .wait => call.sent = call.result.toList.length
  | .unregister _ => call.sent = call.result.toList.length + 1
  | .done _ => True

variable {R V S D : Type} {σ : StateMachine R V S D} {s s' : RSM R V S} {c : ℕ} {call : Call R V}

/-- The invariant of the maps. -/
structure Registered (s : RSM R V S) : Prop where
  fresh : ∀ c, s.next ≤ c → s.calls c = none
  own : ∀ {i c}, s.channels.lookup i = some c → ∃ call, s.calls c = some call ∧
    call.index = some i ∧ call.phase.registered = true ∧
    s.chanIds.lookup i = some call.id ∧ s.chanTerms.lookup i = some call.term
  channel : ∀ {i}, i ∈ s.chanTerms → i ∈ s.channels
  counted : ∀ {c call}, s.calls c = some call → call.Counted
  locked : ∀ {sec}, s.locked = some sec → sec.pending.Nodup ∧ ∀ i ∈ sec.pending, i ∈ s.channels

theorem mem_of_lookup {α : Type} {m : GoMap α} {i : ℤ} {v : α} (h : m.lookup i = some v) :
    i ∈ m :=
  AList.lookup_isSome.mp (Option.isSome_iff_exists.mpr ⟨v, h⟩)

theorem setCall_self {call' : Call R V} : (s.setCall c call').calls c = some call' :=
  Function.update_self ..

theorem setCall_ne {j : ℕ} {call' : Call R V} (h : j ≠ c) :
    (s.setCall c call').calls j = s.calls j :=
  Function.update_of_ne h ..

theorem Registered.make (me : ℤ) (sm : S) : (make me sm : RSM R V S).Registered where
  fresh _ _ := rfl
  own h := by cases h
  channel h := absurd h (AList.notMem_empty _)
  counted h := by cases h
  locked h := by cases h

/-- A call that has its channel in the maps is where its channel is. -/
theorem Registered.phase (h : s.Registered) {i : ℤ} (hi : s.channels.lookup i = some c)
    (hc : s.calls c = some call) : call.phase.registered = true ∧ call.index = some i := by
  obtain ⟨call', hc', hi', hr, -⟩ := h.own hi
  cases hc'.symm.trans hc
  exact ⟨hr, hi'⟩

/-- A call goes on; if its channel is in the maps, it stays the call that they are about. -/
theorem Registered.setCall (h : s.Registered) (hc : s.calls c = some call) (call' : Call R V)
    (hcount : call'.Counted) (hown : ∀ i, s.channels.lookup i = some c → call'.index = call.index ∧
      call'.phase.registered = true ∧ call'.id = call.id ∧ call'.term = call.term) :
    (s.setCall c call').Registered where
  fresh j hj := by
    rw [setCall_ne]
    · exact h.fresh j hj
    · rintro rfl
      cases (h.fresh j hj).symm.trans hc
  own {i j} hi := by
    obtain ⟨old, hj, hindex, hr, hid, hterm⟩ := h.own hi
    by_cases hjc : j = c
    · subst hjc
      cases hj.symm.trans hc
      obtain ⟨hindex', hr', hid', hterm'⟩ := hown i hi
      exact ⟨call', setCall_self, hindex'.trans hindex, hr', hid' ▸ hid, hterm' ▸ hterm⟩
    · exact ⟨old, (setCall_ne hjc).trans hj, hindex, hr, hid, hterm⟩
  channel := h.channel
  counted {j old} hj := by
    by_cases hjc : j = c
    · subst hjc
      cases hj.symm.trans setCall_self
      exact hcount
    · exact h.counted ((setCall_ne hjc).symm.trans hj)
  locked := h.locked

/-- A call that is not in the maps goes on. -/
theorem Registered.setCall_of_phase (h : s.Registered) (hc : s.calls c = some call)
    (hp : call.phase.registered = false) (call' : Call R V) (hcount : call'.Counted) :
    (s.setCall c call').Registered :=
  h.setCall hc call' hcount fun _ hi => by
    rw [(h.phase hi hc).1] at hp
    cases hp

theorem Registered.insertAt (h : s.Registered) (hc : s.calls c = some call) {i : ℤ}
    (hi : call.index = some i) (hr : call.phase.registered = true) (hl : s.locked = none) :
    (s.insertAt i c call).Registered where
  fresh := h.fresh
  own {j c'} hj := by
    simp only [RSM.insertAt] at hj ⊢
    by_cases hji : j = i
    · subst hji
      rw [AList.lookup_insert, Option.some.injEq] at hj
      subst hj
      exact ⟨call, hc, hi, hr, AList.lookup_insert _, AList.lookup_insert _⟩
    · rw [AList.lookup_insert_ne hji] at hj ⊢
      rw [AList.lookup_insert_ne hji]
      exact h.own hj
  channel {j} hj := by
    obtain rfl | hj := (AList.mem_insert _).mp hj
    · exact (AList.mem_insert _).mpr (.inl rfl)
    · exact (AList.mem_insert _).mpr (.inr (h.channel hj))
  counted := h.counted
  locked hsec := by cases hl.symm.trans hsec

theorem Registered.deleteAt (h : s.Registered) (i : ℤ)
    (hl : ∀ sec, s.locked = some sec → i ∉ sec.pending) : (s.deleteAt i).Registered where
  fresh := h.fresh
  own {j c'} hj := by
    simp only [RSM.deleteAt] at hj ⊢
    by_cases hji : j = i
    · subst hji
      rw [AList.lookup_erase] at hj
      cases hj
    · rw [AList.lookup_erase_ne hji] at hj ⊢
      rw [AList.lookup_erase_ne hji]
      exact h.own hj
  channel {j} hj := by
    obtain ⟨hji, hj⟩ := AList.mem_erase.mp hj
    exact AList.mem_erase.mpr ⟨hji, h.channel hj⟩
  counted := h.counted
  locked {sec} hsec := by
    obtain ⟨hnodup, hmem⟩ := h.locked hsec
    refine ⟨hnodup, fun j hj => AList.mem_erase.mpr ⟨?_, hmem j hj⟩⟩
    rintro rfl
    exact hl sec hsec hj

/-- The lock changes hands, or its section goes on. -/
theorem Registered.setLocked (h : s.Registered) {l : Option (Section V)}
    (hl : ∀ sec, l = some sec → sec.pending.Nodup ∧ ∀ i ∈ sec.pending, i ∈ s.channels) :
    { s with locked := l }.Registered where
  fresh := h.fresh
  own := h.own
  channel := h.channel
  counted := h.counted
  locked := hl _

/-- What a section is about to send on is in the maps. -/
theorem Registered.targets (h : s.Registered) (g : Goroutine) :
    (s.targets g).Nodup ∧ ∀ i ∈ s.targets g, i ∈ s.channels := by
  cases g with
  | submit c => exact ⟨List.nodup_nil, fun _ hi => by cases hi⟩
  | reader =>
    simp only [RSM.targets]
    split
    · split
      · rename_i hsome
        refine ⟨List.nodup_singleton _, fun i hi => ?_⟩
        rw [List.mem_singleton] at hi
        exact hi ▸ AList.lookup_isSome.mp hsome
      · exact ⟨List.nodup_nil, fun _ hi => by cases hi⟩
    · exact ⟨s.channels.keys_nodup, fun _ hi => hi⟩
    · exact ⟨s.channels.keys_nodup, fun _ hi => hi⟩
    · exact ⟨List.nodup_nil, fun _ hi => by cases hi⟩
  | leaderCheck =>
    simp only [RSM.targets]
    split
    · exact ⟨s.chanTerms.keys_nodup.filter _, fun i hi => h.channel (List.mem_of_mem_filter hi)⟩
    · exact ⟨List.nodup_nil, fun _ hi => by cases hi⟩

/-- The calls at the start of a section. -/
theorem Registered.mark (h : s.Registered) (f : Call R V → Bool) :
    { s with calls := fun c => (s.calls c).map fun call : Call R V =>
        { call with passed := f call } }.Registered where
  fresh c hc := by simp only [h.fresh c hc, Option.map_none]
  own hi := by
    obtain ⟨call, hc, hindex, hr, hid, hterm⟩ := h.own hi
    exact ⟨{ call with passed := f call }, by simp only [hc, Option.map_some], hindex, hr, hid,
      hterm⟩
  channel := h.channel
  counted {c call} hc := by
    obtain ⟨call', hc', rfl⟩ := Option.map_eq_some_iff.mp hc
    exact (h.counted hc' : call'.Counted)
  locked := h.locked

/-- A section goes on with the rest of its channels. -/
theorem Registered.rest (h : s.Registered) {sec : Section V} {idx : ℤ} {rest : List ℤ}
    (hsec : s.locked = some sec) (hp : sec.pending = idx :: rest) :
    rest.Nodup ∧ ∀ i ∈ rest, i ∈ s.channels := by
  obtain ⟨hnodup, hmem⟩ := h.locked hsec
  rw [hp] at hnodup hmem
  exact ⟨hnodup.of_cons, fun i hi => hmem i (List.mem_cons_of_mem _ hi)⟩

/-- A send is counted. -/
theorem Registered.counted_send (h : s.Registered) {idx : ℤ} (hi : s.channels.lookup idx = some c)
    (hc : s.calls c = some call) (hresult : call.result = none) (result : OpResult V) :
    { call with result := some result, sent := call.sent + 1 }.Counted := by
  have hcount := h.counted hc
  have hr := (h.phase hi hc).1
  cases hphase : call.phase with
  | wait | unregister =>
    simp only [Call.Counted, hphase, hresult, Option.toList_none, List.length_nil] at hcount
    simp only [Call.Counted, hcount, Option.toList_some, List.length_singleton]
  | _ =>
    rw [hphase] at hr
    cases hr

theorem Registered.step (h : s.Registered) {x : Action R D} (hx : s.step σ x = some s') :
    s'.Registered := by
  cases stepped hx with
  | submit req =>
    refine ⟨fun c hc => ?_, fun {i c} hi => ?_, h.channel, fun {c call} hc => ?_, h.locked⟩
    · have hne : c ≠ s.next := by
        rintro rfl
        exact absurd hc (Nat.not_succ_le_self _)
      exact (setCall_ne hne).trans (h.fresh c (Nat.le_of_succ_le hc))
    · obtain ⟨call, hc, hrest⟩ := h.own hi
      refine ⟨call, (setCall_ne ?_).trans hc, hrest⟩
      rintro rfl
      cases (h.fresh _ le_rfl).symm.trans hc
    · by_cases hne : c = s.next
      · subst hne
        cases hc.symm.trans setCall_self
        exact ⟨rfl, rfl⟩
      · exact h.counted ((setCall_ne hne).symm.trans hc)
  | @notLeader c call hc hp => exact h.setCall_of_phase hc (by rw [hp]; rfl) _ trivial
  | @start c call index term hc hp =>
    have hcount := h.counted hc
    simp only [Call.Counted, hp] at hcount
    have h' := h.setCall_of_phase hc (by rw [hp]; rfl) { call with
      index := some index, term := term, phase := .register } hcount
    exact { h' with }
  | @receive c call result hc hp hresult =>
    have hcount := h.counted hc
    simp only [Call.Counted, hp, hresult] at hcount
    have h' := h.setCall hc { call with result := none, phase := .unregister result }
      hcount fun i hi => ⟨rfl, rfl, rfl, rfl⟩
    exact { h' with }
  | restore hidle => exact { h with }
  | ignore m => exact h
  | doOp hidle hm => exact { h with }
  | close hidle => exact { h with }
  | tick hnone => exact { h with }
  | @identify i c order call hl hg hc hp =>
    have hcount := h.counted hc
    simp only [Call.Counted, hp] at hcount
    have h' := h.setCall_of_phase hc (by rw [hp]; rfl) { call with
      id := s.nextOpId, phase := .start } hcount
    exact { h' with }
  | @register i c order call index hl hg hc hp hindex =>
    have hcount := h.counted hc
    simp only [Call.Counted, hp] at hcount
    have h' := h.setCall_of_phase hc (by rw [hp]; rfl) { call with phase := .wait }
      (by rw [Call.Counted, hcount.2]; exact hcount.1)
    exact { h'.insertAt setCall_self hindex rfl hl with }
  | @unregister i c order call index result hl hg hc hp hindex =>
    have h' := (h.deleteAt index fun sec hsec => by cases hl.symm.trans hsec).setCall hc
      { call with phase := .done result } trivial fun j hj => by
        obtain ⟨hji, -⟩ := AList.mem_erase.mp (mem_of_lookup hj)
        rw [RSM.deleteAt, AList.lookup_erase_ne hji] at hj
        cases hindex.symm.trans (h.phase hj hc).2
        exact absurd rfl hji
    exact { h' with }
  | @beginSection i order g deletes hl hg hsub hperm =>
    have h' := (h.mark fun call => call.passed || g = .reader && call.index.any s.reading.covers)
      |>.setLocked (l := some ⟨g, order, s.reply g, deletes⟩) fun sec hsec => by
        cases hsec
        obtain ⟨hnodup, hmem⟩ := h.targets g
        exact ⟨hperm.nodup_iff.mpr hnodup, fun i hi => hmem i (hperm.subset hi)⟩
    exact { h' with }
  | @send sec idx rest c call hsec hp hi hc hresult hd =>
    have h' := (h.setLocked (l := some { sec with pending := rest }) fun sec' hsec' => by
      cases hsec'
      exact h.rest hsec hp).setCall hc _ (h.counted_send hi hc hresult sec.result)
        fun _ _ => ⟨rfl, (h.phase hi hc).1, rfl, rfl⟩
    exact { h' with }
  | @sendDelete sec idx rest c call hsec hp hi hc hresult hd =>
    have h' := ((h.setLocked (l := some { sec with pending := rest }) fun sec' hsec' => by
      cases hsec'
      exact h.rest hsec hp).deleteAt idx fun sec' hsec' => by
        cases hsec'
        exact (List.nodup_cons.mp (hp ▸ (h.locked hsec).1)).1).setCall hc _
          (h.counted_send hi hc hresult sec.result) fun _ _ => ⟨rfl, (h.phase hi hc).1, rfl, rfl⟩
    exact { h' with }
  | unlock hsec hp =>
    have h' := h.setLocked (l := none) fun sec hsec => by cases hsec
    exact { h' with }

/-- **The maps are those of the calls that wait**, in every state. -/
theorem registered_of_reach {ok : RSM R V S → Action R D → Prop}
    (hs : (machine σ).Reach ok s) : s.Registered := by
  refine hs.invariant ?_ fun s x s' _ h _ hx => h.step hx
  rintro s ⟨me, sm, rfl⟩
  exact .make me sm

end RSM

end CollabIde
