import CollabIde.Rsm.Results

/-!
# What an OK means

A call of `Submit` gets OK if the applied entry at its index has its id. Here `mine` says which
calls an index belongs to; if the ids do not deceive `reader` (`Matched`), a call that takes OK has
the index, and its value is what `DoOp` has returned for it.
-/

namespace CollabIde

namespace RSM

variable {R V S D : Type} {σ : StateMachine R V S D} {s s' : RSM R V S} {c : ℕ} {call : Call R V}

/-- The entry at the index is the call's (`mine`), and `DoOp` has returned the value for it. -/
def Earned (s : RSM R V S) (mine : ℤ → ℕ → Prop) (i : ℤ) (c : ℕ) (value : Option V) : Prop :=
  mine i c ∧ ∃ v, value = some v ∧ (i, v) ∈ s.results

/-- What `reader` applies is not taken for the operation of another call that waits. -/
def Matched (s : RSM R V S) (mine : ℤ → ℕ → Prop) : Action R D → Prop
  | .grant i _ => s.queue[i]? = some .reader → match s.reading with
    | .command index op _ => ∀ c ∈ s.channels.lookup index, ∀ call ∈ s.calls c,
        call.taken = none → op.id = call.id → mine index c
    | _ => True
  | _ => True

/-- The invariant of the results. -/
structure Truthful (s : RSM R V S) (mine : ℤ → ℕ → Prop) : Prop where
  taken : ∀ c call, s.calls c = some call → ∀ value, call.taken = some ⟨.ok, value⟩ →
    ∃ i, call.index = some i ∧ s.Earned mine i c value
  locked : ∀ sec, s.locked = some sec → ∀ value, sec.result = ⟨.ok, value⟩ →
    ∀ i ∈ sec.pending, ∀ c, s.channels.lookup i = some c → ∀ call, s.calls c = some call →
    call.taken = none → s.Earned mine i c value
  reading : ∀ i op v, s.reading = .command i op v → (i, v) ∈ s.results

theorem Earned.mono {mine mine' : ℤ → ℕ → Prop} {i : ℤ} {value : Option V}
    (h : s.Earned mine i c value) (hm : ∀ i c, mine i c → mine' i c)
    (hres : s.results ⊆ s'.results) : s'.Earned mine' i c value := by
  obtain ⟨hmine, v, hv, hmem⟩ := h
  exact ⟨hm i c hmine, v, hv, hres hmem⟩

theorem Truthful.mono {mine mine' : ℤ → ℕ → Prop} (h : s.Truthful mine)
    (hm : ∀ i c, mine i c → mine' i c) : s.Truthful mine' where
  taken c call hc value hv := by
    obtain ⟨i, hi, he⟩ := h.taken c call hc value hv
    exact ⟨i, hi, he.mono hm (List.Subset.refl _)⟩
  locked sec hsec value hv i hi c hc call hcall hnone :=
    (h.locked sec hsec value hv i hi c hc call hcall hnone).mono hm (List.Subset.refl _)
  reading := h.reading

/-- An OK of the call is earned. -/
def Earns (s : RSM R V S) (mine : ℤ → ℕ → Prop) (c : ℕ) (stamp : Option ℤ × BitVec 64 × ℤ)
    (r : OpResult V) : Prop :=
  ∀ value, r = ⟨.ok, value⟩ → ∃ i, stamp.1 = some i ∧ s.Earned mine i c value

theorem Truthful.results {mine : ℤ → ℕ → Prop} (h : s.Truthful mine) (hr : s.Registered) :
    s.Results (s.Earns mine) where
  taken c call hc _ htaken value hv := h.taken c call hc value (hv ▸ htaken)
  locked sec hsec i hi c hc call hcall hnone value hv :=
    ⟨i, (hr.phase hc hcall).2, h.locked sec hsec value hv i hi c hc call hcall hnone⟩

theorem Results.truthful {mine : ℤ → ℕ → Prop} (h : s.Results (s.Earns mine)) (hr : s.Registered)
    (hreading : ∀ i op v, s.reading = .command i op v → (i, v) ∈ s.results) :
    s.Truthful mine where
  taken c call hc value hv := h.taken c call hc _ hv value rfl
  locked sec hsec value hv i hi c hc call hcall hnone := by
    obtain ⟨k, hk, hearned⟩ := h.locked sec hsec i hi c hc call hcall hnone value hv
    cases (hr.phase hc hcall).2.symm.trans hk
    exact hearned
  reading := hreading

/-- `reader` answers OK only to a call that its entry is of. -/
theorem Truthful.answers {mine : ℤ → ℕ → Prop} (h : s.Truthful mine) (hr : s.Registered)
    {x : Action R D} (ho : s.Matched mine x) : s.Answers (s.Earns mine) x := by
  cases x with
  | start c answer =>
    cases answer with
    | none => exact fun call _ value hv => by cases hv
    | some _ => trivial
  | grant i order =>
    intro g hg k hk c hc call hcall hnone value hv
    cases g with
    | submit d => cases hk
    | leaderCheck => cases hv
    | reader =>
      have ho' := ho hg
      cases hread : s.reading with
      | command index op v =>
        simp only [reply, hread] at hv
        split at hv
        · cases hv
        · rename_i hid
          cases hv
          simp only [RSM.targets, hread] at hk
          split at hk
          · cases List.mem_singleton.mp hk
            obtain ⟨call', hc', hindex, -, hchan, -⟩ := hr.own hc
            cases hcall.symm.trans hc'
            rw [hchan, Option.getD_some, not_ne_iff] at hid
            simp only [hread] at ho'
            exact ⟨k, hindex, ho' c hc call hcall hnone hid, v, rfl, h.reading _ _ _ hread⟩
          · cases hk
      | _ =>
        simp only [reply, hread] at hv
        cases hv
  | _ => trivial

theorem Reading.after_ne_command (r : Reading R V) {i : ℤ} {op : Op R} {v : V} :
    r.after ≠ .command i op v := by
  cases r with
  | _ =>
    intro h
    cases h

/-- What `DoOp` has returned stays, and what `reader` has taken up is there. -/
theorem step_results {x : Action R D} (hx : s.step σ x = some s') : s.results ⊆ s'.results ∧
    ((∀ i op v, s.reading = .command i op v → (i, v) ∈ s.results) →
      ∀ i op v, s'.reading = .command i op v → (i, v) ∈ s'.results) := by
  cases stepped hx with
  | doOp hidle hm =>
    refine ⟨List.subset_append_left .., fun _ i op v hread => ?_⟩
    cases hread
    exact List.mem_append_right _ List.mem_cons_self
  | restore hidle | close hidle =>
    exact ⟨List.Subset.refl _, fun _ i op v hread => by cases hread⟩
  | unlock hsec hp =>
    refine ⟨List.Subset.refl _, fun h i op v hread => ?_⟩
    dsimp only at hread
    split at hread
    · exact absurd hread s.reading.after_ne_command
    · exact h i op v hread
  | _ => exact ⟨List.Subset.refl _, id⟩

theorem Truthful.step {mine : ℤ → ℕ → Prop} (h : s.Truthful mine) (hr : s.Registered)
    {x : Action R D} (ho : s.Matched mine x) (hx : s.step σ x = some s') : s'.Truthful mine := by
  obtain ⟨hsub, hreading⟩ := step_results hx
  have hstep := (h.results hr).step hr (h.answers hr ho) hx
  refine Results.truthful (hstep.mono fun c stamp r hearns value hv => ?_) (hr.step hx)
    (hreading h.reading)
  obtain ⟨i, hi, hearned⟩ := hearns value hv
  exact ⟨i, hi, hearned.mono (fun _ _ => id) hsub⟩

/-- Without a message, `reader` takes nothing up and applies nothing. -/
theorem step_reading {x : Action R D} (hm : ∀ m, x ≠ .message m) (hx : s.step σ x = some s') :
    s'.results = s.results ∧ ∀ i op v, s'.reading = .command i op v →
      s.reading = .command i op v := by
  cases stepped hx with
  | restore | doOp | ignore => exact absurd rfl (hm _)
  | close => exact ⟨rfl, fun i op v hread => by cases hread⟩
  | unlock =>
    refine ⟨rfl, fun i op v hread => ?_⟩
    dsimp only at hread
    split at hread
    · exact absurd hread s.reading.after_ne_command
    · exact hread
  | _ => exact ⟨rfl, fun i op v => id⟩

end RSM

end CollabIde
