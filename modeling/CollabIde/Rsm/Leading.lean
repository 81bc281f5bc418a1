import CollabIde.Rsm.Peers

/-!
# The calls of a leader

While a peer leads in a term, `Start` and `GetState` give the term, and it is neither started again
nor is its `applyCh` closed. A call that it has taken in the term is then refused only by `reader`:
because of the id that it finds at the call's index, and then the committed entry is not the call's,
or because it takes a snapshot, of which it tells all calls that wait (`leader_answers`). The
snapshot can be one that the peer has got before it led.
-/

namespace CollabIde

namespace RSM

namespace Peers

variable {n : ℕ} {R V S D : Type} (σ : StateMachine R V S D) (l : Fin n) (T : ℤ)

/-- What peer `l` has before it leads in term `T`. -/
structure Before (s : Peers n R V S) : Prop where
  calls : ∀ c call, (s.rsm l).calls c = some call → call.term < T
  checking : ∀ term ∈ (s.rsm l).checking, term ≤ T
  opened : (s.rsm l).reading ≠ .closed

/-- What happens while peer `l` leads in term `T`. -/
def Leads : Action n R S D → Prop
  | .peer p (.start _ answer) => p = l → ∃ index, answer = some (index, T)
  | .peer p (.tick term) => p = l → term = T
  | .peer p .close => p ≠ l
  | .restart p _ _ => p ≠ l
  | _ => True

/-- No call of the term waits when `reader` tells the calls of a snapshot. -/
def WokenBy (s : Peers n R V S) : Reading R V → Prop
  | .snapshot _ => ∀ i ∈ (s.rsm l).channels.keys, ∀ c ∈ (s.rsm l).channels.lookup i,
      ∀ call ∈ (s.rsm l).calls c, call.term = T → call.taken ≠ none
  | _ => True

/-- `reader` of peer `l` tells no call of the term of a snapshot. -/
def NoSnapshotWakes (s : Peers n R V S) : Action n R S D → Prop
  | .peer p (.grant i _) => p = l → (s.rsm l).queue[i]? = some .reader →
      s.WokenBy l T (s.rsm l).reading
  | _ => True

/-- Peer `l` leads in term `T`, from some state on. -/
def reign : Machine (Peers n R V S) (Action n R S D) where
  init s := (machine σ).Reachable s ∧ s.Before l T
  step := step σ

variable {σ l T} {s s' : Peers n R V S}

/-! ## What holds in every run -/

/-- The committed entries stand at their indexes, and an entry of a peer's present life has what its
call has kept. -/
structure Grounded (s : Peers n R V S) : Prop where
  registered : ∀ p, (s.rsm p).Registered
  indexed : ∀ p, (s.rsm p).Indexed
  reading : ∀ p i op v, (s.rsm p).reading = .command i op v → ∃ e, s.entry i = some e ∧ e.op = op
  given : ∀ e ∈ s.proposals, e.life ≤ s.life e.peer ∧ (e.life = s.life e.peer →
    ∃ call, (s.rsm e.peer).calls e.call = some call ∧ call.index = some e.index ∧
      e.op.id = call.id)
  committed : s.committed ⊆ s.proposals
  aligned : ∀ (k : ℕ) e, s.committed[k]? = some e → e.index = k + 1

theorem Grounded.entry_of_mem (h : s.Grounded) {e : Proposal n R} (he : e ∈ s.committed) :
    s.entry e.index = some e := by
  obtain ⟨k, hk⟩ := List.mem_iff_getElem?.mp he
  rw [h.aligned k e hk, entry_succ, hk]

/-- A peer goes on in the same life. -/
theorem Grounded.setRsm (h : s.Grounded) {p : Fin n} {rsm : RSM R V S}
    (hrsm : s'.rsm = Function.update s.rsm p rsm) (hlife : s'.life = s.life)
    (hcommitted : s'.committed = s.committed) (hregistered : rsm.Registered)
    (hindexed : rsm.Indexed) (hkeeps : (s.rsm p).KeepsStamps rsm)
    (hreading : ∀ i op v, rsm.reading = .command i op v → ∃ e, s.entry i = some e ∧ e.op = op)
    (hgiven : ∀ e ∈ s'.proposals, e ∈ s.proposals ∨ e.peer = p ∧ e.life = s.life p ∧
      ∃ call, rsm.calls e.call = some call ∧ call.index = some e.index ∧ e.op.id = call.id)
    (hsub : s.proposals ⊆ s'.proposals) : s'.Grounded := by
  have hself : s'.rsm p = rsm := by rw [hrsm, Function.update_self]
  have hne {q : Fin n} (hq : q ≠ p) : s'.rsm q = s.rsm q := by rw [hrsm, Function.update_of_ne hq]
  have hentry (i : ℤ) : s'.entry i = s.entry i := by rw [entry, entry, hcommitted]
  refine ⟨fun q => ?_, fun q => ?_, fun q i op v hr => ?_, fun e he => ?_,
    fun e he => hsub (h.committed (hcommitted ▸ he)), hcommitted ▸ h.aligned⟩
  · by_cases hq : q = p
    · exact hq ▸ hself ▸ hregistered
    · exact hne hq ▸ h.registered q
  · by_cases hq : q = p
    · exact hq ▸ hself ▸ hindexed
    · exact hne hq ▸ h.indexed q
  · rw [hentry]
    by_cases hq : q = p
    · subst hq
      exact hreading i op v (hself ▸ hr)
    · exact h.reading q i op v (hne hq ▸ hr)
  · rw [hlife]
    obtain he | ⟨rfl, he⟩ := hgiven e he
    · refine ⟨(h.given e he).1, fun heq => ?_⟩
      obtain ⟨call, hc, hi, hid⟩ := (h.given e he).2 heq
      by_cases hq : e.peer = p
      · obtain ⟨call', hc', hstamp⟩ := hkeeps e.call call (hq ▸ hc) (by rw [hi]; simp)
        simp only [Call.stamp, Prod.mk.injEq] at hstamp
        exact ⟨call', by rw [hq, hself, hc'], hstamp.1.trans hi, hid.trans hstamp.2.1.symm⟩
      · exact ⟨call, by rw [hne hq, hc], hi, hid⟩
    · exact ⟨he.1.le, fun _ => hself ▸ he.2⟩

/-- `reader` gets a message. -/
theorem Grounded.message (h : s.Grounded) {p : Fin n} {m : ApplyMsg (Op R) D} {rsm : RSM R V S}
    {applied : ℕ} (hm : (s.rsm p).message σ m = some rsm)
    (hreading : ∀ i op v, rsm.reading = .command i op v → ∃ e, s.entry i = some e ∧ e.op = op) :
    { s.setRsm p rsm with applied := Function.update s.applied p applied }.Grounded := by
  have hx : (s.rsm p).step σ (.message m) = some rsm := hm
  obtain ⟨hindexed, hkeeps⟩ := (h.indexed p).step (h.registered p) hx
  exact h.setRsm (p := p) rfl rfl rfl ((h.registered p).step hx) hindexed hkeeps hreading
    (fun e he => .inl he) (List.Subset.refl _)

/-- A step of a peer. -/
theorem Grounded.peer (h : s.Grounded) {p : Fin n} {x : RSM.Action R D} {rsm : RSM R V S}
    (hm : ∀ m, x ≠ .message m) (hx : (s.rsm p).step σ x = some rsm) :
    { s.setRsm p rsm with proposals := s.proposals ++ s.proposed p x }.Grounded := by
  obtain ⟨hindexed, hkeeps⟩ := (h.indexed p).step (h.registered p) hx
  refine h.setRsm (p := p) rfl rfl rfl ((h.registered p).step hx) hindexed hkeeps
    (fun i op v hr => h.reading p i op v ((step_reading hm hx).2 i op v hr)) (fun e he => ?_)
    (List.subset_append_left ..)
  obtain he | he := List.mem_append.mp he
  · exact .inl he
  · right
    unfold proposed at he
    split at he
    · rename_i c index term
      obtain ⟨call, hc, rfl⟩ := List.mem_map.mp he
      cases RSM.stepped hx with
      | start hc' hp =>
        cases (Option.mem_toList.mp hc).symm.trans hc'
        exact ⟨rfl, rfl, _, setCall_self, rfl, rfl⟩
    · cases he

/-- `reader` gets the next committed entry. -/
theorem Grounded.apply (h : s.Grounded) {p : Fin n} {e : Proposal n R} {rsm : RSM R V S}
    (he : s.committed[s.applied p]? = some e) (hm : (s.rsm p).message σ {
      commandValid := true, command := some e.op, commandIndex := s.applied p + 1 } = some rsm) :
    { s.setRsm p rsm with
      applied := Function.update s.applied p (s.applied p + 1) }.Grounded := by
  refine h.message hm fun i op v hr => ?_
  cases hread : (s.rsm p).reading with
  | idle =>
    simp only [RSM.message, hread, Bool.false_eq_true, Bool.true_eq_false, if_false,
      Option.some.injEq] at hm
    subst hm
    cases hr
    exact ⟨e, (entry_succ s (s.applied p)).trans he, rfl⟩
  | _ =>
    simp only [RSM.message, hread] at hm
    cases hm

/-- `reader` gets a snapshot. -/
theorem Grounded.install (h : s.Grounded) {p : Fin n} {index : ℕ} {data : Option D}
    {rsm : RSM R V S} (hm : (s.rsm p).message σ {
      snapshotValid := true, snapshot := data, snapshotIndex := index } = some rsm) :
    { s.setRsm p rsm with applied := Function.update s.applied p index }.Grounded := by
  refine h.message hm fun i op v hr => ?_
  cases hread : (s.rsm p).reading with
  | idle =>
    simp only [RSM.message, hread, if_true, Option.some.injEq] at hm
    subst hm
    cases hr
  | _ =>
    simp only [RSM.message, hread] at hm
    cases hm

/-- An entry is committed. -/
theorem Grounded.commit (h : s.Grounded) {e : Proposal n R} (he : e ∈ s.proposals)
    (hindex : e.index = s.committed.length + 1) :
    { s with committed := s.committed ++ [e] }.Grounded := by
  refine ⟨h.registered, h.indexed, fun p i op v hr => ?_, h.given, fun e' he' => ?_,
    fun k e' hk => ?_⟩
  · obtain ⟨e', he', hop⟩ := h.reading p i op v hr
    exact ⟨e', entry_append e he', hop⟩
  · obtain he' | he' := List.mem_append.mp he'
    · exact h.committed he'
    · exact List.mem_singleton.mp he' ▸ he
  · by_cases hlt : k < s.committed.length
    · exact h.aligned k e' ((List.getElem?_append_left hlt).symm.trans hk)
    · dsimp only at hk
      rw [List.getElem?_append_right (not_lt.mp hlt)] at hk
      obtain ⟨hlen, rfl⟩ := List.getElem?_eq_some_iff.mp hk
      simp only [List.length_singleton] at hlen
      simp only [List.getElem_singleton]
      omega

/-- A peer starts again: in this life it has made no call. -/
theorem Grounded.restart (h : s.Grounded) {p : Fin n} {sm : S} {index : ℕ} :
    { s.setRsm p (make p sm) with
      life := Function.update s.life p (s.life p + 1)
      applied := Function.update s.applied p index }.Grounded := by
  have hrsm {P : Fin n → RSM R V S → Prop} (hp : P p (make p sm)) (h : ∀ q, P q (s.rsm q))
      (q : Fin n) : P q (Function.update s.rsm p (make p sm) q) := by
    by_cases hq : q = p
    · subst hq
      rw [Function.update_self]
      exact hp
    · rw [Function.update_of_ne hq]
      exact h q
  refine ⟨hrsm (.make p sm) h.registered, hrsm (fun c call hc => by cases hc) h.indexed,
    hrsm (P := fun _ rsm => ∀ i op v, rsm.reading = .command i op v →
      ∃ e, s.entry i = some e ∧ e.op = op) (fun i op v hr => by cases hr) h.reading,
    fun e he => ?_, h.committed, h.aligned⟩
  obtain ⟨hle, hcall⟩ := h.given e he
  dsimp only [setRsm]
  by_cases hq : e.peer = p
  · rw [← hq, Function.update_self]
    exact ⟨by omega, fun heq => by omega⟩
  · rw [Function.update_of_ne hq]
    refine ⟨hle, fun heq => ?_⟩
    change ∃ call, (Function.update s.rsm p (make p sm) e.peer).calls e.call = some call ∧ _
    rw [Function.update_of_ne hq]
    exact hcall heq

theorem Grounded.step (h : s.Grounded) {x : Action n R S D} (hx : s.step σ x = some s') :
    s'.Grounded := by
  cases stepped hx with
  | peer hm hrsm => exact h.peer hm hrsm
  | apply he hrsm => exact h.apply he hrsm
  | install _ hrsm => exact h.install hrsm
  | commit he hindex => exact h.commit he hindex
  | restart => exact h.restart

theorem grounded_of_reach (hs : (machine σ).Reachable s) : s.Grounded := by
  refine hs.invariant ?_ fun s x s' _ h _ hx => h.step hx
  rintro s ⟨hmade, hproposals, hcommitted⟩
  refine ⟨fun p => ?_, fun p c call hc => ?_, fun p i op v hr => ?_, fun e he => ?_,
    fun e he => ?_, fun k e hk => ?_⟩
  · obtain ⟨sm, hsm⟩ := hmade p
    exact hsm ▸ .make p sm
  · obtain ⟨sm, hsm⟩ := hmade p
    rw [hsm] at hc
    cases hc
  · obtain ⟨sm, hsm⟩ := hmade p
    rw [hsm] at hr
    cases hr
  · rw [hproposals] at he
    cases he
  · rw [hcommitted] at he
    cases he
  · rw [hcommitted] at hk
    cases hk

/-! ## While a peer leads -/

/-- The committed entry at the index is another's, if a call of the term is refused. -/
def Refused (s : Peers n R V S) (T : ℤ) (_ : ℕ) (stamp : Option ℤ × BitVec 64 × ℤ)
    (r : OpResult V) : Prop :=
  r.err = .errWrongLeader → stamp.2.2 = T →
    ∃ i e, stamp.1 = some i ∧ s.entry i = some e ∧ e.op.id ≠ stamp.2.1

/-- The invariant of peer `l` while it leads in term `T`. -/
structure Led (l : Fin n) (T : ℤ) (s : Peers n R V S) : Prop extends Grounded s where
  results : (s.rsm l).Results (s.Refused T)
  checking : ∀ term ∈ (s.rsm l).checking, term ≤ T
  opened : (s.rsm l).reading ≠ .closed

theorem Before.led (h : s.Before l T) (hs : s.Grounded) : s.Led l T where
  toGrounded := hs
  results := by
    refine ⟨fun c call hc r _ _ hterm => ?_, fun sec _ i _ c _ call hc _ _ hterm => ?_⟩
    · exact absurd hterm (h.calls c call hc).ne
    · exact absurd hterm (h.calls c call hc).ne
  checking := h.checking
  opened := h.opened

/-- A section of peer `l` refuses a call of the term only if the committed entry is another's. -/
theorem Led.answers (h : s.Led l T) {x : RSM.Action R D}
    (hlead : Leads l T (.peer l x : Action n R S D))
    (ho : s.NoSnapshotWakes l T (.peer l x : Action n R S D)) :
    (s.rsm l).Answers (s.Refused T) x := by
  cases x with
  | start c answer =>
    obtain ⟨index, rfl⟩ := hlead rfl
    trivial
  | grant i order =>
    intro g hg k hk c hc call hcall hnone herr hterm
    obtain ⟨call', hc', hindex, -, hid, hchan⟩ := (h.registered l).own hc
    cases hcall.symm.trans hc'
    cases g with
    | submit d => cases hk
    | leaderCheck =>
      -- the term that `leaderCheck` has read is not greater
      exfalso
      unfold RSM.targets at hk
      cases hcheck : (s.rsm l).checking with
      | none =>
        rw [hcheck] at hk
        cases hk
      | some currTerm =>
        simp only [hcheck, List.mem_filter, hchan, Option.any_some, decide_eq_true_eq] at hk
        exact absurd hterm (hk.2.trans_le (h.checking currTerm hcheck)).ne
    | reader =>
      have hwoken := ho rfl hg
      cases hread : (s.rsm l).reading with
      | command index op v =>
        simp only [RSM.targets, hread] at hk
        split at hk
        · cases List.mem_singleton.mp hk
          obtain ⟨e, he, rfl⟩ := h.reading l k op v hread
          refine ⟨k, e, hindex, he, fun heq => ?_⟩
          have heq' : e.op.id = call.id := heq
          simp only [RSM.reply, hread, hid, Option.getD_some] at herr
          rw [if_neg (not_not.mpr heq')] at herr
          cases herr
        · cases hk
      | snapshot index =>
        rw [hread] at hwoken
        exact absurd hnone (hwoken k (mem_of_lookup hc) c hc call hcall hterm)
      | closed => exact absurd hread h.opened
      | _ =>
        simp only [RSM.targets, hread] at hk
        cases hk
  | _ => trivial

end Peers

/-- `leaderCheck` has read no greater term, and `applyCh` is open. -/
theorem step_open {R V S D : Type} {σ : StateMachine R V S D} {s s' : RSM R V S}
    {x : Action R D} {T : ℤ} (hx : s.step σ x = some s') (hclose : x ≠ .close)
    (htick : ∀ term, x = .tick term → term ≤ T) (hcheck : ∀ term ∈ s.checking, term ≤ T)
    (hopen : s.reading ≠ .closed) :
    (∀ term ∈ s'.checking, term ≤ T) ∧ s'.reading ≠ .closed := by
  cases stepped hx with
  | close hidle => exact absurd rfl hclose
  | tick hnone =>
    refine ⟨fun term hterm => ?_, hopen⟩
    cases hterm
    exact htick _ rfl
  | restore hidle | doOp hidle hm =>
    exact ⟨hcheck, fun hread => by cases hread⟩
  | @unlock sec hsec hp =>
    refine ⟨fun term hterm => ?_, fun hread => ?_⟩
    · dsimp only at hterm
      split at hterm
      · cases hterm
      · exact hcheck term hterm
    · dsimp only at hread
      split at hread
      · cases hr : s.reading with
        | closed => exact hopen hr
        | _ =>
          rw [hr] at hread
          cases hread
      · exact hopen hread
  | _ => exact ⟨hcheck, hopen⟩

namespace Peers

variable {n : ℕ} {R V S D : Type} {σ : StateMachine R V S D} {l : Fin n} {T : ℤ}
  {s s' : Peers n R V S}

/-- Peer `l` takes a step. -/
theorem Led.rsm (h : s.Led l T) {x : RSM.Action R D} {rsm : RSM R V S}
    (hx : (s.rsm l).step σ x = some rsm) (hg : s'.Grounded) (hrsm : s'.rsm l = rsm)
    (hcommitted : s'.committed = s.committed) (hclose : x ≠ .close)
    (htick : ∀ term, x = .tick term → term ≤ T)
    (ho : (s.rsm l).Answers (s.Refused T) x) : s'.Led l T := by
  obtain ⟨hcheck, hopen⟩ := step_open hx hclose htick h.checking h.opened
  have hentry (i : ℤ) : s'.entry i = s.entry i := by rw [entry, entry, hcommitted]
  subst hrsm
  refine ⟨hg, (h.results.step (h.registered l) ho hx).mono fun c stamp r hr herr hterm => ?_,
    hcheck, hopen⟩
  simp only [hentry]
  exact hr herr hterm

/-- Another peer takes a step. -/
theorem Led.other (h : s.Led l T) (hg : s'.Grounded) (hrsm : s'.rsm l = s.rsm l)
    (hentry : ∀ i e, s.entry i = some e → s'.entry i = some e) : s'.Led l T := by
  refine ⟨hg, ?_, hrsm ▸ h.checking, hrsm ▸ h.opened⟩
  rw [hrsm]
  refine h.results.mono fun c stamp r hr herr hterm => ?_
  obtain ⟨i, e, hi, he, hne⟩ := hr herr hterm
  exact ⟨i, e, hi, hentry i e he, hne⟩

theorem Led.step (h : s.Led l T) {x : Action n R S D} (hlead : Leads l T x)
    (ho : s.NoSnapshotWakes l T x) (hx : s.step σ x = some s') : s'.Led l T := by
  have hg := h.toGrounded.step hx
  cases stepped hx with
  | @peer p x rsm hm hrsm =>
    by_cases hp : p = l
    · subst hp
      refine h.rsm hrsm hg (Function.update_self ..) rfl ?_ ?_ (h.answers hlead ho)
      · rintro rfl
        exact hlead rfl
      · rintro term rfl
        exact (hlead rfl).le
    · exact h.other hg (Function.update_of_ne (Ne.symm hp) _ _) fun _ _ => id
  | @apply p e rsm he hrsm =>
    by_cases hp : p = l
    · subst hp
      exact h.rsm (x := .message _) hrsm hg (Function.update_self ..) rfl nofun nofun trivial
    · exact h.other hg (Function.update_of_ne (Ne.symm hp) _ _) fun _ _ => id
  | @install p index data rsm hlt hrsm =>
    by_cases hp : p = l
    · subst hp
      exact h.rsm (x := .message _) hrsm hg (Function.update_self ..) rfl nofun nofun trivial
    · exact h.other hg (Function.update_of_ne (Ne.symm hp) _ _) fun _ _ => id
  | commit he hindex => exact h.other hg rfl fun _ _ => entry_append _
  | @restart p sm index =>
    exact h.other hg (Function.update_of_ne (Ne.symm hlead) _ _) fun _ _ => id

/-- **A leader answers OK** to a call of its term whose command is committed, if it leads in the
run and tells no call of a snapshot. -/
theorem leader_answers (hs : (reign σ l T).Reach
      (fun s x => Leads l T x ∧ s.NoSnapshotWakes l T x) s)
    {c : ℕ} {call : Call R V} {r : OpResult V} (hc : (s.rsm l).calls c = some call)
    (hterm : call.term = T) (hdone : call.phase = .done r) {e : Proposal n R}
    (he : e ∈ s.committed) (hpeer : e.peer = l) (hlife : e.life = s.life l) (hcall : e.call = c) :
    r.err = .ok := by
  have h : s.Led l T := by
    refine hs.invariant ?_ fun s x s' _ h ho hx => h.step ho.1 ho.2 hx
    rintro s ⟨hreach, hbefore⟩
    exact hbefore.led (grounded_of_reach hreach)
  cases herr : r.err with
  | ok => rfl
  | errWrongLeader =>
    subst hpeer hcall
    have htaken : call.taken = some r := by rw [Call.taken, hdone]
    obtain ⟨i, e', hi, he', hne⟩ := h.results.taken e.call call hc r htaken herr hterm
    obtain ⟨call', hc', hindex, hid⟩ := (h.given e (h.committed he)).2 hlife
    cases hc.symm.trans hc'
    cases hindex.symm.trans hi
    cases (h.entry_of_mem he).symm.trans he'
    exact absurd hid hne

end Peers

end RSM

end CollabIde
