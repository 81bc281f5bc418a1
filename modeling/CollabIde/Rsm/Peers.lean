import CollabIde.Rsm.Truthful
import CollabIde.Rsm.Ids

/-!
# The RSMs of all peers

The RSMs of the peers over one committed sequence, with restarts. `MakeRSM` starts the counter of
the ids at 0 again, so the entry that is applied where a call waits can be that of a call of an
earlier life of the peer, with the same id. Then the call returns OK with the value of that entry.
-/

namespace CollabIde

namespace RSM

/-- An entry of the log, and the call of `Submit` that gave it to `Start`. -/
structure Proposal (n : ℕ) (R : Type) where
  peer : Fin n
  /-- How often the peer had been restarted. -/
  life : ℕ
  call : ℕ
  index : ℤ
  op : Op R

/-- The RSMs of the peers; what they have given to `Start`, and what is committed of it. -/
structure Peers (n : ℕ) (R V S : Type) where
  rsm : Fin n → RSM R V S
  /-- How often the peer has been restarted. -/
  life : Fin n → ℕ
  /-- The last index that `applyCh` has brought to the peer. -/
  applied : Fin n → ℕ
  proposals : List (Proposal n R)
  /-- The committed sequence, from index 1 on. -/
  committed : List (Proposal n R)

namespace Peers

variable {n : ℕ} {R V S D : Type} (σ : StateMachine R V S D) (s : Peers n R V S)

def setRsm (p : Fin n) (rsm : RSM R V S) : Peers n R V S :=
  { s with rsm := Function.update s.rsm p rsm }

/-- The committed entry at an index. -/
def entry (index : ℤ) : Option (Proposal n R) :=
  if 0 < index then s.committed[(index - 1).toNat]? else none

/-- What a step of a peer gives to `Start`. -/
def proposed (p : Fin n) : RSM.Action R D → List (Proposal n R)
  | .start c (some (index, _)) => ((s.rsm p).calls c).toList.map fun call =>
      ⟨p, s.life p, c, index, ⟨call.req, call.id⟩⟩
  | _ => []

inductive Action (n : ℕ) (R S D : Type) where
  /-- A step of the peer other than that of `reader` with a message. -/
  | peer (p : Fin n) (x : RSM.Action R D)
  /-- `reader` gets the next committed entry. -/
  | apply (p : Fin n)
  /-- `reader` gets a snapshot of the committed sequence up to the index. -/
  | install (p : Fin n) (index : ℕ) (data : Option D)
  /-- A proposal is committed at its index. -/
  | commit (k : ℕ)
  /-- The peer crashes, and `MakeRSM` starts it with the server and the index of its snapshot. -/
  | restart (p : Fin n) (sm : S) (index : ℕ)

def step : Action n R S D → Option (Peers n R V S)
  | .peer _ (.message _) => none
  | .peer p x => ((s.rsm p).step σ x).map fun rsm =>
      { s.setRsm p rsm with proposals := s.proposals ++ s.proposed p x }
  | .apply p => s.committed[s.applied p]?.bind fun e =>
      ((s.rsm p).message σ {
        commandValid := true, command := some e.op, commandIndex := s.applied p + 1 }).map fun rsm =>
        { s.setRsm p rsm with applied := Function.update s.applied p (s.applied p + 1) }
  | .install p index data =>
    if s.applied p < index ∧ index ≤ s.committed.length then
      ((s.rsm p).message σ {
        snapshotValid := true, snapshot := data, snapshotIndex := index }).map fun rsm =>
        { s.setRsm p rsm with applied := Function.update s.applied p index }
    else none
  | .commit k => s.proposals[k]?.bind fun e =>
      if e.index = s.committed.length + 1 then some { s with committed := s.committed ++ [e] }
      else none
  | .restart p sm index =>
    if index ≤ s.committed.length then
      some { s.setRsm p (make p sm) with
        life := Function.update s.life p (s.life p + 1)
        applied := Function.update s.applied p index }
    else none

/-- No peer has made a call, and nothing is committed. -/
def machine : Machine (Peers n R V S) (Action n R S D) where
  init s := (∀ p, ∃ sm, s.rsm p = make p sm) ∧ s.proposals = [] ∧ s.committed = []
  step := step σ

/-- Each action with its guard and its result. -/
inductive Stepped : Action n R S D → Peers n R V S → Prop
  | peer {p : Fin n} {x : RSM.Action R D} {rsm : RSM R V S} : (∀ m, x ≠ .message m) →
    (s.rsm p).step σ x = some rsm →
    Stepped (.peer p x) { s.setRsm p rsm with proposals := s.proposals ++ s.proposed p x }
  | apply {p : Fin n} {e : Proposal n R} {rsm : RSM R V S} : s.committed[s.applied p]? = some e →
    (s.rsm p).message σ {
      commandValid := true, command := some e.op, commandIndex := s.applied p + 1 } = some rsm →
    Stepped (.apply p) { s.setRsm p rsm with
      applied := Function.update s.applied p (s.applied p + 1) }
  | install {p : Fin n} {index : ℕ} {data : Option D} {rsm : RSM R V S} : s.applied p < index →
    (s.rsm p).message σ {
      snapshotValid := true, snapshot := data, snapshotIndex := index } = some rsm →
    Stepped (.install p index data) { s.setRsm p rsm with
      applied := Function.update s.applied p index }
  | commit {k : ℕ} {e : Proposal n R} : e ∈ s.proposals → e.index = s.committed.length + 1 →
    Stepped (.commit k) { s with committed := s.committed ++ [e] }
  | restart {p : Fin n} {sm : S} {index : ℕ} :
    Stepped (.restart p sm index) { s.setRsm p (make p sm) with
      life := Function.update s.life p (s.life p + 1)
      applied := Function.update s.applied p index }

variable {σ s} in
theorem stepped {s' : Peers n R V S} {x : Action n R S D} (hx : s.step σ x = some s') :
    Stepped σ s x s' := by
  cases x with
  | peer p x =>
    have hm : ∀ m, x ≠ .message m := by
      rintro m rfl
      cases hx
    have hx' : ((s.rsm p).step σ x).map (fun rsm =>
        { s.setRsm p rsm with proposals := s.proposals ++ s.proposed p x }) = some s' := by
      cases x with
      | message m => exact absurd rfl (hm m)
      | _ => exact hx
    obtain ⟨rsm, hrsm, rfl⟩ := Option.map_eq_some_iff.mp hx'
    exact .peer hm hrsm
  | apply p =>
    obtain ⟨e, he, hx⟩ := Option.bind_eq_some_iff.mp hx
    obtain ⟨rsm, hrsm, rfl⟩ := Option.map_eq_some_iff.mp hx
    exact .apply he hrsm
  | install p index data =>
    simp only [Peers.step] at hx
    split at hx
    · rename_i hlt
      obtain ⟨rsm, hrsm, rfl⟩ := Option.map_eq_some_iff.mp hx
      exact .install hlt.1 hrsm
    · cases hx
  | commit k =>
    obtain ⟨e, he, hx⟩ := Option.bind_eq_some_iff.mp hx
    split at hx
    · cases hx
      exact .commit (List.mem_of_getElem? he) ‹_›
    · cases hx
  | restart p sm index =>
    simp only [Peers.step] at hx
    split at hx
    · cases hx
      exact .restart
    · cases hx

/-- The committed entry at the index is what the call has given to `Start`. -/
def Mine (p : Fin n) (index : ℤ) (c : ℕ) : Prop :=
  ∃ e, s.entry index = some e ∧ e.peer = p ∧ e.life = s.life p ∧ e.call = c

/-- What `reader` has taken up at the index of a call that waits has not been given to `Start` by
the peer with the same id in an earlier life. -/
def NoEarlierLife (s : Peers n R V S) (p : Fin n) : Reading R V → Prop
  | .command index op _ => ∀ c ∈ (s.rsm p).channels.lookup index, ∀ call ∈ (s.rsm p).calls c,
      call.taken = none → op.id = call.id → ∀ e ∈ s.entry index, e.peer = p → e.life = s.life p
  | _ => True

/-- A new id is made of numbers below `2^32`; and `reader` does not apply, at the index of a call
that waits, what the peer has given to `Start` with the same id in an earlier life. -/
def FreshIds (s : Peers n R V S) : Action n R S D → Prop
  | .peer p (.grant i order) => (s.rsm p).Fits (.grant i order : RSM.Action R D) ∧
      ((s.rsm p).queue[i]? = some .reader → s.NoEarlierLife p (s.rsm p).reading)
  | _ => True

/-- **An OK is truthful**: the committed entry at the call's index is its own operation, and the
value is what `DoOp` has returned for that index. -/
def Truthful (s : Peers n R V S) : Prop :=
  ∀ p c call value, (s.rsm p).calls c = some call → call.phase = .done ⟨.ok, value⟩ →
    ∃ index e v, call.index = some index ∧ s.entry index = some e ∧ e.peer = p ∧
      e.life = s.life p ∧ e.call = c ∧ e.op = ⟨call.req, call.id⟩ ∧ value = some v ∧
      ∀ w, (index, w) ∈ (s.rsm p).results ↔ w = v

variable {σ s} {s' : Peers n R V S}

/-! ## The invariant -/

/-- An entry is what a call of a life of a peer has given to `Start`. -/
structure Given (s : Peers n R V S) (e : Proposal n R) : Prop where
  id : (e.peer : ℕ) < 2 ^ 32 ∧ ∃ k : BitVec 64, k.toNat < 2 ^ 32 ∧ e.op.id = idOf (e.peer : ℕ) k
  life : e.life ≤ s.life e.peer
  call : e.life = s.life e.peer → ∃ call, (s.rsm e.peer).calls e.call = some call ∧
    call.phase.identified = true ∧ e.op = ⟨call.req, call.id⟩

/-- What `DoOp` has returned, in the order of the indexes. -/
def Ordered (results : List (ℤ × V)) (applied : ℕ) : Prop :=
  results.Pairwise (fun r r' => r.1 < r'.1) ∧ ∀ r ∈ results, r.1 ≤ applied

structure Sound (s : Peers n R V S) : Prop where
  registered : ∀ p, (s.rsm p).Registered
  numbered : ∀ p, (s.rsm p).Numbered p
  truthful : ∀ p, (s.rsm p).Truthful (s.Mine p)
  reading : ∀ p i op v, (s.rsm p).reading = .command i op v →
    ∃ e, s.entry i = some e ∧ e.op = op
  given : ∀ e ∈ s.proposals, s.Given e
  committed : s.committed ⊆ s.proposals
  ordered : ∀ p, Ordered (s.rsm p).results (s.applied p)

theorem entry_mem {i : ℤ} {e : Proposal n R} (h : s.entry i = some e) : e ∈ s.committed := by
  unfold entry at h
  split at h
  · exact List.mem_of_getElem? h
  · cases h

theorem entry_succ (s : Peers n R V S) (k : ℕ) : s.entry (k + 1) = s.committed[k]? := by
  have h : ((k : ℤ) + 1 - 1).toNat = k := by omega
  rw [entry, if_pos (by omega), h]

/-- A peer goes on in the same life. -/
theorem Sound.setRsm (h : s.Sound) {p : Fin n} {rsm : RSM R V S}
    (hrsm : s'.rsm = Function.update s.rsm p rsm) (hlife : s'.life = s.life)
    (hcommitted : s'.committed = s.committed) (hregistered : rsm.Registered)
    (hnumbered : rsm.Numbered p) (htruthful : rsm.Truthful (s.Mine p))
    (hfollows : (s.rsm p).Follows rsm)
    (hreading : ∀ i op v, rsm.reading = .command i op v → ∃ e, s.entry i = some e ∧ e.op = op)
    (hgiven : ∀ e ∈ s'.proposals, e ∈ s.proposals ∨ s'.Given e)
    (hsub : s.proposals ⊆ s'.proposals) (hordered : Ordered rsm.results (s'.applied p))
    (happlied : ∀ q ≠ p, s'.applied q = s.applied q) : s'.Sound := by
  have hself : s'.rsm p = rsm := by rw [hrsm, Function.update_self]
  have hne {q : Fin n} (hq : q ≠ p) : s'.rsm q = s.rsm q := by rw [hrsm, Function.update_of_ne hq]
  have hentry (i : ℤ) : s'.entry i = s.entry i := by rw [entry, entry, hcommitted]
  have hmine (q : Fin n) : s'.Mine q = s.Mine q := by
    funext i c
    simp only [Mine, hentry, hlife]
  refine ⟨fun q => ?_, fun q => ?_, fun q => ?_, fun q i op v hr => ?_, fun e he => ?_, ?_,
    fun q => ?_⟩
  · by_cases hq : q = p
    · subst hq
      exact hself ▸ hregistered
    · exact hne hq ▸ h.registered q
  · by_cases hq : q = p
    · subst hq
      exact hself ▸ hnumbered
    · exact hne hq ▸ h.numbered q
  · rw [hmine]
    by_cases hq : q = p
    · subst hq
      exact hself ▸ htruthful
    · exact hne hq ▸ h.truthful q
  · rw [hentry]
    by_cases hq : q = p
    · subst hq
      exact hreading i op v (hself ▸ hr)
    · exact h.reading q i op v (hne hq ▸ hr)
  · obtain he | he := hgiven e he
    · obtain ⟨hid, hle, hcall⟩ := h.given e he
      refine ⟨hid, hlife ▸ hle, fun heq => ?_⟩
      obtain ⟨call, hc, hidentified, hop⟩ := hcall (hlife ▸ heq)
      by_cases hq : e.peer = p
      · obtain ⟨call', hc', hreq, hkeep⟩ := hfollows e.call call (hq ▸ hc)
        obtain ⟨hidentified', hid'⟩ := hkeep hidentified
        exact ⟨call', by rw [hq, hself, hc'], hidentified', by rw [hop, hreq, hid']⟩
      · exact ⟨call, by rw [hne hq, hc], hidentified, hop⟩
    · exact he
  · exact fun e he => hsub (h.committed (hcommitted ▸ he))
  · by_cases hq : q = p
    · subst hq
      exact hself ▸ hordered
    · exact hne hq ▸ happlied q hq ▸ h.ordered q

theorem registered_identified {ph : Phase V} (h : ph.registered = true) : ph.identified = true := by
  cases ph with
  | identify => cases h
  | _ => rfl

/-- An entry with the id of a call that waits is of this call, unless it is of an earlier life. -/
theorem Sound.mine (h : s.Sound) {p : Fin n} {c : ℕ} {call : Call R V} {e : Proposal n R} {i : ℤ}
    (hc : (s.rsm p).calls c = some call) (hid : call.phase.identified = true)
    (he : s.entry i = some e) (heq : e.op.id = call.id)
    (hlife : e.peer = p → e.life = s.life p) : e.peer = p ∧ e.life = s.life p ∧ e.call = c ∧
      e.op = ⟨call.req, call.id⟩ := by
  obtain ⟨⟨hpeer, k, hk, hek⟩, -, hcall⟩ := h.given e (h.committed (entry_mem he))
  obtain ⟨hp, k', hk', hck⟩ := (h.numbered p).id c call hc hid
  have hinj := idOf_inj hpeer hp hk (hk'.trans_lt (h.numbered p).next)
    (hek.symm.trans (heq.trans hck))
  obtain rfl : e.peer = p := Fin.ext hinj.1
  obtain ⟨other, hother, hoid, hop⟩ := hcall (hlife rfl)
  have hcd := (h.numbered e.peer).distinct _ other c call hother hc hoid hid
    (by rw [← heq, hop])
  subst hcd
  cases hother.symm.trans hc
  exact ⟨rfl, hlife rfl, rfl, hop⟩

theorem Sound.matched (h : s.Sound) {p : Fin n} {x : RSM.Action R D}
    (ho : s.FreshIds (.peer p x : Action n R S D)) : (s.rsm p).Matched (s.Mine p) x := by
  cases x with
  | grant i order =>
    intro hg
    have hfresh := ho.2 hg
    cases hread : (s.rsm p).reading with
    | command index op v =>
      simp only [hread, NoEarlierLife] at hfresh ⊢
      intro c hc call hcall hnone hid
      obtain ⟨e, he, rfl⟩ := h.reading p index op v hread
      have hreg := ((h.registered p).phase hc hcall).1
      obtain ⟨hpeer, hlife, hcall', -⟩ := h.mine hcall (registered_identified hreg) he hid
        (hfresh c hc call hcall hnone hid e he)
      exact ⟨e, he, hpeer, hlife, hcall'⟩
    | _ => trivial
  | _ => trivial

theorem fits_of_freshIds {p : Fin n} {x : RSM.Action R D}
    (ho : s.FreshIds (.peer p x : Action n R S D)) : (s.rsm p).Fits x := by
  cases x with
  | grant i order => exact ho.1
  | _ => trivial

/-- What a step gives to `Start` is an entry of its call. -/
theorem Sound.given_of_proposed (h : s.Sound) (s' : Peers n R V S) {p : Fin n}
    {x : RSM.Action R D} {rsm : RSM R V S} (hx : (s.rsm p).step σ x = some rsm)
    (hrsm : s'.rsm p = rsm) (hlife : s'.life = s.life) {e : Proposal n R}
    (he : e ∈ s.proposed p x) : s'.Given e := by
  unfold proposed at he
  split at he
  · rename_i c index term
    obtain ⟨call, hc, rfl⟩ := List.mem_map.mp he
    have hc := Option.mem_toList.mp hc
    have hidentified : call.phase.identified = true := by
      cases RSM.stepped hx with
      | start hc' hp =>
        cases hc.symm.trans hc'
        rw [hp]
        rfl
    obtain ⟨hp, k, hk, hid⟩ := (h.numbered p).id c call hc hidentified
    obtain ⟨call', hc', hreq, hkeep⟩ := (h.registered p).follows hx c call hc
    refine ⟨⟨hp, k, hk.trans_lt (h.numbered p).next, hid⟩, hlife ▸ le_rfl, fun _ =>
      ⟨call', hrsm ▸ hc', (hkeep hidentified).1, ?_⟩⟩
    rw [hreq, (hkeep hidentified).2]
  · cases he

/-- A step of a peer. -/
theorem Sound.peer (h : s.Sound) {p : Fin n} {x : RSM.Action R D} {rsm : RSM R V S}
    (hm : ∀ m, x ≠ .message m) (ho : s.FreshIds (.peer p x : Action n R S D))
    (hx : (s.rsm p).step σ x = some rsm) :
    { s.setRsm p rsm with proposals := s.proposals ++ s.proposed p x }.Sound := by
  obtain ⟨hresults, hreading⟩ := step_reading hm hx
  refine h.setRsm (p := p) rfl rfl rfl ((h.registered p).step hx)
    ((h.numbered p).step (fits_of_freshIds ho) hx)
    ((h.truthful p).step (h.registered p) (h.matched ho) hx) ((h.registered p).follows hx)
    (fun i op v hr => h.reading p i op v (hreading i op v hr)) (fun e he => ?_)
    (List.subset_append_left ..) (hresults ▸ h.ordered p) fun _ _ => rfl
  obtain he | he := List.mem_append.mp he
  · exact .inl he
  · exact .inr (h.given_of_proposed
      { s.setRsm p rsm with proposals := s.proposals ++ s.proposed p x } hx
      (Function.update_self ..) rfl he)

/-- `reader` gets a message. -/
theorem Sound.message (h : s.Sound) {p : Fin n} {m : ApplyMsg (Op R) D} {rsm : RSM R V S}
    {applied : ℕ} (hm : (s.rsm p).message σ m = some rsm)
    (hreading : ∀ i op v, rsm.reading = .command i op v → ∃ e, s.entry i = some e ∧ e.op = op)
    (hordered : Ordered rsm.results applied) :
    { s.setRsm p rsm with applied := Function.update s.applied p applied }.Sound := by
  have hx : (s.rsm p).step σ (.message m) = some rsm := hm
  have hordered' : Ordered rsm.results (Function.update s.applied p applied p) := by
    rw [Function.update_self]
    exact hordered
  exact h.setRsm (p := p) rfl rfl rfl ((h.registered p).step hx)
    ((h.numbered p).step (x := .message m) trivial hx)
    ((h.truthful p).step (x := .message m) (h.registered p) trivial hx)
    ((h.registered p).follows hx) hreading (fun e he => .inl he) (List.Subset.refl _)
    hordered' fun q hq => Function.update_of_ne hq _ _

theorem Ordered.snoc {results : List (ℤ × V)} {applied : ℕ} (h : Ordered results applied) (v : V) :
    Ordered (results ++ [((applied : ℤ) + 1, v)]) (applied + 1) := by
  obtain ⟨hpairs, hle⟩ := h
  refine ⟨List.pairwise_append.mpr ⟨hpairs, List.pairwise_singleton .., fun r hr r' hr' => ?_⟩,
    fun r hr => ?_⟩
  · cases List.mem_singleton.mp hr'
    have := hle r hr
    dsimp only
    omega
  · obtain hr | hr := List.mem_append.mp hr
    · have := hle r hr
      omega
    · cases List.mem_singleton.mp hr
      simp

theorem Ordered.mono {results : List (ℤ × V)} {applied applied' : ℕ} (h : Ordered results applied)
    (hle : applied ≤ applied') : Ordered results applied' :=
  ⟨h.1, fun r hr => (h.2 r hr).trans (by exact_mod_cast hle)⟩

/-- `reader` gets the next committed entry. -/
theorem Sound.apply (h : s.Sound) {p : Fin n} {e : Proposal n R} {rsm : RSM R V S}
    (he : s.committed[s.applied p]? = some e) (hm : (s.rsm p).message σ {
      commandValid := true, command := some e.op, commandIndex := s.applied p + 1 } = some rsm) :
    { s.setRsm p rsm with
      applied := Function.update s.applied p (s.applied p + 1) }.Sound := by
  have hentry := (entry_succ s (s.applied p)).trans he
  cases hread : (s.rsm p).reading with
  | idle =>
    refine h.message hm (fun i op v hr => ?_) ?_
    all_goals
      simp only [RSM.message, hread, Bool.false_eq_true, Bool.true_eq_false, if_false,
        Option.some.injEq] at hm
      subst hm
    · cases hr
      exact ⟨e, hentry, rfl⟩
    · exact (h.ordered p).snoc _
  | _ =>
    simp only [RSM.message, hread] at hm
    cases hm

/-- `reader` gets a snapshot. -/
theorem Sound.install (h : s.Sound) {p : Fin n} {index : ℕ} {data : Option D} {rsm : RSM R V S}
    (hlt : s.applied p < index) (hm : (s.rsm p).message σ {
      snapshotValid := true, snapshot := data, snapshotIndex := index } = some rsm) :
    { s.setRsm p rsm with applied := Function.update s.applied p index }.Sound := by
  cases hread : (s.rsm p).reading with
  | idle =>
    refine h.message hm (fun i op v hr => ?_) ?_
    all_goals
      simp only [RSM.message, hread, if_true, Option.some.injEq] at hm
      subst hm
    · cases hr
    · exact (h.ordered p).mono hlt.le
  | _ =>
    simp only [RSM.message, hread] at hm
    cases hm

theorem entry_append (e : Proposal n R) {i : ℤ} {e' : Proposal n R} (h : s.entry i = some e') :
    { s with committed := s.committed ++ [e] }.entry i = some e' := by
  unfold entry at h ⊢
  split at h
  · rename_i hi
    rw [if_pos hi]
    exact List.getElem?_append_left (List.getElem?_eq_some_iff.mp h).1 |>.trans h
  · cases h

/-- An entry is committed. -/
theorem Sound.commit (h : s.Sound) {e : Proposal n R} (he : e ∈ s.proposals) :
    { s with committed := s.committed ++ [e] }.Sound := by
  refine ⟨h.registered, h.numbered, fun p => ?_, fun p i op v hr => ?_, fun e' he' => ?_,
    fun e' he' => ?_, h.ordered⟩
  · exact (h.truthful p).mono fun i c ⟨e', he', hrest⟩ => ⟨e', entry_append e he', hrest⟩
  · obtain ⟨e', he', hop⟩ := h.reading p i op v hr
    exact ⟨e', entry_append e he', hop⟩
  · exact ⟨(h.given e' he').id, (h.given e' he').life, (h.given e' he').call⟩
  · obtain he' | he' := List.mem_append.mp he'
    · exact h.committed he'
    · exact List.mem_singleton.mp he' ▸ he

theorem truthful_make {mine : ℤ → ℕ → Prop} (me : ℤ) (sm : S) :
    (make me sm : RSM R V S).Truthful mine where
  taken c call hc := by cases hc
  locked sec hsec := by cases hsec
  reading i op v hr := by cases hr

/-- A peer starts again: in this life it has made no call. -/
theorem Sound.restart (h : s.Sound) {p : Fin n} {sm : S} {index : ℕ}
    (hrsm : s'.rsm = Function.update s.rsm p (make p sm))
    (hlife : s'.life = Function.update s.life p (s.life p + 1))
    (happlied : s'.applied = Function.update s.applied p index)
    (hproposals : s'.proposals = s.proposals) (hcommitted : s'.committed = s.committed) :
    s'.Sound := by
  have hself : s'.rsm p = make p sm := by rw [hrsm, Function.update_self]
  have hne {q : Fin n} (hq : q ≠ p) : s'.rsm q = s.rsm q ∧ s'.life q = s.life q ∧
      s'.applied q = s.applied q := by
    rw [hrsm, hlife, happlied, Function.update_of_ne hq, Function.update_of_ne hq,
      Function.update_of_ne hq]
    exact ⟨rfl, rfl, rfl⟩
  have hentry (i : ℤ) : s'.entry i = s.entry i := by rw [entry, entry, hcommitted]
  refine ⟨fun q => ?_, fun q => ?_, fun q => ?_, fun q i op v hr => ?_, fun e he => ?_,
    hcommitted ▸ hproposals ▸ h.committed, fun q => ?_⟩
  · by_cases hq : q = p
    · subst hq
      exact hself ▸ .make q sm
    · exact (hne hq).1 ▸ h.registered q
  · by_cases hq : q = p
    · subst hq
      exact hself ▸ .make q sm
    · exact (hne hq).1 ▸ h.numbered q
  · by_cases hq : q = p
    · subst hq
      exact hself ▸ truthful_make q sm
    · refine (hne hq).1 ▸ (h.truthful q).mono fun i c ⟨e, he, hpeer, hl, hcall⟩ => ?_
      exact ⟨e, (hentry i).trans he, hpeer, hl.trans (hne hq).2.1.symm, hcall⟩
  · rw [hentry]
    by_cases hq : q = p
    · subst hq
      rw [hself] at hr
      cases hr
    · exact h.reading q i op v ((hne hq).1 ▸ hr)
  · obtain ⟨hid, hle, hcall⟩ := h.given e (hproposals ▸ he)
    by_cases hq : e.peer = p
    · have hsucc : s'.life e.peer = s.life e.peer + 1 := by
        rw [hlife, hq, Function.update_self]
      refine ⟨hid, by omega, fun heq => ?_⟩
      omega
    · refine ⟨hid, (hne hq).2.1 ▸ hle, fun heq => ?_⟩
      rw [(hne hq).1]
      exact hcall (heq.trans (hne hq).2.1)
  · by_cases hq : q = p
    · subst hq
      exact hself ▸ ⟨.nil, fun r hr => by cases hr⟩
    · exact (hne hq).1 ▸ (hne hq).2.2 ▸ h.ordered q

theorem Sound.step (h : s.Sound) {x : Action n R S D} (ho : s.FreshIds x)
    (hx : s.step σ x = some s') : s'.Sound := by
  cases stepped hx with
  | peer hm hrsm => exact h.peer hm ho hrsm
  | apply he hrsm => exact h.apply he hrsm
  | install hlt hrsm => exact h.install hlt hrsm
  | commit he _ => exact h.commit he
  | @restart p _ _ => exact h.restart (p := p) rfl rfl rfl rfl rfl

theorem sound_of_reach (hs : (machine σ).Reach FreshIds s) : s.Sound := by
  refine hs.invariant ?_ fun s x s' _ h ho hx => h.step ho hx
  rintro s ⟨hmade, hproposals, hcommitted⟩
  refine ⟨fun p => ?_, fun p => ?_, fun p => ?_, fun p i op v hr => ?_, fun e he => ?_,
    fun e he => ?_, fun p => ?_⟩
  · obtain ⟨sm, hsm⟩ := hmade p
    exact hsm ▸ .make p sm
  · obtain ⟨sm, hsm⟩ := hmade p
    exact hsm ▸ .make p sm
  · obtain ⟨sm, hsm⟩ := hmade p
    exact hsm ▸ truthful_make p sm
  · obtain ⟨sm, hsm⟩ := hmade p
    rw [hsm] at hr
    cases hr
  · rw [hproposals] at he
    cases he
  · rw [hcommitted] at he
    cases he
  · obtain ⟨sm, hsm⟩ := hmade p
    exact hsm ▸ ⟨.nil, fun r hr => by cases hr⟩

/-- An index is applied once in a life. -/
theorem Ordered.unique {results : List (ℤ × V)} {applied : ℕ} (h : Ordered results applied) {i : ℤ}
    {v w : V} (hv : (i, v) ∈ results) (hw : (i, w) ∈ results) : w = v := by
  have hnodup : (results.map Prod.fst).Nodup :=
    (h.1.map Prod.fst fun _ _ hlt => hlt).imp fun hlt => ne_of_lt hlt
  exact (Prod.mk.inj (List.inj_on_of_nodup_map hnodup hw hv rfl)).2

/-- **Submit's OK is truthful** in the runs in which ids are made of numbers below `2^32`, and the
entry that is applied where a call waits has not been given to `Start` under the call's id in an
earlier life of the peer. -/
theorem ok_is_truthful (hs : (machine σ).Reach FreshIds s) : s.Truthful := by
  intro p c call value hc hp
  have h := sound_of_reach hs
  obtain ⟨index, hindex, ⟨e, he, hpeer, hlife, hcall⟩, v, hv, hmem⟩ :=
    (h.truthful p).taken c call hc value (by rw [Call.taken, hp])
  obtain ⟨call', hc', -, hop⟩ := (h.given e (h.committed (entry_mem he))).call (hpeer ▸ hlife)
  rw [hpeer, hcall, hc, Option.some.injEq] at hc'
  subst hc'
  refine ⟨index, e, v, hindex, he, hpeer, hlife, hcall, hop, hv, fun w => ⟨fun hw => ?_, ?_⟩⟩
  · exact (h.ordered p).unique hmem hw
  · rintro rfl
    exact hmem

/-! ## An id that is given out again -/

instance (s : Peers n R V S) (p : Fin n) : DecidablePred (s.NoEarlierLife p)
  | .command index op _ => inferInstanceAs (Decidable (∀ c ∈ (s.rsm p).channels.lookup index,
      ∀ call ∈ (s.rsm p).calls c, call.taken = none → op.id = call.id →
      ∀ e ∈ s.entry index, e.peer = p → e.life = s.life p))
  | .idle | .snapshot _ | .closed | .ended => .isTrue trivial

instance (s : Peers n R V S) : (x : Action n R S D) → Decidable (s.FreshIds x)
  | .peer p (.grant i order) => inferInstanceAs (Decidable (
      (s.rsm p).Fits (.grant i order : RSM.Action R D) ∧
        ((s.rsm p).queue[i]? = some .reader → s.NoEarlierLife p (s.rsm p).reading)))
  | .peer _ (.submit _) | .peer _ (.start _ _) | .peer _ (.receive _) | .peer _ (.message _)
  | .peer _ .close | .peer _ (.tick _) | .peer _ .send | .peer _ .unlock
  | .apply _ | .install _ _ _ | .commit _ | .restart _ _ _ => .isTrue trivial

/-- Five servers that add up. -/
def fiveAdders : Peers 5 ℕ ℕ ℕ where
  rsm p := make p 0
  life _ := 0
  applied _ := 0
  proposals := []
  committed := []

/-- What peer 0 does. -/
def atFirst (xs : List (RSM.Action ℕ ℕ)) : List (Action 5 ℕ ℕ ℕ) := xs.map (.peer 0)

/-- Peer 0 leads in term 1 and gets indexes 1 and 2. Another leader replaces both entries by one
of its own, peer 0 is started again, and leads in term 3: index 2 is free, and its second call
gets it. Then the first two entries are committed after all, by a peer that has kept them. -/
def idReused : List (Action 5 ℕ ℕ ℕ) :=
  atFirst (registers 0 3 1 1 ++ registers 1 4 2 1) ++ [.restart 0 0 0] ++
    atFirst ([.submit 5, .grant 0 [], .start 0 none] ++ registers 1 7 2 3) ++
    [.commit 0, .commit 1, .apply 0] ++ atFirst [.grant 0 [], .unlock] ++ [.apply 0] ++
    atFirst [.grant 0 [2], .send, .unlock, .receive 1, .grant 0 []]

theorem ok_is_truthful_once : ∃ s : Peers 5 ℕ ℕ ℕ,
    ((s.rsm 0).calls 0).map (·.phase) = some (.done ⟨.ok, some 3⟩) ∧ s.Truthful := by
  obtain ⟨s, hs, hv⟩ := (machine adder).reach_of_run FreshIds
    (f := fun s => ((s.rsm 0).calls 0).map (·.phase)) (v := some (.done ⟨.ok, some 3⟩))
    (atFirst (registers 0 3 1 1) ++ [.commit 0, .apply 0] ++
      atFirst [.grant 0 [1], .send, .unlock, .receive 0, .grant 0 []])
    (s := fiveAdders) ⟨fun p => ⟨0, rfl⟩, rfl, rfl⟩ rfl
  exact ⟨s, hv, ok_is_truthful hs⟩

/-- The call for 7 returns OK with what `DoOp` has returned for 4. -/
theorem ok_for_another_call :
    ¬ ∀ s : Peers 5 ℕ ℕ ℕ, (machine adder).Reachable s → s.Truthful := by
  intro h
  obtain ⟨s, hs, hv⟩ := (machine adder).reach_of_run (fun _ _ => True)
    (f := fun s => ((s.rsm 0).calls 1, (s.entry 2).map (·.life), s.life 0))
    (v := (some ⟨7, 2, some 2, 3, .done ⟨.ok, some 7⟩, none, 1, true⟩, some 0, 1)) idReused
    (s := fiveAdders)
    ⟨fun p => ⟨0, rfl⟩, rfl, rfl⟩ rfl
  simp only [Prod.mk.injEq] at hv
  obtain ⟨hc, he, hlife⟩ := hv
  obtain ⟨index, e, -, hindex, hentry, -, helife, -⟩ := h s hs 0 1 _ _ hc rfl
  cases hindex
  rw [hentry, Option.map_some, Option.some.injEq, helife, hlife] at he
  cases he

end Peers

end RSM

end CollabIde
