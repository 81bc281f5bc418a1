import Mathlib.Logic.Function.Basic
import Mathlib.Data.Nat.Notation
import Mathlib.Tactic.Tauto

/-!
# Awareness

The cursors that the pages of a session tell each other of (`awareness.js` of y-protocols): for
each client a state and a clock. A page takes an entry with a later clock, or one that marks a
client as offline at its clock; it keeps its own state alive by a clock of its own. The `level` of
a client only grows (`applyAwarenessUpdate_level`), and no update takes the clocks over a bound that
all pages and all updates under way respect (`Bounded`).
-/

namespace CollabIde

/-- A client in an awareness update: without a state, it is offline. -/
structure AwarenessEntry (S : Type) where
  clientID : ℕ
  clock : ℕ
  state : Option S

/-- What the event `change` lists. -/
structure Changes where
  added : List ℕ := []
  updated : List ℕ := []
  removed : List ℕ := []

def Changes.all (c : Changes) : List ℕ := c.added ++ c.updated ++ c.removed

def Changes.append (c c' : Changes) : Changes :=
  ⟨c.added ++ c'.added, c.updated ++ c'.updated, c.removed ++ c'.removed⟩

structure Awareness (S : Type) where
  clientID : ℕ
  states : ℕ → Option S
  /-- The clocks in `meta`. -/
  clocks : ℕ → Option ℕ

namespace Awareness

variable {S : Type} (a : Awareness S)

/-- The clock of a client, 0 for an unknown one. -/
def clock (id : ℕ) : ℕ := (a.clocks id).getD 0

def setClock (id clock : ℕ) : Awareness S :=
  { a with clocks := Function.update a.clocks id (some clock) }

def setState (id : ℕ) (state : Option S) : Awareness S :=
  { a with states := Function.update a.states id state }

section Local

variable [DecidableEq S]

/-- `setLocalState`, with the changes that `change` lists. -/
def setLocalState (state : Option S) : Awareness S × Changes :=
  let id := a.clientID
  let clock := match a.clocks id with
    | none => 0
    | some clock => clock + 1
  ((a.setState id state).setClock id clock,
    match state, a.states id with
    | none, _ => { removed := [id] }
    | some _, none => { added := [id] }
    | some state, some prevState => if state = prevState then {} else { updated := [id] })

/-- The constructor, with the blank state that it sets. -/
def new (clientID : ℕ) (blank : S) : Awareness S :=
  (setLocalState ⟨clientID, fun _ => none, fun _ => none⟩ (some blank)).1

end Local

def removeAwarenessStates : Awareness S → List ℕ → Awareness S × Changes
  | a, [] => (a, {})
  | a, id :: clients =>
    if (a.states id).isSome then
      let a₁ := a.setState id none
      let a₂ := if id = a.clientID then a₁.setClock id (a.clock id + 1) else a₁
      let r := a₂.removeAwarenessStates clients
      (r.1, .append { removed := [id] } r.2)
    else a.removeAwarenessStates clients

def encodeAwarenessUpdate (clients : List ℕ) : List (AwarenessEntry S) :=
  clients.map fun id => ⟨id, a.clock id, a.states id⟩

variable [DecidableEq S]

/-- What `applyAwarenessUpdate` does with an entry. -/
def applyEntry (e : AwarenessEntry S) : Awareness S × Changes :=
  let id := e.clientID
  if a.clock id < e.clock ∨ (a.clock id = e.clock ∧ e.state.isNone ∧ (a.states id).isSome) then
    match e.state with
    | none =>
      -- no remote client removes the local state
      (if id = a.clientID ∧ (a.states a.clientID).isSome then a.setClock id (e.clock + 1)
        else (a.setState id none).setClock id e.clock,
        if (a.clocks id).isSome then { removed := [id] } else {})
    | some state =>
      ((a.setState id (some state)).setClock id e.clock,
        if (a.clocks id).isNone then { added := [id] }
        else if a.states id = some state then {} else { updated := [id] })
  else (a, {})

def applyAwarenessUpdate : Awareness S → List (AwarenessEntry S) → Awareness S × Changes
  | a, [] => (a, {})
  | a, e :: update =>
    let r := (a.applyEntry e).1.applyAwarenessUpdate update
    (r.1, (a.applyEntry e).2.append r.2)

/-! ## Clocks -/

omit [DecidableEq S]

/-- How much a page knows of a client. -/
def level (id : ℕ) : ℕ := 2 * a.clock id + if (a.states id).isSome then 0 else 1

/-- The clocks are at most `T`, and those of offline clients are below it. -/
structure Bounded (T : ℕ) : Prop where
  clock : ∀ id, a.clock id ≤ T
  offline : ∀ id, (a.states id).isSome = false → a.clock id < T

end Awareness

/-- The client could come back with a clock that is at most `T`. -/
structure AwarenessEntry.Bounded {S : Type} (e : AwarenessEntry S) (T : ℕ) : Prop where
  clock : e.clock ≤ T
  offline : e.state.isSome = false → e.clock < T

namespace Awareness

variable {S : Type} {a : Awareness S} {T id : ℕ}

@[simp] theorem setClock_clock (j clock : ℕ) :
    (a.setClock id clock).clock j = if j = id then clock else a.clock j := by
  unfold Awareness.clock setClock
  dsimp only
  split
  · rename_i h
    rw [h, Function.update_self]
    rfl
  · rw [Function.update_of_ne ‹_›]

@[simp] theorem setClock_states (clock : ℕ) : (a.setClock id clock).states = a.states := rfl

@[simp] theorem setState_clock (state : Option S) (j : ℕ) :
    (a.setState id state).clock j = a.clock j := rfl

@[simp] theorem setState_states (state : Option S) (j : ℕ) :
    (a.setState id state).states j = if j = id then state else a.states j := by
  unfold setState
  dsimp only
  split
  · rename_i h
    rw [h, Function.update_self]
  · rw [Function.update_of_ne ‹_›]

theorem Bounded.of_clock (h : ∀ id, a.clock id < T) : a.Bounded T :=
  ⟨fun id => Nat.le_of_lt (h id), fun id _ => h id⟩

theorem Bounded.mono {T' : ℕ} (h : a.Bounded T) (hT : T ≤ T') : a.Bounded T' :=
  ⟨fun id => Nat.le_trans (h.clock id) hT, fun id hs => Nat.lt_of_lt_of_le (h.offline id hs) hT⟩

theorem Bounded.level_le (h : a.Bounded T) (id : ℕ) : a.level id ≤ 2 * T := by
  have hclock := h.clock id
  have hoffline := h.offline id
  unfold level
  split
  · omega
  · rename_i hs
    have := hoffline (Bool.not_eq_true _ ▸ hs)
    omega

/-- What a page says of clients that it knows of. -/
theorem Bounded.encode (h : a.Bounded T) {clients : List ℕ} {e : AwarenessEntry S}
    (he : e ∈ a.encodeAwarenessUpdate clients) : e.Bounded T ∧ e.clientID ∈ clients := by
  obtain ⟨id, hid, rfl⟩ := List.mem_map.mp he
  exact ⟨⟨h.clock id, h.offline id⟩, hid⟩

theorem mem_append {c c' : Changes} : id ∈ (c.append c').all ↔ id ∈ c.all ∨ id ∈ c'.all := by
  simp only [Changes.append, Changes.all, List.mem_append]
  tauto

/-! ## Updates -/

/-- What an entry does to a page's awareness. -/
inductive Applied (a : Awareness S) (e : AwarenessEntry S) : Awareness S × Changes → Prop
  | ignored : Applied a e (a, {})
  | revived {c : Changes} : e.state.isSome = false → (a.states e.clientID).isSome = true →
    a.clock e.clientID ≤ e.clock → (∀ id ∈ c.all, id = e.clientID) →
    Applied a e (a.setClock e.clientID (e.clock + 1), c)
  | offline {c : Changes} : e.state.isSome = false → (a.clock e.clientID < e.clock ∨
      a.clock e.clientID = e.clock ∧ (a.states e.clientID).isSome = true) →
    (∀ id ∈ c.all, id = e.clientID) →
    Applied a e ((a.setState e.clientID none).setClock e.clientID e.clock, c)
  | online {state : S} {c : Changes} : a.clock e.clientID < e.clock →
    (∀ id ∈ c.all, id = e.clientID) →
    Applied a e ((a.setState e.clientID (some state)).setClock e.clientID e.clock, c)

theorem applyEntry_applied [DecidableEq S] (a : Awareness S) (e : AwarenessEntry S) :
    Applied a e (a.applyEntry e) := by
  have hnone : ∀ id ∈ ({} : Changes).all, id = e.clientID := nofun
  unfold applyEntry
  dsimp only
  split
  case isFalse => exact .ignored
  rename_i hnew
  split
  · rename_i hstate
    have hchanges : ∀ id ∈ (if (a.clocks e.clientID).isSome then
        ({ removed := [e.clientID] } : Changes) else {}).all, id = e.clientID := by
      split
      · exact fun id hid => List.mem_singleton.mp hid
      · exact hnone
    have hs : e.state.isSome = false := by rw [hstate]; rfl
    split
    · rename_i hlocal
      refine .revived hs (hlocal.1 ▸ hlocal.2) ?_ hchanges
      omega
    · exact .offline hs (hnew.imp_right fun h => ⟨h.1, h.2.2⟩) hchanges
  · rename_i state hstate
    refine .online (hnew.resolve_right fun h => ?_) ?_
    · rw [hstate] at h
      cases h.2.1
    · split
      · exact fun id hid => List.mem_singleton.mp hid
      · split
        · exact hnone
        · exact fun id hid => List.mem_singleton.mp hid

namespace Applied

variable {e : AwarenessEntry S} {r : Awareness S × Changes}

theorem clientID (h : Applied a e r) : r.1.clientID = a.clientID := by
  cases h <;> rfl

theorem bounded (h : Applied a e r) (hb : a.Bounded T) (he : e.Bounded T) : r.1.Bounded T := by
  have hclock {a' : Awareness S} {clock : ℕ} (hc : clock ≤ T)
      (hs : ∀ j ≠ e.clientID, a'.states j = a.states j) (hk : ∀ j, a'.clock j = a.clock j)
      (hoff : (a'.states e.clientID).isSome = false → clock < T) :
      (a'.setClock e.clientID clock).Bounded T := by
    refine ⟨fun j => ?_, fun j hj => ?_⟩
    · rw [setClock_clock]
      split
      · exact hc
      · rw [hk]
        exact hb.clock j
    · rw [setClock_states] at hj
      rw [setClock_clock]
      split
      · rename_i hid
        exact hoff (hid ▸ hj)
      · rename_i hid
        rw [hs j hid] at hj
        rw [hk]
        exact hb.offline j hj
  cases h with
  | ignored => exact hb
  | revived hs hlocal _ _ =>
    refine hclock (he.offline hs) (fun _ _ => rfl) (fun _ => rfl) fun hoff => ?_
    rw [hlocal] at hoff
    cases hoff
  | offline hs _ _ =>
    refine hclock he.clock (fun j hj => ?_) (fun _ => rfl) fun _ => he.offline hs
    rw [setState_states, if_neg hj]
  | online _ _ =>
    refine hclock he.clock (fun j hj => ?_) (fun _ => rfl) fun hoff => ?_
    · rw [setState_states, if_neg hj]
    · rw [setState_states, if_pos rfl] at hoff
      cases hoff

/-- The level of the entry's client grows, or nothing happens. -/
theorem level (h : Applied a e r) : r = (a, {}) ∨
    a.level e.clientID < r.1.level e.clientID ∧ (∀ j ≠ e.clientID, r.1.level j = a.level j) ∧
      ∀ id ∈ r.2.all, id = e.clientID := by
  cases h with
  | ignored => exact .inl rfl
  | revived _ hlocal hle hc =>
    refine .inr ⟨?_, fun j hj => ?_, hc⟩
    · simp only [Awareness.level, setClock_clock, setClock_states, hlocal, if_true]
      omega
    · simp only [Awareness.level, setClock_clock, setClock_states, if_neg hj]
      rfl
  | offline _ hnew hc =>
    refine .inr ⟨?_, fun j hj => ?_, hc⟩
    · simp only [Awareness.level, setClock_clock, setClock_states, setState_states, if_true]
      obtain hlt | ⟨heq, hs⟩ := hnew
      · split <;> simp <;> omega
      · simp [hs, heq]
    · simp only [Awareness.level, setClock_clock, setClock_states, setState_states, setState_clock,
        if_neg hj]
  | online hlt hc =>
    refine .inr ⟨?_, fun j hj => ?_, hc⟩
    · simp only [Awareness.level, setClock_clock, setClock_states, setState_states, if_true]
      split <;> simp <;> omega
    · simp only [Awareness.level, setClock_clock, setClock_states, setState_states, setState_clock,
        if_neg hj]

end Applied

section Update

variable [DecidableEq S] {update : List (AwarenessEntry S)}

theorem applyAwarenessUpdate_bounded (hb : a.Bounded T) (hu : ∀ e ∈ update, e.Bounded T) :
    (a.applyAwarenessUpdate update).1.Bounded T := by
  induction update generalizing a with
  | nil => exact hb
  | cons e update ih =>
    exact ih ((applyEntry_applied a e).bounded hb (hu e (List.mem_cons_self ..)))
      fun e' he' => hu e' (List.mem_cons_of_mem _ he')

theorem applyAwarenessUpdate_clientID :
    (a.applyAwarenessUpdate update).1.clientID = a.clientID := by
  induction update generalizing a with
  | nil => rfl
  | cons e update ih => exact ih.trans (applyEntry_applied a e).clientID

/-- Levels only grow, and the changes are about clients of the update, of which one has grown. -/
theorem applyAwarenessUpdate_level (a : Awareness S) (update : List (AwarenessEntry S)) :
    (∀ id, a.level id ≤ (a.applyAwarenessUpdate update).1.level id) ∧
    (∀ id ∈ (a.applyAwarenessUpdate update).2.all, ∃ e ∈ update, e.clientID = id) ∧
    ((a.applyAwarenessUpdate update).2.all ≠ [] →
      ∃ e ∈ update, a.level e.clientID < (a.applyAwarenessUpdate update).1.level e.clientID) := by
  induction update generalizing a with
  | nil => exact ⟨fun _ => Nat.le_refl _, nofun, fun h => absurd rfl h⟩
  | cons e update ih =>
    obtain ⟨hmono, hids, hgrown⟩ := ih (a.applyEntry e).1
    have happly : a.applyAwarenessUpdate (e :: update) =
      (((a.applyEntry e).1.applyAwarenessUpdate update).1,
        (a.applyEntry e).2.append ((a.applyEntry e).1.applyAwarenessUpdate update).2) := rfl
    rw [happly]
    dsimp only
    obtain hsame | ⟨hlt, hother, hc⟩ := (applyEntry_applied a e).level
    · rw [hsame] at hmono hids hgrown ⊢
      refine ⟨hmono, fun id hid => ?_, fun hne => ?_⟩
      · obtain ⟨e', he', hid'⟩ := hids id hid
        exact ⟨e', List.mem_cons_of_mem _ he', hid'⟩
      · obtain ⟨e', he', hlt⟩ := hgrown hne
        exact ⟨e', List.mem_cons_of_mem _ he', hlt⟩
    · refine ⟨fun id => ?_, fun id hid => ?_, fun _ => ?_⟩
      · refine Nat.le_trans ?_ (hmono id)
        by_cases hid : id = e.clientID
        · rw [hid]
          exact Nat.le_of_lt hlt
        · exact Nat.le_of_eq (hother id hid).symm
      · rw [mem_append] at hid
        obtain hid | hid := hid
        · exact ⟨e, List.mem_cons_self .., (hc id hid).symm⟩
        · obtain ⟨e', he', hid'⟩ := hids id hid
          exact ⟨e', List.mem_cons_of_mem _ he', hid'⟩
      · exact ⟨e, List.mem_cons_self .., Nat.lt_of_lt_of_le hlt (hmono _)⟩

end Update

/-! ## What a page does of itself -/

theorem setLocalState_bounded [DecidableEq S] (hb : a.Bounded T) (state : Option S) :
    (a.setLocalState state).1.Bounded (T + 2) := by
  refine .of_clock fun j => ?_
  simp only [setLocalState, setClock_clock, setState_clock]
  have hj := hb.clock j
  have hid := hb.clock a.clientID
  unfold Awareness.clock at hid
  split
  · cases hc : a.clocks a.clientID with
    | none => exact Nat.succ_pos _
    | some clock =>
      rw [hc] at hid
      exact Nat.lt_succ_of_le (Nat.succ_le_succ hid)
  · omega

theorem setLocalState_changes [DecidableEq S] {state : Option S}
    (h : id ∈ (a.setLocalState state).2.all) : id = a.clientID := by
  simp only [setLocalState] at h
  split at h
  · exact List.mem_singleton.mp h
  · exact List.mem_singleton.mp h
  · split at h
    · cases h
    · exact List.mem_singleton.mp h

/-- A page removes its own state once, with a clock of its own. -/
theorem removeAwarenessStates_clock (clients : List ℕ) (j : ℕ) :
    (a.removeAwarenessStates clients).1.clock j ≤
      a.clock j + if (a.states j).isSome then 1 else 0 := by
  induction clients generalizing a with
  | nil => exact Nat.le_add_right _ _
  | cons id clients ih =>
    unfold removeAwarenessStates
    split
    · rename_i hs
      dsimp only
      refine Nat.le_trans ih ?_
      by_cases hj : j = id
      · subst hj
        split
        · simp
        · simp
      · split
        · simp [hj]
        · simp [hj]
    · exact ih

theorem removeAwarenessStates_clientID (clients : List ℕ) :
    (a.removeAwarenessStates clients).1.clientID = a.clientID := by
  induction clients generalizing a with
  | nil => rfl
  | cons id clients ih =>
    unfold removeAwarenessStates
    split
    · refine ih.trans ?_
      split <;> rfl
    · exact ih

theorem removeAwarenessStates_bounded (hb : a.Bounded T) (clients : List ℕ) :
    (a.removeAwarenessStates clients).1.Bounded (T + 2) := by
  refine .of_clock fun j => ?_
  have h := a.removeAwarenessStates_clock clients j
  have hj := hb.clock j
  split at h <;> omega

theorem removeAwarenessStates_changes {clients : List ℕ}
    (h : id ∈ (a.removeAwarenessStates clients).2.all) : id ∈ clients := by
  induction clients generalizing a with
  | nil => cases h
  | cons j clients ih =>
    unfold removeAwarenessStates at h
    split at h
    · rw [mem_append] at h
      obtain h | h := h
      · rw [List.mem_singleton.mp h]
        exact List.mem_cons_self ..
      · exact List.mem_cons_of_mem _ (ih h)
    · exact List.mem_cons_of_mem _ (ih h)

end Awareness

end CollabIde
