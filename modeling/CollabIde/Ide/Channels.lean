import CollabIde.Ide.Delivery

/-!
# The channels of the clients

A handler registers its client before its loop and unregisters it after the loop (`Conn.Attended`).
Only the queue of a client that the hub still has is sent to or closed (`Guarded`), so that in every
run nothing is sent to a closed queue and none is closed twice (`step_guarded`). The queue of a
client that another connection of its user has displaced is not closed at all: every connection
that has ended has closed its queue exactly as long as each is unregistered while the hub has it
(`closed_once`).
-/

namespace CollabIde

variable {E : Type}

/-- What a handler that has left its loop has still to do. -/
inductive Leaving : List (Task E) → Prop
  | redirect : Leaving (.redirect :: closingTasks)
  | unregister : Leaving closingTasks
  | list : Leaving [.listParticipants]
  | broadcast {m : WSMessage E} : Leaving [.broadcastAll m]
  | returned : Leaving []

/-- The client is registered once, before the loop, and unregistered once, after it. -/
structure Conn.Attended (c : Conn E) : Prop where
  register : .register ∈ c.todo → c.todo = openingTasks ∨ c.todo = openingTasks.tail
  serving : c.serving = true → .unregister ∉ c.todo
  leaving : c.serving = false → Leaving c.todo

theorem Leaving.register_notMem {ts : List (Task E)} (h : Leaving ts) : .register ∉ ts := by
  intro ht
  cases h <;> simp [closingTasks] at ht

namespace Ide

section Hub

variable (s : Ide E)

/-- The client that a step registers. -/
def registers : Action E → Option ℕ
  | .run k => (s.conn k).todo.head?.bind fun
    | .register => some k
    | _ => none
  | _ => none

/-- The client that a step unregisters. -/
def unregisters : Action E → Option ℕ
  | .run k => (s.conn k).todo.head?.bind fun
    | .unregister => some k
    | _ => none
  | _ => none

/-- What a step does to the map of the hub. -/
inductive Mapped (x : Action E) : (String → Option ℕ) → Prop
  | same : s.registers x = none → (∀ k ∈ s.unregisters x, ¬ s.Registered k) → Mapped x s.clients
  | register {k : ℕ} : s.registers x = some k → s.unregisters x = none →
    Mapped x (Function.update s.clients (s.conn k).client.id (some k))
  | unregister {k : ℕ} : s.registers x = none → s.unregisters x = some k → s.Registered k →
    Mapped x (Function.update s.clients (s.conn k).client.id none)

end Hub

variable {cfg : Config E} {s s' : Ide E} {x : Action E} {j k : ℕ}

theorem registers_eq (h : s.registers x = some k) :
    x = .run k ∧ ∃ rest, (s.conn k).todo = .register :: rest := by
  cases x with
  | run i =>
    obtain ⟨t, ht, hk⟩ := Option.bind_eq_some_iff.mp h
    obtain ⟨rest, hrest⟩ := List.head?_eq_some_iff.mp ht
    cases t with
    | register =>
      cases hk
      exact ⟨rfl, rest, hrest⟩
    | _ => cases hk
  | _ => cases h

theorem unregisters_eq (h : s.unregisters x = some k) :
    x = .run k ∧ ∃ rest, (s.conn k).todo = .unregister :: rest := by
  cases x with
  | run i =>
    obtain ⟨t, ht, hk⟩ := Option.bind_eq_some_iff.mp h
    obtain ⟨rest, hrest⟩ := List.head?_eq_some_iff.mp ht
    cases t with
    | unregister =>
      cases hk
      exact ⟨rfl, rest, hrest⟩
    | _ => cases hk
  | _ => cases h

/-- A message is put into the queues of clients that the hub has. -/
theorem posted_registered (hwf : s.WF) (h : s.posted x j ≠ none) : s.Registered j := by
  have hsession {p : Prop} [Decidable p] {m : WSMessage E} (hp : p → s.Registered j)
      (h : (if p then some m else none) ≠ none) : s.Registered j := by
    split at h
    · exact hp ‹_›
    · exact absurd rfl h
  cases x with
  | run k =>
    simp only [posted] at h
    cases ht : (s.conn k).todo.head? with
    | none =>
      rw [ht] at h
      exact absurd rfl h
    | some t =>
      rw [ht, Option.bind_some] at h
      cases t with
      | broadcast m => exact hsession (fun h => h.1.1) h
      | broadcastAll m => exact hsession (fun h => h.1) h
      | _ => exact absurd rfl h
  | serve k =>
    simp only [posted] at h
    cases hf : (s.conn k).inbox.head? with
    | none =>
      rw [hf] at h
      exact absurd rfl h
    | some f =>
      rw [hf, Option.bind_some] at h
      unfold framePost at h
      split at h
      · split at h
        · exact hsession (fun h => h.1.1) h
        · exact hsession (fun h => h.1.1) h
        · exact hsession (fun h => h.1.1) h
        · refine hsession (fun h => ?_) h
          rw [Registered, (hwf.registered h.2).2]
          exact h.2
        · exact absurd rfl h
      · exact absurd rfl h
  | _ => exact absurd rfl h

theorem handleFrame_clients (f : Frame E) : (s.handleFrame k f).clients = s.clients := by
  unfold handleFrame
  repeat' split
  all_goals rfl

/-- The other tasks leave the map of the hub. -/
theorem perform_clients {t : Task E} (hr : t ≠ .register) (hu : t ≠ .unregister) :
    (s.perform cfg k t).clients = s.clients := by
  cases t with
  | register => exact absurd rfl hr
  | unregister => exact absurd rfl hu
  | sendDoc =>
    simp only [perform]
    split <;> rfl
  | updateClientRole userID role =>
    simp only [perform, updateClientRole]
    split <;> rfl
  | _ => rfl

/-- The other tasks leave the queues open or closed as they are. -/
theorem perform_closed {t : Task E} (hu : t ≠ .unregister) (j : ℕ) :
    ((s.perform cfg k t).conn j).client.closed = (s.conn j).client.closed := by
  have hset {c : Conn E} {i : ℕ} (hc : c.client.closed = (s.conn i).client.closed) :
      ((s.setConn i c).conn j).client.closed = (s.conn j).client.closed :=
    setConn_same (fun c => c.client.closed) hc j
  cases t with
  | unregister => exact absurd rfl hu
  | register => rfl
  | submit cmd last => rfl
  | sendDoc =>
    simp only [perform]
    split
    · exact hset rfl
    · rfl
  | updateClientRole userID role =>
    simp only [perform, updateClientRole]
    split
    · exact hset rfl
    · rfl
  | broadcast m => exact post_same (fun c => c.client.closed) (fun _ _ => rfl) j
  | broadcastAll m => exact post_same (fun c => c.client.closed) (fun _ _ => rfl) j
  | getRole => exact hset rfl
  | listParticipants => exact hset rfl
  | startPump => exact hset rfl
  | redirect => exact hset rfl

theorem unregister_closed (j : ℕ) : ((s.unregister k).conn j).client.closed =
    ((s.conn j).client.closed || decide (j = k ∧ s.Registered k)) := by
  unfold unregister
  split
  · rename_i hreg
    dsimp only
    by_cases hj : j = k
    · rw [decide_eq_true ⟨hj, hreg⟩, Bool.or_true, hj, setConn_conn_self]
    · rw [decide_eq_false fun h => hj h.1, Bool.or_false, setConn_conn_ne hj]
  · rename_i hreg
    rw [decide_eq_false fun h => hreg h.2, Bool.or_false]

variable [DecidableEq E] [Edit E]

/-- A handler changes the map of the hub by `Register` and `Unregister` only. -/
theorem step_mapped (h : s.step cfg x = some s') : s.Mapped x s'.clients := by
  have hsame (hr : s.registers x = none) (hu : s.unregisters x = none) : s.Mapped x s.clients :=
    .same hr fun i hi => absurd (hu.symm.trans hi).symm (Option.some_ne_none i)
  cases stepped h with
  | @run k t rest ht =>
    have hid := setConn_same (s := s) (k := k) (c := { s.conn k with todo := rest })
      (fun c => c.client) rfl k
    have hreg : (s.setTodo k rest).Registered k ↔ s.Registered k := by
      rw [Registered, Registered, setTodo, hid]
      rfl
    by_cases hr : t = .register
    · subst hr
      have hmap := Mapped.register (s := s) (x := .run k) (k := k)
        (by rw [registers, ht]; rfl) (by rw [unregisters, ht]; rfl)
      rw [← hid] at hmap
      exact hmap
    have hnone : s.registers (.run k) = none := by
      rw [registers, ht]
      cases t with
      | register => exact absurd rfl hr
      | _ => rfl
    by_cases hu : t = .unregister
    · subst hu
      have hunreg : s.unregisters (.run k) = some k := by
        rw [unregisters, ht]
        rfl
      simp only [perform, unregister]
      split
      · have hmap := Mapped.unregister hnone hunreg (hreg.mp ‹_›)
        rw [← hid] at hmap
        exact hmap
      · rename_i hdisplaced
        refine .same hnone fun i hi => ?_
        rw [hunreg] at hi
        cases hi
        exact mt hreg.mpr hdisplaced
    · rw [perform_clients hr hu]
      refine .same hnone fun i hi => ?_
      obtain ⟨-, _, htodo⟩ := unregisters_eq hi
      obtain ⟨hx, -⟩ := unregisters_eq hi
      cases hx
      rw [ht] at htodo
      exact absurd (List.cons.inj htodo).1 hu
  | @serve k f rest _ _ =>
    have hc := handleFrame_clients (s := s.setConn k { s.conn k with inbox := rest }) (k := k) f
    rw [hc]
    exact hsame rfl rfl
  | _ => exact hsame rfl rfl

/-- A queue is closed by the `Unregister` of its own client only, as long as the hub has it. -/
theorem step_closed (hwf : s.WF) (h : s.step cfg x = some s') (j : ℕ) :
    (s'.conn j).client.closed =
      ((s.conn j).client.closed || decide (s.unregisters x = some j ∧ s.Registered j)) := by
  have hsame {c : Conn E} (hc : c.client.closed = (s.conn j).client.closed)
      (hx : s.unregisters x = some j → ¬ s.Registered j) : c.client.closed =
        ((s.conn j).client.closed || decide (s.unregisters x = some j ∧ s.Registered j)) := by
    rw [decide_eq_false fun h => hx h.1 h.2, Bool.or_false, hc]
  have hother {c : Conn E} (hc : c.client.closed = (s.conn j).client.closed)
      (hx : s.unregisters x = none) := hsame hc fun h => absurd (hx.symm.trans h).symm (Option.some_ne_none j)
  have hset {k : ℕ} {c : Conn E} (hc : c.client.closed = (s.conn k).client.closed) :
      ((s.setConn k c).conn j).client.closed = (s.conn j).client.closed :=
    setConn_same (fun c => c.client.closed) hc j
  cases stepped h with
  | @run k t rest ht =>
    have hid (i : ℕ) := setConn_same (s := s) (k := k) (c := { s.conn k with todo := rest })
      (fun c => c.client) rfl i
    have hreg : (s.setTodo k rest).Registered k ↔ s.Registered k := by
      rw [Registered, Registered, setTodo, hid]
      rfl
    by_cases hu : t = .unregister
    · subst hu
      have hunreg : s.unregisters (.run k) = some k := by
        rw [unregisters, ht]
        rfl
      have hclosed := unregister_closed (s := s.setTodo k rest) (k := k) j
      rw [setTodo, hid] at hclosed
      refine hclosed.trans ?_
      congr 1
      refine decide_eq_decide.mpr ?_
      rw [hunreg, Option.some.injEq, eq_comm]
      refine and_congr_right fun hj => ?_
      rw [← hj]
      exact hreg
    · refine hsame ((perform_closed hu j).trans (congrArg Client.closed (hid j))) fun hx => ?_
      obtain ⟨hrun, _, htodo⟩ := unregisters_eq hx
      cases hrun
      rw [ht] at htodo
      exact absurd (List.cons.inj htodo).1 hu
  | @connect userID code role _ =>
    refine hother ?_ rfl
    refine hset (k := s.next) ?_
    rw [hwf.unused _ le_rfl]
    rfl
  | @serve k f rest _ _ =>
    have hc := handleFrame_same (s.setConn k { s.conn k with inbox := rest }) k
      (fun c => c.client.closed) f j fun _ _ _ => rfl
    exact hother (hc.trans (hset rfl)) rfl
  | create _ => exact hother rfl rfl
  | join => exact hother rfl rfl
  | replicate _ => exact hother rfl rfl
  | refuse _ _ => exact hother (hset rfl) rfl
  | fail _ _ => exact hother (hset rfl) rfl
  | pump _ _ => exact hother (hset rfl) rfl
  | @receive k m rest _ _ =>
    refine hother ?_ rfl
    rw [setTab_client]
    exact hset rfl
  | edit _ _ => exact hother (congrArg Client.closed (setTab_client _ j)) rfl
  | starter _ => exact hother (congrArg Client.closed (setTab_client _ j)) rfl
  | send _ => exact hother (congrArg Client.closed (setTab_client _ j)) rfl
  | hangUp _ => exact hother (congrArg Client.closed (setTab_client _ j)) rfl

/-! ## Every run -/

theorem attended_step (ha : (s.conn j).Attended) (h : s.step cfg x = some s') :
    (s'.conn j).Attended := by
  cases step_handler h j with
  | page hserving htodo _ =>
    refine ⟨?_, ?_, ?_⟩
    · rw [htodo]
      exact ha.register
    · rw [htodo, hserving]
      exact ha.serving
    · rw [htodo, hserving]
      exact ha.leaving
  | connect _ _ hc =>
    rw [hc]
    refine ⟨fun _ => .inl rfl, fun _ ht => ?_, nofun⟩
    simp [Conn.fresh, openingTasks] at ht
  | @run t rest _ hrun hserving _ htodo =>
    have hrest {t' : Task E} (ht : t' = .register ∨ t' = .unregister)
        (hmem : t' ∈ (s'.conn j).todo) : t' ∈ rest := by
      rw [htodo] at hmem
      refine (List.mem_append.mp hmem).resolve_left fun hfollow => ?_
      obtain rfl | rfl := ht
      · cases t <;> simp [follow] at hfollow
      · cases t <;> simp [follow] at hfollow
    refine ⟨fun hmem => ?_, fun hs hmem => ?_, fun hs => ?_⟩
    · -- the handler has read its role and registers next
      have hin := hrest (.inl rfl) hmem
      obtain hopen | hopen := ha.register (hrun ▸ List.mem_cons_of_mem _ hin)
      · rw [hrun] at hopen
        obtain ⟨rfl, rfl⟩ := List.cons.inj hopen
        exact .inr htodo
      · rw [hrun] at hopen
        obtain ⟨-, rfl⟩ := List.cons.inj hopen
        simp at hin
    · rw [hserving] at hs
      exact ha.serving hs (hrun ▸ List.mem_cons_of_mem _ (hrest (.inr rfl) hmem))
    · rw [hserving] at hs
      have hleaving := ha.leaving hs
      rw [hrun] at hleaving
      rw [htodo]
      cases hleaving with
      | redirect => exact .unregister
      | unregister => exact .list
      | list => exact .broadcast
      | broadcast => exact .returned
  | @refuse _ last _ _ _ _ hserving _ htodo =>
    refine ⟨fun hmem => ?_, fun hs hmem => ?_, fun hs => ?_⟩
    · rw [htodo] at hmem
      cases last <;> simp [closingTasks] at hmem
    · rw [htodo] at hmem
      rw [hserving] at hs
      cases last with
      | true => cases hs
      | false => simp at hmem
    · rw [hserving] at hs
      rw [htodo]
      cases last with
      | true => exact .redirect
      | false => cases hs
  | serve _ hidle _ hserving _ htodo =>
    refine ⟨fun hmem => ?_, fun _ hmem => ?_, fun hs => ?_⟩
    · exact absurd rfl (Client.frameTasks_loop (htodo ▸ hmem)).1
    · exact absurd rfl (Client.frameTasks_loop (htodo ▸ hmem)).2.2
    · rw [hserving, hidle.1] at hs
      cases hs
  | fail _ _ _ hserving _ htodo =>
    refine ⟨fun hmem => ?_, fun hs => ?_, fun _ => ?_⟩
    · rw [htodo] at hmem
      exact absurd hmem Leaving.unregister.register_notMem
    · rw [hserving] at hs
      cases hs
    · rw [htodo]
      exact .unregister

/-- The queues of the clients that the hub has, or will get, are open. -/
structure Guarded (s : Ide E) : Prop where
  wf : s.WF
  attended : ∀ j, (s.conn j).Attended
  closed : ∀ j, (s.conn j).client.closed = true →
    ¬ s.Registered j ∧ (s.conn j).serving = false ∧ .unregister ∉ (s.conn j).todo

/-- A connection that has unregistered its client registers and unregisters none any more. -/
theorem unregistered_step (h : s.step cfg x = some s') (hj : j < s.next)
    (ha : (s.conn j).Attended) (hserving : (s.conn j).serving = false)
    (hu : .unregister ∉ (s.conn j).todo) :
    (s'.conn j).serving = false ∧ .unregister ∉ (s'.conn j).todo := by
  have hleaving := ha.leaving hserving
  cases step_handler h j with
  | page hs ht _ =>
    rw [hs, ht]
    exact ⟨hserving, hu⟩
  | connect _ hnew _ => exact absurd hnew hj.ne
  | @run t rest _ hrun hs _ htodo =>
    rw [hs, htodo]
    refine ⟨hserving, fun hmem => ?_⟩
    rw [hrun] at hu
    obtain hmem | hmem := List.mem_append.mp hmem
    · cases t <;> simp [follow] at hmem
    · exact hu (List.mem_cons_of_mem _ hmem)
  | refuse _ hsubmit _ _ _ _ =>
    rw [hsubmit] at hleaving
    cases hleaving
  | serve _ hidle _ _ _ _ =>
    rw [hidle.1] at hserving
    cases hserving
  | fail _ hidle _ _ _ _ =>
    rw [hidle.1] at hserving
    cases hserving

/-- The step in which a handler unregisters its client is the last that can close its queue. -/
theorem ended_of_unregisters (ha : (s.conn j).Attended) (h : s.step cfg x = some s')
    (hx : s.unregisters x = some j) :
    (s'.conn j).serving = false ∧ .unregister ∉ (s'.conn j).todo := by
  obtain ⟨rfl, rest, htodo⟩ := unregisters_eq hx
  have hmem : .unregister ∈ (s.conn j).todo := htodo ▸ List.mem_cons_self ..
  have hserving : (s.conn j).serving = false := by
    by_contra hs
    exact ha.serving (Bool.not_eq_false _ ▸ hs) hmem
  have hleaving := ha.leaving hserving
  have hrest : (s'.conn j).todo = rest := run_todo h htodo
  rw [hrest]
  refine ⟨?_, fun hu => ?_⟩
  · cases step_handler h j with
    | page hs _ _ => exact hs.trans hserving
    | run _ _ hs _ _ => exact hs.trans hserving
    | connect hx _ _ => cases hx
    | refuse hx _ _ _ _ _ => cases hx
    | serve hx _ _ _ _ _ => cases hx
    | fail hx _ _ _ _ _ => cases hx
  · rw [htodo] at hleaving
    cases hleaving
    simp at hu

/-- A connection is opened, or it has been there. -/
theorem step_lt (h : s.step cfg x = some s') (hj : j < s'.next) : j < s.next ∨
    ∃ userID code role, userID ≠ "" ∧ s'.conn j = .fresh userID code role := by
  by_cases hlt : j < s.next
  · exact .inl hlt
  right
  cases stepped h with
  | @connect userID code role hid =>
    obtain rfl : j = s.next := by
      change j < s.next + 1 at hj
      omega
    exact ⟨userID, code, role, hid, setConn_conn_self⟩
  | @run k t rest _ =>
    rw [perform_next] at hj
    exact absurd hj hlt
  | @serve k f rest _ _ =>
    rw [handleFrame_next] at hj
    exact absurd hj hlt
  | _ => exact absurd hj hlt

/-- A number that was not in use is still not in use, or its connection has just been opened. -/
theorem step_new (h : s.step cfg x = some s') (hwf : s.WF) (hj : ¬ j < s.next) :
    s'.conn j = .unused ∨
      ∃ userID code role, userID ≠ "" ∧ s'.conn j = .fresh userID code role := by
  by_cases hj' : j < s'.next
  · exact .inr ((step_lt h hj').resolve_left hj)
  · exact .inl ((hwf.step h).unused j (not_lt.mp hj'))

namespace Guarded

omit [DecidableEq E] [Edit E] in
theorem initial : (initial : Ide E).Guarded where
  wf := ⟨fun _ _ => rfl, nofun⟩
  attended _ := ⟨nofun, nofun, fun _ => .returned⟩
  closed _ hc := by cases hc

theorem step (hg : s.Guarded) (h : s.step cfg x = some s') : s'.Guarded where
  wf := hg.wf.step h
  attended j := attended_step (hg.attended j) h
  closed j hc := by
    rw [step_closed hg.wf h, Bool.or_eq_true, decide_eq_true_iff] at hc
    have hlt : j < s.next := by
      obtain hc | ⟨hx, -⟩ := hc
      · exact hg.wf.lt_of_ne fun hu => by rw [hu] at hc; cases hc
      · exact hg.wf.lt_of_todo (unregisters_eq hx).2.choose_spec
    have hid := (step_stays h hlt).id
    have hmapped := step_mapped h
    obtain hc | ⟨hx, hreg⟩ := hc
    · obtain ⟨hreg, hserving, hu⟩ := hg.closed j hc
      refine ⟨fun hreg' => ?_, unregistered_step h hlt (hg.attended j) hserving hu⟩
      rw [Registered, hid] at hreg'
      generalize s'.clients = m at hmapped hreg'
      cases hmapped with
      | same _ _ => exact hreg hreg'
      | @register k hr _ =>
        by_cases hk : (s.conn j).client.id = (s.conn k).client.id
        · rw [hk, Function.update_self, Option.some.injEq] at hreg'
          subst hreg'
          obtain ⟨-, rest, htodo⟩ := registers_eq hr
          refine ((hg.attended k).leaving hserving).register_notMem ?_
          rw [htodo]
          exact List.mem_cons_self ..
        · rw [Function.update_of_ne hk] at hreg'
          exact hreg hreg'
      | @unregister k _ _ _ =>
        by_cases hk : (s.conn j).client.id = (s.conn k).client.id
        · rw [hk, Function.update_self] at hreg'
          cases hreg'
        · rw [Function.update_of_ne hk] at hreg'
          exact hreg hreg'
    · refine ⟨fun hreg' => ?_, ended_of_unregisters (hg.attended j) h hx⟩
      rw [Registered, hid] at hreg'
      generalize s'.clients = m at hmapped hreg'
      cases hmapped with
      | same _ hdisplaced => exact hdisplaced j hx hreg
      | register _ hnone =>
        rw [hx] at hnone
        cases hnone
      | unregister _ hx' _ =>
        rw [hx] at hx'
        cases hx'
        rw [Function.update_self] at hreg'
        cases hreg'

theorem of_reach {ok : Ide E → Action E → Prop} (hs : (machine cfg).Reach ok s) : s.Guarded := by
  refine hs.invariant (fun s h0 => ?_) fun _ _ _ _ hg _ => hg.step
  cases h0
  exact initial

end Guarded

section Closed

variable (s) (x)

/-- A step sends nothing to a closed queue, and closes none again. -/
structure KeepsClosed : Prop where
  sent : ∀ j, s.posted x j ≠ none → (s.conn j).client.closed = false
  closes : ∀ j, s.unregisters x = some j → s.Registered j → (s.conn j).client.closed = false

/-- The `Unregister` of connection `j` has returned. -/
def Ended (j : ℕ) : Prop :=
  j < s.next ∧ (s.conn j).serving = false ∧ .unregister ∉ (s.conn j).todo

/-- The queues of the connections that have ended are closed. -/
def AllClosed : Prop := ∀ j, s.Ended j → (s.conn j).client.closed = true

/-- A client is unregistered only while the hub has it. -/
def Held : Prop := ∀ k ∈ s.unregisters x, s.Registered k

instance : Decidable (s.Held x) := Option.decidableForallMem _

end Closed

omit [DecidableEq E] [Edit E] in
/-- In every run, nothing is sent to a closed queue, and none is closed twice. -/
theorem Guarded.keepsClosed (hg : s.Guarded) (x : Action E) : s.KeepsClosed x := by
  have hopen {j : ℕ} (hreg : s.Registered j) : (s.conn j).client.closed = false := by
    by_contra hc
    exact (hg.closed j (Bool.not_eq_false _ ▸ hc)).1 hreg
  exact ⟨fun j hj => hopen (posted_registered hg.wf hj), fun j _ hreg => hopen hreg⟩

/-- What a step makes of the queues of the connections that have ended. -/
theorem allClosed_step (hg : s.Guarded) (hs : s.AllClosed) (h : s.step cfg x = some s') :
    s'.AllClosed ↔ s.Held x := by
  constructor
  · intro hs' k hx
    obtain ⟨-, rest, htodo⟩ := unregisters_eq hx
    have hlt := hg.wf.lt_of_todo htodo
    have hclosed := hs' k ⟨hlt.trans_le (step_next h), ended_of_unregisters (hg.attended k) h hx⟩
    rw [step_closed hg.wf h, Bool.or_eq_true, decide_eq_true_iff] at hclosed
    obtain hc | hreg := hclosed
    · refine absurd ?_ (hg.closed k hc).2.2
      rw [htodo]
      exact List.mem_cons_self ..
    · exact hreg.2
  · intro hheld j ⟨hlt, hserving, hu⟩
    rw [step_closed hg.wf h, Bool.or_eq_true, decide_eq_true_iff]
    obtain hlt | ⟨_, _, _, -, hc⟩ := step_lt h hlt
    case inr =>
      rw [hc] at hserving
      cases hserving
    cases step_handler h j with
    | page hs₁ ht _ => exact .inl (hs j ⟨hlt, hs₁ ▸ hserving, ht ▸ hu⟩)
    | connect _ _ hc =>
      rw [hc] at hserving
      cases hserving
    | @run t rest hx hrun hs₁ _ htodo =>
      by_cases ht : t = .unregister
      · subst ht
        have hx' : s.unregisters x = some j := by
          rw [hx, unregisters, hrun]
          rfl
        exact .inr ⟨hx', hheld j hx'⟩
      · refine .inl (hs j ⟨hlt, hs₁ ▸ hserving, fun hmem => ?_⟩)
        rw [hrun] at hmem
        obtain heq | hmem := List.mem_cons.mp hmem
        · exact ht heq.symm
        · exact hu (htodo ▸ List.mem_append_right _ hmem)
    | @refuse _ last _ _ _ _ hs₁ _ htodo =>
      rw [hs₁] at hserving
      rw [htodo] at hu
      cases last with
      | true => simp [closingTasks] at hu
      | false => cases hserving
    | serve _ hidle _ hs₁ _ _ =>
      rw [hs₁, hidle.1] at hserving
      cases hserving
    | fail _ _ _ _ _ htodo =>
      rw [htodo] at hu
      simp [closingTasks] at hu

/-- **The queues of the clients**: nothing is sent to a closed one, none is closed twice, and, as
long as every client is unregistered while the hub has it, those of the connections that have ended
are closed. -/
theorem closed_once (hs : (machine cfg).Reach Held s) : (∀ x, s.KeepsClosed x) ∧ s.AllClosed ∧
    ∀ x s', s.step cfg x = some s' → (s'.AllClosed ↔ s.Held x) := by
  have hg := Guarded.of_reach hs
  have hall : s.AllClosed := by
    refine hs.invariant (fun s h0 => ?_) fun s x s' hs hall hheld h => ?_
    · cases h0
      exact fun j hj => absurd hj.1 (Nat.not_lt_zero j)
    · exact (allClosed_step (.of_reach hs) hall h).mpr hheld
  exact ⟨hg.keepsClosed, hall, fun _ _ => allClosed_step hg hall⟩

/-- Ann opens a session and its page. -/
def opened : List (Action ℕ) := [.create "ann" "s", .connect "ann" "s" "editor",
  .run 0, .run 0, .run 0, .run 0, .run 0, .run 0]

/-- Ann's page closes its connection. -/
theorem closed_once_ended : ∃ s : Ide ℕ, s.Ended 0 ∧ (∀ x, s.KeepsClosed x) ∧ s.AllClosed ∧
    ∀ x s', s.step ⟨false, 0, fun _ => false⟩ x = some s' → (s'.AllClosed ↔ s.Held x) := by
  obtain ⟨s, hs, hv⟩ := (machine (E := ℕ) ⟨false, 0, fun _ => false⟩).reach_of_run Held
    (f := fun s => (decide (0 < s.next), (s.conn 0).serving, (s.conn 0).todo.length))
    (v := (true, false, 0)) (opened ++ [.hangUp 0, .fail 0, .run 0, .run 0, .run 0]) rfl
    (by decide +kernel)
  simp only [Prod.mk.injEq, decide_eq_true_eq, List.length_eq_zero_iff] at hv
  obtain ⟨hlt, hserving, htodo⟩ := hv
  exact ⟨s, ⟨hlt, hserving, by rw [htodo]; exact List.not_mem_nil⟩, closed_once hs⟩

/-- Ann's page opens a second connection before the first one ends. -/
theorem displaced_stays_open : ¬ ∀ s : Ide ℕ,
    (machine ⟨false, 0, fun _ => false⟩).Reachable s → s.AllClosed := by
  intro h
  obtain ⟨s, hs, hv⟩ := (machine (E := ℕ) ⟨false, 0, fun _ => false⟩).reach_of_run
    (fun _ _ => True) (f := fun s => (decide (0 < s.next), (s.conn 0).serving,
      (s.conn 0).todo.length, (s.conn 0).client.closed))
    (v := (true, false, 0, false))
    (opened ++ [.hangUp 0, .connect "ann" "s" "editor", .run 1, .run 1, .fail 0, .run 0, .run 0,
      .run 0]) rfl (by decide +kernel)
  simp only [Prod.mk.injEq, decide_eq_true_eq, List.length_eq_zero_iff] at hv
  obtain ⟨hlt, hserving, htodo, hopen⟩ := hv
  have hclosed := h s hs 0 ⟨hlt, hserving, by rw [htodo]; exact List.not_mem_nil⟩
  rw [hopen] at hclosed
  cases hclosed

end Ide

end CollabIde
