import CollabIde.Ide.Delivery
import CollabIde.Ide.Document

/-!
# The starter program

A page that has no document 150 ms after its connection opened takes itself for the creator of its
session, and inserts the starter program. The machine is a cluster of editors (one node, without
Raft): a node applies its own commands, and the updates that a handler of any node has submitted.
The timer of a page also fires after its connection was closed (`late`).

The page asks whether a document frame has come (`receivedDoc`), so the program enters a session
once, and only if its document was empty when the servers started, as long as the frames are in time
(`starter_once`): when the timer of an editor's page fires in a session that has begun, the page has
been sent a document frame, and one has arrived. Nothing sees to that: the timers of two editors who
are there before the first update insert the program twice (`starter_twice`).
-/

namespace CollabIde

variable {n : ℕ} {E : Type}

/-- The edits of a session's document. -/
def Sessions.edits (ss : Sessions (Finset E)) (code : String) : Finset E := (ss.getDoc code).getD ∅

/-- The timer finds that no document came, that the page is an editor's, and no text. -/
def Tab.Starts (tab : Tab E) (emptyText : Finset E → Bool) : Prop :=
  tab.receivedDoc = false ∧ tab.role = "editor" ∧ emptyText tab.doc = true

instance (tab : Tab E) (emptyText : Finset E → Bool) : Decidable (tab.Starts emptyText) :=
  inferInstanceAs (Decidable (_ ∧ _))

/-- The message is a document frame. -/
def WSMessage.isDoc : WSMessage E → Bool
  | .binary _ => true
  | .text _ => false

def Task.isSendDoc : Task E → Bool
  | .sendDoc => true
  | _ => false

namespace Ide

variable (s : Ide E)

/-- The updates that a step submits. -/
def submits : Ide.Action E → List (CRDTUpdateCmd (Finset E))
  | .run k | .refuse k => match (s.conn k).todo with
    | .submit cmd _ :: _ => cmd.update.toList
    | _ => []
  | _ => []

/-- The updates that come through Raft. -/
def Action.replicated : Ide.Action E → List (CRDTUpdateCmd (Finset E))
  | .replicate cmd => cmd.update.toList
  | _ => []

/-- The handler of connection `j` comes to send the document. -/
def sendsDoc (x : Ide.Action E) (j : ℕ) : Bool :=
  match x with
  | .run k => k = j && (s.conn k).todo.head?.any Task.isSendDoc
  | _ => false

/-- The page of connection `j` is sent a document frame: its session has a document when its handler
comes to send it, or an update goes into its queue. -/
def tells (x : Ide.Action E) (j : ℕ) : Bool :=
  (s.sendsDoc x j && (s.sessions.getDoc (s.conn j).client.code).isSome) ||
    ((s.conn j).client.send.length < sendCap && (s.posted x j).any WSMessage.isDoc)

/-- A document frame arrives at the page of connection `j`. -/
def hears (x : Ide.Action E) (j : ℕ) : Bool :=
  match x with
  | .receive k => k = j && (s.conn j).socket.head?.any WSMessage.isDoc
  | _ => false

end Ide

/-- A page that inserted the starter program. -/
structure Starter (n : ℕ) where
  code : String
  node : Fin n
  conn : ℕ
  deriving DecidableEq

/-- The nodes, the updates that their handlers submitted, the pages that inserted the starter
program, and the pages that document frames were sent to and arrived at. -/
structure Nodes (n : ℕ) (E : Type) where
  node : Fin n → Ide E
  submitted : List (CRDTUpdateCmd (Finset E))
  starters : List (Starter n)
  sent : Fin n → ℕ → Bool
  arrived : Fin n → ℕ → Bool

namespace Nodes

inductive Action (n : ℕ) (E : Type) where
  | node (i : Fin n) (x : Ide.Action E)
  /-- The timer of a page whose connection is closed. -/
  | late (i : Fin n) (k : ℕ) (es : Finset E)

/-- The page whose timer fires. -/
def Action.timer : Action n E → Option (Fin n × ℕ)
  | .node i (.starter k _) | .late i k _ => some (i, k)
  | _ => none

variable (cfg : Config E) (s : Nodes n E)

/-- The page that inserts the starter program. -/
def inserts (x : Action n E) : List (Starter n) :=
  match x.timer with
  | some (i, k) =>
    let c := (s.node i).conn k
    if c.tab.Starts cfg.emptyText then [⟨c.client.code, i, k⟩] else []
  | none => []

/-- The servers start, with the sessions that a snapshot restores. -/
def initial (boot : Fin n → Sessions (Finset E)) : Nodes n E where
  node i := { Ide.initial with sessions := boot i }
  submitted := []
  starters := []
  sent _ _ := false
  arrived _ _ := false

def step [DecidableEq E] [Edit E] : Action n E → Option (Nodes n E)
  | .node i x =>
    if ∀ c ∈ x.replicated, c ∈ s.submitted then
      ((s.node i).step cfg x).map fun ide => {
        node := Function.update s.node i ide
        submitted := s.submitted ++ (s.node i).submits x
        starters := s.starters ++ s.inserts cfg (.node i x)
        sent := Function.update s.sent i fun k => s.sent i k || (s.node i).tells x k
        arrived := Function.update s.arrived i fun k => s.arrived i k || (s.node i).hears x k }
    else none
  | .late i k es =>
    let tab := ((s.node i).conn k).tab
    if k < (s.node i).next ∧ tab.connected = false ∧ tab.timer then
      let ide := (s.node i).setTab k ((tab.starter cfg.emptyText es).1, [])
      some { s with
        node := Function.update s.node i ide
        starters := s.starters ++ s.inserts cfg (.late i k es) }
    else none

/-- The nodes as a machine. -/
def machine [DecidableEq E] [Edit E] (boot : Fin n → Sessions (Finset E)) :
    Machine (Nodes n E) (Action n E) where
  init s := s = initial boot
  step s := s.step cfg

variable (boot : Fin n → Sessions (Finset E))

/-- The session had a document when the servers started, or a page has inserted the program. -/
def Begun (code : String) : Prop :=
  (∃ i, (boot i).edits code ≠ ∅) ∨ ∃ p ∈ s.starters, p.code = code

/-- The page has been sent a document frame, and the first one is not on its way any more. -/
def InTime (i : Fin n) (k : ℕ) : Prop :=
  s.sent i k = true ∧
    (((s.node i).conn k).pipeline.any WSMessage.isDoc = true → s.arrived i k = true)

/-- When a timer fires at an editor's page that has no text, in a session that has begun, a document
frame has been in time. -/
def Timely (x : Action n E) : Prop :=
  ∀ p ∈ x.timer, ((s.node p.1).conn p.2).tab.role = "editor" →
    cfg.emptyText ((s.node p.1).conn p.2).tab.doc = true →
    s.Begun boot ((s.node p.1).conn p.2).client.code → s.InTime p.1 p.2

/-- The starter program is in a session once, and only if its document was empty. -/
def StarterOnce : Prop :=
  ∀ code, (s.starters.filter (·.code = code)).length ≤ 1 ∧
    ((∃ p ∈ s.starters, p.code = code) → ∀ i, (boot i).edits code = ∅)

end Nodes

/-! ## The frames that a page is sent -/

namespace Tab

variable [DecidableEq E] [Edit E] (tab : Tab E)

theorem onMessage_receivedDoc (m : WSMessage E) :
    (tab.onMessage m).1.receivedDoc = (tab.receivedDoc || m.isDoc) := by
  cases m with
  | binary u => exact (Bool.or_true _).symm
  | text t =>
    rw [WSMessage.isDoc, Bool.or_false]
    unfold onMessage
    repeat' split
    all_goals first | rfl | contradiction

omit [Edit E] in
theorem starter_receivedDoc (emptyText : Finset E → Bool) (es : Finset E) :
    (tab.starter emptyText es).1.receivedDoc = tab.receivedDoc := by
  unfold starter
  split <;> rfl

end Tab

namespace Ide

variable {cfg : Config E} {s s' : Ide E} {x : Ide.Action E} {j k : ℕ} {sent arrived : ℕ → Bool}

/-- A page knows of the frames that have arrived, and those that it was sent arrive. -/
structure Heard (s : Ide E) (sent arrived : ℕ → Bool) : Prop where
  receivedDoc : ∀ j, (s.conn j).tab.receivedDoc = arrived j
  sent_eq : ∀ j, sent j = (arrived j || (s.conn j).pipeline.any WSMessage.isDoc)

/-- A handler writes a document frame when it comes to send the document. -/
theorem any_writes : (s.writes cfg x j).any WSMessage.isDoc =
    (s.sendsDoc x j && (s.sessions.getDoc (s.conn j).client.code).isSome) := by
  cases x with
  | run k =>
    by_cases hj : j = k
    · subst hj
      simp only [writes, sendsDoc, if_true, decide_true, Bool.true_and]
      cases (s.conn j).todo.head? with
      | none => rfl
      | some t =>
        cases t with
        | sendDoc =>
          simp only [Option.elim_some, Option.any_some, written, Task.isSendDoc, Bool.true_and]
          cases s.sessions.getDoc (s.conn j).client.code <;> rfl
        | _ => rfl
    · simp only [writes, sendsDoc, if_neg hj, decide_eq_false (Ne.symm hj), Bool.false_and]
      rfl
  | _ => rfl

theorem any_posted : (if (s.conn j).client.send.length < sendCap then (s.posted x j).toList
      else []).any WSMessage.isDoc =
    ((s.conn j).client.send.length < sendCap && (s.posted x j).any WSMessage.isDoc) := by
  by_cases hroom : (s.conn j).client.send.length < sendCap
  · cases hp : s.posted x j <;> simp [hroom]
  · simp [hroom]

variable [DecidableEq E] [Edit E]

omit [Edit E] in
theorem acts_receivedDoc : (s.acts cfg x j).receivedDoc = (s.conn j).tab.receivedDoc := by
  cases x with
  | edit k es =>
    simp only [acts]
    split <;> rfl
  | starter k es =>
    simp only [acts]
    split
    · exact Tab.starter_receivedDoc ..
    · rfl
  | hangUp k =>
    simp only [acts]
    split <;> rfl
  | _ => rfl

theorem Heard.step (h : s.Heard sent arrived) (hwf : s.WF) (hst : s.step cfg x = some s') :
    s'.Heard (fun j => sent j || s.tells x j) fun j => arrived j || s.hears x j := by
  have hpage (j : ℕ) : (s'.conn j).tab.receivedDoc = (arrived j || s.hears x j) ∧
      (sent j || s.tells x j) = (arrived j || s.hears x j ||
        (s'.conn j).pipeline.any WSMessage.isDoc) := by
    have hold := h.receivedDoc j
    have hsent := h.sent_eq j
    by_cases hx : x = .receive j
    · subst hx
      cases stepped hst with
      | @receive _ m rest hm hc =>
        rw [setTab_conn, if_pos rfl, setConn_conn_self]
        have hhears : s.hears (.receive j) j = m.isDoc := by
          simp only [hears, hm, List.head?_cons, Option.any_some, decide_true, Bool.true_and]
        have hpipe : (s.conn j).pipeline.any WSMessage.isDoc =
            (m.isDoc || (rest ++ (s.conn j).client.send).any WSMessage.isDoc) := by
          rw [Conn.pipeline, hm]
          rfl
        have htells : s.tells (.receive j) j = false := by
          simp only [tells, sendsDoc, posted, Option.any_none, Bool.and_false, Bool.false_and,
            Bool.or_false]
        rw [hhears, htells, hsent, hpipe, Tab.onMessage_receivedDoc, hold, Conn.pipeline]
        exact ⟨rfl, by ac_rfl⟩
    · have hhears : s.hears x j = false := by
        cases x with
        | receive k =>
          have hk : k ≠ j := fun hk => hx (hk ▸ rfl)
          simp only [hears, decide_eq_false hk, Bool.false_and]
        | _ => rfl
      rw [hhears, Bool.or_false]
      cases step_delivery hst j with
      | page htab hsocket hsend =>
        refine ⟨by rw [htab, acts_receivedDoc, hold], ?_⟩
        rw [Conn.pipeline, hsend, ← List.append_assoc, hsocket, hsent, tells, Conn.pipeline]
        simp only [List.any_append, any_writes, any_posted]
        ac_rfl
      | connect hx hj hc =>
        have hunused := hwf.unused j hj.ge
        have htells : s.tells x j = false := by
          simp only [hx, tells, sendsDoc, posted, Option.any_none, Bool.and_false, Bool.false_and,
            Bool.or_false]
        rw [hunused] at hold hsent
        rw [hc, hsent, htells, ← hold]
        exact ⟨rfl, rfl⟩
      | receive hx' _ _ _ _ => exact absurd hx' hx
  exact ⟨fun j => (hpage j).1, fun j => (hpage j).2⟩

omit [DecidableEq E] [Edit E] in
/-- The page of a closed connection changes. -/
theorem Heard.setTab (h : s.Heard sent arrived) {tab : Tab E}
    (htab : tab.receivedDoc = (s.conn k).tab.receivedDoc) :
    (s.setTab k (tab, [])).Heard sent arrived := by
  have hsame (j : ℕ) := setConn_same (s := s) (k := k)
    (c := { s.conn k with tab := tab, inbox := (s.conn k).inbox ++ [] })
    (fun c => (c.tab.receivedDoc, c.pipeline)) (by rw [htab]; rfl) j
  simp only [Prod.mk.injEq] at hsame
  refine ⟨fun j => (hsame j).1.trans (h.receivedDoc j), fun j => ?_⟩
  rw [h.sent_eq, Ide.setTab, (hsame j).2]

end Ide

/-! ## The pages that insert the program -/

namespace Nodes

variable {cfg : Config E} {boot : Fin n → Sessions (Finset E)} {s s' : Nodes n E} {i : Fin n}
  {x : Action n E}

/-- One more page inserts the program. -/
theorem StarterOnce.insert (h : s.StarterOnce boot) {p : Starter n}
    (hs : s'.starters = s.starters ++ [p]) : s'.StarterOnce boot ↔ ¬ s.Begun boot p.code := by
  have hmem {q : Starter n} : q ∈ s'.starters ↔ q ∈ s.starters ∨ q = p := by
    rw [hs, List.mem_append, List.mem_singleton]
  constructor
  · rintro h' (⟨i, hi⟩ | ⟨q, hq, hcode⟩)
    · exact hi ((h' p.code).2 ⟨p, hmem.mpr (.inr rfl), rfl⟩ i)
    · -- the program is in the session twice
      have hlen := (h' p.code).1
      have hp : [p].filter (·.code = p.code) = [p] := by simp
      rw [hs, List.filter_append, List.length_append, hp, List.length_singleton] at hlen
      have hq : q ∈ s.starters.filter (·.code = p.code) :=
        List.mem_filter.mpr ⟨hq, decide_eq_true hcode⟩
      have hpos := List.length_pos_of_mem hq
      omega
  · intro hnot code
    by_cases hc : p.code = code
    · have hnil : s.starters.filter (·.code = code) = [] :=
        List.filter_eq_nil_iff.mpr fun q hq hcode =>
          hnot (.inr ⟨q, hq, (of_decide_eq_true hcode).trans hc.symm⟩)
      refine ⟨?_, fun _ i => ?_⟩
      · rw [hs, List.filter_append, hnil, List.nil_append]
        exact List.length_filter_le _ _
      · by_contra hi
        exact hnot (.inl ⟨i, hc ▸ hi⟩)
    · refine ⟨?_, fun ⟨q, hq, hcode⟩ => (h code).2 ⟨q, ?_, hcode⟩⟩
      · rw [hs, List.filter_append, List.filter_cons_of_neg (by simpa using hc), List.filter_nil,
          List.append_nil]
        exact (h code).1
      · refine (hmem.mp hq).resolve_right ?_
        rintro rfl
        exact hc hcode

/-- What holds in every state of a run. -/
structure Sound (boot : Fin n → Sessions (Finset E)) (s : Nodes n E) : Prop where
  wf : ∀ i, (s.node i).WF
  heard : ∀ i, (s.node i).Heard (s.sent i) (s.arrived i)
  once : s.StarterOnce boot

theorem Sound.initial : Sound boot (initial boot : Nodes n E) where
  wf i := ⟨fun _ _ => rfl, nofun⟩
  heard i := ⟨fun _ => rfl, fun _ => rfl⟩
  once code := ⟨Nat.zero_le _, fun ⟨p, hp, _⟩ => (by cases hp)⟩

/-- A frame that is in time has arrived. -/
theorem Sound.inTime (h : Sound boot s) {k : ℕ} :
    s.InTime i k ↔ ((s.node i).conn k).tab.receivedDoc = true := by
  rw [InTime, (h.heard i).sent_eq, (h.heard i).receivedDoc, Bool.or_eq_true]
  exact ⟨fun ⟨hsent, harr⟩ => hsent.elim id harr, fun harr => ⟨.inl harr, fun _ => harr⟩⟩

/-- A step keeps the program in the session once exactly if the frames are in time. -/
theorem Sound.once_iff (h : Sound boot s) (hs : s'.starters = s.starters ++ s.inserts cfg x) :
    s'.StarterOnce boot ↔ s.Timely cfg boot x := by
  unfold inserts at hs
  unfold Timely
  cases hx : x.timer with
  | none =>
    simp only [hx, List.append_nil] at hs
    have hsame : s'.StarterOnce boot := by
      unfold StarterOnce
      rw [hs]
      exact h.once
    exact ⟨fun _ _ hp => (by cases hp), fun _ => hsame⟩
  | some p =>
    obtain ⟨i, k⟩ := p
    simp only [hx] at hs
    by_cases hstarts : ((s.node i).conn k).tab.Starts cfg.emptyText
    · obtain ⟨hreceived, hrole, htext⟩ := hstarts
      rw [if_pos ⟨hreceived, hrole, htext⟩] at hs
      rw [h.once.insert hs]
      constructor
      · rintro hnot p hp - - hbegun
        cases hp
        exact absurd hbegun hnot
      · intro ht hbegun
        have hin := h.inTime.mp (ht (i, k) rfl hrole htext hbegun)
        rw [hreceived] at hin
        cases hin
    · rw [if_neg hstarts, List.append_nil] at hs
      have hsame : s'.StarterOnce boot := by
        unfold StarterOnce
        rw [hs]
        exact h.once
      refine ⟨fun _ p hp hrole htext _ => ?_, fun _ => hsame⟩
      cases hp
      refine h.inTime.mpr (Bool.eq_true_of_not_eq_false fun hreceived => ?_)
      exact hstarts ⟨hreceived, hrole, htext⟩

variable [DecidableEq E] [Edit E]

theorem step_starters (hst : s.step cfg x = some s') :
    s'.starters = s.starters ++ s.inserts cfg x := by
  cases x with
  | node i x =>
    simp only [step] at hst
    split at hst
    · obtain ⟨ide, -, rfl⟩ := Option.map_eq_some_iff.mp hst
      rfl
    · cases hst
  | late i k es =>
    simp only [step] at hst
    split at hst
    · cases hst
      rfl
    · cases hst

theorem Sound.step (h : Sound boot s) (hst : s.step cfg x = some s')
    (hx : s.Timely cfg boot x) : Sound boot s' := by
  have honce := (h.once_iff (step_starters hst)).mpr hx
  have hnode {i : Fin n} {ide : Ide E} (hi : ide.WF) :
      ∀ j, (Function.update s.node i ide j).WF :=
    (Function.forall_update_iff s.node fun _ => Ide.WF).mpr ⟨hi, fun j _ => h.wf j⟩
  cases x with
  | node i x =>
    simp only [Nodes.step] at hst
    split at hst
    · obtain ⟨ide, hide, rfl⟩ := Option.map_eq_some_iff.mp hst
      refine ⟨hnode ((h.wf i).step hide), fun j => ?_, honce⟩
      by_cases hj : j = i
      · simp only [hj, Function.update_self]
        exact (h.heard i).step (h.wf i) hide
      · simp only [Function.update_of_ne hj]
        exact h.heard j
    · cases hst
  | late i k es =>
    simp only [Nodes.step] at hst
    split at hst
    · rename_i hk
      cases hst
      refine ⟨hnode ((h.wf i).setConn hk.1 rfl), ?_, honce⟩
      have hheard := (h.heard i).setTab (k := k)
        (((s.node i).conn k).tab.starter_receivedDoc cfg.emptyText es)
      exact (Function.forall_update_iff s.node fun j ide => ide.Heard (s.sent j) (s.arrived j)).mpr
        ⟨hheard, fun j _ => h.heard j⟩
    · cases hst

/-- **The starter program enters a session once**, and only if its document was empty, exactly as
long as the document frames are in time. -/
theorem starter_once (hs : (machine cfg boot).Reach (Timely cfg · boot) s) : s.StarterOnce boot ∧
    ∀ x s', s.step cfg x = some s' → (s'.StarterOnce boot ↔ s.Timely cfg boot x) := by
  have h : Sound boot s := hs.invariant (I := Sound boot) (fun s h => by cases h; exact .initial)
    fun _ _ _ _ h hx hst => h.step hst hx
  exact ⟨h.once, fun x s' hst => h.once_iff (step_starters hst)⟩

/-! ## Two editors -/

/-- A node of its own, whose sessions begin with the run. -/
def fresh : Fin 1 → Sessions (Finset ℕ) := fun _ _ => none

instance (code : String) : Decidable (s.Begun boot code) :=
  inferInstanceAs (Decidable (_ ∨ _))

instance (k : ℕ) : Decidable (s.InTime i k) := inferInstanceAs (Decidable (_ ∧ (_ → _)))

instance : Decidable (s.Timely cfg boot x) :=
  inferInstanceAs (Decidable (∀ p ∈ x.timer, _ → _ → _ → s.InTime p.1 p.2))

/-- Ann's page inserts the program; Bob's page has got it when its timer fires. -/
theorem starter_once_late : ∃ s : Nodes 1 ℕ,
    s.starters = [⟨"abc", 0, 0⟩] ∧ s.StarterOnce fresh := by
  obtain ⟨s, hs, hv⟩ := (machine Ide.single fresh).reach_of_run
    (Timely Ide.single · fresh) (f := Nodes.starters) (v := [⟨"abc", 0, 0⟩])
    ((Ide.twoEditors ++ [Ide.Action.starter 1 {1}]).map (.node 0)) rfl rfl
  exact ⟨s, hv, (starter_once hs).1⟩

/-- Ann creates a session and makes Bob an editor, who opens it; then both timers fire. -/
def bothOpen : List (Ide.Action ℕ) :=
  .create "ann" "abc" :: Ide.opens 0 "ann" "editor" ++
    [.send 0 (.text (some { type := "role_change", userID := "bob", role := "editor" })
      (some (.roleChange "bob" "editor"))), .serve 0] ++
    List.replicate 5 (.run 0) ++ .join "bob" "abc" :: Ide.opens 1 "bob" "editor" ++
    [.starter 0 {0}, .starter 1 {1}]

/-- Neither page has a document when its timer fires. -/
theorem starter_twice : ¬ ∀ s : Nodes 1 ℕ,
    (machine Ide.single fresh).Reachable s → s.StarterOnce fresh := by
  intro h
  obtain ⟨s, hs, hv⟩ := (machine Ide.single fresh).reach_of_run (fun _ _ => True)
    (f := Nodes.starters) (v := [⟨"abc", 0, 0⟩, ⟨"abc", 0, 1⟩]) (bothOpen.map (.node 0)) rfl rfl
  have hone := (h s hs "abc").1
  rw [hv] at hone
  exact absurd hone (by decide)

end Nodes

end CollabIde
