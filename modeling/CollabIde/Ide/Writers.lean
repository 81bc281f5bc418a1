import CollabIde.Ide.Delivery

/-!
# The writers of a connection

A handler writes to its connection itself: the document before it starts `writePump`
(`redirects_only`), and a redirect for every `submit` that fails. `Writers` records which goroutines
are inside `WriteMessage`. A connection has one writer at any time as long as a handler writes only
while `writePump` has nothing to write, and gets nothing to write meanwhile (`one_writer`);
otherwise `writePump` alone comes to write next to the handler.
-/

namespace CollabIde

variable {E : Type}

namespace Ide

section Pump

variable (s : Ide E) (x : Action E)

/-- The connection whose `writePump` a step starts. -/
def starts : Option ℕ :=
  match x with
  | .run k => (s.conn k).todo.head?.bind fun
    | .startPump => some k
    | _ => none
  | _ => none

/-- `writePump` of connection `k` writes. -/
def Action.pumps (x : Action E) (k : ℕ) : Bool :=
  match x with
  | .pump i => k = i
  | _ => false

end Pump

variable {cfg : Config E} {s s' : Ide E} {x : Action E} {j k : ℕ}

theorem starts_eq (h : s.starts x = some k) :
    x = .run k ∧ ∃ rest, (s.conn k).todo = .startPump :: rest := by
  cases x with
  | run i =>
    obtain ⟨t, ht, hk⟩ := Option.bind_eq_some_iff.mp h
    obtain ⟨rest, hrest⟩ := List.head?_eq_some_iff.mp ht
    cases t with
    | startPump =>
      cases hk
      exact ⟨rfl, rest, hrest⟩
    | _ => cases hk
  | _ => cases h

/-- A handler that writes itself does nothing else in this step. -/
theorem writes_eq (h : s.writes cfg x k ≠ []) : x = .run k ∧ s.starts x = none ∧
    s.posted x k = none ∧ ∃ t rest, (s.conn k).todo = t :: rest ∧ (t = .sendDoc ∨ t = .redirect) := by
  cases x with
  | run i =>
    simp only [writes] at h
    split at h
    case isFalse => exact absurd rfl h
    rename_i hk
    subst hk
    cases ht : (s.conn k).todo with
    | nil =>
      rw [ht] at h
      exact absurd rfl h
    | cons t rest =>
      rw [ht] at h
      cases t with
      | sendDoc =>
        refine ⟨rfl, ?_, ?_, _, _, rfl, .inl rfl⟩
        · rw [starts, ht]
          rfl
        · rw [posted, ht]
          rfl
      | redirect =>
        refine ⟨rfl, ?_, ?_, _, _, rfl, .inr rfl⟩
        · rw [starts, ht]
          rfl
        · rw [posted, ht]
          rfl
      | _ => exact absurd rfl h
  | _ => exact absurd rfl h

theorem perform_pumping {t : Task E} (ht : t ≠ .startPump) (j : ℕ) :
    ((s.perform cfg k t).conn j).pumping = (s.conn j).pumping := by
  have hset {c : Conn E} {i : ℕ} (hc : c.pumping = (s.conn i).pumping) :
      ((s.setConn i c).conn j).pumping = (s.conn j).pumping :=
    setConn_same Conn.pumping hc j
  cases t with
  | startPump => exact absurd rfl ht
  | register => rfl
  | submit cmd last => rfl
  | sendDoc =>
    simp only [perform]
    split
    · exact hset rfl
    · rfl
  | updateClientRole userID role =>
    simp only [perform, updateClientRole]
    split
    · exact hset rfl
    · rfl
  | unregister =>
    simp only [perform, unregister]
    split
    · exact hset rfl
    · rfl
  | broadcast m => exact post_same Conn.pumping (fun _ _ => rfl) j
  | broadcastAll m => exact post_same Conn.pumping (fun _ _ => rfl) j
  | getRole => exact hset rfl
  | listParticipants => exact hset rfl
  | redirect => exact hset rfl

variable [DecidableEq E] [Edit E]

/-- `writePump` is started once and not stopped. -/
theorem step_pumping (hwf : s.WF) (h : s.step cfg x = some s') (j : ℕ) :
    (s'.conn j).pumping = ((s.conn j).pumping || decide (s.starts x = some j)) := by
  have hsame {c : Conn E} (hc : c.pumping = (s.conn j).pumping) (hx : s.starts x ≠ some j) :
      c.pumping = ((s.conn j).pumping || decide (s.starts x = some j)) := by
    rw [decide_eq_false hx, Bool.or_false, hc]
  have hother {c : Conn E} (hc : c.pumping = (s.conn j).pumping) (hx : s.starts x = none) :=
    hsame hc fun h => absurd (hx.symm.trans h).symm (Option.some_ne_none j)
  have hset {k : ℕ} {c : Conn E} (hc : c.pumping = (s.conn k).pumping) :
      ((s.setConn k c).conn j).pumping = (s.conn j).pumping :=
    setConn_same Conn.pumping hc j
  have htab {k : ℕ} (r : Tab E × List (Frame E)) :
      ((s.setTab k r).conn j).pumping = (s.conn j).pumping :=
    setConn_same Conn.pumping (by rfl) j
  cases stepped h with
  | @run k t rest ht =>
    by_cases hstart : t = .startPump
    · subst hstart
      have hx : s.starts (.run k) = some k := by
        rw [starts, ht]
        rfl
      simp only [perform]
      by_cases hj : j = k
      · rw [hj, setConn_conn_self, hx, decide_eq_true rfl, Bool.or_true]
      · rw [setConn_conn_ne hj]
        refine hsame (hset rfl) ?_
        rw [hx]
        exact fun h => hj (Option.some.inj h).symm
    · refine hsame ((perform_pumping hstart j).trans (hset rfl)) fun hx => ?_
      obtain ⟨hrun, _, htodo⟩ := starts_eq hx
      cases hrun
      rw [ht] at htodo
      exact hstart (List.cons.inj htodo).1
  | @connect userID code role _ =>
    refine hother (hset (k := s.next) ?_) rfl
    rw [hwf.unused _ le_rfl]
    rfl
  | @serve k f rest _ _ =>
    have hc := handleFrame_same (s.setConn k { s.conn k with inbox := rest }) k Conn.pumping f j
      fun _ _ _ => rfl
    exact hother (hc.trans (hset rfl)) rfl
  | create _ => exact hother rfl rfl
  | join => exact hother rfl rfl
  | replicate _ => exact hother rfl rfl
  | refuse _ _ => exact hother (hset rfl) rfl
  | fail _ _ => exact hother (hset rfl) rfl
  | pump _ _ => exact hother (hset rfl) rfl
  | @receive k m rest _ _ =>
    refine hother ?_ rfl
    refine (setConn_same Conn.pumping (by rfl) j).trans (hset rfl)
  | edit _ _ => exact hother (htab _) rfl
  | starter _ => exact hother (htab _) rfl
  | send _ => exact hother (htab _) rfl
  | hangUp _ => exact hother (htab _) rfl

theorem pumps_step (h : s.step cfg x = some s') (hx : x.pumps k = true) :
    (s.conn k).pumping = true ∧ (s.conn k).client.send ≠ [] := by
  cases x with
  | pump i =>
    obtain rfl : k = i := of_decide_eq_true hx
    cases stepped h with
    | pump hm hp => exact ⟨hp, hm ▸ List.cons_ne_nil _ _⟩
  | _ => cases hx

/-- The document is written before `writePump` is started. -/
def Primed (c : Conn E) : Prop :=
  .sendDoc ∈ c.todo → c.pumping = false ∧ ∃ n, c.todo = openingTasks.drop n

omit [DecidableEq E] [Edit E] in
theorem drop_openingTasks {n : ℕ} {t : Task E} {rest : List (Task E)}
    (h : openingTasks.drop n = t :: rest) (hd : .sendDoc ∈ rest) : t = .getRole ∨ t = .register := by
  match n with
  | 0 | 1 =>
    obtain ⟨rfl, -⟩ := List.cons.inj h
    simp
  | 2 | 3 | 4 =>
    obtain ⟨-, rfl⟩ := List.cons.inj h
    simp at hd
  | n + 5 => simp [openingTasks] at h

theorem primed_step (hwf : s.WF) (hp : Primed (s.conn j)) (h : s.step cfg x = some s') :
    Primed (s'.conn j) := by
  have hpumping := step_pumping hwf h j
  have hkeep (hd : .sendDoc ∈ (s.conn j).todo) (hx : s.starts x ≠ some j) :
      (s'.conn j).pumping = false := by
    rw [hpumping, (hp hd).1, decide_eq_false hx]
    rfl
  have hstart (hd : .sendDoc ∈ (s.conn j).todo) : s.starts x ≠ some j := by
    intro hx
    obtain ⟨-, rest, htodo⟩ := starts_eq hx
    obtain ⟨-, n, hn⟩ := hp hd
    rw [htodo] at hd
    obtain ht | ht := drop_openingTasks (hn.symm.trans htodo)
      ((List.mem_cons.mp hd).resolve_left (by simp)) <;> cases ht
  intro hd
  cases step_handler h j with
  | page _ htodo _ =>
    rw [htodo] at hd ⊢
    exact ⟨hkeep hd (hstart hd), (hp hd).2⟩
  | connect _ _ hc =>
    rw [hc]
    exact ⟨rfl, 0, rfl⟩
  | @run t rest _ hrun _ _ htodo =>
    have hrest : .sendDoc ∈ rest := by
      rw [htodo] at hd
      refine (List.mem_append.mp hd).resolve_left fun hfollow => ?_
      cases t <;> simp [follow] at hfollow
    have hmem : .sendDoc ∈ (s.conn j).todo := hrun ▸ List.mem_cons_of_mem _ hrest
    refine ⟨hkeep hmem (hstart hmem), ?_⟩
    obtain ⟨-, n, hn⟩ := hp hmem
    rw [hrun] at hn
    refine ⟨n + 1, ?_⟩
    rw [htodo, ← List.tail_drop, ← hn]
    obtain rfl | rfl := drop_openingTasks hn.symm hrest <;> rfl
  | @refuse _ last _ _ _ _ _ _ htodo =>
    rw [htodo] at hd
    cases last <;> simp [closingTasks] at hd
  | serve _ _ _ _ _ htodo =>
    rw [htodo] at hd
    exact absurd rfl (Client.frameTasks_loop hd).2.1
  | fail _ _ _ _ _ htodo =>
    rw [htodo] at hd
    simp [closingTasks] at hd

end Ide

/-- The server, and which goroutines are inside `WriteMessage`. -/
structure Writers (E : Type) where
  ide : Ide E
  handler : ℕ → Bool
  pump : ℕ → Bool

namespace Writers

inductive Action (E : Type) where
  | ide (x : Ide.Action E)
  /-- `WriteMessage` returns to the handler. -/
  | written (k : ℕ)
  /-- `WriteMessage` returns to `writePump`. -/
  | pumped (k : ℕ)

/-- The server has started. -/
def initial : Writers E := ⟨Ide.initial, fun _ => false, fun _ => false⟩

section Step

variable (s : Writers E)

/-- The step is one of a goroutine that is inside `WriteMessage`. -/
def Blocked : Ide.Action E → Prop
  | .run k | .refuse k | .serve k | .fail k => s.handler k = true
  | .pump k => s.pump k = true
  | _ => False

instance : (x : Ide.Action E) → Decidable (s.Blocked x)
  | .run _ | .refuse _ | .serve _ | .fail _ | .pump _ => inferInstanceAs (Decidable (_ = _))
  | .create _ _ | .join _ _ | .connect _ _ _ | .replicate _ | .receive _ | .edit _ _
  | .starter _ _ | .send _ _ | .hangUp _ => .isFalse id

variable [DecidableEq E] [Edit E] (cfg : Config E)

def step : Action E → Option (Writers E)
  | .ide x =>
    if s.Blocked x then none
    else (s.ide.step cfg x).map fun ide => {
      ide := ide
      handler := fun k => s.handler k || !(s.ide.writes cfg x k).isEmpty
      pump := fun k => s.pump k || x.pumps k }
  | .written k =>
    if s.handler k then some { s with handler := Function.update s.handler k false } else none
  | .pumped k => if s.pump k then some { s with pump := Function.update s.pump k false } else none

/-- The server with its writers as a machine. -/
def machine : Machine (Writers E) (Action E) where
  init s := s = initial
  step s := s.step cfg

omit [DecidableEq E] [Edit E]

/-- Not both goroutines of a connection are inside `WriteMessage`. -/
def OneWriter : Prop := ∀ k, ¬ (s.handler k = true ∧ s.pump k = true)

/-- `writePump` of connection `k` has nothing to write, if it has been started. -/
def Rests (k : ℕ) : Prop :=
  (s.ide.conn k).pumping = true → s.pump k = false ∧ (s.ide.conn k).client.send = []

instance (k : ℕ) : Decidable (s.Rests k) := inferInstanceAs (Decidable (_ → _))

/-- A handler writes while `writePump` rests, and `writePump` gets nothing to write meanwhile. -/
def Calm : Action E → Prop
  | .ide x => ∀ k < s.ide.next, ((s.ide.writes cfg x k).isEmpty = false → s.Rests k) ∧
      (s.handler k = true → (s.ide.conn k).pumping = true → (s.ide.posted x k).isNone = true)
  | _ => True

instance : (x : Action E) → Decidable (s.Calm cfg x)
  | .ide _ => inferInstanceAs (Decidable (∀ k < _, _))
  | .written _ | .pumped _ => .isTrue trivial

/-- What holds as long as handlers write next to a resting `writePump` only. -/
structure Clear : Prop where
  wf : s.ide.WF
  pumping : ∀ k, s.pump k = true → (s.ide.conn k).pumping = true
  rests : ∀ k, s.handler k = true → s.Rests k

end Step

variable [DecidableEq E] [Edit E] {cfg : Config E} {s s' : Writers E}

theorem stepped {x : Ide.Action E} (h : s.step cfg (.ide x) = some s') : ¬ s.Blocked x ∧
    s.ide.step cfg x = some s'.ide ∧
    (∀ k, s'.handler k = (s.handler k || !(s.ide.writes cfg x k).isEmpty)) ∧
    ∀ k, s'.pump k = (s.pump k || x.pumps k) := by
  simp only [step] at h
  split at h
  · cases h
  · rename_i hblocked
    obtain ⟨ide, hide, rfl⟩ := Option.map_eq_some_iff.mp h
    exact ⟨hblocked, hide, fun _ => rfl, fun _ => rfl⟩

omit [DecidableEq E] [Edit E] in
theorem Clear.oneWriter (h : s.Clear) : s.OneWriter := by
  rintro k ⟨hhandler, hpump⟩
  have hidle := (h.rests k hhandler (h.pumping k hpump)).1
  rw [hpump] at hidle
  cases hidle

/-- A goroutine that comes to write, and one that is at it. -/
theorem handler_of_step {x : Ide.Action E} {k : ℕ} (h : s.step cfg (.ide x) = some s')
    (hhandler : s'.handler k = true) : s.handler k = true ∨ s.ide.writes cfg x k ≠ [] := by
  obtain ⟨-, -, hh, -⟩ := stepped h
  rw [hh, Bool.or_eq_true, Bool.not_eq_true'] at hhandler
  refine hhandler.imp_right fun he hnil => ?_
  rw [hnil] at he
  cases he

/-- While a handler writes, its connection keeps its `writePump`. -/
theorem pumping_of_step {x : Ide.Action E} {k : ℕ} (hwf : s.ide.WF)
    (h : s.step cfg (.ide x) = some s') (hhandler : s'.handler k = true) :
    (s'.ide.conn k).pumping = (s.ide.conn k).pumping := by
  obtain ⟨hblocked, hide, -⟩ := stepped h
  rw [Ide.step_pumping hwf hide, decide_eq_false, Bool.or_false]
  intro hx
  obtain hold | hwrites := handler_of_step h hhandler
  · refine hblocked ?_
    rw [(Ide.starts_eq hx).1]
    exact hold
  · rw [(Ide.writes_eq hwrites).2.1] at hx
    cases hx

theorem Clear.step {x : Action E} (hc : s.Clear) (hcalm : s.Calm cfg x)
    (h : s.step cfg x = some s') : s'.Clear := by
  cases x with
  | written k =>
    simp only [Writers.step] at h
    split at h <;> cases h
    refine ⟨hc.wf, hc.pumping, fun j hj => hc.rests j ?_⟩
    dsimp only at hj
    by_cases hk : j = k
    · rw [hk, Function.update_self] at hj
      cases hj
    · rwa [Function.update_of_ne hk] at hj
  | pumped k =>
    simp only [Writers.step] at h
    split at h <;> cases h
    have hpump {j : ℕ} (hj : Function.update s.pump k false j = true) : s.pump j = true := by
      by_cases hk : j = k
      · rw [hk, Function.update_self] at hj
        cases hj
      · rwa [Function.update_of_ne hk] at hj
    refine ⟨hc.wf, fun j hj => hc.pumping j (hpump hj), fun j hj hpumping => ?_⟩
    obtain ⟨hrest, hsend⟩ := hc.rests j hj hpumping
    refine ⟨?_, hsend⟩
    by_contra hj'
    rw [hpump (Bool.not_eq_false _ ▸ hj')] at hrest
    cases hrest
  | ide x =>
    obtain ⟨hblocked, hide, hhandler, hpump⟩ := stepped h
    refine ⟨hc.wf.step hide, fun k hk => ?_, fun k hk hpumping => ?_⟩
    · rw [hpump, Bool.or_eq_true] at hk
      rw [Ide.step_pumping hc.wf hide]
      obtain hk | hk := hk
      · rw [hc.pumping k hk, Bool.true_or]
      · rw [(Ide.pumps_step hide hk).1, Bool.true_or]
    · rw [pumping_of_step hc.wf h hk] at hpumping
      have hlt : k < s.ide.next :=
        hc.wf.lt_of_ne fun hu => by rw [hu] at hpumping; cases hpumping
      obtain ⟨hfirst, hmeanwhile⟩ := hcalm k hlt
      -- `writePump` rests, does not begin, and its queue stays empty
      have hrests : s.Rests k ∧ s.ide.posted x k = none := by
        obtain hold | hwrites := handler_of_step h hk
        · exact ⟨hc.rests k hold, Option.isNone_iff_eq_none.mp (hmeanwhile hold hpumping)⟩
        · exact ⟨hfirst (by simpa using hwrites), (Ide.writes_eq hwrites).2.2.1⟩
      obtain ⟨hidle, hsend⟩ := hrests.1 hpumping
      constructor
      · rw [hpump, hidle, Bool.false_or, ← Bool.not_eq_true]
        exact fun hx => (Ide.pumps_step hide hx).2 hsend
      · rw [Ide.step_send hide hlt, hrests.2, Option.toList_none, ite_self, List.append_nil]
        unfold Ide.kept
        rw [hsend]
        split
        · exact ite_self _
        · rfl

/-- A `writePump` with something to write comes to write next to the handler. -/
theorem two_writers {k : ℕ} (hhandler : s.handler k = true)
    (hpumping : (s.ide.conn k).pumping = true) (hsend : (s.ide.conn k).client.send ≠ []) :
    ∃ s', (s' = s ∨ s.step cfg (.ide (.pump k)) = some s') ∧ ¬ s'.OneWriter := by
  by_cases hpump : s.pump k = true
  · exact ⟨s, .inl rfl, fun hone => hone k ⟨hhandler, hpump⟩⟩
  · obtain ⟨m, rest, hm⟩ := List.exists_cons_of_ne_nil hsend
    have hide : s.ide.step cfg (.pump k) = some (s.ide.setConn k { s.ide.conn k with
        client := { (s.ide.conn k).client with send := rest }
        socket := (s.ide.conn k).socket ++ [m] }) := by
      simp only [Ide.step, Ide.pump, hm, hpumping, if_true]
    obtain ⟨s', hstep⟩ : ∃ s', s.step cfg (.ide (.pump k)) = some s' := by
      have hfree : ¬ s.Blocked (.pump k) := hpump
      simp only [step]
      rw [if_neg hfree, hide]
      exact ⟨_, rfl⟩
    refine ⟨s', .inr hstep, fun hone => hone k ?_⟩
    obtain ⟨-, -, hh, hp⟩ := stepped hstep
    rw [hh, hp, hhandler, Bool.true_or, Bool.or_eq_true]
    exact ⟨rfl, .inr (decide_eq_true rfl)⟩

/-- A step at another time lets `writePump` write next to the handler. -/
theorem two_writers_of_not_calm {x : Action E} (hc : s.Clear) (hcalm : ¬ s.Calm cfg x)
    (h : s.step cfg x = some s') : ∃ k s'',
      (s'' = s' ∨ s'.step cfg (.ide (.pump k)) = some s'') ∧ ¬ s''.OneWriter := by
  cases x with
  | written k => exact absurd trivial hcalm
  | pumped k => exact absurd trivial hcalm
  | ide x =>
    obtain ⟨hblocked, hide, hhandler, hpump⟩ := stepped h
    simp only [Calm, not_forall] at hcalm
    obtain ⟨k, hlt, hk⟩ := hcalm
    refine ⟨k, ?_⟩
    have hkept {i : ℕ} (hx : x.pumps i = false) : s.ide.kept x i = (s.ide.conn i).client.send := by
      cases x with
      | pump i' => exact if_neg (of_decide_eq_false hx)
      | _ => rfl
    by_cases hwrites : s.ide.writes cfg x k = []
    · -- a message is queued while the handler writes
      have hposted : s.handler k = true ∧ (s.ide.conn k).pumping = true ∧
          s.ide.posted x k ≠ none := by
        by_contra hno
        refine hk ⟨fun he => ?_, fun h1 h2 => ?_⟩
        · rw [hwrites] at he
          cases he
        · by_contra h3
          exact hno ⟨h1, h2, fun h4 => h3 (by rw [h4]; rfl)⟩
      obtain ⟨hold, hpumping, hne⟩ := hposted
      have hk' : s'.handler k = true := by
        rw [hhandler, hold, Bool.true_or]
      refine two_writers hk' ((pumping_of_step hc.wf h hk').trans hpumping) ?_
      obtain ⟨-, hsend⟩ := hc.rests k hold hpumping
      obtain ⟨m, hm⟩ := Option.ne_none_iff_exists'.mp hne
      rw [Ide.step_send hide hlt, hsend, hm]
      exact List.append_ne_nil_of_right_ne_nil _ (List.cons_ne_nil _ _)
    · -- the handler begins to write while `writePump` does not rest
      obtain ⟨rfl, -, hposted, -⟩ := Ide.writes_eq hwrites
      have hrests : ¬ s.Rests k := fun hrests =>
        hk ⟨fun _ => hrests, fun hold => absurd hold hblocked⟩
      obtain ⟨hpumping, hbusy⟩ := Classical.not_imp.mp hrests
      have hk' : s'.handler k = true := by
        rw [hhandler, Bool.or_eq_true, Bool.not_eq_true', List.isEmpty_eq_false_iff]
        exact .inr hwrites
      by_cases hp : s.pump k = true
      · refine ⟨s', .inl rfl, fun hone => hone k ⟨hk', ?_⟩⟩
        rw [hpump, hp, Bool.true_or]
      · refine two_writers hk' ((pumping_of_step hc.wf h hk').trans hpumping) fun hsend' => ?_
        rw [Ide.step_send hide hlt] at hsend'
        exact hbusy ⟨Bool.not_eq_true _ ▸ hp, (List.append_eq_nil_iff.mp hsend').1⟩

/-- A handler writes next to `writePump` to redirect its client only. -/
theorem redirects_only {ok : Writers E → Action E → Prop} (hs : (machine cfg).Reach ok s)
    {x : Ide.Action E} {k : ℕ} (hwrites : s.ide.writes cfg x k ≠ [])
    (hpumping : (s.ide.conn k).pumping = true) :
    ∃ rest, (s.ide.conn k).todo = .redirect :: rest := by
  have hprimed : s.ide.WF ∧ ∀ j, Ide.Primed (s.ide.conn j) := by
    refine hs.invariant (I := fun s => s.ide.WF ∧ ∀ j, Ide.Primed (s.ide.conn j)) (fun s h0 => ?_)
      fun s x s' _ hi _ h => ?_
    · cases h0
      exact ⟨⟨fun _ _ => rfl, nofun⟩, fun _ => nofun⟩
    · cases x with
      | ide x =>
        have hide := (stepped h).2.1
        exact ⟨hi.1.step hide, fun j => Ide.primed_step hi.1 (hi.2 j) hide⟩
      | written k =>
        simp only [machine, Writers.step] at h
        split at h <;> cases h
        exact hi
      | pumped k =>
        simp only [machine, Writers.step] at h
        split at h <;> cases h
        exact hi
  obtain ⟨-, -, -, t, rest, htodo, rfl | rfl⟩ := Ide.writes_eq hwrites
  · rw [(hprimed.2 k (htodo ▸ List.mem_cons_self ..)).1] at hpumping
    cases hpumping
  · exact ⟨rest, htodo⟩

/-- **One writer per connection**, as long as a handler writes only while `writePump` has nothing to
write, and gets nothing to write meanwhile. After any other step, `writePump` alone comes to write
next to the handler. -/
theorem one_writer (hs : (machine cfg).Reach (fun s => s.Calm cfg) s) : s.OneWriter ∧
    ∀ x s', s.step cfg x = some s' → ¬ s.Calm cfg x → ∃ k s'',
      (s'' = s' ∨ s'.step cfg (.ide (.pump k)) = some s'') ∧ ¬ s''.OneWriter := by
  have hc : s.Clear := by
    refine hs.invariant (fun s h0 => ?_) fun _ _ _ _ hc hcalm h => hc.step hcalm h
    cases h0
    exact ⟨⟨fun _ _ => rfl, nofun⟩, nofun, nofun⟩
  exact ⟨hc.oneWriter, fun x s' h hcalm => two_writers_of_not_calm hc hcalm h⟩

/-- Ann opens a session and its page; the participants are queued for her. -/
def opened : List (Action ℕ) := [.ide (.create "ann" "s"), .ide (.connect "ann" "s" "editor"),
  .ide (.run 0), .ide (.run 0), .ide (.run 0), .ide (.run 0), .ide (.run 0), .ide (.run 0)]

/-- The submit of an update fails. -/
def refused : List (Action ℕ) := [.ide (.send 0 (.binary {1})), .ide (.serve 0),
  .ide (.refuse 0), .ide (.run 0)]

/-- The participants are written before the redirect is. -/
theorem one_writer_redirect : ∃ s : Writers ℕ, s.handler 0 = true ∧ s.OneWriter ∧
    ∀ x s', s.step ⟨true, 0, fun _ => false⟩ x = some s' → ¬ s.Calm ⟨true, 0, fun _ => false⟩ x →
      ∃ k s'', (s'' = s' ∨ s'.step ⟨true, 0, fun _ => false⟩ (.ide (.pump k)) = some s'') ∧
        ¬ s''.OneWriter := by
  obtain ⟨s, hs, hv⟩ := (machine (E := ℕ) ⟨true, 0, fun _ => false⟩).reach_of_run
    (fun s => s.Calm ⟨true, 0, fun _ => false⟩) (f := fun s => s.handler 0) (v := true)
    (opened ++ [.ide (.pump 0), .pumped 0] ++ refused) rfl (by decide +kernel)
  exact ⟨s, hv, one_writer hs⟩

/-- `writePump` is still writing the participants. -/
theorem redirect_meets_pump : ¬ ∀ s : Writers ℕ,
    (machine ⟨true, 0, fun _ => false⟩).Reachable s → s.OneWriter := by
  intro h
  obtain ⟨s, hs, hv⟩ := (machine (E := ℕ) ⟨true, 0, fun _ => false⟩).reach_of_run
    (fun _ _ => True) (f := fun s => (s.handler 0, s.pump 0)) (v := (true, true))
    (opened ++ [.ide (.pump 0)] ++ refused) rfl (by decide +kernel)
  exact h s hs 0 (Prod.mk.inj hv)

end Writers

end CollabIde
