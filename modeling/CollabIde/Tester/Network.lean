import CollabIde.Lib.Run
import Mathlib.Data.List.Infix

/-!
# The network of the tests

`labrpc.Network` hands the calls of an end to the server that it is connected to, loses some of
them, and does not answer for a server that has been deleted. A test restarts a server with what
its persister held: it deletes the server, stops the daemon from sending, copies the persister, and
kills the daemon. So a server that comes back remembers all that it had saved when it sent a call or
a reply that has got through (`nothing_forgotten`), whatever it was doing when it was shut down.
-/

namespace CollabIde

namespace Network

/-- `replyMsg`. -/
structure Reply (B : Type) where
  ok : Bool
  reply : Option B

/-- No reply. -/
def Reply.none {B : Type} : Reply B := ⟨false, .none⟩

/-- What `processReq` has read at its begin. -/
structure Link (N : Type) where
  servername : N
  server : ℕ
  reliable : Bool
  longReordering : Bool

/-- Where `processReq` is with a call. A reply comes with the server and what this had saved. -/
inductive Phase (N B W : Type) where
  | sent
  /-- No server; it waits before it says so. -/
  | failing
  | begun (l : Link N)
  /-- In the loop, until the handler returns or the server is dead. -/
  | waiting (l : Link N)
  | ended (l : Link N) (reply : Option (Reply B × List W))
  | delayed (r : Reply B) (sender : Option (N × List W))
  | returned (r : Reply B) (sender : Option (N × List W))

/-- The goroutine that calls the daemon. -/
structure Handler (B W : Type) where
  daemon : ℕ
  /-- What it sends on `ech`, with what the daemon had saved. -/
  result : Option (Reply B × List W)
  taken : Bool

structure Call (N E B W : Type) where
  endname : E
  /-- The server that calls, and what it had saved; the tests have their own ends. -/
  sender : Option (N × List W)
  phase : Phase N B W
  handler : Option (Handler B W)

/-- How far `StartServer` or `ShutdownServer` is with a server, and its daemon. -/
inductive Slot where
  | down
  | starting (i : ℕ)
  | up (i : ℕ)
  | deleted (i : ℕ)
  /-- It does not send any more. -/
  | closed (i : ℕ)
  | copied (i : ℕ)
  deriving DecidableEq

/-- The daemon that can still send. -/
def Slot.sends : Slot → Option ℕ
  | .starting i | .up i | .deleted i => some i
  | .down | .closed _ | .copied _ => none

/-- What `processReq` and its goroutine do with a call. -/
inductive CallStep (B : Type) where
  | read
  | dropRequest
  | dispatch
  /-- The handler returns. -/
  | answer (r : Reply B)
  | receive
  | timeout
  | drain
  /-- The reply is sent, unless the server is dead, or it is dropped or delayed. -/
  | finish (drop delay : Bool)
  | deliver

/-- `StartServer` and `ShutdownServer`. -/
inductive ServerStep where
  | start
  | addServer
  | deleteServer
  | close
  | checkpoint
  | kill

inductive Action (N E B W : Type) where
  | reliable (yes : Bool)
  | longReordering (yes : Bool)
  | connect (e : E) (n : N)
  | enable (e : E) (yes : Bool)
  | deleteEnd (e : E)
  | call (e : E) (sender : Option N)
  | proceed (k : ℕ) (x : CallStep B)
  /-- A daemon saves. -/
  | save (i : ℕ) (w : W)
  | server (n : N) (x : ServerStep)

end Network

/-- The network, and the servers of a test. -/
structure Network (N E B W : Type) where
  isReliable : Bool
  reordering : Bool
  enabled : E → Bool
  connections : E → Option N
  /-- The daemon behind a server's name. -/
  servers : N → Option ℕ
  calls : List (Network.Call N E B W)
  slot : N → Network.Slot
  /-- The copy of the persister; it and the persisters are given by what has been saved in them. -/
  saved : N → List W
  persister : ℕ → List W
  killed : ℕ → Bool
  /-- The number of daemons so far. -/
  next : ℕ

namespace Network

variable {N E B W : Type}

section Defs

variable [DecidableEq N] [DecidableEq E] (s : Network N E B W)

def initial : Network N E B W where
  isReliable := true
  reordering := false
  enabled _ := false
  connections _ := none
  servers _ := none
  calls := []
  slot _ := .down
  saved _ := []
  persister _ := []
  killed _ := false
  next := 0

def setSlot (n : N) (x : Slot) : Network N E B W := { s with slot := Function.update s.slot n x }

def isServerDead (e : E) (l : Link N) : Bool :=
  s.enabled e = false || s.servers l.servername ≠ some l.server

/-- The beginning of `processReq`. -/
def readEndnameInfo (e : E) : Option (Link N) :=
  if s.enabled e then do
    let n ← s.connections e
    let i ← s.servers n
    some ⟨n, i, s.isReliable, s.reordering⟩
  else none

/-- What a caller is. -/
def sender : Option N → Option (Option (N × List W))
  | none => some none
  | some n => (s.slot n).sends.map fun i => some (n, s.persister i)

/-- The end of `processReq`. -/
def reply (e : E) (l : Link N) (drop delay : Bool) : Option (Reply B × List W) → Phase N B W
  | none => .returned .none none
  | some (r, saved) =>
    if s.isServerDead e l then .returned .none none
    else if l.reliable = false ∧ drop = true then .returned .none none
    else if l.longReordering = true ∧ delay = true then .delayed r (some (l.servername, saved))
    else .returned r (some (l.servername, saved))

def stepCall (c : Call N E B W) : CallStep B → Option (Call N E B W)
  | .read => match c.phase with
    | .sent => some { c with phase := match s.readEndnameInfo c.endname with
        | some l => .begun l
        | none => .failing }
    | .failing => some { c with phase := .returned .none none }
    | _ => none
  | .dropRequest => match c.phase with
    | .begun l => if l.reliable then none else some { c with phase := .returned .none none }
    | _ => none
  | .dispatch => match c.phase with
    | .begun l => some { c with
        phase := .waiting l, handler := some ⟨l.server, none, false⟩ }
    | _ => none
  | .answer r => do
    let h ← c.handler
    if h.result.isSome ∨ (r.ok = true ∧ s.killed h.daemon = true) then none
    else some { c with handler := some { h with result := some (r, s.persister h.daemon) } }
  | .receive => match c.phase, c.handler with
    | .waiting l, some ⟨i, some r, false⟩ => some { c with
        phase := .ended l (some r), handler := some ⟨i, some r, true⟩ }
    | _, _ => none
  | .timeout => match c.phase with
    | .waiting l =>
      if s.isServerDead c.endname l then some { c with phase := .ended l none } else none
    | _ => none
  | .drain => match c.phase, c.handler with
    | .waiting _, _ => none
    | _, some ⟨i, some r, false⟩ => some { c with handler := some ⟨i, some r, true⟩ }
    | _, _ => none
  | .finish drop delay => match c.phase with
    | .ended l r => some { c with phase := s.reply c.endname l drop delay r }
    | _ => none
  | .deliver => match c.phase with
    | .delayed r sender => some { c with phase := .returned r sender }
    | _ => none

def stepServer (n : N) : ServerStep → Option (Network N E B W)
  | .start => match s.slot n with
    | .down => some { s.setSlot n (.starting s.next) with
        persister := Function.update s.persister s.next (s.saved n), next := s.next + 1 }
    | _ => none
  | .addServer => match s.slot n with
    | .starting i => some { s.setSlot n (.up i) with
        servers := Function.update s.servers n (some i) }
    | _ => none
  | .deleteServer => match s.slot n with
    | .up i => some { s.setSlot n (.deleted i) with servers := Function.update s.servers n none }
    | _ => none
  | .close => match s.slot n with
    | .deleted i => some (s.setSlot n (.closed i))
    | _ => none
  | .checkpoint => match s.slot n with
    | .closed i => some { s.setSlot n (.copied i) with
        saved := Function.update s.saved n (s.persister i) }
    | _ => none
  | .kill => match s.slot n with
    | .copied i => some { s.setSlot n .down with killed := Function.update s.killed i true }
    | _ => none

def step : Action N E B W → Option (Network N E B W)
  | .reliable yes => some { s with isReliable := yes }
  | .longReordering yes => some { s with reordering := yes }
  | .connect e n => some { s with connections := Function.update s.connections e (some n) }
  | .enable e yes => some { s with enabled := Function.update s.enabled e yes }
  | .deleteEnd e => some { s with
      enabled := Function.update s.enabled e false
      connections := Function.update s.connections e none }
  | .call e n => (s.sender n).map fun sender =>
      { s with calls := s.calls ++ [⟨e, sender, .sent, none⟩] }
  | .proceed k x => (s.calls[k]?.bind fun c => s.stepCall c x).map fun c =>
      { s with calls := s.calls.set k c }
  | .save i w => if i < s.next ∧ s.killed i = false then
      some { s with persister := Function.update s.persister i (s.persister i ++ [w]) } else none
  | .server n x => s.stepServer n x

def machine : Machine (Network N E B W) (Action N E B W) where
  init s := s = initial
  step := step

/-- What the server has saved, and gets when it is started again. -/
def held (n : N) : List W :=
  match s.slot n with
  | .down | .copied _ => s.saved n
  | .starting i | .up i | .deleted i | .closed i => s.persister i

end Defs

/-! ## What is saved stays -/

def Slot.daemon : Slot → Option ℕ
  | .down => none
  | .starting i | .up i | .deleted i | .closed i | .copied i => some i

def Phase.link : Phase N B W → Option (Link N)
  | .begun l | .waiting l | .ended l _ => some l
  | .sent | .failing | .delayed _ _ | .returned _ _ => none

/-- Nothing that has been saved is lost. -/
structure Grows (s s' : Network N E B W) : Prop where
  held : ∀ n, s.held n <+: s'.held n
  persister : ∀ i < s.next, s.persister i <+: s'.persister i
  next : s.next ≤ s'.next

structure Fits (s : Network N E B W) : Prop where
  server : ∀ n i, s.servers n = some i → s.slot n = .up i
  daemon : ∀ n i, (s.slot n).daemon = some i → i < s.next

/-- What the call and its reply have been sent with is still there. -/
structure Call.Kept (s : Network N E B W) (c : Call N E B W) : Prop where
  sender : ∀ n a, c.sender = some (n, a) → a <+: s.held n
  link : ∀ l, c.phase.link = some l → l.server < s.next
  handler : ∀ h, c.handler = some h → h.daemon < s.next ∧
    ∀ r a, h.result = some (r, a) → a <+: s.persister h.daemon
  waiting : ∀ l h, c.phase = .waiting l → c.handler = some h → h.daemon = l.server
  ended : ∀ l r a, c.phase = .ended l (some (r, a)) → a <+: s.persister l.server
  reply : ∀ r o, c.phase = .delayed r o ∨ c.phase = .returned r o → r.ok = true →
    ∃ n a, o = some (n, a) ∧ a <+: s.held n

variable {s s' : Network N E B W} {c c' : Call N E B W}

theorem Call.Kept.mono (h : c.Kept s) (hg : Grows s s') : c.Kept s' where
  sender n a hs := (h.sender n a hs).trans (hg.held n)
  link l hl := (h.link l hl).trans_le hg.next
  handler x hx := by
    obtain ⟨hlt, hresult⟩ := h.handler x hx
    exact ⟨hlt.trans_le hg.next, fun r a hr => (hresult r a hr).trans (hg.persister _ hlt)⟩
  waiting := h.waiting
  ended l r a hp := by
    have hlt := h.link l (by rw [hp]; rfl)
    exact (h.ended l r a hp).trans (hg.persister _ hlt)
  reply r o hp hok := by
    obtain ⟨n, a, ho, ha⟩ := h.reply r o hp hok
    exact ⟨n, a, ho, ha.trans (hg.held n)⟩

theorem Grows.of_eq (hslot : s'.slot = s.slot) (hsaved : s'.saved = s.saved)
    (hpersister : s'.persister = s.persister) (hnext : s'.next = s.next) : Grows s s' := by
  have hheld (n : N) : s'.held n = s.held n := by
    unfold Network.held
    rw [hslot, hsaved, hpersister]
  refine ⟨fun n => ?_, fun i _ => ?_, hnext.ge⟩
  · rw [hheld]
  · rw [hpersister]

/-- A daemon saves. -/
theorem grows_save {i : ℕ} {w : W} :
    Grows s { s with persister := Function.update s.persister i (s.persister i ++ [w]) } := by
  have hpersister (j : ℕ) : s.persister j <+:
      Function.update s.persister i (s.persister i ++ [w]) j := by
    by_cases hj : j = i
    · subst hj
      rw [Function.update_self]
      exact List.prefix_append ..
    · rw [Function.update_of_ne hj]
  refine ⟨fun n => ?_, fun j _ => hpersister j, le_rfl⟩
  unfold held
  dsimp only
  split
  · exact List.prefix_refl _
  · exact List.prefix_refl _
  all_goals exact hpersister _

/-- One server is started or shut down further. -/
theorem Fits.setSlot [DecidableEq N] (h : s.Fits) {n : N} {x : Slot}
    (hslot : s'.slot = Function.update s.slot n x) (hheld : s'.held n = s.held n)
    (hpersister : ∀ i < s.next, s'.persister i = s.persister i)
    (hsaved : ∀ m ≠ n, s'.saved m = s.saved m) (hnext : s.next ≤ s'.next)
    (hservers : ∀ m ≠ n, s'.servers m = s.servers m)
    (hself : ∀ i, s'.servers n = some i → x = .up i)
    (hdaemon : ∀ i, x.daemon = some i → i < s'.next) : s'.Fits ∧ Grows s s' := by
  have hne {m : N} (hm : m ≠ n) : s'.slot m = s.slot m := by rw [hslot, Function.update_of_ne hm]
  have hx : s'.slot n = x := by rw [hslot, Function.update_self]
  refine ⟨⟨fun m i hi => ?_, fun m i hi => ?_⟩, fun m => ?_, fun i hi => ?_, hnext⟩
  · by_cases hm : m = n
    · subst hm
      exact hx.trans (hself i hi)
    · exact (hne hm).trans (h.server m i (hservers m hm ▸ hi))
  · by_cases hm : m = n
    · subst hm
      exact hdaemon i (hx ▸ hi)
    · exact (h.daemon m i (hne hm ▸ hi)).trans_le hnext
  · by_cases hm : m = n
    · subst hm
      rw [hheld]
    · have hsame : s'.held m = s.held m := by
        have hlt := h.daemon m
        unfold held
        rw [hne hm]
        generalize s.slot m = y at hlt
        cases y with
        | down | copied i => exact hsaved m hm
        | _ => exact hpersister _ (hlt _ rfl)
      rw [hsame]
  · rw [hpersister i hi]

theorem Fits.stepServer [DecidableEq N] (h : s.Fits) {n : N} {x : ServerStep}
    (hx : s.stepServer n x = some s') : s'.Fits ∧ Grows s s' := by
  have hserver {y : Slot} (hy : s.slot n = y) (hup : ∀ i, y ≠ .up i) (i : ℕ) :
      s.servers n ≠ some i := fun hi => hup i (hy.symm.trans (h.server n i hi))
  cases x with
  | start =>
    simp only [Network.stepServer] at hx
    split at hx
    case h_2 => cases hx
    rename_i hslot
    cases hx
    refine h.setSlot rfl ?_ (fun i hi => Function.update_of_ne hi.ne _ _) (fun _ _ => rfl)
      (Nat.le_succ _) (fun _ _ => rfl) (fun i hi => absurd hi (hserver hslot (by simp) i))
      fun i hi => ?_
    · simp [held, hslot, Network.setSlot]
    · cases hi
      exact Nat.lt_succ_self _
  | addServer =>
    simp only [Network.stepServer] at hx
    split at hx
    case h_2 => cases hx
    rename_i i hslot
    cases hx
    refine h.setSlot rfl ?_ (fun _ _ => rfl) (fun _ _ => rfl) le_rfl
      (fun m hm => Function.update_of_ne hm _ _) (fun j hj => ?_) fun j hj => ?_
    · simp [held, hslot, Network.setSlot]
    · have hj : Function.update s.servers n (some i) n = some j := hj
      rw [Function.update_self] at hj
      cases hj
      rfl
    · cases hj
      exact h.daemon n _ (by rw [hslot]; rfl)
  | deleteServer =>
    simp only [Network.stepServer] at hx
    split at hx
    case h_2 => cases hx
    rename_i i hslot
    cases hx
    refine h.setSlot rfl ?_ (fun _ _ => rfl) (fun _ _ => rfl) le_rfl
      (fun m hm => Function.update_of_ne hm _ _) (fun j hj => ?_) fun j hj => ?_
    · simp [held, hslot, Network.setSlot]
    · have hj : Function.update s.servers n none n = some j := hj
      rw [Function.update_self] at hj
      cases hj
    · cases hj
      exact h.daemon n _ (by rw [hslot]; rfl)
  | close =>
    simp only [Network.stepServer] at hx
    split at hx
    case h_2 => cases hx
    rename_i i hslot
    cases hx
    refine h.setSlot rfl ?_ (fun _ _ => rfl) (fun _ _ => rfl) le_rfl (fun _ _ => rfl)
      (fun j hj => absurd hj (hserver hslot (by simp) j)) fun j hj => ?_
    · simp [held, hslot, Network.setSlot]
    · cases hj
      exact h.daemon n _ (by rw [hslot]; rfl)
  | checkpoint =>
    simp only [Network.stepServer] at hx
    split at hx
    case h_2 => cases hx
    rename_i i hslot
    cases hx
    refine h.setSlot rfl ?_ (fun _ _ => rfl) (fun m hm => Function.update_of_ne hm _ _) le_rfl
      (fun _ _ => rfl) (fun j hj => absurd hj (hserver hslot (by simp) j)) fun j hj => ?_
    · simp [held, hslot, Network.setSlot]
    · cases hj
      exact h.daemon n _ (by rw [hslot]; rfl)
  | kill =>
    simp only [Network.stepServer] at hx
    split at hx
    case h_2 => cases hx
    rename_i i hslot
    cases hx
    refine h.setSlot rfl ?_ (fun _ _ => rfl) (fun _ _ => rfl) le_rfl (fun _ _ => rfl)
      (fun j hj => absurd hj (hserver hslot (by simp) j)) fun j hj => ?_
    · simp [held, hslot, Network.setSlot]
    · cases hj

/-! ## Calls -/

theorem Call.Kept.setPhase (h : c.Kept s) {p : Phase N B W}
    (hlink : ∀ l, p.link = some l → l.server < s.next)
    (hwaiting : ∀ l x, p = .waiting l → c.handler = some x → x.daemon = l.server)
    (hended : ∀ l r a, p = .ended l (some (r, a)) → a <+: s.persister l.server)
    (hreply : ∀ r o, p = .delayed r o ∨ p = .returned r o → r.ok = true →
      ∃ n a, o = some (n, a) ∧ a <+: s.held n) : ({ c with phase := p } : Call N E B W).Kept s :=
  ⟨h.sender, hlink, h.handler, hwaiting, hended, hreply⟩

/-- The call fails. -/
theorem Call.Kept.fail (h : c.Kept s) :
    ({ c with phase := .returned .none none } : Call N E B W).Kept s := by
  refine h.setPhase (fun l hl => ?_) (fun l x hp _ => ?_) (fun l r a hp => ?_) fun r o hp hok => ?_
  · cases hl
  · cases hp
  · cases hp
  · obtain hp | hp := hp <;> cases hp
    cases hok

/-- The handler's reply stays as it is, or is there now. -/
theorem Call.Kept.setHandler (h : c.Kept s) {x y : Handler B W} (hx : c.handler = some x)
    (hdaemon : y.daemon = x.daemon)
    (hresult : ∀ r a, y.result = some (r, a) → a <+: s.persister x.daemon) :
    ({ c with handler := some y } : Call N E B W).Kept s where
  sender := h.sender
  link := h.link
  handler z hz := by
    cases hz
    rw [hdaemon]
    exact ⟨(h.handler x hx).1, hresult⟩
  waiting l z hp hz := by
    cases hz
    exact hdaemon.trans (h.waiting l x hp hx)
  ended := h.ended
  reply := h.reply

theorem Call.Kept.read [DecidableEq N] [DecidableEq E] (h : c.Kept s) (hf : s.Fits) :
    ({ c with phase := match s.readEndnameInfo c.endname with
      | some l => .begun l
      | none => .failing } : Call N E B W).Kept s := by
  refine h.setPhase (fun l hl => ?_) (fun l x hp _ => ?_) (fun l r a hp => ?_) fun r o hp _ => ?_
  · split at hl
    case h_2 => cases hl
    rename_i l hread
    cases hl
    simp only [readEndnameInfo, Option.bind_eq_bind] at hread
    split at hread
    case isFalse => cases hread
    obtain ⟨n, -, hn⟩ := Option.bind_eq_some_iff.1 hread
    obtain ⟨i, hi, hl⟩ := Option.bind_eq_some_iff.1 hn
    cases hl
    exact hf.daemon n i (by rw [hf.server n i hi]; rfl)
  · split at hp <;> cases hp
  · split at hp <;> cases hp
  · split at hp <;> obtain hp | hp := hp <;> cases hp

/-- A reply is only sent for a server that has not been deleted. -/
theorem Call.Kept.finish [DecidableEq N] [DecidableEq E] (h : c.Kept s) (hf : s.Fits) {l : Link N}
    {r : Option (Reply B × List W)} {drop delay : Bool} (hp : c.phase = .ended l r) :
    ({ c with phase := s.reply c.endname l drop delay r } : Call N E B W).Kept s := by
  cases r with
  | none => exact h.fail
  | some p =>
    obtain ⟨r, a⟩ := p
    simp only [Network.reply]
    split
    · exact h.fail
    rename_i halive
    split
    · exact h.fail
    have hserver : s.servers l.servername = some l.server := by
      simp only [isServerDead, Bool.or_eq_true, decide_eq_true_eq, not_or, not_not] at halive
      exact halive.2
    have hheld : a <+: s.held l.servername := by
      have hprefix := h.ended l r a hp
      unfold held
      rw [hf.server _ _ hserver]
      exact hprefix
    have hreply {r' : Reply B} {o : Option (N × List W)} (ho : o = some (l.servername, a)) :
        r'.ok = true → ∃ n b, o = some (n, b) ∧ b <+: s.held n :=
      fun _ => ⟨_, _, ho, hheld⟩
    split
    all_goals
      refine h.setPhase (fun l' hl => ?_) (fun l' x hp _ => ?_) (fun l' r' b hp => ?_)
        fun r' o hp => hreply ?_
      · cases hl
      · cases hp
      · cases hp
      · obtain hp | hp := hp <;> cases hp
        rfl

theorem Call.Kept.step [DecidableEq N] [DecidableEq E] (h : c.Kept s) (hf : s.Fits)
    {x : CallStep B} (hx : s.stepCall c x = some c') : c'.Kept s := by
  cases x with
  | read =>
    simp only [stepCall] at hx
    split at hx
    · cases hx
      exact h.read hf
    · cases hx
      exact h.fail
    · cases hx
  | dropRequest =>
    simp only [stepCall] at hx
    split at hx
    · split at hx
      · cases hx
      · cases hx
        exact h.fail
    · cases hx
  | dispatch =>
    simp only [stepCall] at hx
    split at hx
    case h_2 => cases hx
    rename_i l hp
    cases hx
    have hlt := h.link l (by rw [hp]; rfl)
    refine ⟨h.sender, fun l' hl => ?_, fun y hy => ?_, fun l' y hp hy => ?_, fun l' r a hp => ?_,
      fun r o hp _ => ?_⟩
    · cases hl
      exact hlt
    · cases hy
      exact ⟨hlt, fun r a hr => by cases hr⟩
    · cases hp
      cases hy
      rfl
    · cases hp
    · obtain hp | hp := hp <;> cases hp
  | answer r =>
    simp only [stepCall, Option.bind_eq_bind] at hx
    obtain ⟨y, hy, hx⟩ := Option.bind_eq_some_iff.1 hx
    split at hx
    · cases hx
    · cases hx
      refine h.setHandler hy rfl fun r' a hr => ?_
      cases hr
      exact List.prefix_refl _
  | receive =>
    simp only [stepCall] at hx
    split at hx
    case h_2 => cases hx
    rename_i l i r hp hy
    cases hx
    obtain ⟨hlt, hresult⟩ := h.handler _ hy
    have hi : i = l.server := h.waiting l _ hp hy
    refine (h.setHandler (y := ⟨i, some r, true⟩) hy rfl hresult).setPhase (fun l' hl => ?_)
      (fun l' y hp _ => ?_) (fun l' r' a hp => ?_) fun r' o hp _ => ?_
    · cases hl
      exact hi ▸ hlt
    · cases hp
    · cases hp
      exact hi ▸ hresult r' a rfl
    · obtain hp | hp := hp <;> cases hp
  | timeout =>
    simp only [stepCall] at hx
    split at hx
    case h_2 => cases hx
    rename_i l hp
    split at hx
    case isFalse => cases hx
    cases hx
    refine h.setPhase (fun l' hl => ?_) (fun l' y hp _ => ?_) (fun l' r a hp => ?_)
      fun r o hp _ => ?_
    · cases hl
      exact h.link l (by rw [hp]; rfl)
    · cases hp
    · cases hp
    · obtain hp | hp := hp <;> cases hp
  | drain =>
    simp only [stepCall] at hx
    split at hx
    · cases hx
    · rename_i i r hy _
      cases hx
      exact h.setHandler hy rfl (h.handler _ hy).2
    · cases hx
  | finish drop delay =>
    simp only [stepCall] at hx
    split at hx
    case h_2 => cases hx
    rename_i l r hp
    cases hx
    exact h.finish hf hp
  | deliver =>
    simp only [stepCall] at hx
    split at hx
    case h_2 => cases hx
    rename_i r o hp
    cases hx
    refine h.setPhase (fun l hl => ?_) (fun l y hp _ => ?_) (fun l r' a hp => ?_)
      fun r' o' hp' hok => ?_
    · cases hl
    · cases hp
    · cases hp
    · obtain hp' | hp' := hp' <;> cases hp'
      exact h.reply r o (.inl hp) hok

/-! ## Runs -/

structure Sound (s : Network N E B W) : Prop where
  fits : s.Fits
  calls : ∀ c ∈ s.calls, c.Kept s

theorem held_of_sends {n : N} {i : ℕ} (h : (s.slot n).sends = some i) :
    s.held n = s.persister i := by
  unfold held
  cases hslot : s.slot n with
  | starting j | up j | deleted j =>
    rw [hslot] at h
    cases h
    rfl
  | down | closed j | copied j =>
    rw [hslot] at h
    cases h

theorem kept_call {n : Option N} {e : E} {sender : Option (N × List W)}
    (hn : s.sender n = some sender) : (⟨e, sender, .sent, none⟩ : Call N E B W).Kept s where
  sender m a hm := by
    cases n with
    | none =>
      cases hn
      cases hm
    | some n =>
      obtain ⟨i, hi, hsender⟩ := Option.map_eq_some_iff.1 hn
      cases hsender.trans hm
      rw [held_of_sends hi]
  link l hl := by cases hl
  handler x hx := by cases hx
  waiting l x hp _ := by cases hp
  ended l r a hp := by cases hp
  reply r o hp _ := by obtain hp | hp := hp <;> cases hp

/-- A step of a call, or of a test, that leaves the servers as they are. -/
theorem Sound.of_eq (h : s.Sound) (hservers : s'.servers = s.servers) (hslot : s'.slot = s.slot)
    (hsaved : s'.saved = s.saved) (hpersister : s'.persister = s.persister)
    (hnext : s'.next = s.next) (hcalls : ∀ c ∈ s'.calls, c.Kept s) : s'.Sound := by
  refine ⟨⟨fun n i hi => ?_, fun n i hi => ?_⟩, fun c hc => ?_⟩
  · rw [hservers] at hi
    rw [hslot]
    exact h.fits.server n i hi
  · rw [hslot] at hi
    rw [hnext]
    exact h.fits.daemon n i hi
  · exact (hcalls c hc).mono (.of_eq hslot hsaved hpersister hnext)

theorem stepServer_calls [DecidableEq N] {n : N} {x : ServerStep}
    (hx : s.stepServer n x = some s') : s'.calls = s.calls := by
  cases x
  all_goals
    simp only [Network.stepServer] at hx
    split at hx <;> cases hx
    rfl

theorem Sound.step [DecidableEq N] [DecidableEq E] (h : s.Sound) {a : Action N E B W}
    (ha : s.step a = some s') : s'.Sound := by
  cases a with
  | reliable yes | longReordering yes | connect e n | enable e yes | deleteEnd e =>
    cases ha
    exact h.of_eq rfl rfl rfl rfl rfl h.calls
  | call e n =>
    obtain ⟨sender, hsender, ha⟩ := Option.map_eq_some_iff.1 ha
    cases ha
    refine h.of_eq rfl rfl rfl rfl rfl fun c hc => ?_
    obtain hc | hc := List.mem_append.1 hc
    · exact h.calls c hc
    · rw [List.mem_singleton.1 hc]
      exact kept_call hsender
  | proceed k x =>
    obtain ⟨c', hstep, ha⟩ := Option.map_eq_some_iff.1 ha
    obtain ⟨c, hk, hstep⟩ := Option.bind_eq_some_iff.1 hstep
    cases ha
    refine h.of_eq rfl rfl rfl rfl rfl fun d hd => ?_
    obtain hd | rfl := List.mem_or_eq_of_mem_set hd
    · exact h.calls d hd
    · exact (h.calls c (List.mem_of_getElem? hk)).step h.fits hstep
  | save i w =>
    simp only [Network.step] at ha
    split at ha
    case isFalse => cases ha
    cases ha
    exact ⟨⟨h.fits.server, h.fits.daemon⟩, fun c hc => (h.calls c hc).mono grows_save⟩
  | server n x =>
    obtain ⟨hf, hg⟩ := h.fits.stepServer ha
    refine ⟨hf, fun c hc => (h.calls c ?_).mono hg⟩
    rw [← stepServer_calls ha]
    exact hc

theorem Sound.of_reach [DecidableEq N] [DecidableEq E]
    (hs : (machine : Machine (Network N E B W) _).Reachable s) : s.Sound := by
  refine hs.invariant ?_ fun s a s' _ h _ ha => h.step ha
  rintro s rfl
  refine ⟨⟨fun n i hi => ?_, fun n i hi => ?_⟩, fun c hc => ?_⟩
  · cases hi
  · cases hi
  · cases hc

/-- **Nothing is forgotten.** What a server had saved when it sent a call, or a reply that has got
through, it still has, also when it has been shut down since, and is started again. -/
theorem nothing_forgotten [DecidableEq N] [DecidableEq E] {s : Network N E B W}
    {c : Call N E B W} (hs : (machine : Machine (Network N E B W) _).Reachable s)
    (hc : c ∈ s.calls) :
    (∀ n a, c.sender = some (n, a) → a <+: s.held n) ∧
      ∀ r o, c.phase = .returned r o → r.ok = true →
        ∃ n a, o = some (n, a) ∧ a <+: s.held n := by
  have hkept := (Sound.of_reach hs).calls c hc
  exact ⟨hkept.sender, fun r o hp => hkept.reply r o (.inr hp)⟩

/-- The reply that the caller has got, and who has sent it. -/
def Phase.result : Phase N B W → Option (Reply B × Option (N × List W))
  | .returned r sender => some (r, sender)
  | _ => none

theorem Phase.result_eq_some {p : Phase N B W} {r : Reply B} {o : Option (N × List W)}
    (h : p.result = some (r, o)) : p = .returned r o := by
  cases p with
  | returned r' o' =>
    cases h
    rfl
  | _ => cases h

/-- A server saves, replies, saves again, and is shut down; what it saves then is lost. -/
theorem nothing_forgotten_restart : ∃ s : Network ℕ ℕ ℕ ℕ,
    (s.slot 0, s.held 0) = (.up 1, [5, 6]) ∧ ∃ c ∈ s.calls,
    (∃ r, c.phase = .returned r (some (0, [5])) ∧ r.ok = true) ∧
    ((∀ n a, c.sender = some (n, a) → a <+: s.held n) ∧
      ∀ r o, c.phase = .returned r o → r.ok = true →
        ∃ n a, o = some (n, a) ∧ a <+: s.held n) := by
  obtain ⟨s, hs, hv⟩ := (machine : Machine (Network ℕ ℕ ℕ ℕ) _).reach_of_run (fun _ _ => True)
    (f := fun s => (s.slot 0, s.held 0, s.calls.map fun c =>
      c.phase.result.elim (false, 0, []) fun p => (p.1.ok, p.2.getD (0, []))))
    (v := (.up 1, [5, 6], [(true, 0, [5])]))
    [.server 0 .start, .server 0 .addServer, .connect 3 0, .enable 3 true, .call 3 none,
      .proceed 0 .read, .proceed 0 .dispatch, .save 0 5, .proceed 0 (.answer ⟨true, some 1⟩),
      .save 0 6, .proceed 0 .receive, .proceed 0 (.finish false false), .server 0 .deleteServer,
      .server 0 .close, .server 0 .checkpoint, .save 0 7, .server 0 .kill, .server 0 .start,
      .server 0 .addServer]
    rfl (by decide +kernel)
  simp only [Prod.mk.injEq, List.map_eq_singleton_iff] at hv
  obtain ⟨hslot, hheld, c, hcalls, hphase⟩ := hv
  have hc : c ∈ s.calls := hcalls ▸ List.mem_singleton_self c
  refine ⟨s, Prod.ext hslot hheld, c, hc, ?_, nothing_forgotten hs hc⟩
  cases hp : c.phase.result with
  | none =>
    rw [hp] at hphase
    cases hphase
  | some p =>
    obtain ⟨r, o⟩ := p
    rw [hp, Option.elim_some, Prod.mk.injEq] at hphase
    obtain ⟨hok, hsaved⟩ := hphase
    cases o with
    | none => cases hsaved
    | some saved =>
      cases hsaved
      exact ⟨r, Phase.result_eq_some hp, hok⟩

end Network

end CollabIde
