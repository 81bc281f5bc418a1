import Mathlib.Data.List.AList
import CollabIde.Lib.Run
import CollabIde.Raft.Types

/-!
# Submit, reader and leaderCheck

`rsm.go` as a machine: any number of calls of `Submit`, the goroutines `reader` and `leaderCheck`,
and the mutex between them. A step is what a goroutine does without the lock, or a whole section of
`Submit` under the lock, which cannot block. The sections of the other two send on result channels
of capacity 1 and can block there, so they send one step at a time, and what needs no lock goes on
in between.

What Raft answers to `Start` and `GetState`, and what it sends on `applyCh`, is an argument of the
step. `rf.Snapshot`, which `reader` may call before it locks, changes nothing here and is left out.
-/

namespace CollabIde

/-- What a server gives to the RSM. -/
structure StateMachine (R V S D : Type) where
  doOp : S → R → S × V
  snapshot : S → D
  restore : S → Option D → S

/-- A map with int keys. -/
abbrev GoMap (α : Type) : Type := AList fun _ : ℤ => α

namespace RSM

/-- What `Submit` gives to `Start`. -/
structure Op (R : Type) where
  req : R
  id : BitVec 64
  deriving DecidableEq

inductive Err where
  | ok | errWrongLeader
  deriving DecidableEq

structure OpResult (V : Type) where
  err : Err
  value : Option V
  deriving DecidableEq

def OpResult.wrongLeader {V : Type} : OpResult V := ⟨.errWrongLeader, none⟩

/-- Where a call of `Submit` is. -/
inductive Phase (V : Type) where
  /-- Waits for `mu`, to get its id. -/
  | identify
  /-- Calls `Start`. -/
  | start
  /-- Waits for `mu` with its index. -/
  | register
  /-- Waits for a result on its channel. -/
  | wait
  /-- Waits for `mu` with its result. -/
  | unregister (result : OpResult V)
  | done (result : OpResult V)
  deriving DecidableEq

/-- A call of `Submit`. -/
structure Call (R V : Type) where
  req : R
  id : BitVec 64 := 0
  /-- What `Start` has answered. -/
  index : Option ℤ := none
  term : ℤ := 0
  phase : Phase V := .identify
  /-- What is in `currChannel`. -/
  result : Option (OpResult V) := none
  /-- The number of results that have been sent on `currChannel`. -/
  sent : ℕ := 0
  /-- `reader` has looked for the call's channel because of a message that covers its index. -/
  passed : Bool := false

inductive Goroutine where
  | submit (c : ℕ)
  | reader
  | leaderCheck
  deriving DecidableEq

/-- A section of `reader` or `leaderCheck` under the lock. -/
structure Section (V : Type) where
  owner : Goroutine
  /-- The indexes whose channels still get the result. -/
  pending : List ℤ
  result : OpResult V
  /-- The entries of the maps are deleted after the send. -/
  deletes : Bool

/-- What `reader` has taken from `applyCh`, and waits for `mu` with. -/
inductive Reading (R V : Type) where
  | idle
  | command (index : ℤ) (op : Op R) (result : V)
  | snapshot (index : ℤ)
  /-- The channel is closed. -/
  | closed
  | ended

end RSM

/-- The RSM of a peer. -/
structure RSM (R V S : Type) where
  me : ℤ
  sm : S
  nextId : BitVec 64
  /-- The calls that wait at the indexes. -/
  channels : GoMap ℕ
  chanIds : GoMap (BitVec 64)
  chanTerms : GoMap ℤ
  calls : ℕ → Option (RSM.Call R V)
  next : ℕ
  /-- The goroutines that wait for `mu`, in the order in which they came. -/
  queue : List RSM.Goroutine
  /-- The section of the goroutine that has `mu`. -/
  locked : Option (RSM.Section V)
  reading : RSM.Reading R V
  /-- The term that `leaderCheck` waits for `mu` with. -/
  checking : Option ℤ
  /-- What `DoOp` has returned, by indexes. -/
  results : List (ℤ × V)

namespace RSM

/-- What `reader` does once it has released `mu`. -/
def Reading.after {R V : Type} : Reading R V → Reading R V
  | .closed => .ended
  | _ => .idle

/-- The message covers the index. -/
def Reading.covers {R V : Type} : Reading R V → ℤ → Bool
  | .command index _ _, i => i = index
  | .snapshot index, i => i ≤ index
  | _, _ => false

variable {R V S D : Type} (σ : StateMachine R V S D) (s : RSM R V S)

/-- `MakeRSM`. -/
def make (me : ℤ) (sm : S) : RSM R V S where
  me := me
  sm := sm
  nextId := 0
  channels := ∅
  chanIds := ∅
  chanTerms := ∅
  calls _ := none
  next := 0
  queue := []
  locked := none
  reading := .idle
  checking := none
  results := []

def setCall (c : ℕ) (call : Call R V) : RSM R V S :=
  { s with calls := Function.update s.calls c (some call) }

/-- A goroutine comes to `mu.Lock()`. -/
def enqueue (g : Goroutine) : RSM R V S := { s with queue := s.queue ++ [g] }

def insertAt (index : ℤ) (c : ℕ) (call : Call R V) : RSM R V S :=
  { s with
    channels := s.channels.insert index c
    chanIds := s.chanIds.insert index call.id
    chanTerms := s.chanTerms.insert index call.term }

def deleteAt (index : ℤ) : RSM R V S :=
  { s with
    channels := s.channels.erase index
    chanIds := s.chanIds.erase index
    chanTerms := s.chanTerms.erase index }

/-! ## Submit -/

/-- A call begins. -/
def submit (req : R) : RSM R V S :=
  { (s.setCall s.next { req := req }).enqueue (.submit s.next) with next := s.next + 1 }

/-- `int64(rsm.me)<<32 | rsm.nextId`, with the next id. -/
def nextOpId : BitVec 64 := (BitVec.ofInt 64 s.me <<< 32) ||| (s.nextId + 1)

/-- `Start` answers with an index and a term, or that the peer is no leader. -/
def start (c : ℕ) (answer : Option (ℤ × ℤ)) : Option (RSM R V S) :=
  match s.calls c with
  | none => none
  | some call => match call.phase, answer with
    | .start, none => some (s.setCall c { call with phase := .done .wrongLeader })
    | .start, some (index, term) => some ((s.setCall c { call with
        index := some index, term := term, phase := .register }).enqueue (.submit c))
    | _, _ => none

/-- `result := <-currChannel`. -/
def receive (c : ℕ) : Option (RSM R V S) :=
  match s.calls c with
  | none => none
  | some call => match call.phase, call.result with
    | .wait, some result => some ((s.setCall c { call with
        result := none, phase := .unregister result }).enqueue (.submit c))
    | _, _ => none

/-- A section of `Submit` under the lock. -/
def submitSection (c : ℕ) : Option (RSM R V S) :=
  match s.calls c with
  | none => none
  | some call => match call.phase, call.index with
    | .identify, _ => some { s.setCall c { call with id := s.nextOpId, phase := .start } with
        nextId := s.nextId + 1 }
    | .register, some index =>
      some ((s.setCall c { call with phase := .wait }).insertAt index c call)
    | .unregister result, some index =>
      some ((s.setCall c { call with phase := .done result }).deleteAt index)
    | _, _ => none

/-! ## reader and leaderCheck -/

/-- `reader` takes a message. -/
def message (m : ApplyMsg (Op R) D) : Option (RSM R V S) :=
  match s.reading with
  | .idle =>
    if m.snapshotValid then
      some ({ s with
        sm := σ.restore s.sm m.snapshot
        reading := .snapshot m.snapshotIndex }.enqueue .reader)
    else if m.commandValid = false then some s
    else match m.command with
      | none => some s
      | some op =>
        let r := σ.doOp s.sm op.req
        some ({ s with
          sm := r.1
          reading := .command m.commandIndex op r.2
          results := s.results ++ [(m.commandIndex, r.2)] }.enqueue .reader)
  | _ => none

/-- `applyCh` is closed. -/
def close : Option (RSM R V S) :=
  match s.reading with
  | .idle => some ({ s with reading := .closed }.enqueue .reader)
  | _ => none

/-- `leaderCheck` reads the term. -/
def tick (currTerm : ℤ) : Option (RSM R V S) :=
  match s.checking with
  | none => some ({ s with checking := some currTerm }.enqueue .leaderCheck)
  | some _ => none

/-- The indexes whose channels get a result. -/
def targets : Goroutine → List ℤ
  | .reader => match s.reading with
    | .command index _ _ => if (s.channels.lookup index).isSome then [index] else []
    | .snapshot _ | .closed => s.channels.keys
    | _ => []
  | .leaderCheck => match s.checking with
    | some currTerm => s.chanTerms.keys.filter fun idx =>
        (s.chanTerms.lookup idx).any fun chanTerm => chanTerm < currTerm
    | none => []
  | .submit _ => []

/-- The result that they get. -/
def reply (g : Goroutine) : OpResult V :=
  match g, s.reading with
  | .reader, .command index op result =>
    if op.id ≠ (s.chanIds.lookup index).getD 0 then .wrongLeader else ⟨.ok, some result⟩
  | _, _ => .wrongLeader

/-- `reader` or `leaderCheck` has locked `mu`; it visits the channels in some order. -/
def beginSection (g : Goroutine) (order : List ℤ) : Option (RSM R V S) :=
  if order.Perm (s.targets g) then
    some { s with
      locked := some ⟨g, order, s.reply g, match g, s.reading with
        | .reader, .snapshot _ => true
        | _, _ => false⟩
      calls := fun c => (s.calls c).map fun call => { call with
        passed := call.passed || g = .reader && call.index.any s.reading.covers } }
  else none

/-- `mu` is given to a goroutine that waits for it. -/
def grant (i : ℕ) (order : List ℤ) : Option (RSM R V S) :=
  match s.locked, s.queue[i]? with
  | none, some g =>
    let s := { s with queue := s.queue.eraseIdx i }
    match g with
    | .submit c => s.submitSection c
    | g => s.beginSection g order
  | _, _ => none

/-- The goroutine that has `mu` sends on the next channel, unless that blocks. -/
def send : Option (RSM R V S) :=
  match s.locked with
  | none => none
  | some sec => match sec.pending with
    | [] => none
    | idx :: rest => match s.channels.lookup idx with
      | none => none
      | some c => match s.calls c with
        | none => none
        | some call =>
          if call.result.isSome then none
          else
            let s := { s.setCall c { call with
                result := some sec.result, sent := call.sent + 1 } with
              locked := some { sec with pending := rest } }
            some (if sec.deletes then s.deleteAt idx else s)

def unlock : Option (RSM R V S) :=
  match s.locked with
  | none => none
  | some sec =>
    if sec.pending = [] then
      some { s with
        locked := none
        reading := if sec.owner = .reader then s.reading.after else s.reading
        checking := if sec.owner = .leaderCheck then none else s.checking }
    else none

/-! ## The machine -/

inductive Action (R D : Type) where
  | submit (req : R)
  | start (c : ℕ) (answer : Option (ℤ × ℤ))
  | receive (c : ℕ)
  | message (m : ApplyMsg (Op R) D)
  | close
  | tick (currTerm : ℤ)
  | grant (i : ℕ) (order : List ℤ)
  | send
  | unlock

def step : Action R D → Option (RSM R V S)
  | .submit req => some (s.submit req)
  | .start c answer => s.start c answer
  | .receive c => s.receive c
  | .message m => s.message σ m
  | .close => s.close
  | .tick currTerm => s.tick currTerm
  | .grant i order => s.grant i order
  | .send => s.send
  | .unlock => s.unlock

/-- The RSM of a peer as a machine. -/
def machine : Machine (RSM R V S) (Action R D) where
  init s := ∃ me sm, s = make me sm
  step := step σ

/-! ## What a step does -/

/-- Each action with its guard and its result. -/
inductive Stepped : Action R D → RSM R V S → Prop
  | submit (req : R) : Stepped (.submit req) (s.submit req)
  | notLeader {c : ℕ} {call : Call R V} : s.calls c = some call → call.phase = .start →
    Stepped (.start c none) (s.setCall c { call with phase := .done .wrongLeader })
  | start {c : ℕ} {call : Call R V} {index term : ℤ} : s.calls c = some call →
    call.phase = .start → Stepped (.start c (some (index, term))) ((s.setCall c { call with
      index := some index, term := term, phase := .register }).enqueue (.submit c))
  | receive {c : ℕ} {call : Call R V} {result : OpResult V} : s.calls c = some call →
    call.phase = .wait → call.result = some result →
    Stepped (.receive c) ((s.setCall c { call with
      result := none, phase := .unregister result }).enqueue (.submit c))
  | restore {m : ApplyMsg (Op R) D} : s.reading = .idle →
    Stepped (.message m) ({ s with
      sm := σ.restore s.sm m.snapshot, reading := .snapshot m.snapshotIndex }.enqueue .reader)
  | ignore (m : ApplyMsg (Op R) D) : Stepped (.message m) s
  | doOp {m : ApplyMsg (Op R) D} {op : Op R} : s.reading = .idle → m.command = some op →
    Stepped (.message m) ({ s with
      sm := (σ.doOp s.sm op.req).1
      reading := .command m.commandIndex op (σ.doOp s.sm op.req).2
      results := s.results ++ [(m.commandIndex, (σ.doOp s.sm op.req).2)] }.enqueue .reader)
  | close : s.reading = .idle → Stepped .close ({ s with reading := .closed }.enqueue .reader)
  | tick {currTerm : ℤ} : s.checking = none →
    Stepped (.tick currTerm) ({ s with checking := some currTerm }.enqueue .leaderCheck)
  | identify {i c : ℕ} {order : List ℤ} {call : Call R V} : s.locked = none →
    s.queue[i]? = some (.submit c) → s.calls c = some call → call.phase = .identify →
    Stepped (.grant i order) { s.setCall c { call with id := s.nextOpId, phase := .start } with
      queue := s.queue.eraseIdx i, nextId := s.nextId + 1 }
  | register {i c : ℕ} {order : List ℤ} {call : Call R V} {index : ℤ} : s.locked = none →
    s.queue[i]? = some (.submit c) → s.calls c = some call → call.phase = .register →
    call.index = some index →
    Stepped (.grant i order) { (s.setCall c { call with phase := .wait }).insertAt index c call with
      queue := s.queue.eraseIdx i }
  | unregister {i c : ℕ} {order : List ℤ} {call : Call R V} {index : ℤ} {result : OpResult V} :
    s.locked = none → s.queue[i]? = some (.submit c) → s.calls c = some call →
    call.phase = .unregister result → call.index = some index →
    Stepped (.grant i order) { (s.setCall c { call with phase := .done result }).deleteAt index with
      queue := s.queue.eraseIdx i }
  | beginSection {i : ℕ} {order : List ℤ} {g : Goroutine} {deletes : Bool} : s.locked = none →
    s.queue[i]? = some g → (∀ c, g ≠ .submit c) → order.Perm (s.targets g) →
    Stepped (.grant i order) { s with
      queue := s.queue.eraseIdx i
      locked := some ⟨g, order, s.reply g, deletes⟩
      calls := fun c => (s.calls c).map fun call => { call with
        passed := call.passed || g = .reader && call.index.any s.reading.covers } }
  | send {sec : Section V} {idx : ℤ} {rest : List ℤ} {c : ℕ} {call : Call R V} :
    s.locked = some sec → sec.pending = idx :: rest → s.channels.lookup idx = some c →
    s.calls c = some call → call.result = none → sec.deletes = false →
    Stepped .send { s.setCall c { call with result := some sec.result, sent := call.sent + 1 } with
      locked := some { sec with pending := rest } }
  | sendDelete {sec : Section V} {idx : ℤ} {rest : List ℤ} {c : ℕ} {call : Call R V} :
    s.locked = some sec → sec.pending = idx :: rest → s.channels.lookup idx = some c →
    s.calls c = some call → call.result = none → sec.deletes = true →
    Stepped .send { (s.setCall c { call with
        result := some sec.result, sent := call.sent + 1 }).deleteAt idx with
      locked := some { sec with pending := rest } }
  | unlock {sec : Section V} : s.locked = some sec → sec.pending = [] →
    Stepped .unlock { s with
      locked := none
      reading := if sec.owner = .reader then s.reading.after else s.reading
      checking := if sec.owner = .leaderCheck then none else s.checking }

variable {σ s}

theorem stepped_grant {s' : RSM R V S} {i : ℕ} {order : List ℤ} (h : s.grant i order = some s') :
    Stepped σ s (.grant i order : Action R D) s' := by
  simp only [grant] at h
  split at h
  · rename_i g hlocked hg
    split at h
    · rename_i c
      simp only [submitSection] at h
      split at h
      · cases h
      · rename_i call hcall
        split at h
        · rename_i hphase; cases h; exact .identify hlocked hg hcall hphase
        · rename_i hphase hindex; cases h; exact .register hlocked hg hcall hphase hindex
        · rename_i hphase hindex; cases h; exact .unregister hlocked hg hcall hphase hindex
        · cases h
    · rename_i hsub
      simp only [beginSection] at h
      split at h
      · rename_i hperm; cases h; exact .beginSection hlocked hg hsub hperm
      · cases h
  · cases h

theorem stepped_send {s' : RSM R V S} (h : s.send = some s') :
    Stepped σ s (.send : Action R D) s' := by
  simp only [send] at h
  split at h
  · cases h
  · rename_i sec hsec
    split at h
    · cases h
    · rename_i idx rest hpending
      split at h
      · cases h
      · rename_i c hc
        split at h
        · cases h
        · rename_i call hcall
          split at h
          · cases h
          · rename_i hresult
            have hnone : call.result = none := by simpa using hresult
            by_cases hd : sec.deletes = true
            · rw [if_pos hd] at h
              cases h
              exact .sendDelete hsec hpending hc hcall hnone hd
            · rw [if_neg hd] at h
              cases h
              exact .send hsec hpending hc hcall hnone (by simpa using hd)

theorem stepped {s' : RSM R V S} {x : Action R D} (h : s.step σ x = some s') :
    Stepped σ s x s' := by
  cases x with
  | submit req => cases h; exact .submit req
  | start c answer =>
    simp only [step, start] at h
    split at h
    · cases h
    · rename_i hcall
      split at h
      · rename_i hphase; cases h; exact .notLeader hcall hphase
      · rename_i hphase; cases h; exact .start hcall hphase
      · cases h
  | receive c =>
    simp only [step, receive] at h
    split at h
    · cases h
    · rename_i hcall
      split at h
      · rename_i hphase hresult; cases h; exact .receive hcall hphase hresult
      · cases h
  | message m =>
    simp only [step, message] at h
    split at h
    · rename_i hidle
      split at h
      · cases h; exact .restore hidle
      split at h
      · cases h; exact .ignore m
      split at h
      · cases h; exact .ignore m
      · rename_i hm; cases h; exact .doOp hidle hm
    · cases h
  | close =>
    simp only [step, close] at h
    split at h
    · rename_i hidle; cases h; exact .close hidle
    · cases h
  | tick currTerm =>
    simp only [step, tick] at h
    split at h
    · rename_i hnone; cases h; exact .tick hnone
    · cases h
  | grant i order => exact stepped_grant h
  | send => exact stepped_send h
  | unlock =>
    simp only [step, unlock] at h
    split at h
    · cases h
    · rename_i sec hsec
      split at h
      · rename_i hp; cases h; exact .unlock hsec hp
      · cases h

/-! ## A server that adds up -/

/-- The server adds the numbers that it gets, and answers with the sum. -/
def adder : StateMachine ℕ ℕ ℕ ℕ where
  doOp sum n := (sum + n, sum + n)
  snapshot sum := sum
  restore _ data := data.getD 0

/-- The RSM of the server on peer 0. -/
def made : RSM ℕ ℕ ℕ := make 0 0

/-- A committed request. -/
def committed (index : ℤ) (req : ℕ) (id : BitVec 64) : ApplyMsg (Op ℕ) ℕ where
  commandValid := true
  command := some ⟨req, id⟩
  commandIndex := index

/-- Call `c` begins, gets its index, and registers. -/
def registers (c req : ℕ) (index term : ℤ) : List (Action ℕ ℕ) :=
  [.submit req, .grant 0 [], .start c (some (index, term)), .grant 0 []]

end RSM

end CollabIde
