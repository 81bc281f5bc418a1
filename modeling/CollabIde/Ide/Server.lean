import Mathlib.Logic.Function.Basic
import CollabIde.Ide.Commands

/-!
# The replicated sessions

The state machine under the editor: the sessions by their invite codes, and what a committed
command does to them. A document is what the last update brought: `none` as long as it has no bytes.
-/

namespace CollabIde

/-- A pending suggested change. -/
structure Proposal where
  id : String
  author : String := ""
  replacement : String := ""
  originalText : String := ""
  relStart : String := ""
  relEnd : String := ""
  startLine : Int := 0
  endLine : Int := 0
  deriving DecidableEq

structure SessionState (U : Type) where
  doc : Option U := none
  proposals : String → Option Proposal := fun _ => none
  roles : String → Option String := fun _ => none
  creator : String := ""

/-- The sessions by their codes. -/
abbrev Sessions (U : Type) : Type := String → Option (SessionState U)

namespace Sessions

variable {U : Type} (ss : Sessions U)

def getOrCreate (code : String) : SessionState U := (ss code).getD {}

def set (code : String) (st : SessionState U) : Sessions U := Function.update ss code (some st)

def sessionExists (code : String) : Bool := (ss code).isSome

def getDoc (code : String) : Option U := (ss code).bind SessionState.doc

/-- The role of a user, "viewer" by default. -/
def getRole (code userID : String) : String :=
  ((ss code).bind fun st => st.roles userID).getD "viewer"

def doProposal (c : ProposalCmd) : Sessions U :=
  let st := ss.getOrCreate c.sessionCode
  ss.set c.sessionCode <| match c.action with
    | "add" => { st with
        proposals := Function.update st.proposals c.id (some {
          id := c.id, author := c.author, replacement := c.replacement
          originalText := c.originalText, relStart := c.relStart, relEnd := c.relEnd
          startLine := c.startLine, endLine := c.endLine }) }
    | "accept" | "reject" => { st with proposals := Function.update st.proposals c.id none }
    | _ => st

def doSession (c : SessionCmd) : Sessions U :=
  let st := ss.getOrCreate c.code
  match c.action with
  | "create" => ss.set c.code
      { st with creator := c.userID, roles := Function.update st.roles c.userID (some "editor") }
  | "join" => ss.set c.code <| if (st.roles c.userID).isSome then st
      else { st with roles := Function.update st.roles c.userID (some "viewer") }
  | _ => ss

/-- `DoOp`. -/
def doOp : Cmd U → Sessions U
  | .crdtUpdate c =>
    ss.set c.sessionCode { ss.getOrCreate c.sessionCode with doc := some c.update }
  | .proposal c => ss.doProposal c
  | .roleChange c =>
    let st := ss.getOrCreate c.sessionCode
    ss.set c.sessionCode { st with roles := Function.update st.roles c.userID (some c.role) }
  | .session c => ss.doSession c

/-! ## What commands do to documents -/

theorem getDoc_set {code : String} {st : SessionState U} (code' : String) :
    (ss.set code st).getDoc code' = if code' = code then st.doc else ss.getDoc code' := by
  unfold getDoc set
  split
  · rename_i h
    subst h
    rw [Function.update_self]
    rfl
  · rename_i h
    rw [Function.update_of_ne h]

theorem getOrCreate_doc (code : String) : (ss.getOrCreate code).doc = ss.getDoc code := by
  unfold getOrCreate getDoc
  cases ss code <;> rfl

/-- The session's state with other fields and the same document. -/
theorem getDoc_set_same {code : String} {st : SessionState U}
    (h : st.doc = (ss.getOrCreate code).doc) (code' : String) :
    (ss.set code st).getDoc code' = ss.getDoc code' := by
  rw [getDoc_set]
  split
  · rename_i hc
    rw [hc, h, getOrCreate_doc]
  · rfl

theorem getDoc_doProposal (c : ProposalCmd) (code : String) :
    (ss.doProposal c).getDoc code = ss.getDoc code := by
  refine getDoc_set_same ss ?_ code
  split <;> rfl

theorem getDoc_doSession (c : SessionCmd) (code : String) :
    (ss.doSession c).getDoc code = ss.getDoc code := by
  unfold doSession
  split
  · exact getDoc_set_same ss (by rfl) code
  · refine getDoc_set_same ss ?_ code
    split <;> rfl
  · rfl

/-- Only updates change documents. -/
theorem getDoc_doOp (cmd : Cmd U) (code : String) : (ss.doOp cmd).getDoc code =
    match cmd with
    | .crdtUpdate c => if code = c.sessionCode then some c.update else ss.getDoc code
    | _ => ss.getDoc code := by
  cases cmd with
  | crdtUpdate c => exact getDoc_set ss code
  | proposal c => exact getDoc_doProposal ss c code
  | roleChange c => exact getDoc_set_same ss (by rfl) code
  | session c => exact getDoc_doSession ss c code

end Sessions

end CollabIde
