/-!
# The commands of the editor

What `Server.submit` gives to Raft. `U` are the updates of documents: the bytes of a Yjs update, or
a set of edits where a document is modelled as one.
-/

namespace CollabIde

/-- A client has sent a document update. -/
structure CRDTUpdateCmd (U : Type) where
  sessionCode : String
  update : U
  deriving DecidableEq

/-- A proposer suggests a change, or an editor accepts or rejects one. -/
structure ProposalCmd where
  sessionCode : String
  id : String
  author : String
  replacement : String
  originalText : String
  relStart : String
  relEnd : String
  startLine : Int
  endLine : Int
  action : String
  deriving DecidableEq

/-- An editor changes the role of a user. -/
structure RoleChangeCmd where
  sessionCode : String
  userID : String
  role : String
  deriving DecidableEq

/-- A session is created, or a user joins it. -/
structure SessionCmd where
  action : String
  code : String
  userID : String
  role : String
  deriving DecidableEq

/-- What `DoOp` distinguishes. -/
inductive Cmd (U : Type) where
  | crdtUpdate (c : CRDTUpdateCmd U)
  | proposal (c : ProposalCmd)
  | roleChange (c : RoleChangeCmd)
  | session (c : SessionCmd)
  deriving DecidableEq

/-- The document update of a command. -/
def Cmd.update {U : Type} : Cmd U → Option (CRDTUpdateCmd U)
  | .crdtUpdate c => some c
  | _ => none

end CollabIde
