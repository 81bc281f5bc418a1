import CollabIde.Ide.Commands
import CollabIde.Raft.Wire

/-!
# What a restart of the shipped program restores

A log entry holds its command as an interface value: an `Op`, whose request is one of the four
commands of the editor. gob sends such a value only if its type is registered. With all five types
registered every log is restored (`decodeState_registered`); the program registers none, so that a
peer's state is restored, and its entries can be sent, exactly if no entry holds a command
(`state_survives_restart`).
-/

namespace CollabIde

open Gob

/-- What `Submit` gives to `Start`. -/
structure Op where
  req : Option (Cmd (List UInt8))
  id : ℤ
  deriving DecidableEq

/-- The concrete types of commands and requests. -/
inductive GoType where
  | op | crdtUpdateCmd | proposalCmd | roleChangeCmd | sessionCmd
  deriving DecidableEq

instance : Concrete GoType (Cmd (List UInt8)) where
  typeOf
    | .crdtUpdate _ => .crdtUpdateCmd
    | .proposal _ => .proposalCmd
    | .roleChange _ => .roleChangeCmd
    | .session _ => .sessionCmd
  write _
    | .crdtUpdate c => some (.struct [.string c.sessionCode, .bytes c.update])
    | .proposal c => some (.struct [.string c.sessionCode, .string c.id, .string c.author,
        .string c.replacement, .string c.originalText, .string c.relStart, .string c.relEnd,
        .int c.startLine, .int c.endLine, .string c.action])
    | .roleChange c => some (.struct [.string c.sessionCode, .string c.userID, .string c.role])
    | .session c =>
      some (.struct [.string c.action, .string c.code, .string c.userID, .string c.role])
  read
    | .crdtUpdateCmd, .struct [.string s, .bytes u] => some (.crdtUpdate ⟨s, u⟩)
    | .proposalCmd, .struct [.string s, .string i, .string a, .string r, .string o, .string rs,
        .string re, .int sl, .int el, .string ac] =>
      some (.proposal ⟨s, i, a, r, o, rs, re, sl, el, ac⟩)
    | .roleChangeCmd, .struct [.string s, .string u, .string r] => some (.roleChange ⟨s, u, r⟩)
    | .sessionCmd, .struct [.string a, .string c, .string u, .string r] =>
      some (.session ⟨a, c, u, r⟩)
    | _, _ => none
  read_write {_ x _} h := by
    cases x <;> cases h <;> rfl

instance : Concrete GoType Op where
  typeOf _ := .op
  write reg op := (Codec.write reg op.req).map fun r => .struct [r, .int op.id]
  read
    | .op, .struct [r, .int i] => (Codec.read r).map fun r => ⟨r, i⟩
    | _, _ => none
  read_write h := by
    obtain ⟨r, hr, rfl⟩ := Option.map_eq_some_iff.mp h
    simp [Codec.read_write hr]

/-- The program has no call of `Register` or `RegisterName`. -/
def registered : GoType → Bool := fun _ => false

/-- With every type registered, any command can be encoded. -/
theorem write_command_of_registered {reg : GoType → Bool} (hreg : ∀ t, reg t = true)
    (command : Option Op) : (Codec.write reg command).isSome := by
  cases command with
  | none => rfl
  | some op =>
    refine write_some_isSome.mpr ⟨hreg _, ?_⟩
    have hreq : (Codec.write reg op.req).isSome := by
      cases op.req with
      | none => rfl
      | some c => exact write_some_isSome.mpr ⟨hreg _, by cases c <;> rfl⟩
    exact isSome_map_iff.mpr hreq

/-- As the program stands, only nil can be encoded. -/
theorem write_command_isSome {command : Option Op} :
    (Codec.write registered command).isSome ↔ command = none := by
  cases command with
  | none => exact iff_of_true rfl rfl
  | some op =>
    refine iff_of_false (fun h => ?_) (Option.some_ne_none op)
    cases (write_some_isSome.mp h).1

theorem write_log_isSome {log : List (LogEntry Op)} :
    (Codec.write registered log).isSome ↔ ∀ e ∈ log, e.command = none := by
  rw [write_slice_isSome]
  exact forall₂_congr fun e _ => write_entry_isSome.trans write_command_isSome

theorem decodeState_registered {reg : GoType → Bool} (hreg : ∀ t, reg t = true)
    (st : PersistentState Op) : decodeState (encodeState reg st) = some st :=
  decodeState_encodeState st (write_slice_isSome.mpr fun e _ =>
    write_entry_isSome.mpr (write_command_of_registered hreg e.command))

variable {n : ℕ} {D : Type}

/-- A restart restores the five fields, and what a leader with the log sends can be marshalled. -/
structure Survives (me : Fin n) (ps : Persister Op D) (st : PersistentState Op) : Prop where
  restored : ((Raft.blank me ps).readPersist
    (decodeState (encodeState registered st))).persistentState = st
  marshalled : ∀ (rf : Raft n Op D) i args, rf.log = st.log →
    rf.heartbeatTo i = some (.append args) → (marshall registered args).isSome

/-- What a leader sends is from its log. -/
theorem Raft.heartbeatTo_entries {rf : Raft n Op D} {i : Fin n} {args : AppendEntriesArgs Op}
    (h : rf.heartbeatTo i = some (.append args)) : args.entries ⊆ rf.log := by
  unfold heartbeatTo at h
  split at h
  · cases h
  · obtain ⟨prev, -, h⟩ := Option.bind_eq_some_iff.mp h
    obtain ⟨es, hes, h⟩ := Option.bind_eq_some_iff.mp h
    cases h
    exact slice_subset hes

theorem restored_iff (me : Fin n) (ps : Persister Op D) (st : PersistentState Op) :
    ((Raft.blank me ps).readPersist (decodeState (encodeState registered st))).persistentState = st
      ↔ ∀ e ∈ st.log, e.command = none := by
  rw [← write_log_isSome]
  cases hw : Codec.write registered st.log with
  | none =>
    rw [decodeState_encodeState_none st hw]
    refine iff_of_false (fun h => ?_) Bool.false_ne_true
    -- the fresh log holds no command, so it is not the one that could not be encoded
    have hlog : [⟨0, none⟩] = st.log := congrArg PersistentState.log h
    rw [← hlog] at hw
    cases hw
  | some v =>
    rw [decodeState_encodeState st (by rw [hw]; rfl)]
    exact iff_of_true rfl rfl

/-- **A peer's state survives a restart** exactly if its log holds no command. -/
theorem state_survives_restart (me : Fin n) (ps : Persister Op D) (st : PersistentState Op) :
    Survives me ps st ↔ ∀ e ∈ st.log, e.command = none := by
  refine ⟨fun h => (restored_iff me ps st).mp h.restored,
    fun h => ⟨(restored_iff me ps st).mpr h, fun rf i args hlog hargs => ?_⟩⟩
  have hsub := Raft.heartbeatTo_entries hargs
  rw [marshall, Option.isSome_map, write_args_isSome, write_log_isSome]
  exact fun e he => h e (hlog ▸ hsub he)

/-- The log of a peer once its first session has been created. -/
def createdState : PersistentState Op :=
  ⟨1, 0, [⟨0, none⟩, ⟨1, some ⟨some (.session ⟨"create", "abc", "user", "editor"⟩), 1⟩⟩], 0, 0⟩

theorem state_lost : ¬ ∀ st : PersistentState Op, Survives (D := Unit) (0 : Fin 1) ⟨none, none⟩ st :=
  fun h => absurd (congrArg PersistentState.currentTerm (h createdState).restored) (by decide)

end CollabIde
