import CollabIde.Lib.Gob
import CollabIde.Raft.Handlers

/-!
# The state and the requests of a peer as gob values

`persist` encodes five values one after the other and ignores the errors; `readPersist` decodes
five values and leaves the peer as it is if one of them fails. So a log that cannot be encoded
loses everything (`decodeState_encodeState_none`), as the index is then read in its place.
-/

namespace CollabIde

open Gob

variable {T C : Type} [Concrete T C] {reg : T → Bool}

instance : Codec T (LogEntry C) where
  write reg e := (Codec.write reg e.command).map fun c => .struct [.int e.term, c]
  read
    | .struct [.int t, c] => (Codec.read c).map fun c => ⟨t, c⟩
    | _ => none
  read_write h := by
    obtain ⟨c, hc, rfl⟩ := Option.map_eq_some_iff.mp h
    simp [Codec.read_write hc]

instance : Codec T (AppendEntriesArgs C) where
  write reg args := (Codec.write reg args.entries).map fun es =>
    .struct [.int args.term, .int args.leaderId, .int args.prevLogIndex, .int args.prevLogTerm, es,
      .int args.leaderCommit]
  read
    | .struct [.int t, .int l, .int p, .int pt, es, .int lc] =>
      (Codec.read es).map fun es => ⟨t, l, p, pt, es, lc⟩
    | _ => none
  read_write h := by
    obtain ⟨es, hes, rfl⟩ := Option.map_eq_some_iff.mp h
    simp [Codec.read_write hes]

theorem write_entry_isSome {e : LogEntry C} :
    (Codec.write reg e).isSome ↔ (Codec.write reg e.command).isSome :=
  isSome_map_iff

theorem write_args_isSome {args : AppendEntriesArgs C} :
    (Codec.write reg args).isSome ↔ (Codec.write reg args.entries).isSome :=
  isSome_map_iff

/-- `labrpc.Marshall`; `none` stops the program. -/
def marshall {α : Type} [Codec T α] (reg : T → Bool) (args : α) : Option (Stream T) :=
  (Codec.write reg args).map ([·])

/-- The buffer that `persist` saves. -/
def encodeState (reg : T → Bool) (st : PersistentState C) : Stream T :=
  let w := encode reg [] st.currentTerm
  let w := encode reg w st.votedFor
  let w := encode reg w st.log
  let w := encode reg w st.lastIncludedIndex
  encode reg w st.lastIncludedTerm

/-- What `readPersist` decodes, if it does not return early. -/
def decodeState (data : Stream T) : Option (PersistentState C) := do
  let (currentTerm, d) ← decode ℤ data
  let (votedFor, d) ← decode ℤ d
  let (log, d) ← decode (List (LogEntry C)) d
  let (lastIncludedIndex, d) ← decode ℤ d
  let (lastIncludedTerm, _) ← decode ℤ d
  some ⟨currentTerm, votedFor, log, lastIncludedIndex, lastIncludedTerm⟩

section State

variable (st : PersistentState C)

theorem encodeState_eq : encodeState reg st =
    [.int st.currentTerm, .int st.votedFor] ++ (Codec.write reg st.log).toList ++
      [.int st.lastIncludedIndex, .int st.lastIncludedTerm] := by
  simp [encodeState, encode]

/-- A log that can be encoded is restored with all that stands around it. -/
theorem decodeState_encodeState (h : (Codec.write reg st.log).isSome) :
    decodeState (encodeState reg st) = some st := by
  obtain ⟨v, hv⟩ := Option.isSome_iff_exists.mp h
  rw [encodeState_eq, hv]
  simp only [decodeState, Option.toList_some, List.cons_append, List.nil_append,
    decode_write _ (write_int reg _), decode_write _ hv, Option.bind_eq_bind, Option.bind_some]

theorem decodeState_encodeState_none (h : Codec.write reg st.log = none) :
    decodeState (C := C) (encodeState reg st) = none := by
  rw [encodeState_eq, h]
  simp only [decodeState, Option.toList_none, List.cons_append, List.nil_append,
    decode_write _ (write_int reg _), Option.bind_eq_bind, Option.bind_some]
  rfl

end State

end CollabIde
