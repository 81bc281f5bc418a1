import Mathlib.Algebra.Ring.Nat
import CollabIde.Lib.Framing

/-!
# Calls on a connection

`transport` writes a message as its length, in four bytes, and its encoding. The reader of a
connection that breaks off anywhere gets exactly the messages that have come as a whole, and then
an error: `io.EOF` where a message begins, but also between a length and its message
(`readCalls_of_prefix`). A message of 2^32 bytes or more cannot be written.
-/

namespace CollabIde

/-- A message: a request or a reply with the tag of its call. -/
structure Msg (B : Type) where
  tag : UInt32
  data : B
  ok : Bool

/-- `Marshall` and `Unmarshall` of messages; where `Unmarshall` gives `none` it stops the
program. -/
structure MsgCodec (B : Type) where
  marshall : Msg B → List UInt8
  unmarshall : List UInt8 → Option (Msg B)
  unmarshall_marshall : ∀ m, unmarshall (marshall m) = some m

namespace Transport

inductive ReadErr where
  | eof
  | unexpectedEOF
  /-- The program has been stopped. -/
  | fatal
  deriving DecidableEq

/-- `io.ReadFull`. -/
def readFull (n : ℕ) (l : List UInt8) : Except ReadErr (List UInt8 × List UInt8) :=
  if n ≤ l.length then .ok (l.take n, l.drop n)
  else if l = [] then .error .eof else .error .unexpectedEOF

/-- `binary.Write` of a `uint32`. -/
def putUint32 (n : ℕ) : List UInt8 :=
  [.ofNat n, .ofNat (n / 256), .ofNat (n / 65536), .ofNat (n / 16777216)]

def uint32 : List UInt8 → ℕ
  | [a, b, c, d] => a.toNat + 256 * b.toNat + 65536 * c.toNat + 16777216 * d.toNat
  | _ => 0

variable {B : Type} (codec : MsgCodec B)

def readCall (l : List UInt8) : Except ReadErr (Msg B × List UInt8) := do
  let (nbyte, l) ← readFull 4 l
  let (b, l) ← readFull (uint32 nbyte) l
  match codec.unmarshall b with
  | some m => .ok (m, l)
  | none => .error .fatal

def writeCall (m : Msg B) : List UInt8 :=
  let b := codec.marshall m
  putUint32 b.length ++ b

/-! ## What is read -/

theorem uint32_putUint32 {n : ℕ} (h : n < 2 ^ 32) : uint32 (putUint32 n) = n := by
  simp only [putUint32, uint32, UInt8.toNat_ofNat']
  omega

theorem readFull_append (b l : List UInt8) : readFull b.length (b ++ l) = .ok (b, l) := by
  rw [readFull, if_pos (by rw [List.length_append]; omega), List.take_left, List.drop_left]

theorem readFull_short {n : ℕ} {l : List UInt8} (h : l.length < n) :
    readFull n l = .error (if l = [] then .eof else .unexpectedEOF) := by
  rw [readFull, if_neg (by omega)]
  split <;> rfl

variable {codec} {m : Msg B}

theorem readCall_writeCall (l : List UInt8) (h : (codec.marshall m).length < 2 ^ 32) :
    readCall codec (writeCall codec m ++ l) = .ok (m, l) := by
  have hlen := readFull_append (putUint32 (codec.marshall m).length) (codec.marshall m ++ l)
  change readFull 4 _ = _ at hlen
  simp only [readCall, writeCall, List.append_assoc, hlen, bind, Except.bind, uint32_putUint32 h,
    readFull_append, codec.unmarshall_marshall]

/-- The error for a part of a message. -/
def partErr (rest : List UInt8) : ReadErr :=
  if rest.length = 0 ∨ rest.length = 4 then .eof else .unexpectedEOF

theorem readCall_part {rest : List UInt8} (h : (codec.marshall m).length < 2 ^ 32)
    (hpre : rest <+: writeCall codec m) (hne : rest ≠ writeCall codec m) :
    readCall codec rest = .error (partErr rest) := by
  have hlen : (putUint32 (codec.marshall m).length).length = 4 := rfl
  by_cases hshort : rest.length < 4
  · -- the length is not there as a whole
    simp only [readCall, readFull_short hshort, bind, Except.bind, partErr]
    have hiff : (rest.length = 0 ∨ rest.length = 4) ↔ rest = [] := by
      rw [← List.length_eq_zero_iff]
      omega
    simp only [hiff]
  · obtain ⟨b, rfl⟩ : putUint32 (codec.marshall m).length <+: rest :=
      List.prefix_of_prefix_length_le (List.prefix_append _ _) hpre (by omega)
    have hb : b <+: codec.marshall m := (List.prefix_append_right_inj _).mp hpre
    have hb' : b.length < (codec.marshall m).length := by
      refine lt_of_le_of_ne hb.length_le fun hlen => hne ?_
      rw [writeCall, hb.eq_of_length hlen]
    have hread := readFull_append (putUint32 (codec.marshall m).length) b
    change readFull 4 _ = _ at hread
    simp only [readCall, hread, bind, Except.bind, uint32_putUint32 h, readFull_short hb', partErr,
      List.length_append, hlen]
    have hiff : (4 + b.length = 0 ∨ 4 + b.length = 4) ↔ b = [] := by
      rw [← List.length_eq_zero_iff]
      omega
    simp only [hiff]

variable (codec) in
/-- Messages as frames. -/
def framing : Framing (Msg B) UInt8 ReadErr where
  write := writeCall codec
  read := readCall codec
  Fits m := (codec.marshall m).length < 2 ^ 32
  read_write l h := readCall_writeCall l h
  read_nil := ⟨_, rfl⟩
  read_part h hpre hne := ⟨_, readCall_part h hpre hne⟩

/-- **A connection loses the end of what was written, and nothing else**: where it breaks off, the
reader has got the messages that have come as a whole, and gets an error that says where in a
message it is. -/
theorem readCalls_of_prefix {ms : List (Msg B)} {l : List UInt8}
    (h : ∀ m ∈ ms, (codec.marshall m).length < 2 ^ 32) (hl : l <+: ms.flatMap (writeCall codec)) :
    ∃ k rest, l = (ms.take k).flatMap (writeCall codec) ++ rest ∧ (framing codec).Part ms k rest ∧
      ∀ bs e, (framing codec).Reads l bs e ↔ bs = ms.take k ∧ e = partErr rest := by
  obtain ⟨k, rest, hl, hpart, hreads⟩ := Framing.reads_of_prefix (F := framing codec) h hl
  refine ⟨k, rest, hl, hpart, fun bs e => ?_⟩
  have hread : readCall codec rest = .error (partErr rest) := by
    cases hpart with
    | none _ => rfl
    | part hm hpre hne => exact readCall_part (h _ (List.mem_of_getElem? hm)) hpre hne
  rw [hreads, show (framing codec).read rest = _ from hread, Except.error.injEq, eq_comm (a := e)]

/-- Messages as their fields. -/
def plainCodec : MsgCodec (List UInt8) where
  marshall m := putUint32 m.tag.toNat ++ (if m.ok then 1 else 0) :: m.data
  unmarshall
    | a :: b :: c :: d :: ok :: data => some ⟨.ofNat (uint32 [a, b, c, d]), data, ok = 1⟩
    | _ => none
  unmarshall_marshall m := by
    obtain ⟨tag, data, ok⟩ := m
    have htag : UInt32.ofNat (uint32 (putUint32 tag.toNat)) = tag := by
      rw [uint32_putUint32 tag.toNat_lt, UInt32.ofNat_toNat]
    simp only [putUint32, List.cons_append, List.nil_append] at htag ⊢
    rw [htag]
    cases ok <;> rfl

/-- The connection breaks off after the length of the second message. -/
theorem readCalls_of_prefix_length : ∃ k rest,
    [(⟨1, [7], true⟩ : Msg (List UInt8))] = [⟨1, [7], true⟩, ⟨2, [8], false⟩].take k ∧
      ReadErr.eof = partErr rest := by
  have hm : ∀ m ∈ [(⟨1, [7], true⟩ : Msg (List UInt8)), ⟨2, [8], false⟩],
      (plainCodec.marshall m).length < 2 ^ 32 := by decide
  obtain ⟨k, rest, -, -, hreads⟩ := readCalls_of_prefix hm
    (l := [6, 0, 0, 0, 1, 0, 0, 0, 1, 7, 6, 0, 0, 0]) (by decide)
  exact ⟨k, rest, (hreads _ _).mp (.frame rfl (.stop rfl))⟩

end Transport

end CollabIde
