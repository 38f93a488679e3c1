import GhettoRedis.Lib.Memory
import GhettoRedis.Lib.Resp
import GhettoRedis.Protocol.Conn

/-!
# The writers

The `write_*` functions of `protocol.c` as they store into `send_buf`. Any sequence of calls whose
output fits leaves its tokens behind the bytes that are already there.
-/
namespace GhettoRedis.Protocol

open Lib

/-- `send_buf` with what lies behind it, and `send_buf_size`. -/
structure SendBuf where
  bytes : ℕ → UInt8
  size : ℕ

namespace SendBuf

variable (b : SendBuf)

def contents : Bytes := load b.bytes 0 b.size

/-- `sprintf` at `send_buf + send_buf_size`, the length that it returns added to it. -/
def sprintf (text : Bytes) : SendBuf where
  bytes := store b.bytes b.size (text ++ [0])
  size := b.size + text.length

def writeSimpleError (pre msg : Bytes) : SendBuf :=
  b.sprintf (asciiBytes "-" ++ cString pre ++ asciiBytes " " ++ cString msg ++ crlf)

def writeSimpleGenericError (msg : Bytes) : SendBuf := b.writeSimpleError (asciiBytes "ERR") msg

/-- `%.*s` with `(int)len`; a negative precision is taken as none. -/
def precise (len : Size) (msg : Bytes) : Bytes :=
  let precision := (len.setWidth 32).toInt
  if precision < 0 then cString msg else cString (msg.take precision.toNat)

def writeSimpleString (msg : Bytes) (len : Size) : SendBuf :=
  b.sprintf (asciiBytes "+" ++ precise len msg ++ crlf)

def writeBulkString (data : Bytes) : SendBuf :=
  let header := dollar :: decimal data.length
  let bytes := store b.bytes b.size (header ++ [0])
  let written := header.length
  -- the line break goes over the NUL of `sprintf`
  let bytes := store bytes (b.size + written) crlf
  let written := written + 2
  let bytes := store bytes (b.size + written) data
  let written := written + data.length
  let bytes := store bytes (b.size + written) crlf
  let written := written + 2
  ⟨bytes, b.size + written⟩

def writeNullBulkString : SendBuf := b.sprintf (asciiBytes "$-1" ++ crlf)

def writeInteger (val : Size) : SendBuf :=
  b.sprintf (asciiBytes ":" ++ decimalInt val.toInt ++ crlf)

def writeArrayHeader (len : Size) : SendBuf := b.sprintf (asterisk :: decimal len.toNat ++ crlf)

end SendBuf

/-! ### Calls -/

/-- A call of one of the writers; the text of `write_simple_string` comes with its length. -/
inductive Call where
  | bulkString (data : Bytes)
  | nullBulkString
  | integer (val : Size)
  | arrayHeader (len : Size)
  | simpleString (msg : Bytes)
  | genericError (msg : Bytes)

namespace Call

def run (b : SendBuf) : Call → SendBuf
  | bulkString data => b.writeBulkString data
  | nullBulkString => b.writeNullBulkString
  | integer val => b.writeInteger val
  | arrayHeader len => b.writeArrayHeader len
  | simpleString msg => b.writeSimpleString msg (BitVec.ofNat 64 msg.length)
  | genericError msg => b.writeSimpleGenericError msg

def write : Call → Write
  | bulkString data => writeBulkString data
  | nullBulkString => writeNullBulkString
  | integer val => writeInteger val
  | arrayHeader len => writeArrayHeader len
  | simpleString msg => writeSimpleString msg msg.length
  | genericError msg => writeSimpleGenericError msg

/-- What the client should read. -/
def token : Call → Resp.Token
  | bulkString data => .reply (.bulkString (some data))
  | nullBulkString => .reply (.bulkString none)
  | integer val => .reply (.integer val.toInt)
  | arrayHeader len => .arrayHeader len.toNat
  | simpleString msg => .reply (.simpleString msg)
  | genericError msg => .reply (.error (asciiBytes "ERR " ++ msg))

/-- Its text has no CR, LF or NUL. -/
def Plain : Call → Prop
  | simpleString msg | genericError msg => cr ∉ msg ∧ lf ∉ msg ∧ 0 ∉ msg
  | bulkString _ | nullBulkString | integer _ | arrayHeader _ => True

end Call

def runCalls (b : SendBuf) (calls : List Call) : SendBuf := calls.foldl Call.run b

/-- What the calls add to `send_buf_size`. -/
def output (calls : List Call) : Bytes := calls.flatMap fun call => call.write.text

/-! ### One call -/

/-- What a call leaves behind: its text at the end of the old bytes, and nothing else changed but
for the NUL behind it. -/
structure Wrote (b b' : SendBuf) (w : Write) : Prop where
  size : b'.size = b.size + w.text.length
  stands : Stands b'.bytes b.size w.text
  before : ∀ i < b.size, b'.bytes i = b.bytes i
  behind : ∀ i, b.size + w.stored ≤ i → b'.bytes i = b.bytes i

section

variable {b b' : SendBuf}

theorem wrote_sprintf (b : SendBuf) (text : Bytes) : Wrote b (b.sprintf text) ⟨text, true⟩ where
  size := rfl
  stands := (stands_store _ _ _).left
  before _ before := store_before before
  behind i behind := store_behind (by simpa [Write.stored] using behind)

/-- The header with its NUL, and then the three copies, each right behind the one before. -/
theorem wrote_bulkString (b : SendBuf) (data : Bytes) :
    Wrote b (b.writeBulkString data) (writeBulkString data) where
  size := by
    simp only [SendBuf.writeBulkString, writeBulkString, crlf, List.length_append, List.length_cons,
      List.length_nil]
  stands := by
    -- `sprintf` and then three copies, one behind the other
    have header := (stands_store b.bytes b.size (dollar :: decimal data.length ++ [0])).left
    have whole := ((header.store crlf).store data).store crlf
    simpa [SendBuf.writeBulkString, writeBulkString, crlf, Nat.add_assoc, Nat.add_comm 3] using whole
  before i before := by
    simp only [SendBuf.writeBulkString]
    rw [store_before (by omega), store_before (by omega), store_before (by omega),
      store_before before]
  behind i behind := by
    simp only [SendBuf.writeBulkString]
    simp only [Write.stored, writeBulkString, crlf, List.length_append, List.length_cons,
      List.length_nil] at behind
    have inside : b.size + (decimal data.length).length + 5 + data.length ≤ i := by
      simp at behind
      omega
    rw [store_behind, store_behind, store_behind, store_behind]
    all_goals
      simp only [crlf, List.length_append, List.length_cons, List.length_nil]
      omega

/-- A length below 2^31 is a precision. -/
theorem precise_length {msg : Bytes} (small : msg.length < 2 ^ 31) :
    SendBuf.precise (BitVec.ofNat 64 msg.length) msg = cString (msg.take msg.length) := by
  have value : ((BitVec.ofNat 64 msg.length).setWidth 32).toInt = msg.length := by
    rw [BitVec.toInt_eq_toNat_cond, BitVec.toNat_setWidth, BitVec.toNat_ofNat]
    omega
  rw [SendBuf.precise, value]
  simp

/-- Each writer stores what its `Write` says. -/
theorem Call.wrote {call : Call} (plain : call.Plain)
    (fits : b.size + call.write.text.length ≤ messageMaxLength) :
    Wrote b (call.run b) call.write := by
  cases call with
  | bulkString data => exact wrote_bulkString b data
  | nullBulkString => exact wrote_sprintf b _
  | integer val => exact wrote_sprintf b _
  | arrayHeader len => exact wrote_sprintf b _
  | genericError msg => exact wrote_sprintf b _
  | simpleString msg =>
    -- the text has no NUL, so the precision takes all of it
    have noNul : cString msg = msg := cString_of_forall fun b member is => plain.2.2 (is ▸ member)
    have small : msg.length < 2 ^ 31 := by
      simp only [Call.write, Protocol.writeSimpleString, List.take_length, noNul,
        List.length_append, messageMaxLength] at fits
      omega
    have text : (simpleString msg).write =
        ⟨asciiBytes "+" ++ SendBuf.precise (BitVec.ofNat 64 msg.length) msg ++ crlf, true⟩ := by
      rw [precise_length small]
      rfl
    rw [text]
    exact wrote_sprintf b _

/-! ### Sequences of calls -/

theorem output_cons (call : Call) (calls : List Call) :
    output (call :: calls) = call.write.text ++ output calls := rfl

theorem runCalls_cons (b : SendBuf) (call : Call) (calls : List Call) :
    runCalls b (call :: calls) = runCalls (call.run b) calls := rfl

/-- The texts of the calls stand one after the other, and the old bytes are as they were. -/
theorem runCalls_wrote {calls : List Call} (plain : ∀ call ∈ calls, call.Plain)
    (fits : b.size + (output calls).length ≤ messageMaxLength) :
    (runCalls b calls).size = b.size + (output calls).length ∧
      Stands (runCalls b calls).bytes b.size (output calls) ∧
      ∀ i < b.size, (runCalls b calls).bytes i = b.bytes i := by
  induction calls generalizing b with
  | nil => exact ⟨rfl, rfl, fun _ _ => rfl⟩
  | cons call calls ih =>
    rw [output_cons, List.length_append] at fits ⊢
    have wrote := Call.wrote (plain call List.mem_cons_self) (b := b) (by omega)
    have size := wrote.size
    obtain ⟨size', stands, before⟩ := @ih (call.run b)
      (fun c member => plain c (List.mem_cons_of_mem _ member)) (by omega)
    rw [size] at stands
    rw [runCalls_cons]
    refine ⟨by omega, ?_, ?_⟩
    · -- the later calls leave the text of this one alone
      apply Stands.append _ stands
      exact wrote.stands.congr fun i inside => before _ (by omega)
    · intro i old
      exact (before i (by omega)).trans (wrote.before i old)

/-- The buffer goes on as `Conn.write` says. -/
theorem runCalls_contents {calls : List Call} {conn : Conn} (plain : ∀ call ∈ calls, call.Plain)
    (fits : b.size + (output calls).length ≤ messageMaxLength) (same : conn.sendBuf = b.contents) :
    ((calls.map Call.write).foldl Conn.write conn).sendBuf = (runCalls b calls).contents := by
  obtain ⟨size, stands, before⟩ := runCalls_wrote plain fits
  have model : ((calls.map Call.write).foldl Conn.write conn).sendBuf = conn.sendBuf ++ output calls := by
    clear plain fits same size stands before
    induction calls generalizing conn with
    | nil => simp [output]
    | cons call calls ih =>
      rw [List.map_cons, List.foldl_cons, ih, output_cons, ← List.append_assoc]
      rfl
  have old : load (runCalls b calls).bytes 0 b.size = b.contents :=
    load_congr fun i inside => by simpa using before i inside
  calc ((calls.map Call.write).foldl Conn.write conn).sendBuf
      = load (runCalls b calls).bytes 0 b.size ++ load (runCalls b calls).bytes b.size
          (output calls).length := by rw [model, same, old, stands]
    _ = (runCalls b calls).contents := by rw [SendBuf.contents, size, load_add, Nat.zero_add]

end

/-! ### Tokens -/

theorem cString_of_plain {msg : Bytes} (plain : 0 ∉ msg) : cString msg = msg :=
  cString_of_forall fun _ member is => plain (is ▸ member)

/-- The text of a call is its token. -/
theorem Call.text_eq {call : Call} (plain : call.Plain) :
    call.write.text = Resp.encodeToken call.token := by
  cases call with
  | bulkString data =>
    simp only [Call.write, writeBulkString, Call.token, Resp.encodeToken, Resp.encodeReply,
      List.append_assoc, List.cons_append]
    rfl
  | nullBulkString => rfl
  | integer val => rfl
  | arrayHeader len => rfl
  | simpleString msg =>
    simp only [Call.write, writeSimpleString, List.take_length, cString_of_plain plain.2.2]
    rfl
  | genericError msg =>
    simp only [Call.write, writeSimpleGenericError, writeSimpleError, cString_of_plain plain.2.2,
      show cString (asciiBytes "ERR") = asciiBytes "ERR" by decide]
    rfl

/-- Without a CR a text has no line break. -/
theorem Call.token_oneLine {call : Call} (plain : call.Plain) : call.token.OneLine := by
  cases call with
  | bulkString data | nullBulkString | integer val | arrayHeader len => trivial
  | simpleString msg => exact Resp.not_hasBreak_of_not_mem plain.1
  | genericError msg =>
    apply Resp.not_hasBreak_of_not_mem
    rw [List.mem_append, not_or]
    exact ⟨by decide, plain.1⟩

/-- The bytes that the calls added. -/
def SendBuf.added (b b' : SendBuf) : Bytes := load b'.bytes b.size (b'.size - b.size)

/-- What the calls add reads back as their tokens, to its last byte, and what was there before is
as it was. -/
theorem replies_decode (calls : List Call) (b : SendBuf) (plain : ∀ call ∈ calls, call.Plain)
    (fits : b.size + (output calls).length ≤ messageMaxLength) :
    Resp.decodeAll (b.added (runCalls b calls)) = some (calls.map Call.token) ∧
      ∀ i < b.size, (runCalls b calls).bytes i = b.bytes i := by
  obtain ⟨size, stands, before⟩ := runCalls_wrote plain fits
  have added : b.added (runCalls b calls) = output calls := by
    rw [SendBuf.added, size, Nat.add_sub_cancel_left]
    exact stands
  have text : output calls = Resp.encodeTokens (calls.map Call.token) := by
    rw [output, Resp.encodeTokens, List.flatMap_map]
    exact List.flatMap_congr fun call member => Call.text_eq (plain call member)
  have oneLine : ∀ token ∈ calls.map Call.token, token.OneLine := by
    intro token member
    obtain ⟨call, isCall, rfl⟩ := List.mem_map.mp member
    exact Call.token_oneLine (plain call isCall)
  rw [added, text]
  exact ⟨Resp.decodeAll_encodeTokens oneLine, before⟩

/-- An array of a bulk string and a number, and then an error, behind two old bytes. -/
theorem replies_decode_array :
    let b : SendBuf := ⟨fun _ => 36, 2⟩
    let calls := [.arrayHeader 2, .bulkString [13, 10], .integer (BitVec.allOnes 64),
      .genericError (asciiBytes "no")]
    Resp.decodeAll (b.added (runCalls b calls)) = some (calls.map Call.token) ∧
      ∀ i < b.size, (runCalls b calls).bytes i = b.bytes i := by
  intro b calls
  apply replies_decode calls b
  · intro call member
    simp only [calls, List.mem_cons, List.not_mem_nil, or_false] at member
    rcases member with rfl | rfl | rfl | rfl
    · trivial
    · trivial
    · trivial
    · exact ⟨by decide, by decide, by decide⟩
  · decide

end GhettoRedis.Protocol
