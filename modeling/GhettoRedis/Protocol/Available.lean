import GhettoRedis.Protocol.Encoding

/-!
# Serving the receive window

The steps of `on_data_available` before and after `handle_command`, and the flush of
`reactor_epoll_flush`.
-/
namespace GhettoRedis.Protocol

open Lib

/-- What `on_data_available` meets at the front of the window: nothing to do, a request
it refuses, or one to hand to `handle_command`. -/
inductive Head where
  | nothing
  | malformed (reply : Write)
  | request (args : CmdArgs)

/-- The `switch (err)` of `on_data_available`. -/
def Head.ofParse : Except ParseError CmdArgs → Head
  | .ok args => .request args
  | .error .incomplete => .nothing
  | .error .error => .malformed (writeSimpleGenericError (asciiBytes "parse error"))
  | .error .invalidArgc => .malformed (writeSimpleGenericError (asciiBytes "invalid argc"))

namespace Conn

def parse (conn : Conn) (mem : Mem) : Except ParseError CmdArgs :=
  if mem conn.recv.start = asterisk then parseRespRequest mem conn.recv
  else parseInlineRequest mem conn.recv

def head (conn : Conn) (mem : Mem) : Head :=
  if conn.recv.size < 1 then .nothing else .ofParse (conn.parse mem)

/-- The error reply, then `conn->flags |= END`. -/
def refuse (conn : Conn) (reply : Write) : Conn :=
  { conn.write reply with flags := { conn.flags with ending := true } }

/-- The rest of `on_data_available` behind `handle_command`: its result and the connection.
`answered` tells whether the request has a reply. -/
def finish (conn : Conn) (args : CmdArgs) (answered : Bool) : Bool × Conn :=
  if conn.flags.ending then (false, conn)
  else if le : args.len.toNat ≤ conn.recv.size then
    (decide (0 < conn.recv.size - args.len.toNat),
      { conn with
        recv := conn.recv.consume args.len.toNat le
        answered := if answered then conn.answered + 1 else conn.answered })
  else (false, conn)

/-- Everything in `send_buf` is written to the socket. -/
def flush (conn : Conn) : Conn := { conn with sendBuf := [] }

/-- A successful `read`. -/
def receive (conn : Conn) (data : Bytes)
    (fits : conn.recv.size + data.length ≤ messageMaxLength) : Conn :=
  { conn with recv := conn.recv.receive data fits }

/-- The `memmove` of a `read` that returned no data. -/
def compact (conn : Conn) : Conn :=
  conn.receive [] (by have := conn.recv.inside; simp only [List.length_nil]; omega)

end Conn

/-! ### The window in memory -/

namespace RecvBuf

variable (b : RecvBuf)

@[simp] theorem window_length : b.window.length = b.size := by simp [window]

theorem window_eq {window : Bytes} (same : window.length = b.size)
    (stands : ∀ i, (h : i < window.length) → b.bytes (b.read + i) = window.get ⟨i, h⟩) :
    b.window = window :=
  List.ext_get (by rw [b.window_length, same]) fun i h h' => by
    simpa [RecvBuf.window] using stands i h'

theorem window_consume {len : ℕ} (le : len ≤ b.size) :
    (b.consume len le).window = b.window.drop len := by
  refine window_eq _ (by simp [consume]) fun i h => ?_
  simp [consume, window, Nat.add_assoc]

theorem window_receive (data : Bytes) (fits : b.size + data.length ≤ messageMaxLength) :
    (b.receive data fits).window = b.window ++ data := by
  refine window_eq _ (by simp [receive]) fun i h => ?_
  simp only [List.length_append, window_length] at h
  simp only [receive, Nat.zero_add, List.get_eq_getElem, List.getElem_append, window_length]
  split
  next old => simp [window]
  next new => simp [List.getD, List.getElem?_eq_getElem (show i - b.size < data.length by omega)]

end RecvBuf

namespace Conn

/-- The byte behind the window: the next one of the buffer or, when the window ends with
the buffer, the low byte of `send_buf_size`. -/
def behind (conn : Conn) : UInt8 :=
  if conn.recv.read + conn.recv.size < messageMaxLength then
    conn.recv.bytes (conn.recv.read + conn.recv.size)
  else UInt8.ofNat conn.sendBuf.length

theorem mem_at (conn : Conn) (outside : Mem) {i : ℕ} (inside : i < messageMaxLength) :
    conn.mem outside (conn.recv.addr + BitVec.ofNat 64 i) = conn.recv.bytes i := by
  have offset : (conn.recv.addr + BitVec.ofNat 64 i - conn.recv.addr).toNat = i := by
    simp only [messageMaxLength] at inside
    rw [BitVec.add_comm, BitVec.add_sub_cancel, BitVec.toNat_ofNat, Nat.mod_eq_of_lt (by omega)]
  simp only [mem, offset, if_pos inside]

theorem mem_sendBufSize (conn : Conn) (outside : Mem) :
    conn.mem outside (conn.recv.addr + BitVec.ofNat 64 messageMaxLength) =
      UInt8.ofNat conn.sendBuf.length := by
  have offset : (conn.recv.addr + BitVec.ofNat 64 messageMaxLength - conn.recv.addr).toNat =
      messageMaxLength := by
    rw [BitVec.add_comm, BitVec.add_sub_cancel]
    rfl
  simp only [mem, offset, if_neg (Nat.lt_irrefl _)]
  simp

/-- Whatever lies outside the connection, its parsers see its window. -/
theorem shows (conn : Conn) (outside : Mem) :
    Shows (conn.mem outside) conn.recv conn.recv.window conn.behind := by
  have inside := conn.recv.inside
  refine ⟨conn.recv.window_length, fun i h => ?_, ?_⟩
  · rw [conn.recv.window_length] at h
    rw [RecvBuf.start, add_ofNat_add, mem_at _ _ (by omega)]
    simp [RecvBuf.window]
  · rw [RecvBuf.stop, RecvBuf.start, add_ofNat_add, behind]
    split
    next more => exact mem_at _ _ more
    next full =>
      rw [show conn.recv.read + conn.recv.size = messageMaxLength by omega]
      exact mem_sendBufSize conn outside

end Conn

end GhettoRedis.Protocol
