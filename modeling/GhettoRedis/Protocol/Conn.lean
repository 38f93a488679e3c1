import Mathlib.Data.List.TakeWhile
import GhettoRedis.Lib.Decimal

/-!
# Connections and replies

The `Conn` of `protocol.h` as far as the modelled functions use it, and the
`write_*` functions of `protocol.c`.
-/
namespace GhettoRedis.Protocol

open Lib

/-- `MESSAGE_MAX_LENGTH` -/
def messageMaxLength : ℕ := 8192

/-- `MAX_ARGC` -/
def maxArgc : ℕ := 64

def asciiBytes (s : String) : Bytes := s.toList.map fun c => UInt8.ofNat c.toNat

def cr : UInt8 := 13
def lf : UInt8 := 10
def space : UInt8 := 32
def asterisk : UInt8 := 42
def dollar : UInt8 := 36

/-- `CRLF` -/
def crlf : Bytes := [cr, lf]

/-! ### The receive buffer -/

/-- `recv_buf` with the window `recv_buf_read`, `recv_buf_size` into it. `send_buf` and
its two sizes (16 bytes) lie behind it in the same object, so no address near it wraps. -/
structure RecvBuf where
  addr : Size
  bytes : ℕ → UInt8
  read : ℕ
  size : ℕ
  inside : read + size ≤ messageMaxLength
  addressable : addr.toNat + (2 * messageMaxLength + 16) ≤ 2 ^ 64

namespace RecvBuf

/-- Zeroed by `on_accept`. -/
def fresh (addr : Size) (addressable : addr.toNat + (2 * messageMaxLength + 16) ≤ 2 ^ 64) :
    RecvBuf where
  addr := addr
  bytes _ := 0
  read := 0
  size := 0
  inside := Nat.zero_le _
  addressable := addressable

/-- One of the addresses that a buffer can have. -/
theorem addressable_first : (65536 : Size).toNat + (2 * messageMaxLength + 16) ≤ 2 ^ 64 := by decide

/-- `conn->recv_buf + conn->recv_buf_read` -/
def start (b : RecvBuf) : Size := b.addr + BitVec.ofNat 64 b.read

/-- The address behind the window. -/
def stop (b : RecvBuf) : Size := b.start + BitVec.ofNat 64 b.size

/-- The received bytes that have not been consumed. -/
def window (b : RecvBuf) : Bytes := (List.range b.size).map fun i => b.bytes (b.read + i)

/-- `reactor_epoll_on_epollin`: the window moves to the front of the buffer and the
bytes that `read` returned go behind it. -/
def receive (b : RecvBuf) (data : Bytes) (fits : b.size + data.length ≤ messageMaxLength) :
    RecvBuf where
  addr := b.addr
  bytes i :=
    if i < b.size then b.bytes (b.read + i)
    else if i < b.size + data.length then data.getD (i - b.size) 0
    else b.bytes i
  read := 0
  size := b.size + data.length
  inside := by omega
  addressable := b.addressable

/-- A request of `len` bytes is done with. -/
def consume (b : RecvBuf) (len : ℕ) (le : len ≤ b.size) : RecvBuf where
  addr := b.addr
  bytes := b.bytes
  read := b.read + len
  size := b.size - len
  inside := by have := b.inside; omega
  addressable := b.addressable

end RecvBuf

/-! ### The connection -/

/-- The two flags that are ever set; `ending` is `END`. -/
structure ConnFlags where
  dispatchWaiting : Bool
  ending : Bool

/-- `sendBuf` holds the `send_buf_size` bytes of `send_buf`; `send_buf_sent` is zero
outside of `reactor_epoll_flush`. `answered` is not in the code: it counts the requests
consumed so far that have a reply, and so numbers the next one. -/
structure Conn where
  shardId : ℕ
  flags : ConnFlags
  db : Size
  recv : RecvBuf
  sendBuf : Bytes
  answered : ℕ

namespace Conn

/-- `on_accept` -/
def accepted (shardId : ℕ) (recv : RecvBuf) : Conn where
  shardId := shardId
  flags := ⟨false, false⟩
  db := 0
  recv := recv
  sendBuf := []
  answered := 0

/-- The memory that a parser reads: the buffer, the eight bytes of `send_buf_size` behind
it, and whatever lies elsewhere. -/
def mem (conn : Conn) (outside : Mem) : Mem := fun a =>
  let offset := (a - conn.recv.addr).toNat
  if offset < messageMaxLength then conn.recv.bytes offset
  else if offset < messageMaxLength + 8 then
    UInt8.ofNat (conn.sendBuf.length / 256 ^ (offset - messageMaxLength))
  else outside a

end Conn

/-! ### Replies -/

/-- What one `write_*` call stores at `send_buf + send_buf_size`: the bytes it adds to
`send_buf_size` and, behind them, the NUL of `sprintf`. -/
structure Write where
  text : Bytes
  nul : Bool
  deriving DecidableEq

namespace Write

/-- How many bytes the call stores. -/
def stored (w : Write) : ℕ := w.text.length + if w.nul then 1 else 0

end Write

def Conn.write (conn : Conn) (w : Write) : Conn := { conn with sendBuf := conn.sendBuf ++ w.text }

/-- What `%s` prints: the bytes before the first NUL. -/
def cString (s : Bytes) : Bytes := s.takeWhile (· ≠ 0)

theorem cString_of_forall {s : Bytes} (plain : ∀ b ∈ s, b ≠ 0) : cString s = s := by
  apply List.takeWhile_eq_self_iff.mpr
  simpa using plain

theorem ne_zero_of_mem_cString {s : Bytes} {b : UInt8} (mem : b ∈ cString s) : b ≠ 0 := by
  simpa using List.mem_takeWhile_imp mem

def writeSimpleError (pre msg : Bytes) : Write :=
  ⟨asciiBytes "-" ++ cString pre ++ asciiBytes " " ++ cString msg ++ crlf, true⟩

def writeSimpleGenericError (msg : Bytes) : Write := writeSimpleError (asciiBytes "ERR") msg

def writeSimpleString (msg : Bytes) (len : ℕ) : Write :=
  ⟨asciiBytes "+" ++ cString (msg.take len) ++ crlf, true⟩

def writeBulkString (data : Bytes) : Write :=
  ⟨dollar :: decimal data.length ++ crlf ++ data ++ crlf, false⟩

def writeNullBulkString : Write := ⟨asciiBytes "$-1" ++ crlf, true⟩

def writeInteger (val : Size) : Write := ⟨asciiBytes ":" ++ decimalInt val.toInt ++ crlf, true⟩

def writeArrayHeader (len : Size) : Write := ⟨asterisk :: decimal len.toNat ++ crlf, true⟩

end GhettoRedis.Protocol
