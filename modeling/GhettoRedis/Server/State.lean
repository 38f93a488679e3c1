import Mathlib.Logic.Function.Basic
import GhettoRedis.Commands.Handle
import GhettoRedis.Protocol.Available

/-!
# The state of the server

Shards that run `reactor_run`, each on a thread of its own, the connections they own
and the messages between them. A shard's program counter says where in the loop its
thread stands, with the values of the local variables that are still needed.
-/
namespace GhettoRedis.Server

open Lib Protocol Commands

/-- The address of a `Conn`; an address is not used again. -/
abbrev ConnId := ℕ

/-! ### Messages -/

/-- `CBContext`, with `index` for the number of the request within its connection, which
the code does not keep. -/
structure CBContext (n : ℕ) where
  src : Fin n
  dst : Fin n
  conn : ConnId
  index : ℕ

/-- A `__cmd_##name##_req` or a `__cmd_##name##_resp` with its context. -/
inductive Message (n : ℕ) where
  | request (ctx : CBContext n) (key : Bytes) (hash : Size) (fields : ReqFields)
  | response (ctx : CBContext n) (fields : RespFields)

def Message.ctx {n : ℕ} : Message n → CBContext n
  | .request ctx _ _ _ => ctx
  | .response ctx _ => ctx

/-- A claimed cell of a queue; `writer` is the shard that has not published it yet. -/
structure Slot (n : ℕ) where
  msg : Message n
  writer : Option (Fin n)

/-! ### Program counters -/

/-- What `epoll_wait` reports: the listener, `wakeup_fd`, or a connection with `EPOLLIN` and
with one of `EPOLLERR`, `EPOLLHUP` and `EPOLLRDHUP`. -/
inductive EpollEvent where
  | listener
  | wakeup
  | conn (c : ConnId) (epollin hup : Bool)
  deriving DecidableEq

/-- Where the loop over `on_data_available` was entered: in `reactor_epoll_on_epollin`, with
the rest of its event and the events behind it, or in `on_cb`. -/
inductive Serving where
  | epollin (hup : Bool) (events : List EpollEvent)
  | onCb (count : ℕ)

/-- The caller of `reactor_wakeup_pending`: the loop, or `cmd_shutdown`. -/
inductive Waking where
  | loop
  | shutdown (c : ConnId) (args : CmdArgs) (k : Serving)

/-- The caller of `reactor_send_message`: a command for connection `c`, or the
`__cmd_##name##_req` of such a command. -/
inductive Sending where
  | request (c : ConnId) (args : CmdArgs) (k : Serving)
  | response (c : ConnId) (count : ℕ)

inductive Pc (n : ℕ) where
  /-- `while (reactor->running)` -/
  | top
  /-- `reactor_flush_pending_writes`, at entry `c` of the connections -/
  | flush (c : ConnId)
  /-- `reactor_wakeup_pending`, at shard `i`; `signal` is before the write to its `wakeup_fd` -/
  | wakeup (i : ℕ) (k : Waking)
  | signal (i : Fin n) (k : Waking)
  /-- `reactor_poll_callbacks`, before `mpmcq_dequeue` -/
  | poll (count : ℕ)
  /-- `on_cb`, before `ctx->cb` and behind it -/
  | callback (count : ℕ) (msg : Message n)
  | onCb (count : ℕ) (c : ConnId)
  /-- before a call of `on_data_available` -/
  | serve (c : ConnId) (k : Serving)
  /-- inside `mpmcq_enqueue`, before a cell is claimed and before it is published -/
  | send (target : Fin n) (msg : Message n) (k : Sending)
  | publish (target : Fin n) (k : Sending)
  /-- the loop of `cmd_shutdown`, at shard `i` -/
  | stop (i : ℕ) (c : ConnId) (args : CmdArgs) (k : Serving)
  /-- before `sleeping` is set, before the messages are counted again, and before `sleeping`
  is cleared because there are some -/
  | presleep
  | recheck
  | resume
  /-- in `epoll_wait` with timeout 0, and with timeout -1 -/
  | polling
  | blocked
  /-- before `sleeping` is cleared; `none` for `EINTR` -/
  | woken (events : Option (List EpollEvent))
  /-- the loop over the events -/
  | events (events : List EpollEvent)
  | read (c : ConnId) (hup : Bool) (events : List EpollEvent)
  | finish (c : ConnId) (hup : Bool) (events : List EpollEvent)
  /-- the loop that closes the connections, at entry `c`, and the end of the thread -/
  | closing (c : ConnId)
  | exited

/-- Where the loop over `on_data_available` returns to. -/
def Serving.pc {n : ℕ} (c : ConnId) : Serving → Pc n
  | .epollin hup events => .finish c hup events
  | .onCb count => .poll count

/-! ### The state -/

structure Shard (n : ℕ) where
  pc : Pc n
  dbs : Size → Hashmap
  cbQueue : List (Slot n)
  running : Bool
  sleeping : Bool
  softNotify : Size
  wakeupFd : ℕ

structure State (n : ℕ) where
  shard : Fin n → Shard n
  conn : ConnId → Option Conn
  nextConn : ConnId

/-- The capacity of `cb_queue` and `num_dbs`. -/
structure Config where
  queueSize : ℕ
  numDbs : Size

/-- As `main` sets it up. -/
def config : Config := ⟨8192, 16⟩

/-- What can be seen of a run: commands and their results, malformed requests, the bytes that are
stored in and flushed from the send buffers, and the life of the connections. -/
inductive Event where
  | accepted (c : ConnId)
  | handled (c : ConnId) (index : ℕ) (args : List Value) (env : Env)
  | refused (c : ConnId) (index : ℕ) (w : Write)
  | executed (c : ConnId) (index : ℕ) (db : Size) (key : Bytes) (op : Op) (found : Option Value)
      (result : Result)
  | replied (c : ConnId) (index : ℕ) (offset : ℕ) (w : Write)
  | flushed (c : ConnId) (bytes : Bytes)
  | closed (c : ConnId)

namespace State

variable {n : ℕ}

/-- All reactors initialised, no connection. -/
def init (n : ℕ) : State n where
  shard _ :=
    { pc := .top, dbs := fun _ => hashmapNew, cbQueue := [], running := true, sleeping := true,
      softNotify := 0, wakeupFd := 0 }
  conn _ := none
  nextConn := 0

def setShard (s : State n) (i : Fin n) (shard : Shard n) : State n :=
  { s with shard := fun j => if j = i then shard else s.shard j }

def goto (s : State n) (i : Fin n) (pc : Pc n) : State n :=
  s.setShard i { s.shard i with pc := pc }

def setConn (s : State n) (c : ConnId) (conn : Option Conn) : State n :=
  { s with conn := fun d => if d = c then conn else s.conn d }

def setDb (s : State n) (i : Fin n) (db : Size) (map : Hashmap) : State n :=
  s.setShard i
    { s.shard i with dbs := fun db' => if db' = db then map else (s.shard i).dbs db' }

/-- `cmd_flushall` on all shards, in one step. -/
def flushAll (s : State n) (numDbs : Size) : State n :=
  { s with shard := fun i =>
      { s.shard i with dbs := fun db =>
          if db < numDbs then hashmapClear ((s.shard i).dbs db) else (s.shard i).dbs db } }

/-- The entry of the table of shard `i`. -/
def owned (s : State n) (i : Fin n) (c : ConnId) : Option Conn :=
  (s.conn c).filter fun conn => conn.shardId = i.val

/-! ### What an update changes -/

variable (s : State n) {i j : Fin n} (shard : Shard n) (c : ConnId) (conn : Option Conn) (pc : Pc n)

@[simp] theorem setShard_shard_self : (s.setShard i shard).shard i = shard := if_pos rfl

theorem setShard_shard_of_ne (other : j ≠ i) : (s.setShard i shard).shard j = s.shard j :=
  if_neg other

@[simp] theorem setShard_conn : (s.setShard i shard).conn = s.conn := rfl
@[simp] theorem setShard_nextConn : (s.setShard i shard).nextConn = s.nextConn := rfl
@[simp] theorem setConn_shard : (s.setConn c conn).shard = s.shard := rfl
@[simp] theorem setConn_nextConn : (s.setConn c conn).nextConn = s.nextConn := rfl
@[simp] theorem setConn_conn_self : (s.setConn c conn).conn c = conn := if_pos rfl

theorem setConn_conn_of_ne {d : ConnId} (other : d ≠ c) : (s.setConn c conn).conn d = s.conn d :=
  if_neg other

@[simp] theorem goto_shard_self : (s.goto i pc).shard i = { s.shard i with pc := pc } :=
  setShard_shard_self ..

theorem goto_shard_of_ne (other : j ≠ i) : (s.goto i pc).shard j = s.shard j :=
  setShard_shard_of_ne _ _ other

@[simp] theorem goto_conn : (s.goto i pc).conn = s.conn := rfl

end State

end GhettoRedis.Server
