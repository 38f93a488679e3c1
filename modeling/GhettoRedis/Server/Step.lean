import GhettoRedis.Lib.Machine
import GhettoRedis.Server.State

/-!
# The steps of the server

One step of one shard: the part of `reactor_run` and of what it calls that runs from one
access to shared state to the next. A step that is not there blocks: a full queue, an
empty `eventfd`, and also a callback for a connection that was freed, which has no
defined behaviour. `write` is taken to accept everything; one that fails ends the process.
-/
namespace GhettoRedis.Server

open Lib Protocol Commands

/-- What `read` returns: data, `EAGAIN`, another error, or the end of the stream. -/
inductive ReadResult where
  | data (bytes : Bytes)
  | again
  | error
  | eof

/-- The environment's part in a step: `go` where there is none. -/
inductive Action where
  | go
  | serve (outside : Mem) (env : Env)
  | wait (events : Option (List EpollEvent))
  | accept (addr : Size)
  | read (result : ReadResult)

variable {n : ℕ}

/-- `1 << bit` as an `int`, sign-extended to `uint64_t`. -/
def bitMask (bit : ℕ) : Size := ((1 : BitVec 32) <<< (bit % 32)).signExtend 64

def bitset64Set (bitset : Size) (bit : ℕ) : Size := bitset ||| bitMask bit

def bitset64Get (bitset : Size) (bit : ℕ) : Bool := bitset &&& bitMask bit ≠ 0

/-- The arguments of a request as `handle_command` reads them. -/
def argumentValues (mem : Mem) (args : CmdArgs) : List Value :=
  args.slices.map fun s => ⟨slice mem (args.buf + s.offset) s.len.toNat, mem (args.buf + s.offset + s.len)⟩

def EpollEvent.sameFd : EpollEvent → EpollEvent → Bool
  | .listener, .listener => true
  | .wakeup, .wakeup => true
  | .conn c _ _, .conn c' _ _ => c = c'
  | _, _ => false

namespace State

variable (s : State n) (i : Fin n)

/-- `BITSET64_SET(reactor->soft_notify, target)` -/
def notify (target : ℕ) : State n :=
  s.setShard i { s.shard i with softNotify := bitset64Set (s.shard i).softNotify target }

def setSleeping (sleeping : Bool) : State n := s.setShard i { s.shard i with sleeping := sleeping }

/-- The end of `on_data_available`: on to the next request, or out of the loop. -/
def finishRequest (c : ConnId) (conn : Conn) (args : CmdArgs) (answered : Bool) (k : Serving) :
    State n :=
  (s.setConn c (some (conn.finish args answered).2)).goto i
    (if (conn.finish args answered).1 then .serve c k else k.pc c)

/-- Where `reactor_wakeup_pending` returns to. -/
def wokeUp : Waking → Option (State n)
  | .loop => some (s.goto i (.poll 0))
  | .shutdown c args k =>
    match s.conn c with
    | none => none
    | some conn => some (s.finishRequest i c conn args false k)

/-- Behind `reactor_send_message`. -/
def sent (target : Fin n) : Sending → Option (State n)
  | .request c args k =>
    match s.conn c with
    | none => none
    | some conn =>
      let conn := { conn with flags := { conn.flags with dispatchWaiting := true } }
      some ((s.notify i target).finishRequest i c conn args true k)
  | .response c count => some ((s.notify i target).goto i (.onCb count c))

/-- Whether `epoll_wait` can report the event: `wakeup_fd` only when its counter is not
zero, and only open connections of the shard. -/
def canReport : EpollEvent → Bool
  | .listener => true
  | .wakeup => decide (0 < (s.shard i).wakeupFd)
  | .conn c _ _ => (s.owned i c).isSome

/-- What one `epoll_wait` can report: each file descriptor once. -/
def Reportable (events : List EpollEvent) : Prop :=
  (∀ e ∈ events, s.canReport i e) ∧ events.Pairwise fun e e' => ¬ e.sameFd e'

instance (events : List EpollEvent) : Decidable (s.Reportable i events) :=
  inferInstanceAs (Decidable (_ ∧ _))

end State

/-- A keyed command behind its `CMD_VARS`: executed here when this is the home shard of its
key, dispatched otherwise. -/
def stepKeyed [NeZero n] (s : State n) (i : Fin n) (c : ConnId) (conn : Conn) (args : CmdArgs)
    (k : Serving) (op : Op) (key : Bytes) : State n × List Event :=
  let hash := hashmapXxhash3 key 0 0
  let home := Fin.ofNat n hash.toNat
  if home = i then
    let db := (s.shard i).dbs conn.db
    let (db', result) := cmdExec op db key hash
    ((s.setDb i conn.db db').finishRequest i c (conn.write (cmdResp result)) args true k,
      [.executed c conn.answered conn.db key op (hashmapGetWithHash db key hash) result,
        .replied c conn.answered conn.sendBuf.length (cmdResp result)])
  else
    (s.goto i (.send home
      (.request ⟨i, home, c, conn.answered⟩ key hash (cmdPreDispatch op)) (.request c args k)), [])

/-- `handle_command` and the rest of `on_data_available`. -/
def stepHandle [NeZero n] (cfg : Config) (s : State n) (i : Fin n) (c : ConnId) (conn : Conn)
    (args : CmdArgs) (k : Serving) : Outcome → State n × List Event
  | .reply w =>
    (s.finishRequest i c (conn.write w) args true k,
      [.replied c conn.answered conn.sendBuf.length w])
  | .quit w =>
    (s.finishRequest i c (conn.refuse w) args true k,
      [.replied c conn.answered conn.sendBuf.length w])
  | .select db w =>
    (s.finishRequest i c { conn.write w with db := db } args true k,
      [.replied c conn.answered conn.sendBuf.length w])
  | .flushall w =>
    ((s.flushAll cfg.numDbs).finishRequest i c (conn.write w) args true k,
      [.replied c conn.answered conn.sendBuf.length w])
  | .shutdown => (s.goto i (.stop 0 c args k), [])
  | .keyed op key => stepKeyed s i c conn args k op key

/-- `on_data_available` -/
def stepServe [NeZero n] (cfg : Config) (s : State n) (i : Fin n) (c : ConnId) (conn : Conn)
    (k : Serving) (outside : Mem) (env : Env) : State n × List Event :=
  match conn.head (conn.mem outside) with
  | .nothing => (s.goto i (k.pc c), [])
  | .malformed w =>
    ((s.setConn c (some (conn.refuse w))).goto i (k.pc c),
      [.refused c conn.answered w, .replied c conn.answered conn.sendBuf.length w])
  | .request args =>
    if args.argc = 0 then (s.finishRequest i c conn args false k, [])
    else
      let values := argumentValues (conn.mem outside) args
      let (s', seen) :=
        stepHandle cfg s i c conn args k (handleCommand n cfg.numDbs env values)
      (s', .handled c conn.answered values env :: seen)

/-- `ctx->cb(context, arg)` -/
def stepCallback (s : State n) (i : Fin n) (count : ℕ) (conn : Conn) :
    Message n → State n × List Event
  | .request ctx key hash fields =>
    let op := cmdPreDispatchExec fields
    let db := (s.shard i).dbs conn.db
    let (db', result) := cmdExec op db key hash
    ((s.setDb i conn.db db').goto i
      (.send ctx.src (.response ⟨ctx.dst, ctx.src, ctx.conn, ctx.index⟩ (cmdPostDispatchExec result))
        (.response ctx.conn count)),
      [.executed ctx.conn ctx.index conn.db key op (hashmapGetWithHash db key hash) result])
  | .response ctx fields =>
    let w := cmdResp (cmdPreResp fields)
    let conn' := { conn.write w with flags := { conn.flags with dispatchWaiting := false } }
    ((s.setConn ctx.conn (some conn')).goto i (.onCb count ctx.conn),
      [.replied ctx.conn ctx.index conn.sendBuf.length w])

/-- `reactor_epoll_on_epollin` behind `read`. -/
def stepRead (s : State n) (i : Fin n) (c : ConnId) (conn : Conn) (hup : Bool)
    (events : List EpollEvent) : ReadResult → Option (State n)
  | .data bytes =>
    if fits : bytes ≠ [] ∧ conn.recv.size + bytes.length ≤ messageMaxLength then
      let conn' := conn.receive bytes fits.2
      some ((s.setConn c (some conn')).goto i
        (if conn.flags.dispatchWaiting then .finish c hup events else .serve c (.epollin hup events)))
    else none
  | .again => some ((s.setConn c (some conn.compact)).goto i (.finish c hup events))
  | .error | .eof =>
    let conn' := { conn.compact with flags := { conn.flags with ending := true } }
    some ((s.setConn c (some conn')).goto i (.finish c hup events))

/-- The next event of the loop over them. -/
def stepEvent (s : State n) (i : Fin n) (events : List EpollEvent) :
    EpollEvent → Action → Option (State n × List Event)
  | .listener, .accept addr =>
    if addressable : addr.toNat + (2 * messageMaxLength + 16) ≤ 2 ^ 64 then
      let conn := Conn.accepted i (.fresh addr addressable)
      some ({ s.setConn s.nextConn (some conn) with nextConn := s.nextConn + 1 }.goto i
        (.events events), [.accepted s.nextConn])
    else none
  | .wakeup, .go =>
    if (s.shard i).wakeupFd = 0 then none
    else some ((s.setShard i { s.shard i with wakeupFd := 0 }).goto i (.events events), [])
  | .conn c epollin hup, .go =>
    some (s.goto i (if epollin then .read c hup events else .finish c hup events), [])
  | _, _ => none

/-- One step of shard `i`. -/
def step [NeZero n] (cfg : Config) (s : State n) (i : Fin n) (a : Action) :
    Option (State n × List Event) :=
  match (s.shard i).pc, a with
  | .top, .go => some (s.goto i (if (s.shard i).running then .flush 0 else .closing 0), [])
  | .flush c, .go =>
    if c < s.nextConn then
      match s.owned i c with
      | none => some (s.goto i (.flush (c + 1)), [])
      | some conn =>
        if conn.sendBuf = [] then some (s.goto i (.flush (c + 1)), [])
        else some ((s.setConn c (some conn.flush)).goto i (.flush (c + 1)), [.flushed c conn.sendBuf])
    else some (s.goto i (.wakeup 0 .loop), [])
  | .wakeup j k, .go =>
    if below : j < n then
      if bitset64Get (s.shard i).softNotify j ∧ (s.shard ⟨j, below⟩).sleeping then
        some ((s.setSleeping ⟨j, below⟩ false).goto i (.signal ⟨j, below⟩ k), [])
      else some (s.goto i (.wakeup (j + 1) k), [])
    else
      ((s.setShard i { s.shard i with softNotify := 0 }).wokeUp i k).map fun s' => (s', [])
  | .signal j k, .go =>
    some ((s.setShard j { s.shard j with wakeupFd := (s.shard j).wakeupFd + 1 }).goto i
      (.wakeup (j + 1) k), [])
  | .poll count, .go =>
    match (s.shard i).cbQueue with
    | ⟨msg, none⟩ :: rest =>
      some ((s.setShard i { s.shard i with cbQueue := rest }).goto i (.callback (count + 1) msg), [])
    | _ => some (s.goto i (if 0 < count then .polling else .presleep), [])
  | .callback count msg, .go =>
    (s.conn msg.ctx.conn).map fun conn => stepCallback s i count conn msg
  | .onCb count c, .go =>
    (s.conn c).map fun conn =>
      (s.goto i (if conn.shardId = i.val then .serve c (.onCb count) else .poll count), [])
  | .serve c k, .serve outside env =>
    (s.conn c).map fun conn => stepServe cfg s i c conn k outside env
  | .send target msg k, .go =>
    if (s.shard target).cbQueue.length < cfg.queueSize then
      let slots := (s.shard target).cbQueue ++ [⟨msg, some i⟩]
      some ((s.setShard target { s.shard target with cbQueue := slots }).goto i (.publish target k), [])
    else none
  | .publish target k, .go =>
    let slots := (s.shard target).cbQueue.map fun slot =>
      if slot.writer = some i then { slot with writer := none } else slot
    ((s.setShard target { s.shard target with cbQueue := slots }).sent i target k).map
      fun s' => (s', [])
  | .stop j c args k, .go =>
    if below : j < n then
      some (((s.setShard ⟨j, below⟩ { s.shard ⟨j, below⟩ with running := false }).notify i j).goto i
        (.stop (j + 1) c args k), [])
    else some (s.goto i (.wakeup 0 (.shutdown c args k)), [])
  | .presleep, .go => some ((s.setSleeping i true).goto i .recheck, [])
  | .recheck, .go =>
    some (s.goto i (if (s.shard i).cbQueue = [] then .blocked else .resume), [])
  | .resume, .go => some ((s.setSleeping i false).goto i .top, [])
  | .polling, .wait none => some (s.goto i .top, [])
  | .polling, .wait (some events) =>
    if s.Reportable i events then some (s.goto i (.events events), []) else none
  | .blocked, .wait none => some (s.goto i (.woken none), [])
  | .blocked, .wait (some events) =>
    if events ≠ [] ∧ s.Reportable i events then some (s.goto i (.woken (some events)), []) else none
  | .woken none, .go => some ((s.setSleeping i false).goto i .top, [])
  | .woken (some events), .go => some ((s.setSleeping i false).goto i (.events events), [])
  | .events [], .go => some (s.goto i .top, [])
  | .events (e :: events), a => stepEvent s i events e a
  | .read c hup events, .read r =>
    match s.conn c with
    | none => none
    | some conn =>
      -- the assertion that there is room
      if conn.recv.size < messageMaxLength then
        (stepRead s i c conn hup events r).map fun s' => (s', [])
      else none
  | .finish c hup events, .go =>
    (s.conn c).map fun conn =>
      if conn.flags.ending ∨ hup then ((s.setConn c none).goto i (.events events), [.closed c])
      else (s.goto i (.events events), [])
  | .closing c, .go =>
    if c < s.nextConn then
      if (s.owned i c).isSome then some ((s.setConn c none).goto i (.closing (c + 1)), [.closed c])
      else some (s.goto i (.closing (c + 1)), [])
    else some (s.goto i .exited, [])
  | _, _ => none

/-- Every interleaving: in each step some shard acts. -/
def server [NeZero n] (cfg : Config) : Machine (State n) (Fin n × Action) Event where
  step s a := step cfg s a.1 a.2

/-! ### Schedules -/

/-- The shards of a server with two of them. -/
def shard0 : Fin 2 := ⟨0, Nat.two_pos⟩
def shard1 : Fin 2 := ⟨1, Nat.one_lt_two⟩

/-- From the top of its loop, shard `i` finds nothing to do and waits; there are `conns`
connections in all, and none of them has anything to flush. -/
def goToSleep (i : Fin n) (conns : ℕ) : List (Fin n × Action) :=
  List.replicate (conns + n + 6) (i, .go)

/-- Shard `i` wakes up for a new client, and goes back to the top of its loop. -/
def acceptClient (i : Fin n) (addr : Size) : List (Fin n × Action) :=
  [(i, .wait (some [.listener])), (i, .go), (i, .accept addr), (i, .go)]

/-- Shard `i` wakes up for data from connection `c` and reads it. -/
def readFrom (i : Fin n) (c : ConnId) (bytes : Bytes) : List (Fin n × Action) :=
  [(i, .wait (some [.conn c true false])), (i, .go), (i, .go), (i, .read (.data bytes))]

/-- Shard `i` calls `on_data_available`. -/
def serveNext (i : Fin n) : Fin n × Action := (i, .serve (fun _ => 0) ⟨false, 0⟩)

end GhettoRedis.Server
