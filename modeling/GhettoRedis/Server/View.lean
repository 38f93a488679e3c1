import GhettoRedis.Server.Step

/-!
# What is seen of the server

The server as its clients and its messages see it: the flags for sleeping and waking are
left out, and a claimed cell of a queue counts as filled.
-/
namespace GhettoRedis.Server

open Lib Protocol Commands

variable {n : ℕ}

structure View (n : ℕ) where
  pc : Fin n → Pc n
  queue : Fin n → List (Message n)
  dbs : Fin n → Size → Hashmap
  conn : ConnId → Option Conn
  nextConn : ConnId

def State.view (s : State n) : View n where
  pc i := (s.shard i).pc
  queue i := (s.shard i).cbQueue.map Slot.msg
  dbs i := (s.shard i).dbs
  conn := s.conn
  nextConn := s.nextConn

/-! ### Program counters -/

def EpollEvent.conns : EpollEvent → List ConnId
  | .conn c _ _ => [c]
  | _ => []

def Serving.conns : Serving → List ConnId
  | .epollin _ events => events.flatMap EpollEvent.conns
  | .onCb _ => []

def Waking.conns : Waking → List ConnId
  | .loop => []
  | .shutdown c _ k => c :: k.conns

def Sending.conns : Sending → List ConnId
  | .request c _ k => c :: k.conns
  | .response _ _ => []

def Sending.away : Sending → List ConnId
  | .request _ _ _ => []
  | .response c _ => [c]

def Sending.dispatching : Sending → List (ConnId × CmdArgs)
  | .request c args _ => [(c, args)]
  | .response _ _ => []

namespace Pc

/-- The message whose callback is about to run. -/
def calling : Pc n → List (Message n)
  | callback _ msg => [msg]
  | _ => []

/-- The message that is about to go into a queue. -/
def sending : Pc n → List (Message n)
  | send _ msg _ => [msg]
  | _ => []

/-- The connections of its own that the thread goes on with. -/
def conns : Pc n → List ConnId
  | wakeup _ k => k.conns
  | signal _ k => k.conns
  | serve c k => c :: k.conns
  | send _ _ k => k.conns
  | publish _ k => k.conns
  | stop _ c _ k => c :: k.conns
  | woken (some es) => es.flatMap EpollEvent.conns
  | events es => es.flatMap EpollEvent.conns
  | read c _ es => c :: es.flatMap EpollEvent.conns
  | finish c _ es => c :: es.flatMap EpollEvent.conns
  | _ => []

/-- The connection behind whose callback the thread still has to look. -/
def away : Pc n → List ConnId
  | onCb _ c => [c]
  | send _ _ k => k.away
  | publish _ k => k.away
  | _ => []

/-- The command whose request is being sent. -/
def dispatching : Pc n → List (ConnId × CmdArgs)
  | send _ _ k => k.dispatching
  | publish _ k => k.dispatching
  | _ => []

/-- No message passes through a thread that stands here. -/
def Calm (pc : Pc n) : Prop := pc.calling = [] ∧ pc.sending = [] ∧ pc.dispatching = []

end Pc

/-! ### Views -/

namespace View

variable (v : View n)

def goto (i : Fin n) (pc : Pc n) : View n := { v with pc := Function.update v.pc i pc }

def setConn (c : ConnId) (conn : Option Conn) : View n :=
  { v with conn := Function.update v.conn c conn }

def setDb (i : Fin n) (db : Size) (map : Hashmap) : View n :=
  { v with dbs := Function.update v.dbs i (Function.update (v.dbs i) db map) }

def setQueue (i : Fin n) (queue : List (Message n)) : View n :=
  { v with queue := Function.update v.queue i queue }

def flushAll (numDbs : Size) : View n :=
  { v with dbs := fun i db => if db < numDbs then hashmapClear (v.dbs i db) else v.dbs i db }

def finishRequest (i : Fin n) (c : ConnId) (conn : Conn) (args : CmdArgs) (answered : Bool)
    (k : Serving) : View n :=
  (v.setConn c (some (conn.finish args answered).2)).goto i
    (if (conn.finish args answered).1 then .serve c k else k.pc c)

section Fields

variable (i : Fin n) (c : ConnId) (conn : Option Conn) (db numDbs : Size) (map : Hashmap)
  (queue : List (Message n)) (pc : Pc n)

@[simp] theorem goto_pc_self : (v.goto i pc).pc i = pc := Function.update_self ..
@[simp] theorem goto_queue : (v.goto i pc).queue = v.queue := rfl
@[simp] theorem goto_dbs : (v.goto i pc).dbs = v.dbs := rfl
@[simp] theorem goto_conn : (v.goto i pc).conn = v.conn := rfl
@[simp] theorem goto_nextConn : (v.goto i pc).nextConn = v.nextConn := rfl
@[simp] theorem setConn_pc : (v.setConn c conn).pc = v.pc := rfl
@[simp] theorem setConn_queue : (v.setConn c conn).queue = v.queue := rfl
@[simp] theorem setConn_dbs : (v.setConn c conn).dbs = v.dbs := rfl
@[simp] theorem setConn_conn_self : (v.setConn c conn).conn c = conn := Function.update_self ..
@[simp] theorem setConn_nextConn : (v.setConn c conn).nextConn = v.nextConn := rfl
@[simp] theorem setDb_pc : (v.setDb i db map).pc = v.pc := rfl
@[simp] theorem setDb_queue : (v.setDb i db map).queue = v.queue := rfl
@[simp] theorem setDb_conn : (v.setDb i db map).conn = v.conn := rfl
@[simp] theorem setDb_nextConn : (v.setDb i db map).nextConn = v.nextConn := rfl
@[simp] theorem setQueue_pc : (v.setQueue i queue).pc = v.pc := rfl
@[simp] theorem setQueue_dbs : (v.setQueue i queue).dbs = v.dbs := rfl
@[simp] theorem setQueue_conn : (v.setQueue i queue).conn = v.conn := rfl
@[simp] theorem setQueue_nextConn : (v.setQueue i queue).nextConn = v.nextConn := rfl
@[simp] theorem flushAll_pc : (v.flushAll numDbs).pc = v.pc := rfl
@[simp] theorem flushAll_queue : (v.flushAll numDbs).queue = v.queue := rfl
@[simp] theorem flushAll_conn : (v.flushAll numDbs).conn = v.conn := rfl
@[simp] theorem flushAll_nextConn : (v.flushAll numDbs).nextConn = v.nextConn := rfl

theorem goto_pc_of_ne {j : Fin n} (other : j ≠ i) : (v.goto i pc).pc j = v.pc j :=
  Function.update_of_ne other ..

theorem setConn_conn_of_ne {d : ConnId} (other : d ≠ c) : (v.setConn c conn).conn d = v.conn d :=
  Function.update_of_ne other ..

variable (conn : Conn) (args : CmdArgs) (answered : Bool) (k : Serving)

@[simp] theorem finishRequest_queue :
    (v.finishRequest i c conn args answered k).queue = v.queue := rfl
@[simp] theorem finishRequest_dbs : (v.finishRequest i c conn args answered k).dbs = v.dbs := rfl
@[simp] theorem finishRequest_nextConn :
    (v.finishRequest i c conn args answered k).nextConn = v.nextConn := rfl
@[simp] theorem finishRequest_conn_self :
    (v.finishRequest i c conn args answered k).conn c = some (conn.finish args answered).2 :=
  Function.update_self ..

theorem finishRequest_conn_of_ne {d : ConnId} (other : d ≠ c) :
    (v.finishRequest i c conn args answered k).conn d = v.conn d := Function.update_of_ne other ..

end Fields

/-- Connection `c` is open and belongs to shard `i`. -/
def Owned (i : Fin n) (c : ConnId) : Prop := ∃ conn, v.conn c = some conn ∧ conn.shardId = i.val

end View

/-! ### Views of states -/

section State

variable (s : State n) (i : Fin n)

private theorem update_shard {β : Type} (f : Shard n → β) (shard : Shard n) :
    (fun j => f ((s.setShard i shard).shard j)) =
      Function.update (fun j => f (s.shard j)) i (f shard) := by
  funext j
  by_cases same : j = i <;> simp [State.setShard, Function.update, same]

/-- What a shard does to flags that the view leaves out does not show. -/
theorem view_setShard (shard : Shard n) :
    (s.setShard i shard).view =
      { s.view with
        pc := Function.update s.view.pc i shard.pc
        queue := Function.update s.view.queue i (shard.cbQueue.map Slot.msg)
        dbs := Function.update s.view.dbs i shard.dbs } := by
  simp only [State.view, update_shard s i Shard.pc, update_shard s i Shard.dbs,
    update_shard s i fun shard => shard.cbQueue.map Slot.msg]
  rfl

@[simp] theorem view_goto (pc : Pc n) : (s.goto i pc).view = s.view.goto i pc := by
  rw [State.goto, view_setShard]
  simp [View.goto, State.view]

@[simp] theorem view_setQueue (slots : List (Slot n)) :
    (s.setShard i { s.shard i with cbQueue := slots }).view =
      s.view.setQueue i (slots.map Slot.msg) := by
  rw [view_setShard]
  simp [View.setQueue, State.view]

@[simp] theorem view_setDb (db : Size) (map : Hashmap) :
    (s.setDb i db map).view = s.view.setDb i db map := by
  have dbs : (fun db' => if db' = db then map else (s.shard i).dbs db') =
      Function.update (s.shard i).dbs db map := by
    funext db'
    rw [Function.update_apply]
  rw [State.setDb, dbs, view_setShard]
  simp [View.setDb, State.view]

theorem setConn_conn (c : ConnId) (conn : Option Conn) :
    (s.setConn c conn).conn = Function.update s.conn c conn := by
  funext d
  rw [Function.update_apply]
  rfl

@[simp] theorem view_setConn (c : ConnId) (conn : Option Conn) :
    (s.setConn c conn).view = s.view.setConn c conn := by
  simp only [State.view, setConn_conn]
  rfl

theorem view_accept (conn : Conn) :
    { s.setConn s.nextConn (some conn) with nextConn := s.nextConn + 1 }.view =
      { s.view.setConn s.view.nextConn (some conn) with nextConn := s.view.nextConn + 1 } := by
  simp only [State.view, setConn_conn]
  rfl

@[simp] theorem view_flushAll (numDbs : Size) :
    (s.flushAll numDbs).view = s.view.flushAll numDbs := rfl

theorem view_quiet (shard : Shard n) (pc : shard.pc = (s.shard i).pc)
    (queue : shard.cbQueue = (s.shard i).cbQueue) (dbs : shard.dbs = (s.shard i).dbs) :
    (s.setShard i shard).view = s.view := by
  rw [view_setShard, pc, queue, dbs]
  simp [State.view]

@[simp] theorem view_notify (target : ℕ) : (s.notify i target).view = s.view :=
  view_quiet s i _ rfl rfl rfl

@[simp] theorem view_setSleeping (sleeping : Bool) : (s.setSleeping i sleeping).view = s.view :=
  view_quiet s i _ rfl rfl rfl

@[simp] theorem view_finishRequest (c : ConnId) (conn : Conn) (args : CmdArgs) (answered : Bool)
    (k : Serving) :
    (s.finishRequest i c conn args answered k).view =
      s.view.finishRequest i c conn args answered k := by
  simp [State.finishRequest, View.finishRequest]

end State

end GhettoRedis.Server
