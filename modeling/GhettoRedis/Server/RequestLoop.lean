import GhettoRedis.Lib.Loop
import GhettoRedis.Protocol.Grammar
import GhettoRedis.Protocol.Inline
import GhettoRedis.Server.Move

/-!
# The request loop

`while (reactor->on_data_available(context, conn))` on a shard that executes every command
itself. A call that goes on shrinks the window unless the bulk strings of the request at its front
end, after a wrap, where the window starts.
-/
namespace GhettoRedis.Server

open Lib Protocol Commands

/-! ### The loop -/

/-- The databases of the shard and the connection that it serves. -/
structure Desk where
  dbs : Size → Hashmap
  conn : Conn

namespace Desk

/-- The end of `on_data_available`. -/
def finish (d : Desk) (args : CmdArgs) (answered : Bool) : Bool × Desk :=
  ((d.conn.finish args answered).1, { d with conn := (d.conn.finish args answered).2 })

/-- `cmd->func(context, conn, args)` and the rest of `on_data_available`. -/
def run (numDbs : Size) (d : Desk) (args : CmdArgs) : Outcome → Bool × Desk
  | .reply w => { d with conn := d.conn.write w }.finish args true
  | .quit w => { d with conn := d.conn.refuse w }.finish args true
  | .select db w => { d with conn := { d.conn.write w with db := db } }.finish args true
  | .flushall w =>
    { d with
      dbs := fun db => if db < numDbs then hashmapClear (d.dbs db) else d.dbs db
      conn := d.conn.write w }.finish args true
  | .shutdown => d.finish args false
  | .keyed op key =>
    let (db', result) := cmdExec op (d.dbs d.conn.db) key (hashmapXxhash3 key 0 0)
    { d with
      dbs := fun db => if db = d.conn.db then db' else d.dbs db
      conn := d.conn.write (cmdResp result) }.finish args true

theorem run_keyed {numDbs : Size} {d : Desk} {args : CmdArgs} {op : Op} {key : Bytes} {db' : Hashmap}
    {result : Result}
    (executed : cmdExec op (d.dbs d.conn.db) key (hashmapXxhash3 key 0 0) = (db', result)) :
    d.run numDbs args (.keyed op key) =
      { d with
        dbs := fun db => if db = d.conn.db then db' else d.dbs db
        conn := d.conn.write (cmdResp result) }.finish args true := by
  rw [run, executed]

/-- `on_data_available` -/
def serve (shards : ℕ) (numDbs : Size) (outside : Mem) (env : Env) (d : Desk) : Bool × Desk :=
  match d.conn.head (d.conn.mem outside) with
  | .nothing => (false, d)
  | .malformed w => (false, { d with conn := d.conn.refuse w })
  | .request args =>
    if args.argc = 0 then d.finish args false
    else
      d.run numDbs args
        (handleCommand shards numDbs env (argumentValues (d.conn.mem outside) args))

end Desk

/-- The calls of the loop; `around` is the memory outside of the connection at each call, and what
the rest of the process contributes. -/
def requestLoop (shards : ℕ) (numDbs : Size) (around : ℕ → Mem × Env) : ℕ → Desk → Bool × Desk :=
  fun k d => d.serve shards numDbs (around k).1 (around k).2

/-! ### In the server -/

section Server

variable {n : ℕ} [NeZero n] {s : State n} {i : Fin n} {c : ConnId} {conn : Conn} {k : Serving}
  {cfg : Config} {outside : Mem} {env : Env}

/-- What the step of the server leaves where the loop works: the connection, the databases of the
shard, and whether the shard is still in the loop. -/
def Desk.Matches (d : Bool × Desk) (s : State n) (i : Fin n) (c : ConnId) (k : Serving) : Prop :=
  s.conn c = some d.2.conn ∧ (s.shard i).dbs = d.2.dbs ∧
    (s.shard i).pc = if d.1 then .serve c k else k.pc c

omit [NeZero n] in
theorem Desk.matches_finish {d : Desk} (args : CmdArgs) (answered : Bool)
    (dbs : (s.shard i).dbs = d.dbs) :
    Desk.Matches (d.finish args answered) (s.finishRequest i c d.conn args answered k) i c k := by
  refine ⟨?_, ?_, ?_⟩
  · simp [State.finishRequest, Desk.finish]
  · simp [State.finishRequest, Desk.finish, dbs]
  · rw [State.finishRequest, State.goto_shard_self]
    rfl

/-- The step of the server is a call of the loop, unless a command is dispatched or shuts the
server down. -/
theorem stepServe_matches
    (here : ∀ args op key, conn.head (conn.mem outside) = .request args →
      handleCommand n cfg.numDbs env (argumentValues (conn.mem outside) args) = .keyed op key →
        home key = i)
    (goesOn : ∀ args, conn.head (conn.mem outside) = .request args →
      handleCommand n cfg.numDbs env (argumentValues (conn.mem outside) args) ≠ .shutdown)
    (live : s.conn c = some conn) :
    Desk.Matches (Desk.serve n cfg.numDbs outside env ⟨(s.shard i).dbs, conn⟩)
      (stepServe cfg s i c conn k outside env).1 i c k := by
  cases head : conn.head (conn.mem outside) with
  | nothing =>
    simp only [Desk.serve, stepServe, head]
    exact ⟨by simpa using live, by simp, by simp⟩
  | malformed w =>
    simp only [Desk.serve, stepServe, head]
    exact ⟨by simp, by simp, by simp⟩
  | request args =>
    have here := here args
    have goesOn := goesOn args head
    simp only [Desk.serve, stepServe, head]
    split
    next => exact Desk.matches_finish args false rfl
    next =>
      cases outcome : handleCommand n cfg.numDbs env (argumentValues (conn.mem outside) args) with
      | reply w =>
        simp only [Desk.run, stepHandle]
        exact Desk.matches_finish args true rfl
      | quit w =>
        simp only [Desk.run, stepHandle]
        exact Desk.matches_finish args true rfl
      | select db w =>
        simp only [Desk.run, stepHandle]
        exact Desk.matches_finish args true rfl
      | flushall w =>
        simp only [Desk.run, stepHandle]
        exact Desk.matches_finish args true (by simp [State.flushAll])
      | shutdown => exact absurd outcome goesOn
      | keyed op key =>
        obtain ⟨db', result, executed⟩ : ∃ db' result, cmdExec op ((s.shard i).dbs conn.db) key
            (hashmapXxhash3 key 0 0) = (db', result) := ⟨_, _, rfl⟩
        rw [stepHandle, stepKeyed_home (here op key head outcome) executed, Desk.run_keyed executed]
        exact Desk.matches_finish args true (by rw [State.setDb, State.setShard_shard_self])

end Server

/-! ### One call -/

/-- The announced bulk strings of the window end where it starts. -/
def EndsAtStart (mem : Mem) (b : RecvBuf) : Prop :=
  mem b.start = asterisk ∧ ∃ cur argc bulks, parseNumber mem (b.start + 1) b.stop = .ok (cur, argc) ∧
    argc.toNat ≤ maxArgc ∧ ¬ b.stop < cur + 2 ∧ Bulks mem b.stop argc.toNat cur bulks b.start

/-- What is served next, while `END` is not set, is such a request. -/
def Stuck (outside : Mem) (d : Desk) : Prop :=
  d.conn.flags.ending = false ∧ EndsAtStart (d.conn.mem outside) d.conn.recv

section Calls

variable {shards : ℕ} {numDbs : Size} {outside : Mem} {env : Env} {d : Desk} {args : CmdArgs}

/-- A command changes no more of the receive buffer than the end of `on_data_available` does, and
only `QUIT` sets `END`. -/
theorem Desk.run_finish (outcome : Outcome) : ∃ (d' : Desk) (answered : Bool),
    d.run numDbs args outcome = d'.finish args answered ∧ d'.conn.recv = d.conn.recv ∧
      ((∀ w, outcome ≠ .quit w) → d'.conn.flags = d.conn.flags) ∧
      (d'.conn.flags.ending = false → d.conn.flags.ending = false) := by
  cases outcome with
  | reply w => exact ⟨_, _, rfl, rfl, fun _ => rfl, id⟩
  | quit w => exact ⟨_, _, rfl, rfl, fun other => absurd rfl (other w), fun going => by cases going⟩
  | select db w => exact ⟨_, _, rfl, rfl, fun _ => rfl, id⟩
  | flushall w => exact ⟨_, _, rfl, rfl, fun _ => rfl, id⟩
  | shutdown => exact ⟨_, _, rfl, rfl, fun _ => rfl, id⟩
  | keyed op key => exact ⟨_, _, rfl, rfl, fun _ => rfl, id⟩

/-- What a call does that goes on. -/
theorem Desk.serve_more (more : (d.serve shards numDbs outside env).1 = true) :
    ∃ args, d.conn.head (d.conn.mem outside) = .request args ∧ d.conn.flags.ending = false ∧
      args.len.toNat < d.conn.recv.size ∧
      (d.serve shards numDbs outside env).2.conn.recv.size = d.conn.recv.size - args.len.toNat := by
  have finished (d' : Desk) (args : CmdArgs) (answered : Bool) (recv : d'.conn.recv = d.conn.recv)
      (more : (d'.finish args answered).1 = true) :
      d'.conn.flags.ending = false ∧ args.len.toNat < d.conn.recv.size ∧
        (d'.finish args answered).2.conn.recv.size = d.conn.recv.size - args.len.toNat := by
    simp only [Desk.finish, Conn.finish] at more ⊢
    rw [← recv]
    split at more
    next => cases more
    next going =>
      split at more
      next le =>
        have some := of_decide_eq_true more
        refine ⟨by simpa using going, by omega, ?_⟩
        rw [if_neg going, dif_pos le]
        rfl
      next => cases more
  rw [Desk.serve] at more ⊢
  split at more
  next => cases more
  next => cases more
  next args request =>
    refine ⟨args, request, ?_⟩
    split at more
    next none =>
      rw [if_pos none]
      exact finished d args false rfl more
    next some =>
      rw [if_neg some]
      obtain ⟨d', answered, is, recv, -, ending⟩ := @Desk.run_finish numDbs d args _
      rw [is] at more ⊢
      obtain ⟨going, shrunk⟩ := finished d' args answered recv more
      exact ⟨ending going, shrunk⟩

/-- A line that is accepted has its `\n` at least. -/
theorem inline_len_pos (accepted : parseInlineRequest (d.conn.mem outside) d.conn.recv = .ok args) :
    0 < args.len.toNat := by
  have shows := d.conn.shows outside
  have inside := d.conn.recv.inside
  have bytes := shows.bytes
  simp only [messageMaxLength] at inside
  rcases lf_split d.conn.recv.window with none | ⟨line, more, whole, plain⟩
  · rw [parseInline_open shows none] at accepted
    cases accepted
  · rw [whole] at shows bytes
    rw [parseInline_line shows plain] at accepted
    split at accepted
    next => cases accepted
    next =>
      split at accepted
      next =>
        cases accepted
        rw [List.length_append, List.length_cons] at bytes
        rw [BitVec.toNat_ofNat, Nat.mod_eq_of_lt (by omega)]
        exact Nat.succ_pos _
      next => cases accepted

/-- A request of length 0 is an array that ends at its own start. -/
theorem endsAtStart_of_len (request : d.conn.head (d.conn.mem outside) = .request args)
    (none : args.len.toNat = 0) : EndsAtStart (d.conn.mem outside) d.conn.recv := by
  rw [Conn.head] at request
  split at request
  next => cases request
  next =>
    have accepted : d.conn.parse (d.conn.mem outside) = .ok args := by
      unfold Head.ofParse at request
      split at request <;> cases request
      assumption
    rw [Conn.parse] at accepted
    split at accepted
    next isArray =>
      obtain ⟨-, cur, argc, bulks, last, number, few, room, chain, rfl⟩ :=
        parseRespRequest_ok_iff.mp accepted
      have same : last = d.conn.recv.start := by
        have zero : last - d.conn.recv.start = 0 := BitVec.eq_of_toNat_eq none
        rw [← BitVec.sub_add_cancel last d.conn.recv.start, zero]
        exact BitVec.zero_add _
      exact ⟨isArray, cur, argc, bulks, number, few, room, same ▸ chain⟩
    next =>
      have := inline_len_pos accepted
      omega

/-- What such a request is parsed as. -/
theorem EndsAtStart.head (ends : EndsAtStart (d.conn.mem outside) d.conn.recv) :
    ∃ args, d.conn.head (d.conn.mem outside) = .request args ∧ args.argc ≠ 0 ∧ args.len = 0 ∧
      0 < d.conn.recv.size ∧ ∀ env w,
        handleCommand shards numDbs env (argumentValues (d.conn.mem outside) args) ≠ .quit w := by
  obtain ⟨isArray, cur, argc, bulks, number, few, room, chain⟩ := ends
  have small := d.conn.recv.stop_lt
  have space := d.conn.recv.stop_room
  have stopAt := d.conn.recv.stop_toNat
  simp only [messageMaxLength] at space
  have next : (d.conn.recv.start + 1).toNat = d.conn.recv.start.toNat + 1 :=
    toNat_add (b := 1) (by simp; omega)
  obtain ⟨after, within⟩ := parseNumber_bounds small number
  have size : 0 < d.conn.recv.size := by omega
  have notEmpty : d.conn.recv.start ≠ d.conn.recv.stop := by
    intro same
    rw [← same] at stopAt
    omega
  have accepted := parseRespRequest_ok_iff.mpr
    ⟨notEmpty, cur, argc, bulks, _, number, few, room, chain, rfl⟩
  have count := chain.length_eq
  have none : d.conn.recv.start - d.conn.recv.start = 0 := BitVec.sub_self _
  refine ⟨⟨d.conn.recv.start, argc, d.conn.recv.start - d.conn.recv.start,
    bulks.map (sliceOf d.conn.recv.start)⟩, ?_, ?_, none, size, ?_⟩
  · rw [Conn.head, if_neg (by omega), Conn.parse, if_pos isArray, accepted, Head.ofParse]
  · -- without bulk strings the request would end behind its header
    rintro rfl
    obtain rfl : bulks = [] := List.length_eq_zero_iff.mp count
    have same := chain.nil_eq
    rw [same] at after
    omega
  · intro env w quits
    obtain ⟨-, name, few⟩ := handleCommand_quit quits
    simp only [argumentValues, List.length_map] at few
    obtain ⟨left, is⟩ : ∃ left, left = argc.toNat := ⟨_, rfl⟩
    rw [← is] at chain
    cases chain with
    | nil =>
      have empty : ([] : Bytes) = asciiBytes "QUIT" := name
      exact absurd empty (by decide)
    | @cons left _ payload len _ rest notStop isDollar number' inside chain =>
      simp only [List.length_cons] at few count
      obtain rfl : rest = [] := List.length_eq_zero_iff.mp (by omega)
      -- the only argument would have to reach around the whole memory
      have len' := congrArg List.length name
      simp only [argumentValues, List.map_cons, List.getD_cons_zero, slice_length, sliceOf] at len'
      have four : len.toNat = 4 := len'
      have ends : payload + len + 2 = d.conn.recv.start := chain.nil_eq
      obtain ⟨above, below⟩ := parseNumber_bounds small number'
      have first : (payload + len).toNat = payload.toNat + 4 := by
        rw [toNat_add (by omega), four]
      have sum : (payload + len + 2).toNat = payload.toNat + 4 + 2 := by
        rw [toNat_add (b := 2) (by rw [first]; simp; omega), first]
        rfl
      rw [ends] at sum
      have dollarAt : (cur + 1).toNat = cur.toNat + 1 := toNat_add (b := 1) (by simp; omega)
      omega

theorem Desk.serve_stuck (stuck : Stuck outside d) : (d.serve shards numDbs outside env).1 = true ∧
    (d.serve shards numDbs outside env).2.conn.recv.size = d.conn.recv.size := by
  obtain ⟨going, ends⟩ := stuck
  obtain ⟨args, request, some, len, size, notQuit⟩ := @EndsAtStart.head shards numDbs _ _ ends
  obtain ⟨d', answered, is, recv, flags, -⟩ := @Desk.run_finish numDbs d args
    (handleCommand shards numDbs env (argumentValues (d.conn.mem outside) args))
  have zero : args.len.toNat = 0 := by rw [len]; rfl
  have going' : ¬ d'.conn.flags.ending = true := by rw [flags (notQuit env), going]; decide
  have le : args.len.toNat ≤ d'.conn.recv.size := by omega
  simp only [Desk.serve, request, if_neg some, is, Desk.finish, Conn.finish, if_neg going', dif_pos le]
  have consumed : (d'.conn.recv.consume args.len.toNat le).size = d.conn.recv.size := by
    simp only [RecvBuf.consume, recv, zero, Nat.sub_zero]
  exact ⟨decide_eq_true (by rw [recv, zero]; exact size), consumed⟩

end Calls

/-! ### The whole loop -/

/-- The loop ends, and every call that goes on shrinks the window. -/
def Terminates (shards : ℕ) (numDbs : Size) (around : ℕ → Mem × Env) (d : Desk) : Prop :=
  Loop.Ends (requestLoop shards numDbs around) d ∧
    Loop.Shrinks (requestLoop shards numDbs around) (fun d => d.conn.recv.size) d

/-- The loop terminates exactly when it never comes to a request that ends at its own start. -/
theorem request_loop_iff (shards : ℕ) (numDbs : Size) (around : ℕ → Mem × Env) (d : Desk) :
    Terminates shards numDbs around d ↔
      ∀ k d', Loop.before (requestLoop shards numDbs around) d k = some d' →
        ¬ Stuck (around k).1 d' := by
  constructor
  · rintro ⟨-, shrinks⟩ k d' here stuck
    obtain ⟨more, same⟩ := @Desk.serve_stuck shards numDbs _ (around k).2 _ stuck
    have shrunk := shrinks k d' here more
    exact absurd same (Nat.ne_of_lt shrunk)
  · intro free
    have shrinks : Loop.Shrinks (requestLoop shards numDbs around) (fun d => d.conn.recv.size) d := by
      intro k d' here more
      obtain ⟨args, request, going, below, size⟩ := Desk.serve_more more
      -- a request of length 0 would be stuck
      have some : args.len.toNat ≠ 0 := fun none =>
        free k d' here ⟨going, endsAtStart_of_len request none⟩
      have shrunk : (d'.serve shards numDbs (around k).1 (around k).2).2.conn.recv.size <
          d'.conn.recv.size := by omega
      exact shrunk
    exact ⟨Loop.ends_of_shrinks shrinks, shrinks⟩

/-- `PING` with an argument whose announced end is the start of the request, received on a fresh
connection. -/
def wrapsToStart : Desk :=
  ⟨fun _ => hashmapNew, Conn.accepted 0 ((RecvBuf.fresh 65536 RecvBuf.addressable_first).receive
    (asciiBytes "*2\r\n$4\r\nPING\r\n$18446744073709551577\r\n") (by decide))⟩

/-- The first call goes on and has consumed nothing. -/
theorem wraps_to_start_stuck : ¬ Terminates 4 16 (fun _ => (fun _ => 0, ⟨false, 0⟩)) wrapsToStart := by
  rintro ⟨-, shrinks⟩
  have accepted : parseRespRequest (wrapsToStart.conn.mem fun _ => 0) wrapsToStart.conn.recv =
      .ok ⟨65536, 2, 0, [⟨8, 4⟩, ⟨37, 18446744073709551577⟩]⟩ := by decide +kernel
  have request : wrapsToStart.conn.head (wrapsToStart.conn.mem fun _ => 0) =
      .request ⟨65536, 2, 0, [⟨8, 4⟩, ⟨37, 18446744073709551577⟩]⟩ := by
    rw [Conn.head, if_neg (by decide), Conn.parse, if_pos (by decide), accepted, Head.ofParse]
  have stuck : Stuck (fun _ => 0) wrapsToStart := ⟨rfl, endsAtStart_of_len request rfl⟩
  obtain ⟨more, same⟩ := @Desk.serve_stuck 4 16 _ ⟨false, 0⟩ _ stuck
  have shrunk := shrinks 0 wrapsToStart rfl more
  exact absurd same (Nat.ne_of_lt shrunk)

end GhettoRedis.Server
