import GhettoRedis.Server.View

/-!
# What a step does

`Move` lists what one step of one shard can do to the view of the server. Everything
proved about runs rests on it, and only `move_of_step` looks into the steps.
-/
namespace GhettoRedis.Server

open Lib Protocol Commands

variable {n : ℕ}

/-! ### Moves -/

/-- What a command answers at once, and what it leaves of the connection. -/
def plainAnswer (conn : Conn) : Outcome → Option (Conn × Write)
  | .reply w => some (conn.write w, w)
  | .quit w => some (conn.refuse w, w)
  | .select db w => some ({ conn.write w with db := db }, w)
  | _ => none

/-- The home shard of a key. -/
def home [NeZero n] (key : Bytes) : Fin n := Fin.ofNat n (hashmapXxhash3 key 0 0).toNat

section Keyed

variable [NeZero n] {s : State n} {i : Fin n} {c : ConnId} {conn : Conn} {args : CmdArgs} {k : Serving}

theorem stepKeyed_home {op : Op} {key : Bytes} {result : Hashmap × Result} (here : home key = i)
    (executed : cmdExec op ((s.shard i).dbs conn.db) key (hashmapXxhash3 key 0 0) = result) :
    stepKeyed s i c conn args k op key =
      ((s.setDb i conn.db result.1).finishRequest i c (conn.write (cmdResp result.2)) args true k,
        [.executed c conn.answered conn.db key op (hashmapGetWithHash ((s.shard i).dbs conn.db) key
          (hashmapXxhash3 key 0 0)) result.2,
          .replied c conn.answered conn.sendBuf.length (cmdResp result.2)]) := by
  have here : Fin.ofNat n (hashmapXxhash3 key 0 0).toNat = i := here
  subst executed
  rw [stepKeyed, if_pos here]

theorem stepKeyed_away {op : Op} {key : Bytes} (away : home key ≠ i) :
    stepKeyed s i c conn args k op key = (s.goto i (.send (home key)
      (.request ⟨i, home key, c, conn.answered⟩ key (hashmapXxhash3 key 0 0) (cmdPreDispatch op))
      (.request c args k)), []) := by
  have away : ¬ Fin.ofNat n (hashmapXxhash3 key 0 0).toNat = i := away
  rw [stepKeyed, if_neg away]
  rfl

end Keyed

/-- Shard `i` hands a request of connection `c` to `handle_command`. -/
structure Hands [NeZero n] (cfg : Config) (v : View n) (i : Fin n) (a : Action) (c : ConnId)
    (k : Serving) (conn : Conn) (args : CmdArgs) (values : List Value) (env : Env)
    (outcome : Outcome) : Prop where
  at_serve : v.pc i = .serve c k
  live : v.conn c = some conn
  head : ∃ outside, a = .serve outside env ∧ conn.head (conn.mem outside) = .request args ∧
    values = argumentValues (conn.mem outside) args
  argc : args.argc ≠ 0
  outcome : outcome = handleCommand n cfg.numDbs env values

theorem Hands.calm [NeZero n] {cfg : Config} {v : View n} {i : Fin n} {a : Action} {c : ConnId}
    {k : Serving} {conn : Conn} {args : CmdArgs} {values : List Value} {env : Env}
    {outcome : Outcome} (hands : Hands cfg v i a c k conn args values env outcome) :
    (v.pc i).Calm := by
  rw [hands.at_serve]
  exact ⟨rfl, rfl, rfl⟩

/-- The request that shard `i` hands to `handle_command` in this step, with its connection. -/
def View.called (v : View n) (i : Fin n) (a : Action) : Option (ConnId × Conn × List Value × Env) :=
  match v.pc i, a with
  | .serve c _, .serve outside env =>
    match v.conn c with
    | none => none
    | some conn =>
      match conn.head (conn.mem outside) with
      | .request args =>
        if args.argc = 0 then none else some (c, conn, argumentValues (conn.mem outside) args, env)
      | _ => none
  | _, _ => none

theorem Hands.called [NeZero n] {cfg : Config} {v : View n} {i : Fin n} {a : Action} {c : ConnId}
    {k : Serving} {conn : Conn} {args : CmdArgs} {values : List Value} {env : Env}
    {outcome : Outcome} (hands : Hands cfg v i a c k conn args values env outcome) :
    v.called i a = some (c, conn, values, env) := by
  obtain ⟨outside, rfl, head, rfl⟩ := hands.head
  simp only [View.called, hands.at_serve, hands.live, head, if_neg hands.argc]

/-- Where a thread is not concerned with a connection, or has only found out about some. -/
def Pc.Idle : Pc n → Prop
  | .top | .flush _ | .wakeup _ .loop | .signal _ .loop | .poll _ | .presleep | .recheck | .resume
  | .polling | .blocked | .woken _ | .events _ | .closing _ | .exited => True
  | _ => False

/-- The `SHUTDOWN` that the thread carries out. -/
def Pc.stopping : Pc n → Option (ConnId × CmdArgs × Serving)
  | .stop _ c args k | .wakeup _ (.shutdown c args k) | .signal _ (.shutdown c args k) =>
    some (c, args, k)
  | _ => none

/-- The steps of shard `i` that only take its thread to `pc`. -/
inductive Passes (v : View n) (i : Fin n) (a : Action) : Pc n → Prop
  | idle {pc : Pc n} : (v.pc i).Idle → pc.Idle → Passes v i a pc
  | stopping {pc : Pc n} {at_stop : ConnId × CmdArgs × Serving} : (v.pc i).stopping = some at_stop →
      pc.stopping = some at_stop → (∀ j k, v.pc i = .wakeup j k → j < n) → Passes v i a pc
  /-- There is nothing to serve. -/
  | served {c : ConnId} {k : Serving} {outside : Mem} {env : Env} {conn : Conn} :
      v.pc i = .serve c k → a = .serve outside env → v.conn c = some conn →
      conn.head (conn.mem outside) = .nothing → Passes v i a (k.pc c)
  /-- Behind a callback. -/
  | looked {count : ℕ} {c : ConnId} {conn : Conn} : v.pc i = .onCb count c →
      v.conn c = some conn →
      Passes v i a (if conn.shardId = i.val then .serve c (.onCb count) else .poll count)
  | sent {t : Fin n} {c : ConnId} {count : ℕ} : v.pc i = .publish t (.response c count) →
      Passes v i a (.onCb count c)
  | event {c : ConnId} {epollin hup : Bool} {es : List EpollEvent} :
      v.pc i = .events (.conn c epollin hup :: es) →
      Passes v i a (if epollin then .read c hup es else .finish c hup es)
  /-- The connection stays open. -/
  | spared {c : ConnId} {hup : Bool} {es : List EpollEvent} {conn : Conn} :
      v.pc i = .finish c hup es → v.conn c = some conn → ¬ (conn.flags.ending = true ∨ hup = true) →
      Passes v i a (.events es)

/-- What one step of shard `i` does to the view, and what is seen of it. -/
inductive Move [NeZero n] (cfg : Config) (v : View n) (i : Fin n) (a : Action) :
    View n → List Event → Prop
  /-- Only the thread moves on. -/
  | quiet {pc : Pc n} : (v.pc i).Calm → pc.Calm → pc.away ⊆ (v.pc i).away →
      (∀ c ∈ pc.conns, c ∈ (v.pc i).conns ∨ v.Owned i c) → Passes v i a pc →
      Move cfg v i a (v.goto i pc) []
  | flush {c : ConnId} {conn : Conn} : v.pc i = .flush c → v.conn c = some conn →
      conn.shardId = i.val → Move cfg v i a ((v.setConn c (some conn.flush)).goto i (.flush (c + 1)))
        [.flushed c conn.sendBuf]
  | dequeue {count : ℕ} {msg : Message n} {rest : List (Message n)} : v.pc i = .poll count →
      v.queue i = msg :: rest →
      Move cfg v i a ((v.setQueue i rest).goto i (.callback (count + 1) msg)) []
  /-- The end of a request without a reply: an empty line, or `SHUTDOWN`. -/
  | skip {c : ConnId} {conn : Conn} {args : CmdArgs} {k : Serving} :
      (v.pc i = .serve c k ∨ ∃ j, v.pc i = .wakeup j (.shutdown c args k)) →
      v.conn c = some conn →
      (v.pc i = .serve c k → ∃ outside env, a = .serve outside env ∧
        conn.head (conn.mem outside) = .request args ∧ args.argc = 0) →
      (∀ j k, v.pc i = .wakeup j k → n ≤ j) →
      Move cfg v i a (v.finishRequest i c conn args false k) []
  /-- A request with a parse error. -/
  | refuse {c : ConnId} {conn : Conn} {k : Serving} {outside : Mem} {env : Env} {w : Write} :
      v.pc i = .serve c k → v.conn c = some conn → a = .serve outside env →
      conn.head (conn.mem outside) = .malformed w →
      Move cfg v i a ((v.setConn c (some (conn.refuse w))).goto i (k.pc c))
        [.refused c conn.answered w, .replied c conn.answered conn.sendBuf.length w]
  | answer {c : ConnId} {conn conn' : Conn} {args : CmdArgs} {k : Serving} {values : List Value}
      {env : Env} {outcome : Outcome} {w : Write} :
      Hands cfg v i a c k conn args values env outcome →
      plainAnswer conn outcome = some (conn', w) →
      Move cfg v i a (v.finishRequest i c conn' args true k)
        [.handled c conn.answered values env, .replied c conn.answered conn.sendBuf.length w]
  | flushall {c : ConnId} {conn : Conn} {args : CmdArgs} {k : Serving} {values : List Value}
      {env : Env} {w : Write} :
      Hands cfg v i a c k conn args values env (.flushall w) →
      Move cfg v i a ((v.flushAll cfg.numDbs).finishRequest i c (conn.write w) args true k)
        [.handled c conn.answered values env, .replied c conn.answered conn.sendBuf.length w]
  | shutdown {c : ConnId} {conn : Conn} {args : CmdArgs} {k : Serving} {values : List Value}
      {env : Env} :
      Hands cfg v i a c k conn args values env .shutdown →
      Move cfg v i a (v.goto i (.stop 0 c args k)) [.handled c conn.answered values env]
  /-- A keyed command on the home shard of its key. -/
  | inline {c : ConnId} {conn : Conn} {args : CmdArgs} {k : Serving} {values : List Value}
      {env : Env} {op : Op} {key : Bytes} {db' : Hashmap} {result : Result} :
      Hands cfg v i a c k conn args values env (.keyed op key) → home key = i →
      cmdExec op (v.dbs i conn.db) key (hashmapXxhash3 key 0 0) = (db', result) →
      Move cfg v i a
        ((v.setDb i conn.db db').finishRequest i c (conn.write (cmdResp result)) args true k)
        [.handled c conn.answered values env,
          .executed c conn.answered conn.db key op
            (hashmapGetWithHash (v.dbs i conn.db) key (hashmapXxhash3 key 0 0)) result,
          .replied c conn.answered conn.sendBuf.length (cmdResp result)]
  /-- A keyed command on another shard. -/
  | dispatch {c : ConnId} {conn : Conn} {args : CmdArgs} {k : Serving} {values : List Value}
      {env : Env} {op : Op} {key : Bytes} :
      Hands cfg v i a c k conn args values env (.keyed op key) → home key ≠ i →
      Move cfg v i a
        (v.goto i (.send (home key)
          (.request ⟨i, home key, c, conn.answered⟩ key (hashmapXxhash3 key 0 0) (cmdPreDispatch op))
          (.request c args k)))
        [.handled c conn.answered values env]
  | claim {t : Fin n} {msg : Message n} {k : Sending} : v.pc i = .send t msg k →
      (v.queue t).length < cfg.queueSize →
      Move cfg v i a ((v.setQueue t (v.queue t ++ [msg])).goto i (.publish t k)) []
  /-- The request is on its way, and the owner is done with it. -/
  | dispatched {t : Fin n} {c : ConnId} {conn : Conn} {args : CmdArgs} {k : Serving} :
      v.pc i = .publish t (.request c args k) → v.conn c = some conn →
      Move cfg v i a
        (v.finishRequest i c { conn with flags := { conn.flags with dispatchWaiting := true } }
          args true k) []
  | execute {count : ℕ} {ctx : CBContext n} {key : Bytes} {hash : Size} {fields : ReqFields}
      {conn : Conn} {db' : Hashmap} {result : Result} :
      v.pc i = .callback count (.request ctx key hash fields) → v.conn ctx.conn = some conn →
      cmdExec (cmdPreDispatchExec fields) (v.dbs i conn.db) key hash = (db', result) →
      Move cfg v i a
        ((v.setDb i conn.db db').goto i (.send ctx.src
          (.response ⟨ctx.dst, ctx.src, ctx.conn, ctx.index⟩ (cmdPostDispatchExec result))
          (.response ctx.conn count)))
        [.executed ctx.conn ctx.index conn.db key (cmdPreDispatchExec fields)
          (hashmapGetWithHash (v.dbs i conn.db) key hash) result]
  | deliver {count : ℕ} {ctx : CBContext n} {fields : RespFields} {conn : Conn} :
      v.pc i = .callback count (.response ctx fields) → v.conn ctx.conn = some conn →
      Move cfg v i a
        ((v.setConn ctx.conn (some { conn.write (cmdResp (cmdPreResp fields)) with
          flags := { conn.flags with dispatchWaiting := false } })).goto i (.onCb count ctx.conn))
        [.replied ctx.conn ctx.index conn.sendBuf.length (cmdResp (cmdPreResp fields))]
  | accept {es : List EpollEvent} {recv : RecvBuf} : v.pc i = .events (.listener :: es) →
      recv.size = 0 →
      Move cfg v i a
        ({ v.setConn v.nextConn (some (.accepted i recv)) with nextConn := v.nextConn + 1 }.goto i
          (.events es)) [.accepted v.nextConn]
  | receive {c : ConnId} {hup : Bool} {es : List EpollEvent} {conn : Conn} {recv : RecvBuf}
      {ending : Bool} {pc : Pc n} {r : ReadResult} :
      v.pc i = .read c hup es → v.conn c = some conn → a = .read r →
      (ending = true ↔ conn.flags.ending = true ∨ r matches .error | .eof) →
      (pc = .finish c hup es ∨ pc = .serve c (.epollin hup es) ∧ conn.flags.dispatchWaiting = false) →
      (∀ bytes, r = .data bytes → recv.window = conn.recv.window ++ bytes ∧
        (conn.flags.dispatchWaiting = false → pc = .serve c (.epollin hup es))) →
      (¬ (∃ bytes, r = .data bytes) → recv.window = conn.recv.window ∧ pc = .finish c hup es) →
      Move cfg v i a
        ((v.setConn c (some { conn with
          recv := recv, flags := { conn.flags with ending := ending } })).goto i pc) []
  | close {c : ConnId} {conn : Conn} {pc : Pc n} : v.conn c = some conn →
      ((∃ hup es, v.pc i = .finish c hup es ∧ pc = .events es ∧
        (conn.flags.ending = true ∨ hup = true)) ∨
        v.pc i = .closing c ∧ pc = .closing (c + 1) ∧ conn.shardId = i.val) →
      Move cfg v i a ((v.setConn c none).goto i pc) [.closed c]

/-! ### Every step is a move -/

theorem owned_of_isSome {s : State n} {i : Fin n} {c : ConnId} (some : (s.owned i c).isSome) :
    s.view.Owned i c := by
  obtain ⟨conn, found⟩ := Option.isSome_iff_exists.mp some
  obtain ⟨live, owner⟩ := Option.filter_eq_some_iff.mp found
  exact ⟨conn, live, by simpa using owner⟩

/-- Every connection that `epoll_wait` reports is open and belongs to the shard. -/
theorem reported_owned {s : State n} {i : Fin n} {events : List EpollEvent}
    (reportable : s.Reportable i events) :
    ∀ c ∈ events.flatMap EpollEvent.conns, s.view.Owned i c := by
  intro c mem
  obtain ⟨e, reported, of⟩ := List.mem_flatMap.mp mem
  have can := reportable.1 e reported
  cases e with
  | conn c' epollin hup =>
    simp only [EpollEvent.conns, List.mem_singleton] at of
    subst of
    exact owned_of_isSome can
  | listener | wakeup => simp [EpollEvent.conns] at of

@[simp] theorem Serving.conns_pc (c : ConnId) (k : Serving) :
    (k.pc c : Pc n).conns ⊆ c :: k.conns := by
  cases k <;> simp [Serving.pc, Pc.conns, Serving.conns]

theorem Serving.calm_pc (c : ConnId) (k : Serving) : (k.pc c : Pc n).Calm := by
  cases k <;> exact ⟨rfl, rfl, rfl⟩

@[simp] theorem Serving.away_pc (c : ConnId) (k : Serving) : (k.pc c : Pc n).away = [] := by
  cases k <;> rfl

/-! ### Threads between connections -/

theorem Pc.Idle.calm {pc : Pc n} (idle : pc.Idle) : pc.Calm := by
  cases pc <;> first | exact ⟨rfl, rfl, rfl⟩ | exact idle.elim

theorem Pc.Idle.away {pc : Pc n} (idle : pc.Idle) : pc.away = [] := by
  cases pc <;> first | rfl | exact idle.elim

section Stopping

variable {pc : Pc n} {c : ConnId} {args : CmdArgs} {k : Serving}

/-- The three places inside of `cmd_shutdown`. -/
theorem Pc.eq_of_stopping (stops : pc.stopping = some (c, args, k)) :
    (∃ j, pc = .stop j c args k) ∨ (∃ j, pc = .wakeup j (.shutdown c args k)) ∨
      ∃ j, pc = .signal j (.shutdown c args k) := by
  unfold Pc.stopping at stops
  split at stops <;> cases stops <;> simp

theorem Pc.calm_of_stopping (stops : pc.stopping = some (c, args, k)) : pc.Calm := by
  rcases Pc.eq_of_stopping stops with ⟨j, rfl⟩ | ⟨j, rfl⟩ | ⟨j, rfl⟩ <;> exact ⟨rfl, rfl, rfl⟩

theorem Pc.away_of_stopping (stops : pc.stopping = some (c, args, k)) : pc.away = [] := by
  rcases Pc.eq_of_stopping stops with ⟨j, rfl⟩ | ⟨j, rfl⟩ | ⟨j, rfl⟩ <;> rfl

theorem Pc.conns_of_stopping (stops : pc.stopping = some (c, args, k)) :
    pc.conns = c :: k.conns := by
  rcases Pc.eq_of_stopping stops with ⟨j, rfl⟩ | ⟨j, rfl⟩ | ⟨j, rfl⟩ <;> rfl

end Stopping

section Steps

variable [NeZero n] {cfg : Config} {s s' : State n} {i : Fin n} {a : Action} {seen : List Event}

theorem quiet_step {pc pc' : Pc n} (stands : (s.shard i).pc = pc)
    (goes : s'.view = s.view.goto i pc') (calm : pc.Calm) (calm' : pc'.Calm)
    (away : pc'.away ⊆ pc.away) (conns : ∀ c ∈ pc'.conns, c ∈ pc.conns ∨ s.view.Owned i c)
    (passes : Passes s.view i a pc') : Move cfg s.view i a s'.view [] := by
  have stands : s.view.pc i = pc := stands
  subst stands
  rw [goes]
  exact .quiet calm calm' away conns passes

omit [NeZero n] in
theorem view_goto_of {pc : Pc n} {t : State n} (same : t.view = s.view) :
    (t.goto i pc).view = s.view.goto i pc := by
  rw [view_goto, same]

omit [NeZero n] in
theorem idle_of {pc : Pc n} (stands : (s.shard i).pc = pc) (idle : pc.Idle) : (s.view.pc i).Idle := by
  rw [← stands] at idle
  exact idle

/-- A step between two points of the loop where no connection is at hand. -/
theorem idle_step {pc pc' : Pc n} (stands : (s.shard i).pc = pc)
    (goes : s'.view = s.view.goto i pc') (idle : pc.Idle) (idle' : pc'.Idle)
    (conns : pc'.conns ⊆ pc.conns) : Move cfg s.view i a s'.view [] := by
  apply quiet_step stands goes idle.calm idle'.calm
  · simp [idle'.away]
  · exact fun c mem => .inl (conns mem)
  · exact .idle (idle_of stands idle) idle'

/-- A step inside of `cmd_shutdown`. -/
theorem stop_step {pc pc' : Pc n} {c : ConnId} {args : CmdArgs} {k : Serving}
    (stands : (s.shard i).pc = pc) (goes : s'.view = s.view.goto i pc')
    (stops : pc.stopping = some (c, args, k)) (stops' : pc'.stopping = some (c, args, k))
    (below : ∀ j k, pc = .wakeup j k → j < n) : Move cfg s.view i a s'.view [] := by
  apply quiet_step stands goes (Pc.calm_of_stopping stops) (Pc.calm_of_stopping stops')
  · simp [Pc.away_of_stopping stops']
  · intro d mem
    rw [Pc.conns_of_stopping stops'] at mem
    exact .inl (by rwa [Pc.conns_of_stopping stops])
  · have stands : s.view.pc i = pc := stands
    exact .stopping (stands ▸ stops) stops' (stands ▸ below)

theorem move_of_stepServe {c : ConnId} {conn : Conn} {k : Serving} {outside : Mem} {env : Env}
    (stands : (s.shard i).pc = .serve c k) (live : s.conn c = some conn)
    (taken : stepServe cfg s i c conn k outside env = (s', seen)) :
    Move cfg s.view i (.serve outside env) s'.view seen := by
  have stands' : s.view.pc i = .serve c k := stands
  unfold stepServe at taken
  split at taken
  next nothing =>
    cases taken
    apply quiet_step stands (view_goto s i _) ⟨rfl, rfl, rfl⟩ (k.calm_pc c) (by simp)
    · exact fun d mem => .inl (k.conns_pc c mem)
    · exact .served stands' rfl live nothing
  next w malformed =>
    cases taken
    simp only [view_goto, view_setConn]
    exact .refuse stands' live rfl malformed
  next args head =>
    split at taken
    next empty =>
      cases taken
      rw [view_finishRequest]
      apply Move.skip (.inl stands') live
      · exact fun _ => ⟨outside, env, rfl, head, empty⟩
      · intro j w wakeup
        rw [stands'] at wakeup
        cases wakeup
    next argc =>
      have hands (outcome) (is : outcome = handleCommand n cfg.numDbs env
          (argumentValues (conn.mem outside) args)) :
          Hands cfg s.view i (.serve outside env) c k conn args
            (argumentValues (conn.mem outside) args) env outcome :=
        ⟨stands', live, ⟨outside, rfl, head, rfl⟩, argc, is⟩
      simp only [Prod.mk.injEq] at taken
      obtain ⟨rfl, rfl⟩ := taken
      cases outcome : handleCommand n cfg.numDbs env (argumentValues (conn.mem outside) args) with
      | reply w =>
        simp only [stepHandle, view_finishRequest]
        exact .answer (hands _ outcome.symm) rfl
      | quit w =>
        simp only [stepHandle, view_finishRequest]
        exact .answer (hands _ outcome.symm) rfl
      | select db w =>
        simp only [stepHandle, view_finishRequest]
        exact .answer (hands _ outcome.symm) rfl
      | flushall w =>
        simp only [stepHandle, view_finishRequest, view_flushAll]
        exact .flushall (hands _ outcome.symm)
      | shutdown =>
        simp only [stepHandle, view_goto]
        exact .shutdown (hands _ outcome.symm)
      | keyed op key =>
        simp only [stepHandle, stepKeyed]
        split
        next here =>
          simp only [view_finishRequest, view_setDb]
          exact .inline (hands _ outcome.symm) here rfl
        next elsewhere =>
          simp only [view_goto]
          exact .dispatch (hands _ outcome.symm) elsewhere

theorem move_of_stepCallback {count : ℕ} {conn : Conn} {msg : Message n}
    (stands : (s.shard i).pc = .callback count msg) (live : s.conn msg.ctx.conn = some conn)
    (taken : stepCallback s i count conn msg = (s', seen)) : Move cfg s.view i a s'.view seen := by
  cases msg with
  | request ctx key hash fields =>
    cases taken
    simp only [view_goto, view_setDb]
    exact .execute stands live rfl
  | response ctx fields =>
    cases taken
    simp only [view_goto, view_setConn]
    exact .deliver stands live

theorem window_compact (conn : Conn) : conn.compact.recv.window = conn.recv.window := by
  rw [Conn.compact, Conn.receive, RecvBuf.window_receive, List.append_nil]

theorem move_of_stepRead {c : ConnId} {conn : Conn} {hup : Bool} {events : List EpollEvent}
    {r : ReadResult} (stands : (s.shard i).pc = .read c hup events) (live : s.conn c = some conn)
    (taken : stepRead s i c conn hup events r = some s') :
    Move cfg s.view i (.read r) s'.view [] := by
  cases r with
  | data bytes =>
    simp only [stepRead] at taken
    split at taken
    next fits =>
      cases taken
      simp only [view_goto, view_setConn]
      apply Move.receive stands live rfl (by simp)
      · cases conn.flags.dispatchWaiting <;> simp
      · rintro bytes' is
        cases is
        exact ⟨conn.recv.window_receive bytes fits.2, fun free => by rw [free]; rfl⟩
      · exact fun none => absurd ⟨bytes, rfl⟩ none
    next => cases taken
  | again =>
    cases taken
    simp only [view_goto, view_setConn]
    exact .receive stands live rfl (by simp) (.inl rfl) (by simp) fun _ => ⟨window_compact conn, rfl⟩
  | error | eof =>
    cases taken
    simp only [view_goto, view_setConn]
    exact @Move.receive n _ cfg s.view i _ c hup events conn conn.compact.recv true _ _ stands live
      rfl (by simp) (.inl rfl) (by simp) fun _ => ⟨window_compact conn, rfl⟩

theorem move_of_stepEvent {e : EpollEvent} {events : List EpollEvent}
    (stands : (s.shard i).pc = .events (e :: events))
    (taken : stepEvent s i events e a = some (s', seen)) : Move cfg s.view i a s'.view seen := by
  unfold stepEvent at taken
  split at taken
  next addr =>
    split at taken
    next addressable =>
      cases taken
      rw [view_goto, view_accept]
      exact .accept stands rfl
    next => cases taken
  next =>
    split at taken
    next => cases taken
    next =>
      cases taken
      have same : (s.setShard i { s.shard i with wakeupFd := 0 }).view = s.view :=
        view_quiet s i _ rfl rfl rfl
      exact idle_step stands (view_goto_of same) trivial trivial (by simp [Pc.conns])
  next c epollin hup =>
    cases taken
    have stands' : s.view.pc i = .events (.conn c epollin hup :: events) := stands
    have goes := Passes.event (a := .go) stands'
    cases epollin with
    | true =>
      exact quiet_step stands (view_goto s i _) ⟨rfl, rfl, rfl⟩ ⟨rfl, rfl, rfl⟩ (by simp [Pc.away])
        (fun d mem => .inl (by simpa [Pc.conns, EpollEvent.conns] using mem)) goes
    | false =>
      exact quiet_step stands (view_goto s i _) ⟨rfl, rfl, rfl⟩ ⟨rfl, rfl, rfl⟩ (by simp [Pc.away])
        (fun d mem => .inl (by simp [Pc.conns, EpollEvent.conns] at mem ⊢; exact mem)) goes
  next => cases taken

theorem move_of_wokeUp {j : ℕ} {k : Waking} (stands : (s.shard i).pc = .wakeup j k) (past : n ≤ j)
    (taken : (s.setShard i { s.shard i with softNotify := 0 }).wokeUp i k = some s') :
    Move cfg s.view i a s'.view [] := by
  have same : (s.setShard i { s.shard i with softNotify := 0 }).view = s.view :=
    view_quiet s i _ rfl rfl rfl
  cases k with
  | loop =>
    cases taken
    exact idle_step stands (view_goto_of same) trivial trivial (by simp [Pc.conns])
  | shutdown c args k =>
    simp only [State.wokeUp] at taken
    split at taken
    next => cases taken
    next conn live =>
      cases taken
      rw [view_finishRequest, same]
      have stands' : s.view.pc i = .wakeup j (.shutdown c args k) := stands
      apply Move.skip (.inr ⟨j, stands⟩) live
      · intro serve
        rw [stands'] at serve
        cases serve
      · intro j' w wakeup
        rw [stands'] at wakeup
        cases wakeup
        exact past

theorem move_of_publish {target : Fin n} {k : Sending}
    (stands : (s.shard i).pc = .publish target k)
    (taken : (s.setShard target { s.shard target with
      cbQueue := (s.shard target).cbQueue.map fun slot =>
        if slot.writer = some i then { slot with writer := none } else slot }).sent i target k =
      some s') : Move cfg s.view i a s'.view [] := by
  -- the message of a cell stays the same when the cell is published
  have same : (s.setShard target { s.shard target with
      cbQueue := (s.shard target).cbQueue.map fun slot =>
        if slot.writer = some i then { slot with writer := none } else slot }).view = s.view := by
    have msgs : ((s.shard target).cbQueue.map fun slot =>
        if slot.writer = some i then { slot with writer := none } else slot).map Slot.msg =
        s.view.queue target := by
      simp only [List.map_map, State.view]
      refine List.map_congr_left fun slot _ => ?_
      simp only [Function.comp_apply]
      split <;> rfl
    rw [view_setQueue, msgs]
    simp [View.setQueue]
  cases k with
  | response c count =>
    cases taken
    exact quiet_step stands (by rw [view_goto, view_notify, same]) ⟨rfl, rfl, rfl⟩ ⟨rfl, rfl, rfl⟩
      (by simp [Pc.away, Sending.away]) (by simp [Pc.conns]) (.sent stands)
  | request c args k =>
    simp only [State.sent] at taken
    split at taken
    next => cases taken
    next conn live =>
      cases taken
      rw [view_finishRequest, view_notify, same]
      exact .dispatched stands live

theorem move_of_step (taken : step cfg s i a = some (s', seen)) :
    Move cfg s.view i a s'.view seen := by
  unfold step at taken
  split at taken
  next stands =>
    cases taken
    split <;> exact idle_step stands (view_goto s i _) trivial trivial (by simp [Pc.conns])
  next c stands =>
    split at taken
    next =>
      split at taken
      next =>
        cases taken
        exact idle_step stands (view_goto s i _) trivial trivial (by simp [Pc.conns])
      next conn found =>
        split at taken
        next =>
          cases taken
          exact idle_step stands (view_goto s i _) trivial trivial (by simp [Pc.conns])
        next =>
          cases taken
          rw [view_goto, view_setConn]
          obtain ⟨live, own⟩ := Option.filter_eq_some_iff.mp found
          exact .flush stands live (by simpa using own)
    next =>
      cases taken
      exact idle_step stands (view_goto s i _) trivial trivial (by simp [Pc.conns, Waking.conns])
  next j k stands =>
    split at taken
    next below =>
      have scanning (j' k') (is : (Pc.wakeup j k : Pc n) = .wakeup j' k') : j' < n := by
        cases is
        exact below
      split at taken
      next =>
        cases taken
        cases k with
        | loop =>
          exact idle_step stands (view_goto_of (view_setSleeping ..)) trivial trivial
            (by simp [Pc.conns])
        | shutdown c args k =>
          exact stop_step stands (view_goto_of (view_setSleeping ..)) rfl rfl scanning
      next =>
        cases taken
        cases k with
        | loop => exact idle_step stands (view_goto s i _) trivial trivial (by simp [Pc.conns])
        | shutdown c args k => exact stop_step stands (view_goto s i _) rfl rfl scanning
    next past =>
      obtain ⟨s'', woke, rfl, rfl⟩ : ∃ s'', _ = some s'' ∧ s'' = s' ∧ [] = seen := by
        simpa using taken
      exact move_of_wokeUp stands (Nat.le_of_not_lt past) woke
  next j k stands =>
    cases taken
    have same : (s.setShard j { s.shard j with wakeupFd := (s.shard j).wakeupFd + 1 }).view = s.view :=
      view_quiet s j _ rfl rfl rfl
    cases k with
    | loop =>
      exact idle_step stands (view_goto_of same) trivial trivial (by simp [Pc.conns])
    | shutdown c args k => exact stop_step stands (view_goto_of same) rfl rfl (by simp)
  next count stands =>
    split at taken
    next msg rest queue =>
      cases taken
      rw [view_goto, view_setQueue]
      exact .dequeue stands (by simp [State.view, queue])
    next =>
      cases taken
      split <;> exact idle_step stands (view_goto s i _) trivial trivial (by simp [Pc.conns])
  next count msg stands =>
    obtain ⟨conn, live, called⟩ := Option.map_eq_some_iff.mp taken
    exact move_of_stepCallback stands live called
  next count c stands =>
    obtain ⟨conn, live, goes⟩ := Option.map_eq_some_iff.mp taken
    cases goes
    have looked := Passes.looked (a := .go) (show s.view.pc i = .onCb count c from stands) live
    split
    next own =>
      rw [if_pos own] at looked
      refine quiet_step stands (view_goto s i _) ⟨rfl, rfl, rfl⟩ ⟨rfl, rfl, rfl⟩ (by simp [Pc.away])
        (fun c' mem => .inr ?_) looked
      obtain rfl : c' = c := by simpa [Pc.conns, Serving.conns] using mem
      exact ⟨conn, live, own⟩
    next other =>
      rw [if_neg other] at looked
      exact quiet_step stands (view_goto s i _) ⟨rfl, rfl, rfl⟩ ⟨rfl, rfl, rfl⟩ (by simp [Pc.away])
        (by simp [Pc.conns]) looked
  next c k outside env stands =>
    obtain ⟨conn, live, served⟩ := Option.map_eq_some_iff.mp taken
    exact move_of_stepServe stands live served
  next target msg k stands =>
    split at taken
    next room =>
      cases taken
      rw [view_goto, view_setQueue, List.map_append]
      exact .claim stands (by simpa [State.view] using room)
    next => cases taken
  next target k stands =>
    obtain ⟨s'', published, rfl, rfl⟩ : ∃ s'', _ = some s'' ∧ s'' = s' ∧ [] = seen := by
      simpa using taken
    exact move_of_publish stands published
  next j c args k stands =>
    split at taken
    next below =>
      cases taken
      have same : (s.setShard ⟨j, below⟩ { s.shard ⟨j, below⟩ with running := false }).view = s.view :=
        view_quiet s _ _ rfl rfl rfl
      exact stop_step stands (by rw [view_goto, view_notify, same]) rfl rfl (by simp)
    next =>
      cases taken
      exact stop_step stands (view_goto s i _) rfl rfl (by simp)
  next stands =>
    cases taken
    exact idle_step stands (view_goto_of (view_setSleeping ..)) trivial trivial
      (by simp [Pc.conns])
  next stands =>
    cases taken
    split <;> exact idle_step stands (view_goto s i _) trivial trivial (by simp [Pc.conns])
  next stands =>
    cases taken
    exact idle_step stands (view_goto_of (view_setSleeping ..)) trivial trivial
      (by simp [Pc.conns])
  next stands =>
    cases taken
    exact idle_step stands (view_goto s i _) trivial trivial (by simp [Pc.conns])
  next events stands =>
    split at taken
    next reportable =>
      cases taken
      exact quiet_step stands (view_goto s i _) ⟨rfl, rfl, rfl⟩ ⟨rfl, rfl, rfl⟩ (by simp [Pc.away])
        (fun c mem => .inr (reported_owned reportable c mem)) (.idle (idle_of stands trivial) trivial)
    next => cases taken
  next stands =>
    cases taken
    exact idle_step stands (view_goto s i _) trivial trivial (by simp [Pc.conns])
  next events stands =>
    split at taken
    next reportable =>
      cases taken
      exact quiet_step stands (view_goto s i _) ⟨rfl, rfl, rfl⟩ ⟨rfl, rfl, rfl⟩ (by simp [Pc.away])
        (fun c mem => .inr (reported_owned reportable.2 c mem))
        (.idle (idle_of stands trivial) trivial)
    next => cases taken
  next stands =>
    cases taken
    exact idle_step stands (view_goto_of (view_setSleeping ..)) trivial trivial
      (by simp [Pc.conns])
  next events stands =>
    cases taken
    exact idle_step stands (view_goto_of (view_setSleeping ..)) trivial trivial
      (by simp [Pc.conns])
  next stands =>
    cases taken
    exact idle_step stands (view_goto s i _) trivial trivial (by simp [Pc.conns])
  next e events stands => exact move_of_stepEvent stands taken
  next c hup events r stands =>
    split at taken
    next => cases taken
    next conn live =>
      split at taken
      next =>
        obtain ⟨s'', received, rfl, rfl⟩ : ∃ s'', _ = some s'' ∧ s'' = s' ∧ [] = seen := by
          simpa using taken
        exact move_of_stepRead stands live received
      next => cases taken
  next c hup events stands =>
    obtain ⟨conn, live, goes⟩ := Option.map_eq_some_iff.mp taken
    split at goes
    next ended =>
      cases goes
      rw [view_goto, view_setConn]
      exact .close live (.inl ⟨hup, events, stands, rfl, by simpa using ended⟩)
    next open' =>
      cases goes
      exact quiet_step stands (view_goto s i _) ⟨rfl, rfl, rfl⟩ ⟨rfl, rfl, rfl⟩ (by simp [Pc.away])
        (fun c mem => .inl (List.mem_cons_of_mem _ mem)) (.spared stands live (by simpa using open'))
  next c stands =>
    split at taken
    next =>
      split at taken
      next own =>
        cases taken
        obtain ⟨conn, live, owner⟩ := owned_of_isSome own
        rw [view_goto, view_setConn]
        exact .close live (.inr ⟨stands, rfl, owner⟩)
      next =>
        cases taken
        exact idle_step stands (view_goto s i _) trivial trivial (by simp [Pc.conns])
    next =>
      cases taken
      exact idle_step stands (view_goto s i _) trivial trivial (by simp [Pc.conns])
  next => cases taken

end Steps

end GhettoRedis.Server
