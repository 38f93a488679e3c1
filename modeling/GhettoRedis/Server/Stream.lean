import GhettoRedis.Protocol.Slices
import GhettoRedis.Server.Routes

/-!
# The byte streams of the connections

What a run does with the bytes that a client sends: how they are received, which requests
are handed to `handle_command`, and which bytes are consumed. The steps are those of the
server; only what is observed of them differs.
-/
namespace GhettoRedis.Server

open Lib Protocol Commands

variable {n : ℕ}

inductive StreamEvent where
  /-- `read` returned these bytes. -/
  | received (bytes : Bytes)
  /-- The first `len` bytes from the front of the window on go to `handle_command`, as a request
  and its arguments. -/
  | handed (len : ℕ)
  /-- The first `len` bytes of the window are consumed. -/
  | consumed (len : ℕ)
  /-- `on_data_available` answers a malformed request. -/
  | refused
  /-- `END` is set. -/
  | ended
  deriving DecidableEq

/-! ### Observing the steps -/

/-- How far a request extends, in unbounded arithmetic: to its own end or to that of an argument,
whichever is the last. -/
def requestExtent (args : CmdArgs) : ℕ :=
  (args.slices.map fun s => s.offset.toNat + s.len.toNat).foldr max args.len.toNat

/-- What the end of `on_data_available` does with a request. -/
def consumption (conn : Conn) (args : CmdArgs) : List StreamEvent :=
  if conn.flags.ending = false ∧ args.len.toNat ≤ conn.recv.size then [.consumed args.len.toNat]
  else []

/-- Behind `handle_command`; a dispatched command and `SHUTDOWN` are not done yet. -/
def outcomeEvents [NeZero n] (i : Fin n) (conn : Conn) (args : CmdArgs) : Outcome → List StreamEvent
  | .quit _ => [.ended]
  | .shutdown => []
  | .keyed _ key => if home key = i then consumption conn args else []
  | _ => consumption conn args

def readEvents : ReadResult → List StreamEvent
  | .data bytes => [.received bytes]
  | .again => []
  | .error | .eof => [.ended]

/-- `on_data_available` -/
def serveEvents [NeZero n] (cfg : Config) (i : Fin n) (conn : Conn) (outside : Mem) (env : Env) :
    List StreamEvent :=
  match conn.head (conn.mem outside) with
  | .nothing => []
  | .malformed _ => [.refused, .ended]
  | .request args =>
    if args.argc = 0 then consumption conn args
    else .handed (requestExtent args) :: outcomeEvents i conn args
      (handleCommand n cfg.numDbs env (argumentValues (conn.mem outside) args))

/-- The connection that a step of shard `i` is about, and what happens to its stream. -/
def streamOf [NeZero n] (cfg : Config) (v : View n) (i : Fin n) (a : Action) :
    ConnId × List StreamEvent :=
  match v.pc i, a with
  | .read c _ _, .read r => (c, readEvents r)
  | .serve c _, .serve outside env =>
    (c, (v.conn c).elim [] fun conn => serveEvents cfg i conn outside env)
  | .wakeup j (.shutdown c args _), _ =>
    (c, if j < n then [] else (v.conn c).elim [] fun conn => consumption conn args)
  | .publish _ (.request c args _), _ => (c, (v.conn c).elim [] fun conn => consumption conn args)
  | _, _ => (0, [])

def streamEvents [NeZero n] (cfg : Config) (v : View n) (i : Fin n) (a : Action) :
    List (ConnId × StreamEvent) :=
  (streamOf cfg v i a).2.map fun e => ((streamOf cfg v i a).1, e)

/-- The server, observed by its streams. -/
def streams [NeZero n] (cfg : Config) : Machine (State n) (Fin n × Action) (ConnId × StreamEvent) :=
  (server cfg).observe fun s a => streamEvents cfg s.view a.1 a.2

/-- What is observed of connection `c`. -/
def onStream (c : ConnId) (trace : List (ConnId × StreamEvent)) : List StreamEvent :=
  trace.filterMap fun e => if e.1 = c then some e.2 else none

/-- The bytes that were received. -/
def received (stream : List StreamEvent) : Bytes :=
  stream.flatMap fun e => match e with
    | .received bytes => bytes
    | _ => []

/-- How many bytes were consumed. -/
def consumed (stream : List StreamEvent) : ℕ :=
  (stream.map fun e => match e with
    | .consumed len => len
    | _ => 0).sum

section Streams

variable (stream stream' : List StreamEvent)

@[simp] theorem received_nil : received [] = [] := rfl
@[simp] theorem consumed_nil : consumed [] = 0 := rfl

@[simp] theorem received_append : received (stream ++ stream') = received stream ++ received stream' := by
  simp [received]

@[simp] theorem consumed_append : consumed (stream ++ stream') = consumed stream + consumed stream' := by
  simp [consumed]

@[simp] theorem received_received (bytes : Bytes) : received [.received bytes] = bytes := by
  simp [received]

@[simp] theorem consumed_received (bytes : Bytes) : consumed [.received bytes] = 0 := rfl

@[simp] theorem received_handed (len : ℕ) : received (.handed len :: stream) = received stream := rfl

@[simp] theorem consumed_handed (len : ℕ) : consumed (.handed len :: stream) = consumed stream := by
  simp [consumed]

@[simp] theorem onStream_append (c : ConnId) (trace trace' : List (ConnId × StreamEvent)) :
    onStream c (trace ++ trace') = onStream c trace ++ onStream c trace' := by
  simp [onStream]

end Streams

section Conns

variable (conn : Conn) (args : CmdArgs) (answered : Bool)

theorem received_consumption : received (consumption conn args) = [] := by
  unfold consumption
  split <;> rfl

/-- The window loses what is consumed. -/
theorem finish_window : (conn.finish args answered).2.recv.window =
    conn.recv.window.drop (consumed (consumption conn args)) := by
  unfold Conn.finish consumption
  split
  next ending => simp [ending]
  next going =>
    split
    next fits => simp [going, fits, RecvBuf.window_consume, consumed]
    next short => simp [short]

theorem consumed_consumption_le : consumed (consumption conn args) ≤ conn.recv.window.length := by
  unfold consumption
  split
  next holds => simpa [consumed] using holds.2
  next => exact Nat.zero_le _

theorem finish_ending : (conn.finish args answered).2.flags.ending = conn.flags.ending := by
  rw [finish_flags]

end Conns

/-! ### What a step does to a stream -/

/-- The request of a connection that the thread is still carrying out. -/
def Pc.underway : Pc n → Option (ConnId × CmdArgs)
  | .send _ _ (.request c args _) | .publish _ (.request c args _) | .stop _ c args _
  | .wakeup _ (.shutdown c args _) | .signal _ (.shutdown c args _) => some (c, args)
  | _ => none

/-- The streams of two connections look the same. -/
structure SameStream (conn conn' : Conn) : Prop where
  window : conn'.recv.window = conn.recv.window
  ending : conn'.flags.ending = conn.flags.ending

theorem SameStream.refl (conn : Conn) : SameStream conn conn := ⟨rfl, rfl⟩

/-- Every connection behind the step was there before, with the same stream, or is new. -/
def View.StillStreams (v v' : View n) : Prop :=
  ∀ c conn', v'.conn c = some conn' →
    (∃ conn, v.conn c = some conn ∧ SameStream conn conn') ∨
      c = v.nextConn ∧ conn'.recv.window = [] ∧ conn'.flags.ending = false

/-- Only connection `c` changes, to `conn'`. -/
def View.Turns (v v' : View n) (c : ConnId) (conn conn' : Conn) : Prop :=
  v.conn c = some conn ∧ v'.conn = Function.update v.conn c (some conn')

/-- In this step, shard `i` hands a request of connection `c` to `handle_command`. -/
def View.Requests (v : View n) (i : Fin n) (a : Action) (c : ConnId) (conn : Conn) (args : CmdArgs) :
    Prop :=
  ∃ k outside env, v.pc i = .serve c k ∧ a = .serve outside env ∧ v.conn c = some conn ∧
    conn.head (conn.mem outside) = .request args ∧ args.argc ≠ 0

inductive StreamMove (v v' : View n) (i : Fin n) (a : Action) : ConnId → List StreamEvent → Prop
  | still {c : ConnId} : v.StillStreams v' → (v'.pc i).underway = (v.pc i).underway →
      ((v.pc i).underway = none ∨ v'.conn = v.conn) → StreamMove v v' i a c []
  | receive {c : ConnId} {conn conn' : Conn} {bytes : Bytes} : v.Turns v' c conn conn' →
      conn'.recv.window = conn.recv.window ++ bytes → conn'.flags.ending = conn.flags.ending →
      (v.pc i).underway = none → (v'.pc i).underway = none → StreamMove v v' i a c [.received bytes]
  /-- `END` is set: by `read`, with an error reply, or by `QUIT`. -/
  | stop {c : ConnId} {conn conn' : Conn} {front : List StreamEvent} : v.Turns v' c conn conn' →
      conn'.recv.window = conn.recv.window → conn'.flags.ending = true →
      (v.pc i).underway = none → (v'.pc i).underway = none →
      (front = [] ∨ front = [.refused] ∧ (∃ k, v.pc i = .serve c k) ∨
        ∃ args, front = [.handed (requestExtent args)] ∧ v.Requests i a c conn args) →
      StreamMove v v' i a c (front ++ [.ended])
  /-- A request that takes more steps than one. -/
  | begin {c : ConnId} {conn : Conn} {args : CmdArgs} : v'.conn = v.conn →
      v.Requests i a c conn args → (v'.pc i).underway = some (c, args) →
      StreamMove v v' i a c [.handed (requestExtent args)]
  /-- The end of a request, in one step or after some, or of an empty line. -/
  | finish {c : ConnId} {conn conn' : Conn} {args : CmdArgs} {answered : Bool}
      {front : List StreamEvent} : v.Turns v' c conn (conn'.finish args answered).2 →
      conn'.recv = conn.recv → conn'.flags.ending = conn.flags.ending →
      (v'.pc i).underway = none →
      (front = [] ∧ ((v.pc i).underway = some (c, args) ∨ ∃ k, v.pc i = .serve c k) ∨
        front = [.handed (requestExtent args)] ∧ v.Requests i a c conn args) →
      StreamMove v v' i a c (front ++ consumption conn args)

section Moves

variable [NeZero n] {cfg : Config} {v v' : View n} {i : Fin n} {a : Action} {seen : List Event}

omit [NeZero n] in
theorem View.StillStreams.of_same (same : v'.conn = v.conn) : v.StillStreams v' :=
  fun _ conn' live => .inl ⟨conn', same ▸ live, .refl conn'⟩

omit [NeZero n] in
theorem View.StillStreams.of_update {c : ConnId} {conn conn' : Conn} (live : v.conn c = some conn)
    (conns : v'.conn = Function.update v.conn c (some conn')) (same : SameStream conn conn') :
    v.StillStreams v' := by
  intro d conn'' found
  rw [conns] at found
  by_cases here : d = c
  · subst here
    obtain rfl : conn' = conn'' := by simpa using found
    exact .inl ⟨conn, live, same⟩
  · rw [Function.update_of_ne here] at found
    exact .inl ⟨conn'', found, .refl conn''⟩

theorem Hands.requests {c : ConnId} {k : Serving} {conn : Conn} {args : CmdArgs}
    {values : List Value} {env : Env} {outcome : Outcome}
    (hands : Hands cfg v i a c k conn args values env outcome) : v.Requests i a c conn args := by
  obtain ⟨outside, is, head, -⟩ := hands.head
  exact ⟨k, outside, env, hands.at_serve, is, hands.live, head, hands.argc⟩

/-- A request that is handed on, by its outcome. -/
theorem Hands.streamOf {c : ConnId} {k : Serving} {conn : Conn} {args : CmdArgs}
    {values : List Value} {env : Env} {outcome : Outcome}
    (hands : Hands cfg v i a c k conn args values env outcome) :
    streamOf cfg v i a = (c, .handed (requestExtent args) :: outcomeEvents i conn args outcome) := by
  obtain ⟨outside, rfl, head, rfl⟩ := hands.head
  simp only [Server.streamOf, hands.at_serve, hands.live, Option.elim_some, serveEvents, head,
    if_neg hands.argc, hands.outcome]

theorem Passes.streamOf {pc : Pc n} (passes : Passes v i a pc) : (streamOf cfg v i a).2 = [] := by
  cases passes with
  | idle idle =>
    unfold Server.streamOf
    split <;> simp_all [Pc.Idle]
  | stopping stops _ below =>
    obtain ⟨j, stands⟩ | ⟨j, stands⟩ | ⟨j, stands⟩ := Pc.eq_of_stopping stops
    · simp [Server.streamOf, stands]
    · simp [Server.streamOf, stands, below j _ stands]
    · simp [Server.streamOf, stands]
  | served stands is live nothing =>
    subst is
    simp [Server.streamOf, stands, live, serveEvents, nothing]
  | looked stands | sent stands | event stands | spared stands => simp [Server.streamOf, stands]

omit [NeZero n] in
theorem Pc.Idle.underway {pc : Pc n} (idle : pc.Idle) : pc.underway = none := by
  cases pc with
  | wakeup _ k | signal _ k => cases k <;> first | rfl | exact idle.elim
  | _ => first | rfl | exact idle.elim

omit [NeZero n] in
theorem Serving.underway_pc (c : ConnId) (k : Serving) : (k.pc c : Pc n).underway = none := by
  cases k <;> rfl

omit [NeZero n] in
theorem Pc.underway_of_stopping {pc : Pc n} {c : ConnId} {args : CmdArgs} {k : Serving}
    (stops : pc.stopping = some (c, args, k)) : pc.underway = some (c, args) := by
  obtain ⟨j, rfl⟩ | ⟨j, rfl⟩ | ⟨j, rfl⟩ := Pc.eq_of_stopping stops <;> rfl

omit [NeZero n] in
theorem Passes.underway {pc : Pc n} (passes : Passes v i a pc) :
    pc.underway = (v.pc i).underway := by
  cases passes with
  | idle idle idle' => rw [idle.underway, idle'.underway]
  | @stopping pc at_stop stops stops' =>
    rw [Pc.underway_of_stopping stops, Pc.underway_of_stopping stops']
  | served stands => rw [stands, Serving.underway_pc]; rfl
  | looked stands => rw [stands]; split <;> rfl
  | sent stands | spared stands => rw [stands]; rfl
  | event stands => rw [stands]; split <;> rfl

omit [NeZero n] in
theorem finishRequest_underway (v : View n) (i : Fin n) (c : ConnId) (conn : Conn) (args : CmdArgs)
    (answered : Bool) (k : Serving) :
    ((v.finishRequest i c conn args answered k).pc i).underway = none := by
  simp only [View.finishRequest, View.goto_pc_self]
  split
  · rfl
  · exact k.underway_pc c

omit [NeZero n] in
theorem StreamMove.finishRequest {w : View n} {c : ConnId} {conn conn' : Conn} {args : CmdArgs}
    {answered : Bool} {k : Serving} {front : List StreamEvent} (live : v.conn c = some conn)
    (same : w.conn = v.conn) (recv : conn'.recv = conn.recv)
    (ending : conn'.flags.ending = conn.flags.ending)
    (from_where : front = [] ∧ ((v.pc i).underway = some (c, args) ∨ ∃ k, v.pc i = .serve c k) ∨
      front = [.handed (requestExtent args)] ∧ v.Requests i a c conn args) :
    StreamMove v (w.finishRequest i c conn' args answered k) i a c
      (front ++ consumption conn args) := by
  have turns : v.Turns (w.finishRequest i c conn' args answered k) c conn
      (conn'.finish args answered).2 := ⟨live, same ▸ rfl⟩
  exact .finish turns recv ending (finishRequest_underway w i c conn' args answered k) from_where

theorem Move.stream (move : Move cfg v i a v' seen) :
    StreamMove v v' i a (streamOf cfg v i a).1 (streamOf cfg v i a).2 := by
  cases move with
  | quiet _ _ _ _ passes =>
    -- nothing of a stream is touched
    rw [passes.streamOf]
    exact .still (.of_same rfl) (by simpa using passes.underway) (.inr rfl)
  | flush stands live =>
    rw [show (streamOf cfg v i a).2 = [] by simp [streamOf, stands]]
    exact .still (.of_update live rfl ⟨rfl, rfl⟩) (by simp [stands, Pc.underway])
      (.inl (by simp [stands, Pc.underway]))
  | dequeue stands =>
    rw [show (streamOf cfg v i a).2 = [] by simp [streamOf, stands]]
    exact .still (.of_same rfl) (by simp [stands, Pc.underway]) (.inr rfl)
  | @skip c conn args k stands live request past =>
    rcases stands with stands | ⟨j, stands⟩
    · -- an empty request is consumed at once
      obtain ⟨outside, env, rfl, head, empty⟩ := request stands
      rw [show streamOf cfg v i (.serve outside env) = (c, [] ++ consumption conn args) by
        simp [streamOf, stands, live, serveEvents, head, empty]]
      exact .finishRequest live rfl rfl rfl (.inl ⟨rfl, .inr ⟨k, stands⟩⟩)
    · -- one that was kept in `stop` is consumed after the loop
      rw [show streamOf cfg v i a = (c, [] ++ consumption conn args) by
        simp [streamOf, stands, live, past j _ stands]]
      exact .finishRequest live rfl rfl rfl (.inl ⟨rfl, .inl (by simp [stands, Pc.underway])⟩)
  | @refuse c conn k outside env w stands live is malformed =>
    subst is
    -- a malformed one ends the stream
    rw [show streamOf cfg v i (.serve outside env) = (c, [.refused] ++ [.ended]) by
      simp [streamOf, stands, live, serveEvents, malformed]]
    exact .stop ⟨live, rfl⟩ rfl rfl (by simp [stands, Pc.underway])
      (by simpa using k.underway_pc c) (.inr (.inl ⟨rfl, k, stands⟩))
  | @answer c conn conn' args k values env outcome w hands answer =>
    have calm := finishRequest_underway v i c conn' args true k
    -- it is handed on and consumed in one step
    have idle : (v.pc i).underway = none := by simp [hands.at_serve, Pc.underway]
    rw [hands.streamOf]
    cases outcome with
    | reply w | select db w =>
      cases answer
      show StreamMove _ _ _ _ _ ([.handed (requestExtent args)] ++ consumption conn args)
      refine .finishRequest hands.live ?_ ?_ ?_ (.inr ⟨rfl, hands.requests⟩) <;> rfl
    | quit w =>
      cases answer
      -- `QUIT` is handed on but stays in the buffer
      have stays : ((conn.refuse w).finish args true).2 = conn.refuse w := by
        simp [Conn.finish, Conn.refuse]
      show StreamMove _ _ _ _ _ ([.handed (requestExtent args)] ++ [.ended])
      apply StreamMove.stop ⟨hands.live, rfl⟩ _ _ idle calm (.inr (.inr ⟨args, rfl, hands.requests⟩))
      · rw [stays]
        rfl
      · rw [stays]
        rfl
    | flushall | shutdown | keyed => cases answer
  | @flushall c conn args k values env w hands =>
    rw [hands.streamOf]
    show StreamMove _ _ _ _ _ ([.handed (requestExtent args)] ++ consumption conn args)
    refine .finishRequest hands.live ?_ ?_ ?_ (.inr ⟨rfl, hands.requests⟩) <;> rfl
  | shutdown hands =>
    rw [hands.streamOf]
    -- the loop over the shards comes before the consumption
    exact .begin rfl hands.requests (by simp [Pc.underway])
  | @inline c conn args k values env op key db' result hands here =>
    rw [hands.streamOf]
    simp only [outcomeEvents, if_pos here]
    show StreamMove _ _ _ _ _ ([.handed (requestExtent args)] ++ consumption conn args)
    refine .finishRequest hands.live ?_ ?_ ?_ (.inr ⟨rfl, hands.requests⟩) <;> rfl
  | dispatch hands elsewhere =>
    rw [hands.streamOf]
    simp only [outcomeEvents, if_neg elsewhere]
    -- the request is under way until it is published
    exact .begin rfl hands.requests (by simp [Pc.underway])
  | @claim t msg k stands =>
    rw [show (streamOf cfg v i a).2 = [] by simp [streamOf, stands]]
    exact .still (.of_same rfl) (by cases k <;> simp [stands, Pc.underway]) (.inr rfl)
  | @dispatched t c conn args k stands live =>
    rw [show streamOf cfg v i a = (c, [] ++ consumption conn args) by simp [streamOf, stands, live]]
    refine .finishRequest live ?_ ?_ ?_ (.inl ⟨rfl, .inl (by simp [stands, Pc.underway])⟩) <;> rfl
  | execute stands =>
    rw [show (streamOf cfg v i a).2 = [] by simp [streamOf, stands]]
    exact .still (.of_same rfl) (by simp [stands, Pc.underway]) (.inr rfl)
  | deliver stands live =>
    rw [show (streamOf cfg v i a).2 = [] by simp [streamOf, stands]]
    exact .still (.of_update live rfl ⟨rfl, rfl⟩) (by simp [stands, Pc.underway])
      (.inl (by simp [stands, Pc.underway]))
  | accept stands empty =>
    rw [show (streamOf cfg v i a).2 = [] by simp [streamOf, stands]]
    refine .still (fun c conn' live => ?_) (by simp [stands, Pc.underway])
      (.inl (by simp [stands, Pc.underway]))
    -- the new connection begins with an empty window
    by_cases new : c = v.nextConn
    · subst new
      obtain rfl : Conn.accepted i.val _ = conn' := by
        simpa [View.goto, View.setConn] using live
      exact .inr ⟨rfl, by simp [RecvBuf.window, Conn.accepted, empty], rfl⟩
    · refine .inl ⟨conn', ?_, .refl conn'⟩
      simpa [View.goto, View.setConn, Function.update_of_ne new] using live
  | @receive c hup es conn recv ending pc r stands live is ends goes data other =>
    subst is
    have idle : (v.pc i).underway = none := by simp [stands, Pc.underway]
    have idle' : pc.underway = none := by
      rcases goes with rfl | ⟨rfl, -⟩ <;> rfl
    cases r with
    | data bytes =>
      -- what is read is added behind the window
      rw [show streamOf cfg v i (.read (.data bytes)) = (c, [.received bytes]) by
        simp [streamOf, stands, readEvents]]
      refine .receive ⟨live, rfl⟩ (data bytes rfl).1 ?_ idle (by simpa using idle')
      exact Bool.eq_iff_iff.mpr (by simpa using ends)
    | again =>
      -- a read without data leaves it
      rw [show (streamOf cfg v i (.read .again)).2 = [] by simp [streamOf, stands, readEvents]]
      refine .still (.of_update live rfl ⟨(other (by simp)).1, ?_⟩) (by simp [idle, idle']) (.inl idle)
      exact Bool.eq_iff_iff.mpr (by simpa using ends)
    | error | eof =>
      simp only [streamOf, stands, readEvents]
      show StreamMove _ _ _ _ _ ([] ++ [.ended])
      exact .stop ⟨live, rfl⟩ (other (by simp)).1 (ends.mpr (.inr rfl)) idle (by simpa using idle')
        (.inl rfl)
  | @close c conn pc live place =>
    have idle : (v.pc i).underway = none ∧ pc.underway = none ∧ (streamOf cfg v i a).2 = [] := by
      rcases place with ⟨hup, es, stands, rfl, -⟩ | ⟨stands, rfl, -⟩ <;>
        simp [stands, Pc.underway, streamOf]
    rw [idle.2.2]
    refine .still (fun d conn' found => .inl ⟨conn', ?_, .refl conn'⟩) (by simp [idle]) (.inl idle.1)
    -- the closed connection has no stream left
    by_cases here : d = c
    · subst here
      simp [View.goto, View.setConn] at found
    · simpa [View.goto, View.setConn, Function.update_of_ne here] using found

/-! ### Steps on one stream -/

/-- What a step adds to the stream of connection `d`. -/
def streamAt (cfg : Config) (v : View n) (i : Fin n) (a : Action) (d : ConnId) : List StreamEvent :=
  if d = (streamOf cfg v i a).1 then (streamOf cfg v i a).2 else []

theorem onStream_streamEvents (d : ConnId) :
    onStream d (streamEvents cfg v i a) = streamAt cfg v i a d := by
  unfold onStream streamEvents streamAt
  rw [List.filterMap_map]
  split
  next here =>
    subst here
    simp
  next elsewhere => simp [Ne.symm elsewhere]

omit [NeZero n] in
theorem View.Turns.of_ne {c d : ConnId} {conn conn' : Conn} (turns : v.Turns v' c conn conn')
    (other : d ≠ c) : v'.conn d = v.conn d := by
  rw [turns.2, Function.update_of_ne other]

omit [NeZero n] in
theorem View.Turns.self {c : ConnId} {conn conn' found : Conn} (turns : v.Turns v' c conn conn')
    (live : v'.conn c = some found) : found = conn' := by
  rw [turns.2] at live
  simpa [eq_comm] using live

omit [NeZero n] in
/-- Only connections that are open have events. -/
theorem StreamMove.live {c : ConnId} {evs : List StreamEvent} (move : StreamMove v v' i a c evs) :
    evs = [] ∨ ∃ conn, v.conn c = some conn := by
  cases move with
  | still => exact .inl rfl
  | receive turns | stop turns | finish turns => exact .inr ⟨_, turns.1⟩
  | begin _ requests =>
    obtain ⟨_, _, _, -, -, live, -⟩ := requests
    exact .inr ⟨_, live⟩

omit [NeZero n] in
theorem Pc.mem_conns_of_underway {pc : Pc n} {c : ConnId} {args : CmdArgs}
    (underway : pc.underway = some (c, args)) : c ∈ pc.conns := by
  unfold Pc.underway at underway
  split at underway <;> cases underway <;> simp [Pc.conns, Waking.conns, Sending.conns]

omit [NeZero n] in
/-- What is under way behind a step was so before, or it begins in this step. -/
theorem StreamMove.underway {c d : ConnId} {evs : List StreamEvent} {args : CmdArgs}
    (move : StreamMove v v' i a d evs) (underway' : (v'.pc i).underway = some (c, args)) :
    ((v.pc i).underway = some (c, args) ∧ v'.conn = v.conn) ∨
      ∃ conn, v.Requests i a c conn args ∧ v'.conn = v.conn := by
  cases move with
  | still _ same conns =>
    rw [same] at underway'
    exact .inl ⟨underway', conns.resolve_left (by simp [underway'])⟩
  | receive _ _ _ _ idle | stop _ _ _ _ idle | finish _ _ _ idle => simp [idle] at underway'
  | begin conns requests underway =>
    obtain ⟨rfl, rfl⟩ : _ = c ∧ _ = args := by simpa [underway] using underway'
    exact .inr ⟨_, requests, conns⟩

end Moves

/-- An invariant of the streams is proved move by move. -/
theorem stream_invariant [NeZero n] {cfg : Config} {start s : State n}
    {trace : List (ConnId × StreamEvent)} {ok : View n → Fin n → Action → Prop}
    (inv : View n → List (ConnId × StreamEvent) → Prop) (routed : Routed start.view)
    (initial : inv start.view [])
    (preserved : ∀ {v v' : View n} {i : Fin n} {a : Action} {trace : List (ConnId × StreamEvent)}
      {seen : List Event}, Routed v → inv v trace → ok v i a → Move cfg v i a v' seen →
      inv v' (trace ++ streamEvents cfg v i a))
    (run : (streams cfg).Run (fun s a => ok s.view a.1 a.2) start s trace) :
    Routed s.view ∧ inv s.view trace := by
  refine run.invariant (fun s trace => Routed s.view ∧ inv s.view trace) ⟨routed, initial⟩ ?_
  rintro s trace ⟨i, a⟩ s' seen - ⟨routed, holds⟩ allowed taken
  obtain ⟨rfl, events, taken⟩ := Machine.step_of_observe taken
  have move := move_of_step taken
  exact ⟨routed.move move, preserved routed holds allowed move⟩

end GhettoRedis.Server
