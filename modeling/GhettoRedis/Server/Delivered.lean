import GhettoRedis.Server.Replies
import GhettoRedis.Server.Serving

/-!
# What reaches the client

The send buffer of a connection holds what has been appended to it and not been flushed,
without regard to its size. When a read event sets `END`, the connection is closed before
the next flush.
-/
namespace GhettoRedis.Server

open Lib Protocol Commands

variable {n : ℕ}

/-- The bytes that were appended to the send buffer of connection `c`. -/
def appended (c : ConnId) (trace : List Event) : Bytes :=
  trace.flatMap fun e => match e with
    | .replied d _ _ w => if d = c then w.text else []
    | _ => []

/-- The bytes of connection `c` that were handed to `write`. -/
def flushed (c : ConnId) (trace : List Event) : Bytes :=
  trace.flatMap fun e => match e with
    | .flushed d bytes => if d = c then bytes else []
    | _ => []

section Traces

variable (c : ConnId) (trace trace' : List Event)

@[simp] theorem appended_append : appended c (trace ++ trace') = appended c trace ++ appended c trace' := by
  simp [appended]

@[simp] theorem flushed_append : flushed c (trace ++ trace') = flushed c trace ++ flushed c trace' := by
  simp [flushed]

end Traces

section Moves

variable [NeZero n] {cfg : Config} {v v' : View n} {i : Fin n} {a : Action} {seen : List Event}

/-- How a step changes the send buffer of connection `c`, which is `conn'` behind it. -/
inductive SendMove (v : View n) (seen : List Event) (c : ConnId) (conn' : Conn) : Prop
  | old {conn : Conn} : v.conn c = some conn →
      conn.sendBuf ++ appended c seen = flushed c seen ++ conn'.sendBuf → SendMove v seen c conn'
  | new : c = v.nextConn → conn'.sendBuf = [] → SendMove v seen c conn'

omit [NeZero n] in
theorem sendMove_of_same {c : ConnId} {conn' : Conn} (live' : v.conn c = some conn')
    (none : appended c seen = [] ∧ flushed c seen = []) : SendMove v seen c conn' :=
  .old live' (by simp [none])

omit [NeZero n] in
theorem sendMove_of_update {c d : ConnId} {conn conn' conn'' : Conn} (live : v.conn d = some conn)
    (conns : v'.conn = Function.update v.conn d (some conn'))
    (sends : conn.sendBuf ++ appended d seen = flushed d seen ++ conn'.sendBuf)
    (others : c ≠ d → appended c seen = [] ∧ flushed c seen = [])
    (live' : v'.conn c = some conn'') : SendMove v seen c conn'' := by
  rw [conns] at live'
  by_cases here : c = d
  · subst here
    obtain rfl : conn' = conn'' := by simpa using live'
    exact .old live sends
  · rw [Function.update_of_ne here] at live'
    exact sendMove_of_same live' (others here)

omit [NeZero n] in
theorem plainAnswer_sendBuf {conn conn' : Conn} {outcome : Outcome} {w : Write}
    (answer : plainAnswer conn outcome = some (conn', w)) : conn'.sendBuf = conn.sendBuf ++ w.text := by
  cases outcome <;> cases answer <;> rfl

theorem Move.sends (move : Move cfg v i a v' seen) {c : ConnId} {conn'' : Conn}
    (live' : v'.conn c = some conn'') : SendMove v seen c conn'' := by
  cases move with
  | quiet | dequeue | claim => exact sendMove_of_same live' ⟨rfl, rfl⟩
  | shutdown | dispatch | execute => exact sendMove_of_same live' ⟨rfl, rfl⟩
  | flush _ live =>
    refine sendMove_of_update live rfl ?_ (fun other => ?_) live'
    · -- what was in the buffer is flushed
      simp [appended, flushed, Conn.flush]
    · simp [appended, flushed, Ne.symm other]
  | skip _ live =>
    exact sendMove_of_update live rfl (by simp [appended, flushed, finish_sendBuf])
      (fun _ => ⟨rfl, rfl⟩) live'
  | refuse _ live =>
    refine sendMove_of_update live rfl ?_ (fun other => ?_) live'
    · simp [appended, flushed, Conn.refuse, Conn.write]
    · simp [appended, flushed, Ne.symm other]
  | answer hands answer =>
    refine sendMove_of_update hands.live rfl ?_ (fun other => ?_) live'
    · simp [appended, flushed, finish_sendBuf, plainAnswer_sendBuf answer]
    · simp [appended, flushed, Ne.symm other]
  | flushall hands | inline hands =>
    refine sendMove_of_update hands.live rfl ?_ (fun other => ?_) live'
    · simp [appended, flushed, finish_sendBuf, Conn.write]
    · simp [appended, flushed, Ne.symm other]
  | dispatched _ live =>
    exact sendMove_of_update live rfl (by simp [appended, flushed, finish_sendBuf])
      (fun _ => ⟨rfl, rfl⟩) live'
  | deliver _ live =>
    refine sendMove_of_update live rfl ?_ (fun other => ?_) live'
    · simp [appended, flushed, Conn.write]
    · simp [appended, flushed, Ne.symm other]
  | accept =>
    -- a new connection starts with an empty buffer
    by_cases new : c = v.nextConn
    · subst new
      obtain rfl : Conn.accepted i.val _ = conn'' := by simpa [View.goto, View.setConn] using live'
      exact .new rfl rfl
    · refine sendMove_of_same ?_ ⟨rfl, rfl⟩
      simpa [View.goto, View.setConn, Function.update_of_ne new] using live'
  | receive _ live =>
    exact sendMove_of_update live rfl (by simp [appended, flushed]) (fun _ => ⟨rfl, rfl⟩) live'
  | @close d =>
    refine sendMove_of_same ?_ ⟨rfl, rfl⟩
    -- a connection that is closed is no longer live
    by_cases here : c = d
    · subst here
      simp [View.goto, View.setConn] at live'
    · simpa [View.goto, View.setConn, Function.update_of_ne here] using live'

/-- Nothing is appended to a connection that is not there, and nothing of it is flushed. -/
theorem Move.sends_nothing (move : Move cfg v i a v' seen) {c : ConnId} (gone : v.conn c = none) :
    appended c seen = [] ∧ flushed c seen = [] := by
  have other {d : ConnId} {conn : Conn} (live : v.conn d = some conn) : d ≠ c := by
    rintro rfl
    simp [gone] at live
  cases move with
  | quiet | dequeue | skip | shutdown | dispatch | claim | dispatched | execute | accept | receive
  | close => exact ⟨rfl, rfl⟩
  | flush _ live | refuse _ live | deliver _ live => simp [appended, flushed, other live]
  | answer hands | flushall hands | inline hands => simp [appended, flushed, other hands.live]

/-- Whatever was appended and not flushed is in the send buffer. -/
structure Kept (v : View n) (trace : List Event) : Prop where
  buffers : ∀ c conn, v.conn c = some conn → appended c trace = flushed c trace ++ conn.sendBuf
  fresh : ∀ c, v.nextConn ≤ c → v.conn c = none ∧ appended c trace = [] ∧ flushed c trace = []

theorem Kept.move {trace : List Event} (kept : Kept v trace) (move : Move cfg v i a v' seen) :
    Kept v' (trace ++ seen) := by
  constructor
  · intro c conn' live'
    rw [appended_append, flushed_append]
    cases move.sends live' with
    | @old conn live sends =>
      calc appended c trace ++ appended c seen
          = flushed c trace ++ (conn.sendBuf ++ appended c seen) := by
            rw [kept.buffers c conn live, List.append_assoc]
        _ = flushed c trace ++ flushed c seen ++ conn'.sendBuf := by
            rw [sends, List.append_assoc]
    | new is empty =>
      subst is
      -- before it was accepted, nothing was stored or flushed
      obtain ⟨gone, none, none'⟩ := kept.fresh _ le_rfl
      obtain ⟨nothing, nothing'⟩ := move.sends_nothing gone
      simp [none, none', nothing, nothing', empty]
  · intro c new
    obtain ⟨gone, none, none'⟩ := kept.fresh c (move.keeps.1.trans new)
    obtain ⟨nothing, nothing'⟩ := move.sends_nothing gone
    refine ⟨?_, by simp [none, nothing], by simp [none', nothing']⟩
    cases after : v'.conn c with
    | none => rfl
    | some conn' =>
      rcases move.keeps.2 c conn' after with ⟨conn, live, -⟩ | ⟨-, below⟩
      · simp [gone] at live
      · exact absurd below (Nat.not_lt.mpr new)

end Moves

theorem kept_init (n : ℕ) : Kept (State.init n).view [] := by
  constructor
  · intro c conn live
    cases live
  · exact fun c _ => ⟨rfl, rfl, rfl⟩

theorem kept_of_run [NeZero n] {cfg : Config} {s : State n} {trace : List Event}
    (run : (server cfg).Reaches (State.init n) s trace) : Routed s.view ∧ Kept s.view trace :=
  reaches_invariant Kept (routed_init n) (kept_init n) (fun _ kept move => kept.move move) run

/-! ### The close -/

section Close

variable [NeZero n] {cfg : Config} {v v' : View n} {i : Fin n} {a : Action} {seen : List Event}

/-- The reply that comes with `END` is in the send buffer, and the loop over
`on_data_available` is left. -/
theorem Move.ends_serving (move : Move cfg v i a v' seen) {c : ConnId} {k : Serving}
    {conn conn' : Conn} (stands : v.pc i = .serve c k) (live : v.conn c = some conn)
    (going : conn.flags.ending = false) (live' : v'.conn c = some conn')
    (ended : conn'.flags.ending = true) : v'.pc i = k.pc c ∧ conn'.sendBuf ≠ [] := by
  -- such a step does not touch the flags
  have unchanged (same : v'.conn = v.conn) : False := by
    rw [same, live, Option.some.injEq] at live'
    rw [← live', going] at ended
    cases ended
  have finished {w : View n} {d : ConnId} {conn₁ conn₂ : Conn} {args : CmdArgs} {answered : Bool}
      {k' : Serving} (is : v' = w.finishRequest i d conn₂ args answered k')
      (stands' : v.pc i = .serve d k') (before : v.conn d = some conn₁)
      (same : conn₂.flags.ending = conn₁.flags.ending) : False := by
    obtain ⟨rfl, -⟩ : d = c ∧ k' = k := by simpa [stands] using stands'.symm
    obtain rfl : conn₁ = conn := by simpa [live, eq_comm] using before
    rw [is, View.finishRequest_conn_self, Option.some.injEq] at live'
    rw [← live', finish_ending, same, going] at ended
    cases ended
  cases move with
  | quiet => exact (unchanged rfl).elim
  | shutdown | dispatch => exact (unchanged rfl).elim
  | flush stands' | dequeue stands' | claim stands' | dispatched stands' | execute stands'
  | deliver stands' | accept stands' | receive stands' => simp [stands] at stands'
  | skip stands' live₁ =>
    rcases stands' with stands' | ⟨j, stands'⟩
    · exact (finished rfl stands' live₁ rfl).elim
    · simp [stands] at stands'
  | @refuse d conn₁ k' outside env w stands' live₁ _ malformed =>
    obtain ⟨rfl, rfl⟩ : d = c ∧ k' = k := by simpa [stands] using stands'.symm
    refine ⟨View.goto_pc_self .., ?_⟩
    obtain rfl : conn₁.refuse w = conn' := by simpa [View.goto] using live'
    -- the reply that names the error is stored
    rcases head_malformed malformed with rfl | rfl <;>
      simp [Conn.refuse, Conn.write, writeSimpleGenericError, writeSimpleError, asciiBytes]
  | @answer d conn₁ conn₂ args k' values env outcome w hands answer =>
    cases outcome with
    | reply | select =>
      cases answer
      exact (finished rfl hands.at_serve hands.live rfl).elim
    | quit w =>
      cases answer
      obtain ⟨rfl, rfl⟩ : d = c ∧ k' = k := by simpa [stands] using hands.at_serve.symm
      -- `QUIT` stores its reply and leaves the loop
      have stays : (conn₁.refuse w).finish args true = (false, conn₁.refuse w) := by
        simp [Conn.finish, Conn.refuse]
      refine ⟨?_, ?_⟩
      · rw [View.finishRequest, View.goto_pc_self, stays]
        rfl
      · rw [View.finishRequest_conn_self, stays, Option.some.injEq] at live'
        rw [← live', (handleCommand_quit hands.outcome.symm).1]
        simp [Conn.refuse, Conn.write, ok, writeSimpleString, asciiBytes]
    | flushall | shutdown | keyed => cases answer
  | flushall hands | inline hands => exact (finished rfl hands.at_serve hands.live rfl).elim
  | close _ place =>
    rcases place with ⟨_, _, stands', -⟩ | ⟨stands', -⟩ <;> simp [stands] at stands'

/-- Shard `i` is about to close connection `c` with something in its send buffer, or has
closed it. -/
def Doomed (i : Fin n) (c : ConnId) (hup : Bool) (es : List EpollEvent) (v : View n)
    (trace : List Event) : Prop :=
  (v.pc i = .finish c hup es ∧ ∃ conn, v.conn c = some conn ∧ conn.shardId = i.val ∧
    conn.flags.ending = true ∧ conn.sendBuf ≠ []) ∨
  v.conn c = none ∧ c < v.nextConn ∧ flushed c trace ≠ appended c trace

section Doomed

variable {c : ConnId} {hup : Bool} {es : List EpollEvent} {trace : List Event}

omit [NeZero n] in
theorem Kept.owes (kept : Kept v trace) {conn : Conn} (live : v.conn c = some conn)
    (more : conn.sendBuf ≠ []) : flushed c trace ≠ appended c trace := by
  intro same
  have kept := kept.buffers c conn live
  rw [← same, List.self_eq_append_right] at kept
  exact more kept

omit [NeZero n] in
theorem Doomed.owes {j : Fin n} (doomed : Doomed j c hup es v trace) (kept : Kept v trace) :
    flushed c trace ≠ appended c trace := by
  rcases doomed with ⟨-, conn, live, -, -, more⟩ | ⟨-, -, owes⟩
  · exact kept.owes live more
  · exact owes

/-- A connection that was closed does not come back. -/
theorem Move.gone (move : Move cfg v i a v' seen) (gone : v.conn c = none) (old : c < v.nextConn) :
    v'.conn c = none := by
  cases after : v'.conn c with
  | none => rfl
  | some conn' =>
    rcases move.keeps.2 c conn' after with ⟨conn, live, -⟩ | ⟨new, -⟩
    · simp [gone] at live
    · exact absurd old (Nat.not_lt.mpr new)

/-- All that shard `i` can do there is to close the connection. -/
theorem Move.closes (move : Move cfg v i a v' seen) (stands : v.pc i = .finish c hup es) {conn : Conn}
    (live : v.conn c = some conn) (ended : conn.flags.ending = true) :
    v'.conn c = none ∧ v'.nextConn = v.nextConn ∧ seen = [.closed c] := by
  cases move with
  | quiet _ _ _ _ passes =>
    cases passes with
    | idle idle => simp [stands, Pc.Idle] at idle
    | stopping stops => simp [stands, Pc.stopping] at stops
    | served stands' | looked stands' | sent stands' | event stands' => simp [stands] at stands'
    | spared stands' live' spared =>
      obtain ⟨rfl, rfl, rfl⟩ : _ = c ∧ _ = hup ∧ _ = es := by simpa [stands] using stands'.symm
      obtain rfl : conn = _ := by simpa [live] using live'
      -- the flag is set, so it is not spared
      exact absurd (.inl ended) spared
  | flush stands' | dequeue stands' | refuse stands' | claim stands' | dispatched stands'
  | execute stands' | deliver stands' | accept stands' | receive stands' => simp [stands] at stands'
  | skip stands' => rcases stands' with stands' | ⟨j, stands'⟩ <;> simp [stands] at stands'
  | answer hands | flushall hands | shutdown hands | inline hands | dispatch hands =>
    simpa [stands] using hands.at_serve
  | close _ place =>
    rcases place with ⟨_, _, stands', -⟩ | ⟨stands', -⟩
    · obtain ⟨rfl, -⟩ : _ = c ∧ _ := by simpa [stands] using stands'.symm
      exact ⟨Function.update_self .., rfl, rfl⟩
    · simp [stands] at stands'

theorem Doomed.move {j : Fin n} (doomed : Doomed j c hup es v trace) (routed : Routed v)
    (kept : Kept v trace) (move : Move cfg v i a v' seen) :
    Doomed j c hup es v' (trace ++ seen) := by
  rcases doomed with ⟨stands, conn, live, own, ended, more⟩ | ⟨gone, old, owes⟩
  · by_cases here : j = i
    · subst here
      obtain ⟨gone, next, rfl⟩ := move.closes stands live ended
      refine .inr ⟨gone, ?_, ?_⟩
      · rw [next]
        exact routed.live c conn live
      · simpa [appended, flushed] using kept.owes live more
    · refine .inl ⟨by rwa [move.pc_of_ne here], conn, ?_, own, ended, more⟩
      apply move.conn_of_other routed live
      rw [own]
      exact fun same => here (Fin.ext same)
  · obtain ⟨nothing, nothing'⟩ := move.sends_nothing gone
    refine .inr ⟨move.gone gone old, old.trans_le move.keeps.1, ?_⟩
    simpa [nothing, nothing'] using owes

end Doomed

end Close

/-- Whenever a request that is served in a read event sets `END`, the shard goes straight to
closing the connection, and what was appended to its send buffer is never all flushed. -/
theorem replies_lost [NeZero n] {cfg : Config} {s s' : State n} {trace seen : List Event} {i : Fin n}
    {a : Action} {c : ConnId} {hup : Bool} {es : List EpollEvent} {conn conn' : Conn}
    (run : (server cfg).Reaches (State.init n) s trace)
    (stands : (s.shard i).pc = .serve c (.epollin hup es)) (live : s.conn c = some conn)
    (going : conn.flags.ending = false) (taken : step cfg s i a = some (s', seen))
    (live' : s'.conn c = some conn') (ended : conn'.flags.ending = true) :
    (s'.shard i).pc = .finish c hup es ∧ ∀ s'' rest, (server cfg).Reaches s' s'' rest →
      flushed c (trace ++ seen ++ rest) ≠ appended c (trace ++ seen ++ rest) := by
  obtain ⟨routed, kept⟩ := kept_of_run run
  have move := move_of_step taken
  obtain ⟨stands', more⟩ := move.ends_serving stands live going live' ended
  refine ⟨stands', fun s'' rest run => ?_⟩
  have own : conn'.shardId = i.val :=
    ((routed.move move).conns i c (by simp [stands', Serving.pc, Pc.conns])).2 conn' live'
  obtain ⟨-, kept, doomed⟩ := reaches_invariant
    (fun v rest => Kept v (trace ++ seen ++ rest) ∧ Doomed i c hup es v (trace ++ seen ++ rest))
    (routed.move move) (by
      rw [List.append_nil]
      -- the reply is in the buffer when the connection is to be closed
      exact ⟨kept.move move, .inl ⟨stands', conn', live', own, ended, more⟩⟩)
    (fun routed both move => by
      rw [← List.append_assoc]
      exact ⟨both.1.move move, both.2.move routed both.1 move⟩) run
  exact doomed.owes kept

/-- A client that sends `PING` and `QUIT` in one pipeline; `PING` has been answered. -/
def pingQuit : List (Fin 2 × Action) :=
  goToSleep shard0 0 ++ acceptClient shard0 65536 ++ goToSleep shard0 1 ++
    readFrom shard0 0 (asciiBytes "PING" ++ crlf ++ asciiBytes "QUIT" ++ crlf) ++ [serveNext shard0]

/-- What the thread serves in a read event of a peer that has not hung up. -/
def Pc.servesEvent : Pc n → Option (ConnId × List EpollEvent)
  | .serve c (.epollin false es) => some (c, es)
  | _ => none

theorem Pc.eq_of_servesEvent {pc : Pc n} {c : ConnId} {es : List EpollEvent}
    (serves : pc.servesEvent = some (c, es)) : pc = .serve c (.epollin false es) := by
  unfold Pc.servesEvent at serves
  split at serves <;> cases serves
  rfl

/-- `QUIT` sets `END`, and the connection is closed in the next step. -/
theorem ping_quit_run : ∃ s s' s'' trace seen rest conn conn',
    (server config).Reaches (State.init 2) s trace ∧
    (s.shard shard0).pc = .serve 0 (.epollin false []) ∧
    (s.conn 0 = some conn ∧ conn.flags.ending = false) ∧
    step config s shard0 (serveNext shard0).2 = some (s', seen) ∧
    (s'.conn 0 = some conn' ∧ conn'.flags.ending = true) ∧
    (server config).Reaches s' s'' rest ∧ (s''.conn 0).isNone = true ∧
    flushed 0 (trace ++ seen ++ rest) = [] ∧
    appended 0 (trace ++ seen ++ rest) = asciiBytes "+PONG" ++ crlf ++ asciiBytes "+OK" ++ crlf := by
  have done : ∃ r ∈ (server config).exec (State.init 2) pingQuit,
      (r.1.shard shard0).pc.servesEvent = some (0, []) ∧
      (∃ conn ∈ r.1.conn 0, conn.flags.ending = false) ∧
      ∃ next ∈ step config r.1 shard0 (serveNext shard0).2,
        (∃ conn' ∈ next.1.conn 0, conn'.flags.ending = true) ∧
        ∃ last ∈ (server config).exec next.1 [(shard0, .go)], (last.1.conn 0).isNone = true ∧
          flushed 0 (r.2 ++ next.2 ++ last.2) = [] ∧
          appended 0 (r.2 ++ next.2 ++ last.2) =
            asciiBytes "+PONG" ++ crlf ++ asciiBytes "+OK" ++ crlf := by decide +kernel
  obtain ⟨⟨s, trace⟩, run, stands, ⟨conn, live, going⟩, ⟨s', seen⟩, taken, ⟨conn', live', ended⟩,
    ⟨s'', rest⟩, closes, closed⟩ := done
  exact ⟨s, s', s'', trace, seen, rest, conn, conn', Machine.reaches_of_exec _ run,
    Pc.eq_of_servesEvent stands, ⟨live, going⟩, taken, ⟨live', ended⟩,
    Machine.reaches_of_exec _ closes, closed⟩

theorem replies_lost_quit : ∃ s s' trace seen,
    (server config).Reaches (State.init 2) s trace ∧
    step config s shard0 (serveNext shard0).2 = some (s', seen) ∧
    (s'.shard shard0).pc = .finish 0 false [] ∧ ∀ s'' rest, (server config).Reaches s' s'' rest →
      flushed 0 (trace ++ seen ++ rest) ≠ appended 0 (trace ++ seen ++ rest) := by
  obtain ⟨s, s', -, trace, seen, -, conn, conn', run, stands, ⟨live, going⟩, taken, ⟨live', ended⟩, -⟩ :=
    ping_quit_run
  exact ⟨s, s', trace, seen, run, taken, replies_lost run stands live going taken live' ended⟩

/-- Neither the reply to `PING` nor the one to `QUIT` is written to the socket. -/
theorem quit_lost : ¬ ∀ s s' s'' trace seen rest i a c es conn conn',
    (server config).Reaches (State.init 2) s trace →
    (s.shard i).pc = .serve c (.epollin false es) →
    s.conn c = some conn → conn.flags.ending = false → step config s i a = some (s', seen) →
    s'.conn c = some conn' → conn'.flags.ending = true →
    (server config).Reaches s' s'' rest → s''.conn c = none →
    flushed c (trace ++ seen ++ rest) = appended c (trace ++ seen ++ rest) := by
  intro claimed
  obtain ⟨s, s', s'', trace, seen, rest, conn, conn', run, stands, ⟨live, going⟩, taken,
    ⟨live', ended⟩, run', closed, none, all⟩ := ping_quit_run
  have same := claimed s s' s'' trace seen rest shard0 _ 0 [] conn conn' run stands live going taken
    live' ended run' (Option.isNone_iff_eq_none.mp closed)
  rw [none, all] at same
  revert same
  decide

end GhettoRedis.Server
