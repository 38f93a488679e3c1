import GhettoRedis.Server.Routes

/-!
# The life of a connection

The shard that owns a connection frees it without asking where its messages are. The
callbacks of both sides read the connection behind the pointer that a message carries.
-/
namespace GhettoRedis.Server

open Lib Protocol Commands

variable {n : ℕ}

/-- A callback that is about to run, or whose `on_cb` has still to look at the connection,
is for a connection that has not been freed. -/
structure Unfreed (v : View n) : Prop where
  callback : ∀ i count msg, v.pc i = .callback count msg → v.conn msg.ctx.conn ≠ none
  onCb : ∀ i count c, v.pc i = .onCb count c → v.conn c ≠ none

/-- The connection that shard `i` frees in its next step. -/
def View.frees (v : View n) (i : Fin n) : Option ConnId :=
  match v.pc i with
  | .finish c hup _ =>
    (v.conn c).bind fun conn => if conn.flags.ending = true ∨ hup = true then some c else none
  | .closing c => (v.conn c).bind fun conn => if conn.shardId = i.val then some c else none
  | _ => none

/-- A connection is freed when no message about it is on its way and no thread is still in
the `on_cb` of one. -/
def Settled (v : View n) (i : Fin n) : Prop :=
  ∀ c ∈ v.frees i, v.Quiet c ∧ ∀ j, c ∉ (v.pc j).away

instance (v : View n) (i : Fin n) : Decidable (Settled v i) :=
  inferInstanceAs (Decidable (∀ _ ∈ _, _ ∧ ∀ _, _))

/-- Whatever names a connection names one that is open. -/
structure Alive (v : View n) : Prop where
  held : ∀ m, v.mail.Holds m → v.conn m.ctx.conn ≠ none
  away : ∀ i, ∀ c ∈ (v.pc i).away, v.conn c ≠ none

theorem alive_init (n : ℕ) : Alive (State.init n).view := by
  constructor <;> simp [State.init, State.view, View.mail, Mail.Holds, Pc.calling, Pc.sending,
    Pc.away]

theorem Alive.unfreed {v : View n} (alive : Alive v) : Unfreed v := by
  constructor
  · intro i count msg stands
    exact alive.held msg (View.holds_callback stands)
  · intro i count c stands
    exact alive.away i c (by simp [stands, Pc.away])

section Moves

variable [NeZero n] {cfg : Config} {v v' : View n} {i : Fin n} {a : Action}
  {seen trace : List Event}

omit [NeZero n] in
theorem update_open {c d : ConnId} {conn : Conn} (was : v.conn c ≠ none)
    (conns : v'.conn = Function.update v.conn d (some conn)) : v'.conn c ≠ none := by
  rw [conns]
  by_cases same : c = d
  · subst same
    simp
  · rwa [Function.update_of_ne same]

/-- The connection that a step closes is the one that it frees. -/
theorem Move.stays_open (move : Move cfg v i a v' seen) {c : ConnId} (was : v.conn c ≠ none)
    (kept : v.frees i ≠ some c) : v'.conn c ≠ none := by
  cases move with
  | quiet | dequeue | shutdown | dispatch | claim | execute => exact was
  | flush | skip | refuse | answer | flushall | inline | dispatched | deliver | accept | receive =>
    exact update_open was rfl
  | @close d conn pc live place =>
    have other : c ≠ d := by
      rintro rfl
      apply kept
      rcases place with ⟨hup, es, stands, rfl, ends⟩ | ⟨stands, rfl, own⟩
      · simp [View.frees, stands, live, ends]
      · simp [View.frees, stands, live, own]
    rwa [View.goto_conn, View.setConn_conn_of_ne _ _ _ other]

theorem Move.away (move : Move cfg v i a v' seen) :
    ∀ c ∈ (v'.pc i).away, c ∈ (v.pc i).away ∨ ∃ m, v.mail.Holds m ∧ m.ctx.conn = c := by
  intro c mem
  have after {d : ConnId} {k : Serving} (more : Bool)
      (mem : c ∈ (if more then Pc.serve d k else k.pc d : Pc n).away) : False := by
    cases more
    · rw [if_neg (by simp), Serving.away_pc] at mem
      cases mem
    · cases mem
  cases move with
  | quiet _ _ away => exact .inl (away (by simpa using mem))
  | flush | dequeue | shutdown | dispatch | accept => simp [Pc.away, Sending.away] at mem
  | skip | answer | flushall | inline | dispatched =>
    exact (after _ (by simpa [View.finishRequest] using mem)).elim
  | refuse => simp at mem
  | claim stands => exact .inl (by rw [stands]; simpa [Pc.away] using mem)
  | execute stands =>
    have same : _ = c := (List.mem_singleton.mp (by simpa [Pc.away, Sending.away] using mem)).symm
    exact .inr ⟨_, View.holds_callback stands, same⟩
  | deliver stands =>
    have same : _ = c := (List.mem_singleton.mp (by simpa [Pc.away] using mem)).symm
    exact .inr ⟨_, View.holds_callback stands, same⟩
  | receive _ _ _ _ goes => rcases goes with rfl | ⟨rfl, -⟩ <;> simp [Pc.away] at mem
  | close _ place => rcases place with ⟨_, _, _, rfl, _⟩ | ⟨_, rfl, _⟩ <;> simp [Pc.away] at mem

theorem Alive.move (alive : Alive v) (settled : Settled v i) (move : Move cfg v i a v' seen) :
    Alive v' := by
  have held_open {m : Message n} (held : v.mail.Holds m) : v'.conn m.ctx.conn ≠ none :=
    move.stays_open (alive.held m held) fun frees => (settled _ frees).1.held held rfl
  constructor
  · intro m held
    rcases move.held held with old | new
    · exact held_open old
    · cases move.written new with
      | request hands is =>
        subst is
        exact move.stays_open (by simp [Message.ctx, hands.live]) (by simp [View.frees, hands.at_serve])
      | @response _ ctx key hash _ fields _ _ stands is =>
        subst is
        have still := held_open (View.holds_callback stands)
        exact still
  · intro j c mem
    have known : c ∈ (v.pc j).away ∨ ∃ m, v.mail.Holds m ∧ m.ctx.conn = c := by
      by_cases same : j = i
      · subst same
        exact move.away c mem
      · exact .inl (move.pc_of_ne same ▸ mem)
    rcases known with before | ⟨m, held, rfl⟩
    · exact move.stays_open (alive.away j c before) fun frees => (settled c frees).2 j before
    · exact held_open held

end Moves

/-- In a run in which connections are freed only when they are settled, no callback runs for
a connection that has been freed. -/
theorem callbacks_unfreed [NeZero n] {cfg : Config} {s : State n} {trace : List Event}
    (run : (server cfg).Run (fun s a => Settled s.view a.1) (State.init n) s trace) :
    Unfreed s.view := by
  obtain ⟨-, alive⟩ := run_invariant (fun v _ => Alive v) (routed_init n) (alive_init n)
    (fun _ alive (settled : Settled _ _) move => alive.move settled move) run
  exact alive.unfreed

/-- The connection that shard `i` is about to run a callback for. -/
def View.callsFor (v : View n) (i : Fin n) : Option ConnId :=
  match v.pc i with
  | .callback _ msg => some msg.ctx.conn
  | _ => none

/-- A client sends a `GET` for a key of the other shard, which is about to execute it. -/
def asks : List (Fin 2 × Action) :=
  goToSleep shard0 0 ++ acceptClient shard0 65536 ++ goToSleep shard0 1 ++
    readFrom shard0 0 (asciiBytes "GET a" ++ crlf) ++ [serveNext shard0] ++
    List.replicate 14 (shard0, .go) ++ List.replicate 7 (shard1, .go)

/-- It sends the response, and the shard of the client is about to write the reply. -/
def answers : List (Fin 2 × Action) :=
  asks ++ List.replicate 5 (shard1, .go) ++ [(shard1, .wait none)] ++ List.replicate 6 (shard1, .go) ++
    [(shard0, .wait (some [.wakeup]))] ++ List.replicate 10 (shard0, .go)

/-- The reply is flushed, and then the client closes. -/
def leaves : List (Fin 2 × Action) :=
  answers ++ List.replicate 2 (shard0, .go) ++ [serveNext shard0, (shard0, .go), (shard0, .wait none)] ++
    goToSleep shard0 1 ++ [(shard0, .wait (some [.conn 0 true true])), (shard0, .go), (shard0, .go),
      (shard0, .read .eof), (shard0, .go)]

/-- Both callbacks of the request find the connection open, and it is closed behind them. -/
theorem callbacks_unfreed_answered :
    (∃ s trace, (server config).Run (fun s a => Settled s.view a.1) (State.init 2) s trace ∧
      s.view.callsFor 1 = some 0 ∧ Unfreed s.view) ∧
    (∃ s trace, (server config).Run (fun s a => Settled s.view a.1) (State.init 2) s trace ∧
      s.view.callsFor 0 = some 0 ∧ Unfreed s.view) ∧
    ∃ s trace, (server config).Run (fun s a => Settled s.view a.1) (State.init 2) s trace ∧
      (s.conn 0).isSome = false ∧ Unfreed s.view := by
  obtain ⟨s, trace, run, calls⟩ := Machine.exists_run_of_exec (server config)
    (fun s a => Settled s.view a.1) (State.init 2) asks (fun r => r.1.view.callsFor 1)
    (b := some 0) (by decide +kernel)
  obtain ⟨s', trace', run', calls'⟩ := Machine.exists_run_of_exec (server config)
    (fun s a => Settled s.view a.1) (State.init 2) answers (fun r => r.1.view.callsFor 0)
    (b := some 0) (by decide +kernel)
  obtain ⟨s'', trace'', run'', closed⟩ := Machine.exists_run_of_exec (server config)
    (fun s a => Settled s.view a.1) (State.init 2) leaves (fun r => (r.1.conn 0).isSome)
    (b := false) (by decide +kernel)
  exact ⟨⟨s, trace, run, calls, callbacks_unfreed run⟩, ⟨s', trace', run', calls', callbacks_unfreed run'⟩,
    s'', trace'', run'', closed, callbacks_unfreed run''⟩

/-- A client that sends a `GET` for a key of the other shard and closes, and then the other
shard. -/
def hastily : List (Fin 2 × Action) :=
  goToSleep shard0 0 ++ acceptClient shard0 65536 ++ goToSleep shard0 1 ++
    [(shard0, .wait (some [.conn 0 true true])), (shard0, .go), (shard0, .go),
      (shard0, .read (.data (asciiBytes "GET a" ++ crlf))), serveNext shard0] ++
    List.replicate 3 (shard0, .go) ++ List.replicate 7 (shard1, .go)

/-- The connection that a callback is about to use and that is no longer there. -/
def View.dangling (v : View n) (i : Fin n) : Option ConnId :=
  match v.pc i with
  | .callback _ msg => if (v.conn msg.ctx.conn).isSome then none else some msg.ctx.conn
  | _ => none

/-- The home shard of a key executes a request for a connection that its owner has freed. -/
theorem request_for_freed : ¬ ∀ s trace, (server config).Reaches (State.init 2) s trace →
    Unfreed s.view := by
  intro claimed
  obtain ⟨s, trace, run, freed⟩ := Machine.exists_of_exec (server config) (State.init 2) hastily
    (fun r => r.1.view.dangling 1) (b := some 0) (by decide +kernel)
  have unfreed := claimed s trace run
  simp only [View.dangling] at freed
  split at freed
  next count msg stands =>
    split at freed
    next => cases freed
    next gone => exact unfreed.callback 1 count msg stands (by simpa using gone)
  next => cases freed

end GhettoRedis.Server
