import GhettoRedis.Server.Serving

/-!
# Room for a read

`reactor_epoll_on_epollin` asserts that the window does not fill the buffer. A read may fill
it; whether there is room again before the next read depends on what `on_data_available`
finds in it, if it is called at all.
-/
namespace GhettoRedis.Server

open Lib Protocol Commands

variable {n : ℕ}

/-- The window fills the buffer. -/
def Full (conn : Conn) : Prop := conn.recv.size = messageMaxLength

/-- The connection is closed at the end of the event. -/
def Ends (conn : Conn) (hup : Bool) : Prop := conn.flags.ending = true ∨ hup = true

/-- `on_data_available` takes the request off the window, or sets `END`. -/
def TakesOff (conn : Conn) : Head → Prop
  | .nothing => False
  | .malformed _ => True
  | .request args => args.len.toNat ≤ conn.recv.size

/-- The connection that the thread reads from, whether the event closes it, and the data. -/
def Pc.filling : Pc n → Action → Option (ConnId × Bool × Bytes)
  | .read c hup _, .read (.data bytes) => some (c, hup, bytes)
  | _, _ => none

/-- The connection whose window is parsed for an event, and whether the event closes it. -/
def Pc.parsing : Pc n → Action → Option (ConnId × Bool × Mem)
  | .serve c (.epollin hup _), .serve outside _ => some (c, hup, outside)
  | _, _ => none

/-- Of a connection that is not closed at the end of the event, a read fills the window only
when it is parsed at once, and then with a request that is taken off. -/
def Drains (v : View n) (i : Fin n) (a : Action) : Prop :=
  (∀ read ∈ (v.pc i).filling a, ∀ conn ∈ v.conn read.1,
    conn.recv.size + read.2.2.length = messageMaxLength → conn.flags.dispatchWaiting = true →
      Ends conn read.2.1) ∧
  ∀ serve ∈ (v.pc i).parsing a, ∀ conn ∈ v.conn serve.1,
    Full conn → Ends conn serve.2.1 ∨ TakesOff conn (conn.head (conn.mem serve.2.2))

/-! ### Who makes room -/

/-- The request that is under way is taken off the window, or the connection is closed. -/
def Settles (conn : Conn) (hup : Bool) (args : CmdArgs) : Prop :=
  Ends conn hup ∨ args.len.toNat ≤ conn.recv.size

/-- The thread has yet to make room in the window of connection `c`, or to close it. -/
inductive Pc.Frees (c : ConnId) (conn : Conn) : Pc n → Prop
  | serve {hup : Bool} {es : List EpollEvent} : Frees c conn (.serve c (.epollin hup es))
  | finish {hup : Bool} {es : List EpollEvent} : Ends conn hup → Frees c conn (.finish c hup es)
  | stopping {pc : Pc n} {args : CmdArgs} {hup : Bool} {es : List EpollEvent} :
      pc.stopping = some (c, args, .epollin hup es) → Settles conn hup args → Frees c conn pc
  | send {t : Fin n} {m : Message n} {args : CmdArgs} {hup : Bool} {es : List EpollEvent} :
      Settles conn hup args → Frees c conn (.send t m (.request c args (.epollin hup es)))
  | publish {t : Fin n} {args : CmdArgs} {hup : Bool} {es : List EpollEvent} :
      Settles conn hup args → Frees c conn (.publish t (.request c args (.epollin hup es)))

/-- A full window belongs to a connection whose shard has yet to make room in it. -/
def Drained (v : View n) : Prop :=
  ∀ c conn, v.conn c = some conn → Full conn → ∃ i, conn.shardId = i.val ∧ (v.pc i).Frees c conn

theorem Pc.Idle.not_frees {pc : Pc n} (idle : pc.Idle) (c : ConnId) (conn : Conn) :
    ¬ pc.Frees c conn := by
  intro frees
  cases frees with
  | stopping stops =>
    rcases Pc.eq_of_stopping stops with ⟨j, rfl⟩ | ⟨j, rfl⟩ | ⟨j, rfl⟩ <;> exact idle
  | _ => exact idle

/-- A thread that serves a connection frees no other. -/
theorem frees_serve {c d : ConnId} {conn : Conn} {k : Serving}
    (frees : (.serve d k : Pc n).Frees c conn) : d = c ∧ ∃ hup es, k = .epollin hup es := by
  cases frees with
  | serve => exact ⟨rfl, _, _, rfl⟩
  | stopping stops => cases stops

theorem frees_of_stopping {pc : Pc n} {c d : ConnId} {conn : Conn} {args : CmdArgs} {k : Serving}
    (stops : pc.stopping = some (d, args, k)) (frees : pc.Frees c conn) :
    d = c ∧ ∃ hup es, k = .epollin hup es ∧ Settles conn hup args := by
  cases frees with
  | stopping stops' settles =>
    rw [stops, Option.some.injEq, Prod.mk.injEq, Prod.mk.injEq] at stops'
    obtain ⟨rfl, rfl, rfl⟩ := stops'
    exact ⟨rfl, _, _, rfl, settles⟩
  | _ => cases stops

theorem not_frees_callback {v : View n} {i : Fin n} {count : ℕ} {m : Message n} {c : ConnId}
    {conn : Conn} (stands : v.pc i = .callback count m) : ¬ (v.pc i).Frees c conn := by
  rw [stands]
  intro frees
  cases frees with
  | stopping stops => cases stops

theorem not_frees_read {v : View n} {i : Fin n} {c d : ConnId} {hup : Bool} {es : List EpollEvent}
    {conn : Conn} (stands : v.pc i = .read d hup es) : ¬ (v.pc i).Frees c conn := by
  rw [stands]
  intro frees
  cases frees with
  | stopping stops => cases stops

/-- The end of a request leaves room, or the thread is not done with the connection. -/
theorem finishRequest_frees {w : View n} {i : Fin n} {c : ConnId} {conn : Conn} {args : CmdArgs}
    {answered : Bool} {hup : Bool} {es : List EpollEvent} (settles : Settles conn hup args)
    (full : Full (conn.finish args answered).2) :
    ((w.finishRequest i c conn args answered (.epollin hup es)).pc i).Frees c
      (conn.finish args answered).2 := by
  rw [View.finishRequest, View.goto_pc_self]
  unfold Conn.finish at full ⊢
  split
  next ending => exact .finish (.inl ending)
  next going =>
    rw [if_neg going] at full
    split
    next le =>
      rw [dif_pos le] at full
      have more : 0 < conn.recv.size - args.len.toNat := by
        rw [show conn.recv.size - args.len.toNat = messageMaxLength from full]
        decide
      rw [decide_eq_true more]
      exact .serve
    next long =>
      rcases settles with (ending | hup) | le
      · exact absurd ending going
      · exact .finish (.inr hup)
      · exact absurd le long

section Moves

variable [NeZero n] {cfg : Config} {v v' : View n} {i : Fin n} {a : Action} {seen : List Event}

omit [NeZero n] in
theorem Drains.parsed (drains : Drains v i a) {c : ConnId} {conn : Conn} {hup : Bool}
    {es : List EpollEvent} {outside : Mem} {env : Env}
    (stands : v.pc i = .serve c (.epollin hup es)) (is : a = .serve outside env)
    (live : v.conn c = some conn) (full : Full conn) :
    Ends conn hup ∨ TakesOff conn (conn.head (conn.mem outside)) := by
  have parses : (c, hup, outside) ∈ (v.pc i).parsing a := by
    rw [stands, is]
    exact Option.mem_some_self _
  exact drains.2 _ parses conn live full

omit [NeZero n] in
/-- A request that is taken off a full window is settled. -/
theorem Drains.settles (drains : Drains v i a) {c : ConnId} {conn : Conn} {hup : Bool}
    {es : List EpollEvent} {outside : Mem} {env : Env} {args : CmdArgs}
    (stands : v.pc i = .serve c (.epollin hup es)) (is : a = .serve outside env)
    (live : v.conn c = some conn) (full : Full conn)
    (head : conn.head (conn.mem outside) = .request args) : Settles conn hup args := by
  have parsed := drains.parsed stands is live full
  rwa [head] at parsed

omit [NeZero n] in
/-- A step of the thread alone. -/
theorem Passes.frees {pc : Pc n} (passes : Passes v i a pc) (drains : Drains v i a) {c : ConnId}
    {conn : Conn} (live : v.conn c = some conn) (full : Full conn)
    (before : (v.pc i).Frees c conn) : pc.Frees c conn := by
  cases passes with
  | idle idle => exact absurd before (idle.not_frees c conn)
  | @stopping _ at_stop stops stops' =>
    obtain ⟨d, args, k⟩ := at_stop
    obtain ⟨rfl, hup, es, rfl, settles⟩ := frees_of_stopping stops before
    exact .stopping stops' settles
  | @served d k outside env conn' stands is live' nothing =>
    rw [stands] at before
    obtain ⟨rfl, hup, es, rfl⟩ := frees_serve before
    obtain rfl : conn' = conn := by simpa [live'] using live
    have parsed := drains.parsed stands is live full
    rw [nothing] at parsed
    exact .finish (parsed.resolve_right id)
  | looked stands | sent stands | event stands =>
    rw [stands] at before
    cases before with
    | stopping stops => cases stops
  | spared stands live' stays =>
    rw [stands] at before
    cases before with
    | finish ends =>
      obtain rfl : _ = conn := by simpa [live'] using live
      exact absurd ends stays
    | stopping stops => cases stops

omit [NeZero n] in
theorem full_of_finish {conn : Conn} {args : CmdArgs} {answered : Bool}
    (full : Full (conn.finish args answered).2) : Full conn := by
  have inside := conn.recv.inside
  unfold Full Conn.finish at *
  split at full
  · exact full
  · split at full
    · -- a window that loses a request is not full any more
      have less : conn.recv.size - args.len.toNat = messageMaxLength := full
      omega
    · exact full

/-- A step of the shard of a connection leaves it the room it needs. -/
def Relieves (v v' : View n) (i : Fin n) (c : ConnId) : Prop :=
  ∀ conn conn', v.conn c = some conn → v'.conn c = some conn' → Full conn' →
    (Full conn → (v.pc i).Frees c conn) → (v'.pc i).Frees c conn'

omit [NeZero n] in
/-- The end of a request, at the end of which the connection is to be `next`. -/
theorem frees_of_finish {w : View n} {c d : ConnId} {conn next : Conn} {args : CmdArgs}
    {answered : Bool} {k : Serving} (is : v' = w.finishRequest i d next args answered k)
    (conns : w.conn = v.conn) (live : v.conn d = some conn) (recv : next.recv = conn.recv)
    (only : ∀ conn, (v.pc i).Frees c conn → d = c)
    (settles : Full conn → (v.pc i).Frees d conn →
      ∃ hup es, k = .epollin hup es ∧ Settles next hup args) : Relieves v v' i c := by
  subst is
  intro before after live₀ live' full' frees
  by_cases here : d = c
  · subst here
    obtain rfl : conn = before := by simpa [live] using live₀
    obtain rfl : (next.finish args answered).2 = after := by simpa using live'
    -- `next` has the window of `conn`
    have full : Full conn := by
      have full := full_of_finish full'
      rwa [Full, recv] at full
    obtain ⟨hup, es, rfl, fits⟩ := settles full (frees full)
    exact finishRequest_frees fits full'
  · rw [View.finishRequest_conn_of_ne _ _ _ _ _ _ _ (Ne.symm here), conns, live₀] at live'
    obtain rfl : before = after := by simpa using live'
    exact absurd (only before (frees full')) here

omit [NeZero n] in
/-- Where the thread frees no connection, no window can be full behind the step either. -/
theorem frees_of_busy {c d : ConnId} {conn : Conn} {next : Option Conn}
    (conns : v'.conn = Function.update v.conn d next) (live : v.conn d = some conn)
    (same : ∀ after ∈ next, after.recv.size = conn.recv.size)
    (busy : ∀ conn, ¬ (v.pc i).Frees c conn) : Relieves v v' i c := by
  intro before after live₀ live' full' frees
  rw [conns] at live'
  by_cases here : c = d
  · subst here
    obtain rfl : conn = before := by simpa [live] using live₀
    -- the connection that the step touches keeps the size of its window
    have full : Full conn := by
      rw [Full, ← same after (by simpa using live')]
      exact full'
    exact absurd (frees full) (busy conn)
  · rw [Function.update_of_ne here, live₀] at live'
    obtain rfl : before = after := by simpa using live'
    exact absurd (frees full') (busy before)

omit [NeZero n] in
theorem frees_of_same {c : ConnId} (conns : v'.conn = v.conn)
    (keeps : ∀ conn, v.conn c = some conn → Full conn → (v.pc i).Frees c conn →
      (v'.pc i).Frees c conn) : Relieves v v' i c := by
  intro before after live live' full' frees
  obtain rfl : before = after := by simpa [conns, live] using live'
  exact keeps before live full' (frees full')

theorem Hands.settles {c : ConnId} {k : Serving} {conn : Conn} {args : CmdArgs}
    {values : List Value} {env : Env} {outcome : Outcome}
    (hands : Hands cfg v i a c k conn args values env outcome) (drains : Drains v i a)
    (full : Full conn) (frees : (v.pc i).Frees c conn) :
    ∃ hup es, k = .epollin hup es ∧ Settles conn hup args := by
  have stands := hands.at_serve
  rw [stands] at frees
  obtain ⟨-, hup, es, rfl⟩ := frees_serve frees
  obtain ⟨outside, is, head, -⟩ := hands.head
  exact ⟨hup, es, rfl, drains.settles stands is hands.live full head⟩

theorem Move.frees (routed : Routed v) (move : Move cfg v i a v' seen) (drains : Drains v i a)
    (c : ConnId) : Relieves v v' i c := by
  have at_serve {d : ConnId} {k : Serving} (stands : v.pc i = .serve d k) :
      ∀ conn, (v.pc i).Frees c conn → d = c := by
    intro conn frees
    rw [stands] at frees
    exact (frees_serve frees).1
  have idle (idle : (v.pc i).Idle) : ∀ conn, ¬ (v.pc i).Frees c conn := idle.not_frees c
  cases move with
  | quiet _ _ _ _ passes =>
    apply frees_of_same (by rw [View.goto_conn])
    intro conn live full before
    rw [View.goto_pc_self]
    exact passes.frees drains live full before
  | flush stands live =>
    apply frees_of_busy rfl live (by simp [Conn.flush])
    exact idle (by simp [stands, Pc.Idle])
  | dequeue stands =>
    apply frees_of_same (by simp)
    intro conn _ _ before
    exact absurd before (idle (by simp [stands, Pc.Idle]) conn)
  | @skip d conn args k stands live request =>
    -- the request is dropped where it is read, or after the wake-up that it waited for
    rcases stands with stands | ⟨j, stands⟩
    · apply frees_of_finish rfl rfl live rfl (at_serve stands)
      intro full frees
      rw [stands] at frees
      obtain ⟨-, hup, es, rfl⟩ := frees_serve frees
      obtain ⟨outside, env, is, head, -⟩ := request stands
      exact ⟨hup, es, rfl, drains.settles stands is live full head⟩
    · have stops : (v.pc i).stopping = some (d, args, k) := by rw [stands, Pc.stopping]
      apply frees_of_finish rfl rfl live rfl
      · exact fun conn frees => (frees_of_stopping stops frees).1
      · exact fun _ frees => (frees_of_stopping stops frees).2
  | @refuse d conn k outside env w stands live =>
    intro before after live₀ live' full' frees
    by_cases here : c = d
    · subst here
      -- a refused request ends its connection, which is closed next
      obtain rfl : conn.refuse w = after := by simpa using live'
      obtain rfl : conn = before := by simpa [live] using live₀
      have frees := frees full'
      rw [stands] at frees
      obtain ⟨-, hup, es, rfl⟩ := frees_serve frees
      rw [View.goto_pc_self]
      exact .finish (.inl rfl)
    · rw [View.goto_conn, View.setConn_conn_of_ne _ _ _ here, live₀] at live'
      obtain rfl : before = after := by simpa using live'
      exact absurd (at_serve stands before (frees full')).symm here
  | @answer d conn conn' args k values env outcome w hands answer =>
    apply frees_of_finish rfl rfl hands.live (plainAnswer_recv answer) (at_serve hands.at_serve)
    intro full frees
    -- a connection that ends, or a request that leaves room behind it
    obtain ⟨hup, es, rfl, ends | le⟩ := hands.settles drains full frees
    · exact ⟨hup, es, rfl, .inl (ends.imp_left (plainAnswer_ending answer))⟩
    · refine ⟨hup, es, rfl, .inr ?_⟩
      rwa [plainAnswer_recv answer]
  | flushall hands | inline hands =>
    have only := at_serve hands.at_serve
    exact frees_of_finish rfl rfl hands.live rfl only (hands.settles drains)
  | shutdown hands | dispatch hands =>
    apply frees_of_same (by rw [View.goto_conn])
    intro conn live full frees
    obtain rfl := at_serve hands.at_serve conn frees
    obtain rfl : _ = conn := by simpa [hands.live] using live
    obtain ⟨hup, es, rfl, settles⟩ := hands.settles drains full frees
    rw [View.goto_pc_self]
    first
    | exact .stopping rfl settles
    | exact .send settles
  | @claim t msg k stands =>
    apply frees_of_same (by simp)
    intro conn live full frees
    rw [stands] at frees
    rw [View.goto_pc_self]
    cases frees with
    | send settles => exact .publish settles
    | stopping stops => cases stops
  | @dispatched t d conn args k stands live =>
    apply frees_of_finish rfl rfl live (by rfl)
    · intro conn frees
      rw [stands] at frees
      cases frees with
      | publish => rfl
      | stopping stops => cases stops
    · intro full frees
      rw [stands] at frees
      cases frees with
      | publish settles => exact ⟨_, _, rfl, settles⟩
      | stopping stops => cases stops
  | execute stands =>
    apply frees_of_same (by simp)
    intro conn _ _ before
    exact absurd before (not_frees_callback stands)
  | deliver stands live =>
    apply frees_of_busy rfl live
    · simp [Conn.write]
    · exact fun _ => not_frees_callback stands
  | accept stands =>
    intro before after live live' full' frees
    have old : c ≠ v.nextConn := (routed.live c before live).ne
    obtain rfl : before = after := by
      simpa [View.goto, View.setConn, Function.update_of_ne old, live] using live'
    exact absurd (frees full') (idle (by simp [stands, Pc.Idle]) before)
  | @receive d hup es conn recv ending pc r stands live is ends goes data other =>
    subst is
    by_cases some : ∃ bytes, r = .data bytes
    · obtain ⟨bytes, rfl⟩ := some
      intro before after live₀ live' full' frees
      by_cases here : c = d
      · subst here
        obtain rfl : conn = before := by simpa [live] using live₀
        obtain rfl : _ = after := by simpa using live'
        rw [View.goto_pc_self]
        rcases goes with rfl | ⟨rfl, -⟩
        · -- it is not parsed now, and so it is closed at the end of the event
          apply Pc.Frees.finish
          have waits : conn.flags.dispatchWaiting = true := by
            cases free : conn.flags.dispatchWaiting with
            | true => rfl
            | false => cases (data bytes rfl).2 free
          have fills : conn.recv.size + bytes.length = messageMaxLength := by
            rw [← full', ← recv.window_length, (data bytes rfl).1, List.length_append,
              RecvBuf.window_length]
          have read : (c, hup, bytes) ∈ (v.pc i).filling (.read (.data bytes)) := by
            rw [stands]
            exact Option.mem_some_self _
          exact (drains.1 _ read conn live fills waits).imp_left fun ended => ends.mpr (.inl ended)
        · exact .serve
      · rw [View.goto_conn, View.setConn_conn_of_ne _ _ _ here, live₀] at live'
        obtain rfl : before = after := by simpa using live'
        exact absurd (frees full') (not_frees_read stands)
    · apply frees_of_busy rfl live
      · have same : recv.size = conn.recv.size := by
          rw [← recv.window_length, (other some).1, RecvBuf.window_length]
        simpa using same
      · exact fun _ => not_frees_read stands
  | @close d conn pc live place =>
    intro before after live₀ live' full' frees
    have here : c ≠ d := by
      rintro rfl
      simp at live'
    rw [View.goto_conn, View.setConn_conn_of_ne _ _ _ here, live₀] at live'
    obtain rfl : before = after := by simpa using live'
    rcases place with ⟨hup, es, stands, -⟩ | ⟨stands, -⟩
    · have frees := frees full'
      rw [stands] at frees
      cases frees with
      | finish => exact absurd rfl here
      | stopping stops => cases stops
    · exact absurd (frees full') (idle (by simp [stands, Pc.Idle]) before)

omit [NeZero n] in
/-- The window of a new connection is empty. -/
theorem StreamMove.window_of_new (routed : Routed v) {b c : ConnId} {evs : List StreamEvent}
    (move : StreamMove v v' i a b evs) {conn' : Conn} (new : v.nextConn ≤ c) (live' : v'.conn c = some conn') :
    conn'.recv.window = [] := by
  have fresh : ¬ ∃ conn, v.conn c = some conn :=
    fun ⟨conn, live⟩ => absurd (routed.live c conn live) (Nat.not_lt.mpr new)
  have untouched {d : ConnId} {conn next : Conn} (turns : v.Turns v' d conn next) : False := by
    by_cases here : c = d
    · subst here
      exact fresh ⟨conn, turns.1⟩
    · exact fresh ⟨conn', turns.of_ne here ▸ live'⟩
  cases move with
  | still stays =>
    rcases stays c conn' live' with ⟨conn, live, -⟩ | ⟨-, empty, -⟩
    · exact absurd ⟨conn, live⟩ fresh
    · exact empty
  | receive turns | stop turns | finish turns => exact (untouched turns).elim
  | begin same => exact absurd ⟨conn', same ▸ live'⟩ fresh

theorem Drained.move (drained : Drained v) (routed : Routed v) (drains : Drains v i a)
    (move : Move cfg v i a v' seen) : Drained v' := by
  intro c conn' live' full'
  rcases move.keeps.2 c conn' live' with ⟨conn, live, same⟩ | ⟨new, fresh⟩
  · by_cases own : conn.shardId = i.val
    · refine ⟨i, same.trans own, ?_⟩
      apply move.frees routed drains c conn conn' live live' full'
      intro full
      obtain ⟨j, own', frees⟩ := drained c conn live full
      obtain rfl : i = j := Fin.ext (own.symm.trans own')
      exact frees
    · obtain rfl : conn = conn' := by
        simpa [live'] using (move.conn_of_other routed live own).symm
      obtain ⟨j, own', frees⟩ := drained c conn live full'
      refine ⟨j, own', ?_⟩
      rwa [move.pc_of_ne fun here => own (here ▸ own')]
  · have empty := congrArg List.length (move.stream.window_of_new routed new live')
    rw [RecvBuf.window_length, full'] at empty
    cases empty

end Moves

theorem drained_init (n : ℕ) : Drained (State.init n).view := by
  intro c conn live
  cases live

/-! ### Every run -/

/-- A run in which full windows are made room in meets the assertions: a read finds the window
shorter than the buffer, and leaves it no longer than that. -/
theorem read_has_room [NeZero n] {cfg : Config} {s : State n} {trace : List Event}
    (run : (server cfg).Run (fun s a => Drains s.view a.1 a.2) (State.init n) s trace) :
    (∀ i c hup es conn, (s.shard i).pc = .read c hup es → s.conn c = some conn →
        conn.recv.size < messageMaxLength) ∧
      ∀ c conn, s.conn c = some conn → conn.recv.size ≤ messageMaxLength := by
  obtain ⟨routed, drained⟩ := run_invariant (fun v _ => Drained v) (routed_init n) (drained_init n)
    (fun routed drained drains move => drained.move routed drains move) run
  have bounded (conn : Conn) : conn.recv.size ≤ messageMaxLength :=
    le_trans (Nat.le_add_left ..) conn.recv.inside
  refine ⟨fun i c hup es conn stands live => ?_, fun c conn _ => bounded conn⟩
  apply lt_of_le_of_ne (bounded conn)
  intro full
  obtain ⟨j, own, frees⟩ := drained c conn live full
  -- the shard that reads is the one that the connection belongs to
  have stands : s.view.pc i = .read c hup es := stands
  have own' := (routed.conns i c (by simp [stands, Pc.conns])).2 conn live
  obtain rfl : i = j := Fin.ext (own'.symm.trans own)
  exact not_frees_read stands frees

/-- A request that announces an argument longer than the buffer, and all of the buffer that is
left for it. -/
def announced (behind : ℕ) : Bytes :=
  asciiBytes "*1" ++ crlf ++ asciiBytes "$9000" ++ crlf ++ List.replicate (8181 - behind) 120

/-- Shard 0 reads `bytes` from its only client, serves it `times` times, and gets to read more. -/
def readTwice (bytes : Bytes) (times : ℕ) : List (Fin 2 × Action) :=
  goToSleep shard0 0 ++ acceptClient shard0 65536 ++ goToSleep shard0 1 ++
    readFrom shard0 0 bytes ++ List.replicate times (serveNext shard0) ++
    List.replicate 2 (shard0, .go) ++ goToSleep shard0 1 ++
    [(shard0, .wait (some [.conn 0 true false])), (shard0, .go), (shard0, .go)]

/-- The connection that the thread reads from. -/
def Pc.reading : Pc n → Option ConnId
  | .read c _ _ => some c
  | _ => none

theorem Pc.eq_of_reading {pc : Pc n} {c : ConnId} (reads : pc.reading = some c) :
    ∃ hup es, pc = .read c hup es := by
  unfold Pc.reading at reads
  split at reads <;> cases reads
  exact ⟨_, _, rfl⟩

instance (conn : Conn) : Decidable (Full conn) := inferInstanceAs (Decidable (_ = _))

instance (conn : Conn) (hup : Bool) : Decidable (Ends conn hup) := inferInstanceAs (Decidable (_ ∨ _))

instance (conn : Conn) (head : Head) : Decidable (TakesOff conn head) :=
  match head with
  | .nothing => .isFalse id
  | .malformed _ => .isTrue trivial
  | .request _ => inferInstanceAs (Decidable (_ ≤ _))

instance (v : View n) (i : Fin n) (a : Action) : Decidable (Drains v i a) :=
  inferInstanceAs (Decidable (_ ∧ _))

theorem read_has_room_announced : ∃ s trace, ∃ conn : Conn,
    (server config).Run (fun s a => Drains s.view a.1 a.2) (State.init 2) s trace ∧
      conn.recv.size = 8186 ∧ conn.recv.size < messageMaxLength := by
  have done : ∃ r ∈ ((server config).restrict fun s a => Drains s.view a.1 a.2).exec (State.init 2)
      (readTwice (asciiBytes "PING" ++ crlf ++ announced 6) 2),
      (r.1.shard shard0).pc.reading = some 0 ∧ ∃ conn ∈ r.1.conn 0, conn.recv.size = 8186 := by
    decide +kernel
  obtain ⟨⟨s, trace⟩, taken, reads, conn, live, size⟩ := done
  have run := Machine.run_of_restrict (Machine.reaches_of_exec _ taken)
  obtain ⟨hup, es, stands⟩ := Pc.eq_of_reading reads
  exact ⟨s, trace, conn, run, size, (read_has_room run).1 shard0 0 hup es conn stands live⟩

/-- The window is full, no request in it is complete, and the client sends more. -/
theorem read_without_room : ¬ ∀ s trace, (server config).Reaches (State.init 2) s trace →
    ∀ i c hup es conn, (s.shard i).pc = .read c hup es → s.conn c = some conn →
      conn.recv.size < messageMaxLength := by
  intro claimed
  have done : ∃ r ∈ (server config).exec (State.init 2) (readTwice (announced 0) 1),
      (r.1.shard shard0).pc.reading = some 0 ∧ ∃ conn ∈ r.1.conn 0, Full conn := by decide +kernel
  obtain ⟨⟨s, trace⟩, taken, reads, conn, live, full⟩ := done
  have run := Machine.reaches_of_exec _ taken
  obtain ⟨hup, es, stands⟩ := Pc.eq_of_reading reads
  have room := claimed s trace run shard0 0 hup es conn stands live
  exact absurd full room.ne

end GhettoRedis.Server
