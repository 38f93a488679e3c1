import GhettoRedis.Server.Stream

/-!
# The receive window

The window of a connection is always the part of its stream that has been received and not
yet consumed.
-/
namespace GhettoRedis.Server

open Lib Protocol Commands

variable {n : ℕ}

section Moves

variable [NeZero n] {cfg : Config} {v v' : View n} {i : Fin n} {a : Action}

/-- `window` is what `stream` has received and not consumed. -/
def Unconsumed (stream : List StreamEvent) (window : Bytes) : Prop :=
  consumed stream ≤ (received stream).length ∧ window = (received stream).drop (consumed stream)

omit [NeZero n] in
/-- A step appends to a window what it receives, and drops what it consumes. -/
theorem StreamMove.window {c d : ConnId} {evs : List StreamEvent} {conn' : Conn}
    (move : StreamMove v v' i a c evs) (live' : v'.conn d = some conn') :
    (∃ conn, v.conn d = some conn ∧ (d ≠ c → conn'.recv.window = conn.recv.window) ∧
      (d = c → consumed evs ≤ (conn.recv.window ++ received evs).length ∧
        conn'.recv.window = (conn.recv.window ++ received evs).drop (consumed evs))) ∨
      d = v.nextConn ∧ conn'.recv.window = [] := by
  cases move with
  | still stays =>
    rcases stays d conn' live' with ⟨conn, live, same⟩ | ⟨new, empty, -⟩
    · exact .inl ⟨conn, live, fun _ => same.window, fun _ => by simp [same.window]⟩
    · exact .inr ⟨new, empty⟩
  | @receive conn conn'' bytes turns window =>
    refine .inl ?_
    by_cases here : d = c
    · subst here
      obtain rfl := turns.self live'
      exact ⟨conn, turns.1, (absurd rfl ·), fun _ => by simp [window]⟩
    · exact ⟨conn', turns.of_ne here ▸ live', fun _ => rfl, (absurd · here)⟩
  | @stop conn conn'' front turns window _ _ _ from_where =>
    have silent : received (front ++ [.ended]) = [] ∧ consumed (front ++ [.ended]) = 0 := by
      rcases from_where with rfl | ⟨rfl, -⟩ | ⟨args, rfl, -⟩ <;> exact ⟨rfl, rfl⟩
    refine .inl ?_
    by_cases here : d = c
    · subst here
      obtain rfl := turns.self live'
      exact ⟨conn, turns.1, (absurd rfl ·), fun _ => by simp [silent, window]⟩
    · exact ⟨conn', turns.of_ne here ▸ live', fun _ => rfl, (absurd · here)⟩
  | begin same => exact .inl ⟨conn', same ▸ live', fun _ => rfl, fun _ => by simp [consumed, received]⟩
  | @finish conn conn'' args answered front turns recv ending _ from_where =>
    have consumption' : consumption conn args = consumption conn'' args := by
      rw [consumption, consumption, recv, ending]
    have silent : received (front ++ consumption conn args) = [] ∧
        consumed (front ++ consumption conn args) = consumed (consumption conn'' args) := by
      rcases from_where with ⟨rfl, -⟩ | ⟨rfl, -⟩ <;> simp [received_consumption, consumption']
    refine .inl ?_
    by_cases here : d = c
    · subst here
      obtain rfl := turns.self live'
      refine ⟨conn, turns.1, (absurd rfl ·), fun _ => ?_⟩
      rw [silent.1, silent.2, List.append_nil, finish_window, recv]
      exact ⟨recv ▸ consumed_consumption_le conn'' args, rfl⟩
    · exact ⟨conn', turns.of_ne here ▸ live', fun _ => rfl, (absurd · here)⟩

omit [NeZero n] in
theorem Unconsumed.step {stream evs : List StreamEvent} {window : Bytes}
    (unconsumed : Unconsumed stream window)
    (inside : consumed evs ≤ (window ++ received evs).length) :
    Unconsumed (stream ++ evs) ((window ++ received evs).drop (consumed evs)) := by
  obtain ⟨le, rfl⟩ := unconsumed
  rw [List.length_append, List.length_drop] at inside
  constructor
  · simp only [consumed_append, received_append, List.length_append]
    omega
  · rw [received_append, consumed_append, ← List.drop_append_of_le_length le, List.drop_drop]

/-- Every window, and the streams of connections that are still to come. -/
structure Windows (v : View n) (trace : List (ConnId × StreamEvent)) : Prop where
  windows : ∀ c conn, v.conn c = some conn → Unconsumed (onStream c trace) conn.recv.window
  fresh : ∀ c, v.nextConn ≤ c → onStream c trace = []

theorem Windows.move {trace : List (ConnId × StreamEvent)} {seen : List Event} (routed : Routed v)
    (holds : Windows v trace) (move : Move cfg v i a v' seen) :
    Windows v' (trace ++ streamEvents cfg v i a) := by
  have streams := move.stream
  have quiet (c) (new : v.nextConn ≤ c) : streamAt cfg v i a c = [] := by
    unfold streamAt
    split
    next here =>
      rcases streams.live with none | ⟨conn, live⟩
      · exact none
      · have old := routed.live _ conn live
        exact absurd (here ▸ old) (Nat.not_lt.mpr new)
    next => rfl
  constructor
  · intro c conn' live'
    rw [onStream_append, onStream_streamEvents]
    rcases streams.window live' with ⟨conn, live, other, here⟩ | ⟨rfl, empty⟩
    · have before := holds.windows c conn live
      unfold streamAt
      split
      next is =>
        rw [(here is).2]
        exact before.step (here is).1
      next isNot =>
        rw [other isNot, List.append_nil]
        exact before
    · rw [holds.fresh _ le_rfl, quiet _ le_rfl, empty]
      exact ⟨le_rfl, rfl⟩
  · intro c new
    have old : v.nextConn ≤ c := move.keeps.1.trans new
    rw [onStream_append, onStream_streamEvents, holds.fresh c old, quiet c old]
    rfl

end Moves

theorem windows_init (n : ℕ) : Windows (State.init n).view [] := by
  constructor
  · intro c conn live
    cases live
  · exact fun _ _ => rfl

/-- In every state of every run, the window lies inside of the buffer, no more has been consumed than
was received, and the window is the rest of it. -/
theorem window_is_stream [NeZero n] {cfg : Config} {s : State n} {trace : List (ConnId × StreamEvent)}
    (run : (streams cfg).Reaches (State.init n) s trace) {c : ConnId} {conn : Conn}
    (live : s.conn c = some conn) :
    conn.recv.read + conn.recv.size ≤ messageMaxLength ∧
      consumed (onStream c trace) ≤ (received (onStream c trace)).length ∧
      conn.recv.window = (received (onStream c trace)).drop (consumed (onStream c trace)) := by
  let unconditional : View n → Fin n → Action → Prop := fun _ _ _ => True
  have run : (streams cfg).Run (fun s a => unconditional s.view a.1 a.2) (State.init n) s trace := run
  obtain ⟨-, holds⟩ := stream_invariant Windows (routed_init n) (windows_init n)
    (fun routed holds _ move => holds.move routed move) run
  exact ⟨conn.recv.inside, holds.windows c conn live⟩

/-- `PING` and the beginning of a further request. -/
def halfRequest : List (Fin 2 × Action) :=
  goToSleep shard0 0 ++ acceptClient shard0 65536 ++ goToSleep shard0 1 ++
    readFrom shard0 0 (asciiBytes "PING" ++ crlf ++ asciiBytes "GET") ++ [serveNext shard0]

theorem window_is_stream_half : ∃ s trace conn, (streams config).Reaches (State.init 2) s trace ∧
    s.conn 0 = some conn ∧ conn.recv.window = asciiBytes "GET" ∧
    conn.recv.read + conn.recv.size ≤ messageMaxLength ∧
    consumed (onStream 0 trace) ≤ (received (onStream 0 trace)).length ∧
    conn.recv.window = (received (onStream 0 trace)).drop (consumed (onStream 0 trace)) := by
  obtain ⟨s, trace, run, window⟩ := Machine.exists_of_exec (streams config) (State.init 2)
    halfRequest (fun r => (r.1.conn 0).map fun conn => conn.recv.window)
    (b := some (asciiBytes "GET")) (by decide +kernel)
  obtain ⟨conn, live, is⟩ := Option.map_eq_some_iff.mp window
  exact ⟨s, trace, conn, run, live, is, window_is_stream run live⟩

end GhettoRedis.Server
