import GhettoRedis.Server.Serving
import GhettoRedis.Server.Window

/-!
# Every request once

A request is handed to its command before it is consumed, and some returns of
`on_data_available` skip the consumption. What is handed on is handed on once as long as it
is consumed with all its bytes, those of its arguments included, and nobody calls
`on_data_available` again for a connection on which `END` is set.
-/
namespace GhettoRedis.Server

open Lib Protocol Commands

variable {n : ℕ}

/-! ### The requests of a stream -/

/-- Where the requests that are handed on begin in the stream, and how far they extend, when
`start` bytes have been consumed before. -/
def ranges : (start : ℕ) → List StreamEvent → List (ℕ × ℕ)
  | _, [] => []
  | start, .handed len :: rest => (start, len) :: ranges start rest
  | start, .consumed len :: rest => ranges (start + len) rest
  | start, _ :: rest => ranges start rest

/-- `on_data_available` executes a request or replies to one. -/
def StreamEvent.serves : StreamEvent → Bool
  | .handed _ | .refused => true
  | _ => false

/-- No byte of the stream is handed on twice, and nothing is served behind `END`. -/
structure Once (stream : List StreamEvent) : Prop where
  apart : (ranges 0 stream).Pairwise fun r r' => r.1 + r.2 ≤ r'.1
  silent : stream.Pairwise fun e e' => e = .ended → e'.serves = false

section Ranges

variable (start : ℕ) (stream stream' : List StreamEvent)

theorem consumed_cons (e : StreamEvent) : consumed (e :: stream) = consumed [e] + consumed stream := by
  simp [consumed]

theorem ranges_append :
    ranges start (stream ++ stream') = ranges start stream ++ ranges (start + consumed stream) stream' := by
  induction stream generalizing start with
  | nil => rfl
  | cons e stream ih =>
    rw [consumed_cons]
    cases e with
    | consumed len => simp [ranges, ih, consumed, Nat.add_assoc]
    | received | handed | refused | ended => simp [ranges, ih, consumed]

theorem ranges_consumption (conn : Conn) (args : CmdArgs) : ranges start (consumption conn args) = [] := by
  unfold consumption
  split <;> rfl

theorem ended_not_mem_consumption (conn : Conn) (args : CmdArgs) :
    .ended ∉ consumption conn args := by
  unfold consumption
  split <;> simp

theorem serves_consumption {conn : Conn} {args : CmdArgs} :
    ∀ e ∈ consumption conn args, e.serves = false := by
  unfold consumption
  split <;> simp [StreamEvent.serves]

end Ranges

/-! ### The condition -/

/-- The request at the front of the window ends inside of it. -/
def Whole (conn : Conn) : Head → Prop
  | .request args => args.argc = 0 ∨ args.len.toNat ≤ conn.recv.size
  | _ => True

/-- Requests are handed on whole, and neither a response nor data makes a shard call
`on_data_available` for a connection on which `END` is set. -/
def Prompt (v : View n) (i : Fin n) (a : Action) : Prop :=
  match (v.pc i, a) with
  | (.serve c _, .serve outside _) => ∀ conn ∈ v.conn c, Whole conn (conn.head (conn.mem outside))
  | (.onCb _ c, _) => ∀ conn ∈ v.conn c, conn.shardId = i.val → conn.flags.ending = false
  | (.read c _ _, .read (.data _)) => ∀ conn ∈ v.conn c,
      conn.flags.dispatchWaiting = true ∨ conn.flags.ending = false
  | _ => True

/-- No length announced in a request exceeds the window. -/
def Unwrapped (conn : Conn) : Head → Prop
  | .request args => conn.recv.Short args args.slices.length
  | _ => True

/-- No request whose announced lengths wrap is taken up. -/
def Measured (v : View n) (i : Fin n) (a : Action) : Prop :=
  match (v.pc i, a) with
  | (.serve c _, .serve outside _) => ∀ conn ∈ v.conn c, Unwrapped conn (conn.head (conn.mem outside))
  | _ => True

instance (conn : Conn) (head : Head) : Decidable (Unwrapped conn head) :=
  match head with
  | .nothing => .isTrue trivial
  | .malformed _ => .isTrue trivial
  | .request args => inferInstanceAs (Decidable (conn.recv.Short args args.slices.length))

instance (v : View n) (i : Fin n) (a : Action) : Decidable (Measured v i a) := by
  unfold Measured
  split <;> infer_instance

instance (conn : Conn) (head : Head) : Decidable (Whole conn head) :=
  match head with
  | .nothing => .isTrue trivial
  | .malformed _ => .isTrue trivial
  | .request _ => inferInstanceAs (Decidable (_ ∨ _))

instance (v : View n) (i : Fin n) (a : Action) : Decidable (Prompt v i a) := by
  unfold Prompt
  split <;> infer_instance

section Moves

variable {v v' : View n} {i : Fin n} {a : Action} {seen : List Event}

theorem Prompt.fits (prompt : Prompt v i a) {c : ConnId} {conn : Conn} {args : CmdArgs}
    (requests : v.Requests i a c conn args) : args.len.toNat ≤ conn.recv.size := by
  obtain ⟨k, outside, env, stands, rfl, live, head, argc⟩ := requests
  simp only [Prompt, stands] at prompt
  have whole := prompt conn live
  rw [head] at whole
  exact whole.resolve_left argc

/-- Arguments inside the request do not extend further than it does. -/
theorem requestExtent_eq {size : ℕ} {args : CmdArgs} (inside : ArgsInside size args) :
    requestExtent args = args.len.toNat := by
  have within := inside.inside
  unfold requestExtent
  generalize args.slices = slices at within
  induction slices with
  | nil => rfl
  | cons s slices ih =>
    rw [List.forall_mem_cons] at within
    rw [List.map_cons, List.foldr_cons, ih within.2]
    exact max_eq_right within.1

theorem Measured.extent (measured : Measured v i a) {c : ConnId} {conn : Conn} {args : CmdArgs}
    (requests : v.Requests i a c conn args) : requestExtent args = args.len.toNat := by
  obtain ⟨k, outside, env, stands, rfl, live, head, -⟩ := requests
  simp only [Measured, stands] at measured
  have short := measured conn live
  rw [head] at short
  exact requestExtent_eq (argsInside_of_short head short)

/-- A prompt entry is one without `END`. -/
theorem Prompt.entry (prompt : Prompt v i a) {c : ConnId} {conn' : Conn} {k : Serving}
    (entry : Entry v i a c conn' k) : conn'.flags.ending = false := by
  cases entry with
  | onCb stands live own =>
    simp only [Prompt, stands] at prompt
    exact prompt conn' live own
  | @epollin hup es bytes conn stands is live free same =>
    subst is
    simp only [Prompt, stands] at prompt
    rw [same]
    exact (prompt conn live).resolve_left (by simp [free])
  | again going => exact going

/-! ### What the threads rely on -/

/-- No shard serves a connection with `END`, and what is under way can still be consumed. -/
structure Going (v : View n) : Prop where
  serving : ∀ i c k conn, v.pc i = .serve c k → v.conn c = some conn → conn.flags.ending = false
  underway : ∀ i c args, (v.pc i).underway = some (c, args) → ∃ conn, v.conn c = some conn ∧
    conn.flags.ending = false ∧ args.len.toNat ≤ conn.recv.size

theorem going_init (n : ℕ) : Going (State.init n).view := by
  constructor <;> simp [State.init, State.view, Pc.underway]

/-- A step about another connection leaves a request under way. -/
theorem StreamMove.underway_of_ne {c d : ConnId} {evs : List StreamEvent} {args : CmdArgs}
    (move : StreamMove v v' i a d evs) (other : c ≠ d)
    (before : (v.pc i).underway = some (c, args)) : (v'.pc i).underway = some (c, args) := by
  cases move with
  | still _ same => rwa [same]
  | receive _ _ _ idle | stop _ _ _ idle => simp [idle] at before
  | begin _ requests =>
    obtain ⟨k, _, _, stands, -⟩ := requests
    simp [stands, Pc.underway] at before
  | finish _ _ _ _ from_where =>
    rcases from_where with ⟨-, underway | ⟨k, stands⟩⟩ | ⟨-, k, _, _, stands, -⟩
    · rw [underway, Option.some.injEq, Prod.mk.injEq] at before
      exact absurd before.1.symm other
    · simp [stands, Pc.underway] at before
    · simp [stands, Pc.underway] at before

/-- A step about another connection keeps `END`. -/
theorem StreamMove.ending_of_ne {c d : ConnId} {evs : List StreamEvent} {conn' : Conn}
    (move : StreamMove v v' i a d evs) (other : c ≠ d) (live' : v'.conn c = some conn') :
    (∃ conn, v.conn c = some conn ∧ conn'.flags.ending = conn.flags.ending) ∨ c = v.nextConn := by
  cases move with
  | still stays =>
    rcases stays c conn' live' with ⟨conn, live, same⟩ | ⟨new, -⟩
    · exact .inl ⟨conn, live, same.ending⟩
    · exact .inr new
  | receive turns | stop turns | finish turns =>
    exact .inl ⟨conn', turns.of_ne other ▸ live', rfl⟩
  | begin same => exact .inl ⟨conn', same ▸ live', rfl⟩

variable [NeZero n] {cfg : Config}

theorem Going.move (routed : Routed v) (going : Going v) (prompt : Prompt v i a)
    (move : Move cfg v i a v' seen) : Going v' := by
  constructor
  · intro j c k conn' stands' live'
    by_cases here : j = i
    · subst here
      exact prompt.entry (move.entry stands' live')
    · -- another shard serves the connection, so this step leaves it as it is
      have stands : v.pc j = .serve c k := move.pc_of_ne here ▸ stands'
      have same := move.conn_of_mem routed here (c := c) (by simp [stands, Pc.conns])
      exact going.serving j c k conn' stands (same ▸ live')
  · intro j c args underway'
    by_cases here : j = i
    · subst here
      rcases move.stream.underway underway' with ⟨before, same⟩ | ⟨conn, requests, same⟩
      · rw [same]
        exact going.underway j c args before
      · -- the request has just been parsed, so its connection was open and its bytes are there
        have fits := prompt.fits requests
        obtain ⟨k, _, _, stands, -, live, -⟩ := requests
        rw [same]
        exact ⟨conn, live, going.serving j c k conn stands live, fits⟩
    · have underway : (v.pc j).underway = some (c, args) := move.pc_of_ne here ▸ underway'
      rw [move.conn_of_mem routed here (Pc.mem_conns_of_underway underway)]
      exact going.underway j c args underway

/-! ### The stream of one connection -/

omit [NeZero n] in
theorem Once.append {stream evs : List StreamEvent} (once : Once stream)
    (silent : evs.Pairwise fun e e' => e = .ended → e'.serves = false)
    (apart : (ranges (consumed stream) evs).Pairwise fun r r' => r.1 + r.2 ≤ r'.1)
    (quiet : .ended ∈ stream → ∀ e ∈ evs, e.serves = false)
    (ahead : ∀ r ∈ ranges 0 stream, ∀ r' ∈ ranges (consumed stream) evs, r.1 + r.2 ≤ r'.1) :
    Once (stream ++ evs) := by
  constructor
  · rw [ranges_append, Nat.zero_add, List.pairwise_append]
    exact ⟨once.apart, apart, ahead⟩
  · rw [List.pairwise_append]
    refine ⟨once.silent, silent, fun e mem e' mem' is => ?_⟩
    exact quiet (is ▸ mem) e' mem'

/-- What has been handed on is consumed, or will be next. -/
structure Past (v : View n) (c : ConnId) (stream : List StreamEvent) : Prop where
  once : Once stream
  ended : .ended ∈ stream → ∀ conn, v.conn c = some conn → conn.flags.ending = true
  done : ∀ r ∈ ranges 0 stream, r.1 + r.2 ≤ consumed stream ∨ .ended ∈ stream ∨
    ∃ j args, (v.pc j).underway = some (c, args) ∧ args.len.toNat = r.2 ∧ r.1 = consumed stream

omit [NeZero n] in
theorem past_nil (v : View n) (c : ConnId) : Past v c [] := by
  constructor
  · exact ⟨.nil, .nil⟩
  · simp
  · simp [ranges]

omit [NeZero n] in
/-- Only one shard has a connection at hand. -/
theorem Routed.unique (routed : Routed v) {j : Fin n} {c : ConnId} {conn : Conn}
    (live : v.conn c = some conn) (mem : c ∈ (v.pc i).conns) (mem' : c ∈ (v.pc j).conns) : j = i := by
  have own := (routed.conns i c mem).2 conn live
  have own' := (routed.conns j c mem').2 conn live
  exact Fin.ext (own'.symm.trans own)

omit [NeZero n] in
/-- When a connection is served, everything that was handed on before is consumed. -/
theorem Past.ready {c : ConnId} {stream : List StreamEvent} (past : Past v c stream)
    (routed : Routed v) (going : Going v) {k : Serving}
    {conn : Conn} (stands : v.pc i = .serve c k) (live : v.conn c = some conn) :
    .ended ∉ stream ∧ ∀ r ∈ ranges 0 stream, r.1 + r.2 ≤ consumed stream := by
  have notEnded : .ended ∉ stream := fun ended => by
    have ending := past.ended ended conn live
    rw [going.serving i c k conn stands live] at ending
    cases ending
  refine ⟨notEnded, fun r mem => ?_⟩
  rcases past.done r mem with done | ended | ⟨j, args, underway, -⟩
  · exact done
  · exact absurd ended notEnded
  · -- the shard that is still at work on a request would be the one that serves
    obtain rfl : j = i := routed.unique live (by simp [stands, Pc.conns])
      (Pc.mem_conns_of_underway underway)
    simp [stands, Pc.underway] at underway

omit [NeZero n] in
/-- One step that serves the connection: what it hands on begins where the consumed part of
the stream ends. -/
theorem Past.serve {c : ConnId} {stream front : List StreamEvent} (past : Past v c stream)
    (routed : Routed v) (going : Going v) {conn : Conn} {k : Serving}
    (stands : v.pc i = .serve c k) (live : v.conn c = some conn)
    (is : front = [.refused] ∨ ∃ len, front = [.handed len]) : Once (stream ++ front) := by
  obtain ⟨notEnded, done⟩ := past.ready routed going stands live
  rcases is with rfl | ⟨len, rfl⟩
  · apply past.once.append (by simp) (by simp [ranges]) (absurd · notEnded) (by simp [ranges])
  · apply past.once.append (by simp) (by simp [ranges]) (absurd · notEnded)
    intro r mem r' mem'
    obtain rfl : r' = (consumed stream, len) := by simpa [ranges] using mem'
    exact done r mem

omit [NeZero n] in
theorem Once.unserved {stream evs : List StreamEvent} (once : Once stream)
    (plain : ∀ e ∈ evs, e.serves = false) (none : ∀ start, ranges start evs = []) :
    Once (stream ++ evs) := by
  refine once.append ?_ (by simp [none]) (fun _ => plain) (by simp [none])
  exact List.pairwise_of_forall_mem_list fun _ _ e' mem' _ => plain e' mem'

omit [NeZero n] in
theorem Past.step_ne {c d : ConnId} {stream evs : List StreamEvent} (past : Past v c stream)
    (fresh : c = v.nextConn → stream = []) (move : StreamMove v v' i a d evs)
    (pcs : ∀ j, j ≠ i → v'.pc j = v.pc j) (other : c ≠ d) : Past v' c stream := by
  constructor
  · exact past.once
  · intro ended conn' live'
    rcases move.ending_of_ne other live' with ⟨conn, live, same⟩ | new
    · rw [same]
      exact past.ended ended conn live
    · simp [fresh new] at ended
  · intro r mem
    rcases past.done r mem with done | ended | ⟨j, args, underway, len, start⟩
    · exact .inl done
    · exact .inr (.inl ended)
    · refine .inr (.inr ⟨j, args, ?_, len, start⟩)
      by_cases here : j = i
      · subst here
        exact move.underway_of_ne other underway
      · rwa [pcs j here]

omit [NeZero n] in
theorem Past.step {c : ConnId} {stream evs : List StreamEvent} (past : Past v c stream)
    (routed : Routed v) (going : Going v) (prompt : Prompt v i a) (measured : Measured v i a)
    (fresh : c = v.nextConn → stream = []) (move : StreamMove v v' i a c evs)
    (pcs : ∀ j, j ≠ i → v'.pc j = v.pc j) : Past v' c (stream ++ evs) := by
  -- a request that another shard has under way is none of this connection
  have others (j args) (underway : (v.pc j).underway = some (c, args))
      (idle : (v.pc i).underway = none) : (v'.pc j).underway = some (c, args) := by
    have other : j ≠ i := by
      rintro rfl
      simp [idle] at underway
    rwa [pcs j other]
  cases move with
  | still stays same =>
    rw [List.append_nil]
    refine ⟨past.once, fun ended conn' live' => ?_, fun r mem => ?_⟩
    · rcases stays c conn' live' with ⟨conn, live, keeps⟩ | ⟨new, -⟩
      · rw [keeps.ending]
        exact past.ended ended conn live
      · simp [fresh new] at ended
    · rcases past.done r mem with done | ended | ⟨j, args, underway, len, start⟩
      · exact .inl done
      · exact .inr (.inl ended)
      · refine .inr (.inr ⟨j, args, ?_, len, start⟩)
        by_cases here : j = i
        · subst here
          rwa [same]
        · rwa [pcs j here]
  | @receive conn conn' bytes turns _ ending idle =>
    refine ⟨past.once.unserved (by simp [StreamEvent.serves]) (by simp [ranges]),
      fun ended conn'' live' => ?_, fun r mem => ?_⟩
    · obtain rfl := turns.self live'
      rw [ending]
      exact past.ended (by simpa using ended) conn turns.1
    · rw [ranges_append] at mem
      rw [consumed_append, consumed_received, Nat.add_zero]
      rcases past.done r (by simpa [ranges] using mem) with done | ended | ⟨j, args, underway, known⟩
      · exact .inl done
      · exact .inr (.inl (List.mem_append_left _ ended))
      · exact .inr (.inr ⟨j, args, others j args underway idle, known⟩)
  | @stop conn conn' front turns _ ending _ _ from_where =>
    refine ⟨?_, fun _ conn'' live' => turns.self live' ▸ ending, fun r mem => .inr (.inl (by simp))⟩
    rw [← List.append_assoc]
    have last : ∀ e ∈ [StreamEvent.ended], e.serves = false := by simp [StreamEvent.serves]
    -- nothing, a refusal or the last request stands before the end
    rcases from_where with rfl | ⟨rfl, k, stands⟩ | ⟨args, rfl, k, _, _, stands, -⟩
    · rw [List.append_nil]
      exact past.once.unserved last fun _ => rfl
    · exact (past.serve routed going stands turns.1 (.inl rfl)).unserved last fun _ => rfl
    · exact (past.serve routed going stands turns.1 (.inr ⟨_, rfl⟩)).unserved last fun _ => rfl
  | @begin conn args same requests underway =>
    have extent := measured.extent requests
    obtain ⟨k, _, _, stands, -, live, -⟩ := requests
    obtain ⟨notEnded, done⟩ := past.ready routed going stands live
    refine ⟨past.serve routed going stands live (.inr ⟨_, rfl⟩), fun ended => ?_, fun r mem => ?_⟩
    · exact absurd (by simpa using ended) notEnded
    · rw [ranges_append, List.mem_append] at mem
      rcases mem with old | new
      · exact .inl (by simpa using done r old)
      · obtain rfl : r = (consumed stream, args.len.toNat) := by simpa [ranges, extent] using new
        exact .inr (.inr ⟨i, args, underway, rfl, by simp⟩)
  | @finish conn conn' args answered front turns recv ending _ from_where =>
    have keeps (conn'' : Conn) (live' : v'.conn c = some conn'') :
        conn''.flags.ending = conn.flags.ending := by
      rw [turns.self live', finish_ending, ending]
    have whole {conn'' : Conn} (live : v.conn c = some conn'') (going : conn''.flags.ending = false)
        (fits : args.len.toNat ≤ conn''.recv.size) :
        consumed (consumption conn args) = args.len.toNat := by
      obtain rfl : conn'' = conn := by simpa [turns.1, eq_comm] using live
      simp [consumption, going, fits, consumed]
    have none (start : ℕ) := ranges_consumption start conn args
    -- finishing a request does not end the stream
    have before (ended : .ended ∈ stream ++ (front ++ consumption conn args)) : .ended ∈ stream := by
      have := ended_not_mem_consumption conn args
      rcases from_where with ⟨rfl, -⟩ | ⟨rfl, -⟩ <;> simpa [this] using ended
    have ended (mem : .ended ∈ stream ++ (front ++ consumption conn args)) (conn'' : Conn)
        (live' : v'.conn c = some conn'') : conn''.flags.ending = true := by
      rw [keeps conn'' live']
      exact past.ended (before mem) conn turns.1
    rcases from_where with ⟨rfl, underway | ⟨k, stands⟩⟩ | ⟨rfl, requests⟩
    · -- the end of a request that took several steps
      obtain ⟨conn'', live, going, fits⟩ := going.underway i c args underway
      refine ⟨past.once.unserved serves_consumption (none ·), ended, fun r mem => ?_⟩
      rw [List.nil_append, ranges_append, none, List.append_nil] at mem
      rw [List.nil_append, consumed_append, whole live going fits]
      rcases past.done r mem with done | ended | ⟨j, args', underway', len, start⟩
      · exact .inl (by omega)
      · exact .inr (.inl (List.mem_append_left _ ended))
      · obtain rfl : j = i := routed.unique live (Pc.mem_conns_of_underway underway)
          (Pc.mem_conns_of_underway underway')
        obtain rfl : args = args' := by simpa [underway] using underway'
        exact .inl (by omega)
    · -- an empty line
      obtain ⟨-, done⟩ := past.ready routed going stands turns.1
      refine ⟨past.once.unserved serves_consumption (none ·), ended, fun r mem => .inl ?_⟩
      rw [List.nil_append, ranges_append, none, List.append_nil] at mem
      rw [List.nil_append, consumed_append]
      exact (done r mem).trans (Nat.le_add_right _ _)
    · have fits := prompt.fits requests
      have extent := measured.extent requests
      obtain ⟨k, _, _, stands, -, live, -⟩ := requests
      obtain ⟨-, done⟩ := past.ready routed going stands live
      have len := whole live (going.serving i c k conn stands live) fits
      refine ⟨?_, ended, fun r mem => .inl ?_⟩
      · rw [← List.append_assoc]
        exact (past.serve routed going stands live (.inr ⟨_, rfl⟩)).unserved serves_consumption (none ·)
      · rw [ranges_append, ranges_append, none, List.append_nil, List.mem_append] at mem
        rw [consumed_append, consumed_append, len]
        rcases mem with old | new
        · have := done r old
          omega
        · obtain rfl : r = (consumed stream, args.len.toNat) := by simpa [ranges, extent] using new
          simp [consumed]

end Moves

/-! ### Runs -/

section Runs

variable [NeZero n] {cfg : Config} {v v' : View n} {i : Fin n} {a : Action} {seen : List Event}

structure Onces (v : View n) (trace : List (ConnId × StreamEvent)) : Prop where
  windows : Windows v trace
  going : Going v
  past : ∀ c, Past v c (onStream c trace)

theorem Onces.move {trace : List (ConnId × StreamEvent)} (routed : Routed v) (onces : Onces v trace)
    (prompt : Prompt v i a) (measured : Measured v i a) (move : Move cfg v i a v' seen) :
    Onces v' (trace ++ streamEvents cfg v i a) := by
  refine ⟨onces.windows.move routed move, onces.going.move routed prompt move, fun c => ?_⟩
  have fresh : c = v.nextConn → onStream c trace = [] := fun new => onces.windows.fresh c new.ge
  have pcs (j) (other : j ≠ i) : v'.pc j = v.pc j := move.pc_of_ne other
  rw [onStream_append, onStream_streamEvents, streamAt]
  split
  next here =>
    have streams := move.stream
    rw [← here] at streams
    exact (onces.past c).step routed onces.going prompt measured fresh streams pcs
  next other =>
    rw [List.append_nil]
    exact (onces.past c).step_ne fresh move.stream pcs other

end Runs

/-- In a run whose steps are all prompt, and in which no announced length exceeds the window, every
connection has each of its requests handed on once, and nothing is served behind its `END`. -/
theorem requests_once [NeZero n] {cfg : Config} {s : State n} {trace : List (ConnId × StreamEvent)}
    (run : (streams cfg).Run (fun s a => Prompt s.view a.1 a.2 ∧ Measured s.view a.1 a.2)
      (State.init n) s trace) (c : ConnId) :
    Once (onStream c trace) := by
  obtain ⟨-, onces⟩ := stream_invariant Onces (routed_init n)
    ⟨windows_init n, going_init n, fun c => past_nil _ c⟩
    (fun routed onces (allowed : Prompt _ _ _ ∧ Measured _ _ _) move =>
      onces.move routed allowed.1 allowed.2 move) run
  exact (onces.past c).once

/-- Shard 0 reads a `GET` for a key of the other shard, and reads `more` before the
response arrives, which it then delivers. -/
def readWhileWaiting (more : Bytes) : List (Fin 2 × Action) :=
  goToSleep shard0 0 ++ acceptClient shard0 65536 ++ goToSleep shard0 1 ++
    readFrom shard0 0 (asciiBytes "GET a" ++ crlf) ++ [serveNext shard0] ++
    List.replicate 14 (shard0, .go) ++ readFrom shard0 0 more ++ List.replicate 2 (shard0, .go) ++
    List.replicate 10 (shard1, .go) ++ List.replicate 9 (shard0, .go)

theorem requests_once_waiting : ∃ s trace,
    (streams config).Run (fun s a => Prompt s.view a.1 a.2 ∧ Measured s.view a.1 a.2)
      (State.init 2) s trace ∧
      ranges 0 (onStream 0 trace) = [(0, 7), (7, 6)] ∧ Once (onStream 0 trace) := by
  obtain ⟨s, trace, run, handed⟩ := Machine.exists_run_of_exec (streams config)
    (fun s a => Prompt s.view a.1 a.2 ∧ Measured s.view a.1 a.2) (State.init 2)
    (readWhileWaiting (asciiBytes "PING" ++ crlf) ++ [serveNext shard0])
    (fun r => ranges 0 (onStream 0 r.2)) (b := [(0, 7), (7, 6)]) (by decide +kernel)
  exact ⟨s, trace, run, handed, requests_once run 0⟩

/-- `QUIT` is served behind the response callback. Then the client sends something more, before
the connection is closed. -/
def quitAgain : List (Fin 2 × Action) :=
  readWhileWaiting (asciiBytes "QUIT" ++ crlf) ++
    [serveNext shard0, (shard0, .go), (shard0, .wait (some [.conn 0 true false])), (shard0, .go),
      (shard0, .read (.data (asciiBytes "PING" ++ crlf))), serveNext shard0]

/-- `QUIT` is executed twice. -/
theorem quit_again : ¬ ∀ s trace c, (streams config).Reaches (State.init 2) s trace →
    Once (onStream c trace) := by
  intro claimed
  obtain ⟨s, trace, run, handed⟩ := Machine.exists_of_exec (streams config) (State.init 2) quitAgain
    (fun r => ranges 0 (onStream 0 r.2)) (b := [(0, 7), (7, 6), (7, 6)]) (by decide +kernel)
  have apart := (claimed s trace 0 run).apart
  rw [handed] at apart
  revert apart
  decide

end GhettoRedis.Server
