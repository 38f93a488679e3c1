import GhettoRedis.Server.Replies

/-!
# Pipelined replies

A connection may have several requests under way at once. As long as those go to one
home shard, and no request is answered or refused in between, they come back in the
order in which they were sent, and so do the replies.
-/
namespace GhettoRedis.Server

open Lib Protocol Commands

variable {n : ℕ}

def Event.repliedIndex (c : ConnId) : Event → Option ℕ
  | .replied c' index _ _ => if c' = c then some index else none
  | _ => none

/-- The replies of connection `c`, in the order in which they go into its send buffer, are
those to its requests 0, 1, 2 and so on. -/
structure InOrder (n : ℕ) (cfg : Config) (trace : List Event) (c : ConnId) : Prop where
  numbers : ∃ count, trace.filterMap (Event.repliedIndex c) = List.range count
  answers : ∀ index offset w, .replied c index offset w ∈ trace → Answers n cfg trace c index w

/-! ### The condition -/

namespace View

variable (v : View n) (c : ConnId)

/-- Every message about connection `c` comes from shard `t` or goes there. -/
def OnlyWith (t : Fin n) : Prop :=
  ∀ i, (∀ m ∈ v.mail.inbox i, m.ctx.conn = c → m.ctx.src = t ∨ m.ctx.dst = t) ∧
    ∀ m ∈ v.mail.outbox i, m.ctx.conn = c → m.ctx.src = t ∨ m.ctx.dst = t

instance (t : Fin n) : Decidable (v.OnlyWith c t) := inferInstanceAs (Decidable (∀ _, _ ∧ _))

variable {v c}

theorem OnlyWith.held {t : Fin n} (only : v.OnlyWith c t) {m : Message n} (held : v.mail.Holds m)
    (about : m.ctx.conn = c) : m.ctx.src = t ∨ m.ctx.dst = t := by
  obtain ⟨i, mem | mem⟩ := held
  · exact (only i).1 m mem about
  · exact (only i).2 m mem about

end View

section Condition

variable [NeZero n] (cfg : Config) (v : View n) (i : Fin n) (c : ConnId)

/-- Nothing of the connection is under way, or only what goes where this command goes. -/
def InTurn : Outcome → Prop
  | .shutdown => True
  | .keyed _ key => if home key = i then v.Quiet c else v.OnlyWith c (home key)
  | .reply _ | .quit _ | .select _ _ | .flushall _ => v.Quiet c

/-- What `on_data_available` finds is taken up in its turn, after no request that ended the
connection, and lies inside the window. -/
def HeadInTurn (conn : Conn) (values : CmdArgs → List Value) (env : Env) : Head → Prop
  | .nothing => True
  | .malformed _ => conn.flags.ending = false ∧ v.Quiet c
  | .request args =>
    args.argc = 0 ∨ handleCommand n cfg.numDbs env (values args) = .shutdown ∨
      conn.flags.ending = false ∧ args.len.toNat ≤ conn.recv.size ∧
        InTurn v i c (handleCommand n cfg.numDbs env (values args))

/-- The condition on one step; only the call of `on_data_available` has one. -/
def Orderly (a : Action) : Prop :=
  match v.pc i, a with
  | .serve c _, .serve outside env => ∀ conn ∈ v.conn c,
      HeadInTurn cfg v i c conn (argumentValues (conn.mem outside)) env
        (conn.head (conn.mem outside))
  | _, _ => True

instance (outcome : Outcome) : Decidable (InTurn v i c outcome) :=
  match outcome with
  | .shutdown => .isTrue trivial
  | .keyed _ key =>
    inferInstanceAs (Decidable (if home key = i then v.Quiet c else v.OnlyWith c (home key)))
  | .reply _ => inferInstanceAs (Decidable (v.Quiet c))
  | .quit _ => inferInstanceAs (Decidable (v.Quiet c))
  | .select _ _ => inferInstanceAs (Decidable (v.Quiet c))
  | .flushall _ => inferInstanceAs (Decidable (v.Quiet c))

instance (conn : Conn) (values : CmdArgs → List Value) (env : Env) (head : Head) :
    Decidable (HeadInTurn cfg v i c conn values env head) :=
  match head with
  | .nothing => .isTrue trivial
  | .malformed _ => inferInstanceAs (Decidable (_ ∧ _))
  | .request _ => inferInstanceAs (Decidable (_ ∨ _ ∨ _ ∧ _ ∧ _))

instance (a : Action) : Decidable (Orderly cfg v i a) := by
  unfold Orderly
  split <;> infer_instance

variable {cfg v i c}

theorem Orderly.serve {a : Action} (orderly : Orderly cfg v i a) {k : Serving} {conn : Conn}
    {outside : Mem} {env : Env} (stands : v.pc i = .serve c k) (acts : a = .serve outside env)
    (live : v.conn c = some conn) :
    HeadInTurn cfg v i c conn (argumentValues (conn.mem outside)) env
      (conn.head (conn.mem outside)) := by
  subst acts
  simp only [Orderly, stands] at orderly
  exact orderly conn live

/-- What an orderly step knows when it hands a request to its command. -/
theorem Orderly.hands {a : Action} (orderly : Orderly cfg v i a) {k : Serving} {conn : Conn}
    {args : CmdArgs} {values : List Value} {env : Env} {outcome : Outcome}
    (hands : Hands cfg v i a c k conn args values env outcome) (reply : outcome ≠ .shutdown) :
    conn.flags.ending = false ∧ args.len.toNat ≤ conn.recv.size ∧ InTurn v i c outcome := by
  obtain ⟨outside, acts, head, rfl⟩ := hands.head
  have known := orderly.serve hands.at_serve acts hands.live
  have outcome_eq := hands.outcome
  subst outcome_eq
  rw [head] at known
  exact (known.resolve_left hands.argc).resolve_left reply

end Condition

/-! ### What is under way -/

/-- The number of a request of connection `c` on its way from shard `i` to shard `t`. -/
def Message.requestIndex (c : ConnId) (i t : Fin n) : Message n → Option ℕ
  | .request ctx _ _ _ => if ctx.conn = c ∧ ctx.src = i ∧ ctx.dst = t then some ctx.index else none
  | .response _ _ => none

/-- The number of a response on its way back. -/
def Message.responseIndex (c : ConnId) (i t : Fin n) : Message n → Option ℕ
  | .request _ _ _ _ => none
  | .response ctx _ => if ctx.conn = c ∧ ctx.dst = i ∧ ctx.src = t then some ctx.index else none

theorem addressed_requestIndex (c : ConnId) (i t : Fin n) :
    Addressed (Message.requestIndex c i t) i t := by
  intro m b selects
  cases m with
  | request ctx =>
    simp only [Message.requestIndex, Option.ite_none_right_eq_some] at selects
    exact selects.1.2
  | response => cases selects

theorem addressed_responseIndex (c : ConnId) (i t : Fin n) :
    Addressed (Message.responseIndex c i t) t i := by
  intro m b selects
  cases m with
  | request => cases selects
  | response ctx =>
    simp only [Message.responseIndex, Option.ite_none_right_eq_some] at selects
    exact selects.1.2.symm

namespace View

/-- The requests of connection `c` that shard `i` has sent to shard `t` and that have not
been answered, the oldest one first. -/
def flight (v : View n) (c : ConnId) (i t : Fin n) : List ℕ :=
  v.mail.lane (Message.responseIndex c i t) t i ++ v.mail.lane (Message.requestIndex c i t) i t

/-- The arguments of a command of connection `c` that shard `i` is dispatching. -/
def sends (v : View n) (i : Fin n) (c : ConnId) : List CmdArgs :=
  (v.pc i).dispatching.filterMap fun p => if p.1 = c then some p.2 else none

variable {v v' : View n} {c : ConnId} {i t : Fin n}

theorem exists_of_mem_flight {index : ℕ} (mem : index ∈ v.flight c i t) :
    ∃ m, v.mail.Holds m ∧ m.ctx.conn = c ∧
      (m.ctx.src = i ∧ m.ctx.dst = t ∨ m.ctx.src = t ∧ m.ctx.dst = i) := by
  rcases List.mem_append.mp mem with back | forth
  · obtain ⟨m, place, selects⟩ := Mail.mem_lane.mp back
    refine ⟨m, place.elim (fun mem => ⟨i, .inl mem⟩) (fun mem => ⟨t, .inr mem⟩), ?_,
      .inr (addressed_responseIndex c i t m index selects)⟩
    cases m <;> simp_all [Message.responseIndex, Message.ctx]
  · obtain ⟨m, place, selects⟩ := Mail.mem_lane.mp forth
    refine ⟨m, place.elim (fun mem => ⟨t, .inl mem⟩) (fun mem => ⟨i, .inr mem⟩), ?_,
      .inl (addressed_requestIndex c i t m index selects)⟩
    cases m <;> simp_all [Message.requestIndex, Message.ctx]

theorem Quiet.flight (quiet : v.Quiet c) (i t : Fin n) : v.flight c i t = [] := by
  refine List.eq_nil_iff_forall_not_mem.mpr fun index mem => ?_
  obtain ⟨m, held, conn, -⟩ := exists_of_mem_flight mem
  exact quiet.held held conn

theorem OnlyWith.flight (only : v.OnlyWith c t) (own : t ≠ i) {t' : Fin n} (other : t' ≠ t) :
    v.flight c i t' = [] := by
  refine List.eq_nil_iff_forall_not_mem.mpr fun index mem => ?_
  obtain ⟨m, held, conn, route⟩ := exists_of_mem_flight mem
  rcases only.held held conn with src | dst <;> rcases route with ⟨src', dst'⟩ | ⟨src', dst'⟩
  · exact own (src.symm.trans src')
  · exact other (src'.symm.trans src)
  · exact other (dst'.symm.trans dst)
  · exact own (dst.symm.trans dst')

end View

/-! ### The invariant -/

/-- An open connection has had `count` replies, and the requests under way follow them. -/
structure Flying (v : View n) (c : ConnId) (i : Fin n) (conn : Conn) (count : ℕ) : Prop where
  flights : ∃ t len, (∀ t', t' ≠ t → v.flight c i t' = []) ∧
    v.flight c i t = List.range' count len ∧
    (conn.flags.ending = false → count + len = conn.answered + (v.sends i c).length)
  sends : ∀ args ∈ v.sends i c, conn.flags.ending = false ∧ args.len.toNat ≤ conn.recv.size

structure Ordered (v : View n) (trace : List Event) (c : ConnId) (count : ℕ) : Prop where
  replies : trace.filterMap (Event.repliedIndex c) = List.range count
  fresh : v.nextConn ≤ c → count = 0
  flying : ∀ conn i, v.conn c = some conn → conn.shardId = i.val → Flying v c i conn count

/-- Nothing about connection `c` has come under way or come back. -/
structure Steady (v v' : View n) (c : ConnId) : Prop where
  flight : ∀ i t, v'.flight c i t = v.flight c i t
  sends : ∀ i, v'.sends i c = v.sends i c

section Steps

variable [NeZero n] {cfg : Config} {v v' : View n} {i : Fin n} {a : Action}
  {seen trace : List Event} {c : ConnId} {count : ℕ}

theorem Move.sends_of_ne (move : Move cfg v i a v' seen) {j : Fin n} (other : j ≠ i) (c : ConnId) :
    v'.sends j c = v.sends j c := by
  rw [View.sends, View.sends, move.pc_of_ne other]

theorem Move.steady (routed : Routed v) (move : Move cfg v i a v' seen)
    (calling : (v.pc i).calling = []) (sending : (v'.pc i).sending = [])
    (sends : v'.sends i c = v.sends i c) : Steady v v' c := by
  constructor
  · intro j t
    rw [View.flight, View.flight,
      move.lane_still routed (addressed_responseIndex c j t) calling sending,
      move.lane_still routed (addressed_requestIndex c j t) calling sending]
  · intro j
    by_cases same : j = i
    · subst same
      exact sends
    · exact move.sends_of_ne same c

omit [NeZero n] in
theorem sends_nil {i : Fin n} (idle : (v.pc i).dispatching = []) (c : ConnId) :
    v.sends i c = [] := by
  rw [View.sends, idle, List.filterMap_nil]

omit [NeZero n] in
/-- A step in which the connection gets no reply and takes up no request. -/
theorem Ordered.frame (ordered : Ordered v trace c count) (steady : Steady v v' c)
    (next : v.nextConn ≤ v'.nextConn) (silent : seen.filterMap (Event.repliedIndex c) = [])
    (conns : ∀ conn', v'.conn c = some conn' → ∃ conn, v.conn c = some conn ∧
      conn'.shardId = conn.shardId ∧ conn'.answered = conn.answered ∧
      (conn'.flags.ending = false → conn.flags.ending = false) ∧
      (conn' = conn ∨ ∀ i : Fin n, conn.shardId = i.val → v.sends i c = [])) :
    Ordered v' (trace ++ seen) c count := by
  constructor
  · rw [List.filterMap_append, silent, List.append_nil, ordered.replies]
  · exact fun fresh => ordered.fresh (le_trans next fresh)
  · intro conn' i live own
    -- the connection was there, and what is under way of it stays
    obtain ⟨conn, before, shard, answered, ending, idle⟩ := conns conn' live
    have flying := ordered.flying conn i before (shard.symm.trans own)
    obtain ⟨t, len, others, flight, numbers⟩ := flying.flights
    constructor
    · refine ⟨t, len, fun t' other => ?_, ?_, fun open' => ?_⟩
      · rw [steady.flight, others t' other]
      · rw [steady.flight, flight]
      · rw [steady.sends, answered, numbers (ending open')]
    · intro args mem
      rw [steady.sends] at mem
      rcases idle with rfl | idle
      · exact flying.sends args mem
      · rw [idle i (shard.symm.trans own)] at mem
        cases mem

omit [NeZero n] in
theorem Ordered.other (ordered : Ordered v trace c count) (steady : Steady v v' c)
    (next : v.nextConn ≤ v'.nextConn) (silent : seen.filterMap (Event.repliedIndex c) = [])
    (conn : v'.conn c = v.conn c) : Ordered v' (trace ++ seen) c count :=
  ordered.frame steady next silent fun conn' live =>
    ⟨conn', conn ▸ live, rfl, rfl, id, .inl rfl⟩

omit [NeZero n] in
/-- A step in which the connection gets a reply at once, with nothing under way. -/
theorem Ordered.reply (ordered : Ordered v trace c count) (routed : Routed v) (steady : Steady v v' c)
    {conn conn' : Conn} (live : v.conn c = some conn) (own : conn.shardId = i.val)
    (live' : v'.conn c = some conn') (own' : conn'.shardId = i.val)
    (idle : (v.pc i).dispatching = []) (quiet : v.Quiet c) (going : conn.flags.ending = false)
    (answered : conn'.flags.ending = false → conn'.answered = conn.answered + 1)
    (saw : seen.filterMap (Event.repliedIndex c) = [conn.answered])
    (next : v'.nextConn = v.nextConn) : Ordered v' (trace ++ seen) c (count + 1) := by
  have flying := ordered.flying conn i live own
  obtain ⟨t, len, -, flight, numbers⟩ := flying.flights
  have sends : v.sends i c = [] := sends_nil idle c
  -- nothing is under way, so the next number is the one replied to
  obtain rfl : 0 = len := by simpa [quiet.flight] using congrArg List.length flight
  have number : count = conn.answered := by simpa [sends] using numbers going
  constructor
  · rw [List.filterMap_append, ordered.replies, saw, List.range_succ, number]
  · intro fresh
    rw [next] at fresh
    exact absurd (routed.live c conn live) (Nat.not_lt.mpr fresh)
  · intro conn'' j found own''
    obtain rfl : conn' = conn'' := by simpa [live'] using found
    obtain rfl : i = j := Fin.ext (own'.symm.trans own'')
    constructor
    · refine ⟨t, 0, fun t' _ => ?_, ?_, fun open' => ?_⟩
      · rw [steady.flight, quiet.flight]
      · rw [steady.flight, quiet.flight, List.range'_zero]
      · rw [steady.sends, sends, answered open', number, List.length_nil]
    · intro args mem
      rw [steady.sends, sends] at mem
      cases mem

omit [NeZero n] in
/-- A request that comes under way behind those that go where it goes. -/
theorem Ordered.dispatch (ordered : Ordered v trace c count) {conn : Conn} {t : Fin n}
    {args : CmdArgs} (live : v.conn c = some conn) (own : conn.shardId = i.val)
    (idle : (v.pc i).dispatching = []) (elsewhere : t ≠ i) (only : v.OnlyWith c t)
    (going : conn.flags.ending = false) (fits : args.len.toNat ≤ conn.recv.size)
    (flight : ∀ t', v'.flight c i t' =
      v.flight c i t' ++ if t = t' then [conn.answered] else [])
    (sends : v'.sends i c = [args]) (same : v'.conn c = v.conn c)
    (next : v'.nextConn = v.nextConn) (silent : seen.filterMap (Event.repliedIndex c) = []) :
    Ordered v' (trace ++ seen) c count := by
  have flying := ordered.flying conn i live own
  obtain ⟨t₀, len, others, first, numbers⟩ := flying.flights
  have idle : v.sends i c = [] := sends_nil idle c
  have number : count + len = conn.answered := by simpa [idle] using numbers going
  -- what is under way goes to `t`, whatever the invariant says of it
  have before : v.flight c i t = List.range' count len := by
    by_cases there : t = t₀
    · rw [there, first]
    · rw [others t there]
      rw [only.flight elsewhere (Ne.symm there)] at first
      exact first
  constructor
  · rw [List.filterMap_append, silent, List.append_nil, ordered.replies]
  · exact fun fresh => ordered.fresh (next ▸ fresh)
  · -- its number goes behind those under way
    intro conn' j found own'
    obtain rfl : conn = conn' := by simpa [same, live] using found
    obtain rfl : i = j := Fin.ext (own.symm.trans own')
    constructor
    · refine ⟨t, len + 1, fun t' other => ?_, ?_, fun _ => ?_⟩
      · rw [flight, if_neg (Ne.symm other), List.append_nil, only.flight elsewhere other]
      · rw [flight, if_pos rfl, before, List.range'_concat, one_mul, number]
      · rw [sends, ← number, List.length_singleton, Nat.add_assoc]
    · intro args' mem
      obtain rfl : args' = args := by simpa [sends] using mem
      exact ⟨going, fits⟩

omit [NeZero n] in
/-- A response that comes back. -/
theorem Ordered.deliver (ordered : Ordered v trace c count) {conn conn' : Conn} {t : Fin n}
    {index : ℕ} (routed : Routed v) (live : v.conn c = some conn) (own : conn.shardId = i.val)
    (live' : v'.conn c = some conn') (shard : conn'.shardId = conn.shardId)
    (answered : conn'.answered = conn.answered)
    (ending : conn'.flags.ending = conn.flags.ending)
    (flight : ∀ t', v.flight c i t' = (if t = t' then [index] else []) ++ v'.flight c i t')
    (sends : v.sends i c = []) (sends' : v'.sends i c = [])
    (saw : seen.filterMap (Event.repliedIndex c) = [index]) (next : v'.nextConn = v.nextConn) :
    Ordered v' (trace ++ seen) c (count + 1) := by
  have flying := ordered.flying conn i live own
  obtain ⟨t₀, len, others, first, numbers⟩ := flying.flights
  -- the response comes from the one shard with requests under way
  obtain rfl : t = t₀ := by
    by_contra other
    have := flight t
    rw [others t other, if_pos rfl] at this
    simp at this
  rw [flight, if_pos rfl] at first
  -- it is the first of them
  obtain ⟨len, rfl⟩ : ∃ len', len = len' + 1 := by
    cases len with
    | zero => simp at first
    | succ len => exact ⟨len, rfl⟩
  simp only [List.range'_succ, List.cons_append, List.nil_append, List.cons.injEq] at first
  obtain ⟨rfl, rest⟩ := first
  constructor
  · rw [List.filterMap_append, ordered.replies, saw, List.range_succ]
  · intro fresh
    rw [next] at fresh
    exact absurd (routed.live c conn live) (Nat.not_lt.mpr fresh)
  · intro conn'' j found own''
    obtain rfl : conn' = conn'' := by simpa [live'] using found
    obtain rfl : i = j := Fin.ext (own.symm.trans (shard.symm.trans own''))
    constructor
    · refine ⟨t, len, fun t' other => ?_, rest, fun open' => ?_⟩
      · have := flight t'
        rw [others t' other, if_neg (Ne.symm other), List.nil_append] at this
        exact this.symm
      · have := numbers (ending ▸ open')
        rw [sends, List.length_nil] at this
        rw [sends', answered, List.length_nil]
        omega
    · intro args mem
      rw [sends'] at mem
      cases mem

theorem finish_answered {conn : Conn} {args : CmdArgs} (fits : args.len.toNat ≤ conn.recv.size)
    (going : (conn.finish args true).2.flags.ending = false) :
    (conn.finish args true).2.answered = conn.answered + 1 := by
  unfold Conn.finish at going ⊢
  split at going
  next ending => simp [ending] at going
  next ongoing => simp [ongoing, fits]

omit [NeZero n] in
/-- The owner is done with a request that it has dispatched. -/
theorem Ordered.dispatched (ordered : Ordered v trace c count) {conn conn' : Conn} {args : CmdArgs}
    (live : v.conn c = some conn) (own : conn.shardId = i.val) (live' : v'.conn c = some conn')
    (shard : conn'.shardId = conn.shardId) (ending : conn'.flags.ending = conn.flags.ending)
    (answered : args.len.toNat ≤ conn.recv.size → conn'.flags.ending = false →
      conn'.answered = conn.answered + 1)
    (flight : ∀ t, v'.flight c i t = v.flight c i t) (sends : v.sends i c = [args])
    (sends' : v'.sends i c = []) (next : v'.nextConn = v.nextConn)
    (silent : seen.filterMap (Event.repliedIndex c) = []) : Ordered v' (trace ++ seen) c count := by
  have flying := ordered.flying conn i live own
  obtain ⟨t, len, others, first, numbers⟩ := flying.flights
  have fits := (flying.sends args (by simp [sends])).2
  constructor
  · rw [List.filterMap_append, silent, List.append_nil, ordered.replies]
  · exact fun fresh => ordered.fresh (next ▸ fresh)
  · intro conn'' j found own''
    obtain rfl : conn' = conn'' := by simpa [live'] using found
    obtain rfl : i = j := Fin.ext (own.symm.trans (shard.symm.trans own''))
    constructor
    · refine ⟨t, len, fun t' other => ?_, (flight t).trans first, fun open' => ?_⟩
      · rw [flight, others t' other]
      · -- the request that was sent is consumed now and not counted as sent any more
        have := numbers (ending ▸ open')
        rw [sends, List.length_singleton] at this
        rw [sends', answered fits open', this, List.length_nil, Nat.add_zero]
    · intro args' mem
      rw [sends'] at mem
      cases mem

omit [NeZero n] in
/-- A new connection. -/
theorem Ordered.accept (ordered : Ordered v trace v.nextConn count) {recv : RecvBuf}
    (steady : Steady v v' v.nextConn) (quiet : v.Quiet v.nextConn)
    (live : v'.conn v.nextConn = some (.accepted i recv)) (sends : v'.sends i v.nextConn = [])
    (silent : seen.filterMap (Event.repliedIndex v.nextConn) = []) :
    Ordered v' (trace ++ seen) v.nextConn count := by
  -- a new connection has no replies yet
  obtain rfl := ordered.fresh le_rfl
  constructor
  · rw [List.filterMap_append, silent, List.append_nil, ordered.replies]
  · exact fun _ => rfl
  · intro conn j found own
    obtain rfl : Conn.accepted i recv = conn := by simpa [live] using found
    obtain rfl : i = j := Fin.ext own
    constructor
    · refine ⟨i, 0, fun t _ => ?_, ?_, fun _ => ?_⟩
      · rw [steady.flight, quiet.flight]
      · rw [steady.flight, quiet.flight, List.range'_zero]
      · rw [sends]
        rfl
    · intro args mem
      rw [sends] at mem
      cases mem

/-- A request that is answered at once. -/
theorem Ordered.answer (ordered : Ordered v trace c count) (routed : Routed v)
    (steady : Steady v v' c) {d : ConnId} {k : Serving} {conn conn' : Conn} {args : CmdArgs}
    {values : List Value} {env : Env} {outcome : Outcome}
    (hands : Hands cfg v i a d k conn args values env outcome)
    (fits : args.len.toNat ≤ conn.recv.size) (going : conn.flags.ending = false)
    (quiet : v.Quiet d) (conns : v'.conn = Function.update v.conn d (some (conn'.finish args true).2))
    (shard : conn'.shardId = conn.shardId) (recv : conn'.recv = conn.recv)
    (answered : conn'.answered = conn.answered)
    (next : v'.nextConn = v.nextConn)
    (saw : seen.filterMap (Event.repliedIndex c) = if d = c then [conn.answered] else []) :
    ∃ count, Ordered v' (trace ++ seen) c count := by
  have own := routed.hands hands
  -- a reply on another connection changes nothing here
  by_cases same : d = c
  · subst same
    refine ⟨count + 1, ordered.reply routed steady hands.live own (by rw [conns, Function.update_self])
      ?_ ?_ quiet going (fun open' => ?_) (by rw [saw, if_pos rfl]) next⟩
    · rw [finish_shardId, shard, own]
    · rw [hands.at_serve]
      rfl
    · rw [finish_answered (recv ▸ fits) open', answered]
  · refine ⟨count, ordered.other steady next.ge (by rw [saw, if_neg same]) ?_⟩
    rw [conns, Function.update_of_ne (Ne.symm same)]

end Steps

/-! ### Runs -/

end GhettoRedis.Server
