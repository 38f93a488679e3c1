import GhettoRedis.Server.Once
import GhettoRedis.Server.Order
import GhettoRedis.Server.Pipeline

/-!
# The numbers of the requests

While connections stay open and hand on whole requests, a connection numbers its keyed commands
one after the other, so that a number tells which command a message or a reply is about.
-/
namespace GhettoRedis.Server

open Lib Protocol Commands

variable {n : ℕ}

/-! ### Dispatching -/

section Dispatching

variable {pc : Pc n} {c : ConnId} {args : CmdArgs}

theorem Pc.underway_of_dispatching (mem : (c, args) ∈ pc.dispatching) :
    pc.underway = some (c, args) := by
  unfold Pc.dispatching at mem
  split at mem
  next k =>
    cases k with
    | request d args' k => cases List.mem_singleton.mp mem; rfl
    | response => cases mem
  next k =>
    cases k with
    | request d args' k => cases List.mem_singleton.mp mem; rfl
    | response => cases mem
  next => cases mem

end Dispatching

section Moves

variable [NeZero n] {cfg : Config} {v v' : View n} {i : Fin n} {a : Action} {seen trace : List Event}

omit [NeZero n] in
theorem le_finish_answered {conn : Conn} {args : CmdArgs} {answered : Bool} {m : ℕ}
    (le : m ≤ conn.answered) : m ≤ (conn.finish args answered).2.answered := by
  unfold Conn.finish
  split
  · exact le
  · split
    · cases answered
      · exact le
      · exact Nat.le_succ_of_le le
    · exact le

omit [NeZero n] in
theorem lt_finish_answered {conn : Conn} {args : CmdArgs} {m : ℕ} (le : m ≤ conn.answered)
    (open' : conn.flags.ending = false) (fits : args.len.toNat ≤ conn.recv.size) :
    m < (conn.finish args true).2.answered := by
  rw [finish_answered fits (by rw [finish_ending]; exact open')]
  exact Nat.lt_succ_of_le le

omit [NeZero n] in
theorem plainAnswer_answered {conn conn' : Conn} {outcome : Outcome} {w : Write}
    (answer : plainAnswer conn outcome = some (conn', w)) : conn'.answered = conn.answered := by
  cases outcome <;> cases answer <;> rfl

omit [NeZero n] in
theorem answered_le_of_update {c d : ConnId} {conn next conn' : Conn} (live : v.conn d = some conn)
    (conns : v'.conn = Function.update v.conn d (some next)) (le : conn.answered ≤ next.answered)
    (live' : v'.conn c = some conn') : ∃ conn, v.conn c = some conn ∧ conn.answered ≤ conn'.answered := by
  rw [conns] at live'
  by_cases here : c = d
  · subst here
    obtain rfl : next = conn' := by simpa using live'
    exact ⟨conn, live, le⟩
  · rw [Function.update_of_ne here] at live'
    exact ⟨conn', live', le_rfl⟩

/-- The numbers of a connection only go up. -/
theorem Move.answered_le (move : Move cfg v i a v' seen) {c : ConnId} {conn' : Conn}
    (old : c < v.nextConn) (live' : v'.conn c = some conn') :
    ∃ conn, v.conn c = some conn ∧ conn.answered ≤ conn'.answered := by
  cases move with
  | quiet | dequeue | shutdown | dispatch | claim | execute => exact ⟨conn', live', le_rfl⟩
  | flush _ live | refuse _ live | deliver _ live | receive _ live =>
    refine answered_le_of_update live rfl ?_ live'
    exact le_rfl
  | skip _ live | dispatched _ live =>
    refine answered_le_of_update live rfl ?_ live'
    exact le_finish_answered le_rfl
  | answer hands answer =>
    refine answered_le_of_update hands.live rfl ?_ live'
    exact le_finish_answered (plainAnswer_answered answer).ge
  | flushall hands | inline hands =>
    refine answered_le_of_update hands.live rfl ?_ live'
    exact le_finish_answered le_rfl
  | accept =>
    have other : c ≠ v.nextConn := old.ne
    refine ⟨conn', ?_, le_rfl⟩
    simpa [View.goto, View.setConn, Function.update_of_ne other] using live'
  | @close d =>
    have other : c ≠ d := by
      rintro rfl
      simp [View.goto, View.setConn] at live'
    refine ⟨conn', ?_, le_rfl⟩
    simpa [View.goto, View.setConn, Function.update_of_ne other] using live'

/-- A request that was being dispatched still is, or its number is used up. -/
theorem Move.dispatching_kept (going : Going v) (move : Move cfg v i a v' seen) {j : Fin n} {c : ConnId}
    {args : CmdArgs} {conn' : Conn} (mem : (c, args) ∈ (v.pc j).dispatching)
    (live' : v'.conn c = some conn') : (c, args) ∈ (v'.pc j).dispatching ∨
      ∃ conn, v.conn c = some conn ∧ conn.answered < conn'.answered := by
  by_cases here : j = i
  · subst here
    have busy : (v.pc j).dispatching ≠ [] := List.ne_nil_of_mem mem
    cases move with
    | quiet calm => exact absurd calm.2.2 busy
    | flush stands | dequeue stands | refuse stands | execute stands | deliver stands | accept stands
    | receive stands => simp [stands, Pc.dispatching] at busy
    | skip stands => rcases stands with stands | ⟨_, stands⟩ <;> simp [stands, Pc.dispatching] at busy
    | answer hands | flushall hands | shutdown hands | inline hands | dispatch hands =>
      exact absurd hands.calm.2.2 busy
    | claim stands =>
      rw [stands] at mem
      exact .inl (by simpa [Pc.dispatching] using mem)
    | @dispatched t d conn args' k stands live =>
      obtain ⟨rfl, rfl⟩ : c = d ∧ args = args' := by
        simpa [stands, Pc.dispatching, Sending.dispatching] using mem
      obtain ⟨conn₁, live₁, open', fits⟩ := going.underway j c args (by rw [stands, Pc.underway])
      obtain rfl : conn₁ = conn := Option.some.inj (live₁.symm.trans live)
      refine .inr ⟨conn₁, live, ?_⟩
      obtain rfl : _ = conn' := by simpa using live'
      exact lt_finish_answered le_rfl open' fits
    | close _ place =>
      rcases place with ⟨_, _, stands, -⟩ | ⟨stands, -⟩ <;> simp [stands, Pc.dispatching] at busy
  · exact .inl (by rwa [move.pc_of_ne here])

/-! ### Numbers -/

/-- The numbers of the keyed commands of connection `c` are below that of its next request, except
for the one that is being dispatched, and each is the number of one command. -/
structure Indexed (n : ℕ) (cfg : Config) (c : ConnId) (v : View n) (trace : List Event) : Prop where
  below : ∀ conn, v.conn c = some conn → ∀ index op key,
    Handled n cfg trace c index (.keyed op key) → index < conn.answered ∨
      index = conn.answered ∧ ∃ j args, (c, args) ∈ (v.pc j).dispatching
  unique : ∀ index op key op' key', Handled n cfg trace c index (.keyed op key) →
    Handled n cfg trace c index (.keyed op' key') → op = op' ∧ key = key'

omit [NeZero n] in
/-- When a connection is served, the number of its next request is free. -/
theorem Indexed.ready {c : ConnId} (indexed : Indexed n cfg c v trace) (routed : Routed v)
    {k : Serving} {conn : Conn} (stands : v.pc i = .serve c k) (live : v.conn c = some conn)
    {index : ℕ} {op : Op} {key : Bytes} (handled : Handled n cfg trace c index (.keyed op key)) :
    index < conn.answered := by
  rcases indexed.below conn live index op key handled with below | ⟨-, j, args, mem⟩
  · exact below
  · -- the shard that is dispatching would be the one that serves
    obtain rfl : j = i := routed.unique live (by simp [stands, Pc.conns])
      (Pc.mem_conns_of_underway (Pc.underway_of_dispatching mem))
    simp [stands, Pc.dispatching] at mem

/-- A keyed command that is handed on in this step: its number is used up, or it is being
dispatched. -/
structure Fresh (cfg : Config) (v v' : View n) (i : Fin n) (a : Action) (c : ConnId) (index : ℕ) (op : Op)
    (key : Bytes) : Prop where
  called : ∃ k conn args values env, Hands cfg v i a c k conn args values env (.keyed op key) ∧
    index = conn.answered ∧ ∀ conn', v'.conn c = some conn' →
      (∃ result, conn' = ((conn.write result).finish args true).2) ∨
        conn' = conn ∧ (c, args) ∈ (v'.pc i).dispatching

/-- Every keyed command was handed on before, or is now. -/
theorem Move.handled_keyed (move : Move cfg v i a v' seen) {c : ConnId} {index : ℕ} {op : Op}
    {key : Bytes} (handled : Handled n cfg (trace ++ seen) c index (.keyed op key)) :
    Handled n cfg trace c index (.keyed op key) ∨ Fresh cfg v v' i a c index op key := by
  obtain ⟨values, env, mem, outcome⟩ := handled
  rcases List.mem_append.mp mem with old | new
  · exact .inl ⟨values, env, old, outcome⟩
  · right
    cases move with
    | answer hands answer =>
      simp only [List.mem_cons, Event.handled.injEq, reduceCtorEq, List.not_mem_nil, or_false] at new
      obtain ⟨rfl, rfl, rfl, rfl⟩ := new
      rw [hands.outcome, outcome] at answer
      cases answer
    | flushall hands | shutdown hands =>
      simp only [List.mem_cons, Event.handled.injEq, reduceCtorEq, List.not_mem_nil, or_false] at new
      obtain ⟨rfl, rfl, rfl, rfl⟩ := new
      exact absurd (hands.outcome.trans outcome) (by simp)
    | @inline d conn args k values env op key db' result hands =>
      simp only [List.mem_cons, Event.handled.injEq, reduceCtorEq, List.not_mem_nil, or_false] at new
      obtain ⟨rfl, rfl, rfl, rfl⟩ := new
      cases hands.outcome.trans outcome
      refine ⟨k, conn, args, _, _, hands, rfl, fun conn' live' => .inl ⟨cmdResp result, ?_⟩⟩
      exact (Option.some.inj ((View.finishRequest_conn_self ..).symm.trans live')).symm
    | dispatch hands =>
      simp only [List.mem_cons, Event.handled.injEq, List.not_mem_nil, or_false] at new
      obtain ⟨rfl, rfl, rfl, rfl⟩ := new
      cases hands.outcome.trans outcome
      refine ⟨_, _, _, _, _, hands, rfl, fun conn' live' => .inr ⟨?_, ?_⟩⟩
      · exact Option.some.inj (live'.symm.trans hands.live)
      · simp [Pc.dispatching, Sending.dispatching]
    | quiet | flush | dequeue | skip | refuse | claim | dispatched | execute | deliver | accept
    | receive | close => simp at new

theorem Indexed.move {c : ConnId} (indexed : Indexed n cfg c v trace) (routed : Routed v)
    (going : Going v) (known : HandledKnown v trace) (prompt : Prompt v i a)
    (move : Move cfg v i a v' seen) : Indexed n cfg c v' (trace ++ seen) := by
  have apart {index : ℕ} {op op' : Op} {key key' : Bytes}
      (old : Handled n cfg trace c index (.keyed op key)) (new : Fresh cfg v v' i a c index op' key') :
      False := by
    obtain ⟨k, conn, args, values, env, hands, rfl, -⟩ := new.called
    exact absurd (indexed.ready routed hands.at_serve hands.live old) (Nat.lt_irrefl _)
  constructor
  · intro conn' live' index op key handled
    rcases move.handled_keyed handled with old | new
    · obtain ⟨values, env, mem, -⟩ := id old
      obtain ⟨conn, live, le⟩ := move.answered_le (known c index values env mem) live'
      rcases indexed.below conn live index op key old with below | ⟨is, j, args, dispatching⟩
      · exact .inl (below.trans_le le)
      · rcases move.dispatching_kept going dispatching live' with still | ⟨conn₁, live₁, past⟩
        · rcases Nat.lt_or_eq_of_le le with lt | eq
          · exact .inl (is ▸ lt)
          · exact .inr ⟨is.trans eq, j, args, still⟩
        · obtain rfl : conn₁ = conn := Option.some.inj (live₁.symm.trans live)
          exact .inl (is ▸ past)
    · obtain ⟨k, conn, args, values, env, hands, rfl, after⟩ := new.called
      rcases after conn' live' with ⟨w, rfl⟩ | ⟨rfl, dispatching⟩
      · have open' := going.serving i c k conn hands.at_serve hands.live
        have fits := prompt.fits hands.requests
        exact .inl (@lt_finish_answered (conn.write w) args _ le_rfl open' fits)
      · exact .inr ⟨rfl, i, args, dispatching⟩
  · intro index op key op' key' handled handled'
    rcases move.handled_keyed handled with old | new <;>
      rcases move.handled_keyed handled' with old' | new'
    · exact indexed.unique index op key op' key' old old'
    · exact (apart old new').elim
    · exact (apart old' new).elim
    · obtain ⟨k, conn, args, values, env, hands, -⟩ := new.called
      obtain ⟨k', conn', args', values', env', hands', -⟩ := new'.called
      have same := hands.called.symm.trans hands'.called
      simp only [Option.some.injEq, Prod.mk.injEq, true_and] at same
      obtain ⟨-, rfl, rfl⟩ := same
      cases hands.outcome.trans hands'.outcome.symm
      exact ⟨rfl, rfl⟩

end Moves

end GhettoRedis.Server
