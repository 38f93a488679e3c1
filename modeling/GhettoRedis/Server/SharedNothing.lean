import GhettoRedis.Server.Pipeline

/-!
# What shards leave alone

A shard works on its own databases, its own connections and the front of its own queue. All
that it does to another shard is to put messages at the end of its queue, and to clear its
databases for `FLUSHALL`.
-/
namespace GhettoRedis.Server

open Lib Protocol Commands

variable {n : ℕ}

/-- `FLUSHALL` is among the commands that were handed over. -/
def Clears (n : ℕ) (cfg : Config) (trace : List Event) : Prop :=
  ∃ c index args env w, .handled c index args env ∈ trace ∧
    handleCommand n cfg.numDbs env args = .flushall w

/-- What is left of shard `j` from `v` to `v'`, with `trace` seen in between. -/
structure Untouched (cfg : Config) (j : Fin n) (v : View n) (trace : List Event) (v' : View n) :
    Prop where
  pc : v'.pc j = v.pc j
  queue : ∃ arrived, v'.queue j = v.queue j ++ arrived ∧
    ∀ msg ∈ arrived, msg.ctx.dst = j ∧ msg.ctx.src ≠ j
  conns : ∀ c conn, conn.shardId = j.val → (v'.conn c = some conn ↔ v.conn c = some conn)
  spared : ¬ Clears n cfg trace → v'.dbs j = v.dbs j
  cleared : Clears n cfg trace →
    ∀ db, v'.dbs j db = if db < cfg.numDbs then hashmapNew else v.dbs j db

theorem clears_append {cfg : Config} {trace seen : List Event} :
    Clears n cfg (trace ++ seen) ↔ Clears n cfg trace ∨ Clears n cfg seen := by
  simp only [Clears, List.mem_append]
  constructor
  · rintro ⟨c, index, args, env, w, mem | mem, is⟩
    · exact .inl ⟨c, index, args, env, w, mem, is⟩
    · exact .inr ⟨c, index, args, env, w, mem, is⟩
  · rintro (⟨c, index, args, env, w, mem, is⟩ | ⟨c, index, args, env, w, mem, is⟩)
    · exact ⟨c, index, args, env, w, .inl mem, is⟩
    · exact ⟨c, index, args, env, w, .inr mem, is⟩

theorem Untouched.refl (cfg : Config) (j : Fin n) (v : View n) : Untouched cfg j v [] v where
  pc := rfl
  queue := ⟨[], by simp⟩
  conns _ _ _ := Iff.rfl
  spared _ := rfl
  cleared := by
    rintro ⟨c, index, args, env, w, mem, -⟩
    cases mem

theorem Untouched.trans {cfg : Config} {j : Fin n} {v v' v'' : View n} {trace seen : List Event}
    (first : Untouched cfg j v trace v') (second : Untouched cfg j v' seen v'') :
    Untouched cfg j v (trace ++ seen) v'' := by
  refine ⟨second.pc.trans first.pc, ?_, ?_, ?_, ?_⟩
  · obtain ⟨arrived, queue, addressed⟩ := first.queue
    obtain ⟨further, queue', addressed'⟩ := second.queue
    refine ⟨arrived ++ further, by rw [queue', queue, List.append_assoc], fun msg mem => ?_⟩
    exact (List.mem_append.mp mem).elim (addressed msg) (addressed' msg)
  · exact fun c conn own => (second.conns c conn own).trans (first.conns c conn own)
  · intro none
    rw [clears_append, not_or] at none
    exact (second.spared none.2).trans (first.spared none.1)
  · intro clears db
    by_cases late : Clears n cfg seen
    · rw [second.cleared late]
      split
      next => rfl
      next above =>
        by_cases early : Clears n cfg trace
        · rw [first.cleared early, if_neg above]
        · rw [first.spared early]
    · rw [second.spared late]
      exact first.cleared ((clears_append.mp clears).resolve_right late) db

section Moves

variable [NeZero n] {cfg : Config} {v v' : View n} {i j : Fin n} {a : Action} {seen : List Event}

/-- A connection of another shard is not changed, and none is made. -/
theorem Move.conn_iff_of_other (routed : Routed v) (move : Move cfg v i a v' seen) (other : j ≠ i)
    (c : ConnId) (conn : Conn) (own : conn.shardId = j.val) :
    v'.conn c = some conn ↔ v.conn c = some conn := by
  have elsewhere {conn' : Conn} (own : conn'.shardId = j.val) : conn'.shardId ≠ i.val := by
    rw [own]
    exact fun same => other (Fin.ext same)
  refine ⟨fun after => ?_, fun before => move.conn_of_other routed before (elsewhere own)⟩
  rcases move.keeps.2 c conn after with ⟨conn', before, kept⟩ | ⟨new, -⟩
  · -- what there was before belongs to the same shard, and so is still there
    have same := move.conn_of_other routed before (elsewhere (kept ▸ own))
    obtain rfl : conn = conn' := by simpa [after] using same
    exact before
  · exact absurd (move.new_owner routed new after) (elsewhere own)

/-- The front of a queue is taken by its own shard, and others write only at its end. -/
theorem Move.queue_of_other (routed : Routed v) (move : Move cfg v i a v' seen) (other : j ≠ i) :
    ∃ arrived, v'.queue j = v.queue j ++ arrived ∧
      ∀ msg ∈ arrived, msg.ctx.dst = j ∧ msg.ctx.src ≠ j := by
  have same (queue : v'.queue j = v.queue j) : ∃ arrived, v'.queue j = v.queue j ++ arrived ∧
      ∀ msg ∈ arrived, msg.ctx.dst = j ∧ msg.ctx.src ≠ j := ⟨[], by simp [queue]⟩
  cases move with
  | dequeue => exact same (Function.update_of_ne other ..)
  | @claim t msg k stands =>
    by_cases here : t = j
    · subst here
      refine ⟨[msg], Function.update_self .., fun m mem => ?_⟩
      obtain rfl := List.mem_singleton.mp mem
      have src := (routed.outbox i m (by simp [View.mail, stands, Pc.sending])).1
      exact ⟨routed.target i t m k stands, by rw [src]; exact other.symm⟩
    · exact same (Function.update_of_ne (Ne.symm here) ..)
  | quiet | flush | skip | refuse | answer | flushall | shutdown | inline | dispatch | dispatched
  | execute | deliver | accept | receive | close => exact same rfl

omit [NeZero n] in
/-- What is handed over in a step tells whether it clears the databases. -/
theorem clears_handled {c : ConnId} {index : ℕ} {args : List Value} {env : Env} {rest : List Event}
    (plain : ∀ c index args env, .handled c index args env ∉ rest) :
    Clears n cfg (.handled c index args env :: rest) ↔
      ∃ w, handleCommand n cfg.numDbs env args = .flushall w := by
  constructor
  · rintro ⟨c', index', args', env', w, mem, is⟩
    rcases List.mem_cons.mp mem with same | mem
    · cases same
      exact ⟨w, is⟩
    · exact absurd mem (plain c' index' args' env')
  · rintro ⟨w, is⟩
    exact ⟨c, index, args, env, w, List.mem_cons_self, is⟩

/-- `FLUSHALL` clears the databases of all shards, and nothing else touches those of others. -/
theorem Move.dbs_of_other (move : Move cfg v i a v' seen) (other : j ≠ i) :
    (¬ Clears n cfg seen → v'.dbs j = v.dbs j) ∧ (Clears n cfg seen →
      ∀ db, v'.dbs j db = if db < cfg.numDbs then hashmapNew else v.dbs j db) := by
  have still (quiet : ∀ c index args env, .handled c index args env ∉ seen)
      (dbs : v'.dbs j = v.dbs j) : (¬ Clears n cfg seen → v'.dbs j = v.dbs j) ∧
        (Clears n cfg seen → ∀ db, v'.dbs j db = if db < cfg.numDbs then hashmapNew else v.dbs j db) :=
    ⟨fun _ => dbs, fun ⟨c, index, args, env, w, mem, is⟩ => absurd mem (quiet c index args env)⟩
  cases move with
  | quiet | dequeue | skip | claim | dispatched => exact still (by simp) rfl
  | flush | refuse | deliver | accept | receive | close => exact still (by simp) rfl
  | execute => exact still (by simp) (Function.update_of_ne other ..)
  -- a command that was handed over clears only when it is `FLUSHALL`
  | answer hands answer =>
    refine ⟨fun _ => rfl, fun clears => ?_⟩
    obtain ⟨w, is⟩ := (clears_handled (by simp)).mp clears
    rw [hands.outcome, is] at answer
    cases answer
  | @flushall c conn args k values env w hands =>
    refine ⟨fun spared => absurd ?_ spared, fun _ db => rfl⟩
    exact (clears_handled (by simp)).mpr ⟨w, hands.outcome.symm⟩
  | shutdown hands | dispatch hands =>
    refine ⟨fun _ => rfl, fun clears => ?_⟩
    obtain ⟨w, is⟩ := (clears_handled (by simp)).mp clears
    cases hands.outcome.trans is
  | inline hands =>
    refine ⟨fun _ => Function.update_of_ne other .., fun clears => ?_⟩
    obtain ⟨w, is⟩ := (clears_handled (by simp)).mp clears
    cases hands.outcome.trans is

theorem Move.untouched (routed : Routed v) (move : Move cfg v i a v' seen) (other : j ≠ i) :
    Untouched cfg j v seen v' where
  pc := move.pc_of_ne other
  queue := move.queue_of_other routed other
  conns := move.conn_iff_of_other routed other
  spared := (move.dbs_of_other other).1
  cleared := (move.dbs_of_other other).2

end Moves

/-! ### Runs -/

/-- However long shard `j` does not get to run, in any order of the others' steps. -/
theorem shared_nothing [NeZero n] {cfg : Config} {j : Fin n} {s t : State n}
    {trace later : List Event} (run : (server cfg).Reaches (State.init n) s trace)
    (further : (server cfg).Run (fun _ a => a.1 ≠ j) s t later) :
    Untouched cfg j s.view later t.view := by
  have routed : Routed s.view :=
    (reaches_invariant (fun _ _ => True) (routed_init n) trivial (fun _ _ _ => trivial) run).1
  let others : View n → Fin n → Action → Prop := fun _ i _ => i ≠ j
  have further : (server cfg).Run (fun s a => others s.view a.1 a.2) s t later := further
  refine (run_invariant (fun v seen => Untouched cfg j s.view seen v) routed (.refl cfg j _) ?_
    further).2
  exact fun routed before other move => before.trans (move.untouched routed (Ne.symm other))

/-- A client of shard 0 sets a key of shard 1, which stands before its response. -/
def setAway : List (Fin 2 × Action) :=
  goToSleep shard0 0 ++ acceptClient shard0 65536 ++ goToSleep shard0 1 ++
    readFrom shard0 0 (asciiBytes "SET a 1" ++ crlf) ++ [serveNext shard0] ++
    List.replicate 2 (shard0, .go) ++ List.replicate 8 (shard1, .go)

/-- Another client of shard 0 clears all databases, and asks for the key. -/
def flushAndGet : List (Fin 2 × Action) :=
  List.replicate 12 (shard0, .go) ++ acceptClient shard0 262144 ++ goToSleep shard0 2 ++
    readFrom shard0 1 (asciiBytes "FLUSHALL" ++ crlf ++ asciiBytes "GET a" ++ crlf) ++
    [serveNext shard0, serveNext shard0, (shard0, .go), (shard0, .go)]

/-- What shard 1 has in its queue, and for the key. -/
def State.atShard1 (s : State 2) : ℕ × Option Bytes :=
  ((s.shard shard1).cbQueue.length,
    (((s.shard shard1).dbs 0).find (clipHash (hashmapXxhash3 (asciiBytes "a") 0 0))
      (asciiBytes "a")).map Value.bytes)

theorem shared_nothing_flushAndGet : ∃ (s t : State 2) (later : List Event),
    s.atShard1 = (0, some (asciiBytes "1")) ∧ t.atShard1 = (1, none) ∧
      Untouched config 1 s.view later t.view := by
  have done : (((server config).exec (State.init 2) setAway).bind fun r =>
      (((server config).restrict fun _ a => a.1 ≠ 1).exec r.1 flushAndGet).map fun r' =>
        (r.1.atShard1, r'.1.atShard1)) = some ((0, some (asciiBytes "1")), (1, none)) := by
    decide +kernel
  obtain ⟨⟨s, trace⟩, first, done⟩ := Option.bind_eq_some_iff.mp done
  obtain ⟨⟨t, later⟩, second, is⟩ := Option.map_eq_some_iff.mp done
  have run := Machine.reaches_of_exec setAway first
  have further := Machine.run_of_restrict (Machine.reaches_of_exec flushAndGet second)
  obtain ⟨before, after⟩ := Prod.mk.inj is
  exact ⟨s, t, later, before, after, shared_nothing run further⟩

end GhettoRedis.Server
