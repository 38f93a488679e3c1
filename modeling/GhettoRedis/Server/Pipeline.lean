import GhettoRedis.Server.Agreement

/-!
# One connection, one command after the other

What the commands of a single connection do when each is executed before the next one is
looked at, and how far a run of the server agrees with that. A request that is still on its
way has an effect to come, on the database that the connection has selected by then.
-/
namespace GhettoRedis.Server

open Lib Protocol Commands

variable {n : ℕ}

/-! ### Commands in turn -/

/-- The databases of all shards, the selected one, and what the commands have done. -/
structure Ledger (n : ℕ) where
  db : Size
  dbs : Fin n → Size → Hashmap
  events : List Event

namespace Ledger

def start (n : ℕ) : Ledger n := ⟨0, fun _ _ => hashmapNew, []⟩

variable (l : Ledger n)

/-- Request `index` of connection `c` from its call to its end. -/
def command [NeZero n] (cfg : Config) (c : ConnId) (index : ℕ) (values : List Value) (env : Env) :
    Ledger n :=
  let handled : Event := .handled c index values env
  match handleCommand n cfg.numDbs env values with
  | .select db _ => { l with db := db, events := l.events ++ [handled] }
  | .flushall _ =>
    { l with
      dbs := fun i db => if db < cfg.numDbs then hashmapClear (l.dbs i db) else l.dbs i db
      events := l.events ++ [handled] }
  | .keyed op key =>
    let hash := hashmapXxhash3 key 0 0
    let map := l.dbs (home key) l.db
    let (map', result) := cmdExec op map key hash
    { l with
      dbs := Function.update l.dbs (home key) (Function.update (l.dbs (home key)) l.db map')
      events := l.events ++
        [handled, .executed c index l.db key op (hashmapGetWithHash map key hash) result] }
  | _ => { l with events := l.events ++ [handled] }

/-- A command is executed where it is handed to `handle_command`; a malformed request is only
recorded. -/
def observe [NeZero n] (cfg : Config) : Event → Ledger n
  | .handled c index values env => l.command cfg c index values env
  | .refused c index w => { l with events := l.events ++ [.refused c index w] }
  | _ => l

end Ledger

/-- The commands of a run, one after the other. -/
def inTurn (n : ℕ) [NeZero n] (cfg : Config) (trace : List Event) : Ledger n :=
  trace.foldl (fun l e => l.observe cfg e) (.start n)

/-- A keyed command was executed on home shard `h`. -/
def Event.executedAt [NeZero n] (h : Fin n) : Event → Bool
  | .executed _ _ _ key _ _ _ => home key = h
  | _ => false

/-! ### Requests on their way -/

/-- What a request does to the databases of the shard that executes it. -/
def Message.exec (db : Size) (dbs : Size → Hashmap) : Message n → (Size → Hashmap) × List Event
  | .request ctx key hash fields =>
    let op := cmdPreDispatchExec fields
    let (map, result) := cmdExec op (dbs db) key hash
    (Function.update dbs db map,
      [.executed ctx.conn ctx.index db key op (hashmapGetWithHash (dbs db) key hash) result])
  | .response _ _ => (dbs, [])

/-- The requests one after the other. -/
def replay (db : Size) : List (Message n) → (Size → Hashmap) → (Size → Hashmap) × List Event
  | [], dbs => (dbs, [])
  | m :: ms, dbs =>
    ((replay db ms (m.exec db dbs).1).1, (m.exec db dbs).2 ++ (replay db ms (m.exec db dbs).1).2)

theorem replay_append (db : Size) (ms ms' : List (Message n)) (dbs : Size → Hashmap) :
    replay db (ms ++ ms') dbs =
      ((replay db ms' (replay db ms dbs).1).1,
        (replay db ms dbs).2 ++ (replay db ms' (replay db ms dbs).1).2) := by
  induction ms generalizing dbs with
  | nil => rfl
  | cons m ms ih => simp only [List.cons_append, replay, ih, List.append_assoc]

/-- No request of connection `c` is on its way to a home shard. -/
def View.Executed (v : View n) (c : ConnId) : Prop := ∀ i t, v.forth c i t = []

instance (v : View n) (c : ConnId) : Decidable (v.Executed c) :=
  inferInstanceAs (Decidable (∀ _ _, _ = _))

/-- What has been executed of the commands so far, and what they left: on each home shard, the
first commands are executed as they are in turn; when no request is on its way, all are. -/
structure InPipelineOrder [NeZero n] (cfg : Config) (c : ConnId) (s : State n) (trace : List Event) :
    Prop where
  executed : ∀ h : Fin n,
    trace.filter (Event.executedAt h) <+: (inTurn n cfg trace).events.filter (Event.executedAt h)
  replies : ∀ d index offset w, .replied d index offset w ∈ trace →
    Answers n cfg (inTurn n cfg trace).events d index w
  contents : s.view.Executed c → ∀ h : Fin n, (s.shard h).dbs = (inTurn n cfg trace).dbs h ∧
    trace.filter (Event.executedAt h) = (inTurn n cfg trace).events.filter (Event.executedAt h)

/-! ### The condition -/

section Condition

variable [NeZero n] (cfg : Config) (v : View n) (i : Fin n) (a : Action)

/-- A command that changes what the requests before it mean waits until they are executed. -/
def Awaits (c : ConnId) (conn : Conn) : Outcome → Prop
  | .select db _ => db = conn.db ∨ v.Executed c
  | .flushall _ => v.Executed c
  | _ => True

instance (c : ConnId) (conn : Conn) (outcome : Outcome) : Decidable (Awaits v c conn outcome) :=
  match outcome with
  | .select _ _ => inferInstanceAs (Decidable (_ ∨ _))
  | .flushall _ => inferInstanceAs (Decidable (View.Executed _ _))
  | .reply _ | .quit _ | .shutdown | .keyed _ _ => inferInstanceAs (Decidable True)

/-- The condition on one step. -/
def StepAwaits : Prop :=
  ∀ request ∈ v.called i a, Awaits v request.1 request.2.1
    (handleCommand n cfg.numDbs request.2.2.2 request.2.2.1)

instance : Decidable (StepAwaits cfg v i a) :=
  inferInstanceAs (Decidable (∀ request ∈ v.called i a, _))

variable {cfg v i a}

theorem StepAwaits.hands (settled : StepAwaits cfg v i a) {c : ConnId} {k : Serving} {conn : Conn}
    {args : CmdArgs} {values : List Value} {env : Env} {outcome : Outcome}
    (hands : Hands cfg v i a c k conn args values env outcome) : Awaits v c conn outcome := by
  have called := settled _ hands.called
  rwa [← hands.outcome] at called

end Condition

/-! ### What is still to come -/

/-- Every command handed on so far is one of connection `c`. -/
def OnlyFrom (c : ConnId) (trace : List Event) : Prop :=
  ∀ d index values env, .handled d index values env ∈ trace → d = c

/-- The commands in turn are ahead of the run by the requests on their way, from shard `i` of the
connection to each home shard. -/
structure Ahead [NeZero n] (cfg : Config) (c : ConnId) (i : Fin n) (v : View n) (trace : List Event) :
    Prop where
  owner : ∀ conn, v.conn c = some conn → conn.shardId = i.val
  db : ∀ db, v.selected c = some db → db = (inTurn n cfg trace).db
  dbs : ∀ h, (inTurn n cfg trace).dbs h =
    (replay (inTurn n cfg trace).db (v.forth c i h) (v.dbs h)).1
  events : ∀ h, (inTurn n cfg trace).events.filter (Event.executedAt h) =
    trace.filter (Event.executedAt h) ++
      (replay (inTurn n cfg trace).db (v.forth c i h) (v.dbs h)).2

section Traces

variable [NeZero n] {cfg : Config} {trace : List Event} {c : ConnId}

theorem inTurn_append (seen : List Event) : inTurn n cfg (trace ++ seen) =
    seen.foldl (fun l e => l.observe cfg e) (inTurn n cfg trace) := List.foldl_append

/-- Nothing is recorded. -/
theorem inTurn_of_unseen {seen : List Event}
    (none : ∀ e ∈ seen, ∀ l : Ledger n, l.observe cfg e = l) :
    inTurn n cfg (trace ++ seen) = inTurn n cfg trace := by
  rw [inTurn_append]
  induction seen with
  | nil => rfl
  | cons e seen ih =>
    rw [List.foldl_cons, none e List.mem_cons_self]
    exact ih fun e mem => none e (List.mem_cons_of_mem _ mem)

/-- The databases are the same, and so is what was executed on each shard. -/
structure Ledger.Same (l l' : Ledger n) : Prop where
  db : l'.db = l.db
  dbs : l'.dbs = l.dbs
  events : ∀ h : Fin n, l'.events.filter (Event.executedAt h) = l.events.filter (Event.executedAt h)

/-- Nothing is handed on. -/
theorem inTurn_of_unhandled {seen : List Event}
    (none : ∀ d index values env, .handled d index values env ∉ seen) :
    (inTurn n cfg trace).Same (inTurn n cfg (trace ++ seen)) := by
  rw [inTurn_append]
  induction seen using List.reverseRecOn with
  | nil => exact ⟨rfl, rfl, fun _ => rfl⟩
  | append_singleton seen e ih =>
    have same := ih fun d index values env mem => none d index values env (List.mem_append_left _ mem)
    rw [List.foldl_append, List.foldl_cons, List.foldl_nil]
    cases e with
    | handled d index values env => exact absurd (by simp) (none d index values env)
    | refused d index w =>
      refine ⟨same.db, same.dbs, fun h => ?_⟩
      simpa [Ledger.observe, Event.executedAt] using same.events h
    | _ => exact same

/-- One command is handed on, and what else is seen of it. -/
theorem inTurn_handled {index : ℕ} {values : List Value} {env : Env} {seen : List Event}
    (none : ∀ e ∈ seen, ∀ l : Ledger n, l.observe cfg e = l) :
    inTurn n cfg (trace ++ .handled c index values env :: seen) =
      (inTurn n cfg trace).command cfg c index values env := by
  rw [List.append_cons, inTurn_of_unseen none, inTurn_append]
  rfl

end Traces

section Commands

variable [NeZero n] {cfg : Config} {l : Ledger n} {c : ConnId} {index : ℕ} {values : List Value}
  {env : Env}

theorem command_select {db : Size} {w : Write}
    (is : handleCommand n cfg.numDbs env values = .select db w) :
    l.command cfg c index values env =
      { l with db := db, events := l.events ++ [.handled c index values env] } := by
  simp only [Ledger.command, is]

theorem command_flushall {w : Write} (is : handleCommand n cfg.numDbs env values = .flushall w) :
    l.command cfg c index values env =
      { l with
        dbs := fun i db => if db < cfg.numDbs then hashmapClear (l.dbs i db) else l.dbs i db
        events := l.events ++ [.handled c index values env] } := by
  simp only [Ledger.command, is]

theorem command_keyed {op : Op} {key : Bytes} {map : Hashmap} {result : Result}
    (is : handleCommand n cfg.numDbs env values = .keyed op key)
    (executed : cmdExec op (l.dbs (home key) l.db) key (hashmapXxhash3 key 0 0) = (map, result)) :
    l.command cfg c index values env =
      { l with
        dbs := Function.update l.dbs (home key) (Function.update (l.dbs (home key)) l.db map)
        events := l.events ++ [.handled c index values env, .executed c index l.db key op
          (hashmapGetWithHash (l.dbs (home key) l.db) key (hashmapXxhash3 key 0 0)) result] } := by
  simp only [Ledger.command, is, executed]

/-- A command that needs neither a key nor the databases. -/
theorem command_plain {outcome : Outcome} (is : handleCommand n cfg.numDbs env values = outcome)
    (plain : outcome = .shutdown ∨ ∃ w, outcome = .reply w ∨ outcome = .quit w) :
    l.command cfg c index values env =
      { l with events := l.events ++ [.handled c index values env] } := by
  rcases plain with rfl | ⟨w, rfl | rfl⟩ <;> simp only [Ledger.command, is]

end Commands

section Moves

variable [NeZero n] {cfg : Config} {v v' : View n} {i j : Fin n} {a : Action} {c : ConnId}
  {trace seen : List Event}

/-- Nothing is to come any more, or less. -/
theorem Ahead.frame (ahead : Ahead cfg c j v trace)
    (owner : ∀ conn, v'.conn c = some conn → conn.shardId = j.val)
    (db : ∀ db, v'.selected c = some db → db = (inTurn n cfg trace).db) (dbs : v'.dbs = v.dbs)
    (forth : ∀ h, v'.forth c j h = v.forth c j h)
    (same : (inTurn n cfg trace).Same (inTurn n cfg (trace ++ seen)))
    (none : ∀ h : Fin n, seen.filter (Event.executedAt h) = []) :
    Ahead cfg c j v' (trace ++ seen) := by
  constructor
  · exact owner
  · rw [same.db]
    exact db
  · intro h
    rw [same.db, same.dbs, forth, dbs]
    exact ahead.dbs h
  · intro h
    rw [same.events, same.db, forth, dbs, List.filter_append, none, List.append_nil]
    exact ahead.events h

/-- A step in which no command is called. -/
theorem Ahead.silent (ahead : Ahead cfg c j v trace)
    (owner : ∀ conn, v'.conn c = some conn → conn.shardId = j.val)
    (db : ∀ db, v'.selected c = some db → db = (inTurn n cfg trace).db) (dbs : v'.dbs = v.dbs)
    (forth : ∀ h, v'.forth c j h = v.forth c j h)
    (unhandled : ∀ d index values env, .handled d index values env ∉ seen)
    (none : ∀ h : Fin n, seen.filter (Event.executedAt h) = []) :
    Ahead cfg c j v' (trace ++ seen) :=
  ahead.frame owner db dbs forth (inTurn_of_unhandled unhandled) none

/-- A connection of which nothing is on its way: the run has caught up with the commands. -/
theorem Ahead.caughtUp (ahead : Ahead cfg c j v trace) (executed : v.Executed c) (h : Fin n) :
    v.dbs h = (inTurn n cfg trace).dbs h ∧
      trace.filter (Event.executedAt h) = (inTurn n cfg trace).events.filter (Event.executedAt h) := by
  have dbs := ahead.dbs h
  have events := ahead.events h
  rw [executed j h] at dbs events
  exact ⟨dbs.symm, by rw [events, replay, List.append_nil]⟩

section Called

variable {k : Serving} {conn : Conn} {args : CmdArgs} {values : List Value} {env : Env}
  {outcome : Outcome}

omit [NeZero n] in
theorem selected_of_live (live : v.conn c = some conn) : v.selected c = some conn.db := by
  rw [View.selected, live, Option.map_some]

/-- A command that leaves the databases alone, and the selected one. -/
theorem Ahead.plain (ahead : Ahead cfg c j v trace)
    (hands : Hands cfg v i a c k conn args values env outcome)
    (plain : outcome = .shutdown ∨ ∃ w, outcome = .reply w ∨ outcome = .quit w)
    (owner : ∀ conn, v'.conn c = some conn → conn.shardId = j.val)
    (selected : v'.selected c = some conn.db) (dbs : v'.dbs = v.dbs)
    (forth : ∀ h, v'.forth c j h = v.forth c j h)
    (unseen : ∀ e ∈ seen, ∀ l : Ledger n, l.observe cfg e = l)
    (none : ∀ h : Fin n, seen.filter (Event.executedAt h) = []) :
    Ahead cfg c j v' (trace ++ .handled c conn.answered values env :: seen) := by
  have turn : inTurn n cfg (trace ++ .handled c conn.answered values env :: seen) =
      { inTurn n cfg trace with
        events := (inTurn n cfg trace).events ++ [.handled c conn.answered values env] } := by
    rw [inTurn_handled unseen, command_plain hands.outcome.symm plain]
  apply ahead.frame owner _ dbs forth
  · rw [turn]
    refine ⟨rfl, rfl, fun h => ?_⟩
    rw [List.filter_append]
    exact List.append_nil _
  · exact none
  · intro db is
    rw [selected, ← selected_of_live hands.live] at is
    exact ahead.db db is

/-- A command behind which nothing is on its way. -/
theorem Ahead.settled (ahead : Ahead cfg c j v trace) (executed : v.Executed c)
    (owner : ∀ conn, v'.conn c = some conn → conn.shardId = j.val)
    (db : ∀ db, v'.selected c = some db → db = (inTurn n cfg (trace ++ seen)).db)
    (forth : ∀ h, v'.forth c j h = v.forth c j h)
    (dbs : ∀ h, (inTurn n cfg (trace ++ seen)).dbs h = v'.dbs h)
    (events : ∀ h : Fin n, (inTurn n cfg (trace ++ seen)).events.filter (Event.executedAt h) =
      (inTurn n cfg trace).events.filter (Event.executedAt h))
    (none : ∀ h : Fin n, seen.filter (Event.executedAt h) = []) :
    Ahead cfg c j v' (trace ++ seen) := by
  constructor
  · exact owner
  · exact db
  · intro h
    rw [forth, executed]
    exact dbs h
  · intro h
    rw [events, List.filter_append, none, List.append_nil, (ahead.caughtUp executed h).2, forth,
      executed, replay, List.append_nil]

theorem Ahead.select (ahead : Ahead cfg c j v trace) {db : Size} {w : Write} {offset : ℕ}
    (hands : Hands cfg v i a c k conn args values env (.select db w))
    (settled : db = conn.db ∨ v.Executed c)
    (owner : ∀ conn, v'.conn c = some conn → conn.shardId = j.val)
    (selected : v'.selected c = some db) (dbs : v'.dbs = v.dbs)
    (forth : ∀ h, v'.forth c j h = v.forth c j h) :
    Ahead cfg c j v' (trace ++ [.handled c conn.answered values env,
      .replied c conn.answered offset w]) := by
  have turn : inTurn n cfg (trace ++ [.handled c conn.answered values env,
      .replied c conn.answered offset w]) =
      { inTurn n cfg trace with
        db := db
        events := (inTurn n cfg trace).events ++ [.handled c conn.answered values env] } := by
    rw [inTurn_handled (by simp [Ledger.observe]), command_select hands.outcome.symm]
  -- `SELECT` executes nothing on any shard
  have events (h : Fin n) : (inTurn n cfg (trace ++ [.handled c conn.answered values env,
      .replied c conn.answered offset w])).events.filter (Event.executedAt h) =
      (inTurn n cfg trace).events.filter (Event.executedAt h) := by
    rw [turn, List.filter_append]
    exact List.append_nil _
  have before := ahead.db conn.db (selected_of_live hands.live)
  rcases settled with rfl | executed
  · -- the database that is selected already
    apply ahead.frame owner _ dbs forth _ (by simp [Event.executedAt])
    · intro db is
      rw [selected, Option.some.injEq] at is
      rw [← is, before]
    · refine ⟨?_, by rw [turn], events⟩
      rw [turn]
      exact before
  · apply ahead.settled executed owner _ forth _ events (by simp [Event.executedAt])
    · intro db' is
      rw [selected, Option.some.injEq] at is
      rw [← is, turn]
    · intro h
      rw [turn, dbs, (ahead.caughtUp executed h).1]

theorem Ahead.flushall (ahead : Ahead cfg c j v trace) {w : Write} {offset : ℕ}
    (hands : Hands cfg v i a c k conn args values env (.flushall w)) (executed : v.Executed c)
    (owner : ∀ conn, v'.conn c = some conn → conn.shardId = j.val)
    (selected : v'.selected = v.selected) (dbs : v'.dbs = (v.flushAll cfg.numDbs).dbs)
    (forth : ∀ h, v'.forth c j h = v.forth c j h) :
    Ahead cfg c j v' (trace ++ [.handled c conn.answered values env,
      .replied c conn.answered offset w]) := by
  have turn : inTurn n cfg (trace ++ [.handled c conn.answered values env,
      .replied c conn.answered offset w]) =
      { inTurn n cfg trace with
        dbs := fun i db => if db < cfg.numDbs then hashmapClear ((inTurn n cfg trace).dbs i db)
          else (inTurn n cfg trace).dbs i db
        events := (inTurn n cfg trace).events ++ [.handled c conn.answered values env] } := by
    rw [inTurn_handled (by simp [Ledger.observe]), command_flushall hands.outcome.symm]
  apply ahead.settled executed owner _ forth
  · intro h
    rw [turn, dbs]
    funext db
    simp only [View.flushAll, (ahead.caughtUp executed h).1]
  · intro h
    rw [turn, List.filter_append]
    exact List.append_nil _
  · simp [Event.executedAt]
  · intro db is
    rw [turn]
    exact ahead.db db (selected ▸ is)

omit [NeZero n] in
/-- No shard sends a request to itself. -/
theorem forth_self (routed : Routed v) : v.forth c i i = [] := by
  apply List.eq_nil_iff_forall_not_mem.mpr
  intro m mem
  obtain ⟨m', place, selects⟩ := Mail.mem_lane.mp mem
  obtain ⟨src, dst⟩ := addressed_forth c i i m' m selects
  rcases place with place | place
  · exact (routed.inbox i m' place).2 src
  · exact (routed.outbox i m' place).2 dst

theorem turn_keyed {op : Op} {key : Bytes} {map : Hashmap} {result : Result}
    (hands : Hands cfg v i a c k conn args values env (.keyed op key))
    (executed : cmdExec op ((inTurn n cfg trace).dbs (home key) (inTurn n cfg trace).db) key
      (hashmapXxhash3 key 0 0) = (map, result)) (seen : List Event)
    (unseen : ∀ e ∈ seen, ∀ l : Ledger n, l.observe cfg e = l) :
    inTurn n cfg (trace ++ .handled c conn.answered values env :: seen) =
      { inTurn n cfg trace with
        dbs := Function.update (inTurn n cfg trace).dbs (home key)
          (Function.update ((inTurn n cfg trace).dbs (home key)) (inTurn n cfg trace).db map)
        events := (inTurn n cfg trace).events ++ [.handled c conn.answered values env,
          .executed c conn.answered (inTurn n cfg trace).db key op
            (hashmapGetWithHash ((inTurn n cfg trace).dbs (home key) (inTurn n cfg trace).db) key
              (hashmapXxhash3 key 0 0)) result] } := by
  rw [inTurn_handled unseen, command_keyed hands.outcome.symm executed]

theorem Ahead.inline (ahead : Ahead cfg c i v trace) (routed : Routed v) {op : Op} {key : Bytes}
    {map : Hashmap} {result : Result} {offset : ℕ}
    (hands : Hands cfg v i a c k conn args values env (.keyed op key)) (here : home key = i)
    (executed : cmdExec op (v.dbs i conn.db) key (hashmapXxhash3 key 0 0) = (map, result))
    (owner : ∀ conn, v'.conn c = some conn → conn.shardId = i.val)
    (selected : v'.selected = v.selected) (dbs : v'.dbs = (v.setDb i conn.db map).dbs)
    (forth : ∀ h, v'.forth c i h = v.forth c i h) :
    Ahead cfg c i v' (trace ++ [.handled c conn.answered values env,
      .executed c conn.answered conn.db key op
        (hashmapGetWithHash (v.dbs i conn.db) key (hashmapXxhash3 key 0 0)) result,
      .replied c conn.answered offset (cmdResp result)]) := by
  subst here
  -- nothing is on its way from a shard to itself
  have known := ahead.dbs (home key)
  rw [forth_self routed] at known
  have known : (inTurn n cfg trace).dbs (home key) = v.dbs (home key) := known
  have db := ahead.db conn.db (selected_of_live hands.live)
  rw [db, ← known] at executed
  have turn := turn_keyed hands executed [.executed c conn.answered conn.db key op
    (hashmapGetWithHash (v.dbs (home key) conn.db) key (hashmapXxhash3 key 0 0)) result,
    .replied c conn.answered offset (cmdResp result)] (by simp [Ledger.observe])
  constructor
  · exact owner
  · intro db is
    rw [turn]
    exact ahead.db db (selected ▸ is)
  · intro h
    rw [turn, forth, dbs]
    by_cases here : h = home key
    · subst here
      rw [forth_self routed, replay]
      simp [View.setDb, known, db]
    · simpa [View.setDb, Function.update_of_ne here] using ahead.dbs h
  · intro h
    rw [turn, forth, dbs]
    by_cases here : h = home key
    · subst here
      have caught := ahead.events (home key)
      rw [forth_self routed, replay, List.append_nil] at caught
      rw [forth_self routed, replay]
      simp [Event.executedAt, caught, known, db]
    · have other : home key ≠ h := fun same => here same.symm
      simpa [View.setDb, Function.update_of_ne here, Event.executedAt, other] using ahead.events h

theorem Ahead.dispatch (ahead : Ahead cfg c i v trace) {op : Op} {key : Bytes} {m : Message n}
    (hands : Hands cfg v i a c k conn args values env (.keyed op key))
    (is : m = .request ⟨i, home key, c, conn.answered⟩ key (hashmapXxhash3 key 0 0)
      (cmdPreDispatch op))
    (owner : ∀ conn, v'.conn c = some conn → conn.shardId = i.val)
    (selected : v'.selected = v.selected) (dbs : v'.dbs = v.dbs)
    (forth : ∀ h, v'.forth c i h = v.forth c i h ++ (Message.forth c i h m).toList) :
    Ahead cfg c i v' (trace ++ [.handled c conn.answered values env]) := by
  obtain ⟨⟨map, result⟩, executed⟩ : ∃ r, cmdExec op ((inTurn n cfg trace).dbs (home key)
      (inTurn n cfg trace).db) key (hashmapXxhash3 key 0 0) = r := ⟨_, rfl⟩
  have turn := turn_keyed hands executed [] (by simp)
  -- what the request is going to do where it arrives
  have exec : m.exec (inTurn n cfg trace).db ((inTurn n cfg trace).dbs (home key)) =
      (Function.update ((inTurn n cfg trace).dbs (home key)) (inTurn n cfg trace).db map,
        [.executed c conn.answered (inTurn n cfg trace).db key op
          (hashmapGetWithHash ((inTurn n cfg trace).dbs (home key) (inTurn n cfg trace).db) key
            (hashmapXxhash3 key 0 0)) result]) := by
    simp only [is, Message.exec, cmdPreDispatchExec_cmdPreDispatch, executed]
  have there : Message.forth c i (home key) m = some m := by
    rw [is]
    exact if_pos ⟨rfl, rfl, rfl⟩
  -- and nothing is on its way to the other shards
  have elsewhere {h : Fin n} (other : home key ≠ h) : Message.forth c i h m = none := by
    rw [is]
    exact if_neg fun all => other all.2.2
  constructor
  · exact owner
  · intro db is
    rw [turn]
    exact ahead.db db (selected ▸ is)
  · intro h
    rw [turn, forth, dbs]
    by_cases here : home key = h
    · subst here
      simp only [there, Option.toList_some, replay_append, replay, Function.update_self,
        ← ahead.dbs, exec]
    · rw [elsewhere here, Option.toList_none, List.append_nil]
      simpa [Function.update_of_ne (Ne.symm here)] using ahead.dbs h
  · intro h
    rw [turn, forth, dbs]
    by_cases here : home key = h
    · subst here
      simp only [there, Option.toList_some, replay_append, replay, ← ahead.dbs, exec,
        List.filter_append, ahead.events, List.append_nil, List.append_assoc]
      simp [Event.executedAt]
    · rw [elsewhere here, Option.toList_none, List.append_nil]
      simpa [Event.executedAt, here] using ahead.events h

theorem Ahead.execute (ahead : Ahead cfg c j v trace) {ctx : CBContext n} {key : Bytes} {hash : Size}
    {fields : ReqFields} {map : Hashmap} {result : Result} {m : Message n}
    (is : m = .request ctx key hash fields) (about : ctx.conn = c) (src : ctx.src = j)
    (dst : ctx.dst = i) (here : home key = i) (live : v.conn c = some conn)
    (executed : cmdExec (cmdPreDispatchExec fields) (v.dbs i conn.db) key hash = (map, result))
    (owner : ∀ conn, v'.conn c = some conn → conn.shardId = j.val)
    (selected : v'.selected = v.selected) (dbs : v'.dbs = (v.setDb i conn.db map).dbs)
    (forth : ∀ h, v.forth c j h = (Message.forth c j h m).toList ++ v'.forth c j h) :
    Ahead cfg c j v' (trace ++ [.executed c ctx.index conn.db key (cmdPreDispatchExec fields)
      (hashmapGetWithHash (v.dbs i conn.db) key hash) result]) := by
  have turn : inTurn n cfg (trace ++ [.executed c ctx.index conn.db key (cmdPreDispatchExec fields)
      (hashmapGetWithHash (v.dbs i conn.db) key hash) result]) = inTurn n cfg trace :=
    inTurn_of_unseen (by simp [Ledger.observe])
  have db := ahead.db conn.db (selected_of_live live)
  have exec : m.exec (inTurn n cfg trace).db (v.dbs i) = (Function.update (v.dbs i) conn.db map,
      [.executed c ctx.index conn.db key (cmdPreDispatchExec fields)
        (hashmapGetWithHash (v.dbs i conn.db) key hash) result]) := by
    simp only [is, Message.exec, ← db, executed, about]
  -- the request is the first of its lane
  have first : v.forth c j i = m :: v'.forth c j i := by
    rw [forth, is, Message.forth, if_pos ⟨about, src, dst⟩]
    rfl
  have rest {h : Fin n} (other : h ≠ i) : v.forth c j h = v'.forth c j h := by
    rw [forth, is, Message.forth, if_neg fun all => other (all.2.2.symm.trans dst)]
    rfl
  have shard : v'.dbs i = Function.update (v.dbs i) conn.db map := by
    rw [dbs]
    exact Function.update_self ..
  have others {h : Fin n} (other : h ≠ i) : v'.dbs h = v.dbs h := by
    rw [dbs]
    exact Function.update_of_ne other ..
  constructor
  · exact owner
  · intro db is
    rw [turn]
    exact ahead.db db (selected ▸ is)
  · intro h
    rw [turn]
    by_cases same : h = i
    · subst same
      rw [ahead.dbs, first, replay, exec, shard]
    · rw [ahead.dbs, rest same, others same]
  · intro h
    rw [turn, ahead.events]
    by_cases same : h = i
    · subst same
      rw [first, replay, exec, shard]
      simp [Event.executedAt, here]
    · have other : home key ≠ h := fun is => same (is.symm.trans here)
      rw [rest same, others same]
      simp [Event.executedAt, other]

end Called

theorem Ahead.flow (ahead : Ahead cfg c j v trace) (routed : Routed v)
    (recorded : Recorded cfg v trace) (fresh : v.nextConn ≤ c → (inTurn n cfg trace).db = 0)
    (only : OnlyFrom c (trace ++ seen))
    (owner : ∀ conn, v'.conn c = some conn → conn.shardId = j.val) (settled : StepAwaits cfg v i a)
    (flow : FlowMove cfg v v' i a seen) : Ahead cfg c j v' (trace ++ seen) := by
  have earlier : OnlyFrom c trace := fun d index values env mem =>
    only d index values env (List.mem_append_left _ mem)
  cases flow with
  | silent silent dbs lanes keeps =>
    apply ahead.silent owner _ dbs (fun h => lanes.forth c j h)
    · exact fun d index values env mem => silent _ mem
    · intro h
      apply List.filter_eq_nil_iff.mpr
      intro e mem
      cases e with
      | executed => exact (silent _ mem).elim
      | _ => simp [Event.executedAt]
    · intro db is
      rcases keeps c db is with before | ⟨new, rfl⟩
      · exact ahead.db db before
      · exact (fresh new).symm
  | refuse stands is live malformed dbs lanes selected =>
    apply ahead.silent owner _ dbs (fun h => lanes.forth c j h) (by simp) (by simp [Event.executedAt])
    intro db is
    exact ahead.db db (selected ▸ is)
  | deliver stands is live dbs forth back selected =>
    apply ahead.silent owner _ dbs (fun h => forth c j h) (by simp) (by simp [Event.executedAt])
    intro db is
    exact ahead.db db (selected ▸ is)
  | @answer d conn conn' args k values env outcome w hands answer dbs lanes selected =>
    obtain rfl : d = c := only d conn.answered values env (by simp)
    have selects : v'.selected d = some conn'.db := by rw [selected, Function.update_self]
    have forth (h) := lanes.forth d j h
    have none : ∀ h : Fin n, [Event.replied d conn.answered conn.sendBuf.length w].filter
        (Event.executedAt h) = [] := by simp [Event.executedAt]
    cases outcome with
    | reply w' =>
      cases answer
      exact ahead.plain hands (.inr ⟨w, .inl rfl⟩) owner selects dbs forth (by simp [Ledger.observe]) none
    | quit w' =>
      cases answer
      exact ahead.plain hands (.inr ⟨w, .inr rfl⟩) owner selects dbs forth (by simp [Ledger.observe]) none
    | select db w' =>
      cases answer
      exact ahead.select hands (settled.hands hands) owner selects dbs forth
    | flushall | shutdown | keyed => cases answer
  | @flushall d conn args k values env w hands dbs lanes selected =>
    obtain rfl : d = c := only d conn.answered values env (by simp)
    exact ahead.flushall hands (settled.hands hands) owner selected dbs (lanes.forth d j)
  | @shutdown d conn args k values env hands dbs lanes selected =>
    obtain rfl : d = c := only d conn.answered values env (by simp)
    have selects : v'.selected d = some conn.db := by rw [selected, selected_of_live hands.live]
    exact ahead.plain hands (.inl rfl) owner selects dbs (lanes.forth d j) (by simp) (by simp)
  | @inline d conn args k values env op key db' result hands here executed dbs lanes selected =>
    obtain rfl : d = c := only d conn.answered values env (by simp)
    obtain rfl : i = j := Fin.ext ((routed.hands hands).symm.trans (ahead.owner conn hands.live))
    exact ahead.inline routed hands here executed owner selected dbs (lanes.forth d i)
  | @dispatch d conn args k values env op key m hands away is dbs forth back selected =>
    obtain rfl : d = c := only d conn.answered values env (by simp)
    obtain rfl : i = j := Fin.ext ((routed.hands hands).symm.trans (ahead.owner conn hands.live))
    exact ahead.dispatch hands is owner selected dbs (forth d i)
  | @execute count ctx key hash fields conn db' result m m' stands is live executed is' dbs forth back
      selected =>
    have held : v.mail.Holds (.request ctx key hash fields) := is ▸ View.holds_callback stands
    obtain ⟨rfl, dst, values, env, handled, -⟩ := recorded.requests ctx key hash fields held
    obtain rfl : ctx.conn = c := earlier _ _ _ _ handled
    have src : ctx.src = j :=
      Fin.ext (((routed.owner _ held).2 conn live).symm.trans (ahead.owner conn live))
    have here : ctx.dst = i := by
      have front := View.inbox_callback stands
      have dst := (routed.inbox i m (front ▸ List.mem_cons_self)).1
      rw [is] at dst
      exact dst
    exact ahead.execute is rfl src here (dst.symm.trans here) live executed owner selected dbs
      (forth ctx.conn j)

/-- A connection that appears in a step was accepted by the shard that takes it. -/
theorem Move.new_owner (move : Move cfg v i a v' seen) (routed : Routed v) (new : v.nextConn ≤ c)
    {conn' : Conn} (live : v'.conn c = some conn') : conn'.shardId = i.val := by
  rcases move.keeps.2 c conn' live with ⟨conn, before, -⟩ | ⟨-, below⟩
  · exact absurd (routed.live c conn before) (Nat.not_lt.mpr new)
  · cases move with
    | @accept es recv stands =>
      obtain rfl : c = v.nextConn := Nat.le_antisymm (Nat.lt_succ_iff.mp below) new
      obtain rfl : Conn.accepted i recv = conn' := by
        simpa [View.goto, View.setConn, Function.update_self] using live
      rfl
    | quiet | flush | dequeue | skip | refuse | answer | flushall | shutdown | inline | dispatch
    | claim | dispatched | execute | deliver | receive | close =>
      exact absurd below (Nat.not_lt.mpr new)

omit [NeZero n] in
/-- Nothing is on its way about a connection that is still to come. -/
theorem executed_of_new (routed : Routed v) (new : v.nextConn ≤ c) : v.Executed c := by
  intro j t
  apply List.eq_nil_iff_forall_not_mem.mpr
  intro m mem
  obtain ⟨m', place, selects⟩ := Mail.mem_lane.mp mem
  have held : v.mail.Holds m' := place.elim (fun mem => ⟨t, .inl mem⟩) fun mem => ⟨j, .inr mem⟩
  have about : m'.ctx.conn = c := by
    cases m' with
    | request ctx => exact ((Option.ite_none_right_eq_some ..).mp selects).1.1
    | response => cases selects
  exact absurd (routed.owner m' held).1 (Nat.not_lt.mpr (about ▸ new))

/-- Which shard the connection will be on shows when it is accepted. -/
theorem Ahead.reassign (ahead : Ahead cfg c j v trace) (routed : Routed v) (new : v.nextConn ≤ c)
    (i : Fin n) : Ahead cfg c i v trace := by
  have executed := executed_of_new routed new
  constructor
  · intro conn live
    exact absurd (routed.live c conn live) (Nat.not_lt.mpr new)
  · exact ahead.db
  · intro h
    rw [executed, ← executed j h]
    exact ahead.dbs h
  · intro h
    rw [executed, ← executed j h]
    exact ahead.events h

/-- The commands that have been handed on are those of connections that were accepted. -/
def HandledKnown (v : View n) (trace : List Event) : Prop :=
  ∀ d index values env, .handled d index values env ∈ trace → d < v.nextConn

theorem HandledKnown.move (known : HandledKnown v trace) (routed : Routed v)
    (move : Move cfg v i a v' seen) : HandledKnown v' (trace ++ seen) := by
  intro d index values env mem
  rcases List.mem_append.mp mem with old | new
  · exact (known d index values env old).trans_le move.keeps.1
  · obtain ⟨conn, live⟩ : ∃ conn, v.conn d = some conn := by
      cases move with
      | answer hands | flushall hands | shutdown hands | inline hands | dispatch hands =>
        simp only [List.mem_cons, Event.handled.injEq, reduceCtorEq, List.not_mem_nil, or_false] at new
        obtain ⟨rfl, -⟩ := new
        exact ⟨_, hands.live⟩
      | quiet | flush | dequeue | skip | refuse | claim | dispatched | execute | deliver | accept
      | receive | close => simp at new
    exact (routed.live d conn live).trans_le move.keeps.1

theorem Ahead.move (routed : Routed v) (recorded : Recorded cfg v trace)
    (known : HandledKnown v trace) (ahead : ∃ j, Ahead cfg c j v trace)
    (only : OnlyFrom c (trace ++ seen)) (settled : StepAwaits cfg v i a)
    (move : Move cfg v i a v' seen) : ∃ j, Ahead cfg c j v' (trace ++ seen) := by
  obtain ⟨j, ahead⟩ := ahead
  have flow := move.flow routed
  have fresh : v.nextConn ≤ c → (inTurn n cfg trace).db = 0 := by
    intro new
    have unhandled (d index values env) : .handled d index values env ∉ trace := by
      intro mem
      have same := only d index values env (List.mem_append_left _ mem)
      exact absurd (known d index values env mem) (Nat.not_lt.mpr (same ▸ new))
    have same : (inTurn n cfg []).Same (inTurn n cfg ([] ++ trace)) := inTurn_of_unhandled unhandled
    exact same.db
  by_cases new : v.nextConn ≤ c
  · have owner (conn') (live : v'.conn c = some conn') := move.new_owner routed new live
    exact ⟨i, (ahead.reassign routed new i).flow routed recorded fresh only owner settled flow⟩
  · refine ⟨j, ahead.flow routed recorded fresh only (fun conn' live => ?_) settled flow⟩
    rcases move.keeps.2 c conn' live with ⟨conn, before, same⟩ | ⟨later, -⟩
    · exact same.trans (ahead.owner conn before)
    · exact absurd later new

end Moves

/-! ### Runs -/

theorem ahead_init (n : ℕ) [NeZero n] (cfg : Config) (c : ConnId) (j : Fin n) :
    Ahead cfg c j (State.init n).view [] := by
  have executed : (State.init n).view.Executed c := executed_of_new (routed_init n) (Nat.zero_le c)
  constructor
  · intro conn live
    cases live
  · intro db is
    cases is
  · intro h
    rw [executed]
    rfl
  · intro h
    rw [executed]
    rfl

theorem command_events [NeZero n] (l : Ledger n) (cfg : Config) (c : ConnId) (index : ℕ)
    (values : List Value) (env : Env) : ∃ more, (l.command cfg c index values env).events =
      l.events ++ .handled c index values env :: more := by
  unfold Ledger.command
  split <;> exact ⟨_, rfl⟩

theorem handled_inTurn [NeZero n] {cfg : Config} {trace : List Event} {c : ConnId} {index : ℕ}
    {values : List Value} {env : Env} (mem : .handled c index values env ∈ trace) :
    .handled c index values env ∈ (inTurn n cfg trace).events := by
  induction trace using List.reverseRecOn with
  | nil => cases mem
  | append_singleton trace e ih =>
    rw [inTurn_append, List.foldl_cons, List.foldl_nil]
    rcases List.mem_append.mp mem with old | new
    · have before := ih old
      cases e with
      | handled d index' values' env' =>
        obtain ⟨more, is⟩ := command_events (inTurn n cfg trace) cfg d index' values' env'
        rw [Ledger.observe, is]
        exact List.mem_append_left _ before
      | refused => exact List.mem_append_left _ before
      | _ => exact before
    · obtain rfl := List.mem_singleton.mp new
      obtain ⟨more, is⟩ := command_events (inTurn n cfg trace) cfg c index values env
      rw [Ledger.observe, is]
      exact List.mem_append_right _ List.mem_cons_self

theorem refused_inTurn [NeZero n] {cfg : Config} {trace : List Event} {c : ConnId} {index : ℕ}
    {w : Write} (mem : .refused c index w ∈ trace) :
    .refused c index w ∈ (inTurn n cfg trace).events := by
  induction trace using List.reverseRecOn with
  | nil => cases mem
  | append_singleton trace e ih =>
    rw [inTurn_append, List.foldl_cons, List.foldl_nil]
    rcases List.mem_append.mp mem with old | new
    · have before := ih old
      cases e with
      | handled d index' values' env' =>
        obtain ⟨more, is⟩ := command_events (inTurn n cfg trace) cfg d index' values' env'
        rw [Ledger.observe, is]
        exact List.mem_append_left _ before
      | refused => exact List.mem_append_left _ before
      | _ => exact before
    · obtain rfl := List.mem_singleton.mp new
      exact List.mem_append_right _ List.mem_cons_self

/-- A reply answers the same request when the commands are executed in turn. -/
theorem Answers.inTurn [NeZero n] {cfg : Config} {trace : List Event} {c : ConnId} {index : ℕ}
    {w : Write} (answers : Answers n cfg trace c index w)
    (executed : ∀ h : Fin n, trace.filter (Event.executedAt h) <+:
      (inTurn n cfg trace).events.filter (Event.executedAt h)) :
    Answers n cfg (Server.inTurn n cfg trace).events c index w := by
  have handled {outcome : Outcome} (is : Handled n cfg trace c index outcome) :
      Handled n cfg (Server.inTurn n cfg trace).events c index outcome := by
    obtain ⟨values, env, mem, outcome⟩ := is
    exact ⟨values, env, handled_inTurn mem, outcome⟩
  cases answers with
  | malformed refused text => exact .malformed (refused_inTurn refused) text
  | plain is writes => exact .plain (handled is) writes
  | @keyed op key db found result is mem writes =>
    have there : .executed c index db key op found result ∈
        trace.filter (Event.executedAt (n := n) (home key)) :=
      List.mem_filter.mpr ⟨mem, decide_eq_true rfl⟩
    exact .keyed (handled is) (List.mem_filter.mp ((executed _).subset there)).1 writes

/-- In a run in which the commands of a single client are handed on, and `FLUSHALL` and a `SELECT`
of another database only when no request is on its way to a home shard, the commands take
effect as if each had been executed before the next one. -/
theorem pipeline_in_order [NeZero n] {cfg : Config} {c : ConnId} {s : State n} {trace : List Event}
    (run : (server cfg).Run (fun s a => StepAwaits cfg s.view a.1 a.2) (State.init n) s trace)
    (only : OnlyFrom c trace) : InPipelineOrder cfg c s trace := by
  obtain ⟨-, recorded, known, ahead⟩ := run_invariant
    (fun v trace => Recorded cfg v trace ∧ HandledKnown v trace ∧
      (OnlyFrom c trace → ∃ j, Ahead cfg c j v trace))
    (routed_init n) ⟨recorded_init n cfg, by simp [HandledKnown], fun _ => ⟨_, ahead_init n cfg c 0⟩⟩
    (fun routed holds settled move => by
      obtain ⟨recorded, known, ahead⟩ := holds
      refine ⟨recorded.move move, known.move routed move, fun only => ?_⟩
      have earlier : OnlyFrom c _ := fun d index values env mem =>
        only d index values env (List.mem_append_left _ mem)
      exact Ahead.move routed recorded known (ahead earlier) only settled move) run
  obtain ⟨j, ahead⟩ := ahead only
  have executed (h : Fin n) : trace.filter (Event.executedAt h) <+:
      (inTurn n cfg trace).events.filter (Event.executedAt h) := ⟨_, (ahead.events h).symm⟩
  refine ⟨executed, ?_, fun executed h => ahead.caughtUp executed h⟩
  intro d index offset w mem
  exact (recorded.replies d index offset w mem).inTurn executed

/-- Whether an event is no command of another connection. -/
def Event.isFrom (c : ConnId) : Event → Bool
  | .handled d _ _ _ => d = c
  | _ => true

theorem onlyFrom_of_all {c : ConnId} {trace : List Event} (all : trace.all (Event.isFrom c) = true) :
    OnlyFrom c trace := by
  intro d index values env mem
  simpa [Event.isFrom] using List.all_eq_true.mp all _ mem

/-- The only client is connected to shard 0 and has sent `SET a 1` and `SELECT 1` in one write; the
request is in the queue of shard 1, the home shard of the key. -/
def setThenSelect : List (Fin 2 × Action) :=
  goToSleep shard0 0 ++ acceptClient shard0 65536 ++ goToSleep shard0 1 ++
    readFrom shard0 0 (asciiBytes "SET a 1" ++ crlf ++ asciiBytes "SELECT 1" ++ crlf) ++
    [serveNext shard0, (shard0, .go), (shard0, .go)]

/-- Shard 1 gets to the request and executes it. -/
def executeNext : List (Fin 2 × Action) := List.replicate 10 (shard1, .go)

/-- Whether key `a` has a value in database 0, and in the one that the commands in turn leave. -/
def valueOfA (r : State 2 × List Event) : Bool × Bool :=
  let stored (dbs : Size → Hashmap) : Bool :=
    (hashmapGetWithHash (dbs 0) (asciiBytes "a") (hashmapXxhash3 (asciiBytes "a") 0 0)).isSome
  (stored (r.1.shard shard1).dbs, stored ((inTurn 2 config r.2).dbs shard1))

/-- `SELECT` waits until the request is executed. -/
theorem pipeline_in_order_select : ∃ s trace,
    (server config).Run (fun s a => StepAwaits config s.view a.1 a.2) (State.init 2) s trace ∧
      OnlyFrom 0 trace ∧ valueOfA (s, trace) = (true, true) ∧ InPipelineOrder config 0 s trace := by
  obtain ⟨s, trace, run, is⟩ := Machine.exists_run_of_exec (server config)
    (fun s a => StepAwaits config s.view a.1 a.2) (State.init 2)
    (setThenSelect ++ executeNext ++ [serveNext shard0])
    (fun r => (r.2.all (Event.isFrom 0), valueOfA r)) (b := (true, true, true)) (by decide +kernel)
  obtain ⟨all, stored⟩ := Prod.mk.inj is
  have only := onlyFrom_of_all all
  exact ⟨s, trace, run, only, stored, pipeline_in_order run only⟩

/-- `SELECT` comes first, and the value goes into the other database. -/
theorem select_overtakes_set : ¬ ∀ s trace, (server config).Reaches (State.init 2) s trace →
    OnlyFrom 0 trace → InPipelineOrder config 0 s trace := by
  intro claimed
  obtain ⟨s, trace, run, is⟩ := Machine.exists_of_exec (server config) (State.init 2)
    (setThenSelect ++ [serveNext shard0] ++ executeNext)
    (fun r => (r.2.all (Event.isFrom 0), decide (r.1.view.Executed 0), valueOfA r))
    (b := (true, true, false, true)) (by decide +kernel)
  obtain ⟨all, is⟩ := Prod.mk.inj is
  obtain ⟨executed, stored⟩ := Prod.mk.inj is
  have ordered := claimed s trace run (onlyFrom_of_all all)
  have same := (ordered.contents (of_decide_eq_true executed) shard1).1
  simp only [valueOfA, same, Prod.mk.injEq] at stored
  exact absurd (stored.1.symm.trans stored.2) Bool.false_ne_true

end GhettoRedis.Server
