import GhettoRedis.Hashmap.Entries
import GhettoRedis.Server.Partition

/-!
# The server on its tables

The databases of the server are finite maps. Here every command that a shard executes is also
executed on the table that `init_shards` made for the database, and `FLUSHALL` clears the tables:
in every interleaving the tables give the results of the maps.
-/
namespace GhettoRedis.Server

open Lib Protocol Commands

variable {n : ℕ}

/-- `shard->dbs` -/
abbrev Tables (n : ℕ) := Fin n → Size → Table.Hashmap Table.Entry

/-- What is done with the databases. -/
inductive Use where
  | exec (db : Size) (key : Bytes) (op : Op) (result : Result)
  | flushall
  deriving DecidableEq

/-- What an event tells of it. -/
def Event.use (n : ℕ) (cfg : Config) : Event → Option Use
  | .executed _ _ db key op _ result => some (.exec db key op result)
  | .handled _ _ args env =>
    match handleCommand n cfg.numDbs env args with
    | .flushall _ => some .flushall
    | _ => none
  | _ => none

namespace Tables

def setDb (tables : Tables n) (i : Fin n) (db : Size) (table : Table.Hashmap Table.Entry) : Tables n :=
  Function.update tables i (Function.update (tables i) db table)

def flushAll (tables : Tables n) (numDbs : Size) : Tables n := fun i db =>
  if db < numDbs then (Table.hashmapClear Table.entryCallbacks (tables i db) true).2 else tables i db

/-- What shard `i` does with its tables: the result of the server beside that of the table. -/
def use (numDbs : Size) (tables : Tables n) (i : Fin n) :
    Use → Option (Tables n × List (Result × Result))
  | .exec db key op result =>
    if short : key.length < 2 ^ 32 then
      (Table.accessDb (tables i db) (.exec true op ⟨key, short⟩)).map fun (table, found) =>
        (tables.setDb i db table, [(result, found)])
    else none
  | .flushall => some (tables.flushAll numDbs, [])

def uses (numDbs : Size) (i : Fin n) : Tables n → List Use → Option (Tables n × List (Result × Result))
  | tables, [] => some (tables, [])
  | tables, use :: uses =>
    match tables.use numDbs i use with
    | none => none
    | some (tables, results) =>
      (Tables.uses numDbs i tables uses).map fun (tables, more) => (tables, results ++ more)

/-- The entries of the table leave room, and the key is no longer than `entry_compare` can tell. -/
def Admits (tables : Tables n) (i : Fin n) : Use → Prop
  | .exec db key _ _ => ∃ short : key.length < 2 ^ 32,
      Table.Ready (tables i db) (Table.hashOf ⟨key, short⟩)
  | .flushall => True

end Tables

/-- The server with its tables, while there is memory. -/
def tabled [NeZero n] (cfg : Config) :
    Machine (State n × Tables n) (Fin n × Action) (Result × Result) where
  step s a :=
    match step cfg s.1 a.1 a.2 with
    | none => none
    | some (next, seen) =>
      (s.2.uses cfg.numDbs a.1 (seen.filterMap (Event.use n cfg))).map fun (tables, results) =>
        ((next, tables), results)

/-- The tables have room for the step. -/
def Spacious [NeZero n] (cfg : Config) (s : State n × Tables n) (a : Fin n × Action) : Prop :=
  ∀ next seen, step cfg s.1 a.1 a.2 = some (next, seen) →
    ∀ use ∈ seen.filterMap (Event.use n cfg), s.2.Admits a.1 use

/-! ### What a step does with the databases -/

section Moves

variable [NeZero n] {cfg : Config} {v v' : View n} {i : Fin n} {a : Action} {seen : List Event}

/-- The one use of a database in a step, if there is any. -/
inductive UseMove (cfg : Config) (v v' : View n) (i : Fin n) : List Use → Prop
  | still : v'.dbs = v.dbs → UseMove cfg v v' i []
  | clear : v'.dbs = (v.flushAll cfg.numDbs).dbs → UseMove cfg v v' i [.flushall]
  | exec {db : Size} {key : Bytes} {op : Op} {map : Hashmap} {result : Result} :
      cmdExec op (v.dbs i db) key (hashmapXxhash3 key 0 0) = (map, result) →
      v'.dbs = (v.setDb i db map).dbs → UseMove cfg v v' i [.exec db key op result]

omit [NeZero n] in
theorem use_handled {c : ConnId} {index : ℕ} {args : List Value} {env : Env} {outcome : Outcome}
    (is : outcome = handleCommand n cfg.numDbs env args) (other : ∀ w, outcome ≠ .flushall w) :
    Event.use n cfg (.handled c index args env) = none := by
  rw [Event.use, ← is]
  cases outcome with
  | flushall w => exact absurd rfl (other w)
  | reply | quit | select | shutdown | keyed => rfl

omit [NeZero n] in
theorem use_flushall {c : ConnId} {index : ℕ} {args : List Value} {env : Env} {w : Write}
    (is : .flushall w = handleCommand n cfg.numDbs env args) :
    Event.use n cfg (.handled c index args env) = some .flushall := by
  rw [Event.use, ← is]

theorem Move.uses {trace : List Event} (recorded : Recorded cfg v trace)
    (move : Move cfg v i a v' seen) :
    UseMove cfg v v' i (seen.filterMap (Event.use n cfg)) := by
  cases move with
  | quiet | flush | dequeue | skip | refuse | claim | dispatched | deliver | accept | receive | close =>
    exact .still rfl
  | @answer c conn conn' args k values env outcome w hands plain =>
    have other (w : Write) : outcome ≠ .flushall w := by
      rintro rfl
      cases plain
    rw [List.filterMap_cons_none (use_handled hands.outcome other)]
    exact .still rfl
  | shutdown hands | dispatch hands =>
    rw [List.filterMap_cons_none (use_handled hands.outcome nofun)]
    exact .still rfl
  | flushall hands =>
    rw [List.filterMap_cons_some (use_flushall hands.outcome)]
    exact .clear rfl
  | inline hands here executed =>
    rw [List.filterMap_cons_none (use_handled hands.outcome nofun)]
    exact .exec executed rfl
  | @execute count ctx key hash fields conn db' result stands live executed =>
    -- the request carries the hash of its key
    obtain ⟨rfl, -⟩ := recorded.requests ctx key hash fields (View.holds_callback stands)
    exact .exec executed rfl

end Moves

/-! ### Runs -/

/-- Every table holds its database. -/
def Backed (v : View n) (tables : Tables n) : Prop := ∀ i db, Table.Holds (tables i db) (v.dbs i db)

section Backed

variable {v : View n} {tables : Tables n} {i : Fin n}

theorem Backed.setDb (backed : Backed v tables) {db : Size} {table : Table.Hashmap Table.Entry}
    {map : Hashmap}
    (holds : Table.Holds table map) : Backed (v.setDb i db map) (tables.setDb i db table) := by
  intro j db'
  simp only [View.setDb, Tables.setDb]
  by_cases shard : j = i
  · subst shard
    rw [Function.update_self, Function.update_self]
    by_cases same : db' = db
    · subst same
      rwa [Function.update_self, Function.update_self]
    · rw [Function.update_of_ne same, Function.update_of_ne same]
      exact backed j db'
  · rw [Function.update_of_ne shard, Function.update_of_ne shard]
    exact backed j db'

theorem Backed.flushAll (backed : Backed v tables) (numDbs : Size) :
    Backed (v.flushAll numDbs) (tables.flushAll numDbs) := by
  intro j db
  simp only [View.flushAll, Tables.flushAll]
  split
  · exact (backed j db).clear
  · exact backed j db

/-- With memory, a command gives what it gives on the map. -/
theorem Backed.exec (backed : Backed v tables) {db : Size} {key : Bytes} {op : Op} {result : Result}
    (admits : tables.Admits i (.exec db key op result)) (numDbs : Size)
    {map : Hashmap} (executed : cmdExec op (v.dbs i db) key (hashmapXxhash3 key 0 0) = (map, result)) :
    ∃ tables', tables.use numDbs i (.exec db key op result) = some (tables', [(result, result)]) ∧
      Backed (v.setDb i db map) tables' := by
  obtain ⟨short, ready⟩ := admits
  obtain ⟨table, returns, leaves⟩ :=
    @Table.cmdExec_spec _ _ ⟨key, short⟩ _ (backed i db) ready true op
  have executed' : cmdExec op (v.dbs i db) key (Table.hashOf ⟨key, short⟩) = (map, result) := executed
  rw [executed'] at returns leaves
  -- nothing is lost, since `malloc` succeeds
  rcases leaves with holds | ⟨no, -⟩
  · refine ⟨tables.setDb i db table, ?_, backed.setDb holds⟩
    rw [Tables.use, dif_pos short, Table.accessDb, returns]
    rfl
  · cases no

end Backed

section Runs

variable [NeZero n] {cfg : Config} {v v' : View n} {tables : Tables n} {i : Fin n} {uses : List Use}

omit [NeZero n] in
theorem Backed.move (backed : Backed v tables) (move : UseMove cfg v v' i uses)
    (admits : ∀ use ∈ uses, tables.Admits i use) :
    ∃ tables' results, tables.uses cfg.numDbs i uses = some (tables', results) ∧ Backed v' tables' ∧
      ∀ pair ∈ results, pair.1 = pair.2 := by
  have same {w : View n} {tables' : Tables n} (dbs : v'.dbs = w.dbs) (backed : Backed w tables') :
      Backed v' tables' := by
    intro j db
    rw [dbs]
    exact backed j db
  cases move with
  | still dbs => exact ⟨tables, [], rfl, same dbs backed, by simp⟩
  | clear dbs => exact ⟨_, [], rfl, same dbs (backed.flushAll cfg.numDbs), by simp⟩
  | @exec db key op map result executed dbs =>
    obtain ⟨tables', returns, backed'⟩ :=
      backed.exec (admits _ (List.mem_singleton_self _)) cfg.numDbs executed
    refine ⟨tables', [(result, result)], ?_, same dbs backed', by simp⟩
    rw [Tables.uses, returns]
    rfl

/-- What is known of a run with tables. -/
structure InStep (cfg : Config) (s : State n × Tables n) (results : List (Result × Result)) : Prop where
  routed : Routed s.1.view
  recorded : ∃ trace, Recorded cfg s.1.view trace
  backed : Backed s.1.view s.2
  same : ∀ pair ∈ results, pair.1 = pair.2

/-- A step of the server for which the tables have room is a step with them. -/
theorem InStep.step {s : State n × Tables n} {results : List (Result × Result)}
    (kept : InStep cfg s results)
    {a : Fin n × Action} (spacious : Spacious cfg s a) {next : State n} {seen : List Event}
    (taken : step cfg s.1 a.1 a.2 = some (next, seen)) :
    ∃ tables more, (tabled cfg).step s a = some ((next, tables), more) ∧
      InStep cfg (next, tables) (results ++ more) := by
  obtain ⟨trace, recorded⟩ := kept.recorded
  have move := move_of_step taken
  obtain ⟨tables, more, used, backed, same⟩ := kept.backed.move (move.uses recorded) (spacious _ _ taken)
  refine ⟨tables, more, ?_, kept.routed.move move, ⟨_, recorded.move move⟩, backed, ?_⟩
  · simp only [tabled, taken, used]
    rfl
  · exact List.forall_mem_append.mpr ⟨kept.same, same⟩

theorem InStep.next {s s' : State n × Tables n} {results more : List (Result × Result)}
    (kept : InStep cfg s results) {a : Fin n × Action} (spacious : Spacious cfg s a)
    (taken : (tabled cfg).step s a = some (s', more)) : InStep cfg s' (results ++ more) := by
  cases stepped : Server.step cfg s.1 a.1 a.2 with
  | none => simp [tabled, stepped] at taken
  | some next =>
    obtain ⟨tables, found, returns, kept'⟩ := kept.step spacious stepped
    cases taken.symm.trans returns
    exact kept'

/-- A use of a table with fewer than `maxDib` entries, which have room whatever their hashes are. -/
def Tables.Small (tables : Tables n) (i : Fin n) : Use → Prop
  | .exec db key _ _ => key.length < 2 ^ 32 ∧ (tables i db).count < Table.maxDib
  | .flushall => True

instance (tables : Tables n) (i : Fin n) : DecidablePred (tables.Small i)
  | .exec _ _ _ _ => inferInstanceAs (Decidable (_ ∧ _))
  | .flushall => .isTrue trivial

def Few (cfg : Config) (s : State n × Tables n) (a : Fin n × Action) : Prop :=
  ∀ use ∈ ((step cfg s.1 a.1 a.2).elim [] fun next => next.2.filterMap (Event.use n cfg)),
    s.2.Small a.1 use

instance (cfg : Config) (s : State n × Tables n) (a : Fin n × Action) : Decidable (Few cfg s a) :=
  inferInstanceAs (Decidable (∀ use ∈ _, _))

theorem Backed.spacious {s : State n × Tables n} {a : Fin n × Action} (backed : Backed s.1.view s.2)
    (few : Few cfg s a) : Spacious cfg s a := by
  intro next seen taken use mem
  have small : s.2.Small a.1 use := few use (by rwa [taken])
  cases use with
  | exec db key op result =>
    obtain ⟨find, stores, -⟩ := backed a.1 db
    exact ⟨small.1, Table.ready_of_few stores.sound small.2 _⟩
  | flushall => trivial

theorem run_of_few {start s : State n × Tables n} {results : List (Result × Result)}
    (kept : InStep cfg start []) (run : (tabled cfg).Run (Few cfg) start s results) :
    (tabled cfg).Run (Spacious cfg) start s results := by
  have both : InStep cfg s results ∧ (tabled cfg).Run (Spacious cfg) start s results := by
    refine run.invariant (fun s results => InStep cfg s results ∧
      (tabled cfg).Run (Spacious cfg) start s results)
      ⟨kept, .refl⟩ ?_
    intro s results a s' more _ ⟨kept, spacious⟩ few taken
    have room := kept.backed.spacious few
    exact ⟨kept.next room taken, spacious.step room taken⟩
  exact both.2

end Runs

end GhettoRedis.Server
