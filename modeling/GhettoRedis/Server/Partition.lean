import GhettoRedis.Server.Replies

/-!
# Where the keys are

The databases of the shards are a partition by key: an entry is in the home shard of its
key, under the hash that the commands compute of the key. The home shard of a key is also
the only one whose queue receives requests for it.
-/
namespace GhettoRedis.Server

open Lib Protocol Commands

variable {n : ℕ}

/-! ### Entries of a map -/

/-- Every entry of the map is one that shard `i` stores. -/
def Placed [NeZero n] (i : Fin n) (map : Hashmap) : Prop :=
  ∀ h key val, map.find h key = some val →
    h = clipHash (hashmapXxhash3 key 0 0) ∧ home (n := n) key = i

section Maps

variable [NeZero n] {i : Fin n} {map : Hashmap} {key : Bytes} {hash : Size}

theorem placed_new : Placed i hashmapNew := by
  intro h key val found
  cases found

theorem Placed.put (placed : Placed i map) (here : home key = i) (val : Option Value) :
    Placed i (map.put key (hashmapXxhash3 key 0 0) val) := by
  intro h key' val' found
  simp only [Hashmap.put] at found
  split at found
  next entry =>
    obtain ⟨rfl, rfl⟩ := entry
    exact ⟨rfl, here⟩
  next => exact placed h key' val' found

theorem Placed.modifyCounter (placed : Placed i map) (here : home key = i) (delta : Size) :
    Placed i (modifyCounter map key (hashmapXxhash3 key 0 0) delta).1 := by
  simp only [Commands.modifyCounter, tryModifyCounter]
  -- whether the entry is a number
  split
  · exact placed
  · apply placed.put here

theorem Placed.cmdExec (placed : Placed i map) (here : home key = i) (op : Op) :
    Placed i (cmdExec op map key (hashmapXxhash3 key 0 0)).1 := by
  cases op with
  | get | dispatchPing => exact placed
  | set | del => apply placed.put here
  | incr | decr | incrby | decrby => apply placed.modifyCounter here

end Maps

/-! ### Steps -/

section Moves

variable [NeZero n] {cfg : Config} {v v' : View n} {i : Fin n} {a : Action} {seen : List Event}

/-- What a step does to the databases. -/
inductive StoreMove (cfg : Config) (v v' : View n) (i : Fin n) : Prop
  | still : v'.dbs = v.dbs → StoreMove cfg v v' i
  | clear : v'.dbs = (v.flushAll cfg.numDbs).dbs → StoreMove cfg v v' i
  | inline {op : Op} {key : Bytes} {db : Size} : home key = i →
      v'.dbs = (v.setDb i db (cmdExec op (v.dbs i db) key (hashmapXxhash3 key 0 0)).1).dbs →
      StoreMove cfg v v' i
  | execute {count : ℕ} {ctx : CBContext n} {key : Bytes} {hash db : Size} {fields : ReqFields} :
      v.pc i = .callback count (.request ctx key hash fields) →
      v'.dbs = (v.setDb i db (cmdExec (cmdPreDispatchExec fields) (v.dbs i db) key hash).1).dbs →
      StoreMove cfg v v' i

theorem Move.store (move : Move cfg v i a v' seen) : StoreMove cfg v v' i := by
  cases move with
  | quiet | flush | dequeue | skip | refuse | answer | shutdown | dispatch | claim | dispatched
  | deliver | accept | receive | close => exact .still rfl
  | flushall => exact .clear rfl
  | inline _ here executed => exact .inline here (by rw [executed]; rfl)
  | execute stands _ executed => exact .execute stands (by rw [executed]; rfl)

def View.Partitioned (v : View n) : Prop := ∀ i db, Placed i (v.dbs i db)

theorem View.Partitioned.setDb (partitioned : v.Partitioned) {db : Size} {map : Hashmap}
    (placed : Placed i map) : (v.setDb i db map).Partitioned := by
  intro j db'
  simp only [View.setDb, Function.update_apply]
  split
  next same =>
    subst same
    rw [Function.update_apply]
    split
    · exact placed
    · exact partitioned j db'
  next => exact partitioned j db'

theorem View.Partitioned.move (routed : Routed v) {trace : List Event}
    (recorded : Recorded cfg v trace) (partitioned : v.Partitioned)
    (move : Move cfg v i a v' seen) : v'.Partitioned := by
  unfold View.Partitioned
  cases move.store with
  | still dbs => rwa [dbs]
  | clear dbs =>
    rw [dbs]
    intro j db
    simp only [View.flushAll]
    split
    · exact placed_new
    · exact partitioned j db
  | @inline op key db here dbs =>
    rw [dbs]
    exact partitioned.setDb ((partitioned i db).cmdExec here op)
  | @execute count ctx key hash db fields stands dbs =>
    -- the request was sent to the home shard of its key, with the hash of that key
    obtain ⟨rfl, dst, -⟩ := recorded.requests ctx key hash fields (View.holds_callback stands)
    have front := View.inbox_callback stands
    have here := (routed.inbox i _ (front ▸ List.mem_cons_self)).1
    rw [dbs]
    exact partitioned.setDb ((partitioned i db).cmdExec (dst.symm.trans here) _)

end Moves

/-! ### Runs -/

/-- The partition of the keys among the shards. -/
structure State.Partitioned (s : State n) : Prop where
  entries : ∀ i db h key val, ((s.shard i).dbs db).find h key = some val →
    h = clipHash (hashmapXxhash3 key 0 0) ∧ (hashmapXxhash3 key 0 0).toNat % n = i.val
  /-- A key is at most once in a database. -/
  unique : ∀ i j db h h' key val val', ((s.shard i).dbs db).find h key = some val →
    ((s.shard j).dbs db).find h' key = some val' → i = j ∧ h = h'
  queued : ∀ i, ∀ slot ∈ (s.shard i).cbQueue, ∀ ctx key hash fields,
    slot.msg = .request ctx key hash fields →
      hash = hashmapXxhash3 key 0 0 ∧ (hashmapXxhash3 key 0 0).toNat % n = i.val
  /-- A request is executed under the hash of every entry that it can mean. -/
  executing : ∀ i count ctx key hash fields,
    (s.shard i).pc = .callback count (.request ctx key hash fields) →
      hash = hashmapXxhash3 key 0 0 ∧ (hashmapXxhash3 key 0 0).toNat % n = i.val

theorem home_val [NeZero n] {key : Bytes} {i : Fin n} (here : home key = i) :
    (hashmapXxhash3 key 0 0).toNat % n = i.val := by
  rw [← here]
  rfl

/-- Every run keeps the partition. -/
theorem store_partitioned [NeZero n] {cfg : Config} {s : State n} {trace : List Event}
    (run : (server cfg).Reaches (State.init n) s trace) : s.Partitioned := by
  obtain ⟨routed, recorded, partitioned⟩ := reaches_invariant
    (fun v trace => Recorded cfg v trace ∧ v.Partitioned) (routed_init n)
    ⟨recorded_init n cfg, fun _ _ => placed_new⟩
    (fun routed holds move => ⟨holds.1.move move, holds.2.move routed holds.1 move⟩) run
  have entries (i db h key val) (found : ((s.shard i).dbs db).find h key = some val) :
      h = clipHash (hashmapXxhash3 key 0 0) ∧ (hashmapXxhash3 key 0 0).toNat % n = i.val := by
    obtain ⟨hash, here⟩ := partitioned i db h key val found
    exact ⟨hash, home_val here⟩
  have arrived (i ctx key hash fields)
      (mem : .request ctx key hash fields ∈ s.view.mail.inbox i) :
      hash = hashmapXxhash3 key 0 0 ∧ (hashmapXxhash3 key 0 0).toNat % n = i.val := by
    obtain ⟨is, dst, -⟩ := recorded.requests ctx key hash fields ⟨i, .inl mem⟩
    exact ⟨is, home_val (dst.symm.trans (routed.inbox i _ mem).1)⟩
  refine ⟨entries, ?_, ?_, ?_⟩
  · intro i j db h h' key val val' found found'
    obtain ⟨rfl, at_i⟩ := entries i db h key val found
    obtain ⟨rfl, at_j⟩ := entries j db h' key val' found'
    exact ⟨Fin.ext (at_i.symm.trans at_j), rfl⟩
  · intro i slot mem ctx key hash fields is
    apply arrived i ctx key hash fields
    exact List.mem_append_right _ (is ▸ List.mem_map_of_mem mem)
  · intro i count ctx key hash fields stands
    apply arrived i ctx key hash fields
    rw [View.inbox_callback (show s.view.pc i = _ from stands)]
    exact List.mem_cons_self

/-- A key of the other shard is set. -/
def stores : List (Fin 2 × Action) :=
  goToSleep shard0 0 ++ acceptClient shard0 65536 ++ goToSleep shard0 1 ++
    readFrom shard0 0 (asciiBytes "SET a 1" ++ crlf) ++ [serveNext shard0] ++
    List.replicate 2 (shard0, .go) ++ List.replicate 8 (shard1, .go)

theorem store_partitioned_set : ∃ s trace, (server config).Reaches (State.init 2) s trace ∧
    (((s.shard 1).dbs 0).find (clipHash (hashmapXxhash3 (asciiBytes "a") 0 0))
      (asciiBytes "a")).map Value.bytes = some (asciiBytes "1") ∧ s.Partitioned := by
  obtain ⟨s, trace, run, stored⟩ := Machine.exists_of_exec (server config) (State.init 2) stores
    (fun r => (((r.1.shard 1).dbs 0).find (clipHash (hashmapXxhash3 (asciiBytes "a") 0 0))
      (asciiBytes "a")).map Value.bytes) (b := some (asciiBytes "1")) (by decide +kernel)
  exact ⟨s, trace, run, stored, store_partitioned run⟩

end GhettoRedis.Server
