import GhettoRedis.Memory.Bodies

/-!
# The entries and their buffers

Which buffers the entries of the tables own, and what the operations on the tables do with them.
The ledger of the tables keeps the bytes beside the pointers.
-/
namespace GhettoRedis.Memory

open Lib Protocol Commands HeapM

variable {n : ℕ}

/-- The buffers of an entry: `malloc(vallen)` for a copy, and more behind a counter. -/
structure Holding where
  key : Ptr
  val : Ptr
  vallen : ℕ
  contents : Bytes
  inside : vallen ≤ contents.length
  exact' : vallen = 0 → contents = []

namespace Holding

def value (h : Holding) : Bytes := h.contents.take h.vallen

def entry (key : Bytes) (h : Holding) : Entry := ⟨h.key, key.length, h.val, h.vallen⟩

def cells (key : Bytes) (h : Holding) : Owned Cell :=
  cellAt h.key (.buffer key) + cellAt h.val (.buffer h.contents)

theorem value_length (h : Holding) : h.value.length = h.vallen := by
  rw [value, List.length_take, Nat.min_eq_left h.inside]

end Holding

section Databases

variable {dbs : Fin n → Size → Hashmap} {i : Fin n} {db : Size} {key : Bytes} {hash : Size}

/-- The databases with another map for one of them. -/
def setDb (dbs : Fin n → Size → Hashmap) (i : Fin n) (db : Size) (map : Hashmap) :
    Fin n → Size → Hashmap :=
  Function.update dbs i (Function.update (dbs i) db map)

theorem setDb_self (dbs : Fin n → Size → Hashmap) (i : Fin n) (db : Size) :
    setDb dbs i db (dbs i db) = dbs := by
  simp [setDb]

theorem setDb_put (val : Option Value) (place : Place n) :
    (setDb dbs i db ((dbs i db).put key hash val) place.shard place.db).find place.hash place.key =
      if place = ⟨i, db, clipHash hash, key⟩ then val
      else (dbs place.shard place.db).find place.hash place.key := by
  obtain ⟨shard, db', hash', key'⟩ := place
  simp only [setDb, Place.mk.injEq]
  by_cases at_shard : shard = i
  · subst at_shard
    rw [Function.update_self]
    by_cases at_db : db' = db
    · subst at_db
      simp [Hashmap.put]
    · simp [at_db]
  · simp [at_shard]

end Databases

/-- The entries of all tables. -/
abbrev Ledger (n : ℕ) := List (Σ _ : Place n, Holding)

namespace Ledger

def table (l : Ledger n) : List (Stored n) :=
  l.map fun e => ⟨e.1.shard, e.1.db, e.1.hash, e.2.entry e.1.key⟩

def cells (l : Ledger n) : Owned Cell := (l.map fun e => e.2.cells e.1.key).sum

/-- The tables hold what the maps do. -/
def Denotes (l : Ledger n) (dbs : Fin n → Size → Hashmap) : Prop :=
  ∀ place : Place n, ((dbs place.shard place.db).find place.hash place.key).map Value.bytes =
    (l.dlookup place).map Holding.value

@[simp] theorem cells_nil : cells ([] : Ledger n) = 0 := rfl

@[simp] theorem cells_cons (e : Σ _ : Place n, Holding) (l : Ledger n) :
    cells (e :: l) = e.2.cells e.1.key + cells l := rfl

@[simp] theorem table_cons (e : Σ _ : Place n, Holding) (l : Ledger n) :
    table (e :: l) = ⟨e.1.shard, e.1.db, e.1.hash, e.2.entry e.1.key⟩ :: table l := rfl

/-- An entry owns its buffers apart from the others. -/
theorem cells_lookup {l : Ledger n} {place : Place n} {h : Holding} (found : l.dlookup place = some h) :
    l.cells = h.cells place.key + cells (l.kerase place) := by
  induction l with
  | nil => cases found
  | cons e l ih =>
    by_cases same : place = e.1
    · subst same
      rw [List.dlookup_cons_eq] at found
      cases found
      rw [List.kerase_cons_eq rfl]
      rfl
    · rw [List.dlookup_cons_ne _ _ same] at found
      rw [List.kerase_cons_ne same, cells_cons, cells_cons, ih found]
      abel

theorem cells_kinsert (l : Ledger n) (place : Place n) (h : Holding) :
    cells (l.kinsert place h) = h.cells place.key + cells (l.kerase place) := rfl

/-! ### Maps -/

section Maps

variable {l : Ledger n} {dbs : Fin n → Size → Hashmap} {i : Fin n} {db : Size} {key : Bytes}
  {hash : Size}

theorem Denotes.found (denotes : l.Denotes dbs) :
    (Commands.hashmapGetWithHash (dbs i db) key hash).map Value.bytes =
    (l.dlookup ⟨i, db, clipHash hash, key⟩).map Holding.value :=
  denotes ⟨i, db, clipHash hash, key⟩

theorem Denotes.insert (denotes : l.Denotes dbs) {val : Value} {h : Holding}
    (same : h.value = val.bytes) :
    Denotes (l.kinsert ⟨i, db, clipHash hash, key⟩ h)
      (setDb dbs i db ((dbs i db).put key hash (some val))) := by
  intro place
  rw [setDb_put]
  split
  next here =>
    subst here
    rw [List.dlookup_kinsert, Option.map_some, Option.map_some, same]
  next elsewhere => rw [List.dlookup_kinsert_ne elsewhere, denotes place]

theorem Denotes.erase (nodup : l.NodupKeys) (denotes : l.Denotes dbs) :
    Denotes (l.kerase ⟨i, db, clipHash hash, key⟩) (setDb dbs i db ((dbs i db).put key hash none)) := by
  intro place
  rw [setDb_put]
  split
  next here =>
    subst here
    rw [List.dlookup_kerase _ nodup]
    rfl
  next elsewhere => rw [List.dlookup_kerase_ne elsewhere, denotes place]

end Maps

end Ledger

/-! ### Buffers -/

section Buffers

variable {own rest : Owned Cell} {p : Ptr} {bytes : Bytes} {len : ℕ}

theorem readBytes_spec (owned : own = cellAt p (.buffer bytes) + rest) (inside : len ≤ bytes.length) :
    Triple own (readBytes p len) fun r own' => r = bytes.take len ∧ own' = own := by
  refine (Triple.load owned).bind ?_
  rintro _ _ ⟨rfl, rfl⟩
  simp only [inside, if_true]
  exact .pure ⟨rfl, rfl⟩

theorem sprintf_spec {val : Size} (owned : own = cellAt p (.buffer bytes) + rest)
    (fits : sprintfBytes val ≤ bytes.length) : Triple own (sprintf p val) fun r own' =>
      r = (decimalInt val.toInt).length ∧ ∃ behind,
        own' = cellAt p (.buffer (decimalInt val.toInt ++ 0 :: behind)) + rest := by
  refine (Triple.load owned).bind ?_
  rintro _ _ ⟨rfl, rfl⟩
  have fits : (decimalInt val.toInt).length + 1 ≤ bytes.length := fits
  simp only [fits, if_true]
  refine (Triple.store owned _).bind ?_
  rintro _ _ rfl
  exact .pure ⟨rfl, _, rfl⟩

end Buffers

/-! ### Tables -/

section Tables

variable {l : Ledger n} {place : Place n}

theorem isAt_spec (e : Σ _ : Place n, Holding) (l : Ledger n) (place : Place n) :
    Triple (Ledger.cells (e :: l)) (isAt place ⟨e.1.shard, e.1.db, e.1.hash, e.2.entry e.1.key⟩)
      fun r own => r = decide (place = e.1) ∧ own = Ledger.cells (e :: l) := by
  obtain ⟨⟨shard, db, hash, key⟩, h⟩ := e
  obtain ⟨shard', db', hash', key'⟩ := place
  unfold isAt entryCompare
  -- only where database and hash agree is the key compared
  split
  next here =>
    obtain ⟨rfl, rfl, rfl⟩ := here
    split
    next length =>
      have length : key.length = key'.length := length
      have owned : Ledger.cells (⟨⟨shard, db, hash, key⟩, h⟩ :: l) =
          cellAt h.key (.buffer key) + (cellAt h.val (.buffer h.contents) + Ledger.cells l) := by
        rw [Ledger.cells_cons, Holding.cells, add_assoc]
      refine (readBytes_spec owned (le_refl key.length)).bind ?_
      rintro _ _ ⟨rfl, rfl⟩
      refine .pure ⟨?_, rfl⟩
      simp [eq_comm]
    next length =>
      refine .pure ⟨?_, rfl⟩
      have length : key.length ≠ key'.length := length
      have other : key' ≠ key := fun same => length (congrArg _ same.symm)
      simp [other]
  next elsewhere =>
    refine .pure ⟨?_, rfl⟩
    have other : ¬ (shard' = shard ∧ db' = db ∧ hash' = hash) := by
      rintro ⟨rfl, rfl, rfl⟩
      exact elsewhere ⟨rfl, rfl, rfl⟩
    simp only [Place.mk.injEq]
    exact (decide_eq_false fun same => other ⟨same.1, same.2.1, same.2.2.1⟩).symm

/-- What `findEntry` gives. -/
def Ledger.findResult (l : Ledger n) (place : Place n) : Option (Stored n × List (Stored n)) :=
  (l.dlookup place).map fun h =>
    (⟨place.shard, place.db, place.hash, h.entry place.key⟩, Ledger.table (l.kerase place))

theorem findEntry_spec (l : Ledger n) (place : Place n) : Triple l.cells (findEntry place l.table)
    fun r own => r = l.findResult place ∧ own = l.cells := by
  induction l with
  | nil => exact .pure ⟨rfl, rfl⟩
  | cons e l ih =>
    rw [Ledger.table_cons, findEntry]
    refine (isAt_spec e l place).bind ?_
    rintro _ _ ⟨rfl, rfl⟩
    by_cases here : place = e.1
    · subst here
      simp only [decide_true, if_true]
      refine .pure ⟨?_, rfl⟩
      rw [Ledger.findResult, List.dlookup_cons_eq, List.kerase_cons_eq rfl]
      rfl
    -- the buffers of this entry are the frame of the search in the others
    · simp only [here, decide_false, Bool.false_eq_true, if_false]
      refine ih.part (add_comm _ _) ?_
      rintro _ _ ⟨rfl, rfl⟩
      refine .pure ⟨?_, add_comm _ _⟩
      rw [Ledger.findResult, Ledger.findResult, List.dlookup_cons_ne _ _ here, List.kerase_cons_ne here,
        Option.map_map]
      rfl

/-- The entry of the tables at a place. -/
def Ledger.entryAt (l : Ledger n) (place : Place n) : Option Entry :=
  (l.dlookup place).map (Holding.entry place.key)

theorem hashmapGetWithHash_spec (l : Ledger n) (place : Place n) :
    Triple l.cells (hashmapGetWithHash place l.table) fun r own => r = l.entryAt place ∧
      own = l.cells := by
  refine (findEntry_spec l place).bind ?_
  rintro _ _ ⟨rfl, rfl⟩
  refine .pure ⟨?_, rfl⟩
  rw [Ledger.findResult, Option.map_map]
  rfl

theorem hashmapSetWithHash_spec (l : Ledger n) (place : Place n) (h : Holding) :
    Triple l.cells (hashmapSetWithHash place (h.entry place.key) l.table) fun r own =>
      r = (Ledger.table (l.kinsert place h), l.entryAt place) ∧ own = l.cells := by
  refine (findEntry_spec l place).bind ?_
  rintro _ _ ⟨rfl, rfl⟩
  unfold Ledger.findResult Ledger.entryAt
  cases found : l.dlookup place with
  | none =>
    refine .pure ⟨?_, rfl⟩
    rw [List.kinsert_def, List.kerase_of_notMem_keys (List.dlookup_eq_none.mp found)]
    rfl
  | some old => exact .pure ⟨rfl, rfl⟩

theorem hashmapDeleteWithHash_spec (l : Ledger n) (place : Place n) :
    Triple l.cells (hashmapDeleteWithHash place l.table) fun r own =>
      r = (Ledger.table (l.kerase place), l.entryAt place) ∧ own = l.cells := by
  refine (findEntry_spec l place).bind ?_
  rintro _ _ ⟨rfl, rfl⟩
  unfold Ledger.findResult Ledger.entryAt
  cases found : l.dlookup place with
  | none =>
    refine .pure ⟨?_, rfl⟩
    rw [List.kerase_of_notMem_keys (List.dlookup_eq_none.mp found)]
    rfl
  | some old => exact .pure ⟨rfl, rfl⟩

theorem entryFree_spec {own rest : Owned Cell} (key : Bytes) (h : Holding)
    (owned : own = h.cells key + rest) :
    Triple own (entryFree (h.entry key)) fun _ own' => own' = rest := by
  rw [Holding.cells, add_assoc] at owned
  refine (Triple.free owned).bind ?_
  rintro _ _ rfl
  exact .free rfl

/-- The replaced entry is the only one that is freed. -/
theorem freeExisting_spec (l : Ledger n) (place : Place n) :
    Triple l.cells (freeExisting (l.entryAt place)) fun _ own =>
      own = Ledger.cells (l.kerase place) := by
  unfold Ledger.entryAt
  cases found : l.dlookup place with
  | none =>
    refine .pure ?_
    rw [List.kerase_of_notMem_keys (List.dlookup_eq_none.mp found)]
  | some h => exact entryFree_spec place.key h (Ledger.cells_lookup found)

/-- The ledger of the entries that `FLUSHALL` leaves. -/
def Ledger.spared (l : Ledger n) (numDbs : Size) : Ledger n := l.filter fun e => ¬ e.1.db < numDbs

theorem cmdFlushall_spec (l : Ledger n) (numDbs : Size) : Triple l.cells (cmdFlushall numDbs l.table)
    fun r own => r = (l.spared numDbs).table ∧ own = (l.spared numDbs).cells := by
  induction l with
  | nil => exact .pure ⟨rfl, rfl⟩
  | cons e l ih =>
    rw [Ledger.table_cons, cmdFlushall, Ledger.spared, List.filter_cons]
    by_cases below : e.1.db < numDbs
    · simp only [below, if_true, not_true_eq_false, decide_false, Bool.false_eq_true, if_false]
      refine (entryFree_spec e.1.key e.2 rfl).bind ?_
      rintro _ _ rfl
      exact ih
    -- an entry that is spared keeps its buffers out of the way
    · simp only [below, if_false, not_false_eq_true, decide_true, if_true]
      refine ih.part (add_comm _ _) ?_
      rintro _ _ ⟨rfl, rfl⟩
      exact .pure ⟨rfl, add_comm _ _⟩

theorem Ledger.dlookup_spared (l : Ledger n) (numDbs : Size) (place : Place n) :
    (l.spared numDbs).dlookup place = if place.db < numDbs then none else l.dlookup place := by
  induction l with
  | nil => simp [Ledger.spared]
  | cons e l ih =>
    unfold Ledger.spared at ih ⊢
    rw [List.filter_cons]
    by_cases here : place = e.1
    · subst here
      split
      next spared =>
        obtain ⟨place, h⟩ := e
        rw [if_neg (by simpa using spared), List.dlookup_cons_eq, List.dlookup_cons_eq]
      next cleared =>
        rw [ih, if_pos (by simpa using cleared), if_pos (by simpa using cleared)]
    · rw [List.dlookup_cons_ne _ _ here]
      split
      next => rw [List.dlookup_cons_ne _ _ here, ih]
      next => exact ih

theorem Ledger.Denotes.flush {dbs : Fin n → Size → Hashmap} (denotes : l.Denotes dbs) (numDbs : Size) :
    (l.spared numDbs).Denotes fun i db => if db < numDbs then hashmapClear (dbs i db) else dbs i db := by
  intro place
  rw [Ledger.dlookup_spared]
  by_cases below : place.db < numDbs
  · simp only [below, if_true]
    rfl
  · simp only [below, if_false]
    exact denotes place

end Tables

end GhettoRedis.Memory
