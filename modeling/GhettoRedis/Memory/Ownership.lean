import GhettoRedis.Memory.Ledger

/-!
# What commands own

Each command takes its copies of key and value, and leaves the entries with buffers of their own,
the response with the copies that it needs, and nothing else. Only a counter can be at fault:
behind an empty value, and for a number that is too long for its buffer.
-/
namespace GhettoRedis.Memory

open Lib Protocol Commands HeapM

variable {n : ℕ}

/-! ### Counters -/

/-- What a counter command adds. -/
def delta : Commands.Op → Option Size
  | .incr => some 1
  | .decr => some (-1)
  | .incrby delta => some delta
  | .decrby delta => some (-delta)
  | _ => none

theorem cmdExec_delta {op : Commands.Op} {d : Size} (is : delta op = some d) (map : Hashmap)
    (key : Bytes) (hash : Size) : Commands.cmdExec op map key hash = Commands.modifyCounter map key hash d := by
  cases op <;> cases is <;> rfl

theorem cmdExec_of_delta {op : Commands.Op} {d : Size} (is : delta op = some d) (val : Ptr)
    (place : Place n) (key : Ptr) (table : List (Stored n)) :
    cmdExec (Op.of val op) place key table = modifyCounter place key d table := by
  cases op <;> cases is <;> rfl

/-- What a counter command needs of the value that it finds and of the number that it stores. -/
def Sound (op : Commands.Op) (found : Option Value) (result : Commands.Result) : Prop :=
  (delta op).isSome → (∀ val, found = some val → val.bytes ≠ []) ∧
    ∀ res, result = .res res → -10 ^ 18 < res.toInt

instance (found : Option Value) : Decidable (∀ val, found = some val → val.bytes ≠ []) :=
  decidable_of_iff (∀ val ∈ found, val.bytes ≠ []) Iff.rfl

instance : (result : Commands.Result) → Decidable (∀ res, result = .res res → -10 ^ 18 < res.toInt)
  | .res res => decidable_of_iff (-10 ^ 18 < res.toInt)
    ⟨fun fits _ is => Commands.Result.res.inj is ▸ fits, fun fits => fits res rfl⟩
  | .entry _ | .stored | .shardId _ => .isTrue nofun

instance (op : Commands.Op) (found : Option Value) (result : Commands.Result) :
    Decidable (Sound op found result) := inferInstanceAs (Decidable (_ → _ ∧ _))

section Counters

variable {l : Ledger n} {place : Place n} {found : Option Value}

/-- The byte behind a text matters only when there is no text. -/
theorem tryParse_past {bytes : Bytes} (some' : bytes ≠ []) (past past' : UInt8) :
    Commands.tryParseSignedInteger ⟨bytes, past⟩ = Commands.tryParseSignedInteger ⟨bytes, past'⟩ := by
  cases bytes with
  | nil => exact absurd rfl some'
  | cons => rfl

theorem counterValue_spec (same : found.map Value.bytes = (l.dlookup place).map Holding.value)
    (some' : ∀ val, found = some val → val.bytes ≠ []) :
    Triple l.cells (counterValue place l.table) fun r own => r = counter found ∧ own = l.cells := by
  refine (hashmapGetWithHash_spec l place).bind ?_
  rintro _ _ ⟨rfl, rfl⟩
  unfold Ledger.entryAt
  cases held : l.dlookup place with
  | none =>
    obtain rfl : found = none := by simpa [held] using same
    exact .pure ⟨rfl, rfl⟩
  -- the first byte is read first, so the value must have one
  | some h =>
    obtain ⟨val, rfl, value⟩ : ∃ val, found = some val ∧ val.bytes = h.value := by
      simpa [held] using same
    have positive : 1 ≤ h.vallen := by
      rw [← h.value_length, ← value]
      exact List.length_pos_of_ne_nil (some' val rfl)
    have owned := Ledger.cells_lookup held
    rw [Holding.cells, add_comm (cellAt h.key _), add_assoc] at owned
    have inside : max 1 h.vallen ≤ h.contents.length := by
      rw [Nat.max_eq_right positive]
      exact h.inside
    refine (readBytes_spec owned inside).bind ?_
    rintro _ _ ⟨rfl, rfl⟩
    refine .pure ⟨?_, rfl⟩
    obtain ⟨bytes, past⟩ := val
    obtain rfl : bytes = h.contents.take h.vallen := value
    simp only [Holding.entry, Nat.max_eq_right positive, List.take_take, min_self]
    exact tryParse_past (some' _ rfl) _ _

theorem setCounter_spec (l : Ledger n) (place : Place n) (key : Ptr) {val : Size}
    (fits : -10 ^ 18 < val.toInt) :
    Triple (l.cells + cellAt key (.buffer place.key)) (setCounter place key val l.table) fun r own =>
      ∃ h : Holding, h.value = decimalInt val.toInt ∧ r = Ledger.table (l.kinsert place h) ∧
        own = Ledger.cells (l.kinsert place h) := by
  refine (Triple.malloc _).bind ?_
  rintro buf _ rfl
  -- the text and its NUL stay within the 20 bytes
  have long : sprintfBytes val ≤ (List.replicate bufferSize (0 : UInt8)).length := by
    rw [List.length_replicate]
    exact (sprintfBytes_le_iff val).mpr fits
  refine (sprintf_spec rfl long).bind ?_
  rintro _ _ ⟨rfl, behind, rfl⟩
  have text : decimalInt val.toInt ≠ [] := by
    cases val.toInt <;> simp [decimalInt, decimal_ne_nil]
  let h : Holding :=
    { key, val := buf, vallen := (decimalInt val.toInt).length
      contents := decimalInt val.toInt ++ 0 :: behind
      inside := by simp
      exact' := fun empty => absurd (List.length_eq_zero_iff.mp empty) text }
  -- the new buffers are already owned when the old entry is freed
  refine (hashmapSetWithHash_spec l place h).part (add_left_comm _ _ _) ?_
  rintro _ _ ⟨rfl, rfl⟩
  refine (freeExisting_spec l place).part rfl ?_
  rintro _ _ rfl
  refine .pure ⟨h, List.take_left, rfl, ?_⟩
  rw [Ledger.cells_kinsert, Holding.cells]
  abel

end Counters

/-! ### `CMD_EXEC` -/

/-- The buffers that the local variables of a command own. -/
def valCells (val : Ptr) : Commands.Op → Owned Cell
  | .set v => cellAt val (.buffer v.bytes)
  | _ => 0

/-- Those of a command before its `CMD_EXEC`: the commands that store an entry have a copy of the key. -/
def opCells (key val : Ptr) (bytes : Bytes) : Commands.Op → Owned Cell
  | .get | .del | .dispatchPing _ => 0
  | op => cellAt key (.buffer bytes) + valCells val op

theorem opCells_delta {op : Commands.Op} {d : Size} (is : delta op = some d) (key val : Ptr)
    (bytes : Bytes) :
    opCells key val bytes op = cellAt key (.buffer bytes) := by
  cases op <;> cases is <;> exact add_zero _

/-- What `CMD_EXEC` leaves, when it leaves the entries `l`. -/
inductive Means (l : Ledger n) (place : Place n) : Result → Commands.Result → Prop
  | entry : Means l place (.entry (l.entryAt place)) (.entry ((l.dlookup place).map Holding.value))
  | stored : Means l place .stored .stored
  | res (res : Size) : Means l place (.res res) (.res res)
  | shardId (shardId : Size) : Means l place (.shardId shardId) (.shardId shardId)

theorem readResult_spec {l : Ledger n} {place : Place n} {r : Result} {result : Commands.Result}
    (means : Means l place r result) :
    Triple l.cells (readResult r) fun r own => r = result ∧ own = l.cells := by
  cases means with
  | entry =>
    unfold Ledger.entryAt
    cases held : l.dlookup place with
    | none => exact .pure ⟨rfl, rfl⟩
    | some h =>
      have owned := Ledger.cells_lookup held
      rw [Holding.cells, add_comm (cellAt h.key _), add_assoc] at owned
      refine (readBytes_spec owned h.inside).bind ?_
      rintro _ _ ⟨rfl, rfl⟩
      exact .pure ⟨rfl, rfl⟩
  | stored | res | shardId => exact .pure ⟨rfl, rfl⟩

section Exec

variable {l : Ledger n} {dbs : Fin n → Size → Hashmap} {i : Fin n} {db : Size} {key val : Ptr}
  {bytes : Bytes} {hash : Size} {op : Commands.Op} {map : Hashmap} {result : Commands.Result}

/-- The ledger behind a command. -/
structure Leaves (l : Ledger n) (dbs : Fin n → Size → Hashmap) (place : Place n)
    (table : List (Stored n))
    (r : Result) (result : Commands.Result) (own : Owned Cell) : Prop where
  table : table = l.table
  own : own = l.cells
  nodup : l.NodupKeys
  denotes : l.Denotes dbs
  means : Means l place r result

theorem modifyCounter_spec {d : Size} (nodup : l.NodupKeys) (denotes : l.Denotes dbs)
    (some' : ∀ val, Commands.hashmapGetWithHash (dbs i db) bytes hash = some val → val.bytes ≠ [])
    (long : ∀ res, (Commands.modifyCounter (dbs i db) bytes hash d).2 = .res res →
      -10 ^ 18 < res.toInt) :
    Triple (l.cells + cellAt key (.buffer bytes))
      (modifyCounter ⟨i, db, clipHash hash, bytes⟩ key d l.table)
      fun r own => ∃ l' : Ledger n, Leaves l'
        (setDb dbs i db (Commands.modifyCounter (dbs i db) bytes hash d).1) ⟨i, db, clipHash hash, bytes⟩
        r.1 r.2 (Commands.modifyCounter (dbs i db) bytes hash d).2 own := by
  simp only [Commands.modifyCounter, tryModifyCounter_eq] at long ⊢
  refine (counterValue_spec denotes.found some').part rfl ?_
  rintro _ _ ⟨rfl, rfl⟩
  -- a value that is no number costs the key, and nothing else
  cases read : counter (Commands.hashmapGetWithHash (dbs i db) bytes hash) with
  | none =>
    refine (Triple.free (add_comm _ _)).bind ?_
    rintro _ _ rfl
    refine .pure ⟨l, rfl, rfl, nodup, ?_, .res _⟩
    rwa [setDb_self]
  | some m =>
    rw [read] at long
    have fits : -10 ^ 18 < (m + d).toInt := long _ rfl
    refine (setCounter_spec l ⟨i, db, clipHash hash, bytes⟩ key fits).bind ?_
    rintro _ _ ⟨h, value, rfl, rfl⟩
    exact .pure ⟨_, rfl, rfl, List.kinsert_nodupKeys _ _ nodup, denotes.insert value, .res _⟩

/-- A command that meets no fault does what it does on the maps, and leaves its buffers to the entries. -/
theorem cmdExec_spec (nodup : l.NodupKeys) (denotes : l.Denotes dbs)
    (executed : Commands.cmdExec op (dbs i db) bytes hash = (map, result))
    (sound : Sound op (Commands.hashmapGetWithHash (dbs i db) bytes hash) result) :
    Triple (l.cells + opCells key val bytes op)
      (cmdExec (Op.of val op) ⟨i, db, clipHash hash, bytes⟩ key l.table) fun r own =>
        ∃ l' : Ledger n, Leaves l' (setDb dbs i db map) ⟨i, db, clipHash hash, bytes⟩ r.1 r.2 result
          own := by
  -- the four counter commands differ in what they add
  cases is : delta op with
  | some d =>
    rw [cmdExec_delta is] at executed
    obtain ⟨rfl, rfl⟩ := Prod.mk.inj executed.symm
    obtain ⟨some', long⟩ := sound (by rw [is]; rfl)
    rw [cmdExec_of_delta is, opCells_delta is]
    exact modifyCounter_spec nodup denotes some' long
  | none =>
    cases op with
    | incr | decr | incrby | decrby => cases is
    | get =>
      cases executed
      rw [opCells, add_zero]
      refine (hashmapGetWithHash_spec l _).bind ?_
      rintro _ _ ⟨rfl, rfl⟩
      refine .pure ⟨l, rfl, rfl, nodup, by rwa [setDb_self], ?_⟩
      rw [denotes.found]
      exact .entry
    | dispatchPing shardId =>
      cases executed
      rw [opCells, add_zero]
      exact .pure ⟨l, rfl, rfl, nodup, by rwa [setDb_self], .shardId shardId⟩
    | set v =>
      cases executed
      let h : Holding :=
        { key, val, vallen := v.bytes.length, contents := v.bytes
          inside := le_rfl
          exact' := List.length_eq_zero_iff.mp }
      refine (hashmapSetWithHash_spec l ⟨i, db, clipHash hash, bytes⟩ h).part rfl ?_
      rintro _ _ ⟨rfl, rfl⟩
      refine (freeExisting_spec l _).part rfl ?_
      rintro _ _ rfl
      refine .pure ⟨_, rfl, ?_, List.kinsert_nodupKeys _ _ nodup, denotes.insert List.take_length,
        .stored⟩
      rw [Ledger.cells_kinsert, add_comm]
      rfl
    | del =>
      cases executed
      rw [opCells, add_zero]
      refine (hashmapDeleteWithHash_spec l _).bind ?_
      rintro _ _ ⟨rfl, rfl⟩
      refine (freeExisting_spec l _).bind ?_
      rintro _ _ rfl
      refine .pure ⟨_, rfl, rfl, nodup.kerase _, denotes.erase nodup, ?_⟩
      have found : (Commands.hashmapGetWithHash (dbs i db) bytes hash).map Value.bytes =
          (l.dlookup ⟨i, db, clipHash hash, bytes⟩).map Holding.value := denotes.found
      have same := congrArg Option.isSome found
      simp only [Option.isSome_map] at same
      simp only [Ledger.entryAt, Option.isSome_map, ← same]
      exact .res _

end Exec

end GhettoRedis.Memory
