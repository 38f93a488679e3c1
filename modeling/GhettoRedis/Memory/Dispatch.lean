import GhettoRedis.Memory.Ownership

/-!
# Contexts and their copies

What a request and a response own on their way, and what `CMD_VARS` and the two ends of a
dispatched command do with it. A counter command that is dispatched copies its key twice and loses
the first copy.
-/
namespace GhettoRedis.Memory

open Lib Protocol Commands HeapM

variable {n : ℕ}

/-! ### Requests -/

/-- What a request owns: its context, a key and, for `SET`, a value. -/
def requestCells (p key val : Ptr) (bytes : Bytes) (hash : Size) (op : Commands.Op) : Owned Cell :=
  cellAt p (.request key bytes.length hash (Op.of val op)) +
    (cellAt key (.buffer bytes) + valCells val op)

/-- The copy of the key that nothing points to any more when a counter command is dispatched. -/
def lostCells (key : Ptr) (bytes : Bytes) (op : Commands.Op) : Owned Cell :=
  if (delta op).isSome then cellAt key (.buffer bytes) else 0

theorem cmdPreDispatch_spec (op : Commands.Op) (key val : Ptr) (bytes : Bytes) (hash : Size) :
    Triple (opCells key val bytes op) (cmdPreDispatch (Op.of val op) key bytes hash) fun p own =>
      ∃ ctxKey, own = requestCells p ctxKey val bytes hash op + lostCells key bytes op := by
  have copies {own left : Owned Cell} (none : valCells val op = 0) (lost : left = own) :
      Triple own (do
        let ctxKey ← copy bytes
        malloc (.request ctxKey bytes.length hash (Op.of val op))) fun p own' =>
          ∃ ctxKey, own' = requestCells p ctxKey val bytes hash op + left := by
    refine (Triple.malloc _).bind ?_
    rintro ctxKey _ rfl
    refine (Triple.malloc _).mono ?_
    rintro p _ rfl
    refine ⟨ctxKey, ?_⟩
    rw [requestCells, none, lost]
    abel
  -- `SET` gives its own key to the message; the counters lose theirs
  cases op with
  | set v =>
    refine (Triple.malloc _).mono ?_
    rintro p _ rfl
    exact ⟨key, (add_zero _).symm⟩
  | get | del | dispatchPing => exact copies rfl rfl
  | incr | decr | incrby | decrby => exact copies rfl (add_zero _).symm

/-! ### Responses -/

/-- The copy of an entry that a response takes with it. -/
def copyCells (entry key val : Ptr) (keyBytes bytes : Bytes) : Owned Cell :=
  cellAt entry (.entry ⟨key, keyBytes.length, val, bytes.length⟩) +
    (cellAt key (.buffer keyBytes) + cellAt val (.buffer bytes))

/-- The fields of a response in memory, and the copy that they own. -/
inductive Copies : Commands.RespFields → RespFields → Owned Cell → Prop
  | none : Copies (.entry none) (.entry none) 0
  | some (entry key val : Ptr) (keyBytes bytes : Bytes) :
      Copies (.entry (some bytes)) (.entry (some entry)) (copyCells entry key val keyBytes bytes)
  | empty : Copies .empty .empty 0
  | res (res : Size) : Copies (.res res) (.res res) 0
  | shardId (shardId : Size) : Copies (.shardId shardId) (.shardId shardId) 0

/-- The response is read and its copies are freed. -/
theorem cmdResponse_spec {fields : Commands.RespFields} {r : RespFields} {own : Owned Cell}
    (copies : Copies fields r own) :
    Triple own (cmdResponse r) fun result own => result = cmdPreResp fields ∧ own = 0 := by
  cases copies with
  | none | empty | res | shardId => exact .pure ⟨rfl, rfl⟩
  | some entry key val keyBytes bytes =>
    refine (Triple.load rfl).bind ?_
    rintro _ _ ⟨rfl, rfl⟩
    have read : Triple (copyCells entry key val keyBytes bytes)
        (readResult (.entry (some ⟨key, keyBytes.length, val, bytes.length⟩))) fun result own =>
          result = .entry (some bytes) ∧ own = copyCells entry key val keyBytes bytes := by
      have owned : copyCells entry key val keyBytes bytes = cellAt val (.buffer bytes) +
          (cellAt entry (.entry ⟨key, keyBytes.length, val, bytes.length⟩) +
            cellAt key (.buffer keyBytes)) := by
        rw [copyCells]
        abel
      refine (readBytes_spec owned (le_refl bytes.length)).bind ?_
      rintro _ _ ⟨rfl, rfl⟩
      exact .pure ⟨by rw [List.take_length], rfl⟩
    refine read.bind ?_
    rintro _ _ ⟨rfl, rfl⟩
    refine (Triple.free (add_left_comm _ _ _)).bind ?_
    rintro _ _ rfl
    refine (Triple.free (add_comm _ _)).bind ?_
    rintro _ _ rfl
    refine (Triple.free (add_zero _).symm).bind ?_
    rintro _ _ rfl
    exact .pure ⟨rfl, rfl⟩

/-! ### `__cmd_##name##_req` -/

/-- The key that is freed behind `CMD_EXEC`. -/
def leftKey (key : Ptr) (bytes : Bytes) : Commands.Op → Owned Cell
  | .get | .del | .dispatchPing _ => cellAt key (.buffer bytes)
  | _ => 0

theorem opCells_add_leftKey (key val : Ptr) (bytes : Bytes) (op : Commands.Op) :
    opCells key val bytes op + leftKey key bytes op = cellAt key (.buffer bytes) + valCells val op := by
  cases op with
  | get | del | dispatchPing => exact add_comm _ _
  | set | incr | decr | incrby | decrby => exact add_zero _

section Requests

variable {l : Ledger n} {dbs : Fin n → Size → Hashmap} {i : Fin n} {db : Size} {key val : Ptr}
  {bytes : Bytes} {hash : Size} {op : Commands.Op} {map : Hashmap} {result : Commands.Result}

/-- A found entry is copied; the buffers of the table stay with it. -/
theorem copyEntry_spec {place : Place n} {r : Result} {found : Option Bytes}
    (means : Means l place r (.entry found)) (op : Op) :
    Triple (l.cells + cellAt key (.buffer bytes)) (cmdPostDispatchExec op key r) fun fields own =>
      ∃ copied, Copies (.entry found) fields copied ∧ own = l.cells + copied := by
  cases means with
  | entry =>
    unfold Ledger.entryAt
    cases held : l.dlookup place with
    | none =>
      refine (Triple.free (add_comm _ _)).bind ?_
      rintro _ _ rfl
      exact .pure ⟨0, .none, (add_zero _).symm⟩
    | some h =>
      refine (Triple.free (add_comm _ _)).bind ?_
      rintro _ _ rfl
      have owned := Ledger.cells_lookup held
      rw [Holding.cells, add_assoc] at owned
      refine (readBytes_spec owned (le_refl place.key.length)).bind ?_
      rintro _ _ ⟨rfl, rfl⟩
      refine (Triple.malloc _).bind ?_
      rintro keyCopy _ rfl
      -- now the value is what is read, with the copy of the key already there
      rw [owned, add_left_comm (cellAt h.key _), add_left_comm]
      refine (readBytes_spec rfl h.inside).bind ?_
      rintro _ _ ⟨rfl, rfl⟩
      refine (Triple.malloc _).bind ?_
      rintro valCopy _ rfl
      refine (Triple.malloc _).bind ?_
      rintro entry _ rfl
      refine .pure ⟨copyCells entry keyCopy valCopy place.key h.value, .some _ _ _ _ _, ?_⟩
      have vallen : (Holding.entry place.key h).vallen = h.value.length := h.value_length.symm
      rw [List.take_length, vallen, copyCells, Holding.value, Holding.entry]
      abel

theorem cmdPostDispatchExec_spec {place : Place n} {r : Result} (means : Means l place r result)
    (executed : Commands.cmdExec op (dbs i db) bytes hash = (map, result)) :
    Triple (l.cells + leftKey key bytes op) (cmdPostDispatchExec (Op.of val op) key r) fun fields own =>
      ∃ copied, Copies (Commands.cmdPostDispatchExec result) fields copied ∧ own = l.cells + copied := by
  cases op with
  | get =>
    cases executed
    exact copyEntry_spec means .get
  | set v =>
    cases executed
    cases means
    exact .pure ⟨0, .empty, rfl⟩
  | del =>
    cases executed
    cases means
    refine (Triple.free (add_comm _ _)).bind ?_
    rintro _ _ rfl
    exact .pure ⟨0, .res _, (add_zero _).symm⟩
  | dispatchPing shardId =>
    cases executed
    cases means
    refine (Triple.free (add_comm _ _)).bind ?_
    rintro _ _ rfl
    exact .pure ⟨0, .shardId _, (add_zero _).symm⟩
  | incr | decr | incrby | decrby =>
    cases executed
    cases means
    exact .pure ⟨0, .res _, rfl⟩

/-- A request of another shard: its key and value go to the entry or are freed, and there is a response
with copies of its own. -/
theorem cmdReq_spec (nodup : l.NodupKeys) (denotes : l.Denotes dbs)
    (executed : Commands.cmdExec op (dbs i db) bytes hash = (map, result))
    (sound : Sound op (Commands.hashmapGetWithHash (dbs i db) bytes hash) result) :
    Triple (l.cells + (cellAt key (.buffer bytes) + valCells val op))
      (cmdReq i db key bytes.length hash (Op.of val op) l.table) fun r own =>
        ∃ (l' : Ledger n) (fields : RespFields) (copied : Owned Cell), r.1 = l'.table ∧ l'.NodupKeys ∧
          l'.Denotes (setDb dbs i db map) ∧ Copies (Commands.cmdPostDispatchExec result) fields copied ∧
            own = l'.cells + (cellAt r.2 (.response fields) + copied) := by
  refine (readBytes_spec (add_left_comm _ _ _) (le_refl bytes.length)).bind ?_
  rintro _ _ ⟨rfl, rfl⟩
  rw [List.take_length, ← opCells_add_leftKey, ← add_assoc]
  refine (cmdExec_spec nodup denotes executed sound).part rfl ?_
  rintro ⟨table, r⟩ _ ⟨l', leaves⟩
  obtain ⟨rfl, rfl, nodup', denotes', means⟩ := leaves
  refine (cmdPostDispatchExec_spec means executed).bind ?_
  rintro fields _ ⟨copied, copies, rfl⟩
  refine (Triple.malloc _).bind ?_
  rintro p _ rfl
  exact .pure ⟨l', fields, copied, rfl, nodup', denotes', copies, add_left_comm _ _ _⟩

end Requests

/-! ### `CMD_VARS` -/

/-- What the local variables of a command own behind its `CMD_VARS`. -/
def varCells (key val : Ptr) (args : List Value) : CommandFunc → Owned Cell
  | .set => cellAt key (.buffer (args.getD 1 default).bytes) +
      cellAt val (.buffer (args.getD 2 default).bytes)
  | .incr | .decr | .incrby | .decrby => cellAt key (.buffer (args.getD 1 default).bytes)
  | _ => 0

theorem cmdVars_spec (func : CommandFunc) (args : List Value) :
    Triple 0 (cmdVars func args) fun r own => own = varCells r.1 r.2 args func := by
  cases func with
  | set =>
    refine (Triple.malloc _).bind ?_
    rintro key _ rfl
    refine (Triple.malloc _).bind ?_
    rintro val _ rfl
    refine .pure ?_
    rw [add_zero, add_comm]
    rfl
  | incr | decr | incrby | decrby =>
    refine (Triple.malloc _).bind ?_
    rintro key _ rfl
    exact .pure (add_zero _)
  | select =>
    refine (Triple.malloc _).bind ?_
    rintro tmp _ rfl
    refine (Triple.free rfl).bind ?_
    rintro _ _ rfl
    exact .pure rfl
  | ping | echo | quit | get | del | shutdown | flushall | dispatchPing => exact .pure rfl

/-- A command that gets past its `CMD_VARS` has the buffers that its `CMD_EXEC` takes. -/
theorem varCells_keyed {shards : ℕ} {numDbs : Size} {env : Env} {args : List Value} {func : CommandFunc}
    {op : Commands.Op} {bytes : Bytes} (keyed : callCommand shards numDbs env args func = .keyed op bytes)
    (key val : Ptr) : varCells key val args func = opCells key val bytes op := by
  cases func with
  | ping | echo | quit | shutdown | flushall => cases keyed
  | select =>
    simp only [callCommand, cmdSelect] at keyed
    repeat' split at keyed
    all_goals cases keyed
  | get | del | dispatchPing | set =>
    cases keyed
    rfl
  | incr | decr =>
    cases keyed
    exact (add_zero _).symm
  | incrby | decrby =>
    simp only [callCommand, cmdDelta] at keyed
    repeat' split at keyed
    all_goals cases keyed
    exact (add_zero _).symm

theorem varCells_flushall {shards : ℕ} {numDbs : Size} {env : Env} {args : List Value}
    {func : CommandFunc} {w : Write}
    (flushes : callCommand shards numDbs env args func = .flushall w) (key val : Ptr) :
    varCells key val args func = 0 := by
  cases func with
  | flushall => rfl
  | ping | echo | quit | shutdown | get | del | dispatchPing | set | incr | decr => cases flushes
  | select =>
    simp only [callCommand, cmdSelect] at flushes
    repeat' split at flushes
    all_goals cases flushes
  | incrby | decrby =>
    simp only [callCommand, cmdDelta] at flushes
    repeat' split at flushes
    all_goals cases flushes

end GhettoRedis.Memory
