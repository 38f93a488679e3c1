import GhettoRedis.Commands.Counting
import GhettoRedis.Lib.Heap

/-!
# Commands and their memory

What the commands of `commands.c` allocate, read and free: the keys and values of entries, the
copies that a dispatched command takes with it, and the contexts of requests and responses. A
buffer is as long as it was allocated, and a read or a write that leaves it is a fault.
-/
namespace GhettoRedis.Memory

open Lib Protocol Commands HeapM

/-- An `Entry`, in the table or in a copy. -/
structure Entry where
  key : Ptr
  keylen : ℕ
  val : Ptr
  vallen : ℕ
  deriving DecidableEq

/-- The local variables that `CMD_EXEC` works with, and the fields of `__##name##_req_t` behind
the key and its hash. -/
inductive Op where
  | get
  | set (val : Ptr) (vallen : ℕ)
  | del
  | dispatchPing (shardId : Size)
  | incr
  | decr
  | incrby (delta : Size)
  | decrby (delta : Size)
  deriving DecidableEq

/-- The fields of `__##name##_resp_t`. -/
inductive RespFields where
  | entry (entry : Option Ptr)
  | empty
  | res (res : Size)
  | shardId (shardId : Size)
  deriving DecidableEq

/-- What `malloc` is called for. -/
inductive Cell where
  | buffer (bytes : Bytes)
  | entry (entry : Entry)
  | request (key : Ptr) (keylen : ℕ) (hash : Size) (op : Op)
  | response (fields : RespFields)
  deriving DecidableEq

/-- The local variables that `CMD_EXEC` leaves for `CMD_RESP`. -/
inductive Result where
  | entry (entry : Option Entry)
  | stored
  | res (res : Size)
  | shardId (shardId : Size)

/-- Where a key is looked for: in a database of a shard, under its clipped hash. -/
structure Place (n : ℕ) where
  shard : Fin n
  db : Size
  hash : Size
  key : Bytes
  deriving DecidableEq

/-- An entry of a table. -/
structure Stored (n : ℕ) where
  shard : Fin n
  db : Size
  hash : Size
  entry : Entry

variable {n : ℕ}

/-! ### Buffers -/

/-- `malloc` and `memcpy` -/
def copy (bytes : Bytes) : HeapM Cell Ptr := malloc (.buffer bytes)

/-- The first `len` bytes of a buffer. -/
def readBytes (p : Ptr) (len : ℕ) : HeapM Cell Bytes := do
  match ← load p with
  | .buffer bytes => if len ≤ bytes.length then return bytes.take len else fault
  | _ => fault

/-- `sprintf(buf, "%ld", val)`, which also writes the NUL. -/
def sprintf (buf : Ptr) (val : Size) : HeapM Cell ℕ := do
  let text := decimalInt val.toInt
  match ← load buf with
  | .buffer bytes =>
    -- the bytes behind the NUL stay as they are
    if text.length + 1 ≤ bytes.length then
      store buf (.buffer (text ++ 0 :: bytes.drop (text.length + 1)))
      return text.length
    else fault
  | _ => fault

/-- `try_parse_signed_integer`: the first byte is looked at before the length. -/
def tryParseSignedInteger (buf : Ptr) (len : ℕ) : HeapM Cell (Option Size) := do
  let bytes ← readBytes buf (max 1 len)
  return Commands.tryParseSignedInteger ⟨bytes.take len, bytes.headD 0⟩

/-! ### Tables -/

/-- `entry_compare` with a key, whether they are equal. -/
def entryCompare (entry : Entry) (key : Bytes) : HeapM Cell Bool := do
  -- keys of different lengths are not read
  if entry.keylen = key.length then return (← readBytes entry.key entry.keylen) = key
  else return false

def isAt (place : Place n) (stored : Stored n) : HeapM Cell Bool :=
  if stored.shard = place.shard ∧ stored.db = place.db ∧ stored.hash = place.hash then
    entryCompare stored.entry place.key
  else return false

/-- The entry at a place, and the others. The tables of all databases are one list here. -/
def findEntry (place : Place n) :
    List (Stored n) → HeapM Cell (Option (Stored n × List (Stored n)))
  | [] => return none
  | stored :: rest => do
    if ← isAt place stored then return some (stored, rest)
    else return (← findEntry place rest).map fun (found, others) => (found, stored :: others)

def hashmapGetWithHash (place : Place n) (table : List (Stored n)) : HeapM Cell (Option Entry) := do
  return (← findEntry place table).map fun (found, _) => found.entry

def hashmapSetWithHash (place : Place n) (entry : Entry) (table : List (Stored n)) :
    HeapM Cell (List (Stored n) × Option Entry) := do
  let new := ⟨place.shard, place.db, place.hash, entry⟩
  match ← findEntry place table with
  | none => return (new :: table, none)
  | some (old, rest) => return (new :: rest, some old.entry)

def hashmapDeleteWithHash (place : Place n) (table : List (Stored n)) :
    HeapM Cell (List (Stored n) × Option Entry) := do
  match ← findEntry place table with
  | none => return (table, none)
  | some (old, rest) => return (rest, some old.entry)

/-- `entry_free` -/
def entryFree (entry : Entry) : HeapM Cell Unit := do
  free entry.key
  free entry.val

/-- `if (existing) entry_free(existing)` -/
def freeExisting : Option Entry → HeapM Cell Unit
  | none => return ()
  | some existing => entryFree existing

/-- `cmd_flushall`, with `hashmap_clear` of the databases below `numDbs`. -/
def cmdFlushall (numDbs : Size) : List (Stored n) → HeapM Cell (List (Stored n))
  | [] => return []
  | stored :: rest => do
    -- `elfree` is called for every entry of the database
    if stored.db < numDbs then
      entryFree stored.entry
      cmdFlushall numDbs rest
    else return stored :: (← cmdFlushall numDbs rest)

/-! ### `CMD_EXEC` -/

/-- What `try_modify_counter` adds to. -/
def counterValue (place : Place n) (table : List (Stored n)) : HeapM Cell (Option Size) := do
  match ← hashmapGetWithHash place table with
  | none => return some 0
  | some entry => tryParseSignedInteger entry.val entry.vallen

/-- `try_modify_counter` behind the sum. -/
def setCounter (place : Place n) (key : Ptr) (val : Size) (table : List (Stored n)) :
    HeapM Cell (List (Stored n)) := do
  -- `malloc(20)`; its contents are not read before they are written
  let buf ← malloc (.buffer (List.replicate bufferSize 0))
  let len ← sprintf buf val
  let (table, existing) ← hashmapSetWithHash place ⟨key, place.key.length, buf, len⟩ table
  freeExisting existing
  return table

/-- `try_modify_counter`, and `res` behind it. -/
def modifyCounter (place : Place n) (key : Ptr) (delta : Size) (table : List (Stored n)) :
    HeapM Cell (List (Stored n) × Result) := do
  match ← counterValue place table with
  -- no number: the command replies 0 and nothing is stored
  | none =>
    free key
    return (table, .res 0)
  | some val => return (← setCounter place key (val + delta) table, .res (val + delta))

/-- `CMD_EXEC`; only the commands that store an entry have a `key` of their own. -/
def cmdExec (op : Op) (place : Place n) (key : Ptr) (table : List (Stored n)) :
    HeapM Cell (List (Stored n) × Result) :=
  match op with
  | .get => do return (table, .entry (← hashmapGetWithHash place table))
  | .set val vallen => do
    let (table, existing) ← hashmapSetWithHash place ⟨key, place.key.length, val, vallen⟩ table
    freeExisting existing
    return (table, .stored)
  -- the key that is looked for is not that of the entry, which is freed with it
  | .del => do
    let (table, entry) ← hashmapDeleteWithHash place table
    freeExisting entry
    return (table, .res (if entry.isSome then 1 else 0))
  | .dispatchPing shardId => return (table, .shardId shardId)
  | .incr => modifyCounter place key 1 table
  | .decr => modifyCounter place key (-1) table
  | .incrby delta => modifyCounter place key delta table
  | .decrby delta => modifyCounter place key (-delta) table

/-- `CMD_RESP` reads the value of an entry. -/
def readResult : Result → HeapM Cell Commands.Result
  | .entry none => return .entry none
  | .entry (some entry) => do return .entry (some (← readBytes entry.val entry.vallen))
  | .stored => return .stored
  | .res res => return .res res
  | .shardId shardId => return .shardId shardId

/-! ### `DEFINE_COMMAND` -/

/-- What `CMD_VARS` and `cmd_select` do with memory: the copies of key and value, where the command
makes them. That the bytes to copy lie in `recv_buf` is asked before, in the step that calls the
command. -/
def cmdVars (func : CommandFunc) (args : List Value) : HeapM Cell (Ptr × Ptr) :=
  match func with
  | .set => do
    let key ← copy (args.getD 1 default).bytes
    let val ← copy (args.getD 2 default).bytes
    return (key, val)
  -- `INCRBY` and `DECRBY` copy the key before they look at their argument
  | .incr | .decr | .incrby | .decrby => do return (← copy (args.getD 1 default).bytes, 0)
  -- with the NUL that `strtoull` needs
  | .select => do
    let tmp ← copy ((args.getD 1 default).bytes ++ [0])
    free tmp
    return (0, 0)
  | _ => return (0, 0)

/-- The local variables of a command, with its copy of the value. -/
def Op.of (val : Ptr) : Commands.Op → Op
  | .get => .get
  | .set v => .set val v.bytes.length
  | .del => .del
  | .dispatchPing shardId => .dispatchPing shardId
  | .incr => .incr
  | .decr => .decr
  | .incrby delta => .incrby delta
  | .decrby delta => .decrby delta

/-- The context of a request with its `CMD_PRE_DISPATCH`: `SET` hands over its key, the others copy
the key once more. -/
def cmdPreDispatch (op : Op) (key : Ptr) (bytes : Bytes) (hash : Size) : HeapM Cell Ptr := do
  match op with
  | .set _ _ => malloc (.request key bytes.length hash op)
  | _ =>
    let ctxKey ← copy bytes
    malloc (.request ctxKey bytes.length hash op)

/-- `CMD_POST_DISPATCH_EXEC`; the counters leave the key to the entry. -/
def cmdPostDispatchExec (op : Op) (key : Ptr) : Result → HeapM Cell RespFields
  | .entry none => do
    free key
    return .entry none
  | .entry (some entry) => do
    free key
    let keyCopy ← copy (← readBytes entry.key entry.keylen)
    let valCopy ← copy (← readBytes entry.val entry.vallen)
    return .entry (some (← malloc (.entry ⟨keyCopy, entry.keylen, valCopy, entry.vallen⟩)))
  | .stored => return .empty
  | .res res => do
    -- a counter has stored the key of the message, or freed it
    match op with
    | .del =>
      free key
      return .res res
    | _ => return .res res
  | .shardId shardId => do
    free key
    return .shardId shardId

/-- `__cmd_##name##_req` -/
def cmdReq (shard : Fin n) (db : Size) (key : Ptr) (keylen : ℕ) (hash : Size) (op : Op)
    (table : List (Stored n)) : HeapM Cell (List (Stored n) × Ptr) := do
  -- the key of the message is the one that the table compares and may keep
  let bytes ← readBytes key keylen
  let (table, result) ← cmdExec op ⟨shard, db, clipHash hash, bytes⟩ key table
  let fields ← cmdPostDispatchExec op key result
  return (table, ← malloc (.response fields))

/-- `__cmd_##name##_resp`, with `CMD_PRE_RESP` and `CMD_POST_RESP`. -/
def cmdResponse : RespFields → HeapM Cell Commands.Result
  | .entry none => return .entry none
  | .entry (some p) => do
    match ← load p with
    | .entry entry =>
      -- the reply is written before `CMD_POST_RESP` frees the copy
      let result ← readResult (.entry (some entry))
      free entry.key
      free entry.val
      free p
      return result
    | _ => fault
  | .empty => return .stored
  | .res res => return .res res
  | .shardId shardId => return .shardId shardId

end GhettoRedis.Memory
