import GhettoRedis.Commands.Xxhash
import GhettoRedis.Protocol.Parser

/-!
# The store of a shard

The databases, with the vendored `hashmap.c` taken as the finite map that it
implements, and the counters of `commands.c` on top of them.
-/
namespace GhettoRedis.Commands

open Lib Protocol

/-- Bytes in memory, and the one byte behind them that `try_parse_signed_integer` reads
when they are empty. -/
structure Value where
  bytes : Bytes
  past : UInt8
  deriving DecidableEq

instance : Inhabited Value := ⟨⟨[], 0⟩⟩

/-! ### The map -/

/-- The values of a map by clipped hash and key: its buckets compare both. -/
structure Hashmap where
  find : Size → Bytes → Option Value

def hashmapNew : Hashmap := ⟨fun _ _ => none⟩

/-- `clip_hash` -/
def clipHash (hash : Size) : Size := hash &&& 0xFFFFFFFFFFFF

def hashmapGetWithHash (map : Hashmap) (key : Bytes) (hash : Size) : Option Value :=
  map.find (clipHash hash) key

def Hashmap.put (map : Hashmap) (key : Bytes) (hash : Size) (val : Option Value) : Hashmap :=
  ⟨fun h k => if h = clipHash hash ∧ k = key then val else map.find h k⟩

/-- The map with the entry, and the value that it replaces. -/
def hashmapSetWithHash (map : Hashmap) (key : Bytes) (val : Value) (hash : Size) :
    Hashmap × Option Value :=
  (map.put key hash (some val), hashmapGetWithHash map key hash)

def hashmapDeleteWithHash (map : Hashmap) (key : Bytes) (hash : Size) : Hashmap × Option Value :=
  (map.put key hash none, hashmapGetWithHash map key hash)

def hashmapClear (_map : Hashmap) : Hashmap := hashmapNew

/-! ### Counters -/

/-- The loop over the digits: `none` when it stops before the end. -/
def parseDigits : Bytes → (res : Size) → Option Size
  | [], res => some res
  | b :: rest, res => if IsDigit b then parseDigits rest (res * 10 + digitOf b) else none

def minus : UInt8 := 45
def plus : UInt8 := 43

/-- `try_parse_signed_integer`: the first byte is looked at before the length. -/
def tryParseSignedInteger (buf : Value) : Option Size :=
  match buf.bytes with
  | [] => if buf.past = minus ∨ buf.past = plus then none else some 0
  | b :: rest =>
    if b = minus then (parseDigits rest 0).map fun res => -res
    else if b = plus then parseDigits rest 0
    else parseDigits (b :: rest) 0

/-- `sprintf(buf, "%ld", val)` -/
def counterText (val : Size) : Value := ⟨decimalInt val.toInt, 0⟩

/-- `try_modify_counter`: the database afterwards, and `*res` when it returns true. -/
def tryModifyCounter (db : Hashmap) (key : Bytes) (hash delta : Size) : Hashmap × Option Size :=
  let stored :=
    match hashmapGetWithHash db key hash with
    | none => some 0
    | some entry => tryParseSignedInteger entry
  match stored with
  | none => (db, none)
  | some val => ((hashmapSetWithHash db key (counterText (val + delta)) hash).1, some (val + delta))

/-! ### `DEFINE_COMMAND` -/

/-- A keyed command with the local variables that `CMD_VARS` sets up for `CMD_EXEC`. -/
inductive Op where
  | get
  | set (val : Value)
  | del
  | dispatchPing (shardId : Size)
  | incr
  | decr
  | incrby (delta : Size)
  | decrby (delta : Size)
  deriving DecidableEq

/-- The local variables that `CMD_EXEC` leaves for `CMD_RESP`. -/
inductive Result where
  | entry (val : Option Bytes)
  | stored
  | res (res : Size)
  | shardId (shardId : Size)
  deriving DecidableEq

/-- A failed `try_modify_counter` leaves `res` at its initial zero. -/
def modifyCounter (db : Hashmap) (key : Bytes) (hash delta : Size) : Hashmap × Result :=
  let (db, res) := tryModifyCounter db key hash delta
  (db, .res (res.getD 0))

/-- `CMD_EXEC` -/
def cmdExec (op : Op) (db : Hashmap) (key : Bytes) (hash : Size) : Hashmap × Result :=
  match op with
  | .get => (db, .entry ((hashmapGetWithHash db key hash).map Value.bytes))
  | .set val => ((hashmapSetWithHash db key val hash).1, .stored)
  | .del =>
    let (db, entry) := hashmapDeleteWithHash db key hash
    (db, .res (if entry.isSome then 1 else 0))
  | .dispatchPing shardId => (db, .shardId shardId)
  | .incr => modifyCounter db key hash 1
  | .decr => modifyCounter db key hash (-1)
  | .incrby delta => modifyCounter db key hash delta
  | .decrby delta => modifyCounter db key hash (-delta)

/-- `CMD_RESP` -/
def cmdResp : Result → Write
  | .entry (some val) => writeBulkString val
  | .entry none => writeNullBulkString
  | .stored => writeSimpleString (asciiBytes "OK") 2
  | .res res => writeInteger res
  | .shardId shardId => writeInteger shardId

/-- The fields of `__##name##_req_t` behind the key and its hash. -/
inductive ReqFields where
  | get
  | set (val : Value)
  | del
  | dispatchPing (shardId : Size)
  | incr
  | decr
  | incrby (delta : Size)
  | decrby (delta : Size)
  deriving DecidableEq

/-- `CMD_PRE_DISPATCH` -/
def cmdPreDispatch : Op → ReqFields
  | .get => .get
  | .set val => .set val
  | .del => .del
  | .dispatchPing shardId => .dispatchPing shardId
  | .incr => .incr
  | .decr => .decr
  | .incrby delta => .incrby delta
  | .decrby delta => .decrby delta

/-- `CMD_PRE_DISPATCH_EXEC` -/
def cmdPreDispatchExec : ReqFields → Op
  | .get => .get
  | .set val => .set val
  | .del => .del
  | .dispatchPing shardId => .dispatchPing shardId
  | .incr => .incr
  | .decr => .decr
  | .incrby delta => .incrby delta
  | .decrby delta => .decrby delta

/-- The fields of `__##name##_resp_t`; commands with equal fields share a constructor. -/
inductive RespFields where
  | entry (val : Option Bytes)
  | empty
  | res (res : Size)
  | shardId (shardId : Size)
  deriving DecidableEq

/-- `CMD_POST_DISPATCH_EXEC`; a found entry is copied. -/
def cmdPostDispatchExec : Result → RespFields
  | .entry val => .entry val
  | .stored => .empty
  | .res res => .res res
  | .shardId shardId => .shardId shardId

/-- `CMD_PRE_RESP` -/
def cmdPreResp : RespFields → Result
  | .entry val => .entry val
  | .empty => .stored
  | .res res => .res res
  | .shardId shardId => .shardId shardId

@[simp] theorem cmdPreDispatchExec_cmdPreDispatch (op : Op) :
    cmdPreDispatchExec (cmdPreDispatch op) = op := by
  cases op <;> rfl

@[simp] theorem cmdPreResp_cmdPostDispatchExec (result : Result) :
    cmdPreResp (cmdPostDispatchExec result) = result := by
  cases result <;> rfl

end GhettoRedis.Commands
