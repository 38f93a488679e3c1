import GhettoRedis.Commands.Store
import GhettoRedis.Protocol.Writers

/-!
# Commands

The table of `init_commands`, the commands that need no key, the `CMD_VARS` of those
that do, and `handle_command`. What a command does to the connection and to the shards
is its outcome; the server carries it out.
-/
namespace GhettoRedis.Commands

open Lib Protocol

/-- `command_func` -/
inductive CommandFunc where
  | ping
  | echo
  | quit
  | get
  | set
  | del
  | shutdown
  | flushall
  | select
  | incr
  | decr
  | incrby
  | decrby
  | dispatchPing
  deriving DecidableEq

structure Command where
  name : Bytes
  arity : ℕ
  func : CommandFunc

/-- `init_commands` -/
def commands : List Command :=
  [⟨asciiBytes "PING", 0, .ping⟩, ⟨asciiBytes "ECHO", 1, .echo⟩, ⟨asciiBytes "QUIT", 0, .quit⟩,
    ⟨asciiBytes "GET", 1, .get⟩, ⟨asciiBytes "SET", 2, .set⟩, ⟨asciiBytes "DEL", 1, .del⟩,
    ⟨asciiBytes "SHUTDOWN", 0, .shutdown⟩, ⟨asciiBytes "FLUSHALL", 0, .flushall⟩,
    ⟨asciiBytes "SELECT", 1, .select⟩, ⟨asciiBytes "INCR", 1, .incr⟩,
    ⟨asciiBytes "DECR", 1, .decr⟩, ⟨asciiBytes "INCRBY", 2, .incrby⟩,
    ⟨asciiBytes "DECRBY", 2, .decrby⟩, ⟨asciiBytes "DPING", 1, .dispatchPing⟩]

/-- `lookup_command` -/
def lookupCommand (name : Bytes) : Option Command := commands.find? fun cmd => cmd.name = name

/-- What the rest of the process contributes to a command: whether `errno` is set, and the
byte that `malloc` leaves behind the copy of a value. -/
structure Env where
  errno : Bool
  past : UInt8

/-- What a command does. A keyed command that passed its `CMD_VARS` is still to be executed
here or dispatched. -/
inductive Outcome where
  | reply (w : Write)
  | quit (w : Write)
  | select (db : Size) (w : Write)
  | flushall (w : Write)
  | shutdown
  | keyed (op : Op) (key : Bytes)
  deriving DecidableEq

def ok : Write := writeSimpleString (asciiBytes "OK") 2

def cmdPing : Outcome := .reply (writeSimpleString (asciiBytes "PONG") 4)

def cmdEcho (echo : Bytes) : Outcome := .reply (writeBulkString echo)

def cmdQuit : Outcome := .quit ok

def cmdFlushall : Outcome := .flushall ok

/-! ### `SELECT` -/

def isSpace (b : UInt8) : Prop := b = space ∨ (9 ≤ b ∧ b ≤ 13)

instance (b : UInt8) : Decidable (isSpace b) := inferInstanceAs (Decidable (_ ∨ _ ∧ _))

/-- `strtoull` in base 10: the number, and whether it sets `errno` to `ERANGE`. -/
def strtoull (s : Bytes) : Size × Bool :=
  let s := (cString s).dropWhile (isSpace ·)
  let (negative, s) :=
    match s with
    | b :: rest => if b = minus then (true, rest) else if b = plus then (false, rest) else (false, s)
    | [] => (false, [])
  let value := decimalValue (s.takeWhile (IsDigit ·))
  if 2 ^ 64 ≤ value then (sizeMax, true)
  else (if negative then -BitVec.ofNat 64 value else BitVec.ofNat 64 value, false)

def invalidDbIndex : Write := writeSimpleGenericError (asciiBytes "invalid DB index")

/-- `errno` is never reset before the call. -/
def cmdSelect (numDbs : Size) (env : Env) (db : Bytes) : Outcome :=
  let (dbnum, range) := strtoull db
  if env.errno ∨ range then .reply invalidDbIndex
  else if numDbs ≤ dbnum then .reply invalidDbIndex
  else .select dbnum ok

/-! ### `CMD_VARS` -/

/-- The delta of `INCRBY` and `DECRBY`. -/
def cmdDelta (op : Size → Op) (key : Bytes) (arg : Value) : Outcome :=
  match tryParseSignedInteger arg with
  | none => .reply (writeSimpleGenericError (asciiBytes "value is not an integer or out of range"))
  | some delta =>
    if delta.toInt < 0 then
      .reply (writeSimpleGenericError (asciiBytes "increment would produce negative integer"))
    else .keyed (op delta) key

/-- The value is copied into memory of its own. -/
def cmdSet (env : Env) (key : Bytes) (val : Value) : Outcome :=
  .keyed (.set ⟨val.bytes, env.past⟩) key

/-- `shard_id` is the home shard of the key. -/
def cmdDispatchPing (shards : ℕ) (key : Bytes) : Outcome :=
  .keyed (.dispatchPing (BitVec.ofNat 64 ((hashmapXxhash3 key 0 0).toNat % shards))) key

/-! ### `handle_command` -/

/-- What `%.*s` prints of an argument; its length is cast to `int`. -/
def printed (arg : Bytes) : Bytes := SendBuf.precise (BitVec.ofNat 64 arg.length) arg

/-- `"unknown command '%.*s', with args beginning with: '%.*s'"` in 1024 bytes. -/
def unknownCommand (name firstArg : Bytes) : Write :=
  writeSimpleGenericError <| (asciiBytes "unknown command '" ++ printed name ++
    asciiBytes "', with args beginning with: '" ++ printed firstArg ++ asciiBytes "'").take 1023

/-- `"wrong number of arguments for '%.*s' command"` in 64 bytes. -/
def wrongArity (cmd : Command) : Write :=
  writeSimpleGenericError <| (asciiBytes "wrong number of arguments for '" ++ cmd.name ++
    asciiBytes "' command").take 63

/-- `cmd->func(context, conn, args)` -/
def callCommand (shards : ℕ) (numDbs : Size) (env : Env) (args : List Value) :
    CommandFunc → Outcome
  | .ping => cmdPing
  | .echo => cmdEcho (args.getD 1 default).bytes
  | .quit => cmdQuit
  | .get => .keyed .get (args.getD 1 default).bytes
  | .set => cmdSet env (args.getD 1 default).bytes (args.getD 2 default)
  | .del => .keyed .del (args.getD 1 default).bytes
  | .shutdown => .shutdown
  | .flushall => cmdFlushall
  | .select => cmdSelect numDbs env (args.getD 1 default).bytes
  | .incr => .keyed .incr (args.getD 1 default).bytes
  | .decr => .keyed .decr (args.getD 1 default).bytes
  | .incrby => cmdDelta .incrby (args.getD 1 default).bytes (args.getD 2 default)
  | .decrby => cmdDelta .decrby (args.getD 1 default).bytes (args.getD 2 default)
  | .dispatchPing => cmdDispatchPing shards (args.getD 1 default).bytes

def handleCommand (shards : ℕ) (numDbs : Size) (env : Env) (args : List Value) : Outcome :=
  match lookupCommand (args.getD 0 default).bytes with
  | none => .reply (unknownCommand (args.getD 0 default).bytes (args.getD 1 default).bytes)
  | some cmd =>
    if cmd.arity ≠ args.length - 1 then .reply (wrongArity cmd)
    else callCommand shards numDbs env args cmd.func

/-! ### Arguments that are read in full -/

/-- How many arguments a command reads to their last byte, its name included: every key is hashed,
and `ECHO`, `SET` and `SELECT` copy theirs. Where `INCRBY` and `DECRBY` stop in their delta is
up to its bytes. -/
def CommandFunc.reads : CommandFunc → ℕ
  | .ping | .quit | .shutdown | .flushall => 1
  | .set => 3
  | .echo | .select | .get | .del | .incr | .decr | .incrby | .decrby | .dispatchPing => 2

/-- The same for `handle_command`: `lookup_command` hashes the name, and of an unknown command or
one with a wrong number of arguments nothing else is read in full. -/
def readInFull (args : List Value) : ℕ :=
  match lookupCommand (args.getD 0 default).bytes with
  | none => 1
  | some cmd => if cmd.arity ≠ args.length - 1 then 1 else cmd.func.reads

/-! ### The text about an unknown command -/

theorem ne_zero_of_mem_printed {arg : Bytes} {b : UInt8} (mem : b ∈ printed arg) : b ≠ 0 := by
  unfold printed SendBuf.precise at mem
  dsimp only at mem
  split at mem <;> exact ne_zero_of_mem_cString mem

/-- The message about an unknown command has no NUL. -/
theorem ne_zero_of_mem_unknown {name firstArg : Bytes} (b : UInt8)
    (mem : b ∈ (asciiBytes "unknown command '" ++ printed name ++
      asciiBytes "', with args beginning with: '" ++ printed firstArg ++ asciiBytes "'").take 1023) :
    b ≠ 0 := by
  have mem := List.mem_of_mem_take mem
  simp only [List.mem_append] at mem
  rcases mem with (((mem | mem) | mem) | mem) | mem
  · exact ne_of_mem_of_not_mem mem (by decide)
  · exact ne_zero_of_mem_printed mem
  · exact ne_of_mem_of_not_mem mem (by decide)
  · exact ne_zero_of_mem_printed mem
  · exact ne_of_mem_of_not_mem mem (by decide)

/-! ### `QUIT` -/

theorem callCommand_quit {shards : ℕ} {numDbs : Size} {env : Env} {args : List Value}
    {func : CommandFunc} {w : Write} (quits : callCommand shards numDbs env args func = .quit w) :
    func = .quit ∧ w = ok := by
  cases func
  case quit =>
    cases quits
    exact ⟨rfl, rfl⟩
  case select =>
    simp only [callCommand, cmdSelect] at quits
    repeat' split at quits
    all_goals cases quits
  case incrby | decrby =>
    simp only [callCommand, cmdDelta] at quits
    repeat' split at quits
    all_goals cases quits
  all_goals cases quits

/-- Only `QUIT` without arguments quits. -/
theorem handleCommand_quit {shards : ℕ} {numDbs : Size} {env : Env} {args : List Value} {w : Write}
    (quits : handleCommand shards numDbs env args = .quit w) :
    w = ok ∧ (args.getD 0 default).bytes = asciiBytes "QUIT" ∧ args.length ≤ 1 := by
  rw [handleCommand] at quits
  split at quits
  next => cases quits
  next cmd found =>
    split at quits
    next => cases quits
    next arity =>
      obtain ⟨func, is⟩ := callCommand_quit quits
      have name : cmd.name = (args.getD 0 default).bytes := by
        simpa using List.find?_some found
      have entry : cmd.func = .quit → cmd.name = asciiBytes "QUIT" ∧ cmd.arity = 0 := by
        have member := List.mem_of_find?_eq_some found
        simp only [commands, List.mem_cons, List.not_mem_nil, or_false] at member
        rcases member with rfl | rfl | rfl | rfl | rfl | rfl | rfl | rfl | rfl | rfl | rfl | rfl | rfl |
          rfl
        case inr.inr.inl => exact fun _ => ⟨rfl, rfl⟩
        all_goals
          intro other
          cases other
      obtain ⟨isQuit, none⟩ := entry func
      exact ⟨is, name ▸ isQuit, by omega⟩

end GhettoRedis.Commands
