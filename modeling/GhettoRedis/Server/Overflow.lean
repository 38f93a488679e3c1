import GhettoRedis.Server.Replies

/-!
# The end of the send buffer

No `write_*` call compares a length with `MESSAGE_MAX_LENGTH`. How many bytes a reply takes is
known before the step that writes it: from the request, the value that is stored under its key,
or the response that is delivered. A run stays inside the send buffer if and only if there is
room for that in each of its steps.
-/
namespace GhettoRedis.Server

open Lib Protocol Commands

variable {n : ℕ}

/-! ### The bytes of a reply -/

/-- An error with a text of `len` bytes: `-ERR `, the line break and the NUL of `sprintf`. -/
def errorRoom (len : ℕ) : ℕ := len + 8

/-- A simple string of `len` bytes, with its line break and the NUL. -/
def stringRoom (len : ℕ) : ℕ := len + 4

/-- A bulk string of `len` bytes: its length in decimal, `$` and two line breaks. -/
def bulkRoom (len : ℕ) : ℕ := Nat.log 10 len + 1 + len + 5

/-- `$-1` with its line break and the NUL. -/
def nullRoom : ℕ := 6

/-- A number in decimal, with `:`, the line break and the NUL. -/
def integerRoom (val : ℤ) : ℕ := Nat.log 10 val.natAbs + 1 + (if val < 0 then 1 else 0) + 4

def entryRoom : Option Bytes → ℕ
  | some val => bulkRoom val.length
  | none => nullRoom

/-- A counter: the stored number and `delta`, or zero when no number is stored. -/
def counterRoom (found : Option Value) (delta : Size) : ℕ :=
  match found with
  | none => integerRoom delta.toInt
  | some val =>
    match tryParseSignedInteger val with
    | none => integerRoom 0
    | some number => integerRoom (number + delta).toInt

/-- The reply to a keyed command whose key has the value `found`. -/
def opRoom (found : Option Value) : Op → ℕ
  | .get => entryRoom (found.map Value.bytes)
  | .set _ => stringRoom 2
  | .del => integerRoom (if found.isSome then 1 else 0)
  | .dispatchPing shardId => integerRoom shardId.toInt
  | .incr => counterRoom found 1
  | .decr => counterRoom found (-1)
  | .incrby delta => counterRoom found delta
  | .decrby delta => counterRoom found (-delta)

/-- The reply to a command with `args`; a keyed one is answered at once only where its key has its
home. -/
def commandRoom (shards : ℕ) (numDbs : Size) (env : Env) (args : List Value)
    (keyed : Bytes → Op → Option ℕ) (func : CommandFunc) : Option ℕ :=
  let first := (args.getD 1 default).bytes
  let byDelta (op : Size → Op) : Option ℕ :=
    match tryParseSignedInteger (args.getD 2 default) with
    | none => some (errorRoom 39)
    | some delta => if delta.toInt < 0 then some (errorRoom 40) else keyed first (op delta)
  match func with
  | .ping => some (stringRoom 4)
  | .quit | .flushall => some (stringRoom 2)
  | .shutdown => none
  | .echo => some (bulkRoom first.length)
  | .select =>
    if env.errno ∨ (strtoull first).2 ∨ numDbs ≤ (strtoull first).1 then some (errorRoom 16)
    else some (stringRoom 2)
  | .get => keyed first .get
  | .set => keyed first (.set ⟨(args.getD 2 default).bytes, env.past⟩)
  | .del => keyed first .del
  | .incr => keyed first .incr
  | .decr => keyed first .decr
  | .incrby => byDelta .incrby
  | .decrby => byDelta .decrby
  | .dispatchPing =>
    keyed first (.dispatchPing (BitVec.ofNat 64 ((hashmapXxhash3 first 0 0).toNat % shards)))

/-- The reply to a request with arguments `args`. -/
def requestRoom (shards : ℕ) (numDbs : Size) (env : Env) (args : List Value)
    (keyed : Bytes → Op → Option ℕ) : Option ℕ :=
  match lookupCommand (args.getD 0 default).bytes with
  | none =>
    -- the two texts are cut to fit into the message
    some (errorRoom (min 1023 (48 + (printed (args.getD 0 default).bytes).length +
      (printed (args.getD 1 default).bytes).length)))
  | some cmd =>
    if cmd.arity ≠ args.length - 1 then some (errorRoom (min 63 (40 + cmd.name.length)))
    else commandRoom shards numDbs env args keyed cmd.func

/-- What a response callback writes. -/
def fieldsRoom : RespFields → ℕ
  | .entry val => entryRoom val
  | .empty => stringRoom 2
  | .res res | .shardId res => integerRoom res.toInt

/-! ### The condition -/

/-- The send buffer that shard `i` writes a reply to in its step, and the bytes of the reply. -/
def View.replyRoom [NeZero n] (cfg : Config) (v : View n) (i : Fin n) (a : Action) : Option (Conn × ℕ) :=
  match v.pc i, a with
  | .serve c _, .serve outside env =>
    (v.conn c).bind fun conn =>
      let room : Option ℕ :=
        match conn.head (conn.mem outside) with
        | .nothing => none
        | .malformed _ =>
          match conn.parse (conn.mem outside) with
          | .error .invalidArgc => some (errorRoom 12)
          | _ => some (errorRoom 11)
        | .request args =>
          if args.argc = 0 then none
          else requestRoom n cfg.numDbs env (argumentValues (conn.mem outside) args) fun key op =>
            if home key = i then
              some (opRoom (hashmapGetWithHash (v.dbs i conn.db) key (hashmapXxhash3 key 0 0)) op)
            else none
      room.map fun room => (conn, room)
  | .callback _ (.response ctx fields), _ =>
    (v.conn ctx.conn).map fun conn => (conn, fieldsRoom fields)
  | _, _ => none

/-- What the step replies fits behind the bytes that are still in the send buffer. -/
def HasRoom [NeZero n] (cfg : Config) (v : View n) (i : Fin n) (a : Action) : Prop :=
  ∀ reply ∈ v.replyRoom cfg i a, reply.1.sendBuf.length + reply.2 ≤ messageMaxLength

instance [NeZero n] (cfg : Config) (v : View n) (i : Fin n) (a : Action) :
    Decidable (HasRoom cfg v i a) := inferInstanceAs (Decidable (∀ _ ∈ _, _))

/-- The reply is stored inside of the send buffer, the NUL behind it included. -/
def Event.Fits : Event → Prop
  | .replied _ _ offset w => offset + w.stored ≤ messageMaxLength
  | _ => True

instance : DecidablePred Event.Fits
  | .replied _ _ offset w => inferInstanceAs (Decidable (offset + w.stored ≤ messageMaxLength))
  | .accepted _ | .handled _ _ _ _ | .refused _ _ _ | .executed _ _ _ _ _ _ _ | .flushed _ _
  | .closed _ => .isTrue trivial

/-! ### The writers -/

theorem stored_error {msg : Bytes} (plain : ∀ b ∈ msg, b ≠ 0) :
    (writeSimpleGenericError msg).stored = errorRoom msg.length := by
  simp only [writeSimpleGenericError, writeSimpleError, Write.stored, cString_of_forall plain,
    show cString (asciiBytes "ERR") = asciiBytes "ERR" by decide, List.length_append, errorRoom, crlf]
  simp [asciiBytes]
  omega

theorem stored_bulk (data : Bytes) : (writeBulkString data).stored = bulkRoom data.length := by
  simp only [writeBulkString, Write.stored, List.length_append, List.length_cons, decimal_length,
    bulkRoom, crlf]
  simp
  omega

theorem decimalInt_length (val : ℤ) :
    (decimalInt val).length = Nat.log 10 val.natAbs + 1 + if val < 0 then 1 else 0 := by
  cases val with
  | ofNat m => simp [decimalInt, decimal_length]
  | negSucc m => simp [decimalInt, decimal_length, Int.natAbs_negSucc, Int.negSucc_lt_zero]

theorem stored_integer (val : Size) : (writeInteger val).stored = integerRoom val.toInt := by
  simp only [writeInteger, Write.stored, List.length_append, decimalInt_length, integerRoom, crlf]
  simp [asciiBytes]
  omega

theorem stored_ok : ok.stored = stringRoom 2 := by decide

theorem stored_entry (found : Option Bytes) : (cmdResp (.entry found)).stored = entryRoom found := by
  cases found with
  | none => decide
  | some val => exact stored_bulk val

theorem stored_fields (fields : RespFields) : (cmdResp (cmdPreResp fields)).stored = fieldsRoom fields := by
  cases fields with
  | entry val => exact stored_entry val
  | empty => exact stored_ok
  | res res | shardId res => exact stored_integer res

/-! ### Commands -/

/-- The reply of a keyed command. -/
theorem stored_cmdExec {op : Op} {map map' : Hashmap} {key : Bytes} {hash : Size} {result : Result}
    (executed : cmdExec op map key hash = (map', result)) :
    (cmdResp result).stored = opRoom (hashmapGetWithHash map key hash) op := by
  have counter (delta : Size) : (cmdResp (modifyCounter map key hash delta).2).stored =
      counterRoom (hashmapGetWithHash map key hash) delta := by
    simp only [modifyCounter, tryModifyCounter, counterRoom, cmdResp, stored_integer]
    cases hashmapGetWithHash map key hash with
    | none =>
      show integerRoom (0 + delta).toInt = integerRoom delta.toInt
      rw [zero_add]
    | some val =>
      dsimp only
      cases tryParseSignedInteger val <;> rfl
  cases op with
  | get =>
    cases executed
    exact stored_entry _
  | set =>
    cases executed
    exact stored_ok
  | del =>
    cases executed
    simp only [cmdResp, stored_integer, opRoom]
    split <;> rfl
  | dispatchPing shardId =>
    cases executed
    exact stored_integer shardId
  | incr | decr | incrby | decrby =>
    have is := congrArg Prod.snd executed
    cases is
    exact counter _

section Requests

variable {shards : ℕ} {numDbs : Size} {env : Env} {args : List Value} {outcome : Outcome} {w : Write}
  {keyed : Bytes → Op → Option ℕ}

theorem stored_unknownCommand (name firstArg : Bytes) : (unknownCommand name firstArg).stored =
    errorRoom (min 1023 (48 + (printed name).length + (printed firstArg).length)) := by
  rw [unknownCommand, stored_error ne_zero_of_mem_unknown, List.length_take]
  congr 2
  simp [asciiBytes]
  omega

theorem stored_wrongArity {cmd : Command} (known : cmd ∈ commands) :
    (wrongArity cmd).stored = errorRoom (min 63 (40 + cmd.name.length)) := by
  have all : ∀ cmd ∈ commands, (wrongArity cmd).stored = errorRoom (min 63 (40 + cmd.name.length)) := by
    decide +kernel
  exact all cmd known

theorem commandRoom_plain {func : CommandFunc}
    (writes : plainWrite (callCommand shards numDbs env args func) = some w) :
    commandRoom shards numDbs env args keyed func = some w.stored := by
  cases func with
  | get | set | del | incr | decr | dispatchPing | shutdown => cases writes
  | ping | quit | flushall =>
    cases writes
    rfl
  | echo =>
    cases writes
    exact congrArg some (stored_bulk _).symm
  | select =>
    simp only [callCommand, cmdSelect] at writes
    simp only [commandRoom]
    split at writes
    next refused =>
      cases writes
      rw [if_pos (by tauto)]
      rfl
    next range =>
      split at writes
      next high =>
        cases writes
        rw [if_pos (by tauto)]
        rfl
      next =>
        cases writes
        rw [if_neg (by tauto)]
        rfl
  | incrby | decrby =>
    cases parsed : tryParseSignedInteger (args.getD 2 default) with
    | none =>
      simp only [callCommand, cmdDelta, parsed] at writes
      cases writes
      simp only [commandRoom, parsed]
      rfl
    | some delta =>
      simp only [callCommand, cmdDelta, parsed] at writes
      split at writes
      next negative =>
        cases writes
        simp only [commandRoom, parsed, if_pos negative]
        rfl
      next => cases writes

theorem commandRoom_keyed {func : CommandFunc} {op : Op} {key : Bytes}
    (called : callCommand shards numDbs env args func = .keyed op key) :
    commandRoom shards numDbs env args keyed func = keyed key op := by
  cases func with
  | ping | quit | flushall | echo | shutdown => cases called
  | get | set | del | incr | decr | dispatchPing =>
    cases called
    rfl
  | select =>
    simp only [callCommand, cmdSelect] at called
    repeat' split at called
    all_goals cases called
  | incrby | decrby =>
    cases parsed : tryParseSignedInteger (args.getD 2 default) with
    | none =>
      simp only [callCommand, cmdDelta, parsed] at called
      cases called
    | some delta =>
      simp only [callCommand, cmdDelta, parsed] at called
      split at called
      next => cases called
      next positive =>
        cases called
        simp only [commandRoom, parsed, if_neg positive]

/-- The reply to a request is that of its command, or an error. -/
theorem requestRoom_of_found {cmd : Command} (found : lookupCommand (args.getD 0 default).bytes = some cmd)
    (arity : ¬ cmd.arity ≠ args.length - 1) :
    requestRoom shards numDbs env args keyed = commandRoom shards numDbs env args keyed cmd.func ∧
      handleCommand shards numDbs env args = callCommand shards numDbs env args cmd.func := by
  constructor
  · simp only [requestRoom, found, if_neg arity]
  · simp only [handleCommand, found, if_neg arity]

theorem requestRoom_plain (handled : handleCommand shards numDbs env args = outcome)
    (writes : plainWrite outcome = some w) :
    requestRoom shards numDbs env args keyed = some w.stored := by
  subst handled
  cases found : lookupCommand (args.getD 0 default).bytes with
  | none =>
    simp only [handleCommand, found] at writes
    cases writes
    simp only [requestRoom, found, stored_unknownCommand]
  | some cmd =>
    by_cases arity : cmd.arity ≠ args.length - 1
    · simp only [handleCommand, found, if_pos arity] at writes
      cases writes
      simp only [requestRoom, found, if_pos arity, stored_wrongArity (List.mem_of_find?_eq_some found)]
    · obtain ⟨room, calls⟩ := requestRoom_of_found found arity
      rw [calls] at writes
      rw [room]
      exact commandRoom_plain writes

theorem requestRoom_keyed {op : Op} {key : Bytes}
    (handled : handleCommand shards numDbs env args = .keyed op key) :
    requestRoom shards numDbs env args keyed = keyed key op := by
  cases found : lookupCommand (args.getD 0 default).bytes with
  | none =>
    simp only [handleCommand, found] at handled
    cases handled
  | some cmd =>
    by_cases arity : cmd.arity ≠ args.length - 1
    · simp only [handleCommand, found, if_pos arity] at handled
      cases handled
    · obtain ⟨room, calls⟩ := requestRoom_of_found found arity
      rw [room]
      exact commandRoom_keyed (calls.symm.trans handled)

theorem commandRoom_shutdown {func : CommandFunc}
    (called : callCommand shards numDbs env args func = .shutdown) :
    commandRoom shards numDbs env args keyed func = none := by
  cases func with
  | shutdown => rfl
  | ping | quit | flushall | echo | get | set | del | incr | decr | dispatchPing => cases called
  | select =>
    simp only [callCommand, cmdSelect] at called
    repeat' split at called
    all_goals cases called
  | incrby | decrby =>
    simp only [callCommand, cmdDelta] at called
    repeat' split at called
    all_goals cases called

theorem requestRoom_shutdown (handled : handleCommand shards numDbs env args = .shutdown) :
    requestRoom shards numDbs env args keyed = none := by
  cases found : lookupCommand (args.getD 0 default).bytes with
  | none =>
    simp only [handleCommand, found] at handled
    cases handled
  | some cmd =>
    by_cases arity : cmd.arity ≠ args.length - 1
    · simp only [handleCommand, found, if_pos arity] at handled
      cases handled
    · obtain ⟨room, calls⟩ := requestRoom_of_found found arity
      rw [room]
      exact commandRoom_shutdown (calls.symm.trans handled)

end Requests

/-! ### Steps -/

/-- Where a reply is stored, and how many bytes it takes there. -/
def Event.place : Event → Option (ℕ × ℕ)
  | .replied _ _ offset w => some (offset, w.stored)
  | _ => none

theorem forall_fits_iff {seen : List Event} :
    (∀ e ∈ seen, e.Fits) ↔ ∀ place ∈ seen.filterMap Event.place, place.1 + place.2 ≤ messageMaxLength := by
  constructor
  · intro all place mem
    obtain ⟨e, seen, is⟩ := List.mem_filterMap.mp mem
    cases e with
    | replied =>
      cases is
      exact all _ seen
    | _ => cases is
  · intro all e mem
    cases e with
    | replied c index offset w => exact all (offset, w.stored) (List.mem_filterMap.mpr ⟨_, mem, rfl⟩)
    | _ => trivial

section Moves

variable [NeZero n] {cfg : Config} {v v' : View n} {i : Fin n} {a : Action} {seen : List Event}

theorem Passes.replyRoom {pc : Pc n} (passes : Passes v i a pc) : v.replyRoom cfg i a = none := by
  cases passes with
  | idle idle =>
    unfold View.replyRoom
    split <;> simp_all [Pc.Idle]
  | stopping stops =>
    rcases Pc.eq_of_stopping stops with ⟨j, stands⟩ | ⟨j, stands⟩ | ⟨j, stands⟩ <;>
      simp only [View.replyRoom, stands]
  | served stands is live nothing =>
    subst is
    simp [View.replyRoom, stands, live, nothing]
  | looked stands | sent stands | event stands | spared stands => simp only [View.replyRoom, stands]

/-- The reply to a request that is handed on. -/
theorem Hands.replyRoom {c : ConnId} {k : Serving} {conn : Conn} {args : CmdArgs}
    {values : List Value} {env : Env} {outcome : Outcome}
    (hands : Hands cfg v i a c k conn args values env outcome) :
    v.replyRoom cfg i a = (requestRoom n cfg.numDbs env values fun key op =>
      if home key = i then
        some (opRoom (hashmapGetWithHash (v.dbs i conn.db) key (hashmapXxhash3 key 0 0)) op)
      else none).map fun room => (conn, room) := by
  obtain ⟨outside, rfl, head, rfl⟩ := hands.head
  simp only [View.replyRoom, hands.at_serve, hands.live, Option.bind_some, head, if_neg hands.argc]

theorem stored_malformed {conn : Conn} {mem : Mem} {w : Write} (head : conn.head mem = .malformed w) :
    (match conn.parse mem with
      | .error .invalidArgc => some (errorRoom 12)
      | _ => some (errorRoom 11)) = some w.stored := by
  unfold Conn.head at head
  split at head
  next => cases head
  next =>
    unfold Head.ofParse at head
    split at head
    next => cases head
    next => cases head
    next failed =>
      cases head
      rw [failed]
      decide
    next failed =>
      cases head
      rw [failed]
      decide

/-- A step replies just where it needs room, and stores as many bytes. -/
theorem Move.places (move : Move cfg v i a v' seen) : seen.filterMap Event.place =
    (v.replyRoom cfg i a).toList.map fun reply => (reply.1.sendBuf.length, reply.2) := by
  cases move with
  | quiet _ _ _ _ passes => rw [passes.replyRoom]; rfl
  | flush stands | dequeue stands | claim stands | dispatched stands | accept stands
  | receive stands =>
    simp only [View.replyRoom, stands]
    rfl
  | execute stands =>
    simp only [View.replyRoom, stands]
    rfl
  | close _ place =>
    rcases place with ⟨_, _, stands, -⟩ | ⟨stands, -⟩ <;> simp only [View.replyRoom, stands] <;> rfl
  | @skip c conn args k stands live empty =>
    rcases stands with stands | ⟨j, stands⟩
    · obtain ⟨outside, env, rfl, head, none⟩ := empty stands
      simp only [View.replyRoom, stands, live, Option.bind_some, head, if_pos none]
      rfl
    · simp only [View.replyRoom, stands]
      rfl
  | @refuse c conn k outside env w stands live is head =>
    subst is
    simp only [View.replyRoom, stands, live, Option.bind_some, head, stored_malformed head]
    rfl
  | deliver stands live =>
    simp only [View.replyRoom, stands, live, Option.map_some, ← stored_fields]
    rfl
  | answer hands answer =>
    rw [hands.replyRoom, requestRoom_plain hands.outcome.symm (plainAnswer_write answer)]
    rfl
  | flushall hands =>
    rw [hands.replyRoom, requestRoom_plain hands.outcome.symm rfl]
    rfl
  | shutdown hands =>
    rw [hands.replyRoom, requestRoom_shutdown hands.outcome.symm]
    rfl
  | inline hands here executed =>
    rw [hands.replyRoom, requestRoom_keyed hands.outcome.symm, if_pos here, ← stored_cmdExec executed]
    rfl
  | dispatch hands away =>
    rw [hands.replyRoom, requestRoom_keyed hands.outcome.symm, if_neg away]
    rfl

theorem Move.fits_iff (move : Move cfg v i a v' seen) : (∀ e ∈ seen, e.Fits) ↔ HasRoom cfg v i a := by
  rw [forall_fits_iff, move.places, List.forall_mem_map]
  simp only [HasRoom, Option.mem_toList, Option.mem_def]

end Moves

/-! ### Runs -/

/-- In a run every reply is stored inside of the send buffer if and only if every step has room for
what it replies. -/
theorem replies_fit_iff [NeZero n] {cfg : Config} {s : State n} {trace : List Event}
    (run : (server cfg).Reaches (State.init n) s trace) :
    (∀ e ∈ trace, e.Fits) ↔
      (server cfg).Run (fun s a => HasRoom cfg s.view a.1 a.2) (State.init n) s trace :=
  run.forall_iff fun _ _ _ _ taken => (move_of_step taken).fits_iff

/-- A value of 4090 bytes for a key of shard 0. -/
def setLong : Bytes :=
  asciiBytes "*3" ++ crlf ++ asciiBytes "$3" ++ crlf ++ asciiBytes "SET" ++ crlf ++
    asciiBytes "$1" ++ crlf ++ asciiBytes "d" ++ crlf ++ asciiBytes "$4090" ++ crlf ++
    List.replicate 4090 120 ++ crlf

/-- The value is stored. -/
def setsLong : List (Fin 2 × Action) :=
  goToSleep shard0 0 ++ acceptClient shard0 65536 ++ goToSleep shard0 1 ++
    readFrom shard0 0 setLong ++ [serveNext shard0] ++ List.replicate 2 (shard0, .go) ++
    goToSleep shard0 1

/-- Then it is asked for once in a pipeline, or twice. -/
def getLong (times : ℕ) : List (Fin 2 × Action) :=
  setsLong ++ readFrom shard0 0 (List.replicate times (asciiBytes "GET d" ++ crlf)).flatten ++
    List.replicate times (serveNext shard0)

theorem replies_fit_iff_get : ∃ s trace, (server config).Reaches (State.init 2) s trace ∧
    trace.filterMap Event.place = [(0, 6), (0, 4099)] ∧ ((∀ e ∈ trace, e.Fits) ↔
      (server config).Run (fun s a => HasRoom config s.view a.1 a.2) (State.init 2) s trace) := by
  obtain ⟨s, trace, run, places⟩ := Machine.exists_of_exec (server config) (State.init 2) (getLong 1)
    (fun r => r.2.filterMap Event.place) (b := [(0, 6), (0, 4099)]) (by decide +kernel)
  exact ⟨s, trace, run, places, replies_fit_iff run⟩

/-- The second reply runs over the end of the send buffer. -/
theorem get_long_overflows : ¬ ∀ s trace, (server config).Reaches (State.init 2) s trace →
    ∀ e ∈ trace, e.Fits := by
  intro claimed
  obtain ⟨s, trace, run, places⟩ := Machine.exists_of_exec (server config) (State.init 2) (getLong 2)
    (fun r => r.2.filterMap Event.place) (b := [(0, 6), (0, 4099), (4099, 4099)]) (by decide +kernel)
  have fits := forall_fits_iff.mp (claimed s trace run) (4099, 4099)
  rw [show trace.filterMap Event.place = [(0, 6), (0, 4099), (4099, 4099)] from places] at fits
  have inside := fits (by simp)
  revert inside
  decide

end GhettoRedis.Server
