import Mathlib.Data.List.TakeWhile
import GhettoRedis.Lib.Resp
import GhettoRedis.Protocol.Slices
import GhettoRedis.Server.Replies

/-!
# One request, one reply

What a command appends to `send_buf` reads back as exactly one reply, except where the
error for an unknown command repeats a line break of the request, and where an argument
is so long that reading it leaves `recv_buf`.
-/
namespace GhettoRedis.Server

open Lib Protocol Commands Resp

/-! ### The `write_*` functions -/

theorem isOneReply_writeSimpleGenericError {msg : Bytes} :
    IsOneReply (writeSimpleGenericError msg).text ↔ ¬ HasBreak (cString msg) := by
  have text : (writeSimpleGenericError msg).text =
      encodeReply (.error (asciiBytes "ERR " ++ cString msg)) := by
    simp only [writeSimpleGenericError, writeSimpleError, encodeReply,
      show cString (asciiBytes "ERR") = asciiBytes "ERR" by decide]
    rfl
  rw [text, isOneReply_encodeReply, Reply.OneLine, hasBreak_append_of_not_mem (by decide)]

theorem isOneReply_writeSimpleString {msg : Bytes} {len : ℕ} :
    IsOneReply (writeSimpleString msg len).text ↔ ¬ HasBreak (cString (msg.take len)) :=
  isOneReply_encodeReply (r := .simpleString (cString (msg.take len)))

theorem isOneReply_writeBulkString (data : Bytes) : IsOneReply (writeBulkString data).text := by
  have text : (writeBulkString data).text = encodeReply (.bulkString (some data)) := by
    simp [writeBulkString, encodeReply, crlf, lineBreak, cr, lf, dollar]
  rw [text]
  exact isOneReply_encodeReply.mpr trivial

theorem isOneReply_writeInteger (val : Size) : IsOneReply (writeInteger val).text :=
  isOneReply_encodeReply (r := .integer val.toInt).mpr trivial

theorem isOneReply_ok : IsOneReply ok.text := isOneReply_writeSimpleString.mpr (by decide)

theorem isOneReply_cmdResp (result : Result) : IsOneReply (cmdResp result).text := by
  cases result with
  | entry val =>
    cases val with
    | none => exact isOneReply_encodeReply (r := .bulkString none).mpr trivial
    | some val => exact isOneReply_writeBulkString val
  | stored => exact isOneReply_ok
  | res res | shardId res => exact isOneReply_writeInteger res

/-! ### Errors of `handle_command` -/

/-- The name and the first argument of an unknown command, as far as they are printed and fit
into the message, have no line break. -/
def Legible (name firstArg : Bytes) : Prop :=
  ¬ HasBreak ((printed name).take 1006) ∧
    ¬ HasBreak ((printed firstArg).take (976 - (printed name).length))

instance (name firstArg : Bytes) : Decidable (Legible name firstArg) :=
  inferInstanceAs (Decidable (_ ∧ _))

theorem hasBreak_take_append {s t : Bytes} (border : t.head? ≠ some 10) (len : ℕ) :
    HasBreak ((s ++ t).take len) ↔ HasBreak (s.take len) ∨ HasBreak (t.take (len - s.length)) := by
  rw [List.take_append]
  apply hasBreak_append
  rw [List.head?_take]
  split <;> simp [border]

theorem hasBreak_take_append_of_not_mem {s t : Bytes} (plain : 13 ∉ s) (len : ℕ) :
    HasBreak ((s ++ t).take len) ↔ HasBreak (t.take (len - s.length)) := by
  rw [List.take_append]
  exact hasBreak_append_of_not_mem fun cr => plain (List.mem_of_mem_take cr)

theorem isOneReply_unknownCommand {name firstArg : Bytes} :
    IsOneReply (unknownCommand name firstArg).text ↔ Legible name firstArg := by
  rw [unknownCommand, isOneReply_writeSimpleGenericError, cString_of_forall ne_zero_of_mem_unknown,
    Legible, ← not_or]
  simp only [List.append_assoc]
  -- from the left: a text, the name, a text, the argument and the closing quote
  rw [hasBreak_take_append_of_not_mem (by decide), hasBreak_take_append (by simp [asciiBytes]),
    hasBreak_take_append_of_not_mem (by decide), hasBreak_take_append (by simp [asciiBytes])]
  have quote (len : ℕ) : ¬ HasBreak ((asciiBytes "'").take len) :=
    not_hasBreak_of_not_mem fun cr => by
      have := List.mem_of_mem_take cr
      revert this
      decide
  have shown : 1023 - (asciiBytes "unknown command '").length - (printed name).length -
      (asciiBytes "', with args beginning with: '").length = 976 - (printed name).length := by
    simp [asciiBytes]
    omega
  rw [shown, or_iff_left (quote _)]
  simp [asciiBytes]

theorem isOneReply_wrongArity {cmd : Command} (known : cmd ∈ commands) :
    IsOneReply (wrongArity cmd).text := by
  have all : ∀ cmd ∈ commands, IsOneReply (wrongArity cmd).text := by decide +kernel
  exact all cmd known

/-! ### `handle_command` -/

/-- A known command, or an unknown one whose error is one line. -/
def Answerable (values : List Value) : Prop :=
  (lookupCommand (values.getD 0 default).bytes).isSome ∨
    Legible (values.getD 0 default).bytes (values.getD 1 default).bytes

instance (values : List Value) : Decidable (Answerable values) :=
  inferInstanceAs (Decidable (_ ∨ _))

theorem isOneReply_cmdSelect {numDbs : Size} {env : Env} {db : Bytes} {w : Write}
    (writes : plainWrite (cmdSelect numDbs env db) = some w) : IsOneReply w.text := by
  simp only [cmdSelect] at writes
  split at writes
  · cases writes
    exact isOneReply_writeSimpleGenericError.mpr (by decide)
  · split at writes
    · cases writes
      exact isOneReply_writeSimpleGenericError.mpr (by decide)
    · cases writes
      exact isOneReply_ok

theorem isOneReply_cmdDelta {op : Size → Op} {key : Bytes} {arg : Value} {w : Write}
    (writes : plainWrite (cmdDelta op key arg) = some w) : IsOneReply w.text := by
  simp only [cmdDelta] at writes
  split at writes
  · cases writes
    exact isOneReply_writeSimpleGenericError.mpr (by decide)
  · split at writes
    · cases writes
      exact isOneReply_writeSimpleGenericError.mpr (by decide)
    · cases writes

theorem isOneReply_callCommand {shards : ℕ} {numDbs : Size} {env : Env} {values : List Value}
    {func : CommandFunc} {w : Write}
    (writes : plainWrite (callCommand shards numDbs env values func) = some w) :
    IsOneReply w.text := by
  cases func with
  | get | set | del | incr | decr | dispatchPing | shutdown => cases writes
  | ping =>
    cases writes
    exact isOneReply_writeSimpleString.mpr (by decide)
  | quit | flushall =>
    cases writes
    exact isOneReply_ok
  | echo =>
    cases writes
    exact isOneReply_writeBulkString _
  | select => exact isOneReply_cmdSelect writes
  | incrby | decrby => exact isOneReply_cmdDelta writes

theorem isOneReply_handleCommand {shards : ℕ} {numDbs : Size} {env : Env} {values : List Value}
    {w : Write} (writes : plainWrite (handleCommand shards numDbs env values) = some w) :
    IsOneReply w.text ↔ Answerable values := by
  simp only [handleCommand] at writes
  split at writes
  next unknown =>
    cases writes
    rw [isOneReply_unknownCommand, Answerable, unknown]
    simp
  next cmd found =>
    have answerable : Answerable values := .inl (by rw [found]; rfl)
    refine iff_of_true ?_ answerable
    split at writes
    · cases writes
      exact isOneReply_wrongArity (List.mem_of_find?_eq_some found)
    · exact isOneReply_callCommand writes

/-! ### `on_data_available` -/

variable {n : ℕ}

/-- Behind `conn`, `send_buf` has grown by exactly one reply. -/
def RepliedOnce (conn : Conn) (c : ConnId) (s : State n) : Prop :=
  ∃ conn' text, s.conn c = some conn' ∧ conn'.sendBuf = conn.sendBuf ++ text ∧ IsOneReply text

theorem repliedOnce_finishRequest {s : State n} {i : Fin n} {c : ConnId} {conn conn' : Conn}
    {args : CmdArgs} {k : Serving} {w : Write} (appends : conn'.sendBuf = conn.sendBuf ++ w.text) :
    RepliedOnce conn c (s.finishRequest i c conn' args true k) ↔ IsOneReply w.text := by
  have found : (s.finishRequest i c conn' args true k).conn c =
      some (conn'.finish args true).2 := if_pos rfl
  constructor
  · rintro ⟨conn'', text, is, grown, one⟩
    obtain rfl : (conn'.finish args true).2 = conn'' := by simpa [found] using is
    rw [finish_sendBuf, appends] at grown
    rwa [List.append_cancel_left grown]
  · intro one
    exact ⟨_, w.text, found, by rw [finish_sendBuf, appends], one⟩

/-- The request is answered with exactly one reply, and what its command reads in full lies in
`recv_buf`; behind an argument that does not, `hashmap_xxhash3` or `memcpy` is undefined. -/
def AnsweredOnce (conn : Conn) (args : CmdArgs) (values : List Value) (c : ConnId) (s : State n) :
    Prop :=
  conn.recv.HoldsArgs args (readInFull values) ∧ RepliedOnce conn c s

/-- A request that the owner of the connection executes itself gets exactly one reply if and
only if no length announced for an argument that is read in full exceeds the window, and it
names a known command or its error is one line. -/
theorem one_reply_iff [NeZero n] {cfg : Config} {s : State n} {i : Fin n} {c : ConnId}
    {conn : Conn} {k : Serving} {outside : Mem} {env : Env} {args : CmdArgs}
    (head : conn.head (conn.mem outside) = .request args) (argc : args.argc ≠ 0)
    (notShutdown : handleCommand n cfg.numDbs env (argumentValues (conn.mem outside) args) ≠
      .shutdown)
    (here : ∀ op key, handleCommand n cfg.numDbs env (argumentValues (conn.mem outside) args) =
      .keyed op key → home key = i) :
    AnsweredOnce conn args (argumentValues (conn.mem outside) args) c
        (stepServe cfg s i c conn k outside env).1 ↔
      conn.recv.Short args (readInFull (argumentValues (conn.mem outside) args)) ∧
        Answerable (argumentValues (conn.mem outside) args) := by
  rw [AnsweredOnce, holdsArgs_iff_short head]
  refine and_congr_right fun _ => ?_
  simp only [stepServe, head, if_neg argc]
  have plain {w} (writes : plainWrite (handleCommand n cfg.numDbs env
      (argumentValues (conn.mem outside) args)) = some w) := isOneReply_handleCommand writes
  have known {op key} (keyed : handleCommand n cfg.numDbs env
      (argumentValues (conn.mem outside) args) = .keyed op key) :
      Answerable (argumentValues (conn.mem outside) args) := by
    simp only [handleCommand] at keyed
    split at keyed
    next => cases keyed
    next cmd found => exact .inl (by rw [found]; rfl)
  cases outcome : handleCommand n cfg.numDbs env (argumentValues (conn.mem outside) args) with
  | reply w | quit w | select db w | flushall w =>
    rw [outcome] at plain
    rw [← plain rfl]
    exact repliedOnce_finishRequest rfl
  | shutdown => exact absurd outcome notShutdown
  | keyed op key =>
    have own : Fin.ofNat n (hashmapXxhash3 key 0 0).toNat = i := here op key outcome
    refine iff_of_true ?_ (known outcome)
    simp only [stepHandle, stepKeyed, if_pos own]
    exact (repliedOnce_finishRequest rfl).mpr (isOneReply_cmdResp _)

theorem addressable_65536 : (65536 : Size).toNat + (2 * messageMaxLength + 16) ≤ 2 ^ 64 := by decide

theorem fresh_room {bytes : Bytes} (fits : bytes.length ≤ messageMaxLength) :
    (RecvBuf.fresh 65536 addressable_65536).size + bytes.length ≤ messageMaxLength := by
  simpa [RecvBuf.fresh] using fits

/-- A new connection that has received `bytes`. -/
def served (bytes : Bytes) (fits : bytes.length ≤ messageMaxLength) : Conn :=
  .accepted 0 ((RecvBuf.fresh 65536 addressable_65536).receive bytes (fresh_room fits))

deriving instance DecidableEq for Head

/-- `GET a` as an array of bulk strings. -/
def getArray : Bytes :=
  asciiBytes "*2" ++ crlf ++ asciiBytes "$3" ++ crlf ++ asciiBytes "GET" ++ crlf ++
    asciiBytes "$1" ++ crlf ++ asciiBytes "a" ++ crlf

/-- Where its arguments are. -/
def getArgs : CmdArgs := ⟨65536, 2, 20, [⟨8, 3⟩, ⟨17, 1⟩]⟩

theorem one_reply_iff_get :
    AnsweredOnce (served getArray (by decide)) getArgs
      (argumentValues ((served getArray (by decide)).mem fun _ => 0) getArgs) 0
      (stepServe config (State.init 1) 0 0 (served getArray (by decide)) (.onCb 0) (fun _ => 0) ⟨false, 0⟩).1 := by
  have head : (served getArray (by decide)).head ((served getArray (by decide)).mem fun _ => 0) =
      .request getArgs := by decide +kernel
  apply (one_reply_iff head (by decide) ?_ fun _ _ _ => Subsingleton.elim _ _).mpr
  · decide +kernel
  · decide +kernel

/-- A command of one word, with a line break in it. -/
def brokenName : Bytes :=
  asciiBytes "*1" ++ crlf ++ asciiBytes "$4" ++ crlf ++ asciiBytes "A" ++ crlf ++ asciiBytes "B" ++ crlf

/-- The error repeats the line break, and what stands behind it reads as a further reply. -/
theorem broken_name_splits : ¬ ∀ (s : State 1) (conn : Conn) (k : Serving) (outside : Mem)
    (env : Env) (args : CmdArgs), conn.head (conn.mem outside) = .request args → args.argc ≠ 0 →
    handleCommand 1 config.numDbs env (argumentValues (conn.mem outside) args) ≠ .shutdown →
    RepliedOnce conn 0 (stepServe config s 0 0 conn k outside env).1 := by
  intro claimed
  obtain ⟨conn', text, found, grown, one⟩ := claimed (State.init 1) (served brokenName (by decide))
    (.onCb 0) (fun _ => 0) ⟨false, 0⟩ ⟨65536, 1, 14, [⟨8, 4⟩]⟩ (by decide +kernel) (by decide)
    (by decide +kernel)
  have appended : ((stepServe config (State.init 1) 0 0 (served brokenName (by decide)) (.onCb 0)
      (fun _ => 0) ⟨false, 0⟩).1.conn 0).map Conn.sendBuf =
      some (asciiBytes "-ERR unknown command 'A" ++ crlf ++
        asciiBytes "B', with args beginning with: ''" ++ crlf) := by decide +kernel
  rw [found, Option.map_some, grown, Option.some.injEq] at appended
  rw [show (served brokenName (by decide)).sendBuf = [] from rfl, List.nil_append] at appended
  rw [appended] at one
  revert one
  decide

end GhettoRedis.Server
