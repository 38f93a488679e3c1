import GhettoRedis.Commands.Handle
import GhettoRedis.Commands.Integers

/-!
# Counters

The commands that count, executed on the shard of the connection or dispatched to the home
shard of their key: what they do to the database, and when they should have failed.
-/
namespace GhettoRedis.Commands

open Lib Protocol

/-- A counting command with its second argument. -/
inductive Counting where
  | incr
  | decr
  | incrby (delta : Value)
  | decrby (delta : Value)

namespace Counting

/-- The request. -/
def args (key : Value) : Counting → List Value
  | incr => [⟨asciiBytes "INCR", 0⟩, key]
  | decr => [⟨asciiBytes "DECR", 0⟩, key]
  | incrby delta => [⟨asciiBytes "INCRBY", 0⟩, key, delta]
  | decrby delta => [⟨asciiBytes "DECRBY", 0⟩, key, delta]

/-- The second argument is taken for a number that is not negative. -/
def accepted (delta : Value) : Option Size :=
  (tryParseSignedInteger delta).filter fun delta => ¬ delta.toInt < 0

/-- What the command adds to the counter, unless its argument is refused. -/
def taken : Counting → Option Size
  | incr => some 1
  | decr => some (-1)
  | incrby delta => accepted delta
  | decrby delta => (accepted delta).map fun delta => -delta

/-! ### What should be added -/

/-- The argument is the text of an `int64_t` that is not negative. -/
def DeltaText (delta : Value) (m : ℤ) : Prop := IntText delta.bytes m ∧ 0 ≤ m ∧ InInt64 m

def Adds (m : ℤ) : Counting → Prop
  | incr => m = 1
  | decr => m = -1
  | incrby delta => DeltaText delta m
  | decrby delta => DeltaText delta (-m)

/-- Not an optional sign with digits, or one whose number modulo 2 ^ 64 is negative; a sign
behind an empty argument counts as well. -/
def RefusedText (delta : Value) : Prop :=
  (delta.bytes = [] → delta.past = minus ∨ delta.past = plus) ∧
  (delta.bytes ≠ [] → ∀ sign ∈ signs, ∀ digits, delta.bytes = sign ++ digits →
    (∀ d ∈ digits, IsDigit d) → (signed sign (decimalValue digits)).bmod (2 ^ 64) < 0)

def Refused : Counting → Prop
  | incr | decr => False
  | incrby delta | decrby delta => RefusedText delta

end Counting

/-! ### Execution -/

/-- Where a keyed command is executed. -/
inductive Execution where
  | inline
  | dispatched

/-- What `DEFINE_COMMAND` makes of a command: the database afterwards and the reply. -/
def Execution.execute (way : Execution) (db : Hashmap) (op : Op) (key : Bytes) : Hashmap × Write :=
  let hash := hashmapXxhash3 key 0 0
  match way with
  | inline =>
    let (db, result) := cmdExec op db key hash
    (db, cmdResp result)
  | dispatched =>
    let (db, result) := cmdExec (cmdPreDispatchExec (cmdPreDispatch op)) db key hash
    (db, cmdResp (cmdPreResp (cmdPostDispatchExec result)))

/-- An outcome that replies to the connection and does nothing else to it, carried out on the
database of the key. -/
def Execution.carryOut (way : Execution) (db : Hashmap) : Outcome → Option (Hashmap × Write)
  | .reply w => some (db, w)
  | .keyed op key => some (way.execute db op key)
  | _ => none

section

variable (way : Execution) (shards : ℕ) (numDbs : Size) (env : Env)

def answerTo (db : Hashmap) (args : List Value) : Option (Hashmap × Write) :=
  way.carryOut db (handleCommand shards numDbs env args)

/-! ### The exact sum -/

/-- The number at which a counter should stand. -/
def Stands (start : ℤ) : Option Value → Prop
  | none => start = 0
  | some val => IntText val.bytes start ∧ InInt64 start

def storedAt (db : Hashmap) (key : Bytes) : Option Value :=
  hashmapGetWithHash db key (hashmapXxhash3 key 0 0)

def storeAt (db : Hashmap) (key : Bytes) (val : Value) : Hashmap :=
  db.put key (hashmapXxhash3 key 0 0) (some val)

def ExactSum (db : Hashmap) (key : Bytes) (c : Counting) (sum : ℤ) : Prop :=
  ∃ start m, Stands start (storedAt db key) ∧ c.Adds m ∧ sum = start + m ∧ InInt64 sum

/-- Where there is an exact sum it is stored and the reply; otherwise the reply is an error and
nothing changes. -/
structure Counts (db : Hashmap) (key : Value) (c : Counting) : Prop where
  exact' : ∀ sum, ExactSum db key.bytes c sum → ∃ w : Write,
    answerTo way shards numDbs env db (c.args key) = some (storeAt db key.bytes ⟨decimalInt sum, 0⟩, w) ∧
      w.text = asciiBytes ":" ++ decimalInt sum ++ crlf
  fails : (∀ sum, ¬ ExactSum db key.bytes c sum) → ∃ msg,
    answerTo way shards numDbs env db (c.args key) = some (db, writeSimpleGenericError msg)

end

/-! ### What the code does -/

/-- `try_modify_counter` and the reply to it, whatever it returns. -/
def counted (db : Hashmap) (key : Bytes) (delta : Size) : Hashmap × Write :=
  match counter (storedAt db key) with
  | none => (db, writeInteger 0)
  | some val => (storeAt db key (counterText (val + delta)), writeInteger (val + delta))

theorem modifyCounter_counted (db : Hashmap) (key : Bytes) (delta : Size) :
    ((modifyCounter db key (hashmapXxhash3 key 0 0) delta).1,
      cmdResp (modifyCounter db key (hashmapXxhash3 key 0 0) delta).2) = counted db key delta := by
  rw [modifyCounter, tryModifyCounter_eq, counted, storedAt]
  cases counter (hashmapGetWithHash db key (hashmapXxhash3 key 0 0)) <;> rfl

section

variable {way : Execution} {shards : ℕ} {numDbs : Size} {env : Env} {db : Hashmap} {key : Value}
  {c : Counting}

/-- The messages bring the command and its result across unchanged. -/
theorem execute_eq (op : Op) (key : Bytes) : way.execute db op key =
    ((cmdExec op db key (hashmapXxhash3 key 0 0)).1,
      cmdResp (cmdExec op db key (hashmapXxhash3 key 0 0)).2) := by
  cases way with
  | inline => rfl
  | dispatched => simp [Execution.execute]

/-- A request whose argument is refused. -/
theorem answerTo_refused (way : Execution) (shards : ℕ) (numDbs : Size) (env : Env) (db : Hashmap)
    (key : Value) (refused : c.taken = none) : ∃ msg,
    answerTo way shards numDbs env db (c.args key) = some (db, writeSimpleGenericError msg) := by
  -- `INCRBY` and `DECRBY` refuse their argument with an error of their own
  have failed (op : Size → Op) (delta : Value) (none' : Counting.accepted delta = none) : ∃ msg,
      cmdDelta op key.bytes delta = .reply (writeSimpleGenericError msg) := by
    rw [Counting.accepted] at none'
    unfold cmdDelta
    cases read : tryParseSignedInteger delta with
    | none => exact ⟨_, rfl⟩
    | some res =>
      -- it was read, but a negative delta is refused as well
      have negative : res.toInt < 0 := by simpa [read, Option.filter] using none'
      exact ⟨_, if_pos negative⟩
  have reply {msg : Bytes} (handled : handleCommand shards numDbs env (c.args key) =
      .reply (writeSimpleGenericError msg)) :
      answerTo way shards numDbs env db (c.args key) = some (db, writeSimpleGenericError msg) := by
    rw [answerTo, handled, Execution.carryOut]
  cases c with
  | incr | decr => cases refused
  | incrby delta =>
    obtain ⟨msg, failed⟩ := failed .incrby delta refused
    exact ⟨msg, reply failed⟩
  | decrby delta =>
    obtain ⟨msg, failed⟩ := failed .decrby delta (by simpa [Counting.taken] using refused)
    exact ⟨msg, reply failed⟩

/-- Any other request, whatever is stored. -/
theorem answerTo_taken (way : Execution) (shards : ℕ) (numDbs : Size) (env : Env) (db : Hashmap)
    (key : Value) {delta : Size} (taken : c.taken = some delta) :
    answerTo way shards numDbs env db (c.args key) = some (counted db key.bytes delta) := by
  have keyed {op : Op} (handled : handleCommand shards numDbs env (c.args key) = .keyed op key.bytes)
      (counts : cmdExec op db key.bytes (hashmapXxhash3 key.bytes 0 0) =
        modifyCounter db key.bytes (hashmapXxhash3 key.bytes 0 0) delta) :
      answerTo way shards numDbs env db (c.args key) = some (counted db key.bytes delta) := by
    rw [answerTo, handled, Execution.carryOut, execute_eq, counts, modifyCounter_counted]
  -- a delta that is accepted goes on to the key
  have passed (op : Size → Op) {arg : Value} {m : Size} (some' : Counting.accepted arg = some m) :
      cmdDelta op key.bytes arg = .keyed (op m) key.bytes := by
    obtain ⟨read, positive⟩ := Option.filter_eq_some_iff.mp some'
    have positive : ¬ m.toInt < 0 := by simpa using positive
    simp only [cmdDelta, read, if_neg positive]
  cases c with
  | incr | decr =>
    cases taken
    exact keyed rfl rfl
  | incrby arg => exact keyed (passed .incrby taken) rfl
  | decrby arg =>
    obtain ⟨m, some', rfl⟩ := Option.map_eq_some_iff.mp taken
    exact keyed (passed .decrby some') rfl

/-! ### Texts of numbers -/

theorem accepted_eq_none_iff {delta : Value} :
    Counting.accepted delta = none ↔ Counting.RefusedText delta := by
  by_cases empty : delta.bytes = []
  · -- without a byte, the byte behind the argument decides
    have read : tryParseSignedInteger delta =
        if delta.past = minus ∨ delta.past = plus then none else some 0 := by
      rw [tryParseSignedInteger, empty]
    unfold Counting.accepted Counting.RefusedText
    rw [read]
    split <;> simp [*]
  · have text {sign digits : Bytes} (isSign : sign ∈ signs) (is : delta.bytes = sign ++ digits)
        (areDigits : ∀ d ∈ digits, IsDigit d) : Counting.accepted delta = none ↔
          (signed sign (decimalValue digits)).bmod (2 ^ 64) < 0 := by
      have read := tryParse_text delta.past isSign areDigits (is ▸ empty)
      rw [← is] at read
      simp [Counting.accepted, read, parsed_eq, BitVec.toInt_ofInt]
    constructor
    · intro none'
      exact ⟨fun other => absurd other empty,
        fun _ sign isSign digits is areDigits => (text isSign is areDigits).mp none'⟩
    · intro refused
      cases read : tryParseSignedInteger delta with
      | none => simp [Counting.accepted, read]
      | some res =>
        obtain ⟨sign, isSign, digits, is, areDigits, -⟩ := text_of_tryParse read
        exact (text isSign is areDigits).mpr (refused.2 empty sign isSign digits is areDigits)

theorem taken_eq_none_iff : c.taken = none ↔ c.Refused := by
  cases c with
  | incr | decr => simp [Counting.taken, Counting.Refused]
  | incrby delta => exact accepted_eq_none_iff
  | decrby delta => exact Option.map_eq_none_iff.trans accepted_eq_none_iff

theorem accepted_deltaText {delta : Value} {m : ℤ} (text : Counting.DeltaText delta m) :
    Counting.accepted delta = some (BitVec.ofInt 64 m) := by
  obtain ⟨text, positive, fits⟩ := text
  have read := tryParse_intText text
  simp [Counting.accepted, read, toInt_ofInt_of_inInt64 fits, positive]

theorem taken_adds {m : ℤ} (adds : c.Adds m) : c.taken = some (BitVec.ofInt 64 m) := by
  cases c with
  | incr | decr =>
    cases adds
    rfl
  | incrby delta => exact accepted_deltaText adds
  | decrby delta =>
    rw [Counting.taken, accepted_deltaText adds, Option.map_some, ← BitVec.ofInt_neg, neg_neg]

theorem counter_stands {start : ℤ} {val : Option Value} (stands : Stands start val) :
    counter val = some (BitVec.ofInt 64 start) := by
  cases val with
  | none =>
    cases stands
    rfl
  | some val => exact tryParse_intText stands.1

/-! ### Counters -/

theorem answerTo_exactSum (way : Execution) (shards : ℕ) (numDbs : Size) (env : Env)
    {sum : ℤ} (exact' : ExactSum db key.bytes c sum) : ∃ w : Write,
    answerTo way shards numDbs env db (c.args key) = some (storeAt db key.bytes ⟨decimalInt sum, 0⟩, w) ∧
      w.text = asciiBytes ":" ++ decimalInt sum ++ crlf := by
  obtain ⟨start, m, stands, adds, rfl, fits⟩ := exact'
  have sum : BitVec.ofInt 64 start + BitVec.ofInt 64 m = BitVec.ofInt 64 (start + m) :=
    (BitVec.ofInt_add start m).symm
  refine ⟨writeInteger (BitVec.ofInt 64 (start + m)), ?_, ?_⟩
  · rw [answerTo_taken way shards numDbs env db key (taken_adds adds), counted, counter_stands stands]
    simp only [sum, counterText, toInt_ofInt_of_inInt64 fits]
  · rw [writeInteger, toInt_ofInt_of_inInt64 fits]

/-- Once the argument has passed, the reply is an integer. -/
theorem not_counts {delta : Size} (taken : c.taken = some delta)
    (noSum : ∀ sum, ¬ ExactSum db key.bytes c sum) : ¬ Counts way shards numDbs env db key c := by
  intro counts
  obtain ⟨msg, error⟩ := counts.fails noSum
  rw [answerTo_taken way shards numDbs env db key taken, Option.some.injEq, counted] at error
  -- a counter that cannot be read, and one that can
  split at error
  all_goals
    have reply := congrArg (fun answer => answer.2.text.head?) error
    simp [writeInteger, writeSimpleGenericError, writeSimpleError, asciiBytes] at reply

/-- The failures that are reported are those of the argument: `try_modify_counter` returns false
to nobody, and its sum may wrap. -/
theorem counts_iff (way : Execution) (shards : ℕ) (numDbs : Size) (env : Env) (db : Hashmap)
    (key : Value) (c : Counting) :
    Counts way shards numDbs env db key c ↔ c.Refused ∨ ∃ sum, ExactSum db key.bytes c sum := by
  constructor
  · intro counts
    by_contra neither
    obtain ⟨notRefused, noSum⟩ := not_or.mp neither
    obtain ⟨delta, taken⟩ := Option.ne_none_iff_exists'.mp (mt taken_eq_none_iff.mp notRefused)
    exact not_counts taken (fun sum exact' => noSum ⟨sum, exact'⟩) counts
  · intro condition
    refine ⟨fun sum => answerTo_exactSum way shards numDbs env, fun noSum => ?_⟩
    rcases condition with refused | ⟨sum, exact'⟩
    · exact answerTo_refused way shards numDbs env db key (taken_eq_none_iff.mpr refused)
    · exact absurd exact' (noSum sum)

end

/-- `INCR` of a value that is no number replies with the integer zero. -/
theorem incr_text_zero : ¬ ∀ way shards numDbs env db key c,
    Counts way shards numDbs env db key c := by
  intro claimed
  refine not_counts (c := .incr) rfl ?_ (claimed .inline 1 16 ⟨false, 0⟩
    (storeAt hashmapNew [] ⟨asciiBytes "abc", 0⟩) ⟨[], 0⟩ .incr)
  rintro sum ⟨start, m, stands, -⟩
  have unread : counter (some ⟨asciiBytes "abc", 0⟩) = none := by decide
  have read := counter_stands stands
  rw [storedAt, storeAt, hashmapGetWithHash_put, unread] at read
  cases read

end GhettoRedis.Commands
