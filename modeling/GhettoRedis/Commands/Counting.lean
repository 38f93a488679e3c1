import GhettoRedis.Commands.Counters

/-!
# Sequences of counting commands

The replies to them, the numbers that are calculated on the way, and what `sprintf` stores in the
buffer of a new value.
-/
namespace GhettoRedis.Commands

open Lib Protocol

/-! ### Runs -/

/-- A request that counts, wherever it is executed. -/
structure Call where
  way : Execution
  env : Env
  key : Value
  command : Counting

/-- The reply to a call, the values of its signed operations as they are without overflow, and
how many bytes `sprintf` stores. -/
structure Seen where
  reply : Write
  sums : List ℤ
  written : Option ℕ

/-- The signed operations of `CMD_VARS`, and `-delta`. -/
def Counting.argumentSums : Counting → List ℤ
  | incr | decr => []
  | incrby delta => parseSums delta.bytes
  | decrby delta => parseSums delta.bytes ++ (accepted delta).elim [] fun m => [-m.toInt]

/-- Those of `try_modify_counter`, with `val += delta` if it gets there. -/
def modifySums (val : Option Value) (delta : Size) : List ℤ :=
  (val.elim [] fun val => parseSums val.bytes) ++
    (counter val).elim [] fun m => [m.toInt + delta.toInt]

/-- The text of `val` and its NUL. -/
def sprintfBytes (val : Size) : ℕ := (counterText val).bytes.length + 1

namespace Call

def sums (call : Call) (db : Hashmap) : List ℤ :=
  call.command.argumentSums ++
    call.command.taken.elim [] (modifySums (storedAt db call.key.bytes))

def written (call : Call) (db : Hashmap) : Option ℕ :=
  call.command.taken.bind fun delta =>
    (tryModifyCounter db call.key.bytes (hashmapXxhash3 call.key.bytes 0 0) delta).2.map sprintfBytes

def run (shards : ℕ) (numDbs : Size) (call : Call) (db : Hashmap) : Option (Hashmap × Seen) :=
  (answerTo call.way shards numDbs call.env db (call.command.args call.key)).map fun (db', reply) =>
    (db', ⟨reply, call.sums db, call.written db⟩)

end Call

def runCalls (shards : ℕ) (numDbs : Size) : Hashmap → List Call → Option (Hashmap × List Seen)
  | db, [] => some (db, [])
  | db, call :: calls => do
    let (db, seen) ← call.run shards numDbs db
    let (db, rest) ← runCalls shards numDbs db calls
    return (db, seen :: rest)

section

variable {shards : ℕ} {numDbs : Size} {db : Hashmap} {call : Call}

theorem runCalls_cons {calls : List Call} {db₁ db₂ : Hashmap} {seen : Seen} {rest : List Seen}
    (first : call.run shards numDbs db = some (db₁, seen))
    (others : runCalls shards numDbs db₁ calls = some (db₂, rest)) :
    runCalls shards numDbs db (call :: calls) = some (db₂, seen :: rest) := by
  simp [runCalls, first, others]

@[simp] theorem storedAt_storeAt (key : Bytes) (val : Value) : storedAt (storeAt db key val) key = some val :=
  hashmapGetWithHash_put _

theorem storedAt_storeAt_of_ne {key key' : Bytes} (other : key' ≠ key) (val : Value) :
    storedAt (storeAt db key val) key' = storedAt db key' :=
  hashmapGetWithHash_put_of_ne other _

/-! ### Counters that count -/

/-- Within plus or minus 2 ^ 63 - 1. -/
def Symmetric (v : ℤ) : Prop := -(2 ^ 63 - 1) ≤ v ∧ v ≤ 2 ^ 63 - 1

/-- The argument is the canonical text. -/
def Counting.Canonical (m : ℤ) : Counting → Prop
  | incr => m = 1
  | decr => m = -1
  | incrby delta => 0 ≤ m ∧ delta.bytes = decimalInt m
  | decrby delta => m ≤ 0 ∧ delta.bytes = decimalInt (-m)

def CanonicalAt (start : ℤ) : Option Value → Prop
  | none => start = 0
  | some val => val.bytes = decimalInt start

/-- Commands on one key, with what they should add, from an absent or canonical value on. -/
structure CountingRun (db : Hashmap) (key : Bytes) (calls : List Call) (deltas : List ℤ) (start : ℤ) :
    Prop where
  own : ∀ call ∈ calls, call.key.bytes = key
  canonical : List.Forall₂ (fun call m => call.command.Canonical m) calls deltas
  starts : CanonicalAt start (storedAt db key)
  inside : ∀ n ≤ deltas.length, Symmetric (start + (deltas.take n).sum)

/-- The replies are the sums, `GET` afterwards returns the last of them, and nothing overflows. -/
def CountsUp (shards : ℕ) (numDbs : Size) (db : Hashmap) (key : Bytes) (calls : List Call)
    (deltas : List ℤ) (start : ℤ) : Prop :=
  ∃ db' seen, runCalls shards numDbs db calls = some (db', seen) ∧
    seen.length = deltas.length ∧
    (∀ n s, seen[n]? = some s →
      s.reply.text = asciiBytes ":" ++ decimalInt (start + (deltas.take (n + 1)).sum) ++ crlf) ∧
    (calls ≠ [] ∨ storedAt db key ≠ none → ∀ way env past,
      answerTo way shards numDbs env db' [⟨asciiBytes "GET", 0⟩, ⟨key, past⟩] =
        some (db', writeBulkString (decimalInt (start + deltas.sum)))) ∧
    ∀ s ∈ seen, ∀ v ∈ s.sums, InInt64 v

theorem Symmetric.inInt64 {v : ℤ} (small : Symmetric v) : InInt64 v := by
  obtain ⟨low, high⟩ := small
  constructor <;> omega

/-- The sign and the digits of a canonical text. -/
theorem decimalInt_text (v : ℤ) : ∃ sign ∈ signs,
    decimalInt v = sign ++ decimal v.natAbs ∧ signed sign v.natAbs = v := by
  cases v with
  | ofNat m => exact ⟨[], by simp [signs], rfl, by simp [signed]⟩
  | negSucc m =>
    refine ⟨[minus], by simp [signs], rfl, ?_⟩
    rw [signed, if_pos rfl]
    omega

theorem intText_decimalInt (v : ℤ) : IntText (decimalInt v) v := by
  obtain ⟨sign, isSign, text, value⟩ := decimalInt_text v
  exact ⟨sign, isSign, decimal v.natAbs, text, decimal_ne_nil _, isDigit_decimal _, by simp [value]⟩

theorem parseSums_decimalInt {v : ℤ} (small : Symmetric v) : ∀ w ∈ parseSums (decimalInt v), InInt64 w := by
  obtain ⟨sign, isSign, text, -⟩ := decimalInt_text v
  obtain ⟨low, high⟩ := small
  rw [text]
  refine parseSums_inInt64 isSign (isDigit_decimal _) ?_
  rw [decimalValue_decimal]
  omega

theorem adds_canonical {c : Counting} {m : ℤ} (small : Symmetric m) (canonical : c.Canonical m) :
    c.Adds m := by
  have text {delta : Value} {m : ℤ} (positive : 0 ≤ m) (is : delta.bytes = decimalInt m)
      (fits : InInt64 m) : Counting.DeltaText delta m :=
    ⟨is ▸ intText_decimalInt m, positive, fits⟩
  obtain ⟨low, high⟩ := small
  cases c with
  | incr | decr => exact canonical
  | incrby delta => exact text canonical.1 canonical.2 ⟨by omega, by omega⟩
  | decrby delta =>
    obtain ⟨negative, is⟩ := canonical
    exact text (by omega) is ⟨by omega, by omega⟩

theorem stands_canonical {start : ℤ} {val : Option Value} (small : Symmetric start)
    (canonical : CanonicalAt start val) : Stands start val := by
  cases val with
  | none => exact canonical
  | some val => exact ⟨canonical ▸ intText_decimalInt start, small.inInt64⟩

theorem canonicalAt_storeAt (db : Hashmap) (v : ℤ) (key : Bytes) :
    CanonicalAt v (storedAt (storeAt db key ⟨decimalInt v, 0⟩) key) := by
  rw [storedAt_storeAt]
  exact rfl

/-- A call that counts, from one canonical value to the next. -/
theorem run_canonical (shards : ℕ) (numDbs : Size) {start m : ℤ}
    (starts : CanonicalAt start (storedAt db call.key.bytes))
    (canonical : call.command.Canonical m) (from' : Symmetric start) (small : Symmetric m)
    (reached : Symmetric (start + m)) : ∃ seen,
    call.run shards numDbs db = some (storeAt db call.key.bytes ⟨decimalInt (start + m), 0⟩, seen) ∧
      seen.reply.text = asciiBytes ":" ++ decimalInt (start + m) ++ crlf ∧
      ∀ v ∈ seen.sums, InInt64 v := by
  have stands := stands_canonical from' starts
  have adds := adds_canonical small canonical
  have exact' : ExactSum db call.key.bytes call.command (start + m) :=
    ⟨start, m, stands, adds, rfl, reached.inInt64⟩
  obtain ⟨w, answered, text⟩ := answerTo_exactSum call.way shards numDbs call.env exact'
  -- the answer is that of the exact sum; the sums of the parsers remain
  refine ⟨⟨w, call.sums db, call.written db⟩, by simp [Call.run, answered], text, ?_⟩
  have ofArgument {delta : Value} {m : ℤ} (small : Symmetric m) (is : delta.bytes = decimalInt m) :
      ∀ v ∈ parseSums delta.bytes, InInt64 v := is ▸ parseSums_decimalInt small
  intro v mem
  rcases List.mem_append.mp mem with mem | mem
  · -- what the argument is read with
    obtain ⟨low, high⟩ := small
    cases is : call.command with
    | incr | decr => simp [is, Counting.argumentSums] at mem
    | incrby delta =>
      rw [is] at mem canonical
      exact ofArgument ⟨low, high⟩ canonical.2 v mem
    | decrby delta =>
      rw [is] at mem canonical adds
      have small : Symmetric (-m) := ⟨by omega, by omega⟩
      rcases List.mem_append.mp mem with mem | mem
      · exact ofArgument small canonical.2 v mem
      · rw [accepted_deltaText adds] at mem
        -- the negation of the delta
        obtain rfl := List.mem_singleton.mp mem
        rw [toInt_ofInt_of_inInt64 small.inInt64]
        constructor <;> omega
  · -- what the stored value is read with, and the sum itself
    rw [taken_adds adds] at mem
    rcases List.mem_append.mp mem with mem | mem
    · cases found : storedAt db call.key.bytes with
      | none => simp [found] at mem
      | some val =>
        rw [found] at mem starts
        have is : val.bytes = decimalInt start := starts
        exact parseSums_decimalInt from' v (is ▸ mem)
    · rw [counter_stands stands] at mem
      obtain rfl := List.mem_singleton.mp mem
      rw [toInt_ofInt_of_inInt64 from'.inInt64, toInt_ofInt_of_inInt64 small.inInt64]
      exact reached.inInt64

/-- `GET` of a value that is there. -/
theorem answerTo_get (way : Execution) (env : Env) (key : Value) {val : Value}
    (found : storedAt db key.bytes = some val) :
    answerTo way shards numDbs env db [⟨asciiBytes "GET", 0⟩, key] =
      some (db, writeBulkString val.bytes) := by
  have handled : handleCommand shards numDbs env [⟨asciiBytes "GET", 0⟩, key] = .keyed .get key.bytes := rfl
  rw [storedAt] at found
  rw [answerTo, handled, Execution.carryOut, execute_eq, cmdExec, found]
  rfl

/-- Counters count, as long as each delta and each sum is below 2 ^ 63 in absolute value. -/
theorem counters_count (shards : ℕ) (numDbs : Size) {db : Hashmap} {key : Bytes} {calls : List Call}
    {deltas : List ℤ} {start : ℤ} (run : CountingRun db key calls deltas start)
    (small : ∀ m ∈ deltas, Symmetric m) : CountsUp shards numDbs db key calls deltas start := by
  obtain ⟨own, canonical, starts, inside⟩ := run
  -- the number that the key stands at differs from call to call
  induction canonical generalizing db start with
  | nil =>
    refine ⟨db, [], rfl, rfl, by simp, fun some' way env past => ?_, by simp⟩
    cases found : storedAt db key with
    | none => simp [found] at some'
    | some val =>
      rw [found] at starts
      have is : val.bytes = decimalInt start := starts
      simpa [is] using answerTo_get way env ⟨key, past⟩ found
  | @cons call m calls deltas first others ih =>
    obtain ⟨rfl, own⟩ := List.forall_mem_cons.mp own
    obtain ⟨smallFirst, small⟩ := List.forall_mem_cons.mp small
    have from' : Symmetric start := by simpa using inside 0 (Nat.zero_le _)
    have reached : Symmetric (start + m) := by simpa using inside 1 (by simp)
    obtain ⟨seen, stepped, reply, fits⟩ := run_canonical shards numDbs starts first from' smallFirst reached
    -- the rest counts from the new value on
    have starts' := canonicalAt_storeAt db (start + m) call.key.bytes
    have inside' (n : ℕ) (le : n ≤ deltas.length) : Symmetric (start + m + (deltas.take n).sum) := by
      simpa [add_assoc] using inside (n + 1) (by simpa using le)
    obtain ⟨db', rest, ran, length, replies, get, fitRest⟩ := ih small own starts' inside'
    refine ⟨db', seen :: rest, runCalls_cons stepped ran, by simp [length], ?_, ?_, ?_⟩
    · intro n s at'
      cases n with
      | zero =>
        obtain rfl : seen = s := by simpa using at'
        simpa using reply
      | succ n => simpa [add_assoc] using replies n s (by simpa using at')
    · intro _ way env past
      simpa [add_assoc] using get (.inr (by simp)) way env past
    · exact List.forall_mem_cons.mpr ⟨fits, fitRest⟩

end

/-- `INCR` of an absent key and `DECRBY` 3 of it. -/
theorem counters_count_incr_decrby : CountsUp 2 16 hashmapNew (asciiBytes "a")
    [⟨.inline, ⟨false, 0⟩, ⟨asciiBytes "a", 0⟩, .incr⟩,
      ⟨.dispatched, ⟨false, 0⟩, ⟨asciiBytes "a", 0⟩, .decrby ⟨decimalInt 3, 0⟩⟩] [1, -3] 0 := by
  refine counters_count 2 16 ⟨by simp, ?_, rfl, ?_⟩ (by simp [Symmetric])
  · exact .cons rfl (.cons ⟨by decide, rfl⟩ .nil)
  · intro n le
    obtain rfl | rfl | rfl : n = 0 ∨ n = 1 ∨ n = 2 := by
      rw [List.length_cons, List.length_singleton] at le
      omega
    all_goals simp [Symmetric]

/-- `INCRBY` 2 ^ 63 of -1 is refused, although the sum fits. -/
theorem incrby_word_refused : ¬ ∀ shards numDbs db key calls deltas start,
    CountingRun db key calls deltas start → CountsUp shards numDbs db key calls deltas start := by
  intro claimed
  let call : Call := ⟨.inline, ⟨false, 0⟩, ⟨[], 0⟩, .incrby ⟨decimalInt (2 ^ 63), 0⟩⟩
  have refused : call.command.taken = none := by
    have read : tryParseSignedInteger ⟨decimalInt (2 ^ 63), 0⟩ = some (BitVec.ofInt 64 (2 ^ 63)) :=
      tryParse_intText (intText_decimalInt (2 ^ 63))
    rw [Counting.taken, Counting.accepted, read]
    simp
  obtain ⟨db', seen, ran, length, replies, -⟩ := claimed 1 16 (storeAt hashmapNew [] ⟨decimalInt (-1), 0⟩)
    [] [call] [2 ^ 63] (-1) ⟨by simp [call], .cons ⟨by decide, rfl⟩ .nil, canonicalAt_storeAt _ _ _, by
      intro n le
      obtain rfl | rfl : n = 0 ∨ n = 1 := by
        rw [List.length_singleton] at le
        omega
      all_goals simp [Symmetric]⟩
  obtain ⟨msg, error⟩ := answerTo_refused .inline 1 16 ⟨false, 0⟩
    (storeAt hashmapNew [] ⟨decimalInt (-1), 0⟩) ⟨[], 0⟩ refused
  -- the reply is an error and no integer
  simp only [runCalls, Call.run, call] at ran
  rw [error] at ran
  obtain ⟨rfl, rfl⟩ := Prod.mk.inj (Option.some.inj ran)
  have text := congrArg List.head? (replies 0 _ rfl)
  simp [writeSimpleGenericError, writeSimpleError, asciiBytes] at text

/-! ### The buffer of a new value -/

/-- `malloc(20)` -/
def bufferSize : ℕ := 20

/-- What a call adds to the counter of `key`. -/
def Call.addedTo (key : Bytes) (call : Call) : Size :=
  if call.key.bytes = key then call.command.taken.getD 0 else 0

/-- The numbers that the counters of the database come to stay above -10 ^ 18. -/
def StaysAbove (db : Hashmap) (calls : List Call) : Prop :=
  ∀ before call after, calls = before ++ call :: after → ∀ delta start,
    call.command.taken = some delta → counter (storedAt db call.key.bytes) = some start →
    -10 ^ 18 < (start + (before.map (Call.addedTo call.key.bytes)).sum + delta).toInt

/-- Eighteen digits fit behind a minus, nineteen are there at most. -/
theorem sprintfBytes_le_iff (val : Size) : sprintfBytes val ≤ bufferSize ↔ -10 ^ 18 < val.toInt := by
  have high := BitVec.toInt_lt (x := val)
  unfold sprintfBytes counterText bufferSize
  cases is : val.toInt with
  | ofNat m =>
    have digits := decimal_length_le_iff m 18
    simp only [is, decimalInt, Int.ofNat_eq_natCast] at high ⊢
    omega
  | negSucc m =>
    have digits := decimal_length_le_iff (m + 1) 17
    simp only [decimalInt, List.length_cons]
    omega

section

variable {shards : ℕ} {numDbs : Size} {db : Hashmap} {call : Call}

/-- Every call is answered, and it adds to its counter what it should, as far as this can be read. -/
theorem run_counter (shards : ℕ) (numDbs : Size) (db : Hashmap) (call : Call) :
    ∃ db' seen, call.run shards numDbs db = some (db', seen) ∧
    seen.written = call.written db ∧
    ∀ key, counter (storedAt db' key) = (counter (storedAt db key)).map (· + call.addedTo key) := by
  cases taken : call.command.taken with
  -- a refused call leaves the database as it is
  | none =>
    obtain ⟨msg, error⟩ := answerTo_refused call.way shards numDbs call.env db call.key taken
    exact ⟨db, ⟨writeSimpleGenericError msg, call.sums db, call.written db⟩, by simp [Call.run, error], rfl,
      by simp [Call.addedTo, taken]⟩
  | some delta =>
    have answered := answerTo_taken call.way shards numDbs call.env db call.key taken
    refine ⟨(counted db call.key.bytes delta).1, ⟨(counted db call.key.bytes delta).2, call.sums db,
      call.written db⟩, by simp [Call.run, answered], rfl, fun key => ?_⟩
    -- only the key of the call is raised, and only if it held a number
    cases read : counter (storedAt db call.key.bytes) with
    | none =>
      by_cases own : call.key.bytes = key
      · subst own
        simp [counted, read]
      · simp [counted, read, Call.addedTo, own]
    | some start =>
      by_cases own : call.key.bytes = key
      · subst own
        simp [counted, read, Call.addedTo, taken, counter_counterText]
      · simp [counted, read, Call.addedTo, own, storedAt_storeAt_of_ne (Ne.symm own)]

theorem written_iff : (∀ n ∈ call.written db, n ≤ bufferSize) ↔ ∀ delta start,
    call.command.taken = some delta → counter (storedAt db call.key.bytes) = some start →
      -10 ^ 18 < (start + delta).toInt := by
  rw [Call.written]
  cases call.command.taken with
  | none => simp
  | some delta =>
    rw [Option.bind_some, tryModifyCounter_eq, storedAt]
    cases counter (hashmapGetWithHash db call.key.bytes (hashmapXxhash3 call.key.bytes 0 0)) with
    | none => simp
    | some start => simp [sprintfBytes_le_iff]

/-- The first call, and the others from the counters that it leaves. -/
theorem staysAbove_cons {calls : List Call} {db' : Hashmap}
    (raised : ∀ key, counter (storedAt db' key) =
      (counter (storedAt db key)).map (· + call.addedTo key)) :
    StaysAbove db (call :: calls) ↔ (∀ delta start, call.command.taken = some delta →
      counter (storedAt db call.key.bytes) = some start → -10 ^ 18 < (start + delta).toInt) ∧
      StaysAbove db' calls := by
  constructor
  · -- the first call is the prefix that is empty, the others get one call longer
    intro above
    refine ⟨fun delta start taken read => ?_, fun before other after split delta start taken read => ?_⟩
    · simpa using above [] call calls rfl delta start taken read
    · rw [raised] at read
      obtain ⟨old, found, rfl⟩ := Option.map_eq_some_iff.mp read
      have first := above (call :: before) other after (by rw [split]; rfl) delta old taken found
      rwa [List.map_cons, List.sum_cons, ← add_assoc] at first
  · rintro ⟨first, others⟩ before other after split delta start taken read
    cases before with
    | nil =>
      obtain ⟨rfl, rfl⟩ := List.cons.inj split
      simpa using first delta start taken read
    | cons call' before =>
      obtain ⟨rfl, behind⟩ := List.cons.inj split
      rw [List.map_cons, List.sum_cons, ← add_assoc]
      exact others before other after behind delta _ taken (by rw [raised, read, Option.map_some])

/-- The text of a new value fits the buffer exactly where the number stays above -10 ^ 18. -/
theorem buffer_suffices_iff (shards : ℕ) (numDbs : Size) (db : Hashmap) (calls : List Call) :
    ∃ db' seen, runCalls shards numDbs db calls = some (db', seen) ∧
      ((∀ s ∈ seen, ∀ n ∈ s.written, n ≤ bufferSize) ↔ StaysAbove db calls) := by
  induction calls generalizing db with
  | nil => exact ⟨db, [], rfl, by simp [StaysAbove]⟩
  | cons call calls ih =>
    obtain ⟨db₁, seen, stepped, written, raised⟩ :=
      run_counter shards numDbs db call
    obtain ⟨db₂, rest, ran, fits⟩ := ih db₁
    refine ⟨db₂, seen :: rest, runCalls_cons stepped ran, ?_⟩
    rw [List.forall_mem_cons, written, written_iff, fits, staysAbove_cons raised]

end

/-- `DECRBY` 10 ^ 18 of an absent key. -/
def decrbyBillions : Call :=
  ⟨.inline, ⟨false, 0⟩, ⟨[], 0⟩, .decrby ⟨asciiBytes "1000000000000000000", 0⟩⟩

/-- Its text and the NUL are 21 bytes. -/
theorem decrby_overruns : ¬ ∀ shards numDbs db calls, ∃ db' seen,
    runCalls shards numDbs db calls = some (db', seen) ∧ ∀ s ∈ seen, ∀ n ∈ s.written, n ≤ bufferSize := by
  intro claimed
  obtain ⟨db', seen, ran, fits⟩ := claimed 1 16 hashmapNew [decrbyBillions]
  obtain ⟨db₁, first, stepped, written, -⟩ := run_counter 1 16 hashmapNew decrbyBillions
  rw [runCalls_cons stepped rfl] at ran
  obtain ⟨rfl, rfl⟩ := Prod.mk.inj (Option.some.inj ran)
  have fits := fits first List.mem_cons_self
  rw [written, written_iff] at fits
  have value := fits (-1000000000000000000) 0 (by decide) rfl
  revert value
  decide

end GhettoRedis.Commands
