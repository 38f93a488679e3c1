import GhettoRedis.Commands.Store
import GhettoRedis.Lib.Linearization
import GhettoRedis.Protocol.Encoding

/-!
# One key as a register

What the keyed commands do to the value of a single key, and that the store does this to the
entry of the key and leaves all others alone.
-/
namespace GhettoRedis.Commands

open Lib Protocol

/-- The number at which a counter stands; a missing one stands at zero. -/
def counter : Option Value → Option Size
  | none => some 0
  | some val => tryParseSignedInteger val

/-- A value that is no number stays as it is, and the reply is zero. -/
def raise (delta : Size) (stored : Option Value) : Option Value × Write :=
  match counter stored with
  | none => (stored, writeInteger 0)
  | some val => (some (counterText (val + delta)), writeInteger (val + delta))

/-- What a command does to the value of its key, and its reply. -/
def register (stored : Option Value) : Op → Option Value × Write
  | .get =>
    match stored with
    | none => (none, writeNullBulkString)
    | some val => (some val, writeBulkString val.bytes)
  | .set val => (some val, writeSimpleString (asciiBytes "OK") 2)
  | .del => (none, writeInteger (if stored.isSome then 1 else 0))
  | .dispatchPing shardId => (stored, writeInteger shardId)
  | .incr => raise 1 stored
  | .decr => raise (-1) stored
  | .incrby delta => raise delta stored
  | .decrby delta => raise (-delta) stored

/-! ### Entries of the store -/

section Store

variable {map : Hashmap} {key : Bytes} {hash : Size}

@[simp] theorem hashmapGetWithHash_put (val : Option Value) :
    hashmapGetWithHash (map.put key hash val) key hash = val := by
  simp [hashmapGetWithHash, Hashmap.put]

theorem hashmapGetWithHash_put_of_ne {key' : Bytes} {hash' : Size} (other : key' ≠ key)
    (val : Option Value) :
    hashmapGetWithHash (map.put key hash val) key' hash' = hashmapGetWithHash map key' hash' := by
  simp [hashmapGetWithHash, Hashmap.put, other]

theorem tryModifyCounter_eq (delta : Size) : tryModifyCounter map key hash delta =
    match counter (hashmapGetWithHash map key hash) with
    | none => (map, none)
    | some val => (map.put key hash (some (counterText (val + delta))), some (val + delta)) := by
  unfold tryModifyCounter counter
  cases hashmapGetWithHash map key hash <;> rfl

theorem modifyCounter_raise (delta : Size) :
    (hashmapGetWithHash (modifyCounter map key hash delta).1 key hash,
      cmdResp (modifyCounter map key hash delta).2) =
        raise delta (hashmapGetWithHash map key hash) := by
  rw [modifyCounter, tryModifyCounter_eq, raise]
  cases counter (hashmapGetWithHash map key hash) with
  | none => rfl
  | some val => simp [cmdResp]

/-- A command does to the entry of its key what it does to a register. -/
theorem cmdExec_register (map : Hashmap) (key : Bytes) (hash : Size) (op : Op) :
    (hashmapGetWithHash (cmdExec op map key hash).1 key hash, cmdResp (cmdExec op map key hash).2) =
      register (hashmapGetWithHash map key hash) op := by
  cases op with
  | get => cases found : hashmapGetWithHash map key hash <;> simp [cmdExec, register, found, cmdResp]
  | set val => simp [cmdExec, register, hashmapSetWithHash, cmdResp]
  | del => exact Prod.ext (hashmapGetWithHash_put none) rfl
  | dispatchPing => rfl
  | incr | decr | incrby | decrby => exact modifyCounter_raise _

theorem cmdExec_other (map : Hashmap) (hash hash' : Size) {key' : Bytes} (other : key' ≠ key) (op : Op) :
    hashmapGetWithHash (cmdExec op map key hash).1 key' hash' =
      hashmapGetWithHash map key' hash' := by
  have raised (delta : Size) : hashmapGetWithHash (modifyCounter map key hash delta).1 key' hash' =
      hashmapGetWithHash map key' hash' := by
    rw [modifyCounter, tryModifyCounter_eq]
    cases counter (hashmapGetWithHash map key hash) with
    | none => rfl
    | some val => exact hashmapGetWithHash_put_of_ne other _
  cases op with
  | get | dispatchPing => rfl
  | set | del => exact hashmapGetWithHash_put_of_ne other _
  | incr | decr | incrby | decrby => exact raised _

end Store

/-! ### Counters -/

/-- The loop over digits reads their number, as far as it fits a word. -/
theorem parseDigits_digits {digits : Bytes} (areDigits : ∀ d ∈ digits, IsDigit d) (read : ℕ) :
    parseDigits digits (BitVec.ofNat 64 read) = some (BitVec.ofNat 64 (valueFrom read digits)) := by
  induction digits generalizing read with
  | nil => rfl
  | cons d digits ih =>
    obtain ⟨isDigit, rest⟩ := List.forall_mem_cons.mp areDigits
    have next : BitVec.ofNat 64 read * 10 + digitOf d =
        BitVec.ofNat 64 (read * 10 + digitValue d) := by
      apply BitVec.eq_of_toNat_eq
      simp [BitVec.toNat_add, BitVec.toNat_mul, digitOf_toNat]
    rw [parseDigits, if_pos isDigit, next, ih rest]
    rfl

theorem parseDigits_decimal (m : ℕ) : parseDigits (decimal m) 0 = some (BitVec.ofNat 64 m) := by
  have value : valueFrom 0 (decimal m) = m := decimalValue_decimal m
  have parsed := parseDigits_digits (isDigit_decimal m) 0
  rwa [value] at parsed

/-- A counter reads back what it has written. -/
theorem counter_counterText (val : Size) : counter (some (counterText val)) = some val := by
  rw [counter, counterText, tryParseSignedInteger]
  cases is : val.toInt with
  | ofNat m =>
    have number : BitVec.ofNat 64 m = val := by
      rw [← BitVec.ofInt_toInt (x := val), is]
      rfl
    have digits := isDigit_decimal m
    rw [decimalInt, ← number, ← parseDigits_decimal]
    cases text : decimal m with
    | nil => exact absurd text (decimal_ne_nil m)
    | cons d rest =>
      -- the first byte is a digit and no sign
      have isDigit := digits d (text ▸ List.mem_cons_self)
      have unsigned : d ≠ minus ∧ d ≠ plus := by
        constructor <;>
        · rintro rfl
          revert isDigit
          decide
      simp only [if_neg unsigned.1, if_neg unsigned.2]
  | negSucc m =>
    have number : -BitVec.ofNat 64 (m + 1) = val := by
      rw [← BitVec.ofInt_toInt (x := val), is, Int.negSucc_eq, BitVec.ofInt_neg]
      rfl
    simp only [decimalInt, ← number]
    rw [if_pos (show (45 : UInt8) = minus from rfl), parseDigits_decimal, Option.map_some]

theorem toInt_add_ofNat {val : Size} {k : ℕ} (fits : val.toInt + k < 2 ^ 63) :
    (val + BitVec.ofNat 64 k).toInt = val.toInt + k := by
  have low := BitVec.le_toInt val
  rw [BitVec.toInt_add, BitVec.toInt_ofNat', Int.add_bmod_bmod, Int.bmod_eq_of_le] <;> omega

/-- Each `INCR` raises the counter by one. -/
theorem counter_final {ι : Type} {order : List (Operation ι Op Write)} {stored : Option Value}
    {val : Size} (incr : ∀ o ∈ order, o.op = .incr) (stands : counter stored = some val) :
    counter (final register stored order) = some (val + BitVec.ofNat 64 order.length) := by
  induction order generalizing stored val with
  | nil => simpa [final] using stands
  | cons o order ih =>
    obtain ⟨first, rest⟩ := List.forall_mem_cons.mp incr
    have raised : counter (register stored o.op).1 = some (val + 1) := by
      rw [first, register, raise, stands]
      exact counter_counterText _
    have sum : val + 1 + BitVec.ofNat 64 order.length =
        val + BitVec.ofNat 64 (order.length + 1) := by
      rw [BitVec.add_assoc, Nat.add_comm order.length 1, BitVec.ofNat_add]
      rfl
    rw [List.length_cons, ← sum]
    exact ih rest raised

end GhettoRedis.Commands
