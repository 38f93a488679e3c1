import Mathlib.Data.Nat.Log
import GhettoRedis.Lib.Word

/-!
# Decimal texts

Printing and reading of numbers as ASCII digits, with the printed text as the
canonical one: reading it back gives the number.
-/
namespace GhettoRedis.Lib

def IsDigit (b : UInt8) : Prop := 48 ≤ b ∧ b ≤ 57

instance (b : UInt8) : Decidable (IsDigit b) := inferInstanceAs (Decidable (_ ∧ _))

/-- A text is checked byte by byte. -/
theorem isDigit_of_all {digits : Bytes} (all : digits.all (IsDigit ·) = true) :
    ∀ d ∈ digits, IsDigit d := by
  simpa using all

def digitValue (b : UInt8) : ℕ := b.toNat - 48

/-- The number that the digits make behind those already read. -/
def valueFrom (read : ℕ) (digits : Bytes) : ℕ :=
  digits.foldl (fun v d => v * 10 + digitValue d) read

/-- The number that a text of digits denotes. -/
def decimalValue (digits : Bytes) : ℕ := valueFrom 0 digits

def digitByte (n : ℕ) : UInt8 := UInt8.ofNat (48 + n)

/-- The last digit of `n` after those of `n / 10`; `fuel` bounds their number. -/
def decimalDigits : (fuel : ℕ) → ℕ → Bytes
  | 0, n => [digitByte (n % 10)]
  | fuel + 1, n =>
    if n < 10 then [digitByte n] else decimalDigits fuel (n / 10) ++ [digitByte (n % 10)]

/-- `%zu` -/
def decimal (n : ℕ) : Bytes := decimalDigits n n

/-- `%ld` -/
def decimalInt : Int → Bytes
  | .ofNat n => decimal n
  | .negSucc n => 45 :: decimal (n + 1)

theorem isDigit_iff {d : UInt8} : IsDigit d ↔ ¬ (d < 48 ∨ 57 < d) := by
  rw [IsDigit, not_or, UInt8.not_lt, UInt8.not_lt]

theorem IsDigit.value_lt {d : UInt8} (isDigit : IsDigit d) : digitValue d < 10 := by
  have := UInt8.le_iff_toNat_le.mp isDigit.2
  simp only [digitValue, UInt8.reduceToNat] at *
  omega

theorem digitByte_toNat {n : ℕ} (small : n < 10) : (digitByte n).toNat = 48 + n := by
  rw [digitByte, UInt8.toNat_ofNat', Nat.mod_eq_of_lt (by omega)]

theorem digitValue_digitByte {n : ℕ} (small : n < 10) : digitValue (digitByte n) = n := by
  rw [digitValue, digitByte_toNat small]
  omega

theorem isDigit_digitByte {n : ℕ} (small : n < 10) : IsDigit (digitByte n) := by
  have value := digitByte_toNat small
  constructor <;> rw [UInt8.le_iff_toNat_le] <;> simp only [value, UInt8.reduceToNat] <;> omega

theorem decimalValue_concat (digits : Bytes) (d : UInt8) :
    decimalValue (digits ++ [d]) = decimalValue digits * 10 + digitValue d := by
  simp [decimalValue, valueFrom]

theorem le_valueFrom (read : ℕ) (digits : Bytes) : read ≤ valueFrom read digits := by
  induction digits generalizing read with
  | nil => exact Nat.le_refl _
  | cons d digits ih =>
    have rest : read * 10 + digitValue d ≤ valueFrom read (d :: digits) := ih _
    omega

theorem decimalValue_prefix_le {p digits : Bytes} (isPrefix : p <+: digits) :
    decimalValue p ≤ decimalValue digits := by
  obtain ⟨rest, rfl⟩ := isPrefix
  induction rest using List.reverseRecOn with
  | nil => simp
  | append_singleton rest d ih =>
    rw [← List.append_assoc, decimalValue_concat]
    omega

theorem isDigit_decimalDigits (fuel n : ℕ) : ∀ d ∈ decimalDigits fuel n, IsDigit d := by
  induction fuel generalizing n with
  | zero =>
    intro d member
    obtain rfl := List.mem_singleton.mp member
    exact isDigit_digitByte (Nat.mod_lt _ (by decide))
  | succ fuel ih =>
    intro d member
    rw [decimalDigits] at member
    split at member
    next small =>
      obtain rfl := List.mem_singleton.mp member
      exact isDigit_digitByte small
    next =>
      rcases List.mem_append.mp member with front | last
      · exact ih (n / 10) d front
      · obtain rfl := List.mem_singleton.mp last
        exact isDigit_digitByte (Nat.mod_lt _ (by decide))

theorem isDigit_decimal (n : ℕ) : ∀ d ∈ decimal n, IsDigit d := isDigit_decimalDigits n n

theorem decimalValue_decimalDigits (fuel n : ℕ) (enough : n ≤ fuel) :
    decimalValue (decimalDigits fuel n) = n := by
  have single {m : ℕ} (small : m < 10) : decimalValue [digitByte m] = m := by
    simpa [decimalValue, valueFrom] using digitValue_digitByte small
  induction fuel generalizing n with
  | zero =>
    obtain rfl : n = 0 := by omega
    exact single (by decide)
  | succ fuel ih =>
    rw [decimalDigits]
    split
    next small => exact single small
    next =>
      rw [decimalValue_concat, ih (n / 10) (by omega),
        digitValue_digitByte (Nat.mod_lt _ (by decide))]
      omega

@[simp] theorem decimalValue_decimal (n : ℕ) : decimalValue (decimal n) = n :=
  decimalValue_decimalDigits n n (Nat.le_refl n)

theorem decimal_ne_nil (n : ℕ) : decimal n ≠ [] := by
  unfold decimal
  cases n with
  | zero => simp [decimalDigits]
  | succ n => rw [decimalDigits]; split <;> simp

theorem decimalDigits_length_pos (fuel n : ℕ) : 0 < (decimalDigits fuel n).length := by
  cases fuel with
  | zero => simp [decimalDigits]
  | succ fuel => rw [decimalDigits]; split <;> simp

theorem decimalDigits_length_le_iff (fuel n k : ℕ) (enough : n ≤ fuel) :
    (decimalDigits fuel n).length ≤ k + 1 ↔ n < 10 ^ (k + 1) := by
  induction fuel generalizing n k with
  | zero =>
    obtain rfl : n = 0 := by omega
    have power : 0 < 10 ^ (k + 1) := Nat.pow_pos (by decide)
    simp [decimalDigits, power]
  | succ fuel ih =>
    have power : 0 < 10 ^ k := Nat.pow_pos (by decide)
    rw [decimalDigits]
    split
    next small =>
      simp only [List.length_singleton]
      omega
    next large =>
      have pos := decimalDigits_length_pos fuel (n / 10)
      rw [List.length_append, List.length_singleton]
      cases k with
      | zero => omega
      | succ k =>
        -- the last digit is taken off
        have front := ih (n / 10) k (by omega)
        rw [Nat.pow_succ 10 (k + 1)]
        omega

/-- How many digits a number has. -/
theorem decimal_length_le_iff (n k : ℕ) : (decimal n).length ≤ k + 1 ↔ n < 10 ^ (k + 1) :=
  decimalDigits_length_le_iff n n k (Nat.le_refl n)

theorem decimal_length (n : ℕ) : (decimal n).length = Nat.log 10 n + 1 := by
  have pos : 0 < (decimal n).length := decimalDigits_length_pos n n
  apply Nat.le_antisymm
  · exact (decimal_length_le_iff n _).mpr (Nat.lt_pow_succ_log_self (by decide) n)
  · -- as many digits hold every number up to this one
    obtain ⟨k, is⟩ : ∃ k, (decimal n).length = k + 1 := ⟨_, (Nat.succ_pred_eq_of_pos pos).symm⟩
    have below := (decimal_length_le_iff n k).mp is.le
    rw [is]
    exact Nat.log_lt_of_lt_pow' (Nat.succ_ne_zero k) below

end GhettoRedis.Lib
