import GhettoRedis.Protocol.Locality

/-!
# Numbers in a window

`parse_number` on digits with their CR and one more byte in the window: the exact value, or an
error for a number above `SIZE_MAX`, and no sum above it on the way.
-/
namespace GhettoRedis.Protocol

open Lib

/-- What `parse_number` returns, and `*cur` and `*result` behind it; an error writes neither. -/
def numberResult (mem : Mem) (cur stop result : Size) : Option ParseError × Size × Size :=
  match parseNumber mem cur stop with
  | .error e => (some e, cur, result)
  | .ok (p, res) => (none, p, res)

/-- The sums `res * 10 + digit` that the loop calculates, as they are without overflow. -/
def numberSums (mem : Mem) : (fuel : ℕ) → (p res : Size) → List ℕ
  | 0, _, _ => []
  | fuel + 1, p, res =>
    if mem p = cr then []
    else if mem p < 48 ∨ 57 < mem p then []
    else if (sizeMax - digitOf (mem p)) / 10 < res then []
    else
      (res.toNat * 10 + digitValue (mem p)) ::
        numberSums mem fuel (p + 1) (res * 10 + digitOf (mem p))

variable {mem : Mem} {stop cur res : Size} {digits rest : Bytes}

/-- The guard lets no sum through that does not fit, whatever the window holds. -/
theorem numberSums_le (mem : Mem) (fuel : ℕ) (p res : Size) :
    ∀ v ∈ numberSums mem fuel p res, v ≤ sizeMax.toNat := by
  induction fuel generalizing p res with
  | zero => simp [numberSums]
  | succ fuel ih =>
    rw [numberSums]
    split
    next => simp
    next =>
      split
      next => simp
      next isDigit =>
        have isDigit : IsDigit (mem p) := isDigit_iff.mpr isDigit
        split
        next => simp
        next guard =>
          -- the check before the sum keeps it in range
          rw [guard_iff isDigit.value_lt] at guard
          have max : sizeMax.toNat = 2 ^ 64 - 1 := rfl
          exact List.forall_mem_cons.mpr ⟨by omega, ih _ _⟩

/-- The loop stops at the CR behind digits whose number fits. -/
theorem numberLoop_cr (areDigits : ∀ d ∈ digits, IsDigit d) (stands : At mem cur (digits ++ cr :: rest))
    (fits : decimalValue digits < 2 ^ 64) {fuel : ℕ} (enough : digits.length < fuel) :
    numberLoop mem fuel cur 0 =
      .ok (cur + BitVec.ofNat 64 digits.length, BitVec.ofNat 64 (decimalValue digits)) := by
  obtain ⟨inDigits, behind⟩ := at_append.mp stands
  rw [show fuel = (fuel - digits.length - 1 + 1) + digits.length by omega,
    numberLoop_start inDigits areDigits fits, numberLoop, if_pos (at_cons.mp behind).1]

/-- Any digits, also none, with a CR and one more byte inside the window. -/
theorem parse_number_exact {skipped : UInt8} (result : Size) (areDigits : ∀ d ∈ digits, IsDigit d)
    (stands : At mem cur (digits ++ cr :: skipped :: rest))
    (ends : cur.toNat + (digits ++ cr :: skipped :: rest).length = stop.toNat) :
    (decimalValue digits ≤ sizeMax.toNat → ∃ p res : Size,
      numberResult mem cur stop result = (none, p, res) ∧
        p.toNat = cur.toNat + digits.length + 2 ∧ res.toNat = decimalValue digits) ∧
    (sizeMax.toNat < decimalValue digits →
      numberResult mem cur stop result = (some .error, cur, result)) ∧
    ∀ v ∈ numberSums mem (stop.toNat + 1 - cur.toNat) cur 0, v ≤ sizeMax.toNat := by
  have max : sizeMax.toNat = 2 ^ 64 - 1 := rfl
  have below := stop.isLt
  simp only [List.length_append, List.length_cons] at ends
  refine ⟨fun fits => ?_, fun large => ?_, numberSums_le _ _ _ _⟩
  · have loop := numberLoop_cr areDigits stands (by omega)
      (show digits.length < stop.toNat + 1 - cur.toNat by omega)
    have next : cur + BitVec.ofNat 64 digits.length + 2 = cur + BitVec.ofNat 64 (digits.length + 2) :=
      add_ofNat_add cur digits.length 2
    have advanced : (cur + BitVec.ofNat 64 (digits.length + 2)).toNat =
        cur.toNat + (digits.length + 2) := toNat_add_ofNat (by omega)
    -- the byte behind the CR is still in the window
    have inside : ¬ stop < cur + BitVec.ofNat 64 (digits.length + 2) := by
      rw [BitVec.lt_def, advanced]
      omega
    refine ⟨cur + BitVec.ofNat 64 (digits.length + 2), BitVec.ofNat 64 (decimalValue digits), ?_,
      advanced, ?_⟩
    · simp only [numberResult, parseNumber, loop, next, if_neg inside]
    · rw [BitVec.toNat_ofNat, Nat.mod_eq_of_lt (by omega)]
  · -- the check stops the loop at the digit that would go beyond
    have large' : 2 ^ 64 ≤ valueFrom (0 : Size).toNat digits := by
      change 2 ^ 64 ≤ decimalValue digits
      omega
    have loop : numberLoop mem (stop.toNat + 1 - cur.toNat) cur 0 = .error .error :=
      numberLoop_overflow (at_append.mp stands).1 areDigits (by omega) large'
    simp only [numberResult, parseNumber, loop]

/-- The largest number, in a window that starts at address zero. -/
def largestText : Bytes := asciiBytes "18446744073709551615\r\n"

theorem parse_number_exact_max : ∃ p res : Size,
    numberResult (fun a => largestText.getD a.toNat 0) 0 22 7 = (none, p, res) ∧
      p.toNat = 22 ∧ res.toNat = 2 ^ 64 - 1 := by
  have stands : At (fun a => largestText.getD a.toNat 0) 0
      (asciiBytes "18446744073709551615" ++ cr :: lf :: []) := by
    unfold At
    decide
  exact (parse_number_exact 7 (isDigit_of_all (by decide)) stands (by decide)).1 (by decide)

end GhettoRedis.Protocol
