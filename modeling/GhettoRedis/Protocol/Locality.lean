import Mathlib.Data.List.TakeWhile
import GhettoRedis.Protocol.Grammar
import GhettoRedis.Protocol.Inline

/-!
# What the parsers read

`respIn` is the parse of an array as far as the window alone decides it. It is undecided where
the digits of a number run up to the end of the window, since the byte behind it is read, and
where the end of a bulk string wraps around the end of memory for some places of the window and
not for others.
-/
namespace GhettoRedis.Protocol

open Lib

/-! ### The parse of a window -/

variable {mem : Mem} {stop cur res : Size} {rest digits : Bytes} {behind : UInt8}

/-! ### Numbers -/

/-- Digits of a number that is too large. -/
theorem numberLoop_overflow {fuel : ℕ} (stands : At mem cur digits) (are : ∀ d ∈ digits, IsDigit d)
    (enough : digits.length ≤ fuel) (large : 2 ^ 64 ≤ valueFrom res.toNat digits) :
    numberLoop mem fuel cur res = .error .error := by
  induction digits generalizing cur res fuel with
  | nil =>
    have := res.isLt
    -- what was read so far is a word
    simp only [valueFrom, List.foldl_nil] at large
    omega
  | cons d digits ih =>
    obtain ⟨here, stands⟩ := at_cons.mp stands
    have isDigit := are d List.mem_cons_self
    obtain ⟨fuel, rfl⟩ : ∃ fuel', fuel = fuel' + 1 := ⟨fuel - 1, by simp at enough; omega⟩
    by_cases fits : res.toNat * 10 + digitValue d < 2 ^ 64
    · have value : (BitVec.ofNat 64 (res.toNat * 10 + digitValue d)).toNat =
          res.toNat * 10 + digitValue d := by
        rw [BitVec.toNat_ofNat, Nat.mod_eq_of_lt fits]
      -- the overflow comes at a later digit
      rw [numberLoop_digit isDigit here fits]
      apply ih stands (fun d member => are d (List.mem_cons_of_mem _ member)) (by simpa using enough)
      rw [value]
      exact large
    · -- it is this digit that the check refuses
      rw [numberLoop, here, if_neg (ne_cr_of_isDigit isDigit), if_neg (isDigit_iff.mp isDigit),
        if_pos ((guard_iff isDigit.value_lt).mpr (Nat.le_of_not_lt fits))]

/-- The offset and the length of a slice, as `CmdArgs` holds them. -/
def slot (s : ℕ × ℕ) : Slice := ⟨BitVec.ofNat 64 s.1, BitVec.ofNat 64 s.2⟩

section Window

variable {b : RecvBuf} {window : Bytes} {q last : ℕ}

/-- What is compared of two results: all but `args->buf`. -/
def verdict (result : Except ParseError CmdArgs) : Except ParseError (Size × Size × List Slice) :=
  result.map fun args => (args.argc, args.len, args.slices)

end Window

/-! ### Two connections with one window -/

section Placed

variable {window : Bytes} (fits : window.length ≤ messageMaxLength)

end Placed

end GhettoRedis.Protocol
