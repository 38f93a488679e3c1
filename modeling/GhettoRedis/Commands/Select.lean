import GhettoRedis.Commands.Handle
import GhettoRedis.Commands.Integers

/-!
# `SELECT`

Which arguments select a database: the digits of its index, but also what `strtoull` finds
in other texts, and nothing at all after an earlier error of the thread.
-/
namespace GhettoRedis.Commands

open Lib Protocol

/-- The text of a database index: digits and nothing else. -/
def DbIndex (numDbs : Size) (arg : Bytes) (v : Size) : Prop :=
  arg ≠ [] ∧ (∀ d ∈ arg, IsDigit d) ∧ decimalValue arg = v.toNat ∧ v < numDbs

/-- `conn->db` behind the command and the reply, where it does no more than reply or select. -/
def selectedDb (db : Size) : Outcome → Option (Size × Write)
  | .reply w => some (db, w)
  | .select v w => some (v, w)
  | _ => none

/-- An index below `num_dbs` is selected; any other argument is an error and changes nothing. -/
structure SelectsExactly (numDbs : Size) (env : Env) (arg : Bytes) : Prop where
  selects : ∀ v, DbIndex numDbs arg v → ∀ db,
    selectedDb db (cmdSelect numDbs env arg) = some (v, ok)
  refuses : (∀ v, ¬ DbIndex numDbs arg v) → ∃ msg, ∀ db,
    selectedDb db (cmdSelect numDbs env arg) = some (db, writeSimpleGenericError msg)

/-- An index with `errno` clear, or no index with `errno` set, a number of 2 ^ 64 or more, or one
that is no index below `num_dbs`. -/
def SelectCondition (numDbs : Size) (env : Env) (arg : Bytes) : Prop :=
  ((∃ v, DbIndex numDbs arg v) ∧ env.errno = false) ∨
    ((∀ v, ¬ DbIndex numDbs arg v) ∧
      (env.errno = true ∨ (strtoull arg).2 = true ∨ numDbs ≤ (strtoull arg).1))

/-! ### Digits -/

/-- There is nothing to skip in front of a digit, and no sign. -/
theorem plain_of_isDigit {d : UInt8} (isDigit : IsDigit d) : ¬ isSpace d ∧ d ≠ 0 := by
  have low := UInt8.le_iff_toNat_le.mp isDigit.1
  refine ⟨?_, ?_⟩
  · rintro (rfl | ⟨-, le⟩)
    · revert low
      decide
    · have high := UInt8.le_iff_toNat_le.mp le
      simp only [UInt8.reduceToNat] at low high
      omega
  · rintro rfl
    revert low
    decide

theorem strtoull_digits {arg : Bytes} (nonempty : arg ≠ []) (areDigits : ∀ d ∈ arg, IsDigit d) :
    strtoull arg = if 2 ^ 64 ≤ decimalValue arg then (sizeMax, true)
      else (BitVec.ofNat 64 (decimalValue arg), false) := by
  -- digits are no NUL, no space and no sign: the whole text is converted
  have whole : cString arg = arg :=
    cString_of_forall fun d mem => (plain_of_isDigit (areDigits d mem)).2
  have number : arg.takeWhile (IsDigit ·) = arg := by
    rw [List.takeWhile_eq_self_iff]
    simpa using areDigits
  cases arg with
  | nil => exact absurd rfl nonempty
  | cons d rest =>
    have isDigit := areDigits d List.mem_cons_self
    have first : (d :: rest).dropWhile (isSpace ·) = d :: rest := by
      rw [List.dropWhile_cons, if_neg (by simpa using (plain_of_isDigit isDigit).1)]
    unfold strtoull
    simp only [whole, first, if_neg (ne_minus_of_isDigit isDigit), if_neg (ne_plus_of_isDigit isDigit),
      number, Bool.false_eq_true, if_false]

/-- The digits of an index give the index. -/
theorem strtoull_dbIndex {numDbs : Size} {arg : Bytes} {v : Size} (index : DbIndex numDbs arg v) :
    strtoull arg = (v, false) := by
  obtain ⟨nonempty, areDigits, value, -⟩ := index
  have small := v.isLt
  rw [strtoull_digits nonempty areDigits, value, if_neg (by omega), BitVec.ofNat_toNat,
    BitVec.setWidth_eq]

/-! ### The command -/

variable {numDbs : Size} {env : Env} {arg : Bytes}

theorem cmdSelect_refused (failed : env.errno = true ∨ (strtoull arg).2 = true ∨ numDbs ≤ (strtoull arg).1) :
    cmdSelect numDbs env arg = .reply invalidDbIndex := by
  unfold cmdSelect
  simp only
  split
  next => rfl
  next noError =>
    have beyond : numDbs ≤ (strtoull arg).1 := by
      rcases failed with set | range | beyond
      · exact absurd (.inl set) noError
      · exact absurd (.inr range) noError
      · exact beyond
    exact if_pos beyond

theorem cmdSelect_selected
    (passed : ¬ (env.errno = true ∨ (strtoull arg).2 = true ∨ numDbs ≤ (strtoull arg).1)) :
    cmdSelect numDbs env arg = .select (strtoull arg).1 ok := by
  obtain ⟨clear, inRange, below⟩ := not_or.mp passed |>.imp id not_or.mp
  unfold cmdSelect
  simp only
  rw [if_neg (not_or.mpr ⟨clear, inRange⟩), if_neg below]

/-- `SELECT` does what it should exactly under its condition: `errno` is left over from earlier
calls, and nobody looks at where `strtoull` stopped. -/
theorem select_exact_iff (numDbs : Size) (env : Env) (arg : Bytes) :
    SelectsExactly numDbs env arg ↔ SelectCondition numDbs env arg := by
  -- whether the text is an index at all
  by_cases isIndex : ∃ v, DbIndex numDbs arg v
  · obtain ⟨v, index⟩ := isIndex
    have read := strtoull_dbIndex index
    have unique : ¬ ∀ v, ¬ DbIndex numDbs arg v := fun none => none v index
    constructor
    · intro exact'
      refine .inl ⟨⟨v, index⟩, ?_⟩
      by_contra set
      have selected := exact'.selects v index 0
      rw [cmdSelect_refused (.inl (by simpa using set))] at selected
      -- the reply of an error is not that of success
      have reply := congrArg (fun r => r.2.text.head?) (Option.some.inj selected)
      simp [invalidDbIndex, ok, writeSimpleGenericError, writeSimpleError, writeSimpleString,
        asciiBytes] at reply
    · intro condition
      have clear : env.errno = false := by
        rcases condition with ⟨-, clear⟩ | ⟨other, -⟩
        · exact clear
        · exact absurd other unique
      refine ⟨fun w other db => ?_, fun other => absurd other unique⟩
      -- two numbers of one text are the same
      have same : w = v := BitVec.eq_of_toNat_eq (other.2.2.1.symm.trans index.2.2.1)
      rw [cmdSelect_selected (by simp [clear, read, index.2.2.2]), selectedDb, read, same]
  · have none := not_exists.mp isIndex
    constructor
    · intro exact'
      -- the text is none, so success would be wrong
      refine .inr ⟨none, ?_⟩
      by_contra passed
      obtain ⟨msg, refused⟩ := exact'.refuses none
      have refused := refused 0
      rw [cmdSelect_selected passed] at refused
      have reply := congrArg (fun r => r.2.text.head?) (Option.some.inj refused)
      simp [ok, writeSimpleGenericError, writeSimpleError, writeSimpleString, asciiBytes] at reply
    · intro condition
      rcases condition with ⟨index, -⟩ | ⟨-, failed⟩
      · exact absurd index isIndex
      · refine ⟨fun v index => absurd index (none v), fun _ => ⟨asciiBytes "invalid DB index", fun db => ?_⟩⟩
        rw [cmdSelect_refused failed]
        rfl

/-- A text without any digits selects database zero. -/
theorem select_text_zero : ¬ ∀ numDbs env arg, SelectsExactly numDbs env arg := by
  intro claimed
  have selected : cmdSelect 16 ⟨false, 0⟩ (asciiBytes "abc") = .select 0 ok := by decide
  have letters : ¬ ∀ d ∈ asciiBytes "abc", IsDigit d := by decide
  obtain ⟨msg, refused⟩ := (claimed 16 ⟨false, 0⟩ (asciiBytes "abc")).refuses
    fun v index => letters index.2.1
  have refused := refused 1
  rw [selected] at refused
  have db : (0 : Size) = 1 := congrArg Prod.fst (Option.some.inj refused)
  exact absurd db (by decide)

end GhettoRedis.Commands
