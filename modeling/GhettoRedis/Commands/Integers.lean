import GhettoRedis.Commands.Register

/-!
# Integer texts

Which texts `try_parse_signed_integer` takes for integers, what it reads of them, and the sums
it forms on the way.
-/
namespace GhettoRedis.Commands

open Lib Protocol

/-- The range of `int64_t`. -/
def InInt64 (v : ℤ) : Prop := -2 ^ 63 ≤ v ∧ v < 2 ^ 63

/-! ### Texts -/

def signs : List Bytes := [[], [minus], [plus]]

def signed (sign : Bytes) (m : ℕ) : ℤ := if sign = [minus] then -m else m

/-- An optional sign and at least one digit. -/
def IntText (s : Bytes) (v : ℤ) : Prop :=
  ∃ sign ∈ signs, ∃ digits, s = sign ++ digits ∧ digits ≠ [] ∧ (∀ d ∈ digits, IsDigit d) ∧
    v = signed sign (decimalValue digits)

/-! ### What the parser does -/

/-- The positions at which the loop over the digits reads. -/
def digitReads (pos : ℕ) : Bytes → List ℕ
  | [] => []
  | b :: rest => pos :: if IsDigit b then digitReads (pos + 1) rest else []

/-- The positions at which `try_parse_signed_integer` reads: the first one whatever the length. -/
def parseReads : Bytes → List ℕ
  | [] => [0]
  | b :: rest => 0 :: if b = minus ∨ b = plus then digitReads 1 rest else digitReads 0 (b :: rest)

/-- The values of `res * 10` and `res * 10 + digit`, as they are without overflow. -/
def digitSums (res : ℕ) : Bytes → List ℕ
  | [] => []
  | b :: rest =>
    if IsDigit b then
      res * 10 :: (res * 10 + digitValue b) :: digitSums (res * 10 + digitValue b) rest
    else []

/-- What is calculated for a text that is accepted: `-res` at the end if there is a minus. -/
def parseSums : Bytes → List ℤ
  | [] => []
  | b :: rest =>
    if b = minus then (digitSums 0 rest).map Nat.cast ++ [-(decimalValue rest : ℤ)]
    else if b = plus then (digitSums 0 rest).map Nat.cast
    else (digitSums 0 (b :: rest)).map Nat.cast

/-- The parser reads nothing else, takes exactly the texts of an `int64_t` for their value, and
nothing overflows. -/
structure ParsesExactly (buf : Value) : Prop where
  inside : ∀ pos ∈ parseReads buf.bytes, pos < buf.bytes.length
  accepts : ∀ res : Size, tryParseSignedInteger buf = some res ↔ IntText buf.bytes res.toInt
  sums : tryParseSignedInteger buf ≠ none → ∀ v ∈ parseSums buf.bytes, InInt64 v

/-- An optional sign with digits behind it has at least one, and its number is below 2 ^ 63. -/
def Moderate (s : Bytes) : Prop :=
  ∀ sign ∈ signs, ∀ digits, s = sign ++ digits → (∀ d ∈ digits, IsDigit d) →
    digits ≠ [] ∧ decimalValue digits < 2 ^ 63

/-! ### Signs and digits -/

theorem ne_minus_of_isDigit {d : UInt8} (isDigit : IsDigit d) : d ≠ minus := by
  rintro rfl
  revert isDigit
  decide

theorem ne_plus_of_isDigit {d : UInt8} (isDigit : IsDigit d) : d ≠ plus := by
  rintro rfl
  revert isDigit
  decide

theorem mem_signs {sign : Bytes} : sign ∈ signs ↔ sign = [] ∨ sign = [minus] ∨ sign = [plus] := by
  simp [signs]

/-- A text has one sign and one list of digits. -/
theorem text_unique {sign sign' digits digits' : Bytes} (isSign : sign ∈ signs) (isSign' : sign' ∈ signs)
    (areDigits : ∀ d ∈ digits, IsDigit d) (areDigits' : ∀ d ∈ digits', IsDigit d)
    (same : sign ++ digits = sign' ++ digits') : sign = sign' ∧ digits = digits' := by
  -- a digit is no sign
  have noMinus {ds rest : Bytes} (are : ∀ d ∈ ds, IsDigit d) : ds ≠ [minus] ++ rest := by
    rintro rfl
    exact ne_minus_of_isDigit (are minus (by simp)) rfl
  have noPlus {ds rest : Bytes} (are : ∀ d ∈ ds, IsDigit d) : ds ≠ [plus] ++ rest := by
    rintro rfl
    exact ne_plus_of_isDigit (are plus (by simp)) rfl
  rcases mem_signs.mp isSign with rfl | rfl | rfl <;> rcases mem_signs.mp isSign' with rfl | rfl | rfl
  · exact ⟨rfl, same⟩
  · exact absurd same (noMinus areDigits)
  · exact absurd same (noPlus areDigits)
  · exact absurd same.symm (noMinus areDigits')
  · exact ⟨rfl, List.append_cancel_left same⟩
  · exact absurd (List.cons.inj same).1 (by decide)
  · exact absurd same.symm (noPlus areDigits')
  · exact absurd (List.cons.inj same).1 (by decide)
  · exact ⟨rfl, List.append_cancel_left same⟩

/-! ### The loop -/

/-- The loop gets to the end of digits only. -/
theorem isDigit_of_parseDigits {digits : Bytes} {start res : Size}
    (parsed : parseDigits digits start = some res) : ∀ d ∈ digits, IsDigit d := by
  induction digits generalizing start with
  | nil => simp
  | cons d digits ih =>
    rw [parseDigits] at parsed
    split at parsed
    next isDigit => exact List.forall_mem_cons.mpr ⟨isDigit, ih parsed⟩
    next => cases parsed

theorem parseDigits_iff {digits : Bytes} {res : Size} : parseDigits digits 0 = some res ↔
    (∀ d ∈ digits, IsDigit d) ∧ res = BitVec.ofNat 64 (decimalValue digits) := by
  constructor
  · intro parsed
    have areDigits := isDigit_of_parseDigits parsed
    have known : parseDigits digits 0 = some (BitVec.ofNat 64 (decimalValue digits)) :=
      parseDigits_digits areDigits 0
    exact ⟨areDigits, Option.some.inj (parsed.symm.trans known)⟩
  · rintro ⟨areDigits, rfl⟩
    exact parseDigits_digits areDigits 0

/-- What a text of an optional sign and digits is taken for. -/
def parsed (sign digits : Bytes) : Size :=
  if sign = [minus] then -BitVec.ofNat 64 (decimalValue digits)
  else BitVec.ofNat 64 (decimalValue digits)

theorem tryParse_text {sign digits : Bytes} (past : UInt8) (isSign : sign ∈ signs)
    (areDigits : ∀ d ∈ digits, IsDigit d) (some' : sign ++ digits ≠ []) :
    tryParseSignedInteger ⟨sign ++ digits, past⟩ = some (parsed sign digits) := by
  have read := parseDigits_iff.mpr ⟨areDigits, rfl⟩
  rcases mem_signs.mp isSign with rfl | rfl | rfl
  · cases digits with
    | nil => exact absurd rfl some'
    | cons d digits =>
      have isDigit := areDigits d List.mem_cons_self
      simp only [List.nil_append, tryParseSignedInteger, if_neg (ne_minus_of_isDigit isDigit),
        if_neg (ne_plus_of_isDigit isDigit)]
      exact read
  · simpa [tryParseSignedInteger, parsed] using read
  · have other : plus ≠ minus := by decide
    simp only [List.cons_append, List.nil_append, tryParseSignedInteger, if_neg other, if_pos]
    simpa [parsed, other] using read

theorem text_of_tryParse {buf : Value} {res : Size} (taken : tryParseSignedInteger buf = some res) :
    ∃ sign ∈ signs, ∃ digits, buf.bytes = sign ++ digits ∧ (∀ d ∈ digits, IsDigit d) ∧
      res = parsed sign digits := by
  obtain ⟨bytes, past⟩ := buf
  cases bytes with
  | nil =>
    simp only [tryParseSignedInteger] at taken
    split at taken
    next => cases taken
    next =>
      -- the loop over no digits gives zero
      cases taken
      exact ⟨[], by simp [signs], [], rfl, by simp, rfl⟩
  | cons b rest =>
    simp only [tryParseSignedInteger] at taken
    split at taken
    next negative =>
      -- a minus: the digits are read behind it and negated
      obtain ⟨abs, read, rfl⟩ := Option.map_eq_some_iff.mp taken
      obtain ⟨areDigits, rfl⟩ := parseDigits_iff.mp read
      exact ⟨[minus], by simp [signs], rest, by rw [negative]; rfl, areDigits, rfl⟩
    next =>
      split at taken
      next positive =>
        obtain ⟨areDigits, rfl⟩ := parseDigits_iff.mp taken
        exact ⟨[plus], by simp [signs], rest, by rw [positive]; rfl, areDigits, rfl⟩
      next =>
        obtain ⟨areDigits, rfl⟩ := parseDigits_iff.mp taken
        exact ⟨[], by simp [signs], b :: rest, rfl, areDigits, rfl⟩

/-- The number modulo 2 ^ 64. -/
theorem parsed_eq (sign digits : Bytes) :
    parsed sign digits = BitVec.ofInt 64 (signed sign (decimalValue digits)) := by
  unfold parsed signed
  split
  · rw [BitVec.ofInt_neg]
    rfl
  · rfl

theorem toInt_ofInt_of_inInt64 {v : ℤ} (fits : InInt64 v) : (BitVec.ofInt 64 v).toInt = v := by
  obtain ⟨low, high⟩ := fits
  rw [BitVec.toInt_ofInt, Int.bmod_eq_of_le] <;> omega

/-- A moderate number is taken for what it is. -/
theorem toInt_parsed (sign : Bytes) {digits : Bytes} (small : decimalValue digits < 2 ^ 63) :
    (parsed sign digits).toInt = signed sign (decimalValue digits) := by
  have fits : InInt64 (signed sign (decimalValue digits)) := by
    unfold InInt64 signed
    split <;> omega
  rw [parsed_eq, toInt_ofInt_of_inInt64 fits]

theorem tryParse_intText {buf : Value} {v : ℤ} (text : IntText buf.bytes v) :
    tryParseSignedInteger buf = some (BitVec.ofInt 64 v) := by
  obtain ⟨sign, isSign, digits, is, nonempty, areDigits, rfl⟩ := text
  have read := tryParse_text buf.past isSign areDigits (by simp [nonempty])
  rwa [← is, parsed_eq] at read

/-! ### Sums -/

theorem digitSums_le {digits : Bytes} (areDigits : ∀ d ∈ digits, IsDigit d) (res : ℕ) :
    ∀ v ∈ digitSums res digits, v ≤ valueFrom res digits := by
  induction digits generalizing res with
  | nil => simp [digitSums]
  | cons d digits ih =>
    obtain ⟨isDigit, rest⟩ := List.forall_mem_cons.mp areDigits
    have whole : res * 10 + digitValue d ≤ valueFrom res (d :: digits) := le_valueFrom _ digits
    rw [digitSums, if_pos isDigit]
    intro v mem
    simp only [List.mem_cons] at mem
    rcases mem with rfl | rfl | mem
    · omega
    · exact whole
    · exact ih rest _ v mem

/-- The last sum is the number itself. -/
theorem mem_digitSums {digits : Bytes} (areDigits : ∀ d ∈ digits, IsDigit d) (some' : digits ≠ [])
    (res : ℕ) : valueFrom res digits ∈ digitSums res digits := by
  induction digits generalizing res with
  | nil => exact absurd rfl some'
  | cons d digits ih =>
    obtain ⟨isDigit, rest⟩ := List.forall_mem_cons.mp areDigits
    rw [digitSums, if_pos isDigit]
    refine List.mem_cons_of_mem _ ?_
    cases digits with
    | nil => exact List.mem_cons_self
    | cons d' digits => exact List.mem_cons_of_mem _ (ih rest (by simp) _)

theorem parseSums_text {sign digits : Bytes} (isSign : sign ∈ signs)
    (areDigits : ∀ d ∈ digits, IsDigit d) :
    parseSums (sign ++ digits) = (digitSums 0 digits).map Nat.cast ++
      if sign = [minus] then [-(decimalValue digits : ℤ)] else [] := by
  have other : plus ≠ minus := by decide
  rcases mem_signs.mp isSign with rfl | rfl | rfl
  · cases digits with
    | nil => rfl
    | cons d digits =>
      have isDigit := areDigits d List.mem_cons_self
      simp [parseSums, ne_minus_of_isDigit isDigit, ne_plus_of_isDigit isDigit]
  · simp [parseSums]
  · simp [parseSums, other]

/-- Nothing overflows in a moderate number. -/
theorem parseSums_inInt64 {sign digits : Bytes} (isSign : sign ∈ signs)
    (areDigits : ∀ d ∈ digits, IsDigit d) (small : decimalValue digits < 2 ^ 63) :
    ∀ v ∈ parseSums (sign ++ digits), InInt64 v := by
  rw [parseSums_text isSign areDigits]
  intro v mem
  rcases List.mem_append.mp mem with mem | mem
  · obtain ⟨m, sum, rfl⟩ := List.mem_map.mp mem
    have le : m ≤ decimalValue digits := digitSums_le areDigits 0 m sum
    constructor <;> omega
  · split at mem
    next =>
      obtain rfl := List.mem_singleton.mp mem
      constructor <;> omega
    next => cases mem

/-! ### The parser -/

theorem moderate_ne_nil {s : Bytes} (moderate : Moderate s) : s ≠ [] := by
  rintro rfl
  exact (moderate [] (by simp [signs]) [] rfl (by simp)).1 rfl

theorem digitReads_lt (pos : ℕ) (s : Bytes) : ∀ p ∈ digitReads pos s, p < pos + s.length := by
  induction s generalizing pos with
  | nil => simp [digitReads]
  | cons b rest ih =>
    intro p mem
    rw [digitReads] at mem
    rcases List.mem_cons.mp mem with rfl | mem
    · simp
    · split at mem
      next =>
        have := ih (pos + 1) p mem
        simp only [List.length_cons]
        omega
      next => cases mem

/-- Only the first byte of an empty text lies outside. -/
theorem parseReads_inside {s : Bytes} (some' : s ≠ []) : ∀ pos ∈ parseReads s, pos < s.length := by
  cases s with
  | nil => exact absurd rfl some'
  | cons b rest =>
    intro pos mem
    rw [parseReads] at mem
    rcases List.mem_cons.mp mem with rfl | mem
    · simp
    · split at mem
      next =>
        have := digitReads_lt 1 rest pos mem
        simp only [List.length_cons]
        omega
      next => simpa using digitReads_lt 0 (b :: rest) pos mem

/-- The parser is exact on a text unless this is a sign or nothing at all, or digits for 2 ^ 63 or
more. -/
theorem parse_exact_iff (buf : Value) : ParsesExactly buf ↔ Moderate buf.bytes := by
  constructor
  · intro exact'
    have some' : buf.bytes ≠ [] := by
      intro none
      -- the first byte is read before the length is known to be positive
      have inside := exact'.inside 0
      simp [none, parseReads] at inside
    intro sign isSign digits is areDigits
    have taken : tryParseSignedInteger buf = some (parsed sign digits) := by
      have text := tryParse_text buf.past isSign areDigits (is ▸ some')
      rwa [← is] at text
    obtain ⟨sign', isSign', digits', is', some'', areDigits', -⟩ := (exact'.accepts _).mp taken
    obtain ⟨rfl, rfl⟩ := text_unique isSign isSign' areDigits areDigits' (is.symm.trans is')
    refine ⟨some'', ?_⟩
    -- the number itself is one of the sums
    have sums := exact'.sums (by simp [taken])
    rw [is, parseSums_text isSign areDigits] at sums
    have last := (sums (decimalValue digits) (List.mem_append_left _
      (List.mem_map_of_mem (mem_digitSums areDigits some'' 0)))).2
    exact_mod_cast last
  · intro moderate
    -- below the bound no sum wraps, and the value is the number
    have some' := moderate_ne_nil moderate
    refine ⟨parseReads_inside some', fun res => ⟨fun taken => ?_, ?_⟩, fun taken => ?_⟩
    · obtain ⟨sign, isSign, digits, is, areDigits, rfl⟩ := text_of_tryParse taken
      obtain ⟨nonempty, small⟩ := moderate sign isSign digits is areDigits
      exact ⟨sign, isSign, digits, is, nonempty, areDigits, toInt_parsed sign small⟩
    · rintro ⟨sign, isSign, digits, is, -, areDigits, value⟩
      obtain ⟨-, small⟩ := moderate sign isSign digits is areDigits
      have text := tryParse_text buf.past isSign areDigits (is ▸ some')
      rw [← is] at text
      rw [text, Option.some.injEq, ← BitVec.toInt_inj, toInt_parsed sign small, value]
    · obtain ⟨res, taken⟩ := Option.ne_none_iff_exists'.mp taken
      obtain ⟨sign, isSign, digits, is, areDigits, rfl⟩ := text_of_tryParse taken
      obtain ⟨-, small⟩ := moderate sign isSign digits is areDigits
      exact is ▸ parseSums_inInt64 isSign areDigits small

/-- 2 ^ 64 + 1 -/
def beyondWord : Bytes := asciiBytes "18446744073709551617"

/-- It is taken for 1. -/
theorem beyond_word_accepted : ¬ ∀ buf, ParsesExactly buf := by
  intro claimed
  have taken : tryParseSignedInteger ⟨beyondWord, 0⟩ = some 1 := by decide
  obtain ⟨sign, isSign, digits, is, -, areDigits, value⟩ :=
    ((claimed ⟨beyondWord, 0⟩).accepts 1).mp taken
  have whole : ∀ d ∈ beyondWord, IsDigit d := isDigit_of_all (by decide)
  obtain ⟨rfl, rfl⟩ := text_unique isSign (by simp [signs]) areDigits whole
    (is.symm.trans (List.nil_append beyondWord).symm)
  revert value
  decide

end GhettoRedis.Commands
