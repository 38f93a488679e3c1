import Mathlib.Data.List.Infix
import GhettoRedis.Lib.Decimal

/-!
# Replies on the wire

The reply grammar of RESP without arrays. Simple strings, errors and integers end at the
first line break; a bulk string has its length in front. A reply reads back as itself
exactly when its text has no line break of its own.
-/
namespace GhettoRedis.Lib.Resp

inductive Reply where
  | simpleString (text : Bytes)
  | error (text : Bytes)
  | integer (val : ℤ)
  | bulkString (data : Option Bytes)
  deriving DecidableEq

/-- The line break, CR LF. -/
def lineBreak : Bytes := [13, 10]

def HasBreak (s : Bytes) : Prop := lineBreak <:+: s

instance (s : Bytes) : Decidable (HasBreak s) := inferInstanceAs (Decidable (_ <:+: _))

/-! ### Decoding -/

/-- The bytes before the first line break and those behind it. -/
def splitLine : Bytes → Option (Bytes × Bytes)
  | a :: b :: rest =>
    if a = 13 ∧ b = 10 then some ([], rest)
    else (splitLine (b :: rest)).map fun (line, rest) => (a :: line, rest)
  | _ => none

def natOf (digits : Bytes) : Option ℕ :=
  if digits ≠ [] ∧ digits.all (IsDigit ·) then some (decimalValue digits) else none

def integerOf : Bytes → Option ℤ
  | 45 :: digits => (natOf digits).map fun n => -(n : ℤ)
  | digits => (natOf digits).map fun n => (n : ℤ)

/-- The data of a bulk string of `len` bytes and its line break. -/
def takeBulk (len : ℕ) (s : Bytes) : Option (Bytes × Bytes) :=
  match s.drop len with
  | 13 :: 10 :: rest => some (s.take len, rest)
  | _ => none

/-- The first reply, and the bytes behind it. -/
def decodeReply : Bytes → Option (Reply × Bytes)
  | [] => none
  | mark :: rest =>
    match splitLine rest with
    | none => none
    | some (line, rest) =>
      if mark = 43 then some (.simpleString line, rest)
      else if mark = 45 then some (.error line, rest)
      else if mark = 58 then (integerOf line).map fun val => (.integer val, rest)
      else if mark = 36 then
        if line = [45, 49] then some (.bulkString none, rest)
        else (natOf line).bind fun len =>
          (takeBulk len rest).map fun (data, rest) => (.bulkString (some data), rest)
      else none

/-! ### Encoding -/

def encodeReply : Reply → Bytes
  | .simpleString text => 43 :: (text ++ lineBreak)
  | .error text => 45 :: (text ++ lineBreak)
  | .integer val => 58 :: (decimalInt val ++ lineBreak)
  | .bulkString none => 36 :: ([45, 49] ++ lineBreak)
  | .bulkString (some data) => 36 :: (decimal data.length ++ lineBreak ++ (data ++ lineBreak))

/-- The text of the reply is one line. -/
def Reply.OneLine : Reply → Prop
  | .simpleString text | .error text => ¬ HasBreak text
  | .integer _ | .bulkString _ => True

/-! ### Line breaks -/

theorem hasBreak_cons {a : UInt8} {s : Bytes} :
    HasBreak (a :: s) ↔ (a = 13 ∧ s.head? = some 10) ∨ HasBreak s := by
  have front : lineBreak <+: a :: s ↔ a = 13 ∧ s.head? = some 10 := by
    cases s <;> simp [lineBreak, eq_comm]
  rw [HasBreak, List.infix_cons_iff, front]
  rfl

theorem not_hasBreak_nil : ¬ HasBreak [] := by decide

/-- A line break does not run over the border to a byte that is not LF. -/
theorem hasBreak_append {s t : Bytes} (border : t.head? ≠ some 10) :
    HasBreak (s ++ t) ↔ HasBreak s ∨ HasBreak t := by
  induction s with
  | nil => simp [not_hasBreak_nil]
  | cons a s ih =>
    rw [List.cons_append, hasBreak_cons, hasBreak_cons, ih]
    cases s with
    | nil => simp [border]
    | cons b s => simp [or_assoc]

theorem not_hasBreak_of_not_mem {s : Bytes} (plain : 13 ∉ s) : ¬ HasBreak s := by
  intro broken
  exact plain (broken.subset (by simp [lineBreak]))

/-- A line break does not start in bytes that have no CR. -/
theorem hasBreak_append_of_not_mem {s t : Bytes} (plain : 13 ∉ s) :
    HasBreak (s ++ t) ↔ HasBreak t := by
  induction s with
  | nil => rfl
  | cons a s ih =>
    rw [List.mem_cons, not_or] at plain
    have notCr : a ≠ 13 := fun is => plain.1 is.symm
    rw [List.cons_append, hasBreak_cons, ih plain.2]
    simp [notCr]

theorem splitLine_append {line : Bytes} (plain : ¬ HasBreak line) (rest : Bytes) :
    splitLine (line ++ (lineBreak ++ rest)) = some (line, rest) := by
  induction line with
  | nil => simp [splitLine, lineBreak]
  | cons a line ih =>
    rw [hasBreak_cons, not_or] at plain
    have behind := ih plain.2
    cases line with
    | nil => simp [splitLine, lineBreak]
    | cons b line =>
      have notBreak : ¬ (a = 13 ∧ b = 10) := by simpa using plain.1
      simp only [List.cons_append] at behind ⊢
      rw [splitLine, if_neg notBreak, behind]
      rfl

theorem splitLine_eq {s line rest : Bytes} (split : splitLine s = some (line, rest)) :
    s = line ++ (lineBreak ++ rest) ∧ ¬ HasBreak line := by
  induction s generalizing line with
  | nil => cases split
  | cons a s ih =>
    cases s with
    | nil => cases split
    | cons b s =>
      rw [splitLine] at split
      split at split
      next ends =>
        obtain ⟨rfl, rfl⟩ := ends
        cases split
        exact ⟨rfl, not_hasBreak_nil⟩
      next notBreak =>
        obtain ⟨⟨line', rest'⟩, found, is⟩ := Option.map_eq_some_iff.mp split
        cases is
        obtain ⟨whole, plain⟩ := ih found
        refine ⟨by rw [whole, List.cons_append], ?_⟩
        rw [hasBreak_cons, not_or]
        refine ⟨fun ⟨cr, lf⟩ => notBreak ⟨cr, ?_⟩, plain⟩
        -- the byte behind `a` is the first one of the line, or of the line break
        cases line' with
        | nil => simp at lf
        | cons b' line' =>
          rw [List.cons_append, List.cons.injEq] at whole
          simpa [whole.1] using lf

/-! ### Numbers -/

theorem isDigit_ne {d : UInt8} (digit : IsDigit d) : d ≠ 13 ∧ d ≠ 45 := by
  constructor <;> rintro rfl <;> exact absurd digit (by decide)

theorem natOf_decimal (n : ℕ) : natOf (decimal n) = some n := by
  rw [natOf, if_pos ⟨decimal_ne_nil n, by simpa using isDigit_decimal n⟩, decimalValue_decimal]

theorem decimal_plain (n : ℕ) : ¬ HasBreak (decimal n) :=
  not_hasBreak_of_not_mem fun cr => (isDigit_ne (isDigit_decimal n _ cr)).1 rfl

theorem decimal_head (n : ℕ) : ∃ d digits, decimal n = d :: digits ∧ d ≠ 45 := by
  obtain ⟨d, digits, is⟩ := List.exists_cons_of_ne_nil (decimal_ne_nil n)
  exact ⟨d, digits, is, (isDigit_ne (isDigit_decimal n d (is ▸ List.mem_cons_self))).2⟩

theorem integerOf_decimalInt (val : ℤ) : integerOf (decimalInt val) = some val := by
  cases val with
  | ofNat n =>
    obtain ⟨d, digits, is, notMinus⟩ := decimal_head n
    have digitsOf := natOf_decimal n
    rw [is] at digitsOf
    rw [decimalInt, is, integerOf, digitsOf]
    · rfl
    · simpa using notMinus
  | negSucc n =>
    rw [decimalInt, integerOf, natOf_decimal]
    rfl

theorem decimalInt_plain (val : ℤ) : ¬ HasBreak (decimalInt val) := by
  cases val with
  | ofNat n => exact decimal_plain n
  | negSucc n =>
    rw [decimalInt, hasBreak_cons]
    simp [decimal_plain]

theorem takeBulk_append (data rest : Bytes) :
    takeBulk data.length (data ++ (lineBreak ++ rest)) = some (data, rest) := by
  rw [takeBulk, List.drop_left, List.take_left]
  rfl

/-! ### Round trips -/

theorem decodeReply_encodeReply {r : Reply} (oneLine : r.OneLine) (rest : Bytes) :
    decodeReply (encodeReply r ++ rest) = some (r, rest) := by
  cases r with
  | simpleString text | error text =>
    simp only [encodeReply, List.cons_append, List.append_assoc, decodeReply,
      splitLine_append oneLine]
    rfl
  | integer val =>
    simp only [encodeReply, List.cons_append, List.append_assoc, decodeReply,
      splitLine_append (decimalInt_plain val), integerOf_decimalInt]
    rfl
  | bulkString data =>
    cases data with
    | none => simp [encodeReply, decodeReply, splitLine, lineBreak]
    | some data =>
      -- a length begins with a digit, so it is not that of the null bulk string
      obtain ⟨d, digits, is, notMinus⟩ := decimal_head data.length
      have notNull : decimal data.length ≠ [45, 49] := by
        rw [is]
        simp [notMinus]
      simp only [encodeReply, List.cons_append, List.append_assoc, decodeReply,
        splitLine_append (decimal_plain data.length), if_neg notNull, natOf_decimal,
        Option.bind_some, takeBulk_append]
      rfl

/-- `s` is one reply and nothing else. -/
def IsOneReply (s : Bytes) : Prop := ∃ r, decodeReply s = some (r, [])

theorem isOneReply_iff {s : Bytes} : IsOneReply s ↔ (decodeReply s).map Prod.snd = some [] := by
  cases found : decodeReply s with
  | none => simp [IsOneReply, found]
  | some result => simp [IsOneReply, found, Prod.ext_iff]

instance (s : Bytes) : Decidable (IsOneReply s) := decidable_of_iff _ isOneReply_iff.symm

theorem isOneReply_encodeReply {r : Reply} : IsOneReply (encodeReply r) ↔ r.OneLine := by
  constructor
  · rintro ⟨r', decoded⟩
    cases r with
    | integer | bulkString => trivial
    | simpleString text | error text =>
      simp only [encodeReply, decodeReply] at decoded
      split at decoded
      next => cases decoded
      next line rest split =>
        cases decoded
        obtain ⟨whole, plain⟩ := splitLine_eq split
        obtain rfl : text = line := by simpa using whole
        exact plain
  · intro oneLine
    exact ⟨r, by simpa using decodeReply_encodeReply oneLine []⟩

/-! ### Tokens -/

/-- What a stream of replies is made of: an array is its header, and then its elements. -/
inductive Token where
  | reply (r : Reply)
  | arrayHeader (len : ℕ)
  deriving DecidableEq

/-- The first token, and the bytes behind it. -/
def decodeToken : Bytes → Option (Token × Bytes)
  | [] => none
  | mark :: rest =>
    if mark = 42 then
      match splitLine rest with
      | none => none
      | some (line, rest) => (natOf line).map fun len => (.arrayHeader len, rest)
    else (decodeReply (mark :: rest)).map fun (r, rest) => (.reply r, rest)

def decodeTokens : (fuel : ℕ) → Bytes → Option (List Token)
  | _, [] => some []
  | 0, _ => none
  | fuel + 1, s =>
    match decodeToken s with
    | none => none
    | some (token, rest) => (decodeTokens fuel rest).map (token :: ·)

/-- All of the bytes as tokens; each token takes a byte at least. -/
def decodeAll (s : Bytes) : Option (List Token) := decodeTokens s.length s

def encodeToken : Token → Bytes
  | .reply r => encodeReply r
  | .arrayHeader len => 42 :: (decimal len ++ lineBreak)

def encodeTokens (tokens : List Token) : Bytes := tokens.flatMap encodeToken

def Token.OneLine : Token → Prop
  | .reply r => r.OneLine
  | .arrayHeader _ => True

theorem encodeReply_mark (r : Reply) : ∃ mark rest, encodeReply r = mark :: rest ∧ mark ≠ 42 := by
  cases r with
  | simpleString | error | integer => exact ⟨_, _, rfl, by decide⟩
  | bulkString data => cases data <;> exact ⟨_, _, rfl, by decide⟩

theorem decodeToken_encodeToken {token : Token} (oneLine : token.OneLine) (rest : Bytes) :
    decodeToken (encodeToken token ++ rest) = some (token, rest) := by
  cases token with
  | reply r =>
    obtain ⟨mark, text, is, other⟩ := encodeReply_mark r
    have decoded := decodeReply_encodeReply oneLine rest
    rw [is] at decoded
    rw [encodeToken, is, List.cons_append, decodeToken, if_neg other, ← List.cons_append, decoded]
    rfl
  | arrayHeader len =>
    simp only [encodeToken, List.cons_append, List.append_assoc, decodeToken,
      splitLine_append (decimal_plain len), natOf_decimal]
    rfl

theorem encodeToken_ne_nil (token : Token) : encodeToken token ≠ [] := by
  cases token with
  | reply r =>
    obtain ⟨mark, rest, is, -⟩ := encodeReply_mark r
    rw [encodeToken, is]
    exact List.cons_ne_nil _ _
  | arrayHeader len => exact List.cons_ne_nil _ _

theorem decodeTokens_encodeTokens {tokens : List Token} (oneLine : ∀ token ∈ tokens, token.OneLine)
    {fuel : ℕ} (enough : (encodeTokens tokens).length ≤ fuel) :
    decodeTokens fuel (encodeTokens tokens) = some tokens := by
  induction tokens generalizing fuel with
  | nil =>
    cases fuel <;> rfl
  | cons token tokens ih =>
    have decoded := decodeToken_encodeToken (oneLine token List.mem_cons_self) (encodeTokens tokens)
    -- every token takes at least one byte of the fuel
    have later := fun t member => oneLine t (List.mem_cons_of_mem _ member)
    have some : 0 < (encodeToken token).length := List.length_pos_of_ne_nil (encodeToken_ne_nil token)
    have whole : encodeTokens (token :: tokens) = encodeToken token ++ encodeTokens tokens := rfl
    rw [whole, List.length_append] at enough
    obtain ⟨fuel, rfl⟩ : ∃ fuel', fuel = fuel' + 1 := ⟨fuel - 1, by omega⟩
    obtain ⟨mark, rest, is⟩ := List.exists_cons_of_length_pos some
    have rest : decodeTokens fuel (encodeTokens tokens) = Option.some tokens := ih later (by omega)
    rw [whole, is, List.cons_append, decodeTokens, ← List.cons_append, ← is, decoded]
    · simp only [rest, Option.map_some]
    · exact List.cons_ne_nil _ _

/-- A stream of tokens reads back as itself, to its last byte. -/
theorem decodeAll_encodeTokens {tokens : List Token} (oneLine : ∀ token ∈ tokens, token.OneLine) :
    decodeAll (encodeTokens tokens) = some tokens :=
  decodeTokens_encodeTokens oneLine (Nat.le_refl _)

end GhettoRedis.Lib.Resp
