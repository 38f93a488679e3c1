import GhettoRedis.Protocol.Accepted

/-!
# Requests on the wire

The RESP encoding of a request, and what `parse_resp_request` makes of a window that
holds a whole encoding or only its first bytes.
-/
namespace GhettoRedis.Protocol

open Lib

/-- A request is the list of its arguments, the command's name first. -/
abbrev Request := List Bytes

def encodeBulk (arg : Bytes) : Bytes :=
  dollar :: decimal arg.length ++ crlf ++ arg ++ crlf

def encodeBulks (args : List Bytes) : Bytes := args.flatMap encodeBulk

/-- The array header. -/
def encodeHeader (r : Request) : Bytes := asterisk :: decimal r.length ++ crlf

def encode (r : Request) : Bytes := encodeHeader r ++ encodeBulks r

structure WellFormed (r : Request) : Prop where
  nonempty : 1 ≤ r.length
  few : r.length ≤ maxArgc
  short : (encode r).length ≤ messageMaxLength

/-- The first `n` bytes of the bulk strings end behind a `$` or inside the digits of a length. -/
def CutsBulk : List Bytes → ℕ → Prop
  | [], _ => False
  | arg :: args, n =>
    (1 ≤ n ∧ n ≤ 1 + (decimal arg.length).length) ∨
      ((encodeBulk arg).length ≤ n ∧ CutsBulk args (n - (encodeBulk arg).length))

instance CutsBulk.decidable : (args : List Bytes) → (n : ℕ) → Decidable (CutsBulk args n)
  | [], _ => inferInstanceAs (Decidable False)
  | arg :: args, n =>
    have := CutsBulk.decidable args (n - (encodeBulk arg).length)
    inferInstanceAs (Decidable ((1 ≤ n ∧ n ≤ 1 + (decimal arg.length).length) ∨
      ((encodeBulk arg).length ≤ n ∧ CutsBulk args (n - (encodeBulk arg).length))))

/-- The first `n` bytes of the encoding end where `parse_number` runs out of window before
it meets a `\r`. Two bytes behind the header have to be there before a `$` is looked at. -/
def CutsNumber (r : Request) (n : ℕ) : Prop :=
  (1 ≤ n ∧ n ≤ 1 + (decimal r.length).length) ∨
    ((encodeHeader r).length + 2 ≤ n ∧ CutsBulk r (n - (encodeHeader r).length))

instance (r : Request) (n : ℕ) : Decidable (CutsNumber r n) :=
  inferInstanceAs (Decidable (_ ∨ (_ ∧ _)))

/-- The byte behind the window lets `parse_number` end with `PARSE_INCOMPLETE`. -/
def GoesOn (behind : UInt8) : Prop := IsDigit behind ∨ behind = cr

instance (behind : UInt8) : Decidable (GoesOn behind) := inferInstanceAs (Decidable (_ ∨ _))

/-! ### The rest of a window -/

/-- The bytes `rest` of the window are still to be read at `cur`, and `behind` stands
where the window stops. -/
structure Tail (mem : Mem) (stop cur : Size) (rest : Bytes) (behind : UInt8) : Prop where
  stands : At mem cur rest
  ends : cur.toNat + rest.length = stop.toNat
  next : mem stop = behind
  room : stop.toNat + messageMaxLength + 16 ≤ 2 ^ 64

variable {mem : Mem} {stop cur res : Size} {rest more digits : Bytes} {behind : UInt8}

namespace Tail

theorem append (tail : Tail mem stop cur (rest ++ more) behind) :
    Tail mem stop (cur + BitVec.ofNat 64 rest.length) more behind := by
  have ends := tail.ends
  have room := tail.room
  rw [List.length_append] at ends
  refine ⟨(at_append.mp tail.stands).2, ?_, tail.next, room⟩
  rw [toNat_add_ofNat (by omega)]
  omega

theorem uncons {x : UInt8} (tail : Tail mem stop cur (x :: rest) behind) :
    mem cur = x ∧ Tail mem stop (cur + 1) rest behind :=
  ⟨(at_cons.mp tail.stands).1, (show Tail mem stop cur ([x] ++ rest) behind from tail).append⟩

theorem stop_eq (tail : Tail mem stop cur [] behind) : cur = stop :=
  BitVec.eq_of_toNat_eq (by simpa using tail.ends)

theorem add_toNat (tail : Tail mem stop cur rest behind) {n : ℕ}
    (le : n ≤ rest.length + messageMaxLength + 2) :
    (cur + BitVec.ofNat 64 n).toNat = cur.toNat + n :=
  toNat_add_ofNat (by have := tail.ends; have := tail.room; omega)

end Tail

/-! ### Numbers -/

theorem digitOf_toNat {d : UInt8} : (digitOf d).toNat = digitValue d := by
  have := d.toNat_lt
  rw [digitOf, BitVec.toNat_ofNat, Nat.mod_eq_of_lt]
  simp only [digitValue]
  omega

theorem ne_cr_of_isDigit {d : UInt8} (isDigit : IsDigit d) : d ≠ cr := by
  rintro rfl
  revert isDigit
  decide

/-- The guard before `res * 10 + digit` is exact. -/
theorem guard_iff {d : UInt8} (small : digitValue d < 10) :
    (sizeMax - digitOf d) / 10 < res ↔ 2 ^ 64 ≤ res.toNat * 10 + digitValue d := by
  have max : sizeMax.toNat = 2 ^ 64 - 1 := rfl
  have ten : (10 : Size).toNat = 10 := rfl
  rw [BitVec.lt_def, BitVec.toNat_udiv, toNat_sub (by rw [max, digitOf_toNat]; omega), max, ten,
    digitOf_toNat]
  omega

theorem numberLoop_digit {fuel : ℕ} {d : UInt8} (isDigit : IsDigit d) (here : mem cur = d)
    (fits : res.toNat * 10 + digitValue d < 2 ^ 64) :
    numberLoop mem (fuel + 1) cur res =
      numberLoop mem fuel (cur + 1) (BitVec.ofNat 64 (res.toNat * 10 + digitValue d)) := by
  have step : res * 10 + digitOf d = BitVec.ofNat 64 (res.toNat * 10 + digitValue d) := by
    apply BitVec.eq_of_toNat_eq
    simp [BitVec.toNat_add, BitVec.toNat_mul, digitOf_toNat]
  rw [numberLoop, here, if_neg (ne_cr_of_isDigit isDigit), if_neg (isDigit_iff.mp isDigit),
    if_neg (by rw [guard_iff isDigit.value_lt]; omega), step]

/-- The loop runs over digits whose number fits a word. -/
theorem numberLoop_digits {fuel : ℕ} (stands : At mem cur digits)
    (areDigits : ∀ d ∈ digits, IsDigit d) (fits : valueFrom res.toNat digits < 2 ^ 64) :
    numberLoop mem (fuel + digits.length) cur res =
      numberLoop mem fuel (cur + BitVec.ofNat 64 digits.length)
        (BitVec.ofNat 64 (valueFrom res.toNat digits)) := by
  induction digits generalizing cur res with
  | nil => simp [valueFrom]
  | cons d digits ih =>
    obtain ⟨here, stands⟩ := at_cons.mp stands
    have isDigit := areDigits d List.mem_cons_self
    have fits' : valueFrom (res.toNat * 10 + digitValue d) digits < 2 ^ 64 := fits
    -- the digits read so far stay below the number they end up in
    have first := (le_valueFrom (res.toNat * 10 + digitValue d) digits).trans_lt fits'
    have value : (BitVec.ofNat 64 (res.toNat * 10 + digitValue d)).toNat =
        res.toNat * 10 + digitValue d := by
      rw [BitVec.toNat_ofNat, Nat.mod_eq_of_lt first]
    rw [List.length_cons, ← Nat.add_assoc, numberLoop_digit isDigit here first,
      ih stands (fun d member => areDigits d (List.mem_cons_of_mem _ member))
        (by rw [value]; exact fits'), value]
    congr 1
    exact (add_ofNat_add cur 1 digits.length).trans (by rw [Nat.add_comm])

theorem numberLoop_start {fuel : ℕ} (stands : At mem cur digits)
    (areDigits : ∀ d ∈ digits, IsDigit d) (fits : decimalValue digits < 2 ^ 64) :
    numberLoop mem (fuel + digits.length) cur 0 =
      numberLoop mem fuel (cur + BitVec.ofNat 64 digits.length)
        (BitVec.ofNat 64 (decimalValue digits)) :=
  numberLoop_digits stands areDigits fits

/-- A number with its CR and the byte behind that, which is skipped unread. -/
theorem parseNumber_skips {skipped : UInt8} (areDigits : ∀ d ∈ digits, IsDigit d)
    (tail : Tail mem stop cur (digits ++ cr :: skipped :: more) behind)
    (fits : decimalValue digits < 2 ^ 64) :
    parseNumber mem cur stop = .ok (cur + BitVec.ofNat 64 (digits.length + 2),
      BitVec.ofNat 64 (decimalValue digits)) := by
  have ends := tail.ends
  simp only [List.length_append, List.length_cons] at ends
  have atCr := tail.append.uncons.1
  have loop : numberLoop mem (stop.toNat + 1 - cur.toNat) cur 0 =
      .ok (cur + BitVec.ofNat 64 digits.length, BitVec.ofNat 64 (decimalValue digits)) := by
    rw [show stop.toNat + 1 - cur.toNat = (more.length + 2 + 1) + digits.length by omega,
      numberLoop_start (at_append.mp tail.stands).1 areDigits fits, numberLoop, if_pos atCr]
  have next : cur + BitVec.ofNat 64 digits.length + 2 = cur + BitVec.ofNat 64 (digits.length + 2) :=
    add_ofNat_add cur digits.length 2
  have inside : ¬ stop < cur + BitVec.ofNat 64 (digits.length + 2) := by
    rw [BitVec.lt_def, tail.add_toNat (by simp only [List.length_append, List.length_cons]; omega)]
    omega
  simp only [parseNumber, loop, next, if_neg inside]

/-- A number with its CR LF. -/
theorem parseNumber_whole (areDigits : ∀ d ∈ digits, IsDigit d)
    (tail : Tail mem stop cur (digits ++ (crlf ++ more)) behind)
    (fits : decimalValue digits < 2 ^ 64) :
    parseNumber mem cur stop = .ok (cur + BitVec.ofNat 64 (digits ++ crlf).length,
      BitVec.ofNat 64 (decimalValue digits)) := by
  rw [List.length_append]
  exact parseNumber_skips areDigits tail fits

/-- The loop reads the byte behind a window that stops inside the digits: a digit or a `\r`
there leaves the number incomplete, any other byte is an error. -/
theorem parseNumber_cut (areDigits : ∀ d ∈ digits, IsDigit d)
    (fits : decimalValue digits * 10 + 9 < 2 ^ 64) (tail : Tail mem stop cur digits behind) :
    parseNumber mem cur stop = .error (if GoesOn behind then .incomplete else .error) := by
  have ends := tail.ends
  have room := tail.room
  have atStop : cur + BitVec.ofNat 64 digits.length = stop :=
    (show Tail mem stop cur (digits ++ []) behind by simpa using tail).append.stop_eq
  -- `stop` has room for two bytes in the address space, so the comparison holds
  have two : stop < stop + 2 := by
    rw [BitVec.lt_def, toNat_add (b := 2) (by simp; omega)]
    exact Nat.lt_add_of_pos_right (by decide)
  rw [parseNumber, show stop.toNat + 1 - cur.toNat = 1 + digits.length by omega,
    numberLoop_start tail.stands areDigits (by omega), atStop]
  by_cases isCr : behind = cr
  · -- it looks like the CR of the number, and the byte after it is missing
    rw [numberLoop, tail.next, if_pos isCr]
    simp only [if_pos two, if_pos (show GoesOn behind from .inr isCr)]
  · rw [numberLoop, tail.next, if_neg isCr]
    by_cases isDigit : IsDigit behind
    · -- one more digit fits, and then the fuel is used up at `stop`
      have value : (BitVec.ofNat 64 (decimalValue digits)).toNat = decimalValue digits := by
        rw [BitVec.toNat_ofNat, Nat.mod_eq_of_lt (by omega)]
      have := isDigit.value_lt
      rw [if_neg (isDigit_iff.mp isDigit), if_neg (by rw [guard_iff this, value]; omega)]
      simp only [numberLoop, if_pos (show GoesOn behind from .inl isDigit)]
    · -- any other byte is an error
      rw [if_pos (not_not.mp (isDigit_iff.not.mp isDigit)),
        if_neg (show ¬ GoesOn behind from not_or.mpr ⟨isDigit, isCr⟩)]

/-- A window that stops between the `\r` and the `\n`. -/
theorem parseNumber_cr (areDigits : ∀ d ∈ digits, IsDigit d)
    (tail : Tail mem stop cur (digits ++ [cr]) behind) (fits : decimalValue digits < 2 ^ 64) :
    parseNumber mem cur stop = .error .incomplete := by
  have ends := tail.ends
  rw [List.length_append, List.length_singleton] at ends
  have atCr := tail.append.uncons.1
  have short : stop < cur + BitVec.ofNat 64 digits.length + 2 := by
    have sum : cur + BitVec.ofNat 64 digits.length + 2 =
        cur + BitVec.ofNat 64 (digits.length + 2) := add_ofNat_add cur digits.length 2
    rw [BitVec.lt_def, sum, tail.add_toNat (by rw [List.length_append]; omega)]
    omega
  rw [parseNumber, show stop.toNat + 1 - cur.toNat = (1 + 1) + digits.length by omega,
    numberLoop_start (at_append.mp tail.stands).1 areDigits fits, numberLoop, if_pos atCr]
  simp only [if_pos short]

/-! ### Bulk strings -/

theorem prefix_append_cases {p x y : Bytes} (isPrefix : p <+: x ++ y) :
    (p <+: x ∧ p.length < x.length) ∨ ∃ q, p = x ++ q ∧ q <+: y := by
  by_cases short : p.length < x.length
  · exact .inl ⟨List.prefix_of_prefix_length_le isPrefix (List.prefix_append x y) short.le, short⟩
  · obtain ⟨q, rfl⟩ := List.prefix_of_prefix_length_le (List.prefix_append x y) isPrefix
      (Nat.le_of_not_lt short)
    exact .inr ⟨q, rfl, (List.prefix_append_right_inj x).mp isPrefix⟩

/-- The arguments that the slices of a request starting at `start` show. -/
def arguments (mem : Mem) (start : Size) (slices : List Slice) : List Bytes :=
  slices.map fun s => slice mem (start + s.offset) s.len.toNat

theorem decimalValue_length {arg : Bytes} (small : arg.length ≤ messageMaxLength) :
    decimalValue (decimal arg.length) < 2 ^ 64 := by
  simp only [messageMaxLength] at small
  rw [decimalValue_decimal]
  omega

theorem encodeBulk_eq (arg : Bytes) :
    encodeBulk arg = dollar :: (decimal arg.length ++ (crlf ++ (arg ++ crlf))) := by
  simp [encodeBulk]

/-- Where the payload of a bulk string of length `n` starts, when its `$` stands at `cur`. -/
def payloadAt (cur : Size) (n : ℕ) : Size := cur + 1 + BitVec.ofNat 64 (decimal n ++ crlf).length

/-- With its header in the window, a bulk string is parsed or found to be too long. -/
theorem parseBulks_header (start : Size) (left : ℕ) {n : ℕ} (small : n ≤ messageMaxLength)
    (tail : Tail mem stop cur (dollar :: (decimal n ++ (crlf ++ rest))) behind) :
    Tail mem stop (payloadAt cur n) rest behind ∧
      (rest.length < n + 2 → parseBulks mem start stop (left + 1) cur = .error .incomplete) ∧
      (n + 2 ≤ rest.length → parseBulks mem start stop (left + 1) cur =
        match parseBulks mem start stop left (payloadAt cur n + BitVec.ofNat 64 (n + 2)) with
        | .error e => .error e
        | .ok (last, slices) =>
          .ok (last, ⟨payloadAt cur n - start, BitVec.ofNat 64 n⟩ :: slices)) := by
  obtain ⟨isDollar, number⟩ := tail.uncons
  have parsed := parseNumber_whole (isDigit_decimal n) number
    (by simp only [messageMaxLength] at small; rw [decimalValue_decimal]; omega)
  rw [decimalValue_decimal] at parsed
  have payload : Tail mem stop (payloadAt cur n) rest behind := by
    rw [← List.append_assoc] at number
    exact number.append
  have notStop : cur ≠ stop := by
    rintro rfl
    have := tail.ends
    simp at this
  have sum : payloadAt cur n + BitVec.ofNat 64 n + 2 =
      payloadAt cur n + BitVec.ofNat 64 (n + 2) := add_ofNat_add _ n 2
  -- what the check behind the payload compares
  have room : stop < payloadAt cur n + BitVec.ofNat 64 (n + 2) ↔ rest.length < n + 2 := by
    rw [BitVec.lt_def, payload.add_toNat (by omega), ← payload.ends]
    omega
  refine ⟨payload, fun short => ?_, fun long => ?_⟩
  · simp only [parseBulks, if_neg notStop, if_pos isDollar, parsed]
    rw [← payloadAt, sum, if_pos (room.mpr short)]
  · simp only [parseBulks, if_neg notStop, if_pos isDollar, parsed]
    rw [← payloadAt, sum]
    exact if_neg (by rw [room]; omega)

theorem parseBulks_whole (start : Size) {args : List Bytes}
    (small : ∀ arg ∈ args, arg.length ≤ messageMaxLength)
    (tail : Tail mem stop cur (encodeBulks args ++ more) behind) :
    ∃ slices, parseBulks mem start stop args.length cur =
        .ok (cur + BitVec.ofNat 64 (encodeBulks args).length, slices) ∧
      arguments mem start slices = args := by
  induction args generalizing cur with
  | nil => exact ⟨[], by simp [parseBulks, encodeBulks], rfl⟩
  | cons arg args ih =>
    have argSmall := small arg List.mem_cons_self
    have split : encodeBulks (arg :: args) ++ more = dollar :: (decimal arg.length ++ (crlf ++
        (arg ++ crlf ++ (encodeBulks args ++ more)))) := by
      simp [encodeBulks, encodeBulk]
    rw [split] at tail
    obtain ⟨payload, -, long⟩ := parseBulks_header start args.length argSmall
      tail
    -- the next bulk string begins where this one ends
    have behindPayload : payloadAt cur arg.length + BitVec.ofNat 64 (arg.length + 2) =
        cur + BitVec.ofNat 64 (encodeBulk arg).length := by
      rw [payloadAt, show (cur + 1 : Size) = cur + BitVec.ofNat 64 1 from rfl, add_ofNat_add,
        add_ofNat_add, encodeBulk_eq]
      congr 2
      simp [crlf]
      omega
    have next : Tail mem stop (payloadAt cur arg.length + BitVec.ofNat 64 (arg.length + 2))
        (encodeBulks args ++ more) behind := by
      have := payload.append
      rwa [show (arg ++ crlf).length = arg.length + 2 by simp [crlf]] at this
    obtain ⟨slices, loop, shown⟩ :=
      ih (fun other member => small other (List.mem_cons_of_mem _ member)) next
    refine ⟨⟨payloadAt cur arg.length - start, BitVec.ofNat 64 arg.length⟩ :: slices, ?_, ?_⟩
    · rw [List.length_cons, long (by simp [crlf]), loop, behindPayload, add_ofNat_add]
      simp [encodeBulks]
    · -- what the slice shows is the argument
      have argument : slice mem (payloadAt cur arg.length) arg.length = arg :=
        slice_eq (at_append.mp (at_append.mp payload.stands).1).1
      have len : (BitVec.ofNat 64 arg.length).toNat = arg.length := by
        simp only [messageMaxLength] at argSmall
        rw [BitVec.toNat_ofNat, Nat.mod_eq_of_lt (by omega)]
      simp only [arguments, List.map_cons, len, BitVec.add_comm start, BitVec.sub_add_cancel,
        argument, List.cons.injEq, true_and]
      simpa only [arguments, BitVec.add_comm start] using shown

/-- What the parsers return for a window that stops inside a request: `cuts` tells whether
it stops inside a number. -/
def verdictAt (cuts : Prop) [Decidable cuts] (behind : UInt8) : ParseError :=
  if cuts ∧ ¬ GoesOn behind then .error else .incomplete

theorem isDigit_of_append {p : Bytes} {n : ℕ} (isPrefix : p <+: decimal n) : ∀ d ∈ p, IsDigit d :=
  fun d member => isDigit_decimal n d (isPrefix.subset member)

theorem parseNumber_front {p : Bytes} {n : ℕ} (small : n ≤ messageMaxLength)
    (isPrefix : p <+: decimal n) (tail : Tail mem stop cur p behind) :
    parseNumber mem cur stop = .error (if GoesOn behind then .incomplete else .error) := by
  have value := decimalValue_prefix_le isPrefix
  rw [decimalValue_decimal] at value
  simp only [messageMaxLength] at small
  exact parseNumber_cut (isDigit_of_append isPrefix) (by omega) tail

theorem verdictAt_of_not {cuts : Prop} [Decidable cuts] (whole : ¬ cuts) :
    verdictAt cuts behind = .incomplete := if_neg fun both => whole both.1

theorem verdictAt_of {cuts : Prop} [Decidable cuts] (cut : cuts) :
    verdictAt cuts behind = if GoesOn behind then .incomplete else .error := by
  by_cases harmless : GoesOn behind <;> simp [verdictAt, cut, harmless]

theorem verdictAt_congr {cuts cuts' : Prop} [Decidable cuts] [Decidable cuts']
    (same : cuts ↔ cuts') : verdictAt cuts behind = verdictAt cuts' behind := by
  simp only [verdictAt, same]

theorem encodeBulk_length (arg : Bytes) :
    (encodeBulk arg).length = 1 + (decimal arg.length).length + 2 + (arg.length + 2) := by
  simp [encodeBulk, crlf]
  omega

theorem cutsBulk_inside {arg : Bytes} {args : List Bytes} {n : ℕ}
    (inside : n < (encodeBulk arg).length) :
    CutsBulk (arg :: args) n ↔ 1 ≤ n ∧ n ≤ 1 + (decimal arg.length).length := by
  rw [CutsBulk]
  exact or_iff_left fun later => absurd later.1 (Nat.not_le.mpr inside)

theorem cutsBulk_behind (arg : Bytes) (args : List Bytes) (n : ℕ) :
    CutsBulk (arg :: args) ((encodeBulk arg).length + n) ↔ CutsBulk args n := by
  have len := encodeBulk_length arg
  rw [CutsBulk, Nat.add_sub_cancel_left]
  constructor
  · rintro (inside | later)
    · omega
    · exact later.2
  · exact fun later => .inr ⟨Nat.le_add_right _ _, later⟩

theorem parseBulks_error {start : Size} {left : ℕ} {e : ParseError}
    (tail : Tail mem stop cur (dollar :: rest) behind)
    (number : parseNumber mem (cur + 1) stop = .error e) :
    parseBulks mem start stop (left + 1) cur = .error e := by
  have notStop : cur ≠ stop := by
    rintro rfl
    have := tail.ends
    simp at this
  simp only [parseBulks, if_neg notStop, if_pos tail.uncons.1, number]

theorem parseBulks_cut {start : Size} {args : List Bytes} {p : Bytes}
    (small : ∀ arg ∈ args, arg.length ≤ messageMaxLength) (isPrefix : p <+: encodeBulks args)
    (short : p.length < (encodeBulks args).length) (tail : Tail mem stop cur p behind) :
    parseBulks mem start stop args.length cur =
      .error (verdictAt (CutsBulk args p.length) behind) := by
  induction args generalizing cur p with
  | nil => simp [encodeBulks] at short
  | cons arg args ih =>
    have argSmall := small arg List.mem_cons_self
    have len := encodeBulk_length arg
    rw [show encodeBulks (arg :: args) = dollar :: (decimal arg.length ++ (crlf ++
      (arg ++ crlf ++ encodeBulks args))) by simp [encodeBulks, encodeBulk]] at isPrefix
    rcases List.prefix_cons_iff.mp isPrefix with rfl | ⟨p, rfl, inNumber⟩
    · -- nothing of the bulk string is there
      have notCut : ¬ CutsBulk (arg :: args) 0 := by
        rw [cutsBulk_inside (by omega)]
        omega
      rw [List.length_nil, verdictAt_of_not notCut, List.length_cons, parseBulks,
        if_pos tail.stop_eq]
    have cutNumber (inDigits : p <+: decimal arg.length) :
        parseBulks mem start stop (arg :: args).length cur =
          .error (verdictAt (CutsBulk (arg :: args) (dollar :: p).length) behind) := by
      have le := inDigits.length_le
      have cut : CutsBulk (arg :: args) (dollar :: p).length := by
        rw [List.length_cons, cutsBulk_inside (by omega)]
        omega
      rw [verdictAt_of cut]
      exact parseBulks_error tail (parseNumber_front argSmall inDigits tail.uncons.2)
    -- which part of the bulk string the window is cut in
    rcases prefix_append_cases inNumber with ⟨inDigits, -⟩ | ⟨p, rfl, behindDigits⟩
    · exact cutNumber inDigits
    rcases prefix_append_cases behindDigits with ⟨inCrlf, shorter⟩ | ⟨p, rfl, inPayload⟩
    · rcases List.prefix_cons_iff.mp inCrlf with rfl | ⟨p, rfl, inLf⟩
      · exact cutNumber (by simp)
      · -- the window stops between the `\r` and the `\n`
        obtain rfl : p = [] := by
          simp only [crlf, List.length_cons, List.length_nil] at shorter
          exact List.length_eq_zero_iff.mp (by omega)
        have notCut : ¬ CutsBulk (arg :: args) (dollar :: (decimal arg.length ++ [cr])).length := by
          have n : (dollar :: (decimal arg.length ++ [cr])).length =
              2 + (decimal arg.length).length := by simp; omega
          rw [n, cutsBulk_inside (by omega)]
          omega
        rw [verdictAt_of_not notCut]
        exact parseBulks_error tail (parseNumber_cr (isDigit_decimal _) tail.uncons.2
          (decimalValue_length argSmall))
    have n : (dollar :: (decimal arg.length ++ (crlf ++ p))).length =
        1 + (decimal arg.length).length + 2 + p.length := by simp [crlf]; omega
    obtain ⟨payload, tooShort, long⟩ := parseBulks_header start args.length argSmall
      tail
    rcases prefix_append_cases inPayload with ⟨-, shorter⟩ | ⟨p, rfl, later⟩
    · -- the payload is not there, or its CRLF
      have shorter : p.length < arg.length + 2 := by simpa [crlf] using shorter
      have notCut : ¬ CutsBulk (arg :: args)
          (dollar :: (decimal arg.length ++ (crlf ++ p))).length := by
        rw [n, cutsBulk_inside (by omega)]
        omega
      rw [verdictAt_of_not notCut]
      exact tooShort shorter
    · -- the whole bulk string is there, and a later one is cut
      have two : (arg ++ crlf).length = arg.length + 2 := by simp [crlf]
      have next := payload.append
      rw [two] at next
      have n' : (dollar :: (decimal arg.length ++ (crlf ++ (arg ++ crlf ++ p)))).length =
          (encodeBulk arg).length + p.length := by
        rw [n, len, List.length_append, two]
        omega
      have rest : p.length < (encodeBulks args).length := by
        rw [n', show encodeBulks (arg :: args) = encodeBulk arg ++ encodeBulks args from rfl,
          List.length_append] at short
        omega
      rw [List.length_cons, long (by rw [List.length_append, two]; omega),
        ih (fun other member => small other (List.mem_cons_of_mem _ member)) later rest next, n',
        verdictAt_congr (cutsBulk_behind arg args p.length)]

/-! ### Requests -/

theorem WellFormed.small {r : Request} (wellFormed : WellFormed r) :
    ∀ arg ∈ r, arg.length ≤ messageMaxLength := by
  intro arg member
  have short := wellFormed.short
  have inBulks : (encodeBulk arg).length ≤ (encodeBulks r).length :=
    (List.sublist_flatten_of_mem (List.mem_map_of_mem member)).length_le
  rw [encodeBulk_length] at inBulks
  rw [encode, List.length_append] at short
  omega

/-- The whole window, as a parser sees it. -/
structure Shows (mem : Mem) (b : RecvBuf) (window : Bytes) (behind : UInt8) : Prop where
  bytes : window.length = b.size
  stands : At mem b.start window
  next : mem b.stop = behind

theorem Shows.tail {b : RecvBuf} {window : Bytes} (shows : Shows mem b window behind) :
    Tail mem b.stop b.start window behind :=
  ⟨shows.stands, by rw [shows.bytes, b.stop_toNat], shows.next, b.stop_room⟩

section Resp

variable {b : RecvBuf} {r : Request} {window : Bytes}

theorem encode_eq (r : Request) :
    encode r = asterisk :: (decimal r.length ++ (crlf ++ encodeBulks r)) := by
  simp [encode, encodeHeader]

theorem encodeHeader_length (r : Request) :
    (encodeHeader r).length = 1 + (decimal r.length).length + 2 := by
  simp [encodeHeader, crlf]
  omega

/-- Where the bulk strings of a request of `argc` arguments start. -/
def bulksAt (b : RecvBuf) (argc : ℕ) : Size :=
  b.start + 1 + BitVec.ofNat 64 (decimal argc ++ crlf).length

theorem WellFormed.bulks_length (wellFormed : WellFormed r) : 2 ≤ (encodeBulks r).length := by
  obtain ⟨arg, args, rfl⟩ := List.exists_cons_of_length_pos wellFormed.nonempty
  have := encodeBulk_length arg
  simp only [encodeBulks, List.flatMap_cons, List.length_append]
  omega

/-- With the array header in the window, the bulk strings decide. -/
theorem parseResp_header (wellFormed : WellFormed r)
    (tail : Tail mem b.stop b.start (asterisk :: (decimal r.length ++ (crlf ++ rest))) behind) :
    Tail mem b.stop (bulksAt b r.length) rest behind ∧
      (rest.length < 2 → parseRespRequest mem b = .error .incomplete) ∧
      (2 ≤ rest.length → parseRespRequest mem b =
        match parseBulks mem b.start b.stop r.length (bulksAt b r.length) with
        | .error e => .error e
        | .ok (cur, slices) =>
          .ok ⟨b.start, BitVec.ofNat 64 r.length, cur - b.start, slices⟩) := by
  have few := wellFormed.few
  simp only [maxArgc] at few
  have number := tail.uncons.2
  have parsed := parseNumber_whole (isDigit_decimal r.length) number
    (by rw [decimalValue_decimal]; omega)
  rw [decimalValue_decimal] at parsed
  have bulks : Tail mem b.stop (bulksAt b r.length) rest behind := by
    rw [← List.append_assoc] at number
    exact number.append
  have notEmpty : b.start ≠ b.stop := by
    intro empty
    have := tail.ends
    rw [empty] at this
    simp at this
  have argc : (BitVec.ofNat 64 r.length).toNat = r.length := by
    rw [BitVec.toNat_ofNat, Nat.mod_eq_of_lt (by omega)]
  have notMany : ¬ maxArgc < r.length := Nat.not_lt.mpr few
  -- what the check behind the header compares
  have room : b.stop < bulksAt b r.length + 2 ↔ rest.length < 2 := by
    have sum : (bulksAt b r.length + 2).toNat = (bulksAt b r.length).toNat + 2 :=
      bulks.add_toNat (n := 2) (by omega)
    rw [BitVec.lt_def, sum, ← bulks.ends]
    omega
  refine ⟨bulks, fun short => ?_, fun long => ?_⟩
  · simp only [parseRespRequest, if_neg notEmpty, parsed, argc, if_neg notMany]
    rw [← bulksAt, if_pos (room.mpr short)]
  · simp only [parseRespRequest, if_neg notEmpty, parsed, argc, if_neg notMany]
    rw [← bulksAt]
    exact if_neg (by rw [room]; omega)

/-- A window that starts with a whole request: it is accepted, with its own arguments. -/
theorem parseResp_whole (wellFormed : WellFormed r) (shows : Shows mem b (encode r ++ more) behind) :
    ∃ args, parseRespRequest mem b = .ok args ∧ args.argc.toNat = r.length ∧ args.buf = b.start ∧
      args.len.toNat = (encode r).length ∧ arguments mem args.buf args.slices = r := by
  have tail := shows.tail
  rw [encode_eq, List.cons_append, List.append_assoc, List.append_assoc] at tail
  obtain ⟨bulks, -, long⟩ := parseResp_header wellFormed tail
  obtain ⟨slices, loop, shown⟩ := parseBulks_whole b.start wellFormed.small bulks
  have two := wellFormed.bulks_length
  have accepted : parseRespRequest mem b = .ok ⟨b.start, BitVec.ofNat 64 r.length,
      bulksAt b r.length + BitVec.ofNat 64 (encodeBulks r).length - b.start, slices⟩ := by
    rw [long (by rw [List.length_append]; omega), loop]
  refine ⟨_, accepted, ?_, rfl, ?_, shown⟩
  · have few := wellFormed.few
    simp only [maxArgc] at few
    simp only [BitVec.toNat_ofNat]
    omega
  · -- the last bulk string ends where the encoding does
    have len : (encode r).length = 1 + (decimal r.length ++ crlf).length + (encodeBulks r).length := by
      rw [encode, List.length_append, encodeHeader_length, List.length_append]
      simp [crlf]
      omega
    have last : bulksAt b r.length + BitVec.ofNat 64 (encodeBulks r).length =
        b.start + BitVec.ofNat 64 (encode r).length := by
      rw [bulksAt, show (b.start + 1 : Size) = b.start + BitVec.ofNat 64 1 from rfl,
        add_ofNat_add, add_ofNat_add, len, Nat.add_assoc]
    have wholeAt := shows.tail.add_toNat (n := (encode r).length)
      (by rw [List.length_append]; omega)
    rw [last, toNat_sub (by omega), wholeAt]
    omega

theorem parseResp_cut (wellFormed : WellFormed r) (isPrefix : window <+: encode r)
    (short : window.length < (encode r).length) (notEmpty : window ≠ [])
    (shows : Shows mem b window behind) :
    parseRespRequest mem b = .error (verdictAt (CutsNumber r window.length) behind) := by
  have tail := shows.tail
  have header := encodeHeader_length r
  have few := wellFormed.few
  have digitsSmall : r.length ≤ messageMaxLength := few.trans (by decide)
  have atStart : b.start ≠ b.stop := by
    intro empty
    have := tail.ends
    rw [empty] at this
    exact notEmpty (List.length_eq_zero_iff.mp (by omega))
  rw [encode_eq] at isPrefix
  rcases List.prefix_cons_iff.mp isPrefix with rfl | ⟨p, rfl, inNumber⟩
  · exact absurd rfl notEmpty
  have failing {e : ParseError} (number : parseNumber mem (b.start + 1) b.stop = .error e) :
      parseRespRequest mem b = .error e := by
    simp only [parseRespRequest, if_neg atStart, number]
  -- the window ends in the number of the header
  have cutNumber (inDigits : p <+: decimal r.length) : parseRespRequest mem b =
      .error (verdictAt (CutsNumber r (asterisk :: p).length) behind) := by
    have le := inDigits.length_le
    have cut : CutsNumber r (asterisk :: p).length :=
      .inl (by rw [List.length_cons]; omega)
    rw [verdictAt_of cut]
    exact failing (parseNumber_front digitsSmall inDigits tail.uncons.2)
  rcases prefix_append_cases inNumber with ⟨inDigits, -⟩ | ⟨p, rfl, behindDigits⟩
  · exact cutNumber inDigits
  rcases prefix_append_cases behindDigits with ⟨inCrlf, shorter⟩ | ⟨p, rfl, inBulks⟩
  · rcases List.prefix_cons_iff.mp inCrlf with rfl | ⟨p, rfl, inLf⟩
    · exact cutNumber (by simp)
    · -- it ends between the CR and the LF
      obtain rfl : p = [] := by
        simp only [crlf, List.length_cons, List.length_nil] at shorter
        exact List.length_eq_zero_iff.mp (by omega)
      have notCut : ¬ CutsNumber r (asterisk :: (decimal r.length ++ [cr])).length := by
        simp only [CutsNumber, List.length_cons, List.length_append, List.length_nil]
        omega
      rw [verdictAt_of_not notCut]
      refine failing (parseNumber_cr (isDigit_decimal _) tail.uncons.2 ?_)
      rw [decimalValue_decimal]
      simp only [messageMaxLength] at digitsSmall
      omega
  have n : (asterisk :: (decimal r.length ++ (crlf ++ p))).length =
      (encodeHeader r).length + p.length := by
    rw [header]
    simp [crlf]
    omega
  -- a window with the whole header is cut where its bulk strings are
  have bulksCut : CutsNumber r ((encodeHeader r).length + p.length) ↔
      2 ≤ p.length ∧ CutsBulk r p.length := by
    rw [CutsNumber, Nat.add_sub_cancel_left]
    constructor
    · rintro (inDigits | ⟨le, later⟩)
      · omega
      · exact ⟨by omega, later⟩
    · rintro ⟨le, later⟩
      exact .inr ⟨by omega, later⟩
  obtain ⟨bulks, tooShort, long⟩ := parseResp_header wellFormed tail
  rw [n, verdictAt_congr bulksCut]
  by_cases two : 2 ≤ p.length
  · -- two more bytes are there, and the loop over the bulk strings decides
    have rest : p.length < (encodeBulks r).length := by
      rw [n, encode, List.length_append] at short
      omega
    rw [long two, parseBulks_cut wellFormed.small inBulks rest bulks]
    exact congrArg Except.error (verdictAt_congr (by simp [two]))
  · rw [verdictAt_of_not (by simp [two])]
    exact tooShort (Nat.lt_of_not_le two)

end Resp

end GhettoRedis.Protocol
