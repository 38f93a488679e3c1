import GhettoRedis.Protocol.Available

/-!
# The grammar of arrays

The texts that `parse_resp_request` accepts, with the bytes that it skips unread, and those
among them that are RESP.
-/
namespace GhettoRedis.Protocol

open Lib

/-! ### Texts -/

/-- A bulk string as it is announced: the digits of its length, the byte behind their CR, the
payload, and the two bytes behind it. -/
structure Bulk where
  digits : Bytes
  skipped : UInt8
  payload : Bytes
  last : UInt8 × UInt8

/-- An array: its first byte, the digits of its length, the byte behind their CR, and its bulk
strings. -/
structure ArrayText where
  mark : UInt8
  digits : Bytes
  skipped : UInt8
  bulks : List Bulk

namespace Bulk

variable (bulk : Bulk)

def text : Bytes :=
  dollar :: (bulk.digits ++ cr :: bulk.skipped :: (bulk.payload ++ [bulk.last.1, bulk.last.2]))

/-- The length that is announced is that of the payload. -/
def Announced : Prop :=
  (∀ d ∈ bulk.digits, IsDigit d) ∧ decimalValue bulk.digits = bulk.payload.length

/-- There is a digit, and what the parser skips are line breaks. -/
def Strict : Prop := bulk.digits ≠ [] ∧ bulk.skipped = lf ∧ bulk.last = (cr, lf)

end Bulk

def bulkTexts (bulks : List Bulk) : Bytes := bulks.flatMap Bulk.text

namespace ArrayText

variable (a : ArrayText)

def text : Bytes := a.mark :: (a.digits ++ cr :: a.skipped :: bulkTexts a.bulks)

def Announced : Prop :=
  (∀ d ∈ a.digits, IsDigit d) ∧ decimalValue a.digits = a.bulks.length ∧
    ∀ bulk ∈ a.bulks, bulk.Announced

def Strict : Prop :=
  a.mark = asterisk ∧ a.digits ≠ [] ∧ a.skipped = lf ∧ ∀ bulk ∈ a.bulks, bulk.Strict

def payloads : List Bytes := a.bulks.map Bulk.payload

end ArrayText

/-- The arguments are those of the text at the front of the window. -/
structure Describes (mem : Mem) (b : RecvBuf) (args : CmdArgs) (a : ArrayText) : Prop where
  buf : args.buf = b.start
  argc : args.argc.toNat = a.bulks.length
  len : args.len.toNat = a.text.length
  lens : args.slices.map (fun s => s.len.toNat) = a.payloads.map List.length
  shown : arguments mem args.buf args.slices = a.payloads

/-! ### Texts are unique -/

theorem digits_unique {digits digits' rest rest' : Bytes} (are : ∀ d ∈ digits, IsDigit d)
    (are' : ∀ d ∈ digits', IsDigit d) (same : digits ++ cr :: rest = digits' ++ cr :: rest') :
    digits = digits' ∧ rest = rest' := by
  induction digits generalizing digits' with
  | nil =>
    cases digits' with
    | nil => exact ⟨rfl, by simpa using same⟩
    -- the CR of one side would be a digit of the other
    | cons d digits' =>
      simp only [List.nil_append, List.cons_append, List.cons.injEq] at same
      exact absurd same.1.symm (ne_cr_of_isDigit (are' d List.mem_cons_self))
  | cons d digits ih =>
    cases digits' with
    | nil =>
      simp only [List.nil_append, List.cons_append, List.cons.injEq] at same
      exact absurd same.1 (ne_cr_of_isDigit (are d List.mem_cons_self))
    | cons d' digits' =>
      simp only [List.cons_append, List.cons.injEq] at same
      obtain ⟨rfl, same⟩ := same
      obtain ⟨rfl, rest⟩ := ih (fun e mem => are e (List.mem_cons_of_mem _ mem))
        (fun e mem => are' e (List.mem_cons_of_mem _ mem)) same
      exact ⟨rfl, rest⟩

theorem Bulk.text_unique {bulk bulk' : Bulk} {rest rest' : Bytes} (announced : bulk.Announced)
    (announced' : bulk'.Announced) (same : bulk.text ++ rest = bulk'.text ++ rest') :
    bulk = bulk' ∧ rest = rest' := by
  simp only [Bulk.text, List.cons_append, List.append_assoc, List.cons.injEq, true_and] at same
  obtain ⟨digits, same⟩ := digits_unique announced.1 announced'.1 same
  simp only [List.cons.injEq] at same
  obtain ⟨skipped, same⟩ := same
  have len : bulk.payload.length = bulk'.payload.length := by
    rw [← announced.2, ← announced'.2, digits]
  obtain ⟨payload, last⟩ := List.append_inj same len
  simp only [List.nil_append, List.cons.injEq] at last
  obtain ⟨first, second, rest⟩ := last
  cases bulk
  cases bulk'
  simp_all [Prod.ext_iff]

theorem bulkTexts_unique {bulks bulks' : List Bulk} {rest rest' : Bytes}
    (announced : ∀ bulk ∈ bulks, bulk.Announced) (announced' : ∀ bulk ∈ bulks', bulk.Announced)
    (len : bulks.length = bulks'.length)
    (same : bulkTexts bulks ++ rest = bulkTexts bulks' ++ rest') : bulks = bulks' := by
  induction bulks generalizing bulks' with
  | nil => exact (List.length_eq_zero_iff.mp len.symm).symm
  | cons bulk bulks ih =>
    obtain ⟨bulk', bulks', rfl⟩ := List.exists_cons_of_length_pos (show 0 < bulks'.length by
      rw [← len]
      simp)
    simp only [bulkTexts, List.flatMap_cons, List.append_assoc] at same
    obtain ⟨rfl, later⟩ := Bulk.text_unique (announced bulk List.mem_cons_self)
      (announced' bulk' List.mem_cons_self) same
    rw [ih (fun b mem => announced b (List.mem_cons_of_mem _ mem))
      (fun b mem => announced' b (List.mem_cons_of_mem _ mem)) (by simpa using len) later]

theorem ArrayText.unique {a a' : ArrayText} {window : Bytes} (announced : a.Announced)
    (announced' : a'.Announced) (front : a.text <+: window) (front' : a'.text <+: window) : a = a' := by
  obtain ⟨rest, whole⟩ := front
  obtain ⟨rest', whole'⟩ := front'
  have same := whole.trans whole'.symm
  simp only [ArrayText.text, List.cons_append, List.append_assoc, List.cons.injEq] at same
  obtain ⟨mark, same⟩ := same
  obtain ⟨digits, same⟩ := digits_unique announced.1 announced'.1 same
  simp only [List.cons.injEq] at same
  obtain ⟨skipped, same⟩ := same
  have len : a.bulks.length = a'.bulks.length := by
    rw [← announced.2.1, ← announced'.2.1, digits]
  have bulks := bulkTexts_unique announced.2.2 announced'.2.2 len same
  cases a
  cases a'
  simp_all

variable {mem : Mem} {start stop cur : Size} {more : Bytes} {behind : UInt8}

/-! ### What is accepted -/

/-- One bulk string in memory. -/
theorem bulk_of_text {bulk : Bulk} (announced : bulk.Announced)
    (tail : Tail mem stop cur (bulk.text ++ more) behind) :
    ∃ payload len, cur ≠ stop ∧ mem cur = dollar ∧ parseNumber mem (cur + 1) stop = .ok (payload, len) ∧
      ¬ stop < payload + len + 2 ∧ payload + len + 2 = cur + BitVec.ofNat 64 bulk.text.length ∧
      len.toNat = bulk.payload.length ∧ slice mem payload len.toNat = bulk.payload := by
  have ends := tail.ends
  have room := tail.room
  have size : bulk.text.length = 1 + (bulk.digits.length + 2) + bulk.payload.length + 2 := by
    simp [Bulk.text]
    omega
  rw [List.length_append, size] at ends
  have value := announced.2
  have number : Tail mem stop (cur + 1) (bulk.digits ++ cr :: bulk.skipped ::
      (bulk.payload ++ ([bulk.last.1, bulk.last.2] ++ more))) behind := by
    simpa [Bulk.text] using tail.uncons.2
  have parsed := parseNumber_skips announced.1 number (by omega)
  have payload : Tail mem stop (cur + 1 + BitVec.ofNat 64 (bulk.digits.length + 2))
      (bulk.payload ++ ([bulk.last.1, bulk.last.2] ++ more)) behind := by
    rw [show bulk.digits ++ cr :: bulk.skipped :: (bulk.payload ++ ([bulk.last.1, bulk.last.2] ++ more)) =
      (bulk.digits ++ [cr, bulk.skipped]) ++ (bulk.payload ++ ([bulk.last.1, bulk.last.2] ++ more)) by
        simp] at number
    have := number.append
    rwa [List.length_append] at this
  have len : (BitVec.ofNat 64 (decimalValue bulk.digits)).toNat = bulk.payload.length := by
    rw [BitVec.toNat_ofNat, value, Nat.mod_eq_of_lt (by omega)]
  -- the cursor moves over the whole text of the bulk
  have last : cur + 1 + BitVec.ofNat 64 (bulk.digits.length + 2) +
      BitVec.ofNat 64 (decimalValue bulk.digits) + 2 = cur + BitVec.ofNat 64 bulk.text.length := by
    rw [show (cur + 1 : Size) = cur + BitVec.ofNat 64 1 from rfl, add_ofNat_add, add_ofNat_add, value, size,
      ← Nat.add_assoc]
    exact add_ofNat_add cur _ 2
  refine ⟨_, _, ?_, tail.uncons.1, parsed, ?_, last, len, ?_⟩
  · rintro rfl
    omega
  · rw [last, BitVec.lt_def, tail.add_toNat (by rw [List.length_append]; omega), size]
    omega
  · rw [len]
    exact slice_eq (at_append.mp payload.stands).1

theorem bulks_of_texts {bulks : List Bulk} (announced : ∀ bulk ∈ bulks, bulk.Announced)
    (tail : Tail mem stop cur (bulkTexts bulks ++ more) behind) :
    ∃ found, Bulks mem stop bulks.length cur found (cur + BitVec.ofNat 64 (bulkTexts bulks).length) ∧
      found.map (fun at_len => at_len.2.toNat) = bulks.map (fun bulk => bulk.payload.length) ∧
      found.map (fun at_len => slice mem at_len.1 at_len.2.toNat) = bulks.map Bulk.payload := by
  induction bulks generalizing cur with
  | nil =>
    refine ⟨[], ?_, rfl, rfl⟩
    simpa [bulkTexts] using @Bulks.nil mem stop cur
  | cons bulk bulks ih =>
    have split : bulkTexts (bulk :: bulks) = bulk.text ++ bulkTexts bulks := rfl
    rw [split, List.append_assoc] at tail
    obtain ⟨payload, len, notStop, isDollar, number, inside, next, lens, shown⟩ :=
      bulk_of_text (announced bulk List.mem_cons_self) tail
    obtain ⟨found, chain, lens', shown'⟩ :=
      ih (fun other mem => announced other (List.mem_cons_of_mem _ mem)) tail.append
    rw [← next] at chain
    have chain := Bulks.cons notStop isDollar number inside chain
    rw [next, add_ofNat_add, ← List.length_append, ← split] at chain
    refine ⟨(payload, len) :: found, chain, ?_, ?_⟩
    · rw [List.map_cons, List.map_cons, lens, lens']
    · rw [List.map_cons, List.map_cons, shown, shown']

theorem ArrayText.text_length (a : ArrayText) :
    a.text.length = 1 + (a.digits.length + 2) + (bulkTexts a.bulks).length := by
  simp [ArrayText.text]
  omega

theorem bulkTexts_two {bulks : List Bulk} (some : bulks ≠ []) : 2 ≤ (bulkTexts bulks).length := by
  obtain ⟨bulk, bulks, rfl⟩ := List.exists_cons_of_ne_nil some
  simp [bulkTexts, Bulk.text]
  omega

/-- A text with at most 64 bulk strings is accepted, an empty one when two more bytes follow. -/
theorem parseResp_accepts {b : RecvBuf} {a : ArrayText} (announced : a.Announced)
    (few : a.bulks.length ≤ maxArgc) (shows : Shows mem b (a.text ++ more) behind)
    (behindEmpty : a.bulks = [] → 2 ≤ more.length) :
    ∃ args, parseRespRequest mem b = .ok args ∧ Describes mem b args a := by
  have tail := shows.tail
  have ends := tail.ends
  have room := tail.room
  have size := a.text_length
  have value := announced.2.1
  rw [List.length_append, size] at ends
  have small := few
  simp only [maxArgc] at small
  have number : Tail mem b.stop (b.start + 1)
      (a.digits ++ cr :: a.skipped :: (bulkTexts a.bulks ++ more)) behind := by
    simpa [ArrayText.text] using tail.uncons.2
  have parsed := parseNumber_skips announced.1 number (by omega)
  have argc : (BitVec.ofNat 64 (decimalValue a.digits)).toNat = a.bulks.length := by
    rw [BitVec.toNat_ofNat, value, Nat.mod_eq_of_lt (by omega)]
  have bulks : Tail mem b.stop (b.start + 1 + BitVec.ofNat 64 (a.digits.length + 2))
      (bulkTexts a.bulks ++ more) behind := by
    rw [show a.digits ++ cr :: a.skipped :: (bulkTexts a.bulks ++ more) =
      (a.digits ++ [cr, a.skipped]) ++ (bulkTexts a.bulks ++ more) by simp] at number
    have := number.append
    rwa [List.length_append] at this
  obtain ⟨found, chain, lens, shown⟩ := bulks_of_texts announced.2.2 bulks
  -- the header is followed by two bytes: those of a bulk, or `behindEmpty`
  have two : 2 ≤ (bulkTexts a.bulks).length + more.length := by
    by_cases none : a.bulks = []
    · exact (behindEmpty none).trans (Nat.le_add_left _ _)
    · exact (bulkTexts_two none).trans (Nat.le_add_right _ _)
  have enough : ¬ b.stop < b.start + 1 + BitVec.ofNat 64 (a.digits.length + 2) + 2 := by
    have sum : b.start + 1 + BitVec.ofNat 64 (a.digits.length + 2) + 2 =
        b.start + BitVec.ofNat 64 (1 + (a.digits.length + 2) + 2) := by
      rw [show b.start + 1 = b.start + BitVec.ofNat 64 1 from rfl, add_ofNat_add]
      exact add_ofNat_add b.start _ 2
    rw [sum, BitVec.lt_def, tail.add_toNat (by rw [List.length_append]; omega)]
    omega
  have notEmpty : b.start ≠ b.stop := by
    intro empty
    rw [empty] at ends
    omega
  -- the last bulk ends where the text does
  have last : b.start + 1 + BitVec.ofNat 64 (a.digits.length + 2) +
      BitVec.ofNat 64 (bulkTexts a.bulks).length = b.start + BitVec.ofNat 64 a.text.length := by
    rw [show b.start + 1 = b.start + BitVec.ofNat 64 1 from rfl, add_ofNat_add, add_ofNat_add, size,
      ← Nat.add_assoc]
  refine ⟨_, parseRespRequest_ok_iff.mpr
    ⟨notEmpty, _, _, found, _, parsed, argc.trans_le few, enough, argc ▸ chain, rfl⟩, ?_⟩
  constructor
  · rfl
  · exact argc
  · have whole := tail.add_toNat (n := a.text.length) (by rw [List.length_append]; omega)
    show (_ - b.start : Size).toNat = _
    rw [last, toNat_sub (by omega), whole]
    omega
  · simpa [sliceOf, ArrayText.payloads, Function.comp_def] using lens
  · simpa [arguments, sliceOf, ArrayText.payloads, Function.comp_def, BitVec.add_comm b.start] using shown

/-! ### What was accepted -/

theorem numberLoop_ok {fuel : ℕ} {p res last n : Size}
    (done : numberLoop mem fuel p res = .ok (last, n)) :
    ∃ digits, At mem p (digits ++ [cr]) ∧ (∀ d ∈ digits, IsDigit d) ∧ digits.length < fuel ∧
      last = p + BitVec.ofNat 64 digits.length ∧ n.toNat = valueFrom res.toNat digits := by
  induction fuel generalizing p res with
  | zero => cases done
  | succ fuel ih =>
    rw [numberLoop] at done
    split at done
    next isCr =>
      cases done
      exact ⟨[], by simpa [at_cons] using isCr, by simp, by simp, by simp, rfl⟩
    next =>
      split at done
      next => cases done
      next isDigit =>
        split at done
        next => cases done
        next fits =>
          have isDigit : IsDigit (mem p) := isDigit_iff.mpr isDigit
          have small := isDigit.value_lt
          -- the digit was taken, so the sum has not wrapped
          rw [guard_iff small, Nat.not_le] at fits
          obtain ⟨digits, stands, are, bound, rfl, value⟩ := ih done
          have next : (res * 10 + digitOf (mem p)).toNat = res.toNat * 10 + digitValue (mem p) := by
            have ten : (10 : Size).toNat = 10 := rfl
            rw [BitVec.toNat_add, BitVec.toNat_mul, ten, digitOf_toNat]
            omega
          refine ⟨mem p :: digits, at_cons.mpr ⟨rfl, stands⟩, ?_, by simpa using bound, ?_, ?_⟩
          · intro d member
            rcases List.mem_cons.mp member with rfl | later
            · exact isDigit
            · exact are d later
          · exact (add_ofNat_add p 1 digits.length).trans (by rw [List.length_cons, Nat.add_comm])
          · rw [value, next]
            rfl

theorem parseNumber_ok {payload n : Size} (small : stop.toNat + 2 < 2 ^ 64)
    (done : parseNumber mem cur stop = .ok (payload, n)) :
    ∃ digits skipped, At mem cur (digits ++ [cr, skipped]) ∧ (∀ d ∈ digits, IsDigit d) ∧
      cur.toNat + digits.length + 2 ≤ stop.toNat ∧
      payload = cur + BitVec.ofNat 64 (digits.length + 2) ∧ n.toNat = decimalValue digits := by
  rw [parseNumber] at done
  split at done
  next => cases done
  next p res ran =>
    split at done
    next => cases done
    next inside =>
      cases done
      obtain ⟨digits, stands, are, bound, rfl, value⟩ := numberLoop_ok ran
      have next : cur + BitVec.ofNat 64 digits.length + 2 = cur + BitVec.ofNat 64 (digits.length + 2) :=
        add_ofNat_add cur digits.length 2
      have whole : (cur + BitVec.ofNat 64 (digits.length + 2)).toNat = cur.toNat + (digits.length + 2) :=
        toNat_add_ofNat (by omega)
      rw [next, BitVec.lt_def, whole] at inside
      refine ⟨digits, mem (cur + BitVec.ofNat 64 (digits.length + 1)), ?_, are, by omega, next, value⟩
      rw [show digits ++ [cr, mem (cur + BitVec.ofNat 64 (digits.length + 1))] =
        (digits ++ [cr]) ++ [mem (cur + BitVec.ofNat 64 (digits.length + 1))] by simp, at_append]
      refine ⟨stands, ?_⟩
      rw [List.length_append, List.length_singleton]
      exact at_cons.mpr ⟨rfl, at_nil⟩

theorem at_slice (mem : Mem) (a : Size) (len : ℕ) : At mem a (slice mem a len) := by
  intro i h
  simp [slice]

theorem slice_length (mem : Mem) (a : Size) (len : ℕ) : (slice mem a len).length = len := by
  simp [slice]

/-- Bulk strings in memory are a text, unless one of them ends around the end of memory. -/
theorem texts_of_bulks {left : ℕ} {found : List (Size × Size)} {last : Size}
    (small : stop.toNat + 2 < 2 ^ 64) (chain : Bulks mem stop left cur found last)
    (noWrap : ∀ at_len ∈ found, at_len.1.toNat + at_len.2.toNat + 2 < 2 ^ 64)
    (within : cur.toNat ≤ stop.toNat) :
    ∃ bulks, bulks.length = left ∧ (∀ bulk ∈ bulks, bulk.Announced) ∧ At mem cur (bulkTexts bulks) ∧
      last.toNat = cur.toNat + (bulkTexts bulks).length ∧
      found.map (fun at_len => at_len.2.toNat) = bulks.map (fun bulk => bulk.payload.length) ∧
      found.map (fun at_len => slice mem at_len.1 at_len.2.toNat) = bulks.map Bulk.payload := by
  induction chain with
  | nil cur => exact ⟨[], rfl, by simp, at_nil, by simp [bulkTexts], rfl, rfl⟩
  | @cons left cur payload len last rest notStop isDollar number inside chain ih =>
    have behind : (cur + 1).toNat = cur.toNat + 1 := toNat_add (b := 1) (by simp; omega)
    obtain ⟨digits, skipped, there, are, fits, payloadAt, value⟩ := parseNumber_ok small number
    have noWrap' := noWrap (payload, len) List.mem_cons_self
    -- the text of this bulk, with the bytes that the parser does not look at
    let bulk : Bulk := ⟨digits, skipped, slice mem payload len.toNat,
      (mem (payload + len), mem (payload + len + 1))⟩
    have payloadLen : bulk.payload.length = len.toNat := slice_length ..
    have size : bulk.text.length = 1 + (digits.length + 2) + len.toNat + 2 := by
      rw [← payloadLen]
      simp [Bulk.text, bulk]
      omega
    have lenIs : BitVec.ofNat 64 len.toNat = len := by simp
    -- the cursor of the loop is at the end of that text
    have next : payload + len + 2 = cur + BitVec.ofNat 64 bulk.text.length := by
      rw [size, ← add_ofNat_add, ← add_ofNat_add, ← add_ofNat_add, lenIs, payloadAt]
      rfl
    have nextAt : (payload + len + 2).toNat = cur.toNat + bulk.text.length := by
      have first : payload.toNat = cur.toNat + 1 + (digits.length + 2) := by
        rw [payloadAt, toNat_add_ofNat (by omega), behind]
      -- `noWrap` is needed here: the length does not lead around the memory
      rw [next, toNat_add_ofNat (by rw [size]; dsimp only at noWrap'; omega)]
    have text : At mem cur bulk.text := by
      refine at_cons.mpr ⟨isDollar, ?_⟩
      rw [show bulk.digits ++ cr :: bulk.skipped :: (bulk.payload ++ [bulk.last.1, bulk.last.2]) =
        (digits ++ [cr, skipped]) ++ (bulk.payload ++ [bulk.last.1, bulk.last.2]) by simp [bulk], at_append]
      refine ⟨there, ?_⟩
      rw [List.length_append, List.length_cons, List.length_singleton, ← payloadAt, at_append]
      refine ⟨at_slice mem payload len.toNat, ?_⟩
      rw [payloadLen, lenIs]
      exact at_cons.mpr ⟨rfl, at_cons.mpr ⟨rfl, at_nil⟩⟩
    obtain ⟨bulks, count, announced, stands, is, lens, shown⟩ :=
      ih (fun at_len member => noWrap at_len (List.mem_cons_of_mem _ member)) (by
        rw [BitVec.lt_def] at inside
        omega)
    refine ⟨bulk :: bulks, by rw [List.length_cons, count], ?_, ?_, ?_, ?_, ?_⟩
    · intro other member
      rcases List.mem_cons.mp member with rfl | later
      · exact ⟨are, by rw [payloadLen, ← value]⟩
      · exact announced other later
    · have split : bulkTexts (bulk :: bulks) = bulk.text ++ bulkTexts bulks := rfl
      rw [split, at_append, ← next]
      exact ⟨text, stands⟩
    · rw [is, nextAt, Nat.add_assoc, ← List.length_append]
      rfl
    · rw [List.map_cons, List.map_cons, lens, payloadLen]
    · rw [List.map_cons, List.map_cons, shown]

/-- The lengths that are announced below 2 ^ 32 do not make `cur + arglen + 2` wrap. -/
def NoShortLengthWraps (mem : Mem) (b : RecvBuf) : Prop :=
  ∀ cur argc bulks last, parseNumber mem (b.start + 1) b.stop = .ok (cur, argc) →
    argc.toNat ≤ maxArgc → ¬ b.stop < cur + 2 → Bulks mem b.stop argc.toNat cur bulks last →
    (∀ bulk ∈ bulks, bulk.2.toNat < 2 ^ 32) →
    ∀ bulk ∈ bulks, bulk.1.toNat + bulk.2.toNat + 2 < 2 ^ 64

/-- What was accepted without a wrap is a text at the front of the window. -/
theorem parseResp_text {b : RecvBuf} {window : Bytes} {args : CmdArgs} (noWrap : NoShortLengthWraps mem b)
    (shows : Shows mem b window behind) (accepted : parseRespRequest mem b = .ok args)
    (below : ∀ s ∈ args.slices, s.len.toNat < 2 ^ 32) :
    ∃ a, a.Announced ∧ a.bulks.length ≤ maxArgc ∧ a.text <+: window ∧ Describes mem b args a ∧
      (a.bulks = [] → a.text.length + 2 ≤ window.length) := by
  obtain ⟨notEmpty, cur, argc, found, last, number, few, enough, chain, rfl⟩ :=
    parseRespRequest_ok_iff.mp accepted
  have short : ∀ at_len ∈ found, at_len.2.toNat < 2 ^ 32 := by
    intro at_len member
    exact below _ (List.mem_map_of_mem member)
  have stopAt := b.stop_toNat
  have small := b.stop_lt
  have first : (b.start + 1).toNat = b.start.toNat + 1 := toNat_add (b := 1) (by simp; omega)
  obtain ⟨digits, skipped, there, are, fits, curIs, value⟩ := parseNumber_ok small number
  have curAt : cur.toNat = b.start.toNat + (1 + (digits.length + 2)) := by
    rw [curIs, toNat_add_ofNat (by omega)]
    omega
  have noWrap := noWrap _ _ _ _ number few enough chain short
  obtain ⟨bulks, count, announced, stands, lastAt, lens, shown⟩ :=
    texts_of_bulks small chain noWrap (by omega)
  obtain ⟨-, leStop, -, -⟩ := chain.inside small noWrap (by omega)
  -- the whole text, as it stands in front of the window
  let a : ArrayText := ⟨mem b.start, digits, skipped, bulks⟩
  have size : a.text.length = 1 + (digits.length + 2) + (bulkTexts bulks).length := a.text_length
  have whole : last.toNat = b.start.toNat + a.text.length := by omega
  have bytes := shows.bytes
  have text : At mem b.start a.text := by
    refine at_cons.mpr ⟨rfl, ?_⟩
    rw [show a.digits ++ cr :: a.skipped :: bulkTexts a.bulks =
      (digits ++ [cr, skipped]) ++ bulkTexts bulks by simp [a], at_append]
    refine ⟨there, ?_⟩
    rwa [List.length_append, List.length_cons, List.length_singleton, ← curIs]
  have front : a.text <+: window := by
    have same : window.take a.text.length = a.text := by
      apply List.ext_get
      · rw [List.length_take]
        omega
      · intro i h h'
        have here := text i h'
        rw [shows.stands i (by omega)] at here
        simpa using here
    rw [← same]
    exact List.take_prefix ..
  refine ⟨a, ⟨are, by rw [← value]; exact count.symm, announced⟩, count.trans_le few, front, ?_, ?_⟩
  · constructor
    · rfl
    · exact count.symm
    · show (last - b.start).toNat = _
      rw [toNat_sub (by omega)]
      omega
    · simpa [a, sliceOf, ArrayText.payloads, Function.comp_def] using lens
    · simpa [a, arguments, sliceOf, ArrayText.payloads, Function.comp_def, BitVec.add_comm b.start] using shown
  · -- without bulks there are still the two bytes that the header asks for
    intro none
    have none : (bulkTexts bulks).length = 0 := by
      rw [show bulks = [] from none]
      rfl
    have two : (cur + 2).toNat = cur.toNat + 2 := toNat_add (b := 2) (by simp; omega)
    rw [BitVec.lt_def, two] at enough
    omega

/-! ### Only RESP -/

/-- What `parse_resp_request` accepts with lengths below 2 ^ 32 is RESP, with the arguments that it
denotes, and all RESP arrays of at most 64 bulk strings are accepted. -/
structure RespExact (mem : Mem) (b : RecvBuf) (window : Bytes) : Prop where
  sound : ∀ args, parseRespRequest mem b = .ok args → (∀ s ∈ args.slices, s.len.toNat < 2 ^ 32) →
    ∃ a : ArrayText, a.Announced ∧ a.Strict ∧ a.text <+: window ∧ Describes mem b args a
  complete : ∀ a : ArrayText, a.Announced → a.Strict → a.bulks.length ≤ maxArgc → a.text <+: window →
    ∃ args, parseRespRequest mem b = .ok args

/-- The bytes at the front of the window that `parse_resp_request` does not look at are those of
RESP: the first one, the one behind the CR of a number and the two behind a payload. Its numbers
have digits, and behind an empty array there are two more bytes. -/
structure Checked (window : Bytes) : Prop where
  strict : ∀ a : ArrayText, a.Announced → a.bulks.length ≤ maxArgc → a.text <+: window →
    (a.bulks = [] → a.text.length + 2 ≤ window.length) → a.Strict
  room : ∀ a : ArrayText, a.Announced → a.Strict → a.bulks = [] → a.text <+: window →
    a.text.length + 2 ≤ window.length

theorem Bulks.payload_le {left : ℕ} {found : List (Size × Size)} {last : Size}
    (small : stop.toNat + 2 < 2 ^ 64) (chain : Bulks mem stop left cur found last) :
    ∀ at_len ∈ found, at_len.1.toNat ≤ stop.toNat := by
  induction chain with
  | nil => simp
  | cons _ _ number _ _ ih =>
    intro at_len member
    rcases List.mem_cons.mp member with rfl | later
    · exact (parseNumber_bounds small number).2
    · exact ih at_len later

/-- A text at the front of the window, with the bytes behind it. -/
theorem accepts_front {b : RecvBuf} {window : Bytes} {a : ArrayText} (announced : a.Announced)
    (few : a.bulks.length ≤ maxArgc) (front : a.text <+: window) (shows : Shows mem b window behind)
    (room : a.bulks = [] → a.text.length + 2 ≤ window.length) :
    ∃ args, parseRespRequest mem b = .ok args ∧ Describes mem b args a := by
  obtain ⟨more, rfl⟩ := front
  refine parseResp_accepts announced few shows fun none => ?_
  have := room none
  rw [List.length_append] at this
  omega

theorem payload_le {a : ArrayText} {window : Bytes} (front : a.text <+: window) :
    ∀ len ∈ a.payloads.map List.length, len ≤ window.length := by
  intro len member
  obtain ⟨payload, isPayload, rfl⟩ := List.mem_map.mp member
  obtain ⟨bulk, isBulk, rfl⟩ := List.mem_map.mp isPayload
  have size := front.length_le
  have inBulks : bulk.text.length ≤ (bulkTexts a.bulks).length :=
    (List.sublist_flatten_of_mem (List.mem_map_of_mem isBulk)).length_le
  rw [a.text_length] at size
  simp only [Bulk.text, List.length_cons, List.length_append] at inBulks
  omega

/-- The parser accepts only RESP and all of it exactly when the bytes that it skips are those of
RESP, no number is empty, no empty array ends the window, and no length wraps. -/
theorem resp_exact_iff (conn : Conn) (outside : Mem) :
    RespExact (conn.mem outside) conn.recv conn.recv.window ↔
      Checked conn.recv.window ∧ NoShortLengthWraps (conn.mem outside) conn.recv := by
  have shows := conn.shows outside
  have bytes := shows.bytes
  have inside := conn.recv.inside
  have small := conn.recv.stop_lt
  have room := conn.recv.stop_room
  simp only [messageMaxLength] at inside room
  constructor
  · intro exact
    refine ⟨⟨?_, ?_⟩, ?_⟩
    · -- the accepted text is the only one in front of the window
      intro a announced few front behindEmpty
      obtain ⟨args, accepted, describes⟩ := accepts_front announced few front shows behindEmpty
      have below : ∀ s ∈ args.slices, s.len.toNat < 2 ^ 32 := by
        intro s member
        have len : s.len.toNat ∈ a.payloads.map List.length := by
          rw [← describes.lens]
          exact List.mem_map_of_mem member
        have := payload_le front _ len
        omega
      obtain ⟨a', announced', strict, front', -⟩ := exact.sound args accepted below
      rwa [ArrayText.unique announced announced' front front']
    · -- behind the header the parser wants to see two more bytes
      intro a announced strict none front
      obtain ⟨args, accepted⟩ := exact.complete a announced strict (by simp [none]) front
      obtain ⟨-, cur, argc, -, -, number, -, enough, -⟩ := parseRespRequest_ok_iff.mp accepted
      obtain ⟨more, whole⟩ := front
      rw [← whole] at shows
      have tail : Tail (conn.mem outside) conn.recv.stop (conn.recv.start + 1)
          (a.digits ++ cr :: a.skipped :: (bulkTexts a.bulks ++ more)) conn.behind := by
        simpa [ArrayText.text] using shows.tail.uncons.2
      have value := announced.2.1
      have parsed := parseNumber_skips announced.1 tail (by rw [value, none]; simp)
      rw [parsed] at number
      cases number
      have sum : conn.recv.start + 1 + BitVec.ofNat 64 (a.digits.length + 2) + 2 =
          conn.recv.start + BitVec.ofNat 64 (1 + (a.digits.length + 2) + 2) := by
        rw [show conn.recv.start + 1 = conn.recv.start + BitVec.ofNat 64 1 from rfl, add_ofNat_add]
        exact add_ofNat_add conn.recv.start _ 2
      have len : a.text.length = 1 + (a.digits.length + 2) := by
        rw [a.text_length, none]
        rfl
      have le : a.text.length ≤ conn.recv.window.length := by
        rw [← whole, List.length_append]
        omega
      have stopAt := conn.recv.stop_toNat
      rw [sum, BitVec.lt_def, shows.tail.add_toNat (by rw [List.length_append]; omega)] at enough
      omega
    · intro cur argc found last number few enough chain short at_len member
      -- a number that ended at the start would lie outside of the window
      have notEmpty : conn.recv.start ≠ conn.recv.stop := by
        intro empty
        have bounds := parseNumber_bounds small number
        rw [← empty] at bounds small
        have first : (conn.recv.start + 1).toNat = conn.recv.start.toNat + 1 :=
          toNat_add (b := 1) (by simp; omega)
        omega
      have accepted := parseRespRequest_ok_iff.mpr
        ⟨notEmpty, cur, argc, found, last, number, few, enough, chain, rfl⟩
      obtain ⟨a, announced, -, front, describes⟩ := exact.sound _ accepted (by
        intro s inSlices
        obtain ⟨other, isOther, rfl⟩ := List.mem_map.mp inSlices
        exact short other isOther)
      have len : at_len.2.toNat ∈ a.payloads.map List.length := by
        rw [← describes.lens, List.map_map]
        exact List.mem_map_of_mem member
      have := payload_le front _ len
      have := chain.payload_le small at_len member
      omega
  · rintro ⟨checked, noWrap⟩
    constructor
    · intro args accepted below
      obtain ⟨a, announced, few, front, describes, behindEmpty⟩ :=
        parseResp_text noWrap shows accepted below
      exact ⟨a, announced, checked.strict a announced few front behindEmpty, front, describes⟩
    · intro a announced strict few front
      obtain ⟨args, accepted, -⟩ := accepts_front announced few front shows fun none =>
        checked.room a announced strict none front
      exact ⟨args, accepted⟩

/-- A payload with two other bytes behind it, received on a fresh connection. -/
def badTerminator : RecvBuf :=
  (RecvBuf.fresh 65536 RecvBuf.addressable_first).receive (asciiBytes "*1\r\n$4\r\nPINGxx") (by decide)

/-- It is accepted. -/
theorem bad_terminator_accepted :
    ¬ RespExact ((Conn.accepted 0 badTerminator).mem fun _ => 0) badTerminator
      (asciiBytes "*1\r\n$4\r\nPINGxx") := by
  intro exact
  have accepted : parseRespRequest ((Conn.accepted 0 badTerminator).mem fun _ => 0) badTerminator =
      .ok ⟨65536, 1, 14, [⟨8, 4⟩]⟩ := by decide +kernel
  have small : ∀ s ∈ [(⟨8, 4⟩ : Slice)], s.len.toNat < 2 ^ 32 := by
    intro s member
    rw [List.mem_singleton] at member
    subst member
    decide
  obtain ⟨a, announced, strict, front, -⟩ := exact.sound _ accepted small
  -- the only text that these bytes announce
  let b : ArrayText := ⟨asterisk, [49], lf, [⟨[52], lf, asciiBytes "PING", (120, 120)⟩]⟩
  have digit {x d : UInt8} (is : IsDigit x) (member : d ∈ [x]) : IsDigit d :=
    List.mem_singleton.mp member ▸ is
  have announced' : b.Announced := by
    refine ⟨fun d => digit (by decide), by decide, ?_⟩
    intro bulk member
    rw [List.mem_singleton] at member
    subst member
    exact ⟨fun d => digit (by decide), by decide⟩
  have same : a = b := ArrayText.unique announced announced' front (by decide)
  subst same
  have last := (strict.2.2.2 _ (List.mem_singleton_self _)).2.2
  revert last
  decide

/-! ### Decoding -/

/-- A request that is encoded at the front of the window is read back, whatever lies behind it. -/
theorem decode_encode (r : Request) (rest : Bytes) (conn : Conn) (outside : Mem) (some : 1 ≤ r.length)
    (few : r.length ≤ maxArgc) (window : conn.recv.window = encode r ++ rest) :
    ∃ args, parseRespRequest (conn.mem outside) conn.recv = .ok args ∧ args.argc.toNat = r.length ∧
      args.len.toNat = (encode r).length ∧
      arguments (conn.mem outside) args.buf args.slices = r := by
  have shows := conn.shows outside
  have size := shows.bytes
  have inside := conn.recv.inside
  rw [window] at shows
  rw [window, List.length_append] at size
  obtain ⟨args, accepted, argc, -, len, shown⟩ := parseResp_whole ⟨some, few, by omega⟩ shows
  exact ⟨args, accepted, argc, len, shown⟩

/-- An `ECHO` of nothing, with the beginning of another request behind it. -/
def echoNothing : Request := [asciiBytes "ECHO", []]

theorem echoNothing_fits : (encode echoNothing ++ asciiBytes "*1").length ≤ messageMaxLength := by decide

def echoReceived : RecvBuf :=
  (RecvBuf.fresh 65536 RecvBuf.addressable_first).receive (encode echoNothing ++ asciiBytes "*1")
    ((Nat.zero_add _).trans_le echoNothing_fits)

theorem decode_encode_echo : ∃ args,
    parseRespRequest ((Conn.accepted 0 echoReceived).mem fun _ => 0) echoReceived = .ok args ∧
      args.argc.toNat = 2 ∧ args.len.toNat = (encode echoNothing).length ∧
      arguments ((Conn.accepted 0 echoReceived).mem fun _ => 0) args.buf args.slices = echoNothing :=
  decode_encode echoNothing (asciiBytes "*1") (Conn.accepted 0 echoReceived) (fun _ => 0) (by decide)
    (by decide) (by decide +kernel)

end GhettoRedis.Protocol
