import GhettoRedis.Protocol.Grammar

/-!
# Complete requests

What counts as a complete request at the front of a window: a line that ends with CR LF, or an
array of 1 to 64 bulk strings. The parsers find none of them incomplete.
-/
namespace GhettoRedis.Protocol

open Lib

/-- A bulk string; its length may have leading zeros. -/
inductive IsBulk : Bytes → Prop
  | intro {digits arg : Bytes} : digits ≠ [] → (∀ d ∈ digits, IsDigit d) →
      decimalValue digits = arg.length → IsBulk (dollar :: (digits ++ (crlf ++ (arg ++ crlf))))

inductive IsArray : Bytes → Prop
  | intro {digits : Bytes} {bulks : List Bytes} : digits ≠ [] → (∀ d ∈ digits, IsDigit d) →
      decimalValue digits = bulks.length → 1 ≤ bulks.length → bulks.length ≤ maxArgc →
      (∀ bulk ∈ bulks, IsBulk bulk) → IsArray (asterisk :: (digits ++ (crlf ++ bulks.flatten)))

/-- What the first byte shows to be no array is a line up to its first `\n`. -/
inductive IsLine : Bytes → Prop
  | intro {line : Bytes} : lf ∉ line → line.head? ≠ some asterisk → IsLine (line ++ crlf)

/-- The window starts with a complete request. -/
def Complete (window : Bytes) : Prop :=
  ∃ text rest, (IsArray text ∨ IsLine text) ∧ window = text ++ rest

theorem not_complete_nil : ¬ Complete [] := by
  rintro ⟨text, rest, is | is, whole⟩ <;> cases is <;> simp [crlf] at whole

variable {mem : Mem} {stop cur : Size} {more : Bytes} {behind : UInt8}

/-! ### Arrays -/

theorem bulks_of_isBulk {texts : List Bytes} (are : ∀ text ∈ texts, IsBulk text) :
    ∃ bulks : List Bulk, (∀ bulk ∈ bulks, bulk.Announced) ∧ bulks.length = texts.length ∧
      bulkTexts bulks = texts.flatten := by
  induction texts with
  | nil => exact ⟨[], by simp, rfl, rfl⟩
  | cons text texts ih =>
    obtain ⟨bulks, announced, len, whole⟩ := ih fun other mem => are other (List.mem_cons_of_mem _ mem)
    cases are text List.mem_cons_self with
    | @intro digits arg _ areDigits value =>
      refine ⟨⟨digits, lf, arg, (cr, lf)⟩ :: bulks, ?_, by simp [len], ?_⟩
      · intro bulk mem
        rcases List.mem_cons.mp mem with rfl | later
        · exact ⟨areDigits, value⟩
        · exact announced bulk later
      · rw [List.flatten_cons, ← whole]
        rfl

/-- A complete array is accepted, with its own length. -/
theorem parseResp_of_array {b : RecvBuf} {text : Bytes} (is : IsArray text)
    (shows : Shows mem b (text ++ more) behind) :
    ∃ args, parseRespRequest mem b = .ok args ∧ args.len.toNat = text.length := by
  cases is with
  | @intro digits texts _ areDigits value some few are =>
    obtain ⟨bulks, announced, len, whole⟩ := bulks_of_isBulk are
    let a : ArrayText := ⟨asterisk, digits, lf, bulks⟩
    have text : asterisk :: (digits ++ (crlf ++ texts.flatten)) = a.text := by
      rw [← whole]
      rfl
    rw [text] at shows ⊢
    obtain ⟨args, accepted, describes⟩ := parseResp_accepts
      ⟨areDigits, value.trans len.symm, announced⟩ (len.trans_le few) shows fun none => by
        have none : bulks.length = 0 := List.length_eq_zero_iff.mpr none
        omega
    exact ⟨args, accepted, describes.len⟩

/-! ### Lines -/

/-- The scan does not run out of bytes before the end of the line. -/
theorem inlineLoop_of_line {line : Bytes} {left : ℕ} {i : Size} {s : Scan} (plain : lf ∉ line)
    (stands : At mem (cur + i) (line ++ crlf)) (fits : (line ++ crlf).length ≤ left) :
    inlineLoop mem cur left i s ≠ .error .incomplete := by
  induction line generalizing left i s with
  | nil =>
    obtain ⟨left, rfl⟩ : ∃ left', left = left' + 2 := ⟨left - 2, by simp [crlf] at fits; omega⟩
    obtain ⟨isCr, stands⟩ := at_cons.mp stands
    have isLf : mem (cur + (i + 1)) = lf := by
      rw [← BitVec.add_assoc]
      exact (at_cons.mp stands).1
    -- the CR at the end, and then the LF that closes the line
    rw [inlineLoop, isCr, if_neg (by decide), if_pos rfl, inlineLoop, isLf, if_neg (by decide),
      if_neg (by decide), if_pos rfl, if_pos rfl]
    intro is
    cases is
  | cons x line ih =>
    obtain ⟨left, rfl⟩ : ∃ left', left = left' + 1 := ⟨left - 1, by simp at fits; omega⟩
    obtain ⟨here, stands⟩ := at_cons.mp stands
    rw [BitVec.add_assoc] at stands
    have later (s : Scan) : inlineLoop mem cur left (i + 1) s ≠ .error .incomplete :=
      ih (fun mem => plain (List.mem_cons_of_mem _ mem)) stands (by simpa using fits)
    -- a CR inside the line that no LF follows is refused, every other byte goes on
    have notLf : x ≠ lf := fun is => plain (is ▸ List.mem_cons_self)
    rw [inlineLoop, here]
    split
    · exact later _
    · split
      · exact later _
      · split
        · exact later _
        · split
          · intro is
            cases is
          · exact later _

theorem parseInline_of_line {b : RecvBuf} {text : Bytes} (is : IsLine text)
    (shows : Shows mem b (text ++ more) behind) : parseInlineRequest mem b ≠ .error .incomplete := by
  cases is with
  | @intro line plain =>
    have stands := (at_append.mp shows.stands).1
    have fits := shows.bytes
    rw [List.length_append] at fits
    have scanned : inlineLoop mem b.start b.size 0 .begin ≠ .error .incomplete :=
      inlineLoop_of_line plain (by simpa using stands) (by omega)
    rw [parseInlineRequest]
    split
    next e failed =>
      intro is
      exact scanned (failed.trans (by simpa using is))
    next =>
      intro is
      cases is

/-! ### The head -/

/-- A complete request is refused, or handed on with no more bytes than the window has. -/
theorem Conn.head_of_complete {conn : Conn} {outside : Mem} (complete : Complete conn.recv.window) :
    (∃ w, conn.head (conn.mem outside) = .malformed w) ∨
      ∃ args, conn.head (conn.mem outside) = .request args ∧ args.len.toNat ≤ conn.recv.size := by
  have shows := conn.shows outside
  obtain ⟨text, rest, is, window⟩ := complete
  -- nothing is complete in an empty window
  have size : ¬ conn.recv.size < 1 := by
    intro none
    have empty : conn.recv.window = [] := List.length_eq_zero_iff.mp (by simp; omega)
    exact not_complete_nil (empty ▸ ⟨text, rest, is, window⟩)
  rw [window] at shows
  rcases is with array | line
  · obtain ⟨args, accepted, len⟩ := parseResp_of_array array shows
    have first : conn.mem outside conn.recv.start = asterisk := by
      cases array
      exact shows.tail.uncons.1
    refine .inr ⟨args, ?_, ?_⟩
    · rw [Conn.head, if_neg size, Conn.parse, if_pos first, accepted, Head.ofParse]
    · have bytes := shows.bytes
      rw [List.length_append] at bytes
      omega
  · -- a line does not begin with an asterisk
    have first : conn.mem outside conn.recv.start ≠ asterisk := by
      cases line with
      | @intro line _ other =>
        intro same
        cases line with
        | nil =>
          have isCr := shows.tail.uncons.1
          rw [same] at isCr
          revert isCr
          decide
        | cons x line =>
          have isX := shows.tail.uncons.1
          exact other (by rw [List.head?_cons, ← same, isX])
    have head : conn.head (conn.mem outside) =
        .ofParse (parseInlineRequest (conn.mem outside) conn.recv) := by
      rw [Conn.head, if_neg size, Conn.parse, if_neg first]
    cases parsed : parseInlineRequest (conn.mem outside) conn.recv with
    | ok args => exact .inr ⟨args, by rw [head, parsed, Head.ofParse], (inline_inside parsed).len⟩
    | error e =>
      cases e with
      | incomplete => exact absurd parsed (parseInline_of_line line shows)
      | error | invalidArgc => exact .inl ⟨_, by rw [head, parsed, Head.ofParse]⟩

end GhettoRedis.Protocol
