import GhettoRedis.Lib.Runs
import GhettoRedis.Protocol.Available

/-!
# Inline requests

What `parse_inline_request` makes of a window: of the line before its first `\n`, and of a
window without one. Its scan is `runsFrom`, with spaces and CRs as the separators.
-/
namespace GhettoRedis.Protocol

open Lib

/-- What ends a word for the scan. -/
def EndsWord (b : UInt8) : Prop := b = space ∨ b = cr

instance : DecidablePred EndsWord := fun _ => inferInstanceAs (Decidable (_ ∨ _))

/-- A run of the window as `args->offsets` and `args->lens` hold it. -/
def runSlice (r : Run) : Slice := ⟨BitVec.ofNat 64 r.first, BitVec.ofNat 64 r.len⟩

/-! ### The scan -/

/-- The locals at index `i`: the word that started at `opened` is open. -/
def Scans (i : ℕ) (s : Scan) : Option ℕ → Prop
  | none => s.inArg = false
  | some o => s.inArg = true ∧ s.offset = BitVec.ofNat 64 o ∧ s.len = BitVec.ofNat 64 (i - o) ∧ o < i

namespace Scans

variable {i : ℕ} {s : Scan} {opened : Option ℕ}

theorem closeArg_slices (scans : Scans i s opened) :
    s.closeArg.slices = s.slices ++ (runsFrom EndsWord i opened []).map runSlice := by
  cases opened with
  | none =>
    have shut : s.inArg = false := scans
    simp [Scan.closeArg, shut, runsFrom]
  | some o =>
    obtain ⟨isOpen, offset, len, -⟩ := scans
    simp [Scan.closeArg, isOpen, runsFrom, runSlice, offset, len]

theorem closeArg_inArg (s : Scan) : s.closeArg.inArg = false := by
  unfold Scan.closeArg
  split
  · rfl
  next shut => simpa using shut

theorem closeArg_crlf (s : Scan) : s.closeArg.crlf = s.crlf := by
  unfold Scan.closeArg
  split <;> rfl

theorem extend {o : ℕ} (scans : Scans i s (some o)) :
    Scans (i + 1) { s with len := s.len + 1 } (some o) := by
  obtain ⟨isOpen, offset, len, before⟩ := scans
  have longer : s.len + 1 = BitVec.ofNat 64 (i + 1 - o) := by
    rw [len, show i + 1 - o = (i - o) + 1 by omega, BitVec.ofNat_add]
    rfl
  exact ⟨isOpen, offset, longer, by omega⟩

theorem start (s : Scan) (i : ℕ) :
    Scans (i + 1) { s with offset := BitVec.ofNat 64 i, len := 1, inArg := true } (some i) := by
  have one : (1 : Size) = BitVec.ofNat 64 (i + 1 - i) := by
    rw [Nat.add_sub_cancel_left]
    rfl
  exact ⟨rfl, rfl, one, Nat.lt_succ_self i⟩

end Scans

variable {mem : Mem} {cur : Size}

/-- The scan of bytes that are no `\n`: with the 65th word it ends, otherwise it goes on behind
them with the words that it has found. -/
theorem inlineLoop_plain {line rest : Bytes} {left i : ℕ} {s : Scan} {opened : Option ℕ}
    (plain : lf ∉ line) (stands : At mem (cur + BitVec.ofNat 64 i) (line ++ rest))
    (len : line.length + rest.length = left) (scans : Scans i s opened)
    (room : s.slices.length + (runsFrom EndsWord i opened []).length ≤ maxArgc) :
    (maxArgc < s.slices.length + (runsFrom EndsWord i opened line).length →
      inlineLoop mem cur left (BitVec.ofNat 64 i) s = .error .invalidArgc) ∧
    (s.slices.length + (runsFrom EndsWord i opened line).length ≤ maxArgc →
      ∃ s', inlineLoop mem cur left (BitVec.ofNat 64 i) s =
          inlineLoop mem cur rest.length (BitVec.ofNat 64 (i + line.length)) s' ∧
        s'.closeArg.slices = s.slices ++ (runsFrom EndsWord i opened line).map runSlice ∧
        (s'.crlf = true ↔ s.crlf = true ∨ cr ∈ line)) := by
  induction line generalizing left i s opened with
  | nil =>
    refine ⟨fun many => absurd room (Nat.not_le.mpr many), fun _ => ⟨s, ?_, scans.closeArg_slices, ?_⟩⟩
    · rw [← len, List.length_nil, Nat.zero_add, Nat.add_zero]
    · simp
  | cons x line ih =>
    obtain ⟨here, later⟩ := at_cons.mp stands
    have notLf : x ≠ lf := fun is => plain (is ▸ List.mem_cons_self)
    have plain' : lf ∉ line := fun mem => plain (List.mem_cons_of_mem _ mem)
    have next : BitVec.ofNat 64 i + 1 = BitVec.ofNat 64 (i + 1) := (BitVec.ofNat_add i 1).symm
    rw [BitVec.add_assoc, next] at later
    obtain ⟨left, rfl⟩ : ∃ left', left = left' + 1 := ⟨line.length + rest.length, by
      rw [← len, List.length_cons]
      omega⟩
    have len' : line.length + rest.length = left := by
      rw [List.length_cons] at len
      omega
    have behind : i + 1 + line.length = i + (x :: line).length := by
      rw [List.length_cons]
      omega
    rw [inlineLoop, here]
    by_cases isSep : EndsWord x
    · -- a space or a CR closes the open word
      have both (t : Scan) (slices : t.slices = s.closeArg.slices) (shut : t.inArg = false) :=
        ih plain' later len' (show Scans (i + 1) t none from shut) (by
          rw [slices, scans.closeArg_slices]
          simpa [runsFrom] using room)
      have slices (t : Scan) (same : t.slices = s.closeArg.slices) (l : List Run) :
          t.slices.length + l.length =
            s.slices.length + (runsFrom EndsWord i opened [] ++ l).length := by
        rw [same, scans.closeArg_slices, List.length_append, List.length_append, List.length_map]
        omega
      rw [runsFrom_cons_sep isSep, ← behind]
      by_cases isSpace : x = space
      · obtain ⟨many, few⟩ := both s.closeArg rfl (Scans.closeArg_inArg s)
        rw [if_pos isSpace, next]
        rw [slices _ rfl] at many few
        refine ⟨many, fun fits => ?_⟩
        obtain ⟨s', loop, found, crlf⟩ := few fits
        refine ⟨s', loop, ?_, ?_⟩
        · rw [found, scans.closeArg_slices, List.map_append, List.append_assoc]
        · have notCr : cr ≠ x := by
            rw [isSpace]
            decide
          rw [crlf, Scans.closeArg_crlf, List.mem_cons]
          simp [notCr]
      · have isCr : x = cr := isSep.resolve_left isSpace
        obtain ⟨many, few⟩ := both { s.closeArg with crlf := true } rfl (Scans.closeArg_inArg s)
        rw [if_neg isSpace, if_pos isCr, next]
        rw [slices _ rfl] at many few
        refine ⟨many, fun fits => ?_⟩
        obtain ⟨s', loop, found, crlf⟩ := few fits
        refine ⟨s', loop, ?_, ?_⟩
        · rw [found]
          dsimp only
          rw [scans.closeArg_slices, List.map_append, List.append_assoc]
        · rw [crlf, isCr]
          simp
    · -- any other byte is part of a word
      have notSpace : x ≠ space := fun is => isSep (.inl is)
      have notCr : x ≠ cr := fun is => isSep (.inr is)
      have sameCr : cr ∈ x :: line ↔ cr ∈ line := by
        rw [List.mem_cons]
        exact or_iff_right notCr.symm
      rw [runsFrom_cons_plain isSep, if_neg notSpace, if_neg notCr, if_neg notLf, ← behind, sameCr]
      cases opened with
      | some o =>
        have isOpen : s.inArg = true := scans.1
        rw [if_pos isOpen, next]
        exact ih plain' later len' scans.extend (by simpa [runsFrom] using room)
      | none =>
        have shut : s.inArg = false := scans
        rw [if_neg (by simp [shut]), Option.getD_none]
        simp only [runsFrom, List.length_nil, Nat.add_zero] at room
        have one := @runsFrom_some_pos _ EndsWord _ line (i + 1) i
        split
        next full =>
          -- this is the 65th word
          exact ⟨fun _ => rfl, fun fits => absurd fits (by omega)⟩
        next notFull =>
          rw [next]
          exact ih plain' later len' (Scans.start s i) (by simp [runsFrom]; omega)

/-! ### Windows -/

section Windows

variable {b : RecvBuf} {window line more : Bytes} {behind : UInt8}

/-- The scan of a whole window, up to its first `\n`. -/
theorem inlineLoop_window {rest : Bytes} (shows : Shows mem b (line ++ rest) behind)
    (plain : lf ∉ line) :
    (maxArgc < (runs EndsWord line).length →
      inlineLoop mem b.start b.size 0 .begin = .error .invalidArgc) ∧
    ((runs EndsWord line).length ≤ maxArgc →
      ∃ s', inlineLoop mem b.start b.size 0 .begin =
          inlineLoop mem b.start rest.length (BitVec.ofNat 64 line.length) s' ∧
        s'.closeArg.slices = (runs EndsWord line).map runSlice ∧
        (s'.crlf = true ↔ cr ∈ line)) := by
  have start : Scans 0 .begin none := rfl
  have room : Scan.begin.slices.length + (runsFrom EndsWord 0 none []).length ≤ maxArgc :=
    Nat.zero_le _
  have stands : At mem (b.start + BitVec.ofNat 64 0) (line ++ rest) := by
    simpa using shows.stands
  have len : line.length + rest.length = b.size := by
    rw [← shows.bytes, List.length_append]
  obtain ⟨many, few⟩ := inlineLoop_plain plain stands len start room
  simp only [Scan.begin, List.length_nil, Nat.zero_add] at many few
  refine ⟨many, fun fits => ?_⟩
  obtain ⟨s', loop, found, crlf⟩ := few fits
  exact ⟨s', loop, found, by simpa using crlf⟩

theorem parseInline_open (shows : Shows mem b window behind) (plain : lf ∉ window) :
    parseInlineRequest mem b =
      .error (if maxArgc < (runs EndsWord window).length then .invalidArgc else .incomplete) := by
  rw [← List.append_nil window] at shows
  obtain ⟨many, few⟩ := inlineLoop_window shows plain
  rw [parseInlineRequest]
  by_cases tooMany : maxArgc < (runs EndsWord window).length
  · rw [many tooMany, if_pos tooMany]
  · obtain ⟨s', loop, -, -⟩ := few (Nat.le_of_not_lt tooMany)
    rw [loop, List.length_nil, inlineLoop, if_neg tooMany]

theorem parseInline_line (shows : Shows mem b (line ++ lf :: more) behind) (plain : lf ∉ line) :
    parseInlineRequest mem b =
      if maxArgc < (runs EndsWord line).length then .error .invalidArgc
      else if cr ∈ line then
        .ok ⟨b.start, BitVec.ofNat 64 (runs EndsWord line).length,
          BitVec.ofNat 64 (line.length + 1), (runs EndsWord line).map runSlice⟩
      else .error .error := by
  obtain ⟨many, few⟩ := inlineLoop_window shows plain
  rw [parseInlineRequest]
  by_cases tooMany : maxArgc < (runs EndsWord line).length
  · rw [many tooMany, if_pos tooMany]
  · obtain ⟨s', loop, found, crlf⟩ := few (Nat.le_of_not_lt tooMany)
    have isLf : mem (b.start + BitVec.ofNat 64 line.length) = lf :=
      (at_cons.mp (at_append.mp shows.stands).2).1
    -- the LF is read, and it asks whether a CR came before
    rw [loop, List.length_cons, inlineLoop, isLf, if_neg (by decide), if_neg (by decide), if_pos rfl,
      if_neg tooMany]
    by_cases ended : cr ∈ line
    · have next : BitVec.ofNat 64 line.length + 1 = BitVec.ofNat 64 (line.length + 1) :=
        (BitVec.ofNat_add line.length 1).symm
      rw [if_pos (crlf.mpr ended), if_pos ended]
      simp only [found, List.length_map, next]
    · rw [if_neg (fun isSet => ended (crlf.mp isSet)), if_neg ended]

end Windows

/-! ### The arrays of `CmdArgs` -/

/-- The index that `if (in_arg) { ... }` writes to in `args->offsets` and `args->lens`. -/
def Scan.stores (s : Scan) : List ℕ := if s.inArg then [s.slices.length] else []

/-- All indices that the scan writes to, whatever it returns. -/
def inlineStores (mem : Mem) (cur : Size) : (left : ℕ) → (i : Size) → Scan → List ℕ
  | 0, _, _ => []
  | left + 1, i, s =>
    if mem (cur + i) = space then s.stores ++ inlineStores mem cur left (i + 1) s.closeArg
    else if mem (cur + i) = cr then
      s.stores ++ inlineStores mem cur left (i + 1) { s.closeArg with crlf := true }
    else if mem (cur + i) = lf then if s.crlf then s.stores else []
    else if s.inArg then inlineStores mem cur left (i + 1) { s with len := s.len + 1 }
    else if s.slices.length = maxArgc then []
    else inlineStores mem cur left (i + 1) { s with offset := i, len := 1, inArg := true }

theorem closeArg_length (s : Scan) :
    s.closeArg.slices.length = s.slices.length + s.stores.length := by
  unfold Scan.closeArg Scan.stores
  split <;> simp

theorem closeArg_stores (s : Scan) : s.closeArg.stores = [] := by
  rw [Scan.stores, Scans.closeArg_inArg, if_neg (by decide)]

/-- Every index that is written to lies inside the arrays. -/
theorem inlineStores_inside {left : ℕ} {i : Size} {s : Scan}
    (room : s.slices.length + s.stores.length ≤ maxArgc) :
    ∀ k ∈ inlineStores mem cur left i s, k < maxArgc := by
  have here : ∀ k ∈ s.stores, k < maxArgc := by
    intro k mem
    unfold Scan.stores at mem room
    split at mem
    next isOpen =>
      rw [List.mem_singleton] at mem
      simp only [if_pos isOpen, List.length_singleton] at room
      omega
    next => cases mem
  induction left generalizing i s with
  | zero => simp [inlineStores]
  | succ left ih =>
    -- a byte that closes the open word stores it behind the others
    have closed (t : Scan) (slices : t.slices = s.closeArg.slices) (stores : t.stores = []) :
        ∀ k ∈ s.stores ++ inlineStores mem cur left (i + 1) t, k < maxArgc := by
      intro k mem
      rcases List.mem_append.mp mem with now | later
      · exact here k now
      · refine ih ?_ (by simp [stores]) k later
        rw [slices, stores, closeArg_length]
        exact room
    rw [inlineStores]
    split
    · exact closed _ rfl (closeArg_stores s)
    · split
      · exact closed _ rfl (closeArg_stores s)
      · split
        · split
          · exact here
          · simp
        · split
          · exact ih room here
          next shut =>
            split
            · simp
            next notFull =>
              have few : s.slices.length < maxArgc := by omega
              refine ih ?_ ?_
              · simp [Scan.stores]
                omega
              · simp [Scan.stores, few]

/-! ### What the parser accepts -/

/-- The line before the first `\n` of the window is `body` and a CR, the only one. -/
def CrLfLine (window body : Bytes) : Prop :=
  lf ∉ body ∧ cr ∉ body ∧ ∃ more, window = body ++ (crlf ++ more)

/-- The maximal runs of bytes that are no spaces. -/
def spaced (line : Bytes) : List Run := runs (· = space) line

/-- The parser accepts the lines that end with CR LF and have no other CR and at most 64 words,
with their words as the arguments; it waits only for a `\n`, refuses longer lines, and writes
inside its arrays. -/
structure InlineExact (mem : Mem) (b : RecvBuf) (window : Bytes) : Prop where
  accepts : (∃ args, parseInlineRequest mem b = .ok args) ↔
    ∃ body, CrLfLine window body ∧ (spaced body).length ≤ maxArgc
  exact : ∀ args body, parseInlineRequest mem b = .ok args → CrLfLine window body →
    args.len.toNat = body.length + 2 ∧ args.argc.toNat = (spaced body).length ∧
      args.argc.toNat ≤ maxArgc ∧ args.slices = (spaced body).map runSlice
  waits : parseInlineRequest mem b = .error .incomplete → lf ∉ window
  refuses : ∀ line more, window = line ++ lf :: more → lf ∉ line →
    maxArgc < (runs EndsWord line).length → parseInlineRequest mem b = .error .invalidArgc
  inside : ∀ k ∈ inlineStores mem b.start b.size 0 .begin, k < maxArgc

/-- A CR in front of the first `\n` is the only one and the last byte of its line, or the line
has more than 64 words. -/
def OnlyLastCr (window : Bytes) : Prop :=
  ∀ line more, window = line ++ lf :: more → lf ∉ line → cr ∈ line →
    cr ∉ line.dropLast ∨ maxArgc < (runs EndsWord line).length

section Exact

variable {window body line more : Bytes}

/-- The line before the first `\n` is unique. -/
theorem line_unique {line' more' : Bytes} (same : line ++ lf :: more = line' ++ lf :: more')
    (plain : lf ∉ line) (plain' : lf ∉ line') : line = line' ∧ more = more' := by
  induction line generalizing line' with
  | nil =>
    cases line' with
    | nil => exact ⟨rfl, by simpa using same⟩
    -- the other line goes on, beyond the LF
    | cons x line' =>
      simp only [List.nil_append, List.cons_append, List.cons.injEq] at same
      exact absurd (same.1 ▸ List.mem_cons_self) plain'
  | cons x line ih =>
    cases line' with
    | nil =>
      simp only [List.nil_append, List.cons_append, List.cons.injEq] at same
      exact absurd (same.1 ▸ List.mem_cons_self) plain
    | cons x' line' =>
      simp only [List.cons_append, List.cons.injEq] at same
      obtain ⟨rfl, same⟩ := same
      rw [List.mem_cons, not_or] at plain plain'
      obtain ⟨rfl, rfl⟩ := ih same plain.2 plain'.2
      exact ⟨rfl, rfl⟩

theorem CrLfLine.window_eq (is : CrLfLine window body) :
    ∃ more, window = (body ++ [cr]) ++ lf :: more ∧ lf ∉ body ++ [cr] := by
  obtain ⟨plain, -, more, rfl⟩ := is
  have notLf : lf ∉ body ++ [cr] := by
    rw [List.mem_append, not_or]
    exact ⟨plain, by decide⟩
  exact ⟨more, by simp [crlf], notLf⟩

/-- The words of a line without CRs are those between its spaces. -/
theorem runs_body (noCr : cr ∉ body) : runs EndsWord (body ++ [cr]) = spaced body := by
  have last : EndsWord cr := .inr rfl
  rw [runs, runsFrom_concat last, spaced, runs]
  apply runsFrom_congr
  intro x mem
  have notCr : x ≠ cr := by
    rintro rfl
    exact noCr mem
  exact or_iff_left notCr

/-- A line whose only CR is its last byte. -/
theorem crLfLine_of_last (plain : lf ∉ line) (isCr : cr ∈ line) (last : cr ∉ line.dropLast) :
    ∃ body, line = body ++ [cr] ∧ CrLfLine (line ++ lf :: more) body := by
  have nonempty : line ≠ [] := List.ne_nil_of_mem isCr
  have whole := List.dropLast_append_getLast nonempty
  have atEnd : line.getLast nonempty = cr := by
    rw [← whole, List.mem_append, List.mem_singleton] at isCr
    exact (isCr.resolve_left last).symm
  rw [atEnd] at whole
  refine ⟨line.dropLast, whole.symm, ?_, last, more, ?_⟩
  · exact fun mem => plain (List.mem_of_mem_dropLast mem)
  · rw [← whole]
    simp [crlf]

end Exact

variable {b : RecvBuf} {window : Bytes} {behind : UInt8}

/-- Of a line that ends properly the parser makes what it should. -/
theorem parseInline_crlf {body : Bytes} (shows : Shows mem b window behind)
    (is : CrLfLine window body) :
    parseInlineRequest mem b =
      if maxArgc < (spaced body).length then .error .invalidArgc
      else .ok ⟨b.start, BitVec.ofNat 64 (spaced body).length, BitVec.ofNat 64 (body.length + 2),
        (spaced body).map runSlice⟩ := by
  obtain ⟨more, rfl, plain⟩ := is.window_eq
  have isCr : cr ∈ body ++ [cr] := by simp
  rw [parseInline_line shows plain, if_pos isCr, runs_body is.2.1]
  simp

/-- A byte string has no `\n`, or a first one. -/
theorem lf_split (window : Bytes) :
    lf ∉ window ∨ ∃ line more, window = line ++ lf :: more ∧ lf ∉ line := by
  by_cases found : lf ∈ window
  · obtain ⟨line, more, whole, plain⟩ := List.eq_append_cons_of_mem found
    exact .inr ⟨line, more, whole, plain⟩
  · exact .inl found

/-- The parser accepts exactly the CR LF lines with at most 64 words unless the line in front of
the first `\n` has a CR before its last byte: the scan never forgets a CR. -/
theorem inline_exact_iff (conn : Conn) (outside : Mem) :
    InlineExact (conn.mem outside) conn.recv conn.recv.window ↔ OnlyLastCr conn.recv.window := by
  have shows := conn.shows outside
  have size := conn.recv.inside
  have bytes := shows.bytes
  simp only [messageMaxLength] at size
  constructor
  · intro exact line more whole plain isCr
    by_contra stray
    rw [not_or, not_not, Nat.not_lt] at stray
    obtain ⟨early, few⟩ := stray
    -- a line with a CR too early is accepted, though no CRLF ends it
    rw [whole] at shows
    have accepted := parseInline_line shows plain
    rw [if_neg (Nat.not_lt.mpr few), if_pos isCr] at accepted
    obtain ⟨body, is, -⟩ := exact.accepts.mp ⟨_, accepted⟩
    obtain ⟨more', window, plain'⟩ := is.window_eq
    obtain ⟨rfl, -⟩ := line_unique (whole.symm.trans window) plain plain'
    rw [List.dropLast_concat] at early
    exact is.2.1 early
  · intro onlyLast
    -- what is accepted is a line that ends properly
    have proper (args : CmdArgs) (accepted : parseInlineRequest (conn.mem outside) conn.recv = .ok args) :
        ∃ body, CrLfLine conn.recv.window body ∧ (spaced body).length ≤ maxArgc := by
      rcases lf_split conn.recv.window with none | ⟨line, more, whole, plain⟩
      · rw [parseInline_open shows none] at accepted
        cases accepted
      · have shows' := shows
        rw [whole] at shows'
        rw [parseInline_line shows' plain] at accepted
        split at accepted
        next => cases accepted
        next few =>
          split at accepted
          next isCr =>
            have last := (onlyLast line more whole plain isCr).resolve_right few
            obtain ⟨body, rfl, is⟩ := @crLfLine_of_last line more plain isCr last
            rw [runs_body is.2.1] at few
            exact ⟨body, whole ▸ is, Nat.le_of_not_lt few⟩
          next => cases accepted
    constructor
    · constructor
      · rintro ⟨args, accepted⟩
        exact proper args accepted
      · rintro ⟨body, is, few⟩
        exact ⟨_, by rw [parseInline_crlf shows is, if_neg (Nat.not_lt.mpr few)]⟩
    · intro args body accepted is
      rw [parseInline_crlf shows is] at accepted
      split at accepted
      next => cases accepted
      next few =>
        cases accepted
        simp only [maxArgc, Nat.not_lt] at few
        obtain ⟨-, -, more, whole⟩ := is
        -- the lengths are those of the buffer, so the words hold them
        have len : body.length + 2 ≤ conn.recv.size := by
          rw [← bytes, whole]
          simp [crlf]
        have argc : (BitVec.ofNat 64 (spaced body).length).toNat = (spaced body).length := by
          rw [BitVec.toNat_ofNat, Nat.mod_eq_of_lt (by omega)]
        refine ⟨?_, argc, argc.trans_le few, rfl⟩
        rw [BitVec.toNat_ofNat, Nat.mod_eq_of_lt (by omega)]
    · intro waits
      rcases lf_split conn.recv.window with none | ⟨line, more, whole, plain⟩
      · -- a window that waits has no LF
        exact none
      · rw [whole] at shows
        rw [parseInline_line shows plain] at waits
        split at waits
        next => cases waits
        next => split at waits <;> cases waits
    · intro line more whole plain many
      rw [whole] at shows
      rw [parseInline_line shows plain, if_pos many]
    · exact inlineStores_inside (by simp [Scan.begin, Scan.stores])

/-- A CR in the middle of a line, received on a fresh connection. -/
def strayCr : RecvBuf :=
  (RecvBuf.fresh 65536 RecvBuf.addressable_first).receive (asciiBytes "a\rb\n") (by decide)

/-- It is accepted as the end of a line whose `\n` follows later. -/
theorem stray_cr_accepted :
    ¬ InlineExact ((Conn.accepted 0 strayCr).mem fun _ => 0) strayCr (asciiBytes "a\rb\n") := by
  intro exact
  have accepted : parseInlineRequest ((Conn.accepted 0 strayCr).mem fun _ => 0) strayCr =
      .ok ⟨65536, 2, 4, [⟨0, 1⟩, ⟨2, 1⟩]⟩ := by decide +kernel
  obtain ⟨body, is, -⟩ := exact.accepts.mp ⟨_, accepted⟩
  obtain ⟨more, whole, plain⟩ := is.window_eq
  have split : [97, 13, 98] ++ lf :: [] = (body ++ [cr]) ++ lf :: more := whole
  obtain ⟨same, -⟩ := line_unique split (by decide) plain
  have last := congrArg List.getLast? same
  rw [List.getLast?_concat] at last
  revert last
  decide

end GhettoRedis.Protocol
