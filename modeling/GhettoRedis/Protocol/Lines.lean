import Mathlib.Data.List.DropRight
import GhettoRedis.Protocol.Framing
import GhettoRedis.Protocol.Inline

/-!
# Inline lines over any cut of the stream

One connection served read after read, as in the framing of arrays. The inline parser looks at
no byte behind the window, so a stream of lines is handed over line by line wherever it is cut.
-/
namespace GhettoRedis.Protocol

open Lib

/-- A line without its CR LF. -/
structure InlineLine (body : Bytes) : Prop where
  noLf : lf ∉ body
  noCr : cr ∉ body
  notArray : body.head? ≠ some asterisk
  few : (spaced body).length ≤ maxArgc
  short : (body ++ crlf).length ≤ messageMaxLength

/-- The lines on the wire. -/
def lineStream (lines : List Bytes) : Bytes := lines.flatMap (· ++ crlf)

/-- The arguments that each line with a word stands for. -/
def lineRequests (lines : List Bytes) : List Request :=
  (lines.map (words (· = space))).filter (· ≠ [])

/-- What lies behind the last `\n` of a window. -/
def unfinished (window : Bytes) : Bytes := window.rtakeWhile (· ≠ lf)

/-- Each read fits the free space behind the line that is still unfinished. -/
def FitLines : (left : Bytes) → (reads : List Bytes) → Prop
  | _, [] => True
  | left, data :: reads =>
    (left ++ data).length ≤ messageMaxLength ∧ FitLines (unfinished (left ++ data)) reads

instance FitLines.decidable : (left : Bytes) → (reads : List Bytes) → Decidable (FitLines left reads)
  | _, [] => inferInstanceAs (Decidable True)
  | left, data :: reads =>
    have := FitLines.decidable (unfinished (left ++ data)) reads
    inferInstanceAs (Decidable (_ ∧ _))

/-! ### Whole lines of a window -/

section Whole

variable {body window more : Bytes} {lines : List Bytes}

theorem unfinished_of_not_mem (plain : lf ∉ window) : unfinished window = window := by
  rw [unfinished, List.rtakeWhile_eq_self_iff]
  intro x mem
  have notLf : x ≠ lf := by
    rintro rfl
    exact plain mem
  simpa using notLf

theorem unfinished_append (plain : lf ∉ more) : unfinished (window ++ lf :: more) = more := by
  rw [unfinished, List.rtakeWhile, List.reverse_append, List.reverse_cons, List.append_assoc,
    List.takeWhile_append_of_pos, List.singleton_append, List.takeWhile_cons_of_neg]
  · simp
  · simp
  · intro x mem
    have notLf : x ≠ lf := by
      rintro rfl
      exact plain (List.mem_reverse.mp mem)
    simpa using notLf

theorem unfinished_lineStream (lines : List Bytes) (plain : lf ∉ more) :
    unfinished (lineStream lines ++ more) = more := by
  induction lines using List.reverseRecOn with
  | nil => exact unfinished_of_not_mem plain
  | append_singleton lines body =>
    have last : lineStream (lines ++ [body]) ++ more =
        (lineStream lines ++ (body ++ [cr])) ++ lf :: more := by
      simp [lineStream, crlf]
    rw [last]
    exact unfinished_append plain

end Whole

/-! ### One call -/

section Call

variable {σ : Type} {handle : σ → Request → σ × Bytes} {outside : Mem} {s : σ} {conn : Conn}
  {body more : Bytes} {mem : Mem}

/-- What the slices show are the words. -/
theorem arguments_runs {start : Size} {line : Bytes} (sep : UInt8 → Prop) [DecidablePred sep]
    (stands : At mem start (line ++ more)) (small : line.length < 2 ^ 64) :
    arguments mem start ((runs sep line).map runSlice) = words sep line := by
  rw [arguments, words, List.map_map]
  apply List.map_congr_left
  intro r member
  have inside := (mem_runs.mp member).inside
  have len : (BitVec.ofNat 64 r.len).toNat = (r.of line).length := by
    rw [BitVec.toNat_ofNat, Nat.mod_eq_of_lt (by omega), Run.of, List.length_take, List.length_drop]
    omega
  have split : line = line.take r.first ++ (r.of line ++ line.drop (r.first + r.len)) := by
    rw [Run.of, ← List.drop_drop, List.take_append_drop, List.take_append_drop]
  rw [split, List.append_assoc, List.append_assoc] at stands
  have there := (at_append.mp (at_append.mp stands).2).1
  rw [List.length_take, Nat.min_eq_left (by omega)] at there
  simp only [Function.comp_apply, runSlice, len]
  exact slice_eq there

/-- The window does not start with a `*`, so the inline parser reads it. -/
theorem head_of_line {x : UInt8} {rest : Bytes} (starts : conn.recv.window = x :: rest)
    (other : x ≠ asterisk) :
    conn.head (conn.mem outside) =
      .ofParse (parseInlineRequest (conn.mem outside) conn.recv) := by
  have size : ¬ conn.recv.size < 1 := by rw [← conn.recv.window_length, starts]; simp
  have shows := conn.shows outside
  rw [starts] at shows
  have first := shows.tail.uncons.1
  simp only [Conn.head, if_neg size, Conn.parse, first, if_neg other]

/-- A whole line is consumed, and handed over when it has a word. -/
theorem onDataAvailable_line (handle : σ → Request → σ × Bytes) (outside : Mem) (s : σ)
    (line : InlineLine body) (going : conn.flags.ending = false)
    (starts : conn.recv.window = (body ++ crlf) ++ more) :
    ∃ s' conn', onDataAvailable handle outside s conn =
        (decide (0 < more.length), ⟨s', conn', lineRequests [body]⟩) ∧
      conn'.recv.window = more ∧ conn'.flags.ending = false := by
  have shows := conn.shows outside
  have size : conn.recv.size = body.length + 2 + more.length := by
    rw [← conn.recv.window_length, starts]
    simp [crlf]
    omega
  have short := line.short
  simp only [List.length_append, crlf, List.length_cons, List.length_nil, messageMaxLength] at short
  have few := line.few
  simp only [maxArgc] at few
  have is : CrLfLine conn.recv.window body := by
    refine ⟨line.noLf, line.noCr, more, ?_⟩
    rw [starts, List.append_assoc]
  have parsed := parseInline_crlf shows is
  rw [if_neg (Nat.not_lt.mpr line.few)] at parsed
  -- the line does not begin with an asterisk, so it is read as a line
  obtain ⟨x, rest, first, other⟩ : ∃ x rest, conn.recv.window = x :: rest ∧ x ≠ asterisk := by
    have notArray := line.notArray
    cases body with
    | nil => exact ⟨cr, lf :: more, starts, by decide⟩
    | cons x body =>
      refine ⟨x, body ++ crlf ++ more, starts, ?_⟩
      rintro rfl
      exact notArray rfl
  have head : conn.head (conn.mem outside) = _ := head_of_line first other
  rw [parsed, Head.ofParse] at head
  have len : (BitVec.ofNat 64 (body.length + 2)).toNat = body.length + 2 := by
    rw [BitVec.toNat_ofNat, Nat.mod_eq_of_lt (by omega)]
  have le : body.length + 2 ≤ conn.recv.size := by omega
  have left : conn.recv.size - (body.length + 2) = more.length := by omega
  have rest : (conn.recv.consume (body.length + 2) le).window = more := by
    rw [conn.recv.window_consume, starts]
    exact List.drop_left' (by simp [crlf])
  have shown : arguments (conn.mem outside) conn.recv.start ((spaced body).map runSlice) =
      words (· = space) body := by
    have stands := shows.stands
    rw [starts, List.append_assoc] at stands
    exact arguments_runs _ stands (by omega)
  -- an empty line and one of spaces are skipped
  have argc : BitVec.ofNat 64 (spaced body).length = 0 ↔ words (· = space) body = [] := by
    rw [← BitVec.toNat_inj, BitVec.toNat_ofNat, Nat.mod_eq_of_lt (by omega), words,
      List.map_eq_nil_iff, ← List.length_eq_zero_iff]
    rfl
  by_cases none : words (· = space) body = []
  · refine ⟨s, { conn with recv := conn.recv.consume (body.length + 2) le }, ?_, rest, going⟩
    simp [onDataAvailable, head, argc.mpr none, Conn.finish, going, len, le, left, none, lineRequests]
  · refine ⟨(handle s (words (· = space) body)).1,
      conn.served (handle s (words (· = space) body)).2 (body.length + 2) le, ?_, rest, going⟩
    have some : BitVec.ofNat 64 (spaced body).length ≠ 0 := fun zero => none (argc.mp zero)
    simp only [onDataAvailable, head, if_neg some, shown, Conn.finish, going, len, dif_pos le, left,
      Bool.false_eq_true, if_false, if_true, Conn.served]
    simp [none, lineRequests]

/-- The first bytes of a line are left alone. -/
theorem onDataAvailable_open (line : InlineLine body) (isPrefix : conn.recv.window <+: body ++ crlf)
    (short : conn.recv.window.length < (body ++ crlf).length) :
    onDataAvailable handle outside s conn = (false, ⟨s, conn, []⟩) ∧ lf ∉ conn.recv.window := by
  -- the window ends before the `\n`, with no more words than the line has
  have inBody : conn.recv.window <+: body ++ [cr] := by
    apply List.prefix_of_prefix_length_le isPrefix
    · exact ⟨[lf], by simp [crlf]⟩
    · simp [crlf] at short ⊢
      omega
  have noLf : lf ∉ conn.recv.window := by
    intro mem
    have := inBody.subset mem
    rw [List.mem_append, List.mem_singleton] at this
    exact this.elim line.noLf (by decide)
  -- the window has at most the words of the whole line
  have few : ¬ maxArgc < (runs EndsWord conn.recv.window).length := by
    obtain ⟨rest, whole⟩ := inBody
    have le := @runsFrom_length_le_append _ EndsWord _ conn.recv.window rest 0 none
    rw [whole] at le
    have all : (runsFrom EndsWord 0 none (body ++ [cr])).length ≤ maxArgc := by
      have := line.few
      rwa [← runs_body line.noCr] at this
    exact Nat.not_lt.mpr (le.trans all)
  refine ⟨?_, noLf⟩
  cases window : conn.recv.window with
  | nil => exact onDataAvailable_empty window
  | cons x rest =>
    have other : x ≠ asterisk := by
      rintro rfl
      rw [window] at isPrefix
      have notArray := line.notArray
      cases body with
      | nil =>
        have := (List.cons_prefix_cons.mp isPrefix).1
        revert this
        decide
      | cons y body =>
        have same := (List.cons_prefix_cons.mp isPrefix).1
        exact notArray (by rw [List.head?_cons, same])
    have parsed := parseInline_open (conn.shows outside) noLf
    rw [if_neg few] at parsed
    rw [onDataAvailable, head_of_line window other, parsed, Head.ofParse]

end Call

/-! ### All reads -/

section Reads

variable {σ : Type} {handle : σ → Request → σ × Bytes} {outside : Mem} {s : σ} {conn : Conn}
  {lines : List Bytes} {left future : Bytes} {reads : List Bytes}

theorem lineRequests_cons (body : Bytes) (lines : List Bytes) :
    lineRequests (body :: lines) = lineRequests [body] ++ lineRequests lines := by
  rw [← List.singleton_append, lineRequests, List.map_append, List.filter_append]
  rfl

/-- A window of the stream is some of the lines and the beginning of the next one; the loop hands
over the former and leaves the latter. -/
theorem drain_lines (handle : σ → Request → σ × Bytes) (outside : Mem) (s : σ)
    (are : ∀ body ∈ lines, InlineLine body) (going : conn.flags.ending = false)
    (stream : conn.recv.window ++ future = lineStream lines) {fuel : ℕ}
    (enough : conn.recv.window.length < fuel) :
    ∃ served done rest left, drain handle outside fuel s conn = some served ∧ lines = done ++ rest ∧
      conn.recv.window = lineStream done ++ left ∧ lf ∉ left ∧ served.handed = lineRequests done ∧
      served.conn.recv.window = left ∧ served.conn.flags.ending = false := by
  obtain ⟨fuel, rfl⟩ := Nat.exists_eq_add_of_lt enough
  induction lines generalizing s conn fuel with
  | nil =>
    have empty : conn.recv.window = [] := (List.append_eq_nil_iff.mp stream).1
    refine ⟨⟨s, conn, []⟩, [], [], [], ?_, rfl, empty, by simp, rfl, empty, going⟩
    rw [drain, onDataAvailable_empty empty]
  | cons body lines ih =>
    have line := are body List.mem_cons_self
    have isPrefix : conn.recv.window <+: (body ++ crlf) ++ lineStream lines := ⟨future, stream⟩
    rcases prefix_append_cases isPrefix with ⟨inside, short⟩ | ⟨more, whole, -⟩
    · -- the window ends inside of the line: this is the last call
      obtain ⟨call, plain⟩ := onDataAvailable_open line inside short
      refine ⟨⟨s, conn, []⟩, [], body :: lines, conn.recv.window, ?_, rfl, rfl, plain, rfl, rfl, going⟩
      rw [drain, call]
    · obtain ⟨s', conn', call, window, going'⟩ :=
        onDataAvailable_line handle outside s line going whole
      rw [drain, call]
      by_cases last : more = []
      · subst last
        refine ⟨⟨s', conn', lineRequests [body]⟩, [body], lines, [], by simp, rfl, ?_, by simp, rfl,
          window, going'⟩
        simpa [lineStream] using whole
      · have rest : conn'.recv.window ++ future = lineStream lines := by
          rw [whole, lineStream, List.flatMap_cons, List.append_assoc, List.append_right_inj] at stream
          rw [window]
          exact stream
        -- a line takes at least one byte, so the fuel goes on
        obtain ⟨k, fuelIs⟩ : ∃ k, conn.recv.window.length + fuel = conn'.recv.window.length + k + 1 := by
          have longer : conn'.recv.window.length + 2 ≤ conn.recv.window.length := by
            rw [window, whole]
            simp [crlf]
          exact ⟨conn.recv.window.length + fuel - conn'.recv.window.length - 1, by omega⟩
        obtain ⟨served, done, others, left, looped, split, is, plain, handed, left', still⟩ :=
          ih s' (fun other mem => are other (List.mem_cons_of_mem _ mem)) going' rest k (by omega)
        refine ⟨{ served with handed := lineRequests [body] ++ served.handed }, body :: done, others,
          left, ?_, by rw [split, List.cons_append], ?_, plain, ?_, left', still⟩
        · rw [decide_eq_true (List.length_pos_iff.mpr last), fuelIs]
          simp only [looped, Option.map_some]
        · rw [whole, ← window, is]
          simp [lineStream]
        · show lineRequests [body] ++ served.handed = _
          rw [handed, ← lineRequests_cons]

theorem serveReads_lines (are : ∀ body ∈ lines, InlineLine body) (going : conn.flags.ending = false)
    (window : conn.recv.window = left) (plain : lf ∉ left)
    (stream : left ++ reads.flatten = lineStream lines) (fit : FitLines left reads) :
    ∃ served, serveReads handle outside s conn reads = some served ∧
      served.handed = lineRequests lines ∧ served.conn.flags.ending = false := by
  induction reads generalizing s conn lines left with
  | nil =>
    -- a stream without a `\n` has no line
    have none : lines = [] := by
      cases lines with
      | nil => rfl
      | cons body lines =>
        rw [List.flatten_nil, List.append_nil] at stream
        exact absurd (by simp [stream, lineStream, crlf]) plain
    exact ⟨_, rfl, by simp [none, lineRequests], going⟩
  | cons data reads ih =>
    obtain ⟨fitsLen, fitRest⟩ := fit
    have size : conn.recv.size = left.length := by rw [← window, conn.recv.window_length]
    have fits : conn.recv.size + data.length ≤ messageMaxLength := by
      rw [List.length_append] at fitsLen
      omega
    have received : (conn.flush.receive data fits).recv.window = left ++ data := by
      rw [← window]
      exact conn.recv.window_receive data fits
    have streamed : (left ++ data) ++ reads.flatten = lineStream lines := by
      rw [List.append_assoc, ← List.flatten_cons, stream]
    have going' : (conn.flush.receive data fits).flags.ending = false := going
    obtain ⟨served, done, rest, left', looped, rfl, is, plain', handed, window', still⟩ :=
      drain_lines handle outside s are going'
        (by rw [received]; exact streamed) (by rw [RecvBuf.window_length]; exact Nat.lt_succ_self _)
    rw [received] at is
    -- the rest of the stream begins with what is left over
    have stream' : left' ++ reads.flatten = lineStream rest := by
      rw [is, lineStream, lineStream, List.flatMap_append, List.append_assoc,
        List.append_right_inj] at streamed
      exact streamed
    rw [is, unfinished_lineStream done plain'] at fitRest
    obtain ⟨final, ran, handed', ended⟩ := @ih served.state _ _ _
      (fun body mem => are body (List.mem_append_right _ mem)) still window' plain' stream' fitRest
    refine ⟨{ final with handed := served.handed ++ final.handed }, ?_, ?_, ended⟩
    · simp only [serveReads, going, Bool.false_eq_true, if_false, dif_pos fits, looped, ran,
        Option.map_some]
    · rw [handed, handed']
      simp [lineRequests]

end Reads

/-- A stream of lines, cut in any way into reads that fit, is handed over word by word, each line
with a word once and in order, and without a parse error. -/
theorem lines_framing {σ : Type} (handle : σ → Request → σ × Bytes) (outside : Mem) (s : σ)
    (shardId : ℕ) (addr : Size) (addressable : addr.toNat + (2 * messageMaxLength + 16) ≤ 2 ^ 64)
    (lines reads : List Bytes) (are : ∀ body ∈ lines, InlineLine body)
    (stream : reads.flatten = lineStream lines) (fit : FitLines [] reads) :
    ∃ served, serveReads handle outside s (Conn.accepted shardId (.fresh addr addressable)) reads =
        some served ∧
      served.handed = lineRequests lines ∧ served.conn.flags.ending = false :=
  serveReads_lines are rfl rfl List.not_mem_nil stream fit

def getLine : Bytes := asciiBytes " GET  key"

theorem getLine_isLine : InlineLine getLine :=
  ⟨by decide, by decide, by decide, by decide, by decide⟩

theorem empty_isLine : InlineLine [] :=
  ⟨by decide, by decide, by decide, by decide, by decide⟩

/-- An empty line behind one that is cut in a word and between its CR and its LF. -/
theorem lines_framing_get : ∃ served,
    serveReads pong (fun _ => 0) () (Conn.accepted 0 (.fresh 65536 (by decide)))
        [asciiBytes " GE", asciiBytes "T  key\r", asciiBytes "\n\r\n"] = some served ∧
      served.handed = lineRequests [getLine, []] ∧ served.conn.flags.ending = false :=
  lines_framing pong (fun _ => 0) () 0 65536 (by decide) [getLine, []] _
    (by simp [getLine_isLine, empty_isLine]) (by decide) (by decide)

end GhettoRedis.Protocol
