import Mathlib.Data.List.GetD
import GhettoRedis.Protocol.Available

/-!
# Framing over any cut of the stream

One connection served read after read, with `handle_command` taken to append a reply
and nothing else. A stream of requests is handed over as it was sent unless a read ends
inside a number and the byte that lies behind the window is neither a digit nor a `\r`.
-/
namespace GhettoRedis.Protocol

open Lib

variable {σ : Type}

/-! ### The loops -/

section Loops

variable (handle : σ → Request → σ × Bytes) (outside : Mem)

/-- What a part of a run leaves behind: the handler's state, the connection, and the
requests handed to the handler. -/
structure Served (σ : Type) where
  state : σ
  conn : Conn
  handed : List Request

/-- `on_data_available` -/
def onDataAvailable (s : σ) (conn : Conn) : Bool × Served σ :=
  match conn.head (conn.mem outside) with
  | .nothing => (false, ⟨s, conn, []⟩)
  | .malformed reply => (false, ⟨s, conn.refuse reply, []⟩)
  | .request args =>
    if args.argc = 0 then
      let (more, conn) := conn.finish args false
      (more, ⟨s, conn, []⟩)
    else
      let request := arguments (conn.mem outside) args.buf args.slices
      let (s, reply) := handle s request
      let (more, conn) := { conn with sendBuf := conn.sendBuf ++ reply }.finish args true
      (more, ⟨s, conn, [request]⟩)

/-- `while (reactor->on_data_available(context, conn))`; `none` when the fuel is used up. -/
def drain : (fuel : ℕ) → σ → Conn → Option (Served σ)
  | 0, _, _ => none
  | fuel + 1, s, conn =>
    match onDataAvailable handle outside s conn with
    | (false, served) => some served
    | (true, served) =>
      (drain fuel served.state served.conn).map fun rest =>
        { rest with handed := served.handed ++ rest.handed }

/-- The reads of a connection, each with the flush before it; a connection with `END` is
closed. `none` when a read does not fit the free space. -/
def serveReads : σ → Conn → (reads : List Bytes) → Option (Served σ)
  | s, conn, [] => some ⟨s, conn, []⟩
  | s, conn, data :: reads =>
    if conn.flags.ending then some ⟨s, conn, []⟩
    else if fits : conn.recv.size + data.length ≤ messageMaxLength then
      let received := conn.flush.receive data fits
      match drain handle outside (received.recv.size + 1) s received with
      | none => none
      | some served =>
        (serveReads served.state served.conn reads).map fun rest =>
          { rest with handed := served.handed ++ rest.handed }
    else none

end Loops

/-! ### The stream -/

def encodeAll (reqs : List Request) : Bytes := reqs.flatMap encode

/-- The requests that are whole in the first `n` bytes of their stream. -/
def complete : List Request → ℕ → List Request
  | [], _ => []
  | r :: reqs, n =>
    if (encode r).length ≤ n then r :: complete reqs (n - (encode r).length) else []

/-- What is left of a window when its whole requests are consumed. -/
def leftover (reqs : List Request) (window : Bytes) : Bytes :=
  window.drop (encodeAll (complete reqs window.length)).length

/-- The requests that are not whole in a window. -/
def remaining (reqs : List Request) (window : Bytes) : List Request :=
  reqs.drop (complete reqs window.length).length

/-- The replies of the handler, one after the other. -/
def answers (handle : σ → Request → σ × Bytes) : σ → List Request → σ × Bytes
  | s, [] => (s, [])
  | s, r :: reqs =>
    let (s, reply) := handle s r
    let (s, replies) := answers handle s reqs
    (s, reply ++ replies)

/-- The byte of `recv_buf` at index `i` after windows that started at index 0, the last one
first: that of the last window which reached it, or zero. -/
def stale : (windows : List Bytes) → (i : ℕ) → UInt8
  | [], _ => 0
  | w :: windows, i => if i < w.length then w.getD i 0 else stale windows i

/-- The byte behind a window: an old byte of the buffer, or the low byte of `send_buf_size`
when the window ends with the buffer and `replied` bytes have been written. -/
def byteBehind (earlier : List Bytes) (window : Bytes) (replied : ℕ) : UInt8 :=
  if window.length < messageMaxLength then stale earlier window.length else UInt8.ofNat replied

/-- The reads are not empty and fit the free space, the leftover of the last one being `left`. -/
def FitReads : List Request → (left : Bytes) → (reads : List Bytes) → Prop
  | _, _, [] => True
  | reqs, left, data :: reads =>
    data ≠ [] ∧ (left ++ data).length ≤ messageMaxLength ∧
      FitReads (remaining reqs (left ++ data)) (leftover reqs (left ++ data)) reads

/-- Wherever a read ends inside a number, the byte behind the window is a digit or a `\r`. -/
def NumbersGoOn (handle : σ → Request → σ × Bytes) :
    σ → List Request → (left : Bytes) → (earlier reads : List Bytes) → Prop
  | _, _, _, _, [] => True
  | s, reqs, left, earlier, data :: reads =>
    let window := left ++ data
    let answered := answers handle s (complete reqs window.length)
    (∀ r ∈ (remaining reqs window).head?, CutsNumber r (leftover reqs window).length →
        GoesOn (byteBehind earlier window answered.2.length)) ∧
      NumbersGoOn handle answered.1 (remaining reqs window) (leftover reqs window)
        (window :: earlier) reads

instance FitReads.decidable : (reqs : List Request) → (left : Bytes) → (reads : List Bytes) →
    Decidable (FitReads reqs left reads)
  | _, _, [] => inferInstanceAs (Decidable True)
  | reqs, left, data :: reads =>
    have := FitReads.decidable (remaining reqs (left ++ data)) (leftover reqs (left ++ data)) reads
    inferInstanceAs (Decidable (_ ∧ _ ∧ _))

instance NumbersGoOn.decidable (handle : σ → Request → σ × Bytes) :
    (s : σ) → (reqs : List Request) → (left : Bytes) → (earlier reads : List Bytes) →
    Decidable (NumbersGoOn handle s reqs left earlier reads)
  | _, _, _, _, [] => inferInstanceAs (Decidable True)
  | s, reqs, left, earlier, data :: reads =>
    have := NumbersGoOn.decidable handle
      (answers handle s (complete reqs (left ++ data).length)).1
      (remaining reqs (left ++ data)) (leftover reqs (left ++ data)) ((left ++ data) :: earlier) reads
    inferInstanceAs (Decidable (_ ∧ _))

/-! ### Whole requests of a window -/

section Whole

variable {r : Request} {reqs : List Request} {window more : Bytes}

theorem encode_pos (r : Request) : 0 < (encode r).length := by simp [encode_eq]

theorem complete_zero (reqs : List Request) : complete reqs 0 = [] := by
  cases reqs with
  | nil => rfl
  | cons r reqs => rw [complete, if_neg (Nat.not_le.mpr (encode_pos r))]

theorem complete_whole (r : Request) (reqs : List Request) (more : Bytes) :
    complete (r :: reqs) (encode r ++ more).length = r :: complete reqs more.length := by
  rw [complete, List.length_append, if_pos (Nat.le_add_right _ _), Nat.add_sub_cancel_left]

theorem complete_cut (short : window.length < (encode r).length) :
    complete (r :: reqs) window.length = [] := by
  rw [complete, if_neg (Nat.not_le.mpr short)]

theorem leftover_whole (r : Request) (reqs : List Request) (more : Bytes) :
    leftover (r :: reqs) (encode r ++ more) = leftover reqs more := by
  rw [leftover, complete_whole, encodeAll, List.flatMap_cons, List.length_append,
    ← List.drop_drop, List.drop_left]
  rfl

theorem remaining_whole (r : Request) (reqs : List Request) (more : Bytes) :
    remaining (r :: reqs) (encode r ++ more) = remaining reqs more := by
  rw [remaining, complete_whole]
  rfl

theorem leftover_cut (none : complete reqs window.length = []) : leftover reqs window = window := by
  rw [leftover, none]
  rfl

theorem remaining_cut (none : complete reqs window.length = []) : remaining reqs window = reqs := by
  rw [remaining, none]
  rfl

theorem complete_append_remaining (reqs : List Request) (window : Bytes) :
    complete reqs window.length ++ remaining reqs window = reqs := by
  have isPrefix (n : ℕ) : complete reqs n <+: reqs := by
    induction reqs generalizing n with
    | nil => exact List.prefix_refl _
    | cons r reqs ih =>
      rw [complete]
      split
      next => exact (List.prefix_cons_inj r).mpr (ih _)
      next => exact List.nil_prefix
  exact List.prefix_append_drop (isPrefix _) |>.symm

/-- A window of the stream is its whole requests and the leftover, which holds none. -/
theorem window_split {future : Bytes} (stream : window ++ future = encodeAll reqs) :
    window = encodeAll (complete reqs window.length) ++ leftover reqs window ∧
      leftover reqs window ++ future = encodeAll (remaining reqs window) ∧
      complete (remaining reqs window) (leftover reqs window).length = [] := by
  induction reqs generalizing window with
  | nil =>
    obtain ⟨rfl, rfl⟩ : window = [] ∧ future = [] := by simpa [encodeAll] using stream
    exact ⟨rfl, rfl, rfl⟩
  | cons r reqs ih =>
    have isPrefix : window <+: encode r ++ encodeAll reqs := ⟨future, stream⟩
    rcases prefix_append_cases isPrefix with ⟨-, short⟩ | ⟨more, rfl, -⟩
    · -- the first request is cut: the window is all left over
      have none : complete (r :: reqs) window.length = [] := complete_cut short
      rw [leftover_cut none, remaining_cut none, none]
      exact ⟨rfl, stream, rfl⟩
    · rw [encodeAll, List.flatMap_cons, List.append_assoc, List.append_right_inj] at stream
      -- it is whole: the others are split in what is behind it
      obtain ⟨split, rest, none⟩ := ih stream
      rw [leftover_whole, remaining_whole, complete_whole]
      refine ⟨?_, rest, none⟩
      rw [encodeAll, List.flatMap_cons, List.append_assoc]
      exact congrArg (encode r ++ ·) split

end Whole

/-! ### One call -/

section Call

variable {handle : σ → Request → σ × Bytes} {outside : Mem} {s : σ} {conn : Conn} {r : Request}

theorem onDataAvailable_empty (empty : conn.recv.window = []) :
    onDataAvailable handle outside s conn = (false, ⟨s, conn, []⟩) := by
  have size : conn.recv.size = 0 := by rw [← conn.recv.window_length, empty]; rfl
  simp [onDataAvailable, Conn.head, size]

/-- The window starts with a `*`, so the RESP parser reads it. -/
theorem head_of_asterisk {rest : Bytes} (starts : conn.recv.window = asterisk :: rest) :
    conn.head (conn.mem outside) =
      .ofParse (parseRespRequest (conn.mem outside) conn.recv) := by
  have size : ¬ conn.recv.size < 1 := by rw [← conn.recv.window_length, starts]; simp
  have shows := conn.shows outside
  rw [starts] at shows
  simp only [Conn.head, if_neg size, Conn.parse, if_pos shows.tail.uncons.1]

/-- The connection after a request of `len` bytes was answered. -/
def Conn.served (conn : Conn) (reply : Bytes) (len : ℕ) (le : len ≤ conn.recv.size) : Conn :=
  { conn with
    sendBuf := conn.sendBuf ++ reply
    recv := conn.recv.consume len le
    answered := conn.answered + 1 }

/-- A whole request is handed over and consumed. -/
theorem onDataAvailable_whole (wellFormed : WellFormed r) {more : Bytes}
    (starts : conn.recv.window = encode r ++ more) (going : conn.flags.ending = false)
    (le : (encode r).length ≤ conn.recv.size) :
    onDataAvailable handle outside s conn = (decide (0 < more.length),
      ⟨(handle s r).1, conn.served (handle s r).2 (encode r).length le, [r]⟩) := by
  have shows := conn.shows outside
  rw [starts] at shows
  obtain ⟨args, accepted, argc, buf, len, shown⟩ := parseResp_whole wellFormed shows
  have isRequest : conn.head (conn.mem outside) = .request args := by
    rw [head_of_asterisk (by rw [starts, encode_eq, List.cons_append]), accepted, Head.ofParse]
  -- a request without arguments would be skipped
  have notEmpty : args.argc ≠ 0 := by
    rintro none
    rw [none] at argc
    have := wellFormed.nonempty
    simp at argc
    omega
  have rest : conn.recv.size - (encode r).length = more.length := by
    rw [← conn.recv.window_length, starts, List.length_append]
    omega
  simp only [onDataAvailable, isRequest, if_neg notEmpty, shown, Conn.finish, going, len, dif_pos le,
    rest, Bool.false_eq_true, if_false, if_true, Conn.served]

/-- The first bytes of a request are left alone, unless a number seems to end badly. -/
theorem onDataAvailable_cut (wellFormed : WellFormed r) (isPrefix : conn.recv.window <+: encode r)
    (short : conn.recv.window.length < (encode r).length) (notEmpty : conn.recv.window ≠ []) :
    onDataAvailable handle outside s conn = (false, ⟨s,
      if CutsNumber r conn.recv.window.length ∧ ¬ GoesOn conn.behind then
        conn.refuse (writeSimpleGenericError (asciiBytes "parse error"))
      else conn, []⟩) := by
  have verdict := parseResp_cut wellFormed isPrefix short notEmpty (conn.shows outside)
  obtain ⟨x, rest, starts⟩ := List.exists_cons_of_ne_nil notEmpty
  obtain rfl : x = asterisk := by
    rw [starts, encode_eq] at isPrefix
    exact (List.cons_prefix_cons.mp isPrefix).1
  by_cases bad : CutsNumber r conn.recv.window.length ∧ ¬ GoesOn conn.behind
  · simp only [onDataAvailable, head_of_asterisk starts, verdict, verdictAt, if_pos bad, Head.ofParse]
  · simp only [onDataAvailable, head_of_asterisk starts, verdict, verdictAt, if_neg bad, Head.ofParse]

end Call

/-! ### One read -/

section Read

variable {handle : σ → Request → σ × Bytes} {outside : Mem} {s : σ} {conn : Conn}
  {reqs : List Request} {future : Bytes}

def Conn.replied (conn : Conn) (replies : Bytes) : Conn :=
  { conn with sendBuf := conn.sendBuf ++ replies }

/-- What the loop makes of a window of the stream: its whole requests are handed over and
answered, and it ends with `END` where a number seems to end badly. -/
structure Drained (handle : σ → Request → σ × Bytes) (s : σ) (conn : Conn) (reqs : List Request)
    (served : Served σ) : Prop where
  handed : served.handed = complete reqs conn.recv.window.length
  state : served.state = (answers handle s served.handed).1
  window : served.conn.recv.window = leftover reqs conn.recv.window
  bytes : served.conn.recv.bytes = conn.recv.bytes
  ending : served.conn.flags.ending = true ↔
    ∃ r ∈ (remaining reqs conn.recv.window).head?,
      CutsNumber r (leftover reqs conn.recv.window).length ∧
        ¬ GoesOn (conn.replied (answers handle s served.handed).2).behind

theorem not_cutsNumber_zero (r : Request) : ¬ CutsNumber r 0 := by
  have := encodeHeader_length r
  rintro (digits | bulks) <;> omega

theorem drained_empty (reqs : List Request) (going : conn.flags.ending = false)
    (empty : conn.recv.window = []) : Drained handle s conn reqs ⟨s, conn, []⟩ := by
  have none : complete reqs conn.recv.window.length = [] := by
    rw [empty]
    exact complete_zero reqs
  refine ⟨none.symm, rfl, (leftover_cut none).symm, rfl, ?_⟩
  rw [leftover_cut none, empty]
  simp [going, not_cutsNumber_zero]

theorem drained_cut {r : Request} (going : conn.flags.ending = false)
    (short : conn.recv.window.length < (encode r).length) (reply : Write) :
    Drained handle s conn (r :: reqs) ⟨s,
      if CutsNumber r conn.recv.window.length ∧ ¬ GoesOn conn.behind then conn.refuse reply
      else conn, []⟩ := by
  have none : complete (r :: reqs) conn.recv.window.length = [] := complete_cut short
  have same : (conn.replied (answers handle s []).2).behind = conn.behind := by
    simp [Conn.replied, answers]
  refine ⟨none.symm, rfl, ?_, ?_, ?_⟩
  · rw [leftover_cut none]
    split <;> rfl
  · split <;> rfl
  · rw [remaining_cut none, leftover_cut none]
    simp only [List.head?_cons, Option.mem_some_iff, exists_eq_left', same]
    split
    next bad => exact iff_of_true rfl bad
    next good => exact iff_of_false (by simp [going]) good

theorem drained_whole {r : Request} {more : Bytes} {rest : Served σ}
    (whole : conn.recv.window = encode r ++ more) (le : (encode r).length ≤ conn.recv.size)
    (drained : Drained handle (handle s r).1
      (conn.served (handle s r).2 (encode r).length le) reqs rest) :
    Drained handle s conn (r :: reqs) { rest with handed := [r] ++ rest.handed } := by
  have window : (conn.served (handle s r).2 (encode r).length le).recv.window = more := by
    rw [Conn.served, conn.recv.window_consume, whole, List.drop_left]
  have stop : (conn.served (handle s r).2 (encode r).length le).recv.read +
      (conn.served (handle s r).2 (encode r).length le).recv.size =
        conn.recv.read + conn.recv.size := by
    simp only [Conn.served, RecvBuf.consume]
    omega
  obtain ⟨handed, state, left, bytes, ending⟩ := drained
  rw [window] at handed left ending
  -- what the first request consumed does not move the byte behind the window
  have behind : ((conn.served (handle s r).2 (encode r).length le).replied
      (answers handle (handle s r).1 rest.handed).2).behind =
        (conn.replied (answers handle s ([r] ++ rest.handed)).2).behind := by
    simp only [Conn.replied, Conn.behind, stop]
    simp [Conn.served, RecvBuf.consume, answers]
  refine ⟨?_, state, ?_, bytes, ?_⟩
  · rw [whole, complete_whole, ← handed]
    rfl
  · rw [whole, leftover_whole]
    exact left
  · rw [whole, leftover_whole, remaining_whole, ← behind]
    exact ending

theorem drain_spec (wellFormed : ∀ r ∈ reqs, WellFormed r) (going : conn.flags.ending = false)
    (stream : conn.recv.window ++ future = encodeAll reqs) {fuel : ℕ}
    (enough : conn.recv.window.length < fuel) :
    ∃ served, drain handle outside fuel s conn = some served ∧
      Drained handle s conn reqs served := by
  induction reqs generalizing s conn fuel with
  | nil =>
    obtain ⟨fuel, rfl⟩ := Nat.exists_eq_add_of_lt enough
    -- without requests there is nothing in the window
    have empty : conn.recv.window = [] := (List.append_eq_nil_iff.mp stream).1
    exact ⟨_, by rw [drain, onDataAvailable_empty empty], drained_empty [] going empty⟩
  | cons r reqs ih =>
    obtain ⟨fuel, rfl⟩ := Nat.exists_eq_add_of_lt enough
    have good := wellFormed r List.mem_cons_self
    have isPrefix : conn.recv.window <+: encode r ++ encodeAll reqs := ⟨future, stream⟩
    rcases prefix_append_cases isPrefix with ⟨inside, short⟩ | ⟨more, whole, -⟩
    · -- the window ends inside of `r`: this is the last call
      by_cases empty : conn.recv.window = []
      · exact ⟨_, by rw [drain, onDataAvailable_empty empty], drained_empty _ going empty⟩
      · exact ⟨_, by rw [drain, onDataAvailable_cut good inside short empty],
          drained_cut going short _⟩
    · -- `r` is whole in the window, and the loop goes on with what is behind it
      have size : conn.recv.size = (encode r).length + more.length := by
        rw [← conn.recv.window_length, whole, List.length_append]
      have le : (encode r).length ≤ conn.recv.size := by omega
      have call : onDataAvailable handle outside s conn = (decide (0 < more.length),
          ⟨(handle s r).1, conn.served (handle s r).2 (encode r).length le, [r]⟩) :=
        onDataAvailable_whole good whole going le
      have window : (conn.served (handle s r).2 (encode r).length le).recv.window = more := by
        rw [Conn.served, conn.recv.window_consume, whole, List.drop_left]
      rw [drain, call]
      by_cases done : more = []
      · refine ⟨_, by simp [done], drained_whole whole le (drained_empty reqs going ?_)⟩
        rw [window, done]
      · have pos := encode_pos r
        have rest : (conn.served (handle s r).2 (encode r).length le).recv.window ++ future =
            encodeAll reqs := by
          rw [whole, encodeAll, List.flatMap_cons, List.append_assoc, List.append_right_inj] at stream
          rw [window]
          exact stream
        have going' : (conn.served (handle s r).2 (encode r).length le).flags.ending = false := going
        have enough' : (conn.served (handle s r).2 (encode r).length le).recv.window.length <
            conn.recv.window.length + fuel := by
          rw [window, whole, List.length_append]
          omega
        obtain ⟨served, looped, drained⟩ := ih (s := (handle s r).1)
          (fun other member => wellFormed other (List.mem_cons_of_mem _ member)) going' rest enough'
        refine ⟨_, ?_, drained_whole whole le drained⟩
        rw [decide_eq_true (List.length_pos_iff.mpr done)]
        simp only [looped, Option.map_some]

end Read

/-! ### All reads -/

section Reads

variable {handle : σ → Request → σ × Bytes} {outside : Mem} {s : σ} {conn : Conn}
  {reqs : List Request} {left : Bytes} {earlier reads : List Bytes}

theorem stale_receive {b : RecvBuf} {data : Bytes} (fits : b.size + data.length ≤ messageMaxLength)
    (window : b.window = left) (old : ∀ i, b.bytes i = stale earlier i) (i : ℕ) :
    (b.receive data fits).bytes i = stale ((left ++ data) :: earlier) i := by
  have size : left.length = b.size := by rw [← window, b.window_length]
  simp only [RecvBuf.receive, stale, List.length_append, size]
  by_cases inLeft : i < b.size
  · rw [if_pos inLeft, if_pos (by omega), List.getD_append _ _ _ _ (by omega), ← window]
    simp [RecvBuf.window, List.getD, inLeft]
  · rw [if_neg inLeft]
    split
    next => rw [List.getD_append_right _ _ _ _ (by omega), size]
    next => exact old i

theorem serveReads_ended (ended : conn.flags.ending = true) :
    serveReads handle outside s conn reads = some ⟨s, conn, []⟩ := by
  cases reads with
  | nil => rfl
  | cons data reads => rw [serveReads, if_pos ended]

theorem serveReads_spec (wellFormed : ∀ r ∈ reqs, WellFormed r) (going : conn.flags.ending = false)
    (window : conn.recv.window = left) (old : ∀ i, conn.recv.bytes i = stale earlier i)
    (none : complete reqs left.length = []) (stream : left ++ reads.flatten = encodeAll reqs)
    (fit : FitReads reqs left reads) :
    ∃ served, serveReads handle outside s conn reads = some served ∧
      (served.handed = reqs ∧ served.conn.flags.ending = false ↔
        NumbersGoOn handle s reqs left earlier reads) := by
  induction reads generalizing s conn reqs left earlier with
  | nil =>
    -- no read is left, so the stream ends at the end of a request
    have done : reqs = [] := by
      cases reqs with
      | nil => rfl
      | cons r reqs =>
        rw [List.flatten_nil, List.append_nil] at stream
        rw [stream, encodeAll, List.flatMap_cons, complete_whole] at none
        cases none
    exact ⟨_, rfl, by simp [done, going, NumbersGoOn]⟩
  | cons data reads ih =>
    obtain ⟨-, fitsLen, fitRest⟩ := fit
    have size : conn.recv.size = left.length := by rw [← window, conn.recv.window_length]
    have fits : conn.recv.size + data.length ≤ messageMaxLength := by
      rw [List.length_append] at fitsLen
      omega
    have received : (conn.flush.receive data fits).recv.window = left ++ data := by
      rw [← window]
      exact conn.recv.window_receive data fits
    have streamed : (left ++ data) ++ reads.flatten = encodeAll reqs := by
      rw [List.append_assoc, ← List.flatten_cons, stream]
    obtain ⟨-, rest, none'⟩ := window_split streamed
    have looped : ∃ served, drain handle outside ((conn.flush.receive data fits).recv.size + 1) s
        (conn.flush.receive data fits) = some served ∧
          Drained handle s (conn.flush.receive data fits) reqs served :=
      drain_spec wellFormed (show (conn.flush.receive data fits).flags.ending = false from going)
        (by rw [received]; exact streamed) (by rw [RecvBuf.window_length]; exact Nat.lt_succ_self _)
    obtain ⟨served, looped, handed, state, left', bytes, ending⟩ := looped
    rw [received] at handed left' ending
    -- the byte behind the window is a stale one, or the low byte of `send_buf_size`
    have behind : ((conn.flush.receive data fits).replied
        (answers handle s served.handed).2).behind =
          byteBehind earlier (left ++ data) (answers handle s served.handed).2.length := by
      have beyond : (conn.recv.receive data fits).bytes (left ++ data).length =
          stale earlier (left ++ data).length := by
        rw [stale_receive fits window old, stale, if_neg (Nat.lt_irrefl _)]
      have stop : (conn.recv.receive data fits).read + (conn.recv.receive data fits).size =
          (left ++ data).length := by
        simp only [RecvBuf.receive, size, List.length_append, Nat.zero_add]
      simp only [Conn.behind, Conn.replied, Conn.receive, Conn.flush, stop, beyond, byteBehind,
        List.nil_append]
    rw [behind, handed] at ending
    rw [handed] at state
    simp only [serveReads, going, Bool.false_eq_true, if_false, dif_pos fits, looped]
    by_cases ended : served.conn.flags.ending = true
    · -- the loop ended the connection in the middle of a number
      obtain ⟨r, next, cut, bad⟩ := ending.mp ended
      refine ⟨_, by rw [serveReads_ended ended]; rfl, ?_⟩
      simp only [ended, Bool.true_eq_false, and_false, NumbersGoOn, false_iff, not_and]
      exact fun goesOn => absurd (goesOn r next cut) bad
    · have still : served.conn.flags.ending = false := by simpa using ended
      have sane : ∀ r ∈ (remaining reqs (left ++ data)).head?,
          CutsNumber r (leftover reqs (left ++ data)).length →
            GoesOn (byteBehind earlier (left ++ data)
              (answers handle s (complete reqs (left ++ data).length)).2.length) :=
        fun r next cut => by_contra fun bad => ended (ending.mpr ⟨r, next, cut, bad⟩)
      have wellFormed' : ∀ r ∈ remaining reqs (left ++ data), WellFormed r :=
        fun r member => wellFormed r (List.mem_of_mem_drop member)
      obtain ⟨final, ran, iff⟩ := ih (s := served.state) wellFormed' still left'
        (fun i => by rw [bytes]; exact stale_receive fits window old i) none' rest fitRest
      refine ⟨_, by rw [ran]; rfl, ?_⟩
      have whole : served.handed ++ final.handed = reqs ↔
          final.handed = remaining reqs (left ++ data) := by
        have split := complete_append_remaining reqs (left ++ data)
        rw [handed]
        constructor
        · exact fun all => List.append_cancel_left (all.trans split.symm)
        · intro same
          rw [same, split]
      rw [NumbersGoOn, ← state, ← iff, and_iff_right sane]
      exact and_congr_left' whole

end Reads

/-- A stream of well-formed requests, cut in any way into reads that fit, is handed over
request by request and without a parse error exactly when no read ends inside a number
while the byte behind the window is neither a digit nor a `\r`. -/
theorem framing_iff (handle : σ → Request → σ × Bytes) (outside : Mem) (s : σ) (shardId : ℕ)
    (addr : Size) (addressable : addr.toNat + (2 * messageMaxLength + 16) ≤ 2 ^ 64)
    (reqs : List Request) (reads : List Bytes) (wellFormed : ∀ r ∈ reqs, WellFormed r)
    (stream : reads.flatten = encodeAll reqs) (fit : FitReads reqs [] reads) :
    (∃ served,
      serveReads handle outside s (Conn.accepted shardId (.fresh addr addressable)) reads =
        some served ∧ served.handed = reqs ∧ served.conn.flags.ending = false) ↔
      NumbersGoOn handle s reqs [] [] reads := by
  have spec : ∃ served,
      serveReads handle outside s (Conn.accepted shardId (.fresh addr addressable)) reads =
        some served ∧ (served.handed = reqs ∧ served.conn.flags.ending = false ↔
          NumbersGoOn handle s reqs [] [] reads) :=
    serveReads_spec wellFormed rfl rfl (fun _ => rfl) (complete_zero reqs) stream fit
  obtain ⟨served, ran, iff⟩ := spec
  constructor
  · rintro ⟨other, ran', result⟩
    rw [ran] at ran'
    cases ran'
    exact iff.mp result
  · exact fun goesOn => ⟨served, ran, iff.mpr goesOn⟩

def ping : Request := [asciiBytes "PING"]

/-- Every request is answered as `cmd_ping` does. -/
def pong : Unit → Request → Unit × Bytes := fun s _ => (s, asciiBytes "+PONG\r\n")

theorem ping_wellFormed : WellFormed ping := ⟨by decide, by decide, by decide⟩

/-- The second request is cut behind its `*`, with an old digit behind the window. -/
theorem framing_of_two_pings : ∃ served,
    serveReads pong (fun _ => 0) () (Conn.accepted 0 (.fresh 65536 (by decide)))
        [encode ping, asciiBytes "*", asciiBytes "1\r\n$4\r\nPING\r\n"] = some served ∧
      served.handed = [ping, ping] ∧ served.conn.flags.ending = false :=
  (framing_iff pong (fun _ => 0) () 0 65536 (by decide) [ping, ping] _
    (by simp [ping_wellFormed]) (by decide) (by decide)).mpr (by decide)

/-- On a fresh connection the byte behind a lone `*` is zero, which is a parse error. -/
theorem first_asterisk_alone : (∀ r ∈ [ping], WellFormed r) ∧
    [asciiBytes "*", asciiBytes "1\r\n$4\r\nPING\r\n"].flatten = encodeAll [ping] ∧
    FitReads [ping] [] [asciiBytes "*", asciiBytes "1\r\n$4\r\nPING\r\n"] ∧
    ¬ ∃ served, serveReads pong (fun _ => 0) () (Conn.accepted 0 (.fresh 65536 (by decide)))
        [asciiBytes "*", asciiBytes "1\r\n$4\r\nPING\r\n"] = some served ∧
      served.handed = [ping] ∧ served.conn.flags.ending = false := by
  refine ⟨by simp [ping_wellFormed], by decide, by decide, ?_⟩
  rintro ⟨served, ran, handed, -⟩
  have nothing : (serveReads pong (fun _ => 0) ()
      (Conn.accepted 0 (.fresh 65536 (by decide)))
      [asciiBytes "*", asciiBytes "1\r\n$4\r\nPING\r\n"]).map Served.handed = some [] := by
    decide +kernel
  rw [ran, Option.map_some, handed] at nothing
  cases nothing

end GhettoRedis.Protocol
