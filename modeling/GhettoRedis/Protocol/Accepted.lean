import GhettoRedis.Protocol.Parser

/-!
# Accepted arguments

Where the slices of an accepted request lie, and the one way in which they can lie
outside the received bytes: a bulk length for which `cur + arglen + 2` wraps.
-/
namespace GhettoRedis.Protocol

open Lib

/-- In unbounded arithmetic: at most `MAX_ARGC` slices, one behind the other, all
inside the request, which lies inside the `size` received bytes. -/
structure ArgsInside (size : ℕ) (args : CmdArgs) : Prop where
  argc : args.argc.toNat ≤ maxArgc
  count : args.slices.length = args.argc.toNat
  len : args.len.toNat ≤ size
  inside : ∀ s ∈ args.slices, s.offset.toNat + s.len.toNat ≤ args.len.toNat
  ordered : args.slices.Pairwise fun s t => s.offset.toNat + s.len.toNat < t.offset.toNat

/-- Whatever the parsers accept in the window of `b` lies inside it. -/
def AcceptedInside (mem : Mem) (b : RecvBuf) : Prop :=
  (∀ args, parseRespRequest mem b = .ok args → ArgsInside b.size args) ∧
    ∀ args, parseInlineRequest mem b = .ok args → ArgsInside b.size args

/-- Memory holds `left` bulk strings from `cur` to `last`, read the way a machine adds
pointers: the start of each payload and the length announced for it. -/
inductive Bulks (mem : Mem) (stop : Size) : ℕ → Size → List (Size × Size) → Size → Prop
  | nil (cur : Size) : Bulks mem stop 0 cur [] cur
  | cons {left : ℕ} {cur payload len last : Size} {rest : List (Size × Size)} :
      cur ≠ stop → mem cur = dollar → parseNumber mem (cur + 1) stop = .ok (payload, len) →
      ¬ stop < payload + len + 2 → Bulks mem stop left (payload + len + 2) rest last →
      Bulks mem stop (left + 1) cur ((payload, len) :: rest) last

/-- In no complete request of the window does a bulk string end behind address 2 ^ 64. -/
def NoLengthWraps (mem : Mem) (b : RecvBuf) : Prop :=
  ∀ cur argc bulks last, parseNumber mem (b.start + 1) b.stop = .ok (cur, argc) →
    argc.toNat ≤ maxArgc → ¬ b.stop < cur + 2 → Bulks mem b.stop argc.toNat cur bulks last →
    ∀ bulk ∈ bulks, bulk.1.toNat + bulk.2.toNat + 2 < 2 ^ 64

variable {mem : Mem} {start stop cur : Size}

/-! ### Numbers -/

theorem numberLoop_bounds {fuel : ℕ} {p res last n : Size}
    (bound : p.toNat + fuel ≤ stop.toNat + 1) (small : stop.toNat + 2 < 2 ^ 64)
    (done : numberLoop mem fuel p res = .ok (last, n)) :
    p.toNat ≤ last.toNat ∧ last.toNat ≤ stop.toNat := by
  induction fuel generalizing p res with
  | zero => simp [numberLoop] at done
  | succ fuel ih =>
    have next : (p + 1).toNat = p.toNat + 1 := toNat_add (b := 1) (by simp; omega)
    rw [numberLoop] at done
    split at done
    next =>
      cases done
      omega
    next =>
      split at done
      next => cases done
      next =>
        split at done
        next => cases done
        next =>
          -- one byte further, with one less of the fuel
          have := ih (by omega) done
          omega

theorem parseNumber_bounds {n payload : Size} (small : stop.toNat + 2 < 2 ^ 64)
    (done : parseNumber mem cur stop = .ok (payload, n)) :
    cur.toNat + 2 ≤ payload.toNat ∧ payload.toNat ≤ stop.toNat := by
  rw [parseNumber] at done
  split at done
  next => cases done
  next p res ran =>
    split at done
    next => cases done
    next inside =>
      cases done
      by_cases empty : stop.toNat + 1 ≤ cur.toNat
      · rw [Nat.sub_eq_zero_of_le empty] at ran
        simp [numberLoop] at ran
      · have bounds := numberLoop_bounds (by omega) small ran
        have next : (p + 2).toNat = p.toNat + 2 := toNat_add (b := 2) (by simp; omega)
        rw [BitVec.lt_def, next] at inside
        omega

/-! ### Bulk strings -/

/-- The slice that the loop stores for an announced bulk string. -/
def sliceOf (start : Size) (bulk : Size × Size) : Slice := ⟨bulk.1 - start, bulk.2⟩

theorem parseBulks_ok_iff {left : ℕ} {last : Size} {slices : List Slice} :
    parseBulks mem start stop left cur = .ok (last, slices) ↔
      ∃ bulks, Bulks mem stop left cur bulks last ∧ slices = bulks.map (sliceOf start) := by
  constructor
  · -- through the checks of one bulk string
    intro done
    induction left generalizing cur slices with
    | zero =>
      cases done
      exact ⟨[], .nil _, rfl⟩
    | succ left ih =>
      rw [parseBulks] at done
      split at done
      next => cases done
      next notStop =>
        split at done
        next isDollar =>
          split at done
          next => cases done
          next payload len number =>
            split at done
            next => cases done
            next inside =>
              split at done
              next => cases done
              next rest =>
                cases done
                obtain ⟨bulks, chain, rfl⟩ := ih rest
                exact ⟨(payload, len) :: bulks, .cons notStop isDollar number inside chain, rfl⟩
        next => cases done
  · -- each link of the chain has passed them
    rintro ⟨bulks, chain, rfl⟩
    induction chain with
    | nil => rfl
    | cons notStop isDollar number inside _ ih =>
      simp only [parseBulks, if_neg notStop, if_pos isDollar, number, if_neg inside, ih]
      rfl

theorem parseRespRequest_ok_iff {b : RecvBuf} {args : CmdArgs} :
    parseRespRequest mem b = .ok args ↔
      b.start ≠ b.stop ∧ ∃ cur argc bulks last,
        parseNumber mem (b.start + 1) b.stop = .ok (cur, argc) ∧ argc.toNat ≤ maxArgc ∧
        ¬ b.stop < cur + 2 ∧ Bulks mem b.stop argc.toNat cur bulks last ∧
        args = ⟨b.start, argc, last - b.start, bulks.map (sliceOf b.start)⟩ := by
  constructor
  · intro done
    rw [parseRespRequest] at done
    split at done
    next => cases done
    next notEmpty =>
      split at done
      next => cases done
      next cur argc number =>
        split at done
        next => cases done
        next few =>
          split at done
          next => cases done
          next room =>
            split at done
            next => cases done
            next last slices loop =>
              cases done
              obtain ⟨bulks, chain, rfl⟩ := parseBulks_ok_iff.mp loop
              exact ⟨notEmpty, cur, argc, bulks, last, number, Nat.le_of_not_lt few, room,
                chain, rfl⟩
  · rintro ⟨notEmpty, cur, argc, bulks, last, number, few, room, chain, rfl⟩
    have loop : parseBulks mem b.start b.stop argc.toNat cur =
        .ok (last, bulks.map (sliceOf b.start)) := parseBulks_ok_iff.mpr ⟨bulks, chain, rfl⟩
    simp only [parseRespRequest, if_neg notEmpty, number, if_neg (Nat.not_lt.mpr few),
      if_neg room, loop]

theorem Bulks.length_eq {left : ℕ} {bulks : List (Size × Size)} {last : Size}
    (chain : Bulks mem stop left cur bulks last) : bulks.length = left := by
  induction chain with
  | nil => rfl
  | cons _ _ _ _ _ ih => rw [List.length_cons, ih]

theorem Bulks.nil_eq {left : ℕ} {last : Size} (chain : Bulks mem stop left cur [] last) :
    cur = last := by
  cases chain
  rfl

/-- Without a wrap the bulk strings follow each other up to `last`. -/
theorem Bulks.inside {left : ℕ} {bulks : List (Size × Size)} {last : Size}
    (small : stop.toNat + 2 < 2 ^ 64) (chain : Bulks mem stop left cur bulks last)
    (noWrap : ∀ bulk ∈ bulks, bulk.1.toNat + bulk.2.toNat + 2 < 2 ^ 64)
    (within : cur.toNat ≤ stop.toNat) :
    cur.toNat ≤ last.toNat ∧ last.toNat ≤ stop.toNat ∧
      (∀ bulk ∈ bulks, cur.toNat < bulk.1.toNat ∧
        bulk.1.toNat + bulk.2.toNat + 2 ≤ last.toNat) ∧
      bulks.Pairwise fun x y => x.1.toNat + x.2.toNat + 2 < y.1.toNat := by
  induction chain with
  | nil => exact ⟨Nat.le_refl _, within, by simp, .nil⟩
  | @cons left cur payload len last rest notStop isDollar number notBehind chain ih =>
    have next : (cur + 1).toNat = cur.toNat + 1 := toNat_add (b := 1) (by simp; omega)
    obtain ⟨after, before⟩ := parseNumber_bounds small number
    have fits := noWrap (payload, len) List.mem_cons_self
    -- the end of the payload as a number
    have sum : (payload + len + 2).toNat = payload.toNat + len.toNat + 2 := by
      have first : (payload + len).toNat = payload.toNat + len.toNat :=
        toNat_add (by dsimp only at fits; omega)
      rw [toNat_add (b := 2) (by rw [first]; simpa using fits), first]
      rfl
    -- so it is not behind the window
    rw [BitVec.lt_def, sum] at notBehind
    obtain ⟨le, leStop, within', apart⟩ :=
      ih (fun bulk member => noWrap bulk (List.mem_cons_of_mem _ member)) (by omega)
    refine ⟨by omega, leStop, ?_, ?_⟩
    · intro bulk member
      rcases List.mem_cons.mp member with rfl | later
      · exact ⟨by dsimp only; omega, by dsimp only; omega⟩
      · obtain ⟨lower, upper⟩ := within' bulk later
        exact ⟨by omega, upper⟩
    · -- the payloads behind begin after this one
      refine .cons (fun bulk later => ?_) apart
      have := (within' bulk later).1
      dsimp only
      omega

/-- Bulk strings whose lengths do not wrap give arguments inside the window. -/
theorem argsInside_of_noWrap {b : RecvBuf} {argc last : Size} {bulks : List (Size × Size)}
    (number : parseNumber mem (b.start + 1) b.stop = .ok (cur, argc))
    (few : argc.toNat ≤ maxArgc) (chain : Bulks mem b.stop argc.toNat cur bulks last)
    (noWrap : ∀ bulk ∈ bulks, bulk.1.toNat + bulk.2.toNat + 2 < 2 ^ 64) :
    ArgsInside b.size ⟨b.start, argc, last - b.start, bulks.map (sliceOf b.start)⟩ := by
  have small := b.stop_lt
  have stopAt := b.stop_toNat
  have next : (b.start + 1).toNat = b.start.toNat + 1 := toNat_add (b := 1) (by simp; omega)
  obtain ⟨after, before⟩ := parseNumber_bounds small number
  obtain ⟨le, leStop, within, apart⟩ := chain.inside small noWrap before
  -- the offsets are taken from the start of the window
  have lenIs : (last - b.start).toNat = last.toNat - b.start.toNat := toNat_sub (by omega)
  have offsetIs (bulk : Size × Size) (member : bulk ∈ bulks) :
      (bulk.1 - b.start).toNat = bulk.1.toNat - b.start.toNat :=
    toNat_sub (by have := (within bulk member).1; omega)
  refine ⟨few, ?_, ?_, ?_, ?_⟩
  · rw [List.length_map, chain.length_eq]
  · dsimp only
    omega
  · intro s member
    obtain ⟨bulk, isBulk, rfl⟩ := List.mem_map.mp member
    have := within bulk isBulk
    simp only [sliceOf, offsetIs bulk isBulk, lenIs]
    omega
  · rw [List.pairwise_map]
    refine apart.imp_of_mem fun {x y} first second gap => ?_
    have := within x first
    simp only [sliceOf, offsetIs x first, offsetIs y second]
    omega

/-- A bulk string whose end wraps has a slice that no window holds. -/
theorem wraps_of_not_inside {b : RecvBuf} {bulk : Size × Size} {len : ℕ} (window : len ≤ b.size)
    (inside : (sliceOf b.start bulk).offset.toNat + (sliceOf b.start bulk).len.toNat ≤ len) :
    bulk.1.toNat + bulk.2.toNat + 2 < 2 ^ 64 := by
  have small := b.stop_lt
  have stopAt := b.stop_toNat
  simp only [sliceOf, BitVec.toNat_sub] at inside
  have := bulk.1.isLt
  have := bulk.2.isLt
  have := b.start.isLt
  omega

/-! ### Inline requests -/

/-- The scan before index `i`: the words found lie one behind the other, each with a
separator behind it, and an open word ends at `i`. -/
structure ScanInside (i : ℕ) (s : Scan) : Prop where
  argc : s.slices.length + (if s.inArg then 1 else 0) ≤ maxArgc
  closed : ∀ t ∈ s.slices, t.offset.toNat + t.len.toNat < i
  ordered : s.slices.Pairwise fun t u => t.offset.toNat + t.len.toNat < u.offset.toNat
  opened : s.inArg = true → s.offset.toNat + s.len.toNat = i ∧
    ∀ t ∈ s.slices, t.offset.toNat + t.len.toNat < s.offset.toNat

namespace ScanInside

variable {i : ℕ} {s : Scan}

theorem closeArg (scan : ScanInside i s) : ScanInside (i + 1) s.closeArg := by
  unfold Scan.closeArg
  split
  next isOpen =>
    -- the open argument ends where the next byte would be added
    obtain ⟨ends, before⟩ := scan.opened isOpen
    have argc := scan.argc
    rw [if_pos isOpen] at argc
    refine ⟨by simpa using argc, ?_, ?_, by simp⟩
    · intro t member
      rcases List.mem_append.mp member with old | new
      · exact (scan.closed t old).trans (Nat.lt_succ_self i)
      · obtain rfl := List.mem_singleton.mp new
        dsimp only
        omega
    · rw [List.pairwise_append]
      refine ⟨scan.ordered, List.pairwise_singleton .., fun t old u new => ?_⟩
      obtain rfl := List.mem_singleton.mp new
      exact before t old
  next shut =>
    exact ⟨scan.argc, fun t member => (scan.closed t member).trans (Nat.lt_succ_self i),
      scan.ordered, fun isOpen => absurd isOpen shut⟩

theorem carriageReturn (scan : ScanInside i s) : ScanInside i { s with crlf := true } :=
  ⟨scan.argc, scan.closed, scan.ordered, scan.opened⟩

theorem extend (scan : ScanInside i s) (small : i + 1 < 2 ^ 64) (isOpen : s.inArg = true) :
    ScanInside (i + 1) { s with len := s.len + 1 } := by
  obtain ⟨ends, before⟩ := scan.opened isOpen
  have len : (s.len + 1).toNat = s.len.toNat + 1 := toNat_add (b := 1) (by simp; omega)
  refine ⟨scan.argc, fun t member => (scan.closed t member).trans (Nat.lt_succ_self i),
    scan.ordered, fun _ => ⟨?_, before⟩⟩
  dsimp only
  omega

theorem begin (scan : ScanInside i s) (small : i + 1 < 2 ^ 64) (shut : s.inArg = false)
    (room : s.slices.length ≠ maxArgc) :
    ScanInside (i + 1) { s with offset := BitVec.ofNat 64 i, len := 1, inArg := true } := by
  have argc := scan.argc
  have index : (BitVec.ofNat 64 i).toNat = i := by
    rw [BitVec.toNat_ofNat, Nat.mod_eq_of_lt (by omega)]
  simp only [shut, Bool.false_eq_true, if_false, Nat.add_zero] at argc
  refine ⟨?_, fun t member => (scan.closed t member).trans (Nat.lt_succ_self i), scan.ordered,
    fun _ => ⟨?_, ?_⟩⟩
  · rw [if_pos rfl]
    dsimp only
    omega
  · dsimp only
    rw [index]
    rfl
  · intro t member
    dsimp only
    rw [index]
    exact scan.closed t member

end ScanInside

theorem scanInside_begin : ScanInside 0 Scan.begin := by
  constructor <;> simp [Scan.begin]

theorem inlineLoop_inside {left i : ℕ} {s s' : Scan} {j : Size} (small : i + left + 1 < 2 ^ 64)
    (scan : ScanInside i s)
    (done : inlineLoop mem cur left (BitVec.ofNat 64 i) s = .ok (j, s')) :
    ∃ n, j = BitVec.ofNat 64 n ∧ n < i + left ∧ ScanInside n s' := by
  induction left generalizing i s with
  | zero => simp [inlineLoop] at done
  | succ left ih =>
    have next : BitVec.ofNat 64 i + 1 = BitVec.ofNat 64 (i + 1) := (BitVec.ofNat_add i 1).symm
    -- every branch but the last byte of the line goes on with the next index
    have later {t : Scan} (scan : ScanInside (i + 1) t)
        (done : inlineLoop mem cur left (BitVec.ofNat 64 i + 1) t = .ok (j, s')) :
        ∃ n, j = BitVec.ofNat 64 n ∧ n < i + (left + 1) ∧ ScanInside n s' := by
      rw [next] at done
      obtain ⟨n, is, bound, inside⟩ := ih (by omega) scan done
      exact ⟨n, is, by omega, inside⟩
    rw [inlineLoop] at done
    split at done
    next => exact later scan.closeArg done
    next =>
      split at done
      next => exact later scan.closeArg.carriageReturn done
      next =>
        split at done
        next =>
          split at done
          next =>
            cases done
            exact ⟨i, rfl, by omega, scan⟩
          next => cases done
        next =>
          split at done
          next isOpen => exact later (scan.extend (by omega) isOpen) done
          next shut =>
            split at done
            next => cases done
            next room =>
              exact later (scan.begin (by omega) (by simpa using shut) room) done

theorem inline_inside {b : RecvBuf} {args : CmdArgs}
    (done : parseInlineRequest mem b = .ok args) : ArgsInside b.size args := by
  have small := b.stop_lt
  have stopAt := b.stop_toNat
  rw [parseInlineRequest] at done
  split at done
  next => cases done
  next j s loop =>
    cases done
    obtain ⟨n, rfl, bound, scan⟩ := inlineLoop_inside (by omega) scanInside_begin loop
    have closed := scan.closeArg
    have len : (BitVec.ofNat 64 n + 1).toNat = n + 1 := by
      rw [show (1 : Size) = BitVec.ofNat 64 1 from rfl, ← BitVec.ofNat_add, BitVec.toNat_ofNat,
        Nat.mod_eq_of_lt (by omega)]
    have few : s.closeArg.slices.length ≤ maxArgc := (Nat.le_add_right _ _).trans closed.argc
    have argc : (BitVec.ofNat 64 s.closeArg.slices.length).toNat = s.closeArg.slices.length := by
      rw [BitVec.toNat_ofNat, Nat.mod_eq_of_lt (by simp only [maxArgc] at few; omega)]
    refine ⟨by rw [argc]; exact few, argc.symm, ?_, ?_, closed.ordered⟩
    · rw [len]
      omega
    · intro t member
      rw [len]
      exact (closed.closed t member).le

/-! ### Both parsers -/

/-- The parsers accept only arguments inside the window exactly where no announced bulk
length makes `cur + arglen + 2` wrap. -/
theorem accepted_inside_iff (mem : Mem) (b : RecvBuf) :
    AcceptedInside mem b ↔ NoLengthWraps mem b := by
  constructor
  · rintro ⟨resp, -⟩ cur argc bulks last number few room chain bulk member
    by_cases notEmpty : b.start = b.stop
    · -- behind an empty window there is no number
      have := parseNumber_bounds b.stop_lt number
      have next : (b.start + 1).toNat = b.start.toNat + 1 :=
        toNat_add (b := 1) (by have := b.stop_lt; rw [← notEmpty] at this; simp; omega)
      rw [← notEmpty] at this
      omega
    · have args := resp _ (parseRespRequest_ok_iff.mpr
        ⟨notEmpty, cur, argc, bulks, last, number, few, room, chain, rfl⟩)
      exact wraps_of_not_inside args.len (args.inside _ (List.mem_map_of_mem member))
  · intro noWrap
    refine ⟨fun args done => ?_, fun args => inline_inside⟩
    obtain ⟨-, cur, argc, bulks, last, number, few, room, chain, rfl⟩ :=
      parseRespRequest_ok_iff.mp done
    exact argsInside_of_noWrap number few chain (noWrap _ _ _ _ number few room chain)

/-- One bulk string of announced length 2 ^ 64 - 2, received on a fresh connection. -/
def hugeLength : RecvBuf :=
  (RecvBuf.fresh 65536 (by decide)).receive (asciiBytes "*1\r\n$18446744073709551614\r\n")
    (by decide)

/-- Its end wraps to its own start, so `parse_resp_request` accepts it. -/
theorem huge_length_accepted :
    ¬ AcceptedInside ((Conn.accepted 0 hugeLength).mem fun _ => 0) hugeLength := by
  rintro ⟨resp, -⟩
  have accepted : parseRespRequest ((Conn.accepted 0 hugeLength).mem fun _ => 0) hugeLength =
      .ok ⟨65536, 1, 27, [⟨27, 18446744073709551614⟩]⟩ := by decide +kernel
  have := (resp _ accepted).inside _ (List.mem_singleton_self _)
  revert this
  decide

end GhettoRedis.Protocol
