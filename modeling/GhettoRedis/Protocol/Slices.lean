import GhettoRedis.Protocol.Accepted
import GhettoRedis.Protocol.Available

/-!
# Slices in memory

A command that reads an argument to its last byte stays in `recv_buf` as long as no length
announced up to that argument exceeds the window. A longer one is accepted only where the
addition of its length wraps.
-/
namespace GhettoRedis.Protocol

open Lib

/-- The `len` bytes from address `a` on lie in `recv_buf`. -/
def RecvBuf.Holds (b : RecvBuf) (a : Size) (len : ℕ) : Prop :=
  b.addr.toNat ≤ a.toNat ∧ a.toNat + len ≤ b.addr.toNat + messageMaxLength

instance (b : RecvBuf) (a : Size) (len : ℕ) : Decidable (b.Holds a len) :=
  inferInstanceAs (Decidable (_ ∧ _))

/-- The first `count` arguments lie in `recv_buf`. -/
def RecvBuf.HoldsArgs (b : RecvBuf) (args : CmdArgs) (count : ℕ) : Prop :=
  ∀ s ∈ args.slices.take count, b.Holds (args.buf + s.offset) s.len.toNat

instance (b : RecvBuf) (args : CmdArgs) (count : ℕ) : Decidable (b.HoldsArgs args count) :=
  inferInstanceAs (Decidable (∀ _ ∈ _, _))

/-- None of the lengths announced for the first `count` arguments exceeds the window. -/
def RecvBuf.Short (b : RecvBuf) (args : CmdArgs) (count : ℕ) : Prop :=
  ∀ s ∈ args.slices.take count, s.len.toNat ≤ b.size

instance (b : RecvBuf) (args : CmdArgs) (count : ℕ) : Decidable (b.Short args count) :=
  inferInstanceAs (Decidable (∀ _ ∈ _, _))

variable {mem : Mem} {b : RecvBuf} {args : CmdArgs} {count : ℕ}

/-! ### Bulk strings -/

/-- A payload in the window does not leave the buffer, or its length exceeds the window. -/
theorem held_iff_short {payload len : Size} (after : b.start.toNat ≤ payload.toNat)
    (before : payload.toNat ≤ b.stop.toNat) (accepted : ¬ b.stop < payload + len + 2) :
    (b.Holds payload len.toNat ↔ len.toNat ≤ b.size) ∧
      (len.toNat ≤ b.size → payload.toNat + len.toNat + 2 ≤ b.stop.toNat) := by
  have startAt := b.start_toNat
  have stopAt := b.stop_toNat
  have room := b.stop_room
  have inside := b.inside
  -- a length within the buffer does not wrap, so that the check of the parser means what it says
  have ends (small : payload.toNat + len.toNat + 2 < 2 ^ 64) :
      payload.toNat + len.toNat + 2 ≤ b.stop.toNat := by
    have first : (payload + len).toNat = payload.toNat + len.toNat := toNat_add (by omega)
    have sum : (payload + len + 2).toNat = payload.toNat + len.toNat + 2 := by
      rw [toNat_add (b := 2) (by rw [first]; exact small), first]
      rfl
    rw [BitVec.lt_def, sum] at accepted
    omega
  have wide : messageMaxLength = 8192 := rfl
  refine ⟨⟨fun held => ?_, fun short => ?_⟩, fun short => ends (by omega)⟩
  · have := ends (by have := held.2; have := b.addressable; omega)
    omega
  · have := ends (by omega)
    exact ⟨by omega, by omega⟩

/-- From the first bulk string to the last: as long as none is longer than the window, the next one
begins in it. -/
theorem Bulks.held_iff_short {left : ℕ} {cur last : Size} {bulks : List (Size × Size)}
    (chain : Bulks mem b.stop left cur bulks last) (after : b.start.toNat ≤ cur.toNat)
    (before : cur.toNat ≤ b.stop.toNat) (count : ℕ) :
    (∀ bulk ∈ bulks.take count, b.Holds bulk.1 bulk.2.toNat) ↔
      ∀ bulk ∈ bulks.take count, bulk.2.toNat ≤ b.size := by
  induction chain generalizing count with
  | nil => simp
  | @cons left cur payload len last rest notStop isDollar number notBehind chain ih =>
    have small := b.stop_lt
    have next : (cur + 1).toNat = cur.toNat + 1 := toNat_add (b := 1) (by simp; omega)
    obtain ⟨behind, inFront⟩ := parseNumber_bounds small number
    obtain ⟨here, ends⟩ := Protocol.held_iff_short (by omega) inFront notBehind
    cases count with
    | zero => simp
    | succ count =>
      rw [List.take_succ_cons, List.forall_mem_cons, List.forall_mem_cons, here]
      refine and_congr_right fun short => ?_
      -- the next bulk string begins behind this one, and still in the window
      have fits := ends short
      have first : (payload + len).toNat = payload.toNat + len.toNat := toNat_add (by omega)
      have sum : (payload + len + 2).toNat = payload.toNat + len.toNat + 2 := by
        rw [toNat_add (b := 2) (by rw [first]; simp; omega), first]
        rfl
      exact ih (by omega) (by omega) count

/-! ### Accepted requests -/

theorem parse_of_head {conn : Conn} (head : conn.head mem = .request args) :
    conn.parse mem = .ok args := by
  unfold Conn.head at head
  split at head
  next => cases head
  next =>
    unfold Head.ofParse at head
    split at head <;> cases head
    assumption

/-- One of the parsers accepted the request at the front of the window. -/
theorem accepted_of_head {conn : Conn} (head : conn.head mem = .request args) :
    parseRespRequest mem conn.recv = .ok args ∨ parseInlineRequest mem conn.recv = .ok args := by
  have parsed := parse_of_head head
  unfold Conn.parse at parsed
  split at parsed
  · exact .inl parsed
  · exact .inr parsed

theorem inline_buf (done : parseInlineRequest mem b = .ok args) : args.buf = b.start := by
  rw [parseInlineRequest] at done
  split at done <;> cases done
  rfl

/-- Arguments inside the window are inside the buffer. -/
theorem ArgsInside.holds (inside : ArgsInside b.size args) (buf : args.buf = b.start) {s : Slice}
    (member : s ∈ args.slices) : b.Holds (args.buf + s.offset) s.len.toNat := by
  have within := inside.inside s member
  have len := inside.len
  have startAt := b.start_toNat
  have stopAt := b.stop_toNat
  have room := b.stop_room
  have fits := b.inside
  have at_slice : (args.buf + s.offset).toNat = b.start.toNat + s.offset.toNat := by
    rw [buf]
    exact toNat_add (by omega)
  exact ⟨by omega, by omega⟩

theorem holdsArgs_iff_short {conn : Conn} (head : conn.head mem = .request args) :
    conn.recv.HoldsArgs args count ↔ conn.recv.Short args count := by
  rcases accepted_of_head head with resp | line
  · obtain ⟨-, cur, argc, bulks, last, number, -, -, chain, rfl⟩ := parseRespRequest_ok_iff.mp resp
    have small := conn.recv.stop_lt
    have stopAt := conn.recv.stop_toNat
    have next : (conn.recv.start + 1).toNat = conn.recv.start.toNat + 1 :=
      toNat_add (b := 1) (by simp; omega)
    obtain ⟨after, before⟩ := parseNumber_bounds small number
    have bulks := chain.held_iff_short (by omega) before count
    -- the slices are the bulk strings, seen from the start of the window
    have back (a : Size) : conn.recv.start + (a - conn.recv.start) = a := by
      rw [BitVec.add_comm, BitVec.sub_add_cancel]
    simpa only [RecvBuf.HoldsArgs, RecvBuf.Short, ← List.map_take, List.forall_mem_map, sliceOf, back]
      using bulks
  · -- the words of a line are inside
    have inside := inline_inside line
    refine iff_of_true (fun s member => inside.holds (inline_buf line) (List.mem_of_mem_take member))
      fun s member => ?_
    have within := inside.inside s (List.mem_of_mem_take member)
    have len := inside.len
    omega

/-- When none of the announced lengths exceeds the window, the arguments lie inside of it. -/
theorem argsInside_of_short {conn : Conn} (head : conn.head mem = .request args)
    (short : conn.recv.Short args args.slices.length) : ArgsInside conn.recv.size args := by
  have held := (holdsArgs_iff_short head).mpr short
  simp only [RecvBuf.HoldsArgs, List.take_length] at held
  rcases accepted_of_head head with resp | line
  · obtain ⟨-, cur, argc, bulks, last, number, few, -, chain, rfl⟩ := parseRespRequest_ok_iff.mp resp
    refine argsInside_of_noWrap number few chain fun bulk member => ?_
    have within := (held _ (List.mem_map_of_mem member)).2
    have back : conn.recv.start + (bulk.1 - conn.recv.start) = bulk.1 := by
      rw [BitVec.add_comm, BitVec.sub_add_cancel]
    have addressable := conn.recv.addressable
    simp only [sliceOf, back, messageMaxLength] at within addressable
    omega
  · exact inline_inside line

end GhettoRedis.Protocol
