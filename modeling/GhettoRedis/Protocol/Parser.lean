import GhettoRedis.Protocol.Conn

/-!
# The request parsers

`parse_number`, `parse_resp_request` and `parse_inline_request` over memory, with
pointers that are machine words. Their results other than `PARSE_OK` are the errors.
-/
namespace GhettoRedis.Protocol

open Lib

/-- `PARSE_ERROR`, `PARSE_ERROR_INVALID_ARGC` and `PARSE_INCOMPLETE`. -/
inductive ParseError where
  | error
  | invalidArgc
  | incomplete
  deriving DecidableEq

/-- `args->offsets[i]` and `args->lens[i]` -/
structure Slice where
  offset : Size
  len : Size
  deriving DecidableEq

structure CmdArgs where
  buf : Size
  argc : Size
  len : Size
  slices : List Slice
  deriving DecidableEq

/-- `SIZE_MAX` -/
def sizeMax : Size := BitVec.allOnes 64

/-! ### `parse_number` -/

/-- `*p - (uint8_t)'0'` -/
def digitOf (b : UInt8) : Size := BitVec.ofNat 64 (digitValue b)

/-- The loop `while (p <= end)`, with one unit of fuel for each address up to `end`
itself: the pointer at the `\r` and the number before it. -/
def numberLoop (mem : Mem) : (fuel : ℕ) → (p res : Size) → Except ParseError (Size × Size)
  | 0, _, _ => .error .incomplete
  | fuel + 1, p, res =>
    if mem p = cr then .ok (p, res)
    else if mem p < 48 ∨ 57 < mem p then .error .error
    else if (sizeMax - digitOf (mem p)) / 10 < res then .error .error
    else numberLoop mem fuel (p + 1) (res * 10 + digitOf (mem p))

/-- `parse_number`: the new `*cur` and `*result`. -/
def parseNumber (mem : Mem) (cur stop : Size) : Except ParseError (Size × Size) :=
  match numberLoop mem (stop.toNat + 1 - cur.toNat) cur 0 with
  | .error e => .error e
  | .ok (p, res) => if stop < p + 2 then .error .incomplete else .ok (p + 2, res)

/-! ### `parse_resp_request` -/

/-- The loop over the bulk strings: `cur` behind the last of them, and their slices. -/
def parseBulks (mem : Mem) (start stop : Size) :
    (left : ℕ) → (cur : Size) → Except ParseError (Size × List Slice)
  | 0, cur => .ok (cur, [])
  | left + 1, cur =>
    if cur = stop then .error .incomplete
    else if mem cur = dollar then
      match parseNumber mem (cur + 1) stop with
      | .error e => .error e
      | .ok (cur, arglen) =>
        if stop < cur + arglen + 2 then .error .incomplete
        else
          match parseBulks mem start stop left (cur + arglen + 2) with
          | .error e => .error e
          | .ok (last, slices) => .ok (last, ⟨cur - start, arglen⟩ :: slices)
    else .error .error

def parseRespRequest (mem : Mem) (b : RecvBuf) : Except ParseError CmdArgs :=
  if b.start = b.stop then .error .incomplete
  else
    match parseNumber mem (b.start + 1) b.stop with
    | .error e => .error e
    | .ok (cur, argc) =>
      if maxArgc < argc.toNat then .error .invalidArgc
      else if b.stop < cur + 2 then .error .incomplete
      else
        match parseBulks mem b.start b.stop argc.toNat cur with
        | .error e => .error e
        | .ok (cur, slices) => .ok ⟨b.start, argc, cur - b.start, slices⟩

/-! ### `parse_inline_request` -/

/-- The locals of the scan; `args->argc` is the number of slices. -/
structure Scan where
  slices : List Slice
  offset : Size
  len : Size
  inArg : Bool
  crlf : Bool

namespace Scan

def begin : Scan := ⟨[], 0, 0, false, false⟩

/-- `if (in_arg) { ... }` -/
def closeArg (s : Scan) : Scan :=
  if s.inArg then { s with slices := s.slices ++ [⟨s.offset, s.len⟩], inArg := false } else s

end Scan

/-- The scan from index `i` on, with `left` bytes of the window to go: the index of the
`\n` that completes the line. -/
def inlineLoop (mem : Mem) (cur : Size) :
    (left : ℕ) → (i : Size) → Scan → Except ParseError (Size × Scan)
  | 0, _, _ => .error .incomplete
  | left + 1, i, s =>
    if mem (cur + i) = space then inlineLoop mem cur left (i + 1) s.closeArg
    else if mem (cur + i) = cr then
      inlineLoop mem cur left (i + 1) { s.closeArg with crlf := true }
    else if mem (cur + i) = lf then if s.crlf then .ok (i, s) else .error .error
    else if s.inArg then inlineLoop mem cur left (i + 1) { s with len := s.len + 1 }
    else if s.slices.length = maxArgc then .error .invalidArgc
    else inlineLoop mem cur left (i + 1) { s with offset := i, len := 1, inArg := true }

def parseInlineRequest (mem : Mem) (b : RecvBuf) : Except ParseError CmdArgs :=
  match inlineLoop mem b.start b.size 0 .begin with
  | .error e => .error e
  | .ok (i, s) =>
    let slices := s.closeArg.slices
    .ok ⟨b.start, BitVec.ofNat 64 slices.length, i + 1, slices⟩

/-! ### The ends of the window -/

section

variable (b : RecvBuf)

theorem RecvBuf.start_toNat : b.start.toNat = b.addr.toNat + b.read := by
  have := b.inside
  have := b.addressable
  exact toNat_add_ofNat (by simp only [messageMaxLength] at *; omega)

theorem RecvBuf.stop_toNat : b.stop.toNat = b.start.toNat + b.size := by
  have := b.inside
  have := b.addressable
  have := b.start_toNat
  exact toNat_add_ofNat (by simp only [messageMaxLength] at *; omega)

/-- Behind any address of the window a whole buffer length does not wrap. -/
theorem RecvBuf.stop_room : b.stop.toNat + messageMaxLength + 16 ≤ 2 ^ 64 := by
  have := b.inside
  have := b.addressable
  have := b.start_toNat
  have := b.stop_toNat
  omega

theorem RecvBuf.stop_lt : b.stop.toNat + 2 < 2 ^ 64 := by
  have := b.stop_room
  simp only [messageMaxLength] at this
  omega

end

end GhettoRedis.Protocol
