import Mathlib.Logic.Function.Basic
import GhettoRedis.Lib.Word
import GhettoRedis.Lib.BoundedFifo

/-!
# The bounded MPMC queue

The ring of `mpmcq.c`. Positions and sequence numbers are `size_t`, words of 64
bits that wrap. A pointer put into the queue is a value of `α`; `none` is NULL,
and also what an unwritten cell holds. The two `while(true)` loops take fuel:
`none` means that the call has not returned yet.
-/
namespace GhettoRedis.Mpmcq

open Lib

variable {α : Type}

structure Cell (α : Type) where
  seq : Size
  data : Option α

structure Queue (α : Type) where
  buffer : Nat → Cell α
  bufferMask : Size
  enqueuePos : Size
  dequeuePos : Size

/-- `mpmcq_init`: the loop stores its index in every cell. -/
def mpmcqInit (size : Size) : Queue α where
  buffer i := if i < size.toNat then ⟨BitVec.ofNat 64 i, none⟩ else ⟨0, none⟩
  bufferMask := size - 1
  enqueuePos := 0
  dequeuePos := 0

/-- `pos & queue->buffer_mask` -/
def Queue.index (q : Queue α) (pos : Size) : Nat := (pos &&& q.bufferMask).toNat

/-- The claiming loop of `mpmcq_enqueue`: `some (some pos)` once the CAS on
`enqueue_pos` succeeds, `some none` for `return false`. `spurious` is how many times
`atomic_compare_exchange_weak` fails although the position is current; a failed CAS
stores the current position in `pos`. -/
def enqueueClaim (q : Queue α) : (fuel spurious : Nat) → (pos : Size) → Option (Option Size)
  | 0, _, _ => none
  | fuel + 1, spurious, pos =>
    let diff : Size := (q.buffer (q.index pos)).seq - pos
    if diff = 0 then
      if q.enqueuePos = pos ∧ spurious = 0 then some (some pos)
      else enqueueClaim q fuel (spurious - 1) q.enqueuePos
    else if diff < 0 then some none -- `size_t diff`: an unsigned comparison
    else enqueueClaim q fuel spurious q.enqueuePos

def mpmcqEnqueue (q : Queue α) (fuel spurious : Nat) (data : α) : Option (Bool × Queue α) :=
  match enqueueClaim q fuel spurious q.enqueuePos with
  | none => none
  | some none => some (false, q)
  | some (some pos) =>
    some (true, { q with
      enqueuePos := pos + 1
      buffer := Function.update q.buffer (q.index pos) ⟨pos + 1, some data⟩ })

/-- The claiming loop of `mpmcq_dequeue`; here `diff` is an `ssize_t`. -/
def dequeueClaim (q : Queue α) : (fuel spurious : Nat) → (pos : Size) → Option (Option Size)
  | 0, _, _ => none
  | fuel + 1, spurious, pos =>
    let diff : Size := (q.buffer (q.index pos)).seq - (pos + 1)
    if diff = 0 then
      if q.dequeuePos = pos ∧ spurious = 0 then some (some pos)
      else dequeueClaim q fuel (spurious - 1) q.dequeuePos
    else if diff.slt 0 then some none
    else dequeueClaim q fuel spurious q.dequeuePos

def mpmcqDequeue (q : Queue α) (fuel spurious : Nat) : Option (Option α × Queue α) :=
  match dequeueClaim q fuel spurious q.dequeuePos with
  | none => none
  | some none => some (none, q)
  | some (some pos) =>
    let cell := q.buffer (q.index pos)
    some (cell.data, { q with
      dequeuePos := pos + 1
      buffer := Function.update q.buffer (q.index pos) { cell with seq := pos + q.bufferMask + 1 } })

def mpmcqCount (q : Queue α) : Size := q.enqueuePos - q.dequeuePos

/-- A call of one of the three operations, with the spurious CAS failures it meets. -/
inductive Call (α : Type) where
  | enqueue (data : α) (spurious : Nat)
  | dequeue (spurious : Nat)
  | count

/-- The FIFO operation a call stands for. -/
def Call.op : Call α → FifoOp α
  | .enqueue data _ => .push data
  | .dequeue _ => .pop
  | .count => .size

def call (fuel : Nat) (q : Queue α) : Call α → Option (FifoRet α × Queue α)
  | .enqueue data spurious =>
    (mpmcqEnqueue q fuel spurious data).map fun (ok, q') => (.pushed ok, q')
  | .dequeue spurious => (mpmcqDequeue q fuel spurious).map fun (data, q') => (.popped data, q')
  | .count => some (.size (mpmcqCount q).toNat, q)

/-- Calls one after another; `none` if one of them does not return within the fuel. -/
def calls (fuel : Nat) : Queue α → List (Call α) → Option (List (FifoRet α))
  | _, [] => some []
  | q, c :: cs =>
    match call fuel q c with
    | none => none
    | some (ret, q') => (calls fuel q' cs).map (ret :: ·)

end GhettoRedis.Mpmcq
