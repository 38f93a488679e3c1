import Mathlib.Logic.Function.Basic
import Mathlib.Data.Nat.Notation
import GhettoRedis.Lib.Machine

/-!
# The queue under concurrent threads

`mpmcq_enqueue` and `mpmcq_dequeue` cut at every access to shared memory: each
atomic load, CAS, access to `cell->data` and store to `cell->seq` is one step of
the thread that makes it, over sequentially consistent memory. Positions are
unbounded, so `diff` of the enqueue is zero or not: as a `size_t` it is never
negative.
-/
namespace GhettoRedis.Mpmcq.Concurrent

open Lib

variable {τ α : Type}

/-- Where a thread stands, with the values it holds in its local variables. -/
inductive Pc (α : Type) where
  | idle
  /-- before the load of `enqueue_pos` -/
  | enqueueStart (data : α)
  /-- at the top of the loop, before the load of `cell->seq` -/
  | enqueueTop (data : α) (pos : ℕ)
  /-- before the CAS, the `return false` or the reload that `diff` selects -/
  | enqueueSeq (data : α) (pos seq : ℕ)
  /-- before the store to `cell->data` -/
  | enqueueClaimed (data : α) (pos : ℕ)
  /-- before the store to `cell->seq` -/
  | enqueueStored (data : α) (pos : ℕ)
  | dequeueStart
  | dequeueTop (pos : ℕ)
  | dequeueSeq (pos seq : ℕ)
  /-- before the load of `cell->data` -/
  | dequeueClaimed (pos : ℕ)
  | dequeueRead (pos : ℕ) (data : Option α)

structure Cell (α : Type) where
  seq : ℕ
  data : Option α

structure State (τ α : Type) where
  buffer : ℕ → Cell α
  bufferMask : ℕ
  enqueuePos : ℕ
  dequeuePos : ℕ
  pc : τ → Pc α

/-- What is seen of a run: the calls, the claims of positions, and the accesses to
the data of a cell, each with the thread and the position it is made for. -/
inductive Event (τ α : Type) where
  | called (t : τ) (data : α)
  | claimed (t : τ) (pos : ℕ) (data : α)
  | stored (t : τ) (pos : ℕ) (data : α)
  | published (t : τ) (pos : ℕ)
  | taken (t : τ) (pos : ℕ)
  | read (t : τ) (pos : ℕ) (data : Option α)
  | returned (t : τ) (pos : ℕ) (data : Option α)
  | returnedNull (t : τ)

/-- A thread calls one of the two operations or goes on; a CAS may fail spuriously. -/
inductive Action (α : Type) where
  | enqueue (data : α)
  | dequeue
  | go (spurious : Bool)

namespace State

/-- `&queue->buffer[pos & queue->buffer_mask]` -/
def cell (s : State τ α) (pos : ℕ) : Cell α := s.buffer (pos &&& s.bufferMask)

def setCell (s : State τ α) (pos : ℕ) (c : Cell α) : State τ α :=
  { s with buffer := Function.update s.buffer (pos &&& s.bufferMask) c }

def goto [DecidableEq τ] (s : State τ α) (t : τ) (pc : Pc α) : State τ α :=
  { s with pc := Function.update s.pc t pc }

/-- After `mpmcq_init` with `size` cells, no thread inside an operation. -/
def init (size : ℕ) : State τ α where
  buffer i := ⟨i, none⟩
  bufferMask := size - 1
  enqueuePos := 0
  dequeuePos := 0
  pc _ := .idle

end State

variable [DecidableEq τ]

/-- One step of thread `t`. -/
def step (s : State τ α) (t : τ) : Action α → Option (State τ α × List (Event τ α))
  | .enqueue data =>
    match s.pc t with
    | .idle => some (s.goto t (.enqueueStart data), [.called t data])
    | _ => none
  | .dequeue =>
    match s.pc t with
    | .idle => some (s.goto t .dequeueStart, [])
    | _ => none
  | .go spurious =>
    match s.pc t with
    | .idle => none
    | .enqueueStart data => some (s.goto t (.enqueueTop data s.enqueuePos), [])
    | .enqueueTop data pos => some (s.goto t (.enqueueSeq data pos (s.cell pos).seq), [])
    | .enqueueSeq data pos seq =>
      if seq = pos then
        if s.enqueuePos = pos ∧ spurious = false then
          some ({ s with enqueuePos := pos + 1 }.goto t (.enqueueClaimed data pos),
            [.claimed t pos data])
        else some (s.goto t (.enqueueTop data s.enqueuePos), [])
      else some (s.goto t (.enqueueTop data s.enqueuePos), [])
    | .enqueueClaimed data pos =>
      some ((s.setCell pos { s.cell pos with data := some data }).goto t (.enqueueStored data pos),
        [.stored t pos data])
    | .enqueueStored _ pos =>
      some ((s.setCell pos { s.cell pos with seq := pos + 1 }).goto t .idle, [.published t pos])
    | .dequeueStart => some (s.goto t (.dequeueTop s.dequeuePos), [])
    | .dequeueTop pos => some (s.goto t (.dequeueSeq pos (s.cell pos).seq), [])
    | .dequeueSeq pos seq =>
      let diff : Int := seq - (pos + 1)
      if diff = 0 then
        if s.dequeuePos = pos ∧ spurious = false then
          some ({ s with dequeuePos := pos + 1 }.goto t (.dequeueClaimed pos), [.taken t pos])
        else some (s.goto t (.dequeueTop s.dequeuePos), [])
      else if diff < 0 then some (s.goto t .idle, [.returnedNull t])
      else some (s.goto t (.dequeueTop s.dequeuePos), [])
    | .dequeueClaimed pos =>
      some (s.goto t (.dequeueRead pos (s.cell pos).data), [.read t pos (s.cell pos).data])
    | .dequeueRead pos data =>
      some ((s.setCell pos { s.cell pos with seq := pos + s.bufferMask + 1 }).goto t .idle,
        [.returned t pos data])

/-- Every interleaving: in each step some thread acts. -/
def threads : Machine (State τ α) (τ × Action α) (Event τ α) where
  step s a := step s a.1 a.2

/-- What one step of thread `t` can do. -/
inductive Move (s : State τ α) (t : τ) : State τ α → List (Event τ α) → Prop
  | callEnqueue (data : α) : s.pc t = .idle →
      Move s t (s.goto t (.enqueueStart data)) [.called t data]
  | callDequeue : s.pc t = .idle → Move s t (s.goto t .dequeueStart) []
  | loadEnqueuePos (data : α) :
      (s.pc t = .enqueueStart data ∨ ∃ pos seq, s.pc t = .enqueueSeq data pos seq) →
      Move s t (s.goto t (.enqueueTop data s.enqueuePos)) []
  | loadEnqueueSeq (data : α) (pos : ℕ) : s.pc t = .enqueueTop data pos →
      Move s t (s.goto t (.enqueueSeq data pos (s.cell pos).seq)) []
  | claim (data : α) : s.pc t = .enqueueSeq data s.enqueuePos s.enqueuePos →
      Move s t ({ s with enqueuePos := s.enqueuePos + 1 }.goto t (.enqueueClaimed data s.enqueuePos))
        [.claimed t s.enqueuePos data]
  | store (data : α) (pos : ℕ) : s.pc t = .enqueueClaimed data pos →
      Move s t
        ((s.setCell pos { s.cell pos with data := some data }).goto t (.enqueueStored data pos))
        [.stored t pos data]
  | publish (data : α) (pos : ℕ) : s.pc t = .enqueueStored data pos →
      Move s t ((s.setCell pos { s.cell pos with seq := pos + 1 }).goto t .idle) [.published t pos]
  | loadDequeuePos : (s.pc t = .dequeueStart ∨ ∃ pos seq, s.pc t = .dequeueSeq pos seq) →
      Move s t (s.goto t (.dequeueTop s.dequeuePos)) []
  | loadDequeueSeq (pos : ℕ) : s.pc t = .dequeueTop pos →
      Move s t (s.goto t (.dequeueSeq pos (s.cell pos).seq)) []
  | refuse (pos seq : ℕ) : s.pc t = .dequeueSeq pos seq →
      Move s t (s.goto t .idle) [.returnedNull t]
  | take : s.pc t = .dequeueSeq s.dequeuePos (s.dequeuePos + 1) →
      Move s t ({ s with dequeuePos := s.dequeuePos + 1 }.goto t (.dequeueClaimed s.dequeuePos))
        [.taken t s.dequeuePos]
  | read (pos : ℕ) : s.pc t = .dequeueClaimed pos →
      Move s t (s.goto t (.dequeueRead pos (s.cell pos).data)) [.read t pos (s.cell pos).data]
  | release (pos : ℕ) (data : Option α) : s.pc t = .dequeueRead pos data →
      Move s t ((s.setCell pos { s.cell pos with seq := pos + s.bufferMask + 1 }).goto t .idle)
        [.returned t pos data]

theorem move_of_step {s s' : State τ α} {t : τ} {a : Action α} {seen : List (Event τ α)}
    (taken : step s t a = some (s', seen)) : Move s t s' seen := by
  cases a with
  | enqueue data =>
    cases at_pc : s.pc t <;> simp only [step, at_pc, reduceCtorEq, Option.some.injEq,
      Prod.mk.injEq] at taken
    obtain ⟨rfl, rfl⟩ := taken
    exact .callEnqueue data at_pc
  | dequeue =>
    cases at_pc : s.pc t <;> simp only [step, at_pc, reduceCtorEq, Option.some.injEq,
      Prod.mk.injEq] at taken
    obtain ⟨rfl, rfl⟩ := taken
    exact .callDequeue at_pc
  | go spurious =>
    cases at_pc : s.pc t with
    | idle => simp [step, at_pc] at taken
    | enqueueSeq data pos seq =>
      simp only [step, at_pc] at taken
      split at taken
      next same =>
        split at taken
        -- the compare-and-swap succeeds
        next won =>
          cases taken
          obtain ⟨rfl, _⟩ := won
          subst same
          exact .claim data at_pc
        next => cases taken; exact .loadEnqueuePos data (.inr ⟨pos, seq, at_pc⟩)
      next => cases taken; exact .loadEnqueuePos data (.inr ⟨pos, seq, at_pc⟩)
    | dequeueSeq pos seq =>
      simp only [step, at_pc] at taken
      split at taken
      next ready =>
        split at taken
        -- it succeeds here, too
        next won =>
          cases taken
          obtain ⟨rfl, _⟩ := won
          obtain rfl : seq = s.dequeuePos + 1 := by omega
          exact .take at_pc
        next => cases taken; exact .loadDequeuePos (.inr ⟨pos, seq, at_pc⟩)
      next =>
        -- the cell is behind: empty; ahead: somebody was faster
        split at taken
        next => cases taken; exact .refuse pos seq at_pc
        next => cases taken; exact .loadDequeuePos (.inr ⟨pos, seq, at_pc⟩)
    | enqueueStart data =>
      simp only [step, at_pc, Option.some.injEq, Prod.mk.injEq] at taken
      obtain ⟨rfl, rfl⟩ := taken
      exact .loadEnqueuePos data (.inl at_pc)
    | enqueueTop data pos =>
      simp only [step, at_pc, Option.some.injEq, Prod.mk.injEq] at taken
      obtain ⟨rfl, rfl⟩ := taken
      exact .loadEnqueueSeq data pos at_pc
    | enqueueClaimed data pos =>
      simp only [step, at_pc, Option.some.injEq, Prod.mk.injEq] at taken
      obtain ⟨rfl, rfl⟩ := taken
      exact .store data pos at_pc
    | enqueueStored data pos =>
      simp only [step, at_pc, Option.some.injEq, Prod.mk.injEq] at taken
      obtain ⟨rfl, rfl⟩ := taken
      exact .publish data pos at_pc
    | dequeueStart =>
      simp only [step, at_pc, Option.some.injEq, Prod.mk.injEq] at taken
      obtain ⟨rfl, rfl⟩ := taken
      exact .loadDequeuePos (.inl at_pc)
    | dequeueTop pos =>
      simp only [step, at_pc, Option.some.injEq, Prod.mk.injEq] at taken
      obtain ⟨rfl, rfl⟩ := taken
      exact .loadDequeueSeq pos at_pc
    | dequeueClaimed pos =>
      simp only [step, at_pc, Option.some.injEq, Prod.mk.injEq] at taken
      obtain ⟨rfl, rfl⟩ := taken
      exact .read pos at_pc
    | dequeueRead pos data =>
      simp only [step, at_pc, Option.some.injEq, Prod.mk.injEq] at taken
      obtain ⟨rfl, rfl⟩ := taken
      exact .release pos data at_pc

end GhettoRedis.Mpmcq.Concurrent
