import Mathlib.Data.List.Basic

/-!
# The bounded first-in first-out queue

What a queue of capacity `cap` is for: a list that grows at the back while it
holds fewer than `cap` elements and shrinks at the front.
-/
namespace GhettoRedis.Lib

variable {α : Type}

inductive FifoOp (α : Type) where
  | push (v : α)
  | pop
  | size
  deriving DecidableEq, Repr

inductive FifoRet (α : Type) where
  | pushed (accepted : Bool)
  | popped (v : Option α)
  | size (held : Nat)
  deriving DecidableEq, Repr

/-- One operation on the elements held, oldest first. -/
def fifoStep (cap : Nat) (held : List α) : FifoOp α → FifoRet α × List α
  | .push v => if held.length < cap then (.pushed true, held ++ [v]) else (.pushed false, held)
  | .pop =>
    match held with
    | [] => (.popped none, [])
    | v :: rest => (.popped (some v), rest)
  | .size => (.size held.length, held)

/-- The results of a sequence of operations. -/
def fifoRets (cap : Nat) : List α → List (FifoOp α) → List (FifoRet α)
  | _, [] => []
  | held, op :: ops => (fifoStep cap held op).1 :: fifoRets cap (fifoStep cap held op).2 ops

/-- Counting pushes and pops alone: no push comes while `cap` elements are held. -/
def NeverFull (cap : Nat) : Nat → List (FifoOp α) → Prop
  | _, [] => True
  | held, .push _ :: ops => held < cap ∧ NeverFull cap (held + 1) ops
  | held, .pop :: ops => NeverFull cap (held - 1) ops
  | held, .size :: ops => NeverFull cap held ops

instance decidableNeverFull (cap : Nat) :
    (held : Nat) → (ops : List (FifoOp α)) → Decidable (NeverFull cap held ops)
  | _, [] => inferInstanceAs (Decidable True)
  | held, .push _ :: ops =>
    have := decidableNeverFull cap (held + 1) ops
    inferInstanceAs (Decidable (held < cap ∧ NeverFull cap (held + 1) ops))
  | held, .pop :: ops => decidableNeverFull cap (held - 1) ops
  | held, .size :: ops => decidableNeverFull cap held ops

end GhettoRedis.Lib
