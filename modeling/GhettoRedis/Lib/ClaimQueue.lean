import Mathlib.Logic.Function.Basic
import GhettoRedis.Lib.Simulation

/-!
# Queues whose elements are claimed first and published later

What a bounded queue between threads is for, when an element gets its place before its value
can be seen. A dequeue takes the front as soon as it is published. It misses otherwise, also
when there are published elements behind the front, so that this is not a plain first-in
first-out queue.
-/
namespace GhettoRedis.Lib

variable {τ α : Type}

/-- An element; `writer` is the thread that has not published it yet. -/
structure Claim (τ α : Type) where
  value : α
  writer : Option τ

/-- The elements, oldest first, and what the dequeue of a thread will return, once settled. -/
structure ClaimQueue (τ α : Type) where
  claims : List (Claim τ α)
  result : τ → Option (Option α)

inductive QueueEvent (τ α : Type) where
  | claimed (t : τ) (v : α)
  | published (t : τ)
  | taken (t : τ)
  | missed (t : τ)
  | returned (t : τ) (d : Option α)
  deriving DecidableEq

namespace ClaimQueue

def empty : ClaimQueue τ α := ⟨[], fun _ => none⟩

/-- The front is there for the next dequeue. -/
def Ready (q : ClaimQueue τ α) : Prop := ∃ c rest, q.claims = c :: rest ∧ c.writer = none

end ClaimQueue

variable [DecidableEq τ]

/-- The element is published if it is thread `t` that has to. -/
def Claim.publish (t : τ) (c : Claim τ α) : Claim τ α :=
  if c.writer = some t then { c with writer := none } else c

namespace ClaimQueue

def settle (q : ClaimQueue τ α) (t : τ) (r : Option (Option α)) : ClaimQueue τ α :=
  { q with result := Function.update q.result t r }

/-- One event of a queue with room for `cap` elements. A thread has one element at a time that
it has not published, and is in one dequeue at a time. -/
inductive Performs (cap : ℕ) (q : ClaimQueue τ α) : QueueEvent τ α → ClaimQueue τ α → Prop
  | claimed (t : τ) (v : α) : q.claims.length < cap → (∀ c ∈ q.claims, c.writer ≠ some t) →
      Performs cap q (.claimed t v) { q with claims := q.claims ++ [⟨v, some t⟩] }
  | published (t : τ) : (∃ c ∈ q.claims, c.writer = some t) →
      Performs cap q (.published t) { q with claims := q.claims.map (Claim.publish t) }
  | taken (t : τ) {v : α} {rest : List (Claim τ α)} : q.claims = ⟨v, none⟩ :: rest →
      q.result t = none →
      Performs cap q (.taken t) (settle { q with claims := rest } t (some (some v)))
  | missed (t : τ) : ¬ q.Ready → q.result t = none →
      Performs cap q (.missed t) (q.settle t (some none))
  | returned (t : τ) {d : Option α} : q.result t = some d →
      Performs cap q (.returned t d) (q.settle t none)

end ClaimQueue

theorem Claim.publish_of_ne {t : τ} {c : Claim τ α} (other : c.writer ≠ some t) :
    c.publish t = c := if_neg other

theorem Claim.publish_of_eq {t : τ} {c : Claim τ α} (own : c.writer = some t) :
    c.publish t = ⟨c.value, none⟩ := if_pos own

theorem ClaimQueue.settle_eq_self {q : ClaimQueue τ α} {t : τ} {r : Option (Option α)}
    (is : q.result t = r) : q.settle t r = q := by
  rw [settle, ← is, Function.update_eq_self]

@[simp] theorem ClaimQueue.settle_settle (q : ClaimQueue τ α) (t : τ) (r r' : Option (Option α)) :
    (q.settle t r).settle t r' = q.settle t r' := by
  rw [settle, settle, Function.update_idem]
  rfl

@[simp] theorem ClaimQueue.settle_result (q : ClaimQueue τ α) (t : τ) (r : Option (Option α)) :
    (q.settle t r).result t = r := Function.update_self ..

theorem ClaimQueue.length_le {cap : ℕ} {trace : List (QueueEvent τ α)} {q : ClaimQueue τ α}
    (follows : Follows (Performs cap) empty trace q) : q.claims.length ≤ cap := by
  refine follows.invariant (fun q => q.claims.length ≤ cap) (Nat.zero_le _) ?_
  intro q e q' within performs
  cases performs with
  | claimed t v room => simpa using Nat.succ_le_of_lt room
  | published => simpa using within
  | taken t claims =>
    rw [claims, List.length_cons] at within
    exact Nat.le_of_succ_le within
  | missed | returned => exact within

/-! ### One consumer -/

namespace QueueEvent

def claimedValue : QueueEvent τ α → Option α
  | claimed _ v => some v
  | _ => none

def returnedValue : QueueEvent τ α → Option α
  | returned _ d => d
  | _ => none

/-- The thread whose dequeue the event belongs to. -/
def consumer : QueueEvent τ α → Option τ
  | taken t | missed t | returned t _ => some t
  | _ => none

end QueueEvent

@[simp] theorem Claim.value_publish (t : τ) (c : Claim τ α) : (c.publish t).value = c.value := by
  unfold Claim.publish
  split <;> rfl

namespace ClaimQueue

/-- What a thread has taken and not returned yet. -/
def inHand (q : ClaimQueue τ α) (t : τ) : List α := (q.result t).join.toList

/-- With one consumer the values come out in the order in which they were claimed. -/
theorem in_order {cap : ℕ} {r : τ} {trace : List (QueueEvent τ α)} {q : ClaimQueue τ α}
    (follows : Follows (Performs cap) empty trace q)
    (single : ∀ e ∈ trace, ∀ t ∈ e.consumer, t = r) :
    trace.filterMap QueueEvent.claimedValue =
      trace.filterMap QueueEvent.returnedValue ++ q.inHand r ++ q.claims.map Claim.value := by
  -- on the events: claimed values are returned, in the hand of the consumer, or still queued
  induction follows with
  | nil => rfl
  | @snoc trace e q q' _ performs ih =>
    have before := ih fun e' mem => single e' (List.mem_append_left _ mem)
    have own := single e (List.mem_append_right _ (List.mem_singleton_self e))
    simp only [List.filterMap_append, before]
    cases performs with
    | claimed t v =>
      simp [List.filterMap_cons, QueueEvent.claimedValue, QueueEvent.returnedValue, inHand]
    | published t =>
      have same : Claim.value ∘ Claim.publish t = (Claim.value : Claim τ α → α) :=
        funext (Claim.value_publish t)
      simp [List.filterMap_cons, QueueEvent.claimedValue, QueueEvent.returnedValue, inHand, same]
    | taken t claims settled =>
      obtain rfl := own t rfl
      simp [List.filterMap_cons, QueueEvent.claimedValue, QueueEvent.returnedValue, inHand, settle,
        claims, settled]
    | missed t notReady settled =>
      obtain rfl := own t rfl
      simp [List.filterMap_cons, QueueEvent.claimedValue, QueueEvent.returnedValue, inHand, settle,
        settled]
    | @returned t d settled =>
      obtain rfl := own t rfl
      -- what the consumer had in its hand, if anything, is returned
      cases d <;> simp [List.filterMap_cons, QueueEvent.claimedValue, QueueEvent.returnedValue,
        inHand, settle, settled]

end ClaimQueue

end GhettoRedis.Lib
