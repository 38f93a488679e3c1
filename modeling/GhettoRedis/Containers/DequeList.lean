import GhettoRedis.Containers.Deque
import GhettoRedis.Lib.Machine

/-!
# The deque as a list

Every operation does to the nodes of the deque what its counterpart does to a list, in any
sequence of operations.
-/
namespace GhettoRedis.Containers

open Lib

variable {A O : Type} [DecidableEq A]

/-! ### Operations on both -/

/-- A call; a push comes with what `malloc` gives it. -/
inductive DequeOp (A O : Type) where
  | pushFront (data : Option O) (node : A) (junk : Node A (Option O))
  | pushBack (data : Option O) (node : A) (junk : Node A (Option O))
  | popFront
  | popBack
  | detach (node : A)
  | moveToBack (node : A)
  | moveToFront (node : A)

/-- The call of the code, with the pointer that it returns. -/
def DequeOp.run (deque : Deque A O) : DequeOp A O → Option (Deque A O × Option O)
  | pushFront data node junk => (dequePushFront deque data node junk).map (·, none)
  | pushBack data node junk => (dequePushBack deque data node junk).map (·, none)
  | popFront => dequePopFront deque
  | popBack => dequePopBack deque
  | detach node => (dequeDetach deque (some node)).map (·, none)
  | moveToBack node => (dequeMoveToBack deque (some node)).map (·, none)
  | moveToFront node => (dequeMoveToFront deque (some node)).map (·, none)

def without (node : A) (l : List (A × Option O)) : List (A × Option O) := l.filter fun e => e.1 ≠ node

def only (node : A) (l : List (A × Option O)) : List (A × Option O) := l.filter fun e => e.1 = node

/-- The same on a list. -/
def DequeOp.onList (l : List (A × Option O)) : DequeOp A O → List (A × Option O) × Option O
  | pushFront data node _ => ((node, data) :: l, none)
  | pushBack data node _ => (l ++ [(node, data)], none)
  | popFront => (l.tail, l.head?.bind Prod.snd)
  | popBack => (l.dropLast, l.getLast?.bind Prod.snd)
  | detach node => (without node l, none)
  | moveToBack node => (without node l ++ only node l, none)
  | moveToFront node => (only node l ++ without node l, none)

/-- A deque, and the list to which the same was done. -/
structure Tracked (A O : Type) where
  deque : Deque A O
  list : List (A × Option O)

/-- `malloc` finds memory that is free; a node that is passed in is in the deque. -/
def Tracked.Allows (t : Tracked A O) : DequeOp A O → Prop
  | .pushFront _ node _ | .pushBack _ node _ => t.deque.heap node = none
  | .popFront | .popBack => True
  | .detach node | .moveToBack node | .moveToFront node => node ∈ t.list.map Prod.fst

/-- The values that the call and its counterpart return are observed. -/
def trackedStep (t : Tracked A O) (op : DequeOp A O) : Option (Tracked A O × List (Option O × Option O)) :=
  (op.run t.deque).map fun (deque, returned) =>
    (⟨deque, (op.onList t.list).1⟩, [(returned, (op.onList t.list).2)])

def dequeMachine (A O : Type) [DecidableEq A] :
    Machine (Tracked A O) (DequeOp A O) (Option O × Option O) := ⟨trackedStep⟩

def Tracked.init (heap : NodeHeap A (Option O)) : Tracked A O := ⟨dequeInit heap, []⟩

/-! ### Each operation -/

/-- A node occurs once. -/
theorem filter_split {node : A} {d : Option O} {front back : List (A × Option O)}
    (distinct : ((front ++ (node, d) :: back).map Prod.fst).Nodup) :
    without node (front ++ (node, d) :: back) = front ++ back ∧
      only node (front ++ (node, d) :: back) = [(node, d)] := by
  rw [List.map_append, List.map_cons, List.nodup_append, List.nodup_cons] at distinct
  obtain ⟨-, ⟨notBack, -⟩, apart⟩ := distinct
  -- its address occurs once, so the filters cut exactly there
  have inFront : ∀ e ∈ front, e.1 ≠ node := fun e mem =>
    apart e.1 (List.mem_map_of_mem mem) node List.mem_cons_self
  have inBack : ∀ e ∈ back, e.1 ≠ node := fun e mem same =>
    notBack (List.mem_map.mpr ⟨e, mem, same⟩)
  constructor
  · rw [without, List.filter_append, List.filter_cons_of_neg (by simp),
      List.filter_eq_self.mpr (by simpa using inFront), List.filter_eq_self.mpr (by simpa using inBack)]
  · rw [only, List.filter_append, List.filter_cons_of_pos (by simp),
      List.filter_eq_nil_iff.mpr (by simpa using inFront),
      List.filter_eq_nil_iff.mpr (by simpa using inBack)]
    rfl

variable {deque : Deque A O} {l front back : List (A × Option O)} {node : A} {d : Option O}

theorem moveToBack_holds (holds : Holds deque (front ++ (node, d) :: back)) :
    ∃ deque', dequeMoveToBack deque (some node) = some deque' ∧
      Holds deque' (front ++ back ++ [(node, d)]) := by
  have notEmpty := not_isEmpty holds (by simp)
  rw [dequeMoveToBack, if_neg notEmpty]
  by_cases atTail : deque.tail = some node
  · rw [if_pos atTail]
    -- the tail is the last entry, so there is nothing behind the node
    have nothing : back = [] := by
      rcases List.eq_nil_or_concat' back with nil | ⟨back, q, rfl⟩
      · exact nil
      · rw [holds.tail, show front ++ (node, d) :: (back ++ [q]) = front ++ (node, d) :: back ++ [q] by simp,
          lastAddr_concat] at atTail
        exact absurd (List.mem_map.mpr ⟨q, by simp, Option.some.inj atTail⟩) (not_mem_detached holds)
    subst nothing
    exact ⟨deque, rfl, by simpa using holds⟩
  · rw [if_neg atTail]
    obtain ⟨deque', n, detached, holds', found, data⟩ := detach_holds holds
    obtain ⟨deque'', pushed, after⟩ := pushBackNode_holds holds' found (not_mem_detached holds)
    refine ⟨deque'', by simp [detached, pushed], ?_⟩
    rwa [data] at after

theorem moveToFront_holds (holds : Holds deque (front ++ (node, d) :: back)) :
    ∃ deque', dequeMoveToFront deque (some node) = some deque' ∧
      Holds deque' ((node, d) :: (front ++ back)) := by
  have notEmpty := not_isEmpty holds (by simp)
  rw [dequeMoveToFront, if_neg notEmpty]
  -- a node that is the head already stays where it is
  by_cases atHead : deque.head = some node
  · rw [if_pos atHead]
    have nothing : front = [] := by
      cases front with
      | nil => rfl
      | cons q front =>
        rw [holds.head, List.cons_append, firstAddr_cons] at atHead
        exact absurd (List.mem_map.mpr ⟨q, by simp, Option.some.inj atHead⟩) (not_mem_detached holds)
    subst nothing
    exact ⟨deque, rfl, holds⟩
  · rw [if_neg atHead]
    obtain ⟨deque', n, detached, holds', found, data⟩ := detach_holds holds
    obtain ⟨deque'', pushed, after⟩ := pushFrontNode_holds holds' found (not_mem_detached holds)
    refine ⟨deque'', by simp [detached, pushed], ?_⟩
    rwa [data] at after

/-- The call succeeds, leaves what the list operation leaves, and returns what it returns. -/
theorem run_holds (holds : Holds deque l) (op : DequeOp A O)
    (allowed : (Tracked.mk deque l).Allows op) :
    ∃ deque', op.run deque = some (deque', (op.onList l).2) ∧ Holds deque' (op.onList l).1 := by
  cases op with
  | pushFront data node junk =>
    obtain ⟨deque', pushed, after⟩ := pushFront_holds holds allowed data junk
    exact ⟨deque', by simp [DequeOp.run, DequeOp.onList, pushed], after⟩
  | pushBack data node junk =>
    obtain ⟨deque', pushed, after⟩ := pushBack_holds holds allowed data junk
    exact ⟨deque', by simp [DequeOp.run, DequeOp.onList, pushed], after⟩
  | popFront =>
    cases l with
    | nil => exact ⟨deque, popFront_nil holds, holds⟩
    | cons e l => exact popFront_holds holds
  | popBack =>
    rcases List.eq_nil_or_concat' l with rfl | ⟨l, e, rfl⟩
    · exact ⟨deque, popBack_nil holds, holds⟩
    · obtain ⟨deque', popped, after⟩ := popBack_holds holds
      exact ⟨deque', by simpa [DequeOp.run, DequeOp.onList] using popped,
        by simpa [DequeOp.onList] using after⟩
  | detach node =>
    obtain ⟨front, d, back, rfl⟩ := mem_split allowed
    obtain ⟨rest, -⟩ := filter_split holds.distinct
    obtain ⟨deque', n, detached, after, -⟩ := detach_holds holds
    refine ⟨deque', by simp [DequeOp.run, DequeOp.onList, detached], ?_⟩
    rwa [DequeOp.onList, rest]
  | moveToBack node =>
    obtain ⟨front, d, back, rfl⟩ := mem_split allowed
    obtain ⟨rest, own⟩ := filter_split holds.distinct
    obtain ⟨deque', moved, after⟩ := moveToBack_holds holds
    refine ⟨deque', by simp [DequeOp.run, DequeOp.onList, moved], ?_⟩
    rwa [DequeOp.onList, rest, own]
  | moveToFront node =>
    obtain ⟨front, d, back, rfl⟩ := mem_split allowed
    obtain ⟨rest, own⟩ := filter_split holds.distinct
    obtain ⟨deque', moved, after⟩ := moveToFront_holds holds
    refine ⟨deque', by simp [DequeOp.run, DequeOp.onList, moved], ?_⟩
    rwa [DequeOp.onList, rest, own]

/-- One turn of the loop for each entry. -/
theorem destroy_holds (holds : Holds deque l) :
    ∃ deque', dequeDestroy l.length deque = some deque' ∧ Holds deque' [] := by
  induction l generalizing deque with
  | nil => exact ⟨deque, if_pos ((isEmpty_eq holds).mpr rfl), holds⟩
  | cons e l ih =>
    obtain ⟨deque', popped, after⟩ := popFront_holds holds
    obtain ⟨deque'', destroyed, empty⟩ := ih after
    refine ⟨deque'', ?_, empty⟩
    rw [List.length_cons, dequeDestroy, if_neg (not_isEmpty holds (by simp)), popped]
    exact destroyed

/-! ### Sequences -/

/-- From `deque_init` on the deque is the list, and returns what the list returns; no call that is
allowed fails, and `deque_destroy` empties the deque. -/
theorem deque_is_list {heap : NodeHeap A (Option O)} {t : Tracked A O}
    {trace : List (Option O × Option O)}
    (run : (dequeMachine A O).Run Tracked.Allows (Tracked.init heap) t trace) :
    WellFormed t.deque t.list ∧ (∀ r ∈ trace, r.1 = r.2) ∧
      (∀ op, t.Allows op → ∃ deque returned, op.run t.deque = some (deque, returned)) ∧
      ∃ fuel deque, dequeDestroy fuel t.deque = some deque ∧ WellFormed deque [] := by
  have start : Holds (Tracked.init heap).deque [] := ⟨trivial, rfl, rfl, List.nodup_nil⟩
  -- the list is followed through the run, operation by operation
  have inv : Holds t.deque t.list ∧ ∀ r ∈ trace, r.1 = r.2 := by
    refine run.invariant (fun t trace => Holds t.deque t.list ∧ ∀ r ∈ trace, r.1 = r.2)
      ⟨start, by simp⟩ ?_
    rintro t trace op t' seen - ⟨holds, same⟩ allowed taken
    obtain ⟨deque', ran, after⟩ := run_holds holds op allowed
    simp only [dequeMachine, trackedStep, ran, Option.map_some, Option.some.injEq] at taken
    cases taken
    refine ⟨after, fun r mem => ?_⟩
    rcases List.mem_append.mp mem with old | new
    · exact same r old
    · obtain rfl := List.mem_singleton.mp new
      rfl
  obtain ⟨holds, same⟩ := inv
  obtain ⟨deque', destroyed, empty⟩ := destroy_holds holds
  refine ⟨holds.wellFormed, same, fun op allowed => ?_, t.list.length, deque', destroyed, empty.wellFormed⟩
  obtain ⟨deque', ran, -⟩ := run_holds holds op allowed
  exact ⟨deque', _, ran⟩

/-- Two pushes and a move to the back. -/
theorem deque_is_list_moved : ∃ t : Tracked ℕ ℕ,
    t.list = [(1, some 5), (2, some 7)] ∧ WellFormed t.deque t.list := by
  have start : (dequeMachine ℕ ℕ).Run Tracked.Allows (Tracked.init fun _ => none)
      (Tracked.init fun _ => none) [] := .refl
  have one := start.step (a := DequeOp.pushFront (some 5) 1 ⟨none, none, none⟩) rfl rfl
  have two := one.step (a := DequeOp.pushFront (some 7) 2 ⟨none, some 9, none⟩) rfl rfl
  have moved := two.step (a := DequeOp.moveToBack 2) List.mem_cons_self rfl
  exact ⟨_, rfl, (deque_is_list moved).1⟩

end GhettoRedis.Containers
