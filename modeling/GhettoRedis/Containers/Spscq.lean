import Mathlib.Logic.Function.Basic
import GhettoRedis.Lib.Machine
import GhettoRedis.Lib.Ring

/-!
# The queue of one producer and one consumer

`spsc.c` cut at every access to shared memory: each atomic load, access to the buffer and atomic
store is one step, over sequentially consistent memory.
-/
namespace GhettoRedis.Containers

open Lib

/-- Where the producer stands in `spscq_enqueue`, with the values of its local variables: before
the load of `tail`, that of `head`, the access to the buffer and the store to `tail`. -/
inductive ProducerPc (O : Type) where
  | idle
  | loadTail (obj : Option O)
  | loadHead (obj : Option O) (tail : ℕ)
  | write (obj : Option O) (tail : ℕ)
  | storeTail (obj : Option O) (tail : ℕ)

/-- Where the consumer stands in `spscq_dequeue`: before the load of `head`, that of `tail`, the
access to the buffer and the store to `head`; or before the two loads of `spscq_is_empty`. -/
inductive ConsumerPc (O : Type) where
  | idle
  | loadHead
  | loadTail (head : ℕ)
  | read (head : ℕ)
  | storeHead (head : ℕ) (obj : Option O)
  | isEmpty
  | isEmptyTail (head : ℕ)

/-- `struct spscq` with `void *` objects, and both sides; an index stays below `size`, so that
`tail + 1` does not wrap. -/
structure Spscq (O : Type) where
  head : ℕ
  tail : ℕ
  size : ℕ
  buffer : ℕ → Option O
  producer : ProducerPc O
  consumer : ConsumerPc O

/-- What a call does at the step that settles it: an object put in, a full ring, an object taken
out, an empty ring, and the result of `spscq_is_empty`. -/
inductive SpscqEvent (O : Type) where
  | enqueued (obj : Option O)
  | full
  | dequeued (obj : Option O)
  | empty
  | isEmpty (result : Bool)

/-- A side makes a call, or goes on. -/
inductive SpscqAction (O : Type) where
  | enqueue (obj : Option O)
  | dequeue
  | isEmpty
  | produce
  | consume

variable {O : Type}

/-- `spscq_create` -/
def spscqCreate (size : ℕ) : Spscq O :=
  { head := 0, tail := 0, size := size, buffer := fun _ => none, producer := .idle, consumer := .idle }

namespace Spscq

/-- The index behind `i`. -/
def next (q : Spscq O) (i : ℕ) : ℕ := if i + 1 = q.size then 0 else i + 1

/-- One step of `spscq_enqueue`. -/
def produce (q : Spscq O) : Option (Spscq O × List (SpscqEvent O)) :=
  match q.producer with
  | .idle => none
  | .loadTail obj => some ({ q with producer := .loadHead obj q.tail }, [])
  | .loadHead obj tail =>
    if q.next tail = q.head then some ({ q with producer := .idle }, [.full])
    else some ({ q with producer := .write obj tail }, [])
  | .write obj tail =>
    some ({ q with buffer := Function.update q.buffer tail obj, producer := .storeTail obj tail }, [])
  | .storeTail obj tail => some ({ q with tail := q.next tail, producer := .idle }, [.enqueued obj])

/-- One step of `spscq_dequeue` or of `spscq_is_empty`. -/
def consume (q : Spscq O) : Option (Spscq O × List (SpscqEvent O)) :=
  match q.consumer with
  | .idle => none
  | .loadHead => some ({ q with consumer := .loadTail q.head }, [])
  | .loadTail head =>
    if head = q.tail then some ({ q with consumer := .idle }, [.empty])
    else some ({ q with consumer := .read head }, [])
  | .read head => some ({ q with consumer := .storeHead head (q.buffer head) }, [])
  | .storeHead head obj =>
    some ({ q with head := q.next head, consumer := .idle }, [.dequeued obj])
  | .isEmpty => some ({ q with consumer := .isEmptyTail q.head }, [])
  | .isEmptyTail head => some ({ q with consumer := .idle }, [.isEmpty (head = q.tail)])

def step (q : Spscq O) : SpscqAction O → Option (Spscq O × List (SpscqEvent O))
  | .enqueue obj =>
    match q.producer with
    | .idle => some ({ q with producer := .loadTail obj }, [])
    | _ => none
  | .dequeue =>
    match q.consumer with
    | .idle => some ({ q with consumer := .loadHead }, [])
    | _ => none
  | .isEmpty =>
    match q.consumer with
    | .idle => some ({ q with consumer := .isEmpty }, [])
    | _ => none
  | .produce => q.produce
  | .consume => q.consume

end Spscq

/-- Every interleaving of one producer and one consumer. -/
def spscq : Machine (Spscq O) (SpscqAction O) (SpscqEvent O) := ⟨Spscq.step⟩

/-! ### Histories -/

def SpscqEvent.enqueuedObj : SpscqEvent O → Option (Option O)
  | enqueued obj => some obj
  | _ => none

def SpscqEvent.dequeuedObj : SpscqEvent O → Option (Option O)
  | dequeued obj => some obj
  | _ => none

/-- The objects put in, and those taken out. -/
def enqueuedObjs (trace : List (SpscqEvent O)) : List (Option O) := trace.filterMap SpscqEvent.enqueuedObj
def dequeuedObjs (trace : List (SpscqEvent O)) : List (Option O) := trace.filterMap SpscqEvent.dequeuedObj

/-- How many objects are held. -/
def held (trace : List (SpscqEvent O)) : ℕ := (enqueuedObjs trace).length - (dequeuedObjs trace).length

/-- The ring is full or empty when a call finds it so. -/
def SpscqEvent.Right (size : ℕ) (before : List (SpscqEvent O)) : SpscqEvent O → Prop
  | full => held before = size - 1
  | empty => held before = 0
  | isEmpty result => result = true ↔ held before = 0
  | _ => True

def AllRight (size : ℕ) (trace : List (SpscqEvent O)) : Prop :=
  ∀ before e after, trace = before ++ e :: after → e.Right size before

theorem allRight_concat {size : ℕ} {trace : List (SpscqEvent O)} {e : SpscqEvent O}
    (all : AllRight size trace) (new : e.Right size trace) : AllRight size (trace ++ [e]) := by
  intro before e' after split
  rcases List.eq_nil_or_concat' after with rfl | ⟨after, d, rfl⟩
  · obtain ⟨rfl, same⟩ := List.append_inj' split rfl
    cases same
    exact new
  · rw [← List.cons_append, ← List.append_assoc] at split
    exact all before e' after (List.append_inj' split rfl).1

/-! ### The invariant -/

/-- What the producer knows after `p` objects were put in and `c` taken out. -/
def ProducerPc.Knows (size p c : ℕ) (buffer : ℕ → Option O) : ProducerPc O → Prop
  | idle | loadTail _ => True
  | loadHead _ tail => tail = p % size
  | write _ tail => tail = p % size ∧ p + 1 < c + size
  | storeTail obj tail => tail = p % size ∧ p + 1 < c + size ∧ buffer tail = obj

/-- What the consumer knows after `c` of the objects `objs` were taken out. -/
def ConsumerPc.Knows (size c : ℕ) (objs : List (Option O)) : ConsumerPc O → Prop
  | idle | loadHead | isEmpty => True
  | loadTail head | isEmptyTail head => head = c % size
  | read head => head = c % size ∧ c < objs.length
  | storeHead head obj => head = c % size ∧ objs[c]? = some obj

/-- The objects that are held stand in their cells, and all but one cell can be used. -/
structure SpscqInv (size : ℕ) (q : Spscq O) (trace : List (SpscqEvent O)) : Prop where
  sized : q.size = size
  taken : dequeuedObjs trace <+: enqueuedObjs trace
  fits : (enqueuedObjs trace).length < (dequeuedObjs trace).length + size
  head : q.head = (dequeuedObjs trace).length % size
  tail : q.tail = (enqueuedObjs trace).length % size
  cells : ∀ k, (dequeuedObjs trace).length ≤ k → k < (enqueuedObjs trace).length →
    (enqueuedObjs trace)[k]? = some (q.buffer (k % size))
  producer : q.producer.Knows size (enqueuedObjs trace).length (dequeuedObjs trace).length q.buffer
  consumer : q.consumer.Knows size (dequeuedObjs trace).length (enqueuedObjs trace)
  right : AllRight size trace

section

variable {size : ℕ} {q q' : Spscq O} {trace seen : List (SpscqEvent O)}

theorem next_eq (inv : SpscqInv size q trace) (k : ℕ) (positive : 0 < size) :
    q.next (k % size) = (k + 1) % size := by
  rw [Spscq.next, inv.sized]
  exact wrap_succ positive k

/-- The index behind the tail is the head exactly when all cells but one are taken. -/
theorem full_iff (inv : SpscqInv size q trace) (positive : 0 < size) :
    q.next ((enqueuedObjs trace).length % size) = q.head ↔
      (enqueuedObjs trace).length + 1 = (dequeuedObjs trace).length + size := by
  have fits := inv.fits
  have le := inv.taken.length_le
  rw [next_eq inv _ positive, inv.head]
  constructor
  · intro same
    have whole : ((enqueuedObjs trace).length + 1) % size = ((dequeuedObjs trace).length + size) % size := by
      rwa [Nat.add_mod_right]
    exact eq_of_mod_eq whole (by omega) (by omega)
  · intro same
    rw [same, Nat.add_mod_right]

theorem empty_iff (inv : SpscqInv size q trace) :
    (dequeuedObjs trace).length % size = q.tail ↔
      (dequeuedObjs trace).length = (enqueuedObjs trace).length := by
  have fits := inv.fits
  have le := inv.taken.length_le
  rw [inv.tail]
  exact ⟨fun same => eq_of_mod_eq same (by omega) (by omega), fun same => by rw [same]⟩

/-- A step that settles nothing and leaves the ring alone. -/
theorem SpscqInv.goto (inv : SpscqInv size q trace) (producer : ProducerPc O) (consumer : ConsumerPc O)
    (knows : producer.Knows size (enqueuedObjs trace).length (dequeuedObjs trace).length q.buffer)
    (knows' : consumer.Knows size (dequeuedObjs trace).length (enqueuedObjs trace)) :
    SpscqInv size { q with producer := producer, consumer := consumer } trace :=
  ⟨inv.sized, inv.taken, inv.fits, inv.head, inv.tail, inv.cells, knows, knows', inv.right⟩

/-- A result that moves no object. -/
theorem SpscqInv.observe (inv : SpscqInv size q trace) {e : SpscqEvent O} (none : e.enqueuedObj = none)
    (none' : e.dequeuedObj = .none) (right : e.Right size trace) : SpscqInv size q (trace ++ [e]) := by
  have enq : enqueuedObjs (trace ++ [e]) = enqueuedObjs trace := by simp [enqueuedObjs, none]
  have deq : dequeuedObjs (trace ++ [e]) = dequeuedObjs trace := by simp [dequeuedObjs, none']
  obtain ⟨sized, taken, fits, head, tail, cells, producer, consumer, all⟩ := inv
  constructor
  case right => exact allRight_concat all right
  all_goals
    rw [enq] at *
    rw [deq] at *
    assumption

theorem held_eq_zero (inv : SpscqInv size q trace) :
    held trace = 0 ↔ (dequeuedObjs trace).length = (enqueuedObjs trace).length := by
  have le := inv.taken.length_le
  unfold held
  omega

/-! ### The producer -/

/-- The cell behind those that are held is free. -/
theorem inv_write (inv : SpscqInv size q trace) {obj : Option O} {tail : ℕ}
    (at' : q.producer = .write obj tail) :
    SpscqInv size { q with buffer := Function.update q.buffer tail obj, producer := .storeTail obj tail }
      trace := by
  have knows := inv.producer
  rw [at'] at knows
  obtain ⟨rfl, room⟩ := knows
  refine ⟨inv.sized, inv.taken, inv.fits, inv.head, inv.tail, fun k from' below => ?_,
    ⟨rfl, room, Function.update_self ..⟩, inv.consumer, inv.right⟩
  have other : k % size ≠ (enqueuedObjs trace).length % size := mod_ne_of_lt below (by omega)
  exact (inv.cells k from' below).trans (congrArg some (Function.update_of_ne other obj q.buffer).symm)

theorem inv_storeTail (inv : SpscqInv size q trace) (positive : 0 < size) {obj : Option O} {tail : ℕ}
    (at' : q.producer = .storeTail obj tail) :
    SpscqInv size { q with tail := q.next tail, producer := .idle } (trace ++ [.enqueued obj]) := by
  have knows := inv.producer
  rw [at'] at knows
  obtain ⟨rfl, room, written⟩ := knows
  have enq : enqueuedObjs (trace ++ [.enqueued obj]) = enqueuedObjs trace ++ [obj] := by
    simp [enqueuedObjs, SpscqEvent.enqueuedObj]
  have deq : dequeuedObjs (trace ++ [.enqueued obj]) = dequeuedObjs trace := by
    simp [dequeuedObjs, SpscqEvent.dequeuedObj]
  refine ⟨inv.sized, ?_, ?_, ?_, ?_, fun k from' below => ?_, trivial, ?_, allRight_concat inv.right trivial⟩
  · rw [enq, deq]
    exact inv.taken.trans (List.prefix_append ..)
  · rw [enq, deq, List.length_append, List.length_singleton]
    exact room
  · rw [deq]
    exact inv.head
  · -- `tail` counts the stores modulo the size
    rw [enq, List.length_append, List.length_singleton]
    exact next_eq inv _ positive
  · rw [enq] at below ⊢
    rw [deq] at from'
    rw [List.length_append, List.length_singleton] at below
    rcases Nat.lt_succ_iff_lt_or_eq.mp below with old | rfl
    · rw [List.getElem?_append_left old]
      exact inv.cells k from' old
    · -- the object that was written before
      rw [List.getElem?_concat_length, written]
  · -- what the consumer knows: the objects only grow at the end
    rw [enq, deq]
    have knows := inv.consumer
    revert knows
    cases q.consumer with
    | idle | loadHead | isEmpty | loadTail | isEmptyTail => exact id
    | read head =>
      rintro ⟨is, some'⟩
      exact ⟨is, by rw [List.length_append]; omega⟩
    | storeHead head obj' =>
      rintro ⟨is, found⟩
      exact ⟨is, (List.getElem?_append_left (List.getElem?_eq_some_iff.mp found).1).trans found⟩

theorem inv_produce (inv : SpscqInv size q trace) (positive : 0 < size)
    (taken : q.produce = some (q', seen)) : SpscqInv size q' (trace ++ seen) := by
  have knows := inv.producer
  have fits := inv.fits
  unfold Spscq.produce at taken
  split at taken
  next => cases taken
  next obj at' =>
    cases taken
    rw [List.append_nil]
    exact inv.goto _ _ inv.tail inv.consumer
  next obj tail at' =>
    rw [at'] at knows
    obtain rfl := knows
    split at taken
    next full =>
      cases taken
      -- full: one cell is always left empty
      have stuck := (full_iff inv positive).mp full
      refine (inv.goto .idle q.consumer trivial inv.consumer).observe rfl rfl ?_
      simp only [SpscqEvent.Right, held]
      omega
    next room =>
      cases taken
      -- the cell behind the tail is not in use
      have free := mt (full_iff inv positive).mpr room
      rw [List.append_nil]
      exact inv.goto (.write obj _) _ ⟨rfl, by omega⟩ inv.consumer
  next obj tail at' =>
    cases taken
    rw [List.append_nil]
    exact inv_write inv at'
  next obj tail at' =>
    cases taken
    exact inv_storeTail inv positive at'

/-! ### The consumer -/

theorem inv_storeHead (inv : SpscqInv size q trace) (positive : 0 < size) {obj : Option O} {head : ℕ}
    (at' : q.consumer = .storeHead head obj) :
    SpscqInv size { q with head := q.next head, consumer := .idle } (trace ++ [.dequeued obj]) := by
  have knows := inv.consumer
  have fits := inv.fits
  rw [at'] at knows
  obtain ⟨rfl, found⟩ := knows
  have some' : (dequeuedObjs trace).length < (enqueuedObjs trace).length :=
    (List.getElem?_eq_some_iff.mp found).1
  have enq : enqueuedObjs (trace ++ [.dequeued obj]) = enqueuedObjs trace := by
    simp [enqueuedObjs, SpscqEvent.enqueuedObj]
  have deq : dequeuedObjs (trace ++ [.dequeued obj]) = dequeuedObjs trace ++ [obj] := by
    simp [dequeuedObjs, SpscqEvent.dequeuedObj]
  refine ⟨inv.sized, ?_, ?_, ?_, ?_, fun k from' below => ?_, ?_, trivial, allRight_concat inv.right trivial⟩
  · rw [enq, deq]
    obtain ⟨rest, is⟩ := inv.taken
    cases rest with
    | nil =>
      rw [List.append_nil] at is
      rw [is] at some'
      exact absurd some' (Nat.lt_irrefl _)
    | cons first rest =>
      -- the first of the others is the one that was read
      rw [← is] at found
      obtain rfl : first = obj := by simpa using found
      exact ⟨rest, by rw [← is]; simp⟩
  · rw [enq, deq, List.length_append, List.length_singleton]
    omega
  · rw [deq, List.length_append, List.length_singleton]
    -- `head` counts the loads modulo the size
    exact next_eq inv _ positive
  · rw [enq]
    exact inv.tail
  · rw [enq] at below ⊢
    rw [deq, List.length_append, List.length_singleton] at from'
    exact inv.cells k (by omega) below
  · rw [enq, deq, List.length_append, List.length_singleton]
    have knows := inv.producer
    revert knows
    cases q.producer with
    | idle | loadTail | loadHead => exact id
    | write obj' tail =>
      rintro ⟨is, room⟩
      exact ⟨is, by omega⟩
    | storeTail obj' tail =>
      rintro ⟨is, room, written⟩
      exact ⟨is, by omega, written⟩

theorem inv_consume (inv : SpscqInv size q trace) (positive : 0 < size)
    (taken : q.consume = some (q', seen)) : SpscqInv size q' (trace ++ seen) := by
  have knows := inv.consumer
  have le := inv.taken.length_le
  unfold Spscq.consume at taken
  split at taken
  next => cases taken
  next at' =>
    cases taken
    rw [List.append_nil]
    exact inv.goto _ _ inv.producer inv.head
  next head at' =>
    rw [at'] at knows
    obtain rfl := knows
    split at taken
    next empty =>
      cases taken
      -- nothing was stored that is not taken
      exact (inv.goto q.producer .idle inv.producer trivial).observe rfl rfl
        ((held_eq_zero inv).mpr ((empty_iff inv).mp empty))
    next some' =>
      cases taken
      have different := mt (empty_iff inv).mpr some'
      rw [List.append_nil]
      exact inv.goto _ (.read _) inv.producer ⟨rfl, by omega⟩
  next head at' =>
    cases taken
    rw [at'] at knows
    obtain ⟨rfl, some'⟩ := knows
    rw [List.append_nil]
    -- the cell holds the oldest object that is not taken
    exact inv.goto _ (.storeHead _ _) inv.producer ⟨rfl, inv.cells _ (Nat.le_refl _) some'⟩
  next head obj at' =>
    cases taken
    exact inv_storeHead inv positive at'
  next at' =>
    cases taken
    rw [List.append_nil]
    exact inv.goto _ _ inv.producer inv.head
  next head at' =>
    cases taken
    rw [at'] at knows
    obtain rfl := knows
    refine (inv.goto q.producer .idle inv.producer trivial).observe rfl rfl ?_
    rw [SpscqEvent.Right, decide_eq_true_eq, empty_iff inv, held_eq_zero inv]

/-! ### Runs -/

theorem inv_create (positive : 0 < size) : SpscqInv size (spscqCreate (O := O) size) [] where
  sized := rfl
  taken := List.prefix_rfl
  fits := by simpa [enqueuedObjs, dequeuedObjs] using positive
  head := (Nat.zero_mod size).symm
  tail := (Nat.zero_mod size).symm
  cells k _ below := absurd below (Nat.not_lt_zero k)
  producer := trivial
  consumer := trivial
  right before e after split := by simp at split

theorem inv_spscqStep (inv : SpscqInv size q trace) (positive : 0 < size) {a : SpscqAction O}
    (taken : q.step a = some (q', seen)) : SpscqInv size q' (trace ++ seen) := by
  cases a with
  | enqueue obj =>
    simp only [Spscq.step] at taken
    split at taken
    next =>
      cases taken
      rw [List.append_nil]
      exact inv.goto (.loadTail obj) _ trivial inv.consumer
    next => cases taken
  | dequeue =>
    simp only [Spscq.step] at taken
    split at taken
    next =>
      cases taken
      rw [List.append_nil]
      exact inv.goto _ .loadHead inv.producer trivial
    next => cases taken
  | isEmpty =>
    simp only [Spscq.step] at taken
    split at taken
    next =>
      cases taken
      rw [List.append_nil]
      exact inv.goto _ .isEmpty inv.producer trivial
    next => cases taken
  | produce => exact inv_produce inv positive taken
  | consume => exact inv_consume inv positive taken

/-- What is taken out is what was put in, from the first object on; no more than `size - 1` are
held; and whoever finds the ring full or empty is right. -/
structure SpscqDelivers (size : ℕ) (trace : List (SpscqEvent O)) : Prop where
  taken : dequeuedObjs trace <+: enqueuedObjs trace
  held : held trace ≤ size - 1
  right : AllRight size trace
  nonNull : none ∉ enqueuedObjs trace → none ∉ dequeuedObjs trace

theorem spscq_delivers (size : ℕ) (positive : 1 ≤ size) {q : Spscq O} {trace : List (SpscqEvent O)}
    (run : spscq.Reaches (spscqCreate size) q trace) : SpscqDelivers size trace := by
  have inv := run.invariant (SpscqInv size) (inv_create positive)
    fun q trace a q' seen _ inv _ taken => inv_spscqStep inv positive taken
  have fits := inv.fits
  refine ⟨inv.taken, ?_, inv.right, fun noNull mem => noNull (inv.taken.subset mem)⟩
  unfold held
  omega

end

/-! ### Two calls of each side -/

def enqueueCall (obj : Option O) : List (SpscqAction O) := .enqueue obj :: List.replicate 4 .produce

def dequeueCall : List (SpscqAction O) := .dequeue :: List.replicate 4 .consume

def nullFirst : List (SpscqAction ℕ) := enqueueCall none ++ enqueueCall (some 7) ++ dequeueCall ++ dequeueCall

theorem spscq_delivers_null : SpscqDelivers 3
    [.enqueued none, .enqueued (some 7), .dequeued none, .dequeued (some 7)] :=
  spscq_delivers 3 (by decide) (Machine.Run.exec nullFirst .refl rfl)

/-- A `NULL` that was put in comes out as one: the other objects are no prefix of what was put in. -/
theorem null_overtaken : ¬ ∀ size, 1 ≤ size → ∀ (q : Spscq ℕ) trace,
    spscq.Reaches (spscqCreate size) q trace →
      (dequeuedObjs trace).filter (· ≠ none) <+: enqueuedObjs trace := by
  intro claimed
  have delivered := claimed 3 (by decide) _ _ (Machine.Run.exec nullFirst .refl rfl)
  revert delivered
  decide

end GhettoRedis.Containers
