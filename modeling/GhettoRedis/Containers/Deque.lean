import GhettoRedis.Lib.DoublyLinked

/-!
# The operations of the deque

`deque.c` on a heap of nodes. A deque passed in is never `NULL`; an access to a node that is not
allocated has no result.
-/
namespace GhettoRedis.Containers

open Lib

variable {A O : Type}

/-- The ends of a deque and the memory of the nodes, with `void *` data. -/
structure Deque (A O : Type) where
  heap : NodeHeap A (Option O)
  head : Option A
  tail : Option A

def dequeInit (heap : NodeHeap A (Option O)) : Deque A O := ⟨heap, none, none⟩

def dequeIsEmpty (deque : Deque A O) : Bool := deque.head.isNone

section

variable [DecidableEq A]

/-- `malloc(sizeof(DequeNode))`: an address that is not allocated, with anything in the node. -/
def malloc (heap : NodeHeap A (Option O)) (node : A) (junk : Node A (Option O)) :
    Option (NodeHeap A (Option O)) :=
  if (heap node).isNone then some (Function.update heap node (some junk)) else none

def free (heap : NodeHeap A (Option O)) (node : A) : NodeHeap A (Option O) :=
  Function.update heap node none

/-! ### Pushes -/

def dequePushFrontNode (deque : Deque A O) (node : A) : Option (Deque A O) := do
  let heap ← deque.heap.modify node fun n => { n with next := deque.head }
  let heap ← heap.modify node fun n => { n with prev := none }
  match deque.head with
  | some head =>
    let heap ← heap.modify head fun n => { n with prev := some node }
    return ⟨heap, some node, deque.tail⟩
  | none => return ⟨heap, some node, some node⟩

def dequePushFront (deque : Deque A O) (data : Option O) (node : A) (junk : Node A (Option O)) :
    Option (Deque A O) := do
  let heap ← malloc deque.heap node junk
  let heap ← heap.modify node fun n => { n with data := data }
  dequePushFrontNode { deque with heap := heap } node

def dequePushBackNode (deque : Deque A O) (node : A) : Option (Deque A O) := do
  let heap ← deque.heap.modify node fun n => { n with next := none }
  let heap ← heap.modify node fun n => { n with prev := deque.tail }
  match deque.tail with
  | some tail =>
    let heap ← heap.modify tail fun n => { n with next := some node }
    return ⟨heap, deque.head, some node⟩
  | none => return ⟨heap, some node, some node⟩

def dequePushBack (deque : Deque A O) (data : Option O) (node : A) (junk : Node A (Option O)) :
    Option (Deque A O) := do
  let heap ← malloc deque.heap node junk
  let heap ← heap.modify node fun n => { n with data := data }
  dequePushBackNode { deque with heap := heap } node

/-! ### Pops -/

/-- The deque afterwards and the pointer that is returned. -/
def dequePopFront (deque : Deque A O) : Option (Deque A O × Option O) :=
  match deque.head with
  | none => some (deque, none)
  | some node => do
    let n ← deque.heap node
    match n.next with
    | some head =>
      let heap ← deque.heap.modify head fun m => { m with prev := none }
      return (⟨free heap node, some head, deque.tail⟩, n.data)
    | none => return (⟨free deque.heap node, none, none⟩, n.data)

/-- It is the head that says whether the deque is empty here, too. -/
def dequePopBack (deque : Deque A O) : Option (Deque A O × Option O) :=
  if dequeIsEmpty deque then some (deque, none)
  else do
    let node ← deque.tail
    let n ← deque.heap node
    match n.prev with
    | some tail =>
      let heap ← deque.heap.modify tail fun m => { m with next := none }
      return (⟨free heap node, deque.head, some tail⟩, n.data)
    | none => return (⟨free deque.heap node, none, none⟩, n.data)

/-! ### Nodes -/

/-- The first half of `deque_detach`: `node->prev->next`, or the head. -/
def detachNext (deque : Deque A O) (node : A) : Option (Deque A O) := do
  let n ← deque.heap node
  match n.prev with
  | some prev =>
    let heap ← deque.heap.modify prev fun m => { m with next := n.next }
    return { deque with heap := heap }
  | none => return { deque with head := n.next }

/-- The second half: `node->next->prev`, or the tail. -/
def detachPrev (deque : Deque A O) (node : A) : Option (Deque A O) := do
  let n ← deque.heap node
  match n.next with
  | some next =>
    let heap ← deque.heap.modify next fun m => { m with prev := n.prev }
    return { deque with heap := heap }
  | none => return { deque with tail := n.prev }

def dequeDetach (deque : Deque A O) (node : Option A) : Option (Deque A O) :=
  if dequeIsEmpty deque then some deque
  else
    match node with
    | none => some deque
    | some node => do
      let deque ← detachNext deque node
      detachPrev deque node

def dequeMoveToBack (deque : Deque A O) (node : Option A) : Option (Deque A O) :=
  if dequeIsEmpty deque then some deque
  else
    match node with
    | none => some deque
    | some node =>
      if deque.tail = some node then some deque
      else do
        let deque ← dequeDetach deque (some node)
        dequePushBackNode deque node

def dequeMoveToFront (deque : Deque A O) (node : Option A) : Option (Deque A O) :=
  if dequeIsEmpty deque then some deque
  else
    match node with
    | none => some deque
    | some node =>
      if deque.head = some node then some deque
      else do
        let deque ← dequeDetach deque (some node)
        dequePushFrontNode deque node

/-- The loop of `deque_destroy`, for at most `fuel` turns. -/
def dequeDestroy : (fuel : ℕ) → Deque A O → Option (Deque A O)
  | 0, deque => if dequeIsEmpty deque then some deque else none
  | fuel + 1, deque =>
    if dequeIsEmpty deque then some deque
    else do
      let (deque, _) ← dequePopFront deque
      dequeDestroy fuel deque

end

/-! ### What a deque holds -/

/-- The entries, from head to tail. -/
structure Holds (deque : Deque A O) (l : List (A × Option O)) : Prop where
  linked : Linked deque.heap none l none
  head : deque.head = firstAddr l none
  tail : deque.tail = lastAddr l none
  distinct : (l.map Prod.fst).Nodup

/-- Both directions visit the entries of the list, and each node has its data. -/
structure WellFormed (deque : Deque A O) (l : List (A × Option O)) : Prop where
  forward : Walk Node.next deque.heap deque.head (l.map Prod.fst)
  backward : Walk Node.prev deque.heap deque.tail (l.map Prod.fst).reverse
  distinct : (l.map Prod.fst).Nodup
  null : deque.head = none ↔ deque.tail = none
  headPrev : ∀ a node, deque.head = some a → deque.heap a = some node → node.prev = none
  tailNext : ∀ a node, deque.tail = some a → deque.heap a = some node → node.next = none
  data : ∀ e ∈ l, ∃ node, deque.heap e.1 = some node ∧ node.data = e.2

def Deque.mirror (deque : Deque A O) : Deque A O := ⟨deque.heap.mirror, deque.tail, deque.head⟩

variable {deque : Deque A O} {l m : List (A × Option O)} {e : A × Option O}

theorem Holds.mirror (holds : Holds deque l) : Holds deque.mirror l.reverse := by
  obtain ⟨linked, head, tail, distinct⟩ := holds
  refine ⟨linked_mirror.mpr linked, tail, ?_, ?_⟩
  · rw [lastAddr, List.reverse_reverse]
    exact head
  · rw [List.map_reverse]
    exact List.nodup_reverse.mpr distinct

theorem isEmpty_eq (holds : Holds deque l) : dequeIsEmpty deque = true ↔ l = [] := by
  rw [dequeIsEmpty, Option.isNone_iff_eq_none, holds.head, firstAddr_eq_none]

theorem not_isEmpty (holds : Holds deque l) (some' : l ≠ []) : ¬ dequeIsEmpty deque = true :=
  mt (isEmpty_eq holds).mp some'

theorem Holds.wellFormed (holds : Holds deque l) : WellFormed deque l := by
  obtain ⟨linked, head, tail, distinct⟩ := holds
  -- the nodes hold the objects of the list
  have data {l : List (A × Option O)} {before after : Option A} (linked : Linked deque.heap before l after) :
      ∀ e ∈ l, ∃ node, deque.heap e.1 = some node ∧ node.data = e.2 := by
    induction l generalizing before with
    | nil => simp
    | cons e l ih => exact List.forall_mem_cons.mpr ⟨⟨_, linked.1, rfl⟩, ih linked.2⟩
  refine ⟨head ▸ walk_next linked, tail ▸ walk_prev linked, distinct, ?_, fun a node is found => ?_,
    fun a node is found => ?_, data linked⟩
  · rw [head, tail, firstAddr_eq_none, lastAddr, firstAddr_eq_none, List.reverse_eq_nil_iff]
  · -- `head->prev`
    cases l with
    | nil => cases head.symm.trans is
    | cons e l =>
      obtain rfl : e.1 = a := Option.some.inj (head.symm.trans is)
      cases linked.1.symm.trans found
      rfl
  · -- `tail->next`
    rcases List.eq_nil_or_concat' l with rfl | ⟨l, e, rfl⟩
    · cases tail.symm.trans is
    · rw [lastAddr_concat] at tail
      obtain rfl : e.1 = a := Option.some.inj (tail.symm.trans is)
      cases (linked_concat.mp linked).2.symm.trans found
      rfl

theorem mem_split {node : A} {l : List (A × Option O)} (mem : node ∈ l.map Prod.fst) :
    ∃ front d back, l = front ++ (node, d) :: back := by
  obtain ⟨⟨a, d⟩, inside, rfl⟩ := List.mem_map.mp mem
  obtain ⟨front, back, rfl⟩ := List.append_of_mem inside
  exact ⟨front, d, back, rfl⟩

theorem not_mem_detached {front back : List (A × Option O)} {node : A} {d : Option O}
    (holds : Holds deque (front ++ (node, d) :: back)) :
    node ∉ (front ++ back).map Prod.fst := by
  have distinct := holds.distinct
  rw [List.map_append, List.map_cons, List.nodup_middle, List.nodup_cons] at distinct
  rw [List.map_append]
  exact distinct.1

/-! ### Nodes pushed -/

variable [DecidableEq A]

/-- A node of its own becomes the first entry. -/
theorem pushFrontNode_holds (holds : Holds deque l) {a : A} {n : Node A (Option O)}
    (found : deque.heap a = some n) (other : a ∉ l.map Prod.fst) :
    ∃ deque', dequePushFrontNode deque a = some deque' ∧ Holds deque' ((a, n.data) :: l) := by
  obtain ⟨linked, head, tail, distinct⟩ := holds
  have distinct' : (((a, n.data) :: l).map Prod.fst).Nodup := List.nodup_cons.mpr ⟨other, distinct⟩
  -- the node is written before anything is linked to it
  have own : Linked (Function.update deque.heap a (some ⟨n.data, none, deque.head⟩)) none l none :=
    (linked_update other _).mpr linked
  unfold dequePushFrontNode
  rw [modify_eq found]
  simp only [Option.bind_eq_bind, Option.bind_some, modify_eq (Function.update_self ..),
    Function.update_idem]
  cases l with
  -- the first node is also the tail
  | nil =>
    have empty : deque.head = none := head
    rw [empty]
    exact ⟨_, rfl, ⟨Function.update_self .., trivial⟩, rfl, rfl, distinct'⟩
  | cons e l =>
    have notEmpty : deque.head = some e.1 := head
    rw [notEmpty] at own ⊢
    have old := own.1
    -- the old head points back to the new one
    have apart : a ≠ e.1 := fun same => other (same ▸ List.mem_cons_self)
    simp only [modify_eq old, Option.bind_some]
    refine ⟨_, rfl, ⟨?_, linked_setPrev own (List.nodup_cons.mp distinct).1 (some a)⟩, rfl, ?_, distinct'⟩
    · exact (Function.update_of_ne apart _ _).trans (Function.update_self ..)
    · rw [tail, lastAddr_cons (a, n.data), lastAddr_cons, lastAddr_cons]

/-- Seen from the other end it is the same operation. -/
theorem pushBackNode_mirror (deque : Deque A O) (a : A) :
    dequePushBackNode deque a = (dequePushFrontNode deque.mirror a).map Deque.mirror := by
  unfold dequePushBackNode dequePushFrontNode
  cases found : deque.heap a with
  | none => simp [NodeHeap.modify, NodeHeap.mirror, found, Deque.mirror]
  | some n =>
    have node : Function.update deque.heap.mirror a (some ⟨n.data, none, deque.tail⟩) =
        NodeHeap.mirror (Function.update deque.heap a (some ⟨n.data, deque.tail, none⟩)) :=
      (mirror_update deque.heap a (some ⟨n.data, deque.tail, none⟩)).symm
    have found' : deque.mirror.heap a = some n.mirror := (mirror_eq_some _).mpr found
    -- both links of the node are written, in one order or the other
    simp only [modify_eq found, modify_eq found', Option.bind_eq_bind, Option.bind_some,
      modify_eq (Function.update_self ..), Function.update_idem]
    simp only [Deque.mirror, Node.mirror_data, node]
    cases deque.tail with
    | none => simp [Deque.mirror]
    | some tail =>
      simp only
      rw [modify_mirror _ tail (f := fun m => { m with next := some a })
        (g := fun m => { m with prev := some a }) fun _ => rfl]
      cases NodeHeap.modify _ tail fun m => { m with next := some a } <;> simp [Deque.mirror]

theorem pushBackNode_holds (holds : Holds deque l) {a : A} {n : Node A (Option O)}
    (found : deque.heap a = some n) (other : a ∉ l.map Prod.fst) :
    ∃ deque', dequePushBackNode deque a = some deque' ∧ Holds deque' (l ++ [(a, n.data)]) := by
  obtain ⟨deque', pushed, holds'⟩ := pushFrontNode_holds holds.mirror (a := a) (n := n.mirror)
    ((mirror_eq_some _).mpr found) (by simpa using other)
  refine ⟨deque'.mirror, by rw [pushBackNode_mirror, pushed, Option.map_some], ?_⟩
  simpa using holds'.mirror

/-! ### Pushes and pops -/

theorem pushFront_holds (holds : Holds deque l) {a : A} (free : deque.heap a = none)
    (data : Option O) (junk : Node A (Option O)) : ∃ deque',
    dequePushFront deque data a junk = some deque' ∧ Holds deque' ((a, data) :: l) := by
  have other := not_mem_of_free holds.linked free
  have holds' : Holds (Deque.mk (Function.update deque.heap a (some { junk with data := data }))
      deque.head deque.tail) l :=
    ⟨(linked_update other _).mpr holds.linked, holds.head, holds.tail, holds.distinct⟩
  obtain ⟨deque', pushed, after⟩ := pushFrontNode_holds holds' (Function.update_self ..) other
  refine ⟨deque', ?_, after⟩
  simpa [dequePushFront, malloc, free, modify_eq (Function.update_self ..)] using pushed

theorem pushBack_holds (holds : Holds deque l) {a : A} (free : deque.heap a = none)
    (data : Option O) (junk : Node A (Option O)) : ∃ deque',
    dequePushBack deque data a junk = some deque' ∧ Holds deque' (l ++ [(a, data)]) := by
  have other := not_mem_of_free holds.linked free
  have holds' : Holds (Deque.mk (Function.update deque.heap a (some { junk with data := data }))
      deque.head deque.tail) l :=
    ⟨(linked_update other _).mpr holds.linked, holds.head, holds.tail, holds.distinct⟩
  obtain ⟨deque', pushed, after⟩ := pushBackNode_holds holds' (Function.update_self ..) other
  refine ⟨deque', ?_, after⟩
  simpa [dequePushBack, malloc, free, modify_eq (Function.update_self ..)] using pushed

theorem popFront_nil (holds : Holds deque []) : dequePopFront deque = some (deque, none) := by
  have empty : deque.head = none := holds.head
  rw [dequePopFront, empty]

theorem popFront_holds (holds : Holds deque (e :: l)) :
    ∃ deque', dequePopFront deque = some (deque', e.2) ∧ Holds deque' l := by
  obtain ⟨⟨node, linked⟩, head, tail, distinct⟩ := holds
  obtain ⟨gone, distinct⟩ := List.nodup_cons.mp distinct
  have head : deque.head = some e.1 := head
  rw [dequePopFront, head]
  simp only [node, Option.bind_eq_bind, Option.bind_some]
  cases l with
  | nil => exact ⟨_, rfl, trivial, rfl, rfl, distinct⟩
  | cons f l =>
    simp only [firstAddr_cons, modify_eq linked.1, Option.bind_some]
    refine ⟨_, rfl, (linked_update gone _).mpr
      (linked_setPrev linked (List.nodup_cons.mp distinct).1 none), rfl, ?_, distinct⟩
    rw [tail, lastAddr_cons, lastAddr_cons, lastAddr_cons]

theorem popBack_nil (holds : Holds deque []) : dequePopBack deque = some (deque, none) :=
  if_pos ((isEmpty_eq holds).mpr rfl)

theorem popBack_holds (holds : Holds deque (l ++ [e])) :
    ∃ deque', dequePopBack deque = some (deque', e.2) ∧ Holds deque' l := by
  have notEmpty := not_isEmpty holds (by simp)
  have mirrored : Holds deque.mirror (e :: l.reverse) := by simpa using holds.mirror
  obtain ⟨deque', popped, after⟩ := popFront_holds mirrored
  have tail : deque.tail = some e.1 := by rw [holds.tail, lastAddr_concat]
  have node := (linked_concat.mp holds.linked).2
  -- popping at the back is popping at the front of the mirrored list
  have same : dequePopBack deque =
      (dequePopFront deque.mirror).map fun r => (r.1.mirror, r.2) := by
    have node' : deque.mirror.heap e.1 = some ⟨e.2, none, lastAddr l none⟩ :=
      (mirror_eq_some _).mpr node
    rw [dequePopBack, if_neg notEmpty, dequePopFront, show deque.mirror.head = some e.1 from tail, tail]
    simp only [node, node', Option.bind_eq_bind, Option.bind_some]
    cases lastAddr l none with
    | none => simp [free, Deque.mirror, mirror_update]
    | some f =>
      simp only [Deque.mirror]
      rw [modify_mirror _ f (f := fun m => { m with next := none })
        (g := fun m => { m with prev := none }) fun _ => rfl]
      cases NodeHeap.modify _ f fun m => { m with next := none } <;>
        simp [free, mirror_update]
  refine ⟨deque'.mirror, by rw [same, popped, Option.map_some], ?_⟩
  simpa using after.mirror

/-! ### Detached nodes -/

/-- The neighbours in front now lead past the node. -/
theorem detachNext_eq {a : A} {d : Option O} (holds : Holds deque (l ++ (a, d) :: m)) : ∃ h,
    detachNext deque a = some ⟨h, firstAddr (l ++ m) none, deque.tail⟩ ∧
      Linked h none l (firstAddr m none) ∧ Linked h (some a) m none ∧
      h a = some ⟨d, lastAddr l none, firstAddr m none⟩ := by
  obtain ⟨linked, head, -, distinct⟩ := holds
  obtain ⟨front, node, back⟩ := linked_append.mp linked
  rw [detachNext, node]
  simp only [Option.bind_eq_bind, Option.bind_some]
  rcases List.eq_nil_or_concat' l with rfl | ⟨l, p, rfl⟩
  · -- `node` is the head: there is nothing before it to relink
    exact ⟨deque.heap, rfl, trivial, back, node⟩
  · have prev := (linked_concat.mp front).2
    rw [List.map_append, List.nodup_append] at distinct
    obtain ⟨distinctFront, -, apart⟩ := distinct
    have once : p.1 ∉ l.map Prod.fst := by
      rw [List.map_append, List.nodup_append] at distinctFront
      exact fun mem => distinctFront.2.2 _ mem _ (by simp) rfl
    have others (b : A) (mem : b ∈ ((a, d) :: m).map Prod.fst) : p.1 ≠ b :=
      apart _ (by simp) _ mem
    simp only [lastAddr_concat, modify_eq prev, Option.bind_some]
    refine ⟨_, ?_, linked_setNext front once _,
      (linked_update (fun mem => others _ (List.mem_cons_of_mem _ mem) rfl) _).mpr back, ?_⟩
    · -- the head stays
      have same : firstAddr (l ++ [p] ++ (a, d) :: m) none = firstAddr (l ++ [p] ++ m) none := by
        simp only [firstAddr_append, firstAddr_cons]
      rw [head, same]
      rfl
    · rw [Function.update_of_ne (others a List.mem_cons_self).symm, node, lastAddr_concat]

/-- Then those behind it do. -/
theorem detachPrev_eq (deque : Deque A O) {a : A} {d : Option O}
    (front : Linked deque.heap none l (firstAddr m none))
    (back : Linked deque.heap (some a) m none)
    (node : deque.heap a = some ⟨d, lastAddr l none, firstAddr m none⟩)
    (distinct : ((l ++ (a, d) :: m).map Prod.fst).Nodup)
    (tail : deque.tail = lastAddr (l ++ (a, d) :: m) none) : ∃ h,
    detachPrev deque a = some ⟨h, deque.head, lastAddr (l ++ m) none⟩ ∧
      Linked h none (l ++ m) none ∧ h a = some ⟨d, lastAddr l none, firstAddr m none⟩ := by
  rw [detachPrev, node]
  simp only [Option.bind_eq_bind, Option.bind_some]
  -- whether `node` is the tail
  cases m with
  | nil =>
    rw [List.append_nil]
    exact ⟨deque.heap, rfl, front, node⟩
  | cons q m =>
    rw [List.map_append, List.nodup_append] at distinct
    obtain ⟨-, distinctBack, apart⟩ := distinct
    obtain ⟨notSelf, distinctBack⟩ := List.nodup_cons.mp distinctBack
    have once : q.1 ∉ m.map Prod.fst := (List.nodup_cons.mp distinctBack).1
    have others : q.1 ∉ l.map Prod.fst := fun mem => apart _ mem q.1 (by simp) rfl
    have other : a ≠ q.1 := fun same => notSelf (same ▸ List.mem_cons_self)
    simp only [firstAddr_cons, modify_eq back.1, Option.bind_some]
    refine ⟨_, ?_, linked_append.mpr ⟨(linked_update others _).mpr front, linked_setPrev back once _⟩, ?_⟩
    · -- the tail stays
      rw [tail, lastAddr_append, lastAddr_append, lastAddr_cons, lastAddr_cons, lastAddr_cons]
      rfl
    · exact (Function.update_of_ne other _ _).trans node

/-- The node stays allocated, with its data. -/
theorem detach_holds {a : A} {d : Option O} (holds : Holds deque (l ++ (a, d) :: m)) :
    ∃ deque' n, dequeDetach deque (some a) = some deque' ∧ Holds deque' (l ++ m) ∧
      deque'.heap a = some n ∧ n.data = d := by
  obtain ⟨h, next, front, back, node⟩ := detachNext_eq holds
  obtain ⟨h', prev, linked, node'⟩ := detachPrev_eq
    ⟨h, firstAddr (l ++ m) none, deque.tail⟩ front back node holds.distinct holds.tail
  have distinct : ((l ++ m).map Prod.fst).Nodup := by
    have whole := holds.distinct
    rw [List.map_append, List.map_cons] at whole
    rw [List.map_append]
    exact whole.sublist (List.Sublist.append_left (List.sublist_cons_self ..) _)
  refine ⟨⟨h', firstAddr (l ++ m) none, lastAddr (l ++ m) none⟩, _, ?_, ⟨linked, rfl, rfl, distinct⟩,
    node', rfl⟩
  rw [dequeDetach, if_neg (not_isEmpty holds (by simp))]
  simp [next, prev]

end GhettoRedis.Containers
