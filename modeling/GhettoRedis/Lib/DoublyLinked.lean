import Mathlib.Data.List.Nodup
import Mathlib.Logic.Function.Basic

/-!
# Doubly linked lists in memory

Nodes at addresses with links to their neighbours. `Linked` says that a stretch of memory is
a list of entries between two neighbours; links are changed at the ends of such a stretch, and
swapping the two links of all nodes turns it around.
-/
namespace GhettoRedis.Lib

variable {A D : Type}

structure Node (A D : Type) where
  data : D
  prev : Option A
  next : Option A

/-- The nodes that are allocated. -/
abbrev NodeHeap (A D : Type) := A → Option (Node A D)

/-- The first of the entries, or what comes behind them. -/
def firstAddr : List (A × D) → Option A → Option A
  | [], after => after
  | e :: _, _ => some e.1

/-- The last of the entries, or what comes before them. -/
def lastAddr (l : List (A × D)) (before : Option A) : Option A := firstAddr l.reverse before

/-- The nodes of the entries are linked to each other and to what is around them. -/
def Linked (h : NodeHeap A D) : Option A → List (A × D) → Option A → Prop
  | _, [], _ => True
  | before, e :: rest, after =>
    h e.1 = some ⟨e.2, before, firstAddr rest after⟩ ∧ Linked h (some e.1) rest after

/-- Following the links of one direction visits these nodes and ends. -/
def Walk (link : Node A D → Option A) (h : NodeHeap A D) : Option A → List A → Prop
  | start, [] => start = none
  | start, a :: rest => start = some a ∧ ∃ node, h a = some node ∧ Walk link h (link node) rest

variable {h : NodeHeap A D} {before after : Option A} {l m : List (A × D)} {e : A × D}

@[simp] theorem firstAddr_nil : firstAddr ([] : List (A × D)) after = after := rfl
@[simp] theorem firstAddr_cons : firstAddr (e :: l) after = some e.1 := rfl
@[simp] theorem lastAddr_nil : lastAddr ([] : List (A × D)) before = before := rfl
@[simp] theorem lastAddr_concat : lastAddr (l ++ [e]) before = some e.1 := by simp [lastAddr]

theorem firstAddr_append (l m : List (A × D)) (after : Option A) :
    firstAddr (l ++ m) after = firstAddr l (firstAddr m after) := by
  cases l <;> rfl

theorem lastAddr_cons (e : A × D) (l : List (A × D)) (before : Option A) :
    lastAddr (e :: l) before = lastAddr l (some e.1) := by
  rw [lastAddr, List.reverse_cons, firstAddr_append]
  rfl

theorem lastAddr_append (l m : List (A × D)) (before : Option A) :
    lastAddr (l ++ m) before = lastAddr m (lastAddr l before) := by
  rw [lastAddr, List.reverse_append, firstAddr_append]
  rfl

theorem firstAddr_eq_none : firstAddr l none = none ↔ l = [] := by
  cases l <;> simp

/-- A stretch is linked if its two parts are, each with the other as its neighbour. -/
theorem linked_append : Linked h before (l ++ m) after ↔
    Linked h before l (firstAddr m after) ∧ Linked h (lastAddr l before) m after := by
  induction l generalizing before with
  | nil => simp [Linked]
  | cons e l ih => rw [List.cons_append, Linked, Linked, ih, firstAddr_append, lastAddr_cons, and_assoc]

theorem linked_concat : Linked h before (l ++ [e]) after ↔
    Linked h before l (some e.1) ∧ h e.1 = some ⟨e.2, lastAddr l before, after⟩ := by
  rw [linked_append]
  simp [Linked]

theorem not_mem_of_free {a : A} (linked : Linked h before l after) (free : h a = none) :
    a ∉ l.map Prod.fst := by
  induction l generalizing before with
  | nil => simp
  | cons e l ih =>
    rintro (_ | ⟨_, mem⟩)
    · rw [linked.1] at free
      cases free
    · exact ih linked.2 mem

section

variable [DecidableEq A]

/-- A write to a node; `none` when it is not allocated. -/
def NodeHeap.modify (h : NodeHeap A D) (a : A) (f : Node A D → Node A D) : Option (NodeHeap A D) :=
  (h a).map fun node => Function.update h a (some (f node))

theorem modify_eq {a : A} {node : Node A D} (found : h a = some node) (f : Node A D → Node A D) :
    h.modify a f = some (Function.update h a (some (f node))) := by
  rw [NodeHeap.modify, found]
  rfl

/-- What happens to other nodes changes nothing. -/
theorem linked_update {a : A} (other : a ∉ l.map Prod.fst) (node : Option (Node A D)) :
    Linked (Function.update h a node) before l after ↔ Linked h before l after := by
  induction l generalizing before with
  | nil => simp [Linked]
  | cons e l ih =>
    obtain ⟨notFirst, notLater⟩ := not_or.mp (mt List.mem_cons.mpr other)
    rw [Linked, Linked, ih notLater, Function.update_of_ne (Ne.symm notFirst)]

theorem linked_setPrev (linked : Linked h before (e :: l) after) (once : e.1 ∉ l.map Prod.fst)
    (before' : Option A) :
    Linked (Function.update h e.1 (some ⟨e.2, before', firstAddr l after⟩)) before' (e :: l) after :=
  ⟨Function.update_self .., (linked_update once _).mpr linked.2⟩

theorem linked_setNext (linked : Linked h before (l ++ [e]) after) (once : e.1 ∉ l.map Prod.fst)
    (after' : Option A) :
    Linked (Function.update h e.1 (some ⟨e.2, lastAddr l before, after'⟩)) before (l ++ [e]) after' :=
  linked_concat.mpr ⟨(linked_update once _).mpr (linked_concat.mp linked).1, Function.update_self ..⟩

end

/-! ### Both directions -/

def Node.mirror (node : Node A D) : Node A D := ⟨node.data, node.next, node.prev⟩

def NodeHeap.mirror (h : NodeHeap A D) : NodeHeap A D := fun a => (h a).map Node.mirror

@[simp] theorem Node.mirror_data (node : Node A D) : node.mirror.data = node.data := rfl

@[simp] theorem Node.mirror_mirror (node : Node A D) : node.mirror.mirror = node := rfl

@[simp] theorem NodeHeap.mirror_mirror (h : NodeHeap A D) : h.mirror.mirror = h := by
  funext a
  cases found : h a <;> simp [NodeHeap.mirror, found]

theorem mirror_eq_some {a : A} (node : Node A D) : h.mirror a = some node.mirror ↔ h a = some node := by
  constructor
  · intro found
    obtain ⟨other, is, same⟩ := Option.map_eq_some_iff.mp found
    rw [is, ← Node.mirror_mirror other, same, Node.mirror_mirror]
  · intro found
    rw [NodeHeap.mirror, found, Option.map_some]

theorem mirror_update [DecidableEq A] (h : NodeHeap A D) (a : A) (node : Option (Node A D)) :
    NodeHeap.mirror (Function.update h a node) = Function.update h.mirror a (node.map Node.mirror) := by
  funext b
  by_cases same : b = a
  · subst same
    simp [NodeHeap.mirror]
  · simp [NodeHeap.mirror, same]

/-- A write seen in the mirror. -/
theorem modify_mirror [DecidableEq A] (h : NodeHeap A D) (a : A) {f g : Node A D → Node A D}
    (same : ∀ node, g node.mirror = (f node).mirror) :
    h.mirror.modify a g = (h.modify a f).map NodeHeap.mirror := by
  unfold NodeHeap.modify
  cases found : h a with
  | none => simp [NodeHeap.mirror, found]
  | some node =>
    rw [(mirror_eq_some node).mpr found]
    simp [mirror_update, same]

theorem linked_mirror : Linked h.mirror after l.reverse before ↔ Linked h before l after := by
  induction l generalizing before with
  | nil => simp [Linked]
  | cons e l ih =>
    have node : h.mirror e.1 = some ⟨e.2, firstAddr l after, before⟩ ↔
        h e.1 = some ⟨e.2, before, firstAddr l after⟩ :=
      mirror_eq_some ⟨e.2, before, firstAddr l after⟩
    rw [List.reverse_cons, linked_concat, Linked, ih, lastAddr, List.reverse_reverse, node, and_comm]

theorem walk_next (linked : Linked h before l none) : Walk Node.next h (firstAddr l none) (l.map Prod.fst) := by
  induction l generalizing before with
  | nil => rfl
  | cons e l ih => exact ⟨rfl, _, linked.1, ih linked.2⟩

/-- The other direction is the first one of the mirrored nodes. -/
theorem walk_prev (linked : Linked h none l after) :
    Walk Node.prev h (lastAddr l none) (l.map Prod.fst).reverse := by
  have mirrored {start : Option A} {as : List A} (walk : Walk Node.next h.mirror start as) :
      Walk Node.prev h start as := by
    induction as generalizing start with
    | nil => exact walk
    | cons a as ih =>
      obtain ⟨rfl, node, found, rest⟩ := walk
      exact ⟨rfl, node.mirror, (mirror_eq_some node.mirror).mp found, ih rest⟩
  rw [← List.map_reverse]
  exact mirrored (walk_next (linked_mirror.mpr linked))

end GhettoRedis.Lib
