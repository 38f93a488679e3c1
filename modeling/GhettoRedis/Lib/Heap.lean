import Mathlib.Algebra.BigOperators.Group.Finset.Basic
import Mathlib.Algebra.Order.Group.Multiset
import Mathlib.Data.List.Sigma
import Mathlib.Tactic.Abel

/-!
# A heap

Programs that allocate and free cells. A program that touches a cell that is not allocated is at
fault and has no result. What a program needs of the heap and what it leaves of it are multisets
of cells, and a triple holds whatever else is allocated.
-/
namespace GhettoRedis.Lib

variable {γ α β : Type}

abbrev Ptr := ℕ

/-- The allocated cells; an address is not used again. -/
structure Heap (γ : Type) where
  next : Ptr
  cells : List (Σ _ : Ptr, γ)

/-- A program with a heap of cells `γ`; `none` is a fault. -/
abbrev HeapM (γ : Type) := StateT (Heap γ) Option

namespace HeapM

def malloc (cell : γ) : HeapM γ Ptr := fun h =>
  some (h.next, { next := h.next + 1, cells := ⟨h.next, cell⟩ :: h.cells })

def free (p : Ptr) : HeapM γ Unit := fun h =>
  if (h.cells.dlookup p).isSome then some ((), { h with cells := h.cells.kerase p }) else none

def load (p : Ptr) : HeapM γ γ := fun h => (h.cells.dlookup p).map fun cell => (cell, h)

def store (p : Ptr) (cell : γ) : HeapM γ Unit := fun h =>
  if (h.cells.dlookup p).isSome then some ((), { h with cells := h.cells.kinsert p cell }) else none

def fault : HeapM γ α := fun _ => none

end HeapM

/-! ### Cells -/

/-- Cells that a part of a program owns. -/
abbrev Owned (γ : Type) := Multiset (Σ _ : Ptr, γ)

def cellAt (p : Ptr) (cell : γ) : Owned γ := {⟨p, cell⟩}

structure Heap.Tidy (h : Heap γ) : Prop where
  below : ∀ cell ∈ h.cells, cell.1 < h.next
  nodup : h.cells.NodupKeys

section Cells

variable {h : Heap γ} {p : Ptr} {cell : γ} {rest : Owned γ}

theorem Heap.Tidy.lookup (tidy : h.Tidy) (cells : (h.cells : Owned γ) = cellAt p cell + rest) :
    h.cells.dlookup p = some cell := by
  apply List.mem_dlookup tidy.nodup
  rw [← Multiset.mem_coe, cells, cellAt]
  simp

theorem Heap.Tidy.erase (tidy : h.Tidy) (cells : (h.cells : Owned γ) = cellAt p cell + rest) :
    ((h.cells.kerase p : List _) : Owned γ) = rest ∧ Heap.Tidy { h with cells := h.cells.kerase p } := by
  have found := tidy.lookup cells
  have known : p ∈ h.cells.keys := List.dlookup_isSome.mp (by rw [found]; rfl)
  obtain ⟨cell', before, behind, -, is, erased⟩ := List.exists_of_kerase known
  -- the address is allocated only once
  have same : cell' = cell := by
    have mem : ⟨p, cell'⟩ ∈ h.cells := by simp [is]
    simpa [found] using (List.mem_dlookup tidy.nodup mem).symm
  subst same
  refine ⟨?_, fun cell mem => ?_, tidy.nodup.kerase p⟩
  · rw [is, ← Multiset.coe_add, ← Multiset.cons_coe, Multiset.add_cons, cellAt,
      Multiset.singleton_add] at cells
    rw [erased, ← Multiset.coe_add]
    exact (Multiset.cons_inj_right _).mp cells
  · exact tidy.below cell ((List.kerase_sublist p h.cells).subset mem)

end Cells

/-! ### Triples -/

/-- From the cells `pre`, whatever else there is, `m` gives a result and cells as `post` says. -/
def Triple (pre : Owned γ) (m : HeapM γ α) (post : α → Owned γ → Prop) : Prop :=
  ∀ (frame : Owned γ) (h : Heap γ), h.Tidy → (h.cells : Owned γ) = pre + frame →
    ∃ a h' own, m h = some (a, h') ∧ h'.Tidy ∧ (h'.cells : Owned γ) = own + frame ∧ post a own

/-- From the cells `pre`, whatever else there is, `m` is at fault. -/
def Faults (pre : Owned γ) (m : HeapM γ α) : Prop :=
  ∀ (frame : Owned γ) (h : Heap γ), h.Tidy → (h.cells : Owned γ) = pre + frame → m h = none

section Rules

variable {pre : Owned γ} {m : HeapM γ α} {f : α → HeapM γ β} {post mid : α → Owned γ → Prop}
  {after : β → Owned γ → Prop} {p : Ptr} {cell : γ}

theorem Triple.pure {a : α} (holds : post a pre) : Triple pre (Pure.pure a : HeapM γ α) post :=
  fun _ h tidy cells => ⟨a, h, pre, rfl, tidy, cells, holds⟩

theorem Triple.bind (first : Triple pre m mid) (second : ∀ a own, mid a own → Triple own (f a) after) :
    Triple pre (m >>= f) after := by
  intro frame h tidy cells
  obtain ⟨a, h', own, returns, tidy', cells', holds⟩ := first frame h tidy cells
  obtain ⟨b, h'', own', returns', rest⟩ := second a own holds frame h' tidy' cells'
  refine ⟨b, h'', own', ?_, rest⟩
  simpa [StateT.bind, Bind.bind, returns] using returns'

theorem Triple.mono (triple : Triple pre m mid) (weaken : ∀ a own, mid a own → post a own) :
    Triple pre m post := by
  intro frame h tidy cells
  obtain ⟨a, h', own, returns, tidy', cells', holds⟩ := triple frame h tidy cells
  exact ⟨a, h', own, returns, tidy', cells', weaken a own holds⟩

/-- What else there is stays. -/
theorem Triple.frame (triple : Triple pre m mid) (rest : Owned γ) :
    Triple (pre + rest) m fun a own => ∃ own', own = own' + rest ∧ mid a own' := by
  intro frame h tidy cells
  rw [add_assoc] at cells
  obtain ⟨a, h', own, returns, tidy', cells', holds⟩ := triple _ h tidy cells
  exact ⟨a, h', own + rest, returns, tidy', by rw [cells', add_assoc], own, rfl, holds⟩

theorem Faults.frame (faults : Faults pre m) (rest : Owned γ) : Faults (pre + rest) m := by
  intro frame h tidy cells
  exact faults (rest + frame) h tidy (by rw [cells, add_assoc])

/-- A part of a program that needs only the cells `part`. -/
theorem Triple.part {part rest : Owned γ} (triple : Triple part m mid) (split : pre = part + rest)
    (second : ∀ a own, mid a own → Triple (own + rest) (f a) after) : Triple pre (m >>= f) after := by
  subst split
  refine (triple.frame rest).bind ?_
  rintro a own ⟨own', rfl, holds⟩
  exact second a own' holds

theorem Triple.malloc (cell : γ) :
    Triple pre (HeapM.malloc cell) fun p own => own = cellAt p cell + pre := by
  intro frame h tidy cells
  refine ⟨h.next, _, cellAt h.next cell + pre, rfl, ⟨?_, ?_⟩, ?_, rfl⟩
  · intro cell' mem
    rcases List.mem_cons.mp mem with rfl | mem
    · exact Nat.lt_succ_self _
    · exact (tidy.below cell' mem).trans (Nat.lt_succ_self _)
  -- the new address is beyond all that are in use
  · refine List.nodupKeys_cons.mpr ⟨fun used => ?_, tidy.nodup⟩
    obtain ⟨cell', mem⟩ := List.mem_keys.mp used
    exact absurd (tidy.below _ mem) (lt_irrefl _)
  · rw [← Multiset.cons_coe, cells, cellAt, Multiset.singleton_add, Multiset.cons_add]

theorem Triple.free {rest : Owned γ} (own : pre = cellAt p cell + rest) :
    Triple pre (HeapM.free p) fun _ own => own = rest := by
  intro frame h tidy cells
  rw [own, add_assoc] at cells
  obtain ⟨erased, tidy'⟩ := tidy.erase cells
  refine ⟨(), _, rest, ?_, tidy', erased, rfl⟩
  simp [HeapM.free, tidy.lookup cells]

theorem Triple.load {rest : Owned γ} (own : pre = cellAt p cell + rest) :
    Triple pre (HeapM.load p) fun found own => found = cell ∧ own = pre := by
  intro frame h tidy cells
  refine ⟨cell, h, pre, ?_, tidy, cells, rfl, rfl⟩
  rw [own, add_assoc] at cells
  simp [HeapM.load, tidy.lookup cells]

theorem Triple.store {rest : Owned γ} (own : pre = cellAt p cell + rest) (cell' : γ) :
    Triple pre (HeapM.store p cell') fun _ own => own = cellAt p cell' + rest := by
  intro frame h tidy cells
  rw [own, add_assoc] at cells
  obtain ⟨erased, tidy'⟩ := tidy.erase cells
  have below : p < h.next := tidy.below _ (List.of_mem_dlookup (tidy.lookup cells))
  refine ⟨(), { h with cells := h.cells.kinsert p cell' }, cellAt p cell' + rest, ?_, ⟨?_, ?_⟩, ?_, rfl⟩
  · simp [HeapM.store, tidy.lookup cells]
  · intro cell'' mem
    rcases List.mem_cons.mp mem with rfl | mem
    · exact below
    · exact tidy'.below cell'' mem
  · exact List.kinsert_nodupKeys p cell' tidy.nodup
  · rw [List.kinsert_def, ← Multiset.cons_coe, erased, cellAt, add_assoc, Multiset.singleton_add]

theorem Faults.fault : Faults pre (HeapM.fault : HeapM γ α) := fun _ _ _ _ => rfl

theorem Faults.bind (first : Faults pre m) : Faults pre (m >>= f) := by
  intro frame h tidy cells
  simp [Bind.bind, StateT.bind, first frame h tidy cells]

theorem Faults.part {part rest : Owned γ} (first : Faults part m) (split : pre = part + rest) :
    Faults pre (m >>= f) := by
  subst split
  exact (first.frame rest).bind

theorem Triple.faults (first : Triple pre m mid) (second : ∀ a own, mid a own → Faults own (f a)) :
    Faults pre (m >>= f) := by
  intro frame h tidy cells
  obtain ⟨a, h', own, returns, tidy', cells', holds⟩ := first frame h tidy cells
  simpa [StateT.bind, Bind.bind, returns] using second a own holds frame h' tidy' cells'

end Rules

end GhettoRedis.Lib
