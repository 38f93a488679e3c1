import Mathlib.Data.List.GetD
import Mathlib.Data.List.Nodup
import Mathlib.Logic.Function.Basic

/-!
# Arrays that grow

An array of optional cells that keeps a partial map of its indices. It grows by a `realloc`
that leaves anything in the new cells, and a loop that clears them.
-/
namespace GhettoRedis.Lib

variable {α : Type}

/-- The cells that fit, and `junk` in the new ones. -/
def realloc (cells : List α) (n : ℕ) (junk : ℕ → α) : List α :=
  (List.range n).map fun i => cells.getD i (junk i)

/-- `for (; count > 0; i++, count--) cells[i] = v;` -/
def fillCells (v : α) : (count i : ℕ) → List α → List α
  | 0, _, cells => cells
  | count + 1, i, cells => fillCells v count (i + 1) (cells.set i v)

/-- The cells are those of the map, and outside of the array it has none. -/
def Keeps (cells : List (Option α)) (map : ℕ → Option α) : Prop :=
  ∀ i, cells.getD i none = map i

@[simp] theorem length_realloc (cells : List α) (n : ℕ) (junk : ℕ → α) :
    (realloc cells n junk).length = n := by
  simp [realloc]

theorem realloc_getD {cells : List α} {n i : ℕ} {junk : ℕ → α} (below : i < n) (v : α) :
    (realloc cells n junk).getD i v = cells.getD i (junk i) := by
  simp [realloc, List.getD_eq_getElem?_getD, below]

@[simp] theorem length_fillCells (v : α) (count i : ℕ) (cells : List α) :
    (fillCells v count i cells).length = cells.length := by
  induction count generalizing i cells with
  | zero => rfl
  | succ count ih => rw [fillCells, ih, List.length_set]

theorem fillCells_getD_of_lt {v d : α} {count i j : ℕ} {cells : List α} (before : j < i) :
    (fillCells v count i cells).getD j d = cells.getD j d := by
  induction count generalizing i cells with
  | zero => rfl
  | succ count ih =>
    rw [fillCells, ih (by omega)]
    simp [List.getD_eq_getElem?_getD, List.getElem?_set_ne (show i ≠ j by omega)]

theorem fillCells_getD {v d : α} {count i j : ℕ} {cells : List α} (from' : i ≤ j)
    (below : j < i + count) (inside : i + count ≤ cells.length) :
    (fillCells v count i cells).getD j d = v := by
  induction count generalizing i cells with
  | zero => omega
  | succ count ih =>
    rw [fillCells]
    rcases Nat.eq_or_lt_of_le from' with rfl | later
    · -- the loop does not come back to a cell
      rw [fillCells_getD_of_lt (by omega)]
      simp [List.getD_eq_getElem?_getD, show i < cells.length by omega]
    · exact ih (by omega) (by omega) (by rw [List.length_set]; omega)

namespace Keeps

variable {cells : List (Option α)} {map : ℕ → Option α}

theorem lt_length (keeps : Keeps cells map) {i : ℕ} {v : α} (found : map i = some v) :
    i < cells.length := by
  by_contra outside
  have none : cells.getD i none = none := List.getD_eq_default _ _ (by omega)
  rw [keeps i, found] at none
  cases none

theorem set (keeps : Keeps cells map) {i : ℕ} (inside : i < cells.length) (v : Option α) :
    Keeps (cells.set i v) (Function.update map i v) := by
  intro j
  by_cases same : j = i
  · subst same
    simp [List.getD_eq_getElem?_getD, inside]
  · rw [Function.update_of_ne same, ← keeps j]
    simp [List.getD_eq_getElem?_getD, List.getElem?_set_ne (Ne.symm same)]

/-- Once every cell is cleared there is nothing in the map. -/
theorem cleared {cells : List (Option α)} {n : ℕ} (all : cells.length = n) :
    Keeps (fillCells none n 0 cells) fun _ => none := by
  intro i
  by_cases inside : i < n
  · exact fillCells_getD (Nat.zero_le i) (by omega) (by omega)
  · exact List.getD_eq_default _ _ (by rw [length_fillCells]; omega)

/-- Growing keeps the map, whatever is found in the new cells. -/
theorem grow (keeps : Keeps cells map) {n : ℕ} (larger : cells.length ≤ n) (junk : ℕ → Option α) :
    Keeps (fillCells none (n - cells.length) cells.length (realloc cells n junk)) map := by
  intro i
  by_cases old : i < cells.length
  · rw [fillCells_getD_of_lt old, realloc_getD (by omega), ← keeps i, List.getD_eq_getElem _ _ old,
      List.getD_eq_getElem _ _ old]
  · have none' : map i = none := by
      rw [← keeps i]
      exact List.getD_eq_default _ _ (by omega)
    rw [none']
    by_cases new : i < n
    · exact fillCells_getD (by omega) (by omega) (by rw [length_realloc]; omega)
    · exact List.getD_eq_default _ _ (by rw [length_fillCells, length_realloc]; omega)

/-- A loop over the array comes to what the map holds, in the order of the indices. -/
theorem visits (keeps : Keeps cells map) (n : ℕ) :
    (List.range n).filterMap (fun i => cells.getD i none) = (List.range n).filterMap map :=
  List.filterMap_congr fun i _ => keeps i

theorem mem_visits (keeps : Keeps cells map) {v : α} :
    v ∈ (List.range cells.length).filterMap map ↔ ∃ i, map i = some v := by
  rw [List.mem_filterMap]
  constructor
  · rintro ⟨i, -, found⟩
    exact ⟨i, found⟩
  · rintro ⟨i, found⟩
    exact ⟨i, List.mem_range.mpr (keeps.lt_length found), found⟩

end Keeps

end GhettoRedis.Lib
