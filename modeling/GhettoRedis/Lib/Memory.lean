import Mathlib.Data.List.GetD

/-!
# Byte lists in memory

A memory is a function on offsets. `store` puts a list at an offset, `load` takes one out, and
`Stands` says that a list stands at an offset. A longer list is built up by storing behind the
one that stands.
-/
namespace GhettoRedis.Lib

variable {α : Type}

def store (m : ℕ → α) (offset : ℕ) (data : List α) : ℕ → α := fun i =>
  if offset ≤ i then data.getD (i - offset) (m i) else m i

def load (m : ℕ → α) (offset len : ℕ) : List α := (List.range len).map fun i => m (offset + i)

/-- `data` stands at `offset`. -/
def Stands (m : ℕ → α) (offset : ℕ) (data : List α) : Prop := load m offset data.length = data

variable {m m' : ℕ → α} {offset len i : ℕ} {data : List α}

/-! ### Frames -/

theorem store_before (before : i < offset) : store m offset data i = m i := by
  rw [store, if_neg (Nat.not_le.mpr before)]

theorem store_behind (behind : offset + data.length ≤ i) : store m offset data i = m i := by
  rw [store, if_pos (Nat.le_of_add_right_le behind), List.getD_eq_default _ _ (by omega)]

theorem store_inside {k : ℕ} (inside : k < data.length) :
    store m offset data (offset + k) = data[k] := by
  rw [store, if_pos (Nat.le_add_right _ _), Nat.add_sub_cancel_left,
    List.getD_eq_getElem _ _ inside]

theorem load_congr (same : ∀ i < len, m (offset + i) = m' (offset + i)) :
    load m offset len = load m' offset len := by
  apply List.map_congr_left
  intro i member
  exact same i (List.mem_range.mp member)

@[simp] theorem load_length : (load m offset len).length = len := by simp [load]

theorem load_add (m : ℕ → α) (offset a b : ℕ) :
    load m offset (a + b) = load m offset a ++ load m (offset + a) b := by
  simp [load, List.range_add, Function.comp_def, Nat.add_assoc]

/-! ### What stands -/

theorem stands_store (m : ℕ → α) (offset : ℕ) (data : List α) :
    Stands (store m offset data) offset data := by
  apply List.ext_getElem
  · exact load_length
  · intro k h inside
    simp [load, store_inside inside]

/-- The front of what stands, stands. -/
theorem Stands.left {front more : List α} (stands : Stands m offset (front ++ more)) :
    Stands m offset front := by
  rw [Stands, List.length_append, load_add] at stands
  exact List.append_inj_left stands load_length

/-- It stays when only other places change. -/
theorem Stands.congr (stands : Stands m offset data)
    (same : ∀ i < data.length, m' (offset + i) = m (offset + i)) : Stands m' offset data :=
  (load_congr same).trans stands

theorem Stands.append {front more : List α} (stands : Stands m offset front)
    (behind : Stands m (offset + front.length) more) : Stands m offset (front ++ more) := by
  rw [Stands, List.length_append, load_add]
  exact congrArg₂ (· ++ ·) stands behind

/-- A list stored right behind one that stands. -/
theorem Stands.store {front : List α} (stands : Stands m offset front) (more : List α) :
    Stands (store m (offset + front.length) more) offset (front ++ more) := by
  apply Stands.append
  · exact stands.congr fun i inside => store_before (Nat.add_lt_add_left inside _)
  · exact stands_store _ _ _

end GhettoRedis.Lib
