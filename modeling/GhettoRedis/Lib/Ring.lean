import Mathlib.Data.List.Nodup
import Mathlib.Data.List.Range

/-!
# Positions on a ring

A ring of `n` cells gives position `p` the cell `p % n`. Two positions less than a
ring apart share a cell only when they are equal.
-/
namespace GhettoRedis.Lib

variable {α β : Type}

theorem mod_ne_of_lt {a b n : Nat} (lower : a < b) (upper : b < a + n) : a % n ≠ b % n := by
  intro same
  have divides : (b - a) % n = 0 := Nat.sub_mod_eq_zero_of_mod_eq same.symm
  have small : (b - a) % n = b - a := Nat.mod_eq_of_lt (by omega)
  omega

theorem eq_of_mod_eq {a b n : Nat} (same : a % n = b % n) (left : a < b + n) (right : b < a + n) :
    a = b := by
  rcases Nat.lt_trichotomy a b with lt | eq | gt
  · exact absurd same (mod_ne_of_lt lt right)
  · exact eq
  · exact absurd same.symm (mod_ne_of_lt gt left)

/-- The cell of the next position, by comparison with the end. -/
theorem wrap_succ {n : Nat} (positive : 0 < n) (p : Nat) :
    (if p % n + 1 = n then 0 else p % n + 1) = (p + 1) % n := by
  have small := Nat.mod_lt p positive
  have next : (p + 1) % n = (p % n + 1) % n := (Nat.mod_add_mod p n 1).symm
  split
  next atEnd => rw [next, atEnd, Nat.mod_self]
  next => exact (next.trans (Nat.mod_eq_of_lt (by omega))).symm

/-- Two elements that a duplicate-free projection sends to one value are equal. -/
theorem eq_of_filterMap_nodup {f : α → Option β} {l : List α} (nodup : (l.filterMap f).Nodup)
    {x y : α} {b : β} (hx : x ∈ l) (hy : y ∈ l) (fx : f x = some b) (fy : f y = some b) : x = y := by
  induction l with
  | nil => simp at hx
  | cons a l ih =>
    have rest : (l.filterMap f).Nodup := by
      cases fa : f a with
      | none => simpa [fa] using nodup
      | some v =>
        rw [List.filterMap_cons_some fa] at nodup
        exact (List.nodup_cons.mp nodup).2
    have fresh (z : α) (hz : z ∈ l) (fz : f z = some b) : f a ≠ some b := by
      intro fa
      rw [List.filterMap_cons_some fa] at nodup
      exact (List.nodup_cons.mp nodup).1 (List.mem_filterMap.mpr ⟨z, hz, fz⟩)
    rcases List.mem_cons.mp hx with rfl | inTail
    · rcases List.mem_cons.mp hy with rfl | yInTail
      · rfl
      · exact absurd fx (fresh y yInTail fy)
    · rcases List.mem_cons.mp hy with rfl | yInTail
      · exact absurd fy (fresh x inTail fx)
      · exact ih rest inTail yInTail

end GhettoRedis.Lib
