import Mathlib.Data.BitVec

/-!
# Machine words and memory

`size_t` and pointers are words of 64 bits that wrap. Memory is read through a total
function, so that a pointer that left its buffer still reads something.
-/
namespace GhettoRedis.Lib

/-- `size_t`, `uint64_t`, `int64_t` and pointers. -/
abbrev Size := BitVec 64

abbrev Bytes := List UInt8

/-- What lies at each address. -/
abbrev Mem := Size → UInt8

theorem toNat_add {a b : Size} (fits : a.toNat + b.toNat < 2 ^ 64) :
    (a + b).toNat = a.toNat + b.toNat := by
  rw [BitVec.toNat_add, Nat.mod_eq_of_lt fits]

theorem toNat_add_ofNat {a : Size} {i : ℕ} (fits : a.toNat + i < 2 ^ 64) :
    (a + BitVec.ofNat 64 i).toNat = a.toNat + i := by
  rw [BitVec.toNat_add, BitVec.toNat_ofNat, Nat.add_mod_mod, Nat.mod_eq_of_lt fits]

theorem toNat_sub {a b : Size} (le : b.toNat ≤ a.toNat) : (a - b).toNat = a.toNat - b.toNat := by
  have := a.isLt
  have := b.isLt
  rw [BitVec.toNat_sub]
  omega

/-- The bytes of `l` stand in memory from address `a` on. -/
def At (mem : Mem) (a : Size) (l : Bytes) : Prop :=
  ∀ i, (h : i < l.length) → mem (a + BitVec.ofNat 64 i) = l.get ⟨i, h⟩

variable {mem : Mem} {a : Size} {x : UInt8} {l l' : Bytes}

@[simp] theorem at_nil : At mem a [] := fun i h => absurd h (Nat.not_lt_zero i)

theorem add_ofNat_add (a : Size) (i j : ℕ) :
    a + BitVec.ofNat 64 i + BitVec.ofNat 64 j = a + BitVec.ofNat 64 (i + j) := by
  rw [BitVec.ofNat_add, BitVec.add_assoc]

theorem at_append : At mem a (l ++ l') ↔ At mem a l ∧ At mem (a + BitVec.ofNat 64 l.length) l' := by
  constructor
  · intro all
    constructor
    · intro i h
      rw [all i (by rw [List.length_append]; omega)]
      simp [List.getElem_append_left h]
    · intro i h
      rw [add_ofNat_add, all (l.length + i) (by rw [List.length_append]; omega)]
      simp
  · rintro ⟨first, second⟩ i h
    by_cases inFirst : i < l.length
    · rw [first i inFirst]
      simp [List.getElem_append_left inFirst]
    · have := second (i - l.length) (by rw [List.length_append] at h; omega)
      rw [add_ofNat_add, Nat.add_sub_cancel' (Nat.le_of_not_lt inFirst)] at this
      rw [this]
      simp [List.getElem_append_right (Nat.le_of_not_lt inFirst)]

theorem at_cons : At mem a (x :: l) ↔ mem a = x ∧ At mem (a + 1) l := by
  have single : At mem a [x] ↔ mem a = x := by
    constructor
    · intro h
      simpa using h 0 (by simp)
    · intro h i bound
      obtain rfl : i = 0 := by simpa using bound
      simpa using h
  rw [← single]
  exact at_append (l := [x])

/-- `len` bytes read from address `a` on. -/
def slice (mem : Mem) (a : Size) (len : ℕ) : Bytes :=
  (List.range len).map fun i => mem (a + BitVec.ofNat 64 i)

theorem slice_eq (stands : At mem a l) : slice mem a l.length = l := by
  refine List.ext_get (by simp [slice]) fun i h h' => ?_
  simpa [slice] using stands i h'

end GhettoRedis.Lib
