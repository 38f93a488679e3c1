import Mathlib.Algebra.BigOperators.Group.Finset.Piecewise
import Mathlib.Algebra.Order.BigOperators.Group.Finset
import Mathlib.Algebra.Order.Group.Multiset
import Mathlib.Data.Nat.ModEq
import Mathlib.Tactic.Abel
import GhettoRedis.Lib.Ring

/-!
# Robin Hood hashing

A ring of cells, and entries that have a home on it. Beside an entry stands one more than its
distance from home; it is zero where there is no entry. Along the ring this number grows by
one at most from a cell to the next, so that between an entry and its home no cell is empty. An
entry on its way to a cell may take the place of one that is nearer to its home, and behind an
entry that is taken out the ones that are away from home move up.
-/
namespace GhettoRedis.Lib.RobinHood

structure Cell (ε : Type) where
  dib : ℕ
  entry : ε

variable {ε : Type} {n : ℕ} {home : ε → ℕ} {cells : ℕ → Cell ε} {c : Cell ε} {e : ε} {d i m p q : ℕ}

def Cell.entries (cell : Cell ε) : Multiset ε := if cell.dib = 0 then 0 else {cell.entry}

/-- What is on the ring. -/
def content (n : ℕ) (cells : ℕ → Cell ε) : Multiset ε := ∑ i ∈ Finset.range n, (cells i).entries

/-- The entries are where they can be found. -/
structure Settled (n : ℕ) (home : ε → ℕ) (cells : ℕ → Cell ε) : Prop where
  near : ∀ p, (cells (p % n)).dib ≠ 0 →
    home (cells (p % n)).entry + (cells (p % n)).dib ≡ p + 1 [MOD n]
  level : ∀ p, (cells ((p + 1) % n)).dib ≤ (cells (p % n)).dib + 1

/-- An entry on its way comes from position `p` and may be put into the next cell. -/
structure Carried (n : ℕ) (home : ε → ℕ) (cells : ℕ → Cell ε) (e : ε) (d p : ℕ) : Prop where
  near : home e + d ≡ p + 2 [MOD n]
  pos : 0 < d
  level : d ≤ (cells (p % n)).dib + 1

/-! ### Content -/

theorem entries_of_empty (empty : c.dib = 0) : c.entries = 0 := if_pos empty

theorem entries_of_ne (some : c.dib ≠ 0) : c.entries = {c.entry} := if_neg some

theorem content_update (cells : ℕ → Cell ε) (inside : i < n) (c : Cell ε) :
    content n (Function.update cells i c) + (cells i).entries = content n cells + c.entries := by
  have whole : ∑ j ∈ Finset.range n, (cells j).entries =
      (cells i).entries + ∑ j ∈ Finset.range n \ {i}, (cells j).entries :=
    Finset.sum_eq_add_sum_sdiff_singleton_of_mem (Finset.mem_range.mpr inside) _
  have changed : (fun j => (Function.update cells i c j).entries) =
      Function.update (fun j => (cells j).entries) i c.entries := by
    funext j
    by_cases same : j = i <;> simp [Function.update, same]
  rw [content, changed, Finset.sum_update_of_mem (Finset.mem_range.mpr inside), content, whole]
  abel

theorem mem_content {e : ε} :
    e ∈ content n cells ↔ ∃ i < n, (cells i).dib ≠ 0 ∧ (cells i).entry = e := by
  rw [content, Multiset.mem_sum]
  simp only [Finset.mem_range]
  refine exists_congr fun i => and_congr_right fun _ => ?_
  by_cases empty : (cells i).dib = 0
  · simp [entries_of_empty empty, empty]
  · simp [entries_of_ne empty, empty, eq_comm]

/-- A ring with fewer entries than cells has an empty one. -/
theorem exists_empty (room : (content n cells).card < n) : ∃ i < n, (cells i).dib = 0 := by
  -- otherwise there is an entry in every cell
  by_contra full
  have one (i) (inside : i ∈ Finset.range n) : (cells i).entries.card = 1 := by
    rw [entries_of_ne fun empty => full ⟨i, Finset.mem_range.mp inside, empty⟩]
    rfl
  have all : (content n cells).card = n := by
    rw [content, Multiset.card_sum, Finset.sum_congr rfl one]
    simp
  omega

/-- Ahead of every position there is an empty cell, at most a turn away. -/
theorem exists_empty_ahead (room : (content n cells).card < n) (p : ℕ) :
    ∃ m < n, (cells ((p + m) % n)).dib = 0 := by
  obtain ⟨i, inside, empty⟩ := exists_empty room
  refine ⟨(i + (n - p % n)) % n, Nat.mod_lt _ (by omega), ?_⟩
  have here : p + (i + (n - p % n)) % n ≡ i [MOD n] := by
    have below := Nat.mod_lt p (show 0 < n by omega)
    have turn : p + (i + (n - p % n)) = i + n * (p / n + 1) := by
      have := Nat.div_add_mod p n
      rw [Nat.mul_add, Nat.mul_one]
      omega
    calc p + (i + (n - p % n)) % n ≡ p + (i + (n - p % n)) [MOD n] :=
          Nat.ModEq.add_left _ (Nat.mod_modEq _ _)
      _ = i + n * (p / n + 1) := turn
      _ ≡ i [MOD n] := by simp [Nat.ModEq]
  rw [here, Nat.mod_eq_of_lt inside]
  exact empty

/-! ### Walks -/

theorem Settled.level_add (settled : Settled n home cells) (p m : ℕ) :
    (cells ((p + m) % n)).dib ≤ (cells (p % n)).dib + m := by
  induction m with
  | zero => exact Nat.le_refl _
  | succ m ih =>
    have next := settled.level (p + m)
    rw [← Nat.add_assoc]
    omega

/-- The walk from the home of an entry comes to it, and meets no entry on the way that is
nearer to its own home than the walk to where it began. -/
theorem Settled.path (settled : Settled n home cells) (stands : (cells (q % n)).dib = m + 1) :
    (home (cells (q % n)).entry + m) % n = q % n ∧
      ∀ j ≤ m, j < (cells ((home (cells (q % n)).entry + j) % n)).dib := by
  have near := settled.near q (by omega)
  rw [stands] at near
  have here : home (cells (q % n)).entry + m ≡ q [MOD n] := Nat.ModEq.add_right_cancel' 1 near
  refine ⟨here, fun j le => ?_⟩
  have level := settled.level_add (home (cells (q % n)).entry + j) (m - j)
  rw [Nat.add_assoc, Nat.add_sub_cancel' le, here, stands] at level
  omega

/-! ### Changes -/

theorem succ_mod_ne (two : 2 ≤ n) (p : ℕ) : (p + 1) % n ≠ p % n :=
  (mod_ne_of_lt (Nat.lt_succ_self p) (by omega)).symm

/-- A cell may be changed as long as it fits what is around it. -/
theorem Settled.update (settled : Settled n home cells) (two : 2 ≤ n)
    (near : c.dib ≠ 0 → home c.entry + c.dib ≡ p + 2 [MOD n])
    (left : c.dib ≤ (cells (p % n)).dib + 1) (right : (cells ((p + 2) % n)).dib ≤ c.dib + 1) :
    Settled n home (Function.update cells ((p + 1) % n) c) := by
  constructor
  · intro q
    by_cases here : q % n = (p + 1) % n
    · rw [here, Function.update_self]
      have ahead : q + 1 ≡ p + 2 [MOD n] := Nat.ModEq.add_right 1 here
      exact fun some => (near some).trans ahead.symm
    · rw [Function.update_of_ne here]
      exact settled.near q
  · intro q
    by_cases next : (q + 1) % n = (p + 1) % n
    · -- the step to the changed cell
      have here : q % n = p % n := Nat.ModEq.add_right_cancel' 1 next
      have apart : p % n ≠ (p + 1) % n := (succ_mod_ne two p).symm
      rwa [next, Function.update_self, here, Function.update_of_ne apart]
    · by_cases here : q % n = (p + 1) % n
      · -- the step from it
        have ahead : (q + 1) % n = (p + 2) % n := Nat.ModEq.add_right 1 here
        rwa [Function.update_of_ne next, here, Function.update_self, ahead]
      · rw [Function.update_of_ne next, Function.update_of_ne here]
        exact settled.level q

/-- An entry on its way may take an empty cell, or that of an entry nearer to its home. -/
theorem Settled.place (settled : Settled n home cells) (two : 2 ≤ n)
    (carried : Carried n home cells e d p) (nearer : (cells ((p + 1) % n)).dib ≤ d) :
    Settled n home (Function.update cells ((p + 1) % n) ⟨d, e⟩) := by
  apply settled.update two fun _ => carried.near
  · exact carried.level
  · exact (settled.level (p + 1)).trans (Nat.add_le_add_right nearer 1)

/-- Then that one is on its way. -/
theorem Settled.swap (settled : Settled n home cells) (some : (cells ((p + 1) % n)).dib ≠ 0)
    (nearer : (cells ((p + 1) % n)).dib ≤ d) (e : ε) :
    Carried n home (Function.update cells ((p + 1) % n) ⟨d, e⟩) (cells ((p + 1) % n)).entry
      ((cells ((p + 1) % n)).dib + 1) (p + 1) := by
  refine ⟨?_, Nat.succ_pos _, ?_⟩
  · rw [← Nat.add_assoc]
    exact (settled.near (p + 1) some).add_right 1
  · rw [Function.update_self]
    exact Nat.add_le_add_right nearer 1

theorem Carried.pass (carried : Carried n home cells e d p)
    (farther : d ≤ (cells ((p + 1) % n)).dib) : Carried n home cells e (d + 1) (p + 1) := by
  refine ⟨?_, Nat.succ_pos _, Nat.add_le_add_right farther 1⟩
  rw [← Nat.add_assoc]
  exact carried.near.add_right 1

/-- An entry begins its way at home. -/
theorem carried_home (positive : 0 < n) (e : ε) : Carried n home cells e 1 (home e + n - 1) := by
  refine ⟨?_, Nat.one_pos, Nat.le_add_left _ _⟩
  rw [show home e + n - 1 + 2 = home e + 1 + n by omega]
  simp [Nat.ModEq]

theorem home_succ (positive : 0 < n) (h : ℕ) : (h + n - 1 + 1) % n = h % n := by
  rw [show h + n - 1 + 1 = h + n by omega, Nat.add_mod_right]

/-- An entry may be replaced by another with the same home. -/
theorem Settled.replace (settled : Settled n home cells) (two : 2 ≤ n)
    (same : home e = home (cells ((p + 1) % n)).entry) :
    Settled n home (Function.update cells ((p + 1) % n) ⟨(cells ((p + 1) % n)).dib, e⟩) := by
  apply settled.update two
  · intro some
    rw [same]
    exact settled.near (p + 1) some
  · exact settled.level p
  · exact settled.level (p + 1)

/-- A cell may become empty when the entry in the next one is at home. -/
theorem Settled.vacate (settled : Settled n home cells) (two : 2 ≤ n)
    (atHome : (cells ((p + 2) % n)).dib ≤ 1) (e : ε) :
    Settled n home (Function.update cells ((p + 1) % n) ⟨0, e⟩) :=
  settled.update two (absurd rfl) (Nat.zero_le _) atHome

/-- Otherwise that one moves up. -/
theorem Settled.moveUp (settled : Settled n home cells) (two : 2 ≤ n)
    (away : 2 ≤ (cells ((p + 2) % n)).dib) :
    Settled n home (Function.update cells ((p + 1) % n)
      ⟨(cells ((p + 2) % n)).dib - 1, (cells ((p + 2) % n)).entry⟩) := by
  have level : (cells ((p + 2) % n)).dib ≤ (cells ((p + 1) % n)).dib + 1 := settled.level (p + 1)
  have before := settled.level p
  apply settled.update two
  · intro _
    have near := settled.near (p + 2) (by omega)
    obtain ⟨k, more⟩ := Nat.exists_eq_add_of_le' (show 1 ≤ (cells ((p + 2) % n)).dib by omega)
    rw [more, ← Nat.add_assoc] at near
    rw [more, Nat.add_sub_cancel]
    exact Nat.ModEq.add_right_cancel' 1 near
  · dsimp only
    omega
  · dsimp only
    omega

/-! ### Long ways -/

/-- The steps from `a` to `h` around the ring. -/
def distance (n a h : ℕ) : ℕ := (h + (n - a % n)) % n

/-- No stretch of `bound` or more cells is the home of more entries than it has cells. -/
def Roomy (bound n : ℕ) (home : ε → ℕ) (entries : Multiset ε) : Prop :=
  ∀ a len, bound ≤ len → len < n → entries.countP (fun e => distance n a (home e) < len) ≤ len

theorem distance_of_modEq {a h r : ℕ} (is : h ≡ a + r [MOD n]) (below : r < n) :
    distance n a h = r := by
  have small := Nat.mod_lt a (show 0 < n by omega)
  have turn : a + r + (n - a % n) = r + n * (a / n + 1) := by
    have := Nat.div_add_mod a n
    rw [Nat.mul_add, Nat.mul_one]
    omega
  have same : h + (n - a % n) ≡ r [MOD n] := by
    calc h + (n - a % n) ≡ a + r + (n - a % n) [MOD n] := is.add_right _
      _ = r + n * (a / n + 1) := turn
      _ ≡ r [MOD n] := by simp [Nat.ModEq]
  rw [distance, same, Nat.mod_eq_of_lt below]

theorem roomy_of_card_le {bound : ℕ} {entries : Multiset ε} (few : entries.card ≤ bound) :
    Roomy bound n home entries :=
  fun _ _ long _ => (Multiset.countP_le_card _ _).trans (few.trans long)

theorem Roomy.mono {bound : ℕ} {entries fewer : Multiset ε} (roomy : Roomy bound n home entries)
    (le : fewer ≤ entries) : Roomy bound n home fewer :=
  fun a len long below => (Multiset.countP_le_of_le _ le).trans (roomy a len long below)

/-- On a stretch of occupied cells behind an empty one stand entries that are at home there. -/
theorem Settled.homes (settled : Settled n home cells) {a len : ℕ} (below : len < n)
    (empty : (cells (a % n)).dib = 0) (full : ∀ r < len, (cells ((a + 1 + r) % n)).dib ≠ 0) :
    len ≤ (content n cells).countP fun e => distance n (a + 1) (home e) < len := by
  have inside (r) (lt : r < len) :
      (cells ((a + 1 + r) % n)).entries.countP (fun e => distance n (a + 1) (home e) < len) = 1 := by
    have some := full r lt
    have near := settled.near (a + 1 + r) some
    have level := settled.level_add a (1 + r)
    rw [empty, ← Nat.add_assoc] at level
    have here : home (cells ((a + 1 + r) % n)).entry ≡
        a + 1 + (r + 1 - (cells ((a + 1 + r) % n)).dib) [MOD n] := by
      apply Nat.ModEq.add_right_cancel' (cells ((a + 1 + r) % n)).dib
      rwa [show a + 1 + (r + 1 - (cells ((a + 1 + r) % n)).dib) + (cells ((a + 1 + r) % n)).dib =
        a + 1 + r + 1 by omega]
    have distance := distance_of_modEq here (by omega)
    rw [entries_of_ne some]
    simp only [← Multiset.cons_zero, Multiset.countP_cons, Multiset.countP_zero, distance, Nat.zero_add]
    exact if_pos (by omega)
  -- the cells of the stretch are different ones
  have apart : Set.InjOn (fun r => (a + 1 + r) % n) (Finset.range len) := by
    intro r lt r' lt' same
    have := Finset.mem_range.mp lt
    have := Finset.mem_range.mp lt'
    have := eq_of_mod_eq same (by omega) (by omega)
    omega
  have ring : (Finset.range len).image (fun r => (a + 1 + r) % n) ⊆ Finset.range n := by
    intro i mem
    obtain ⟨r, -, rfl⟩ := Finset.mem_image.mp mem
    exact Finset.mem_range.mpr (Nat.mod_lt _ (by omega))
  let near := fun e : ε => distance n (a + 1) (home e) < len
  calc len = ∑ r ∈ Finset.range len, (cells ((a + 1 + r) % n)).entries.countP near := by
        rw [Finset.sum_congr rfl fun r mem => inside r (Finset.mem_range.mp mem)]
        simp
    _ = ∑ i ∈ (Finset.range len).image fun r => (a + 1 + r) % n, (cells i).entries.countP near :=
        (Finset.sum_image (f := fun i => (cells i).entries.countP near) apart).symm
    _ ≤ ∑ i ∈ Finset.range n, (cells i).entries.countP near := Finset.sum_le_sum_of_subset ring
    _ = (content n cells).countP near := (map_sum (Multiset.countPAddMonoidHom near) _ _).symm

/-- Behind every position there is an empty cell, and none between the two. -/
theorem exists_empty_behind (room : (content n cells).card < n) (p : ℕ) :
    ∃ len < n, ∃ a, a + len = p + n ∧ (cells (a % n)).dib = 0 ∧
      ∀ r < len, (cells ((a + 1 + r) % n)).dib ≠ 0 := by
  classical
  obtain ⟨m, below, empty⟩ := exists_empty_ahead room p
  have some : ∃ len, len ≤ p + n ∧ (cells ((p + n - len) % n)).dib = 0 := by
    by_cases here : m = 0
    · refine ⟨0, Nat.zero_le _, ?_⟩
      simpa [here] using empty
    · refine ⟨n - m, by omega, ?_⟩
      rwa [show p + n - (n - m) = p + m by omega]
  obtain ⟨le, found⟩ := Nat.find_spec some
  refine ⟨Nat.find some, ?_, p + n - Nat.find some, by omega, found, fun r lt full => ?_⟩
  · by_cases here : m = 0
    · have first : Nat.find some ≤ 0 := Nat.find_min' some ⟨Nat.zero_le _, by simpa [here] using empty⟩
      omega
    · have first : Nat.find some ≤ n - m :=
        Nat.find_min' some ⟨by omega, by rwa [show p + n - (n - m) = p + m by omega]⟩
      omega
  · refine Nat.find_min some (show Nat.find some - 1 - r < Nat.find some by omega) ⟨by omega, ?_⟩
    rwa [show p + n - (Nat.find some - 1 - r) = p + n - Nat.find some + 1 + r by omega]

/-- An entry is carried no farther than the entries around it have room. -/
theorem Carried.le_bound {bound : ℕ} (carried : Carried n home cells e d p)
    (settled : Settled n home cells) (room : (content n cells).card < n) (positive : 0 < bound)
    (roomy : Roomy bound n home (content n cells + {e})) : d ≤ bound := by
  -- the stretch of occupied cells that ends at `p`
  by_contra long
  obtain ⟨len, below, a, behind, empty, full⟩ := exists_empty_behind room p
  have here : (cells ((a + len) % n)).dib = (cells (p % n)).dib := by rw [behind, Nat.add_mod_right]
  have level := settled.level_add a len
  have carriedLevel := carried.level
  rw [here, empty, Nat.zero_add] at level
  -- every entry on the stretch is at home there, and so is the one that is carried
  have homes := settled.homes below empty full
  have mine : distance n (a + 1) (home e) = len + 1 - d := by
    apply distance_of_modEq _ (by omega)
    apply Nat.ModEq.add_right_cancel' d
    rw [show a + 1 + (len + 1 - d) + d = p + 2 + n by omega]
    exact carried.near.trans (by simp [Nat.ModEq])
  have most := roomy (a + 1) len (by omega) below
  rw [Multiset.countP_add, ← Multiset.cons_zero, Multiset.countP_cons, Multiset.countP_zero, mine,
    if_pos (show len + 1 - d < len by omega)] at most
  omega

end GhettoRedis.Lib.RobinHood
