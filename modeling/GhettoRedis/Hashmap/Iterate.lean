import GhettoRedis.Hashmap.Refines

/-!
# Going over the items

`hashmap_scan`, `hashmap_iter`, `hashmap_free` and `hashmap_probe` come to the same items: those
of the finite map, each of them once.
-/
namespace GhettoRedis.Table

open Lib RobinHood

variable {α κ σ : Type} {map : Hashmap α} {buckets : ℕ → Bucket α} {iter : σ → α → Bool × σ}
  {i k left : ℕ}

/-- Passes items to `iter` until it returns false. -/
def visit (iter : σ → α → Bool × σ) : σ → List α → Bool × σ
  | udata, [] => (true, udata)
  | udata, item :: items =>
    let (more, udata) := iter udata item
    if more then visit iter udata items else (false, udata)

/-- The cursor after `k` calls of `hashmap_iter` that begin with zero. -/
def cursor (map : Hashmap α) : (k : ℕ) → ℕ
  | 0 => 0
  | k + 1 => (hashmapIter map (cursor map k)).1

/-- The items in the order of their buckets. -/
def Hashmap.items (map : Hashmap α) : List α := (listed map.nbuckets map.buckets).map Prod.snd

/-! ### From one bucket on -/

/-- The items in `left` buckets from bucket `i` on. -/
def itemsFrom (buckets : ℕ → Bucket α) (i left : ℕ) : List α :=
  (List.range' i left).filterMap fun i => if (buckets i).dib = 0 then none else some (buckets i).item

theorem items_eq (map : Hashmap α) : map.items = itemsFrom map.buckets 0 map.nbuckets := by
  rw [Hashmap.items, map_listed, itemsFrom, List.range_eq_range']

theorem itemsFrom_empty (none : (buckets i).dib = 0) :
    itemsFrom buckets i (left + 1) = itemsFrom buckets (i + 1) left := by
  rw [itemsFrom, List.range'_succ, List.filterMap_cons, if_pos none]
  rfl

theorem itemsFrom_occupied (taken : (buckets i).dib ≠ 0) :
    itemsFrom buckets i (left + 1) = (buckets i).item :: itemsFrom buckets (i + 1) left := by
  rw [itemsFrom, List.range'_succ, List.filterMap_cons, if_neg taken]
  rfl

theorem scanLoop_eq (buckets : ℕ → Bucket α) (iter : σ → α → Bool × σ) (left i : ℕ) (udata : σ) :
    scanLoop buckets iter left i udata = visit iter udata (itemsFrom buckets i left) := by
  induction left generalizing i udata with
  | zero => rfl
  | succ left ih =>
    rw [scanLoop]
    by_cases none : (buckets i).dib = 0
    · rw [if_pos none, itemsFrom_empty none]
      exact ih (i + 1) udata
    · rw [if_neg none, itemsFrom_occupied none, visit]
      simp only [ih]

/-- A call retrieves the first item behind the cursor and leaves the cursor behind it. -/
theorem iterLoop_spec (buckets : ℕ → Bucket α) (left i : ℕ) :
    (iterLoop buckets left i).2 = (itemsFrom buckets i left).head? ∧
      i ≤ (iterLoop buckets left i).1 ∧ (iterLoop buckets left i).1 ≤ i + left ∧
      itemsFrom buckets (iterLoop buckets left i).1 (i + left - (iterLoop buckets left i).1) =
        (itemsFrom buckets i left).tail := by
  induction left generalizing i with
  | zero => exact ⟨rfl, Nat.le_refl _, Nat.le_refl _, by simp [iterLoop, itemsFrom]⟩
  | succ left ih =>
    rw [iterLoop]
    by_cases none : (buckets i).dib = 0
    · rw [if_pos none, itemsFrom_empty none]
      obtain ⟨item, least, most, rest⟩ := ih (i + 1)
      rw [show i + 1 + left = i + (left + 1) by omega] at most rest
      exact ⟨item, by omega, most, rest⟩
    · rw [if_neg none, itemsFrom_occupied none]
      refine ⟨rfl, Nat.le_succ i, by omega, ?_⟩
      rw [show i + (left + 1) - (i + 1) = left by omega]
      rfl

/-- What is left behind the cursor. -/
theorem cursor_spec (map : Hashmap α) (k : ℕ) :
    cursor map k ≤ map.nbuckets ∧
      itemsFrom map.buckets (cursor map k) (map.nbuckets - cursor map k) = map.items.drop k := by
  induction k with
  | zero => exact ⟨Nat.zero_le _, (items_eq map).symm⟩
  | succ k ih =>
    obtain ⟨le, rest⟩ := ih
    -- one more call leaves the tail of what was left
    obtain ⟨-, -, most, behind⟩ :=
      iterLoop_spec map.buckets (map.nbuckets - cursor map k) (cursor map k)
    rw [Nat.add_sub_cancel' le] at most behind
    rw [rest, List.tail_drop] at behind
    exact ⟨most, behind⟩

/-- The calls of `hashmap_iter` retrieve one item after the other, and then none. -/
theorem hashmapIter_eq (map : Hashmap α) (k : ℕ) :
    (hashmapIter map (cursor map k)).2 = map.items[k]? := by
  obtain ⟨-, rest⟩ := cursor_spec map k
  rw [hashmapIter, (iterLoop_spec _ _ _).1, rest, List.head?_drop]

theorem hashmapScan_eq (map : Hashmap α) (iter : σ → α → Bool × σ) (udata : σ) :
    hashmapScan map iter udata = visit iter udata map.items := by
  rw [hashmapScan, scanLoop_eq, items_eq]

theorem hashmapFree_eq {cb : Callbacks α} (frees : cb.elfree = true) (map : Hashmap α) :
    hashmapFree cb map = map.items :=
  freeElements_eq frees map

theorem mem_items {item : α} : item ∈ map.items ↔ ∃ hash, (hash, item) ∈ map.entries := by
  have mem (e : Size × α) : e ∈ listed map.nbuckets map.buckets ↔ e ∈ map.entries := by
    rw [← Multiset.mem_coe, coe_listed]
    rfl
  simp [Hashmap.items, mem]

/-- Probing finds all items, because every bucket has a position. -/
theorem hashmapProbe_iff (sound : Sound map) (positions : map.nbuckets < 2 ^ 64) {item : α} :
    (∃ position, hashmapProbe map position = some item) ↔ item ∈ map.items := by
  have large := sound.large
  simp only [hashmapProbe, sound.masks, mem_items]
  constructor
  · rintro ⟨position, found⟩
    split at found
    next => cases found
    next taken =>
      cases found
      exact ⟨_, mem_content.mpr ⟨_, Nat.mod_lt _ (by omega), mt dib_eq_zero.mpr taken, rfl⟩⟩
  · rintro ⟨hash, mem⟩
    obtain ⟨i, inside, taken, is⟩ := mem_content.mp mem
    -- the index of the bucket is itself a position
    refine ⟨BitVec.ofNat 64 i, ?_⟩
    have index : (BitVec.ofNat 64 i).toNat % map.nbuckets = i := by
      rw [BitVec.toNat_ofNat, Nat.mod_eq_of_lt (inside.trans positions), Nat.mod_eq_of_lt inside]
    rw [index, if_neg (mt dib_eq_zero.mp taken)]
    exact congrArg (fun e => some e.2) is

/-- In every run there is an order of the items of the finite map in which they are visited,
freed and retrieved. -/
theorem run_items [Inhabited α] [DecidableEq κ] {key : α → κ} {cb : Callbacks α}
    (compares : ∀ a b, cb.compare a b = 0 ↔ key a = key b) {elsize cap : ℕ} {seed0 seed1 : Size}
    {alloc : Bool} {start map : Hashmap α} {trace : List (Call α × Answer α)}
    (new : hashmapNew alloc cap seed0 seed1 = some start) (sized : Sized elsize start.nbuckets)
    (run : (machine cb).Run (Allowed elsize) start map trace) :
    ∃ find items, Follows (Answers key cb.elfree) (fun _ => none) trace find ∧ Enumerates items find ∧
      (∀ (σ : Type) (iter : σ → α → Bool × σ) (udata : σ),
        hashmapScan map iter udata = visit iter udata items) ∧
      (∀ k, (hashmapIter map (cursor map k)).2 = items[k]?) ∧
      (cb.elfree = true → hashmapFree cb map = items) ∧
      ∀ item, (∃ position, hashmapProbe map position = some item) ↔ item ∈ items := by
  obtain ⟨find, follows, stores, sized'⟩ :=
    (simulates compares elsize).run ⟨hashmapNew_stores key new, sized⟩ run
  exact ⟨find, map.items, follows, stores.listed.enumerates, fun _ => hashmapScan_eq map,
    hashmapIter_eq map, fun frees => hashmapFree_eq frees map,
    fun _ => hashmapProbe_iff stores.sound sized'.lt⟩

/-- The items of a table after two insertions with the same hash and a deletion. -/
theorem run_items_collisions :
    ∃ (map : Hashmap (ℕ × ℕ)) (find : Size × ℕ → Option (ℕ × ℕ)) (items : List (ℕ × ℕ)),
      Follows (Answers Prod.fst false) (fun _ => none) collisions find ∧ Enumerates items find ∧
      ∀ k, (hashmapIter map (cursor map k)).2 = items[k]? := by
  obtain ⟨start, map, new, sized, run⟩ := collisions_run
  obtain ⟨find, items, follows, enumerates, -, iterates, -⟩ := run_items pairs_compare new sized run
  exact ⟨map, find, items, follows, enumerates, iterates⟩

end GhettoRedis.Table
