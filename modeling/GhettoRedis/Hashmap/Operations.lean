import GhettoRedis.Hashmap.Walks

/-!
# The operations on a table

What `hashmap_new`, `resize`, `hashmap_set_with_hash`, `hashmap_get_with_hash`,
`hashmap_delete_with_hash` and `hashmap_clear` do to the entries of a sound table. None of their
loops goes around the buckets more than once.
-/
namespace GhettoRedis.Table

open Lib RobinHood

variable {α : Type} {map : Hashmap α} {n k : ℕ} {buckets : ℕ → Bucket α} {hash : Size}

def Hashmap.entries (map : Hashmap α) : Multiset (Size × α) := Table.entries map.nbuckets map.buckets

/-- The table has room for its entries, and these can be found. -/
structure Sound (map : Hashmap α) : Prop where
  power : ∃ k, map.nbuckets = 2 ^ (k + 4)
  capPower : ∃ k, map.cap = 2 ^ (k + 4)
  cap : map.cap ≤ map.nbuckets
  mask : map.mask = map.nbuckets - 1
  settled : Settled map.nbuckets home (cells map.buckets)
  count : map.count = map.entries.card
  load : map.count ≤ map.growat
  growat : map.growat = growAt map.nbuckets ∨ map.growat = map.nbuckets * 3 / 4
  shrinkat : map.shrinkat = shrinkAt map.nbuckets
  growpower : 1 ≤ map.growpower

/-- At no size that the load allows do entries crowd so much that a `dib` could overflow: no
stretch of `maxDib` or more buckets is the home of more entries than it has buckets. -/
def Spread (entries : Multiset (Size × α)) : Prop :=
  ∀ n, 4 * entries.card ≤ 3 * n → Roomy maxDib n home entries

theorem spread_of_card_le {entries : Multiset (Size × α)} (few : entries.card ≤ maxDib) :
    Spread entries := fun _ _ => roomy_of_card_le few

/-! ### Sizes -/

theorem growAt_le (n : ℕ) : growAt n ≤ n * 3 / 4 := by
  unfold growAt
  omega

/-- Growing doubles the room, at least. -/
theorem lt_growAt {n' : ℕ} (large : 16 ≤ n) (twice : 2 * n ≤ n') : n * 3 / 4 < growAt n' := by
  unfold growAt
  omega

theorem shrinkAt_lt (large : 16 ≤ n) :
    shrinkAt n < growAt (n / 2) ∧ 4 * (shrinkAt n + 1) ≤ 3 * (n / 2) := by
  unfold shrinkAt growAt
  omega

theorem le_two_pow (k : ℕ) : 16 ≤ 2 ^ (k + 4) := by
  rw [Nat.pow_add]
  exact Nat.le_mul_of_pos_left 16 (Nat.two_pow_pos k)

theorem doubleUp_power (cap fuel k : ℕ) : ∃ k', doubleUp cap fuel (2 ^ (k + 4)) = 2 ^ (k' + 4) := by
  induction fuel generalizing k with
  | zero => exact ⟨k, rfl⟩
  | succ fuel ih =>
    rw [doubleUp]
    split
    · exact ih (k + 1)
    · exact ⟨k, rfl⟩

/-- A power of two is kept. -/
theorem doubleUp_eq {fuel j : ℕ} (le : j ≤ k) (enough : k ≤ j + fuel) :
    doubleUp (2 ^ k) fuel (2 ^ j) = 2 ^ k := by
  induction fuel generalizing j with
  | zero =>
    obtain rfl : j = k := by omega
    rfl
  | succ fuel ih =>
    rw [doubleUp]
    rcases Nat.eq_or_lt_of_le le with rfl | lt
    · exact if_neg (Nat.lt_irrefl _)
    · rw [if_pos (Nat.pow_lt_pow_right Nat.one_lt_two lt), ← Nat.pow_succ]
      exact ih lt (by omega)

namespace Sound

theorem large (sound : Sound map) : 16 ≤ map.nbuckets := by
  obtain ⟨k, is⟩ := sound.power
  rw [is]
  exact le_two_pow k

theorem two (sound : Sound map) : 2 ≤ map.nbuckets := by
  have := sound.large
  omega

theorem masks (sound : Sound map) (i : ℕ) : i &&& map.mask = i % map.nbuckets := by
  obtain ⟨k, is⟩ := sound.power
  rw [sound.mask, is, Nat.and_two_pow_sub_one_eq_mod]

theorem growat_le (sound : Sound map) : map.growat ≤ map.nbuckets * 3 / 4 := by
  rcases sound.growat with is | is
  · exact is.le.trans (growAt_le _)
  · exact is.le

theorem room (sound : Sound map) : map.entries.card < map.nbuckets := by
  have := sound.large
  have := sound.growat_le
  have := sound.load
  have := sound.count
  omega

end Sound

/-! ### New tables -/

theorem settled_zero [Inhabited α] (n : ℕ) :
    Settled n home (cells fun _ => (Bucket.zero : Bucket α)) := by
  constructor
  · intro p some
    exact absurd rfl some
  · intro p
    exact Nat.zero_le _

theorem entries_zero [Inhabited α] (n : ℕ) : entries n (fun _ => (Bucket.zero : Bucket α)) = 0 := by
  rw [entries, content]
  exact Finset.sum_eq_zero fun i _ => entries_of_empty rfl

theorem hashmapNew_sound [Inhabited α] {alloc : Bool} {cap : ℕ} {seed0 seed1 : Size}
    (new : hashmapNew alloc cap seed0 seed1 = some map) : Sound map ∧ map.entries = 0 := by
  cases alloc with
  | false => cases new
  | true =>
    cases new
    have power : ∃ k, (if cap < 16 then 16 else doubleUp cap cap 16) = 2 ^ (k + 4) := by
      split
      · exact ⟨0, rfl⟩
      · exact doubleUp_power cap cap 0
    refine ⟨⟨power, power, Nat.le_refl _, rfl, settled_zero _, ?_, Nat.zero_le _, .inl rfl, rfl,
      Nat.le_refl 1⟩,
      entries_zero _⟩
    exact (congrArg Multiset.card (entries_zero _)).symm

/-- A table for `resize`. -/
theorem hashmapNew_power [Inhabited α] (k : ℕ) (seed0 seed1 : Size) :
    hashmapNew (α := α) true (2 ^ (k + 4)) seed0 seed1 =
      some
        { cap := 2 ^ (k + 4), seed0 := seed0, seed1 := seed1, nbuckets := 2 ^ (k + 4), count := 0,
          mask := 2 ^ (k + 4) - 1, growat := growAt (2 ^ (k + 4)), shrinkat := shrinkAt (2 ^ (k + 4)),
          growpower := 1, oom := false, buckets := fun _ => Bucket.zero } := by
  have cap : (if 2 ^ (k + 4) < 16 then 16 else doubleUp (2 ^ (k + 4)) (2 ^ (k + 4)) 16) =
    2 ^ (k + 4) := by
    rw [if_neg (Nat.not_lt.mpr (le_two_pow k))]
    exact doubleUp_eq (j := 4) (by omega) ((Nat.lt_two_pow_self).le.trans (Nat.le_add_left _ _))
  simp only [hashmapNew, cap, if_true]

/-! ### Resizing -/

theorem entries_succ (n : ℕ) (buckets : ℕ → Bucket α) :
    entries (n + 1) buckets = entries n buckets + (cells buckets n).entries :=
  Finset.sum_range_succ _ n

theorem entries_mono {m : ℕ} (le : m ≤ n) (buckets : ℕ → Bucket α) :
    entries m buckets ≤ entries n buckets :=
  Finset.sum_le_sum_of_subset (Finset.range_subset_range.mpr le)

/-- An entry with `dib` 1 is put into a table that has room. -/
theorem resizeEntry_spec {mask : ℕ} (masks : ∀ i, i &&& mask = i % n) (two : 2 ≤ n)
    (settled : Settled n home (cells buckets)) (hash : Size) (item : α)
    (room : (entries n buckets).card < n)
    (roomy : Roomy maxDib n home (entries n buckets + {(hash, item)})) :
    ∃ buckets', resizeEntry mask n (hash.toNat &&& mask) ⟨hash, 1, item⟩ buckets = some buckets' ∧
      Settled n home (cells buckets') ∧ entries n buckets' = entries n buckets + {(hash, item)} := by
  have start : hash.toNat &&& mask = (hash.toNat + n - 1 + 1) % n := by
    rw [masks]
    exact (home_succ (by omega) hash.toNat).symm
  obtain ⟨m, below, empty⟩ := exists_empty_ahead room (hash.toNat + n - 1 + 1)
  rw [start]
  exact resizeEntry_place masks two settled
    (carried_home (by omega) (hash, item)) room roomy empty below below

theorem resizeLoop_spec [Inhabited α] {map2 : Hashmap α} (sound : Sound map2) (empty : map2.entries = 0)
    (room : (entries k buckets).card < map2.nbuckets)
    (roomy : Roomy maxDib map2.nbuckets home (entries k buckets)) :
    ∃ buckets', resizeLoop buckets map2 k = some buckets' ∧
      Settled map2.nbuckets home (cells buckets') ∧
        entries map2.nbuckets buckets' = entries k buckets := by
  induction k with
  | zero =>
    refine ⟨_, rfl, sound.settled, ?_⟩
    rw [show entries map2.nbuckets map2.buckets = 0 from empty]
    rfl
  | succ k ih =>
    have le := entries_mono (Nat.le_succ k) buckets
    -- the buckets before the last one come first
    obtain ⟨buckets', done, settled, content⟩ :=
      ih ((Multiset.card_le_card le).trans_lt room) (roomy.mono le)
    rw [resizeLoop, done]
    by_cases none : (buckets k).dib = 0
    · refine ⟨buckets', if_pos none, settled, ?_⟩
      have empty : (cells buckets k).dib = 0 := dib_eq_zero.mp none
      rw [content, entries_succ, entries_of_empty empty, Multiset.add_zero]
    · have taken : (cells buckets k).dib ≠ 0 := mt dib_eq_zero.mpr none
      have whole : entries (k + 1) buckets = entries map2.nbuckets buckets' + {(buckets k).kept} := by
        rw [entries_succ, entries_of_ne taken, content]
        rfl
      rw [whole] at room roomy ⊢
      have fewer : (entries map2.nbuckets buckets').card < map2.nbuckets := by
        rw [Multiset.card_add] at room
        omega
      simp only [none, if_false]
      exact resizeEntry_spec sound.masks sound.two settled (buckets k).hash (buckets k).item fewer roomy

/-- A table with other buckets. -/
def Hashmap.resized (map : Hashmap α) (nbuckets : ℕ) (buckets : ℕ → Bucket α) : Hashmap α :=
  { map with
    buckets := buckets, nbuckets := nbuckets, mask := nbuckets - 1, growat := growAt nbuckets,
    shrinkat := shrinkAt nbuckets }

/-- Resizing keeps the entries; it fails only when `malloc` does. -/
theorem resize_spec [Inhabited α] (alloc : Bool) (map : Hashmap α) (k : ℕ)
    (room : map.entries.card < 2 ^ (k + 4)) (roomy : Roomy maxDib (2 ^ (k + 4)) home map.entries) :
    (alloc = false ∧ resize alloc map (2 ^ (k + 4)) = some (false, map)) ∨
      ∃ buckets, resize alloc map (2 ^ (k + 4)) = some (true, map.resized (2 ^ (k + 4)) buckets) ∧
        Settled (2 ^ (k + 4)) home (cells buckets) ∧ entries (2 ^ (k + 4)) buckets = map.entries := by
  cases alloc with
  | false => exact .inl ⟨rfl, rfl⟩
  | true =>
    have new := hashmapNew_power (α := α) k map.seed0 map.seed1
    obtain ⟨sound, empty⟩ := hashmapNew_sound new
    obtain ⟨buckets, done, settled, content⟩ := resizeLoop_spec sound empty room roomy
    refine .inr ⟨buckets, ?_, settled, content⟩
    simp only [resize, new, done]
    rfl

/-! ### What the operations keep sound -/

theorem Sound.of_oom (sound : Sound map) (oom : Bool) : Sound { map with oom := oom } := by
  cases sound
  constructor <;> assumption

theorem Sound.of_power (sound : Sound map) (power : ℕ) : Sound (hashmapSetGrowByPower map power) := by
  have positive : 1 ≤ if power < 1 then 1 else if power > 16 then 16 else power := by
    split_ifs <;> omega
  cases sound
  constructor <;> assumption

/-- Other entries in the same buckets. -/
theorem Sound.of_buckets (sound : Sound map) {count : ℕ}
    (settled : Settled map.nbuckets home (cells buckets))
    (counted : count = (entries map.nbuckets buckets).card) (load : count ≤ map.growat) :
    Sound { map with buckets := buckets, count := count } := by
  cases sound
  constructor <;> assumption

/-- The same entries in as many buckets as the load allows. -/
theorem Sound.of_resized (sound : Sound map) (settled : Settled (2 ^ (k + 4)) home (cells buckets))
    (content : entries (2 ^ (k + 4)) buckets = map.entries) (cap : map.cap ≤ 2 ^ (k + 4))
    (load : map.count ≤ growAt (2 ^ (k + 4))) : Sound (map.resized (2 ^ (k + 4)) buckets) := by
  refine ⟨⟨k, rfl⟩, sound.capPower, cap, rfl, settled, ?_, load, .inl rfl, rfl, sound.growpower⟩
  have counted := sound.count
  rwa [← content] at counted

/-! ### Setting -/

/-- Before an entry is put, there is room for one more, or there is no memory. -/
theorem grow_spec [Inhabited α] (alloc : Bool) (sound : Sound map) {entry : Size × α}
    (spread : Spread (map.entries + {entry})) :
    (alloc = false ∧ map.count = map.growat ∧
      resize alloc map (map.nbuckets * 2 ^ map.growpower) = some (false, map)) ∨
    ∃ map', (if map.count = map.growat then resize alloc map (map.nbuckets * 2 ^ map.growpower)
        else some (true, map)) = some (true, map') ∧
      Sound map' ∧ map'.entries = map.entries ∧ map'.count < map'.growat ∧ map'.oom = map.oom := by
  -- `growat` is the only load at which the table grows
  by_cases full : map.count = map.growat
  · rw [if_pos full]
    obtain ⟨k, is⟩ := sound.power
    have new : map.nbuckets * 2 ^ map.growpower = 2 ^ (k + map.growpower + 4) := by
      rw [is, ← Nat.pow_add]
      congr 1
      omega
    have twice : 2 * map.nbuckets ≤ 2 ^ (k + map.growpower + 4) := by
      rw [← new, Nat.mul_comm]
      exact Nat.mul_le_mul_left _ (Nat.le_self_pow (by have := sound.growpower; omega) 2)
    have less := lt_growAt sound.large twice
    have most := sound.growat_le
    have counted := sound.count
    have room := sound.room
    have roomy := spread (2 ^ (k + map.growpower + 4)) (by
      have enough := growAt_le (2 ^ (k + map.growpower + 4))
      rw [Multiset.card_add, Multiset.card_singleton]
      omega)
    rw [new]
    rcases resize_spec alloc map (k + map.growpower) (by omega)
        (roomy.mono (Multiset.le_add_right _ _)) with
      ⟨fails, same⟩ | ⟨buckets, done, settled, content⟩
    · exact .inl ⟨fails, full, same⟩
    · have cap := sound.cap
      exact .inr ⟨_, done, sound.of_resized settled content (by omega) (by omega), content,
        (by omega : map.count < growAt _), rfl⟩
  · have load := sound.load
    exact .inr ⟨map, if_neg full, sound, rfl, by omega, rfl⟩

variable {κ : Type} {key : α → κ} {cb : Callbacks α}

/-- What entries are told apart by. -/
def tag (key : α → κ) (entry : Size × α) : Size × κ := (entry.1, key entry.2)

/-- What `hashmap_set_with_hash` may return and do to the entries. -/
inductive SetDoes (key : α → κ) (alloc : Bool) (map : Hashmap α) (item : α) (hash : Size) :
    Option α → Hashmap α → Prop
  | outOfMemory : alloc = false → map.count = map.growat →
      SetDoes key alloc map item hash none { map with oom := true }
  | inserted {map' : Hashmap α} : map'.oom = false →
      (clipHash hash, key item) ∉ map.entries.map (tag key) →
      map'.entries = map.entries + {(clipHash hash, item)} → SetDoes key alloc map item hash none map'
  | replaced {map' : Hashmap α} {old : α} : map'.oom = false → key old = key item →
      (clipHash hash, old) ∈ map.entries →
      map'.entries + {(clipHash hash, old)} = map.entries + {(clipHash hash, item)} →
      SetDoes key alloc map item hash (some old) map'

theorem hashmapSetWithHash_spec [Inhabited α] (compares : ∀ a b, cb.compare a b = 0 ↔ key a = key b)
    (alloc : Bool) (sound : Sound map) (distinct : (map.entries.map (tag key)).Nodup) (item : α)
    (hash : Size) (spread : Spread (map.entries + {(clipHash hash, item)})) :
    ∃ returned map', hashmapSetWithHash cb alloc map item hash = some (returned, map') ∧ Sound map' ∧
      SetDoes key alloc map item hash returned map' := by
  have grown := grow_spec alloc (sound.of_oom false) spread
  unfold hashmapSetWithHash
  dsimp only at grown ⊢
  rcases grown with ⟨fails, full, same⟩ | ⟨map1, done, sound1, content1, room1, oom1⟩
  · refine ⟨none, { map with oom := true }, ?_, sound.of_oom true, .outOfMemory fails full⟩
    rw [if_pos full, same]
  · rw [done]
    have room := sound1.room
    have same : entries map1.nbuckets map1.buckets = map.entries := content1
    have counted : map1.count = map.entries.card := sound1.count.trans (congrArg _ content1)
    have most := sound1.growat_le
    -- a stored key is replaced where it stands; a new one is put as `resize0` puts it
    by_cases stored : (clipHash hash, key item) ∈ map.entries.map (tag key)
    · obtain ⟨⟨h, stored⟩, mem, is⟩ := Multiset.mem_map.mp stored
      obtain ⟨rfl, keys⟩ := Prod.mk.inj is
      rw [← same] at mem
      obtain ⟨buckets, old, returns, settled, equal, present, content⟩ :=
        setLoop_of_old sound1.masks sound1.two sound1.settled room item mem
          ((compares _ _).mpr keys.symm)
      have replaced : entries map1.nbuckets buckets + {(clipHash hash, old)} =
          map.entries + {(clipHash hash, item)} := by rw [← same]; exact content
      -- the count stays that of the entries
      have cards := congrArg Multiset.card replaced
      simp only [Multiset.card_add, Multiset.card_singleton, Nat.add_right_cancel_iff] at cards
      refine ⟨some old, { map1 with buckets := buckets }, ?_,
        sound1.of_buckets settled (counted.trans cards.symm) room1.le,
        .replaced oom1 ((compares _ _).mp equal).symm (by rw [← same]; exact present) replaced⟩
      dsimp only
      rw [returns]
    · have new : ((entries map1.nbuckets map1.buckets + {(clipHash hash, item)}).map
          fun e => (e.1, key e.2)).Nodup := by
        rw [same, Multiset.map_add, Multiset.map_singleton, Multiset.nodup_add]
        exact ⟨distinct, Multiset.nodup_singleton _, Multiset.disjoint_singleton.mpr stored⟩
      have roomy := spread map1.nbuckets (by
        rw [Multiset.card_add, Multiset.card_singleton]
        omega)
      rw [← same] at roomy
      obtain ⟨buckets, done, settled, content⟩ :=
        resizeEntry_spec sound1.masks sound1.two sound1.settled (clipHash hash) item room roomy
      have inserted : entries map1.nbuckets buckets = map.entries + {(clipHash hash, item)} := by
        rw [← same]; exact content
      have inside : (clipHash hash).toNat &&& map1.mask < map1.nbuckets := by
        rw [sound1.masks]
        exact Nat.mod_lt _ (by have := sound1.two; omega)
      refine ⟨none, { map1 with buckets := buckets, count := map1.count + 1 }, ?_,
        sound1.of_buckets settled ?_ room1, .inserted oom1 stored inserted⟩
      · dsimp only
        rw [setLoop_of_new sound1.masks compares inside new, done]
        rfl
      · rw [inserted, Multiset.card_add, Multiset.card_singleton, counted]

/-! ### Getting -/

/-- The search of `hashmap_get_with_hash` and `hashmap_delete_with_hash`. -/
theorem find_spec (compares : ∀ a b, cb.compare a b = 0 ↔ key a = key b) (sound : Sound map)
    (wanted : α) (hash : Size) :
    (findLoop cb map.mask wanted hash map.buckets map.nbuckets (hash.toNat &&& map.mask) = some none ∧
      (hash, key wanted) ∉ map.entries.map (tag key)) ∨
    ∃ i < map.nbuckets, findLoop cb map.mask wanted hash map.buckets map.nbuckets
        (hash.toNat &&& map.mask) = some (some i) ∧ (map.buckets i).dib ≠ 0 ∧
      (map.buckets i).kept ∈ map.entries ∧ (map.buckets i).hash = hash ∧
      key wanted = key (map.buckets i).item := by
  rcases findLoop_spec sound.masks cb wanted hash sound.settled sound.room with
    ⟨returns, misses⟩ | ⟨i, inside, returns, stands, same, equal⟩
  · refine .inl ⟨returns, fun mem => ?_⟩
    obtain ⟨e, mem, is⟩ := Multiset.mem_map.mp mem
    obtain ⟨same, keys⟩ := Prod.mk.inj is
    exact misses e mem same ((compares _ _).mpr keys.symm)
  · exact .inr ⟨i, inside, returns, mt dib_eq_zero.mp stands,
      mem_content.mpr ⟨i, inside, stands, rfl⟩, same, (compares _ _).mp equal⟩

theorem hashmapGetWithHash_spec (compares : ∀ a b, cb.compare a b = 0 ↔ key a = key b)
    (sound : Sound map) (wanted : α) (hash : Size) :
    (hashmapGetWithHash cb map wanted hash = some none ∧
      (clipHash hash, key wanted) ∉ map.entries.map (tag key)) ∨
    ∃ item, hashmapGetWithHash cb map wanted hash = some (some item) ∧
      (clipHash hash, item) ∈ map.entries ∧ key wanted = key item := by
  rcases find_spec compares sound wanted (clipHash hash) with
    ⟨returns, none⟩ | ⟨i, -, returns, -, mem, same, keys⟩
  · refine .inl ⟨?_, none⟩
    rw [hashmapGetWithHash, returns]
    rfl
  · refine .inr ⟨(map.buckets i).item, ?_, ?_, keys⟩
    · rw [hashmapGetWithHash, returns]
      rfl
    · rwa [← same]

/-! ### Deleting -/

/-- The inner loop of `hashmap_delete_with_hash`. -/
theorem shiftLoop_spec {mask i : ℕ} (masks : ∀ i, i &&& mask = i % n) (two : 2 ≤ n)
    (settled : Settled n home (cells buckets)) (room : (entries n buckets).card < n) (inside : i < n)
    (taken : (buckets i).dib ≠ 0) :
    ∃ buckets', shiftLoop mask n i (Function.update buckets i { buckets i with dib := 0 }) =
        some buckets' ∧
      Settled n home (cells buckets') ∧ entries n buckets' + {(buckets i).kept} = entries n buckets := by
  have index : (i + n - 1 + 1) % n = i := by
    rw [show i + n - 1 + 1 = i + n by omega, Nat.add_mod_right, Nat.mod_eq_of_lt inside]
  have apart : (i + 1) &&& mask ≠ i := by
    rw [masks]
    have next := succ_mod_ne two i
    rwa [Nat.mod_eq_of_lt inside] at next
  -- the first empty bucket is another one
  obtain ⟨m, below, empty⟩ := exists_empty_ahead room i
  obtain ⟨m, rfl⟩ : ∃ k, m = k + 1 := by
    refine Nat.exists_eq_add_one_of_ne_zero fun zero => ?_
    rw [zero, Nat.add_zero, Nat.mod_eq_of_lt inside] at empty
    exact taken (dib_eq_zero.mpr empty)
  have ahead : (i + n - 1 + 2 + m) % n = (i + (m + 1)) % n := by
    rw [show i + n - 1 + 2 + m = i + (m + 1) + n by omega, Nat.add_mod_right]
  rw [← ahead] at empty
  have closed := shiftLoop_close (p := i + n - 1) masks two settled (by rwa [index]) empty (by omega)
    (by omega : m < n)
  rw [index] at closed
  rw [shiftLoop_update apart]
  exact closed

/-- A table that is almost empty may be halved; it does not matter whether this fails. -/
theorem shrink_spec [Inhabited α] (alloc : Bool) (sound : Sound map) {entry : Size × α}
    (spread : Spread (map.entries + {entry})) (above : map.nbuckets > map.cap)
    (few : map.count ≤ map.shrinkat) :
    ∃ answer map', resize alloc map (map.nbuckets / 2) = some (answer, map') ∧ Sound map' ∧
      map'.entries = map.entries ∧ map'.oom = map.oom := by
  obtain ⟨k, is⟩ := sound.power
  obtain ⟨c, capIs⟩ := sound.capPower
  -- `cap` is a smaller power of two, so half of the buckets are still enough
  have less : c < k := by
    rw [is, capIs] at above
    have := (Nat.pow_lt_pow_iff_right Nat.one_lt_two).mp above
    omega
  obtain ⟨k, rfl⟩ : ∃ j, k = j + 1 := ⟨k - 1, by omega⟩
  have half : map.nbuckets / 2 = 2 ^ (k + 4) := by
    rw [is, Nat.add_right_comm, Nat.pow_succ, Nat.mul_div_cancel _ Nat.two_pos]
  have cap : map.cap ≤ 2 ^ (k + 4) := by
    rw [capIs]
    exact Nat.pow_le_pow_right Nat.two_pos (by omega)
  have bounds := shrinkAt_lt sound.large
  have shrinkat := sound.shrinkat
  have counted := sound.count
  rw [half] at bounds ⊢
  have roomy := spread (2 ^ (k + 4)) (by
    rw [Multiset.card_add, Multiset.card_singleton]
    omega)
  rcases resize_spec alloc map k (by omega) (roomy.mono (Multiset.le_add_right _ _)) with
    ⟨-, same⟩ | ⟨buckets, done, settled, content⟩
  · exact ⟨_, _, same, sound, rfl, rfl⟩
  · exact ⟨_, _, done, sound.of_resized settled content cap (by omega), content, rfl⟩

/-- What `hashmap_delete_with_hash` may return and do to the entries. -/
inductive DeleteDoes (key : α → κ) (map : Hashmap α) (wanted : α) (hash : Size) :
    Option α → Hashmap α → Prop
  | missed : (clipHash hash, key wanted) ∉ map.entries.map (tag key) →
      DeleteDoes key map wanted hash none { map with oom := false }
  | deleted {map' : Hashmap α} {item : α} : map'.oom = false → key item = key wanted →
      map'.entries + {(clipHash hash, item)} = map.entries →
      DeleteDoes key map wanted hash (some item) map'

theorem hashmapDeleteWithHash_spec [Inhabited α] (compares : ∀ a b, cb.compare a b = 0 ↔ key a = key b)
    (alloc : Bool) (sound : Sound map) (wanted : α) (hash : Size) (spread : Spread map.entries) :
    ∃ returned map', hashmapDeleteWithHash cb alloc map wanted hash = some (returned, map') ∧
      Sound map' ∧ DeleteDoes key map wanted hash returned map' := by
  unfold hashmapDeleteWithHash
  dsimp only
  rcases find_spec compares sound wanted (clipHash hash) with
    ⟨returns, none⟩ | ⟨i, inside, returns, taken, -, same, keys⟩
  · refine ⟨_, _, ?_, sound.of_oom false, .missed none⟩
    rw [returns]
  · rw [returns]
    dsimp only
    obtain ⟨buckets, done, settled, content⟩ :=
      shiftLoop_spec sound.masks sound.two sound.settled sound.room inside taken
    have kept : (map.buckets i).kept = (clipHash hash, (map.buckets i).item) := Prod.ext same rfl
    rw [kept] at content
    have cards := congrArg Multiset.card content
    rw [Multiset.card_add, Multiset.card_singleton] at cards
    have counted : map.count = (entries map.nbuckets map.buckets).card := sound.count
    have load := sound.load
    let map' : Hashmap α := { map with oom := false, buckets := buckets, count := map.count - 1 }
    -- the table as it is before it may be halved
    have fewer : map.count - 1 = (entries map.nbuckets buckets).card := by omega
    have sound' : Sound map' := (sound.of_oom false).of_buckets settled fewer (by dsimp only; omega)
    have content' : map'.entries + {(clipHash hash, (map.buckets i).item)} = map.entries := content
    rw [done]
    dsimp only
    by_cases shrinks : map.nbuckets > map.cap ∧ map.count - 1 ≤ map.shrinkat
    · rw [if_pos shrinks]
      rw [← content'] at spread
      obtain ⟨answer, map'', halved, sound'', same', oom⟩ :=
        shrink_spec alloc sound' spread shrinks.1 shrinks.2
      refine ⟨_, map'', ?_, sound'', .deleted oom keys.symm (by rw [same', content'])⟩
      exact congrArg (Option.map _) halved
    · rw [if_neg shrinks]
      exact ⟨_, map', rfl, sound', .deleted rfl keys.symm content'⟩

/-! ### Clearing -/

/-- The entries in the order of their buckets. -/
def listed (n : ℕ) (buckets : ℕ → Bucket α) : List (Size × α) :=
  (List.range n).filterMap fun i => if (buckets i).dib = 0 then none else some (buckets i).kept

theorem coe_listed (n : ℕ) (buckets : ℕ → Bucket α) :
    (listed n buckets : Multiset (Size × α)) = entries n buckets := by
  induction n with
  | zero => rfl
  | succ n ih =>
    rw [listed, List.range_succ, List.filterMap_append, ← Multiset.coe_add, entries_succ, ← ih]
    congr 1
    by_cases none : (buckets n).dib = 0
    · have empty : (cells buckets n).dib = 0 := dib_eq_zero.mp none
      rw [entries_of_empty empty]
      simp [none]
    · have taken : (cells buckets n).dib ≠ 0 := mt dib_eq_zero.mpr none
      rw [entries_of_ne taken, List.filterMap_cons, if_neg none]
      rfl

theorem map_listed (n : ℕ) (buckets : ℕ → Bucket α) : (listed n buckets).map Prod.snd =
    (List.range n).filterMap fun i => if (buckets i).dib = 0 then none else some (buckets i).item := by
  rw [listed, List.map_filterMap]
  congr 1
  funext i
  by_cases none : (buckets i).dib = 0
  · rw [if_pos none, if_pos none]
    rfl
  · rw [if_neg none, if_neg none]
    rfl

theorem freeElements_eq (frees : cb.elfree = true) (map : Hashmap α) :
    freeElements cb map = (listed map.nbuckets map.buckets).map Prod.snd := by
  rw [freeElements, if_pos frees, map_listed]

/-- No entry is left. -/
theorem hashmapClear_spec [Inhabited α] (cb : Callbacks α) (sound : Sound map) (updateCap : Bool) :
    Sound (hashmapClear cb map updateCap).2 ∧ (hashmapClear cb map updateCap).2.entries = 0 := by
  refine ⟨?_, ?_⟩
  -- both ways of clearing leave zeroed buckets, as many as one of the two sizes says
  · have cleared (n c : ℕ) (power : ∃ k, n = 2 ^ (k + 4)) (capPower : ∃ k, c = 2 ^ (k + 4))
      (cap : c ≤ n) :
        Sound { map with
          cap := c, nbuckets := n, count := 0, buckets := fun _ => (Bucket.zero : Bucket α),
          mask := n - 1, growat := n * 3 / 4, shrinkat := shrinkAt n } :=
      ⟨power, capPower, cap, rfl, settled_zero _, (congrArg Multiset.card (entries_zero n)).symm,
        Nat.zero_le _, .inr rfl, rfl, sound.growpower⟩
    cases updateCap with
    | false => exact cleared _ _ sound.capPower sound.capPower (Nat.le_refl _)
    | true => exact cleared _ _ sound.power sound.power (Nat.le_refl _)
  · exact entries_zero _

end GhettoRedis.Table
