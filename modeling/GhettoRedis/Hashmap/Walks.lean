import GhettoRedis.Hashmap.Table
import GhettoRedis.Lib.RobinHood

/-!
# Walks over the buckets

What the loops of `hashmap.c` do to buckets that are settled: a search comes to the key or to an
empty bucket, an entry is put where it is found again, and a gap is closed.
-/
namespace GhettoRedis.Table

open Lib RobinHood

variable {α : Type} {n mask p m fuel i : ℕ} {buckets : ℕ → Bucket α} {entry bucket : Bucket α}

/-! ### Buckets as cells -/

def Bucket.kept (bucket : Bucket α) : Size × α := (bucket.hash, bucket.item)

def Bucket.cell (bucket : Bucket α) : Cell (Size × α) := ⟨bucket.dib.toNat, bucket.kept⟩

def cells (buckets : ℕ → Bucket α) (i : ℕ) : Cell (Size × α) := (buckets i).cell

/-- Modulo the number of buckets. -/
def home (entry : Size × α) : ℕ := entry.1.toNat

/-- The hashes and items in `n` buckets. -/
def entries (n : ℕ) (buckets : ℕ → Bucket α) : Multiset (Size × α) := content n (cells buckets)

/-- What can be stored in a `dib`. -/
abbrev maxDib : ℕ := 65535

theorem cells_update (buckets : ℕ → Bucket α) (i : ℕ) (bucket : Bucket α) :
    cells (Function.update buckets i bucket) = Function.update (cells buckets) i bucket.cell := by
  funext j
  by_cases same : j = i <;> simp [cells, Function.update, same]

theorem dib_eq_zero : bucket.dib = 0 ↔ bucket.cell.dib = 0 := by
  rw [← BitVec.toNat_inj]
  rfl

theorem next_index (masks : ∀ i, i &&& mask = i % n) (p : ℕ) :
    (p % n + 1) &&& mask = (p + 1) % n := by
  rw [masks, Nat.mod_add_mod]

/-! ### Searching -/

/-- The bucket of the key. -/
def Hit (cb : Callbacks α) (key : α) (hash : Size) (bucket : Bucket α) : Prop :=
  bucket.hash = hash ∧ cb.compare key bucket.item = 0

theorem findLoop_walk (masks : ∀ i, i &&& mask = i % n) (cb : Callbacks α) (key : α) (hash : Size)
    (empty : (cells buckets ((p + m) % n)).dib = 0) (enough : m < fuel) :
    (findLoop cb mask key hash buckets fuel (p % n) = some none ∧
      ∃ j, (cells buckets ((p + j) % n)).dib = 0 ∧ ∀ i < j, ¬ Hit cb key hash (buckets ((p + i) % n))) ∨
    ∃ j, findLoop cb mask key hash buckets fuel (p % n) = some (some ((p + j) % n)) ∧
      (cells buckets ((p + j) % n)).dib ≠ 0 ∧ Hit cb key hash (buckets ((p + j) % n)) := by
  induction fuel generalizing p m with
  | zero => omega
  | succ fuel ih =>
    rw [findLoop]
    by_cases here : (buckets (p % n)).dib = 0
    · exact .inl ⟨if_pos here, 0, dib_eq_zero.mp here, by simp⟩
    · rw [if_neg here]
      by_cases hit : (buckets (p % n)).hash = hash ∧ cb.compare key (buckets (p % n)).item = 0
      · exact .inr ⟨0, if_pos hit, mt dib_eq_zero.mpr here, hit⟩
      · rw [if_neg hit, next_index masks]
        -- the empty bucket lies farther on
        obtain ⟨m, rfl⟩ : ∃ k, m = k + 1 := by
          refine Nat.exists_eq_add_one_of_ne_zero fun zero => ?_
          rw [zero] at empty
          exact here (dib_eq_zero.mpr empty)
        rcases @ih (p + 1) m (by rwa [Nat.add_assoc, Nat.add_comm 1 m]) (by omega) with
          ⟨returns, j, ends, misses⟩ | ⟨j, returns, some, hits⟩
        · refine .inl ⟨returns, j + 1, by rwa [Nat.add_comm j 1, ← Nat.add_assoc], ?_⟩
          intro i lt
          cases i with
          | zero => exact hit
          | succ i =>
            rw [Nat.add_comm i 1, ← Nat.add_assoc]
            exact misses i (by omega)
        · refine .inr ⟨j + 1, ?_⟩
          rw [Nat.add_comm j 1, ← Nat.add_assoc]
          exact ⟨returns, some, hits⟩

/-- The search finds the bucket of the key, or there is none. -/
theorem findLoop_spec (masks : ∀ i, i &&& mask = i % n) (cb : Callbacks α) (key : α) (hash : Size)
    (settled : Settled n home (cells buckets)) (room : (entries n buckets).card < n) :
    (findLoop cb mask key hash buckets n (hash.toNat &&& mask) = some none ∧
      ∀ e ∈ entries n buckets, e.1 = hash → cb.compare key e.2 ≠ 0) ∨
    ∃ i < n, findLoop cb mask key hash buckets n (hash.toNat &&& mask) = some (some i) ∧
      (cells buckets i).dib ≠ 0 ∧ Hit cb key hash (buckets i) := by
  obtain ⟨m, below, empty⟩ := exists_empty_ahead room hash.toNat
  rw [masks]
  rcases findLoop_walk masks cb key hash empty below with
    ⟨returns, j, ends, misses⟩ | ⟨j, returns, some, hits⟩
  · refine .inl ⟨returns, fun e mem same equal => ?_⟩
    obtain ⟨i, inside, stands, rfl⟩ := mem_content.mp mem
    obtain ⟨steps, dib⟩ := Nat.exists_eq_add_one_of_ne_zero stands
    have index : i % n = i := Nat.mod_eq_of_lt inside
    rw [← index] at dib
    obtain ⟨arrives, onTheWay⟩ := settled.path dib
    have start : home (cells buckets (i % n)).entry = hash.toNat := by rw [index, home, same]
    rw [start] at arrives onTheWay
    -- the walk has come by, since no bucket on the way is empty
    have before : steps < j := by
      by_contra later
      have := onTheWay j (by omega)
      omega
    apply misses steps before
    rw [arrives, index]
    exact ⟨same, equal⟩
  · exact .inr ⟨_, Nat.mod_lt _ (by omega), returns, some, hits⟩

/-! ### Putting an entry -/

theorem place_content (buckets : ℕ → Bucket α) (inside : i < n) (some : entry.dib ≠ 0) :
    entries n (Function.update buckets i entry) + (cells buckets i).entries =
      entries n buckets + {entry.kept} := by
  rw [entries, cells_update, content_update _ inside, entries_of_ne (mt dib_eq_zero.mpr some)]
  rfl

theorem toNat_succ {dib : BitVec 16} (fits : dib.toNat + 1 ≤ maxDib) :
    (dib + 1).toNat = dib.toNat + 1 := by
  rw [BitVec.toNat_add]
  exact Nat.mod_eq_of_lt (Nat.lt_succ_of_le fits)

theorem toNat_pred {dib : BitVec 16} (positive : 1 ≤ dib.toNat) : (dib - 1).toNat = dib.toNat - 1 := by
  have := dib.isLt
  rw [BitVec.toNat_sub]
  show (2 ^ 16 - 1 + dib.toNat) % 2 ^ 16 = _
  omega

/-- `resize0` puts an entry where it belongs, within a turn. -/
theorem resizeEntry_place (masks : ∀ i, i &&& mask = i % n) (two : 2 ≤ n)
    (settled : Settled n home (cells buckets))
    (carried : Carried n home (cells buckets) entry.kept entry.dib.toNat p)
    (room : (entries n buckets).card < n)
    (roomy : Roomy maxDib n home (entries n buckets + {entry.kept}))
    (empty : (cells buckets ((p + 1 + m) % n)).dib = 0) (below : m < n) (enough : m < fuel) :
    ∃ buckets', resizeEntry mask fuel ((p + 1) % n) entry buckets = some buckets' ∧
      Settled n home (cells buckets') ∧ entries n buckets' = entries n buckets + {entry.kept} := by
  induction fuel generalizing p m entry buckets with
  | zero => omega
  | succ fuel ih =>
    have inside : (p + 1) % n < n := Nat.mod_lt _ (by omega)
    have stored : entry.dib ≠ 0 := mt dib_eq_zero.mp carried.pos.ne'
    have placed := place_content buckets inside stored
    rw [resizeEntry]
    by_cases free : (buckets ((p + 1) % n)).dib = 0
    · have gone : (cells buckets ((p + 1) % n)).dib = 0 := dib_eq_zero.mp free
      refine ⟨_, if_pos free, ?_, ?_⟩
      · rw [cells_update]
        exact settled.place two carried (gone.le.trans (Nat.zero_le _))
      · rwa [entries_of_empty gone, Multiset.add_zero] at placed
    · rw [if_neg free, next_index masks]
      have taken : (cells buckets ((p + 1) % n)).dib ≠ 0 := mt dib_eq_zero.mpr free
      -- the empty bucket lies farther on, and is not the one that is changed here
      obtain ⟨m, rfl⟩ : ∃ k, m = k + 1 := by
        refine Nat.exists_eq_add_one_of_ne_zero fun zero => taken ?_
        rwa [zero] at empty
      have ahead : p + 1 + (m + 1) = p + 1 + 1 + m := by omega
      rw [ahead] at empty
      have apart : (p + 1 + 1 + m) % n ≠ (p + 1) % n :=
        (mod_ne_of_lt (by omega) (by omega)).symm
      -- in both cases an entry goes on to the next bucket, one step farther from its home
      by_cases nearer : (buckets ((p + 1) % n)).dib < entry.dib
      · rw [if_pos nearer]
        let next := Function.update buckets ((p + 1) % n) entry
        let out := buckets ((p + 1) % n)
        rw [entries_of_ne taken] at placed
        have whole : entries n next + {out.kept} = entries n buckets + {entry.kept} := placed
        have settled' : Settled n home (cells next) := by
          rw [cells_update]
          exact settled.place two carried nearer.le
        have carried' : Carried n home (cells next) out.kept (out.dib.toNat + 1) (p + 1) := by
          rw [cells_update]
          exact settled.swap taken nearer.le _
        have room' : (entries n next).card < n := by
          have cards := congrArg Multiset.card whole
          simp only [Multiset.card_add, Multiset.card_singleton, Nat.add_right_cancel_iff] at cards
          omega
        rw [← whole] at roomy
        have fits := carried'.le_bound settled' room' (by decide) roomy
        rw [← toNat_succ fits] at carried'
        obtain ⟨buckets', returns, settled'', content⟩ := @ih (p + 1) m next
          { out with dib := out.dib + 1 } settled' carried' room' roomy
          (by rw [cells_update, Function.update_of_ne apart]; exact empty) (by omega) (by omega)
        exact ⟨buckets', returns, settled'', content.trans whole⟩
      · rw [if_neg nearer]
        have carried' := carried.pass (Nat.le_of_not_lt nearer)
        have fits := carried'.le_bound settled room (by decide) roomy
        rw [← toNat_succ fits] at carried'
        exact @ih (p + 1) m buckets { entry with dib := entry.dib + 1 } settled carried' room roomy
          empty (by omega) (by omega)

/-- An entry whose key is in no bucket is put by `hashmap_set_with_hash` as by `resize0`. -/
theorem setLoop_of_new (masks : ∀ i, i &&& mask = i % n) {κ : Type} {key : α → κ} {cb : Callbacks α}
    (compares : ∀ a b, cb.compare a b = 0 ↔ key a = key b) (inside : i < n)
    (new : ((entries n buckets + {entry.kept}).map fun e => (e.1, key e.2)).Nodup) :
    setLoop cb mask fuel i entry buckets =
      (resizeEntry mask fuel i entry buckets).map fun buckets => (buckets, none) := by
  induction fuel generalizing i entry buckets with
  | zero => rfl
  | succ fuel ih =>
    rw [setLoop, resizeEntry]
    by_cases free : (buckets i).dib = 0
    · rw [if_pos free, if_pos free]
      rfl
    · have taken : (cells buckets i).dib ≠ 0 := mt dib_eq_zero.mpr free
      have here : (buckets i).kept ∈ entries n buckets := mem_content.mpr ⟨i, inside, taken, rfl⟩
      -- a bucket with this hash and key would be there twice
      have miss : ¬ (entry.hash = (buckets i).hash ∧ cb.compare entry.item (buckets i).item = 0) := by
        rintro ⟨same, equal⟩
        rw [Multiset.map_add, Multiset.map_singleton, Multiset.nodup_add] at new
        refine Multiset.disjoint_singleton.mp new.2.2 (Multiset.mem_map.mpr ⟨_, here, ?_⟩)
        exact Prod.ext same.symm ((compares _ _).mp equal).symm
      have next : (i + 1) &&& mask < n := by
        rw [masks]
        exact Nat.mod_lt _ (by omega)
      rw [if_neg free, if_neg miss, if_neg free]
      by_cases nearer : (buckets i).dib < entry.dib
      · rw [if_pos nearer, if_pos nearer]
        apply ih next
        -- the two entries have changed places
        have stored : entry.dib ≠ 0 := by
          rintro zero
          rw [zero] at nearer
          exact BitVec.not_lt_zero nearer
        have whole := place_content buckets inside stored
        rw [entries_of_ne taken] at whole
        rwa [← whole] at new
      · rw [if_neg nearer, if_neg nearer]
        exact ih next new

/-! ### Replacing an item -/

/-- The loop of `hashmap_set_with_hash` passes what is as far from home as the entry itself. -/
theorem setLoop_walk (masks : ∀ i, i &&& mask = i % n) {cb : Callbacks α} (stored : entry.dib ≠ 0)
    (ahead : ∀ i ≤ m, entry.dib.toNat + i ≤ (cells buckets ((p + i) % n)).dib)
    (misses : ∀ i < m, ¬ Hit cb entry.item entry.hash (buckets ((p + i) % n)))
    (hit : Hit cb entry.item entry.hash (buckets ((p + m) % n))) (enough : m < fuel) :
    setLoop cb mask fuel (p % n) entry buckets =
      some (Function.update buckets ((p + m) % n) { buckets ((p + m) % n) with item := entry.item },
        some (buckets ((p + m) % n)).item) := by
  induction fuel generalizing p m entry with
  | zero => omega
  | succ fuel ih =>
    have positive : entry.dib.toNat ≠ 0 := mt dib_eq_zero.mpr stored
    have here : entry.dib.toNat ≤ (buckets (p % n)).dib.toNat := ahead 0 (Nat.zero_le m)
    have taken : (buckets (p % n)).dib ≠ 0 := by
      refine mt dib_eq_zero.mp ?_
      show (buckets (p % n)).dib.toNat ≠ 0
      omega
    rw [setLoop, if_neg taken]
    cases m with
    | zero => exact if_pos ⟨hit.1.symm, hit.2⟩
    | succ m =>
      have miss : ¬ (entry.hash = (buckets (p % n)).hash ∧
          cb.compare entry.item (buckets (p % n)).item = 0) :=
        fun both => misses 0 (Nat.succ_pos m) ⟨both.1.symm, both.2⟩
      have passes : ¬ (buckets (p % n)).dib < entry.dib := Nat.not_lt.mpr here
      rw [if_neg miss, if_neg passes, next_index masks]
      -- the next bucket has room for the larger `dib`
      have farther : entry.dib.toNat + 1 ≤ maxDib :=
        (ahead 1 (by omega)).trans (Nat.le_of_lt_succ (BitVec.isLt _))
      have next := toNat_succ farther
      have step (i : ℕ) : p + 1 + i = p + (i + 1) := by omega
      have along := @ih (p + 1) m { entry with dib := entry.dib + 1 } ?_ ?_ ?_ ?_ (by omega)
      · rw [step] at along
        exact along
      · refine mt dib_eq_zero.mp ?_
        show (entry.dib + 1).toNat ≠ 0
        omega
      · intro i le
        show (entry.dib + 1).toNat + i ≤ _
        rw [step, next, Nat.add_assoc, Nat.add_comm 1 i]
        exact ahead (i + 1) (by omega)
      · intro i lt
        rw [step]
        exact misses (i + 1) (by omega)
      · rw [step]
        exact hit

/-- A bucket keeps its place with another item. -/
theorem replace_item (settled : Settled n home (cells buckets)) (two : 2 ≤ n) (inside : i < n)
    (taken : (buckets i).dib ≠ 0) (item : α) :
    Settled n home (cells (Function.update buckets i { buckets i with item := item })) ∧
      entries n (Function.update buckets i { buckets i with item := item }) + {(buckets i).kept} =
        entries n buckets + {((buckets i).hash, item)} := by
  constructor
  · have index : (i + n - 1 + 1) % n = i := by
      rw [show i + n - 1 + 1 = i + n by omega, Nat.add_mod_right, Nat.mod_eq_of_lt inside]
    have replaced := settled.replace (p := i + n - 1) (e := ((buckets i).hash, item)) two
    rw [index] at replaced
    rw [cells_update]
    exact replaced rfl
  · have some : (cells buckets i).dib ≠ 0 := mt dib_eq_zero.mpr taken
    have placed := place_content buckets inside
      (show (⟨(buckets i).hash, (buckets i).dib, item⟩ : Bucket α).dib ≠ 0 from taken)
    rwa [entries_of_ne some] at placed

/-- An item with the key of the entry is replaced. -/
theorem setLoop_of_old (masks : ∀ i, i &&& mask = i % n) (two : 2 ≤ n) {cb : Callbacks α}
    (settled : Settled n home (cells buckets)) (room : (entries n buckets).card < n) (item : α)
    {e : Size × α} (mem : e ∈ entries n buckets) (equal : cb.compare item e.2 = 0) :
    ∃ buckets' old, setLoop cb mask n (e.1.toNat &&& mask) ⟨e.1, 1, item⟩ buckets =
        some (buckets', some old) ∧ Settled n home (cells buckets') ∧ cb.compare item old = 0 ∧
      (e.1, old) ∈ entries n buckets ∧
      entries n buckets' + {(e.1, old)} = entries n buckets + {(e.1, item)} := by
  classical
  obtain ⟨i, inside, stands, rfl⟩ := mem_content.mp mem
  obtain ⟨steps, dib⟩ := Nat.exists_eq_add_one_of_ne_zero stands
  have index : i % n = i := Nat.mod_eq_of_lt inside
  rw [← index] at dib
  obtain ⟨arrives, onTheWay⟩ := settled.path dib
  rw [index] at arrives onTheWay
  let hash : Size := (cells buckets i).entry.1
  have target : Hit cb item hash (buckets ((hash.toNat + steps) % n)) := by
    rw [show (hash.toNat + steps) % n = i from arrives]
    exact ⟨rfl, equal⟩
  -- the first bucket on the way that has the key
  have some : ∃ m, Hit cb item hash (buckets ((hash.toNat + m) % n)) := ⟨steps, target⟩
  let m := Nat.find some
  have hit : Hit cb item hash (buckets ((hash.toNat + m) % n)) := Nat.find_spec some
  have le : m ≤ steps := Nat.find_min' some target
  -- one turn comes by an empty bucket, and there is none on the way
  have below : m < n := by
    obtain ⟨k, turn, empty⟩ := exists_empty_ahead room hash.toNat
    by_contra far
    have occupied : k < (cells buckets ((hash.toNat + k) % n)).dib := onTheWay k (by omega)
    omega
  have ahead (i : ℕ) (le : i ≤ m) : 1 + i ≤ (cells buckets ((hash.toNat + i) % n)).dib := by
    have occupied : i < (cells buckets ((hash.toNat + i) % n)).dib := onTheWay i (by omega)
    omega
  have taken : (buckets ((hash.toNat + m) % n)).dib ≠ 0 := by
    have occupied := ahead m (Nat.le_refl m)
    refine mt dib_eq_zero.mp ?_
    show (cells buckets ((hash.toNat + m) % n)).dib ≠ 0
    omega
  have stored : (⟨hash, 1, item⟩ : Bucket α).dib ≠ 0 := show (1 : BitVec 16) ≠ 0 by decide
  have walk := setLoop_walk masks stored ahead (fun i lt => Nat.find_min some lt) hit below
  obtain ⟨settled', content⟩ := replace_item settled two (Nat.mod_lt _ (by omega)) taken item
  rw [← masks] at walk
  rw [Bucket.kept, hit.1] at content
  have mem : (buckets ((hash.toNat + m) % n)).kept ∈ entries n buckets :=
    mem_content.mpr ⟨_, Nat.mod_lt _ (by omega), mt dib_eq_zero.mpr taken, rfl⟩
  refine ⟨_, _, walk, settled', hit.2, ?_, content⟩
  rwa [Bucket.kept, hit.1] at mem

/-! ### Closing a gap -/

/-- The `dib` of the bucket that is closed is not read. -/
theorem shiftLoop_update (apart : (i + 1) &&& mask ≠ i) (dib : BitVec 16) :
    shiftLoop mask fuel i (Function.update buckets i { buckets i with dib := dib }) =
      shiftLoop mask fuel i buckets := by
  cases fuel with
  | zero => rfl
  | succ fuel =>
    rw [shiftLoop, shiftLoop, Function.update_of_ne apart, Function.update_self]
    simp only [Function.update_idem]

/-- `hashmap_delete_with_hash` closes the gap: what was in the bucket is gone, and nothing
else. Until a bucket is emptied, it and the next one hold the same entry. -/
theorem shiftLoop_close (masks : ∀ i, i &&& mask = i % n) (two : 2 ≤ n)
    (settled : Settled n home (cells buckets)) (taken : (buckets ((p + 1) % n)).dib ≠ 0)
    (empty : (cells buckets ((p + 2 + m) % n)).dib = 0) (below : m + 1 < n) (enough : m < fuel) :
    ∃ buckets', shiftLoop mask fuel ((p + 1) % n) buckets = some buckets' ∧
      Settled n home (cells buckets') ∧
      entries n buckets' + {(buckets ((p + 1) % n)).kept} = entries n buckets := by
  induction fuel generalizing p m buckets with
  | zero => omega
  | succ fuel ih =>
    have inside : (p + 1) % n < n := Nat.mod_lt _ (by omega)
    have some : (cells buckets ((p + 1) % n)).dib ≠ 0 := mt dib_eq_zero.mpr taken
    rw [shiftLoop, next_index masks]
    -- the gap is closed for good only before an entry that is not away from its home
    by_cases atHome : (buckets ((p + 2) % n)).dib ≤ 1
    · refine ⟨_, if_pos atHome, ?_, ?_⟩
      · rw [cells_update]
        exact settled.vacate two atHome _
      · have emptied := content_update (cells buckets) inside
          ({ buckets ((p + 1) % n) with dib := 0 } : Bucket α).cell
        rw [entries_of_ne some, entries_of_empty rfl, Multiset.add_zero, ← cells_update] at emptied
        exact emptied
    · have away : 2 ≤ (cells buckets ((p + 2) % n)).dib := Nat.lt_of_not_le atHome
      -- the next bucket is occupied, so the empty one lies farther on
      obtain ⟨m, rfl⟩ : ∃ k, m = k + 1 := by
        refine Nat.exists_eq_add_one_of_ne_zero fun zero => ?_
        rw [zero] at empty
        exact absurd empty (by rw [Nat.add_zero]; omega)
      rw [if_neg atHome]
      let moved : Bucket α := { buckets ((p + 2) % n) with dib := (buckets ((p + 2) % n)).dib - 1 }
      let next := Function.update buckets ((p + 1) % n) moved
      have less : moved.dib.toNat = (cells buckets ((p + 2) % n)).dib - 1 :=
        toNat_pred (show 1 ≤ (cells buckets ((p + 2) % n)).dib by omega)
      have stored : moved.dib ≠ 0 := by
        refine mt dib_eq_zero.mp ?_
        show moved.dib.toNat ≠ 0
        omega
      have settled' : Settled n home (cells next) := by
        have up := settled.moveUp two away
        rw [← less] at up
        rw [cells_update]
        exact up
      have apart : (p + 2) % n ≠ (p + 1) % n := succ_mod_ne two (p + 1)
      have follows : next ((p + 1 + 1) % n) = buckets ((p + 2) % n) := Function.update_of_ne apart _ _
      have empty' : (cells next ((p + 1 + 2 + m) % n)).dib = 0 := by
        have farther : (p + 1 + 2 + m) % n ≠ (p + 1) % n := (mod_ne_of_lt (by omega) (by omega)).symm
        rw [cells_update, Function.update_of_ne farther, show p + 1 + 2 + m = p + 2 + (m + 1) by omega]
        exact empty
      have taken' : (next ((p + 1 + 1) % n)).dib ≠ 0 := by
        rw [follows]
        exact mt dib_eq_zero.mp (show (cells buckets ((p + 2) % n)).dib ≠ 0 by omega)
      obtain ⟨buckets', returns, settled'', content⟩ :=
        @ih (p + 1) m next settled' taken' empty' (by omega) (by omega)
      refine ⟨buckets', returns, settled'', ?_⟩
      -- the entry that moves up is in both of the buckets for now
      have placed := place_content buckets inside stored
      rw [entries_of_ne some] at placed
      rw [follows] at content
      apply add_right_cancel (b := {moved.kept})
      calc entries n buckets' + {(buckets ((p + 1) % n)).kept} + {moved.kept}
          = entries n buckets' + {moved.kept} + {(buckets ((p + 1) % n)).kept} := by abel
        _ = entries n next + {(buckets ((p + 1) % n)).kept} := by rw [← content]; rfl
        _ = entries n buckets + {moved.kept} := placed

end GhettoRedis.Table
