import GhettoRedis.Hashmap.Operations
import GhettoRedis.Lib.Simulation

/-!
# The table as a finite map

What a map is for: it gives back the item that was set last for a hash and a key. The table does
this over any sequence of calls, whatever `malloc` answers, as long as the entries leave the
`dib` of each other room and no size of the buckets wraps; and then every call returns.
-/
namespace GhettoRedis.Table

open Lib RobinHood

variable {α κ : Type}

/-- A call on a map, with what `malloc` answers to it. -/
inductive Call (α : Type) where
  | set (alloc : Bool) (item : α) (hash : Size)
  | get (key : α) (hash : Size)
  | delete (alloc : Bool) (key : α) (hash : Size)
  | clear (updateCap : Bool)
  | setGrowByPower (power : ℕ)
  | count

inductive Answer (α : Type) where
  | item (item : Option α)
  | outOfMemory
  | freed (items : List α)
  | count (count : ℕ)
  | done

/-! ### Finite maps -/

/-- The items of the map, each of them once. -/
def Enumerates (items : List α) (find : Size × κ → Option α) : Prop :=
  ∃ tags : List (Size × κ), tags.Nodup ∧ (∀ t, t ∈ tags ↔ (find t).isSome) ∧
    tags.map find = items.map some

section Answers

variable [DecidableEq κ] (key : α → κ) (elfree : Bool)

/-- How a finite map answers to a call, and what becomes of it. A map that is full stays as it is
when there is no memory. -/
inductive Answers :
    (Size × κ → Option α) → Call α × Answer α → (Size × κ → Option α) → Prop
  | set (find : Size × κ → Option α) (alloc : Bool) (item : α) (hash : Size) :
      Answers find (.set alloc item hash, .item (find (clipHash hash, key item)))
        (Function.update find (clipHash hash, key item) (some item))
  | outOfMemory (find : Size × κ → Option α) (item : α) (hash : Size) :
      Answers find (.set false item hash, .outOfMemory) find
  | get (find : Size × κ → Option α) (wanted : α) (hash : Size) :
      Answers find (.get wanted hash, .item (find (clipHash hash, key wanted))) find
  | delete (find : Size × κ → Option α) (alloc : Bool) (wanted : α) (hash : Size) :
      Answers find (.delete alloc wanted hash, .item (find (clipHash hash, key wanted)))
        (Function.update find (clipHash hash, key wanted) none)
  | clear {find : Size × κ → Option α} {items : List α} (updateCap : Bool) :
      (if elfree then Enumerates items find else items = []) →
      Answers find (.clear updateCap, .freed items) fun _ => none
  | setGrowByPower (find : Size × κ → Option α) (power : ℕ) :
      Answers find (.setGrowByPower power, .done) find
  | count {find : Size × κ → Option α} {items : List α} :
      Enumerates items find → Answers find (.count, .count items.length) find

end Answers

/-! ### The table behind it -/

/-- What a call does to the table. -/
def callMap [Inhabited α] (cb : Callbacks α) (map : Hashmap α) : Call α → Option (Hashmap α × Answer α)
  | .set alloc item hash =>
    (hashmapSetWithHash cb alloc map item hash).map fun (old, map) =>
      (map, if map.oom then .outOfMemory else .item old)
  | .get key hash => (hashmapGetWithHash cb map key hash).map fun found => (map, .item found)
  | .delete alloc key hash =>
    (hashmapDeleteWithHash cb alloc map key hash).map fun (found, map) => (map, .item found)
  | .clear updateCap =>
    let (freed, map) := hashmapClear cb map updateCap
    some (map, .freed freed)
  | .setGrowByPower power => some (hashmapSetGrowByPower map power, .done)
  | .count => some (map, .count map.count)

def machine [Inhabited α] (cb : Callbacks α) : Machine (Hashmap α) (Call α) (Call α × Answer α) where
  step map call := (callMap cb map call).map fun (map, answer) => (map, [(call, answer)])

theorem step_of_call [Inhabited α] {cb : Callbacks α} {map map' : Hashmap α} {call : Call α}
    {answer : Answer α} (returns : callMap cb map call = some (map', answer)) :
    (machine cb).step map call = some (map', [(call, answer)]) := by
  show (callMap cb map call).map _ = _
  rw [returns]
  rfl

/-- A call after which the entries leave the `dib` of each other room. -/
def Fits (map : Hashmap α) : Call α → Prop
  | .set _ item hash => Spread (map.entries + {(clipHash hash, item)})
  | .delete _ _ _ => Spread map.entries
  | _ => True

/-- A call that allocates buckets only in a size that does not wrap: growing is the only way to more
buckets. -/
def Allocates (elsize : ℕ) (map : Hashmap α) : Call α → Prop
  | .set _ _ _ => map.count = map.growat → Sized elsize (map.nbuckets * 2 ^ map.growpower)
  | _ => True

instance (elsize : ℕ) (map : Hashmap α) : DecidablePred (Allocates elsize map)
  | .set _ _ _ => inferInstanceAs (Decidable (_ → _))
  | .get _ _ | .delete _ _ _ | .clear _ | .setGrowByPower _ | .count => .isTrue trivial

/-- The entries are those of the finite map, and nothing is there twice. -/
structure Denotes (key : α → κ) (entries : Multiset (Size × α)) (find : Size × κ → Option α) : Prop where
  distinct : (entries.map (tag key)).Nodup
  finds : ∀ t item, find t = some item ↔ (t.1, item) ∈ entries ∧ key item = t.2

namespace Denotes

variable {key : α → κ} {entries : Multiset (Size × α)} {find : Size × κ → Option α} {t : Size × κ}
  {e : Size × α}

theorem empty (key : α → κ) : Denotes key 0 fun _ => none :=
  ⟨Multiset.nodup_zero, by simp⟩

theorem find_eq_none (denotes : Denotes key entries find) (missing : t ∉ entries.map (tag key)) :
    find t = none := by
  refine Option.eq_none_iff_forall_ne_some.mpr fun item found => ?_
  obtain ⟨mem, keys⟩ := (denotes.finds t item).mp found
  exact missing (Multiset.mem_map.mpr ⟨_, mem, Prod.ext rfl keys⟩)

theorem find_tag (denotes : Denotes key entries find) (mem : e ∈ entries) :
    find (tag key e) = some e.2 :=
  (denotes.finds _ e.2).mpr ⟨mem, rfl⟩

theorem isSome_find (denotes : Denotes key entries find) :
    (find t).isSome ↔ t ∈ entries.map (tag key) := by
  constructor
  · intro found
    by_contra missing
    rw [denotes.find_eq_none missing] at found
    cases found
  · intro mem
    obtain ⟨e, stored, rfl⟩ := Multiset.mem_map.mp mem
    rw [denotes.find_tag stored]
    rfl

theorem enumerates {list : List (Size × α)} (denotes : Denotes key list find) :
    Enumerates (list.map Prod.snd) find := by
  refine ⟨list.map (tag key), denotes.distinct, fun t => denotes.isSome_find.symm, ?_⟩
  rw [List.map_map, List.map_map]
  exact List.map_congr_left fun e mem => denotes.find_tag mem

variable [DecidableEq κ]

theorem add (denotes : Denotes key entries find) (new : tag key e ∉ entries.map (tag key)) :
    Denotes key (entries + {e}) (Function.update find (tag key e) (some e.2)) := by
  constructor
  · rw [Multiset.map_add, Multiset.map_singleton, Multiset.nodup_add]
    exact ⟨denotes.distinct, Multiset.nodup_singleton _, Multiset.disjoint_singleton.mpr new⟩
  · intro t item
    rw [Multiset.mem_add, Multiset.mem_singleton]
    by_cases here : t = tag key e
    · rw [here, Function.update_self, Option.some.injEq]
      -- no other entry has the tag of the new one
      constructor
      · rintro rfl
        exact ⟨.inr rfl, rfl⟩
      · rintro ⟨mem | is, keys⟩
        · exact (new (Multiset.mem_map.mpr ⟨_, mem, Prod.ext rfl keys⟩)).elim
        · rw [← is]
    · rw [Function.update_of_ne here, denotes.finds]
      refine and_congr_left fun keys => (or_iff_left ?_).symm
      rintro rfl
      exact here (Prod.ext rfl keys.symm)

theorem remove (denotes : Denotes key (entries + {e}) find) :
    Denotes key entries (Function.update find (tag key e) none) := by
  have both := denotes.distinct
  rw [Multiset.map_add, Multiset.map_singleton, Multiset.nodup_add] at both
  obtain ⟨distinct, -, gone⟩ := both
  refine ⟨distinct, fun t item => ?_⟩
  by_cases here : t = tag key e
  · rw [here, Function.update_self]
    refine iff_of_false nofun ?_
    rintro ⟨mem, keys⟩
    exact Multiset.disjoint_singleton.mp gone (Multiset.mem_map.mpr ⟨_, mem, Prod.ext rfl keys⟩)
  · rw [Function.update_of_ne here, denotes.finds, Multiset.mem_add, Multiset.mem_singleton]
    refine and_congr_left fun keys => or_iff_left ?_
    rintro rfl
    exact here (Prod.ext rfl keys.symm)

/-- An entry takes the place of another one with its hash and key. -/
theorem replace {entries' : Multiset (Size × α)} {e' : Size × α} (denotes : Denotes key entries find)
    (mem : e ∈ entries) (same : tag key e' = tag key e) (swapped : entries' + {e} = entries + {e'}) :
    Denotes key entries' (Function.update find (tag key e') (some e'.2)) := by
  obtain ⟨rest, rfl⟩ := Multiset.exists_cons_of_mem mem
  rw [← Multiset.singleton_add, add_comm {e} rest] at denotes swapped
  obtain rfl : entries' = rest + {e'} := by
    rw [add_right_comm] at swapped
    exact add_right_cancel swapped
  -- the old entry goes first, so that the new one is alone with its tag
  have removed := denotes.remove
  have gone : tag key e' ∉ rest.map (tag key) := by
    rw [same, ← removed.isSome_find, Function.update_self]
    exact nofun
  have added := removed.add gone
  rwa [same, Function.update_idem, ← same] at added

end Denotes

/-- The table holds what the finite map has. -/
structure Stores (key : α → κ) (map : Hashmap α) (find : Size × κ → Option α) : Prop where
  sound : Sound map
  denotes : Denotes key map.entries find

namespace Stores

variable {key : α → κ} {cb : Callbacks α} {map : Hashmap α} {find : Size × κ → Option α}

theorem get (compares : ∀ a b, cb.compare a b = 0 ↔ key a = key b) (stores : Stores key map find)
    (wanted : α) (hash : Size) :
    hashmapGetWithHash cb map wanted hash = some (find (clipHash hash, key wanted)) := by
  rcases hashmapGetWithHash_spec compares stores.sound wanted hash with
    ⟨returns, missing⟩ | ⟨item, returns, mem, keys⟩
  · rw [returns, stores.denotes.find_eq_none missing]
  · rw [returns, (stores.denotes.finds _ item).mpr ⟨mem, keys.symm⟩]

variable [Inhabited α] [DecidableEq κ]

/-- The item is stored, or the table is full and stays as it is. -/
theorem set (compares : ∀ a b, cb.compare a b = 0 ↔ key a = key b) (stores : Stores key map find)
    (alloc : Bool) (item : α) (hash : Size) (fits : Spread (map.entries + {(clipHash hash, item)})) :
    ∃ old map', hashmapSetWithHash cb alloc map item hash = some (old, map') ∧
      ((map'.oom = false ∧ old = find (clipHash hash, key item) ∧
          Stores key map' (Function.update find (clipHash hash, key item) (some item))) ∨
        map'.oom = true ∧ alloc = false ∧ old = none ∧ Stores key map' find) := by
  obtain ⟨old, map', returns, sound, does⟩ :=
    hashmapSetWithHash_spec compares alloc stores.sound stores.denotes.distinct item hash fits
  refine ⟨old, map', returns, ?_⟩
  cases does with
  | outOfMemory fails => exact .inr ⟨rfl, fails, rfl, sound, stores.denotes⟩
  | inserted oom missing content =>
    refine .inl ⟨oom, (stores.denotes.find_eq_none missing).symm, sound, ?_⟩
    rw [content]
    exact stores.denotes.add missing
  | @replaced _ old oom keys present content =>
    have found : find (clipHash hash, key item) = some old :=
      (stores.denotes.finds _ _).mpr ⟨present, keys⟩
    have same : tag key (clipHash hash, item) = tag key (clipHash hash, old) := Prod.ext rfl keys.symm
    exact .inl ⟨oom, found.symm, sound, stores.denotes.replace present same content⟩

theorem delete (compares : ∀ a b, cb.compare a b = 0 ↔ key a = key b) (stores : Stores key map find)
    (alloc : Bool) (wanted : α) (hash : Size) (fits : Spread map.entries) :
    ∃ map', hashmapDeleteWithHash cb alloc map wanted hash =
        some (find (clipHash hash, key wanted), map') ∧
      Stores key map' (Function.update find (clipHash hash, key wanted) none) := by
  obtain ⟨found, map', returns, sound, does⟩ :=
    hashmapDeleteWithHash_spec compares alloc stores.sound wanted hash fits
  refine ⟨map', ?_⟩
  -- a key that is missing is missing in the finite map too, which then stays as it is
  cases does with
  | missed missing =>
    have none := stores.denotes.find_eq_none missing
    rw [none]
    refine ⟨returns, sound, ?_⟩
    rw [← none, Function.update_eq_self]
    exact stores.denotes
  | @deleted _ item _ keys content =>
    have denotes := stores.denotes
    have mem : (clipHash hash, item) ∈ map.entries := by
      rw [← content]
      exact Multiset.mem_add.mpr (.inr (Multiset.mem_singleton_self _))
    have found : find (clipHash hash, key wanted) = some item := (denotes.finds _ _).mpr ⟨mem, keys⟩
    rw [found]
    rw [← content] at denotes
    refine ⟨returns, sound, ?_⟩
    rw [← keys]
    exact denotes.remove

omit [Inhabited α] [DecidableEq κ] in
theorem listed (stores : Stores key map find) :
    Denotes key (Table.listed map.nbuckets map.buckets) find := by
  rw [coe_listed]
  exact stores.denotes

/-- What a call returns and does. -/
theorem call (compares : ∀ a b, cb.compare a b = 0 ↔ key a = key b) (stores : Stores key map find)
    (call : Call α) (fits : Fits map call) :
    ∃ map' answer find', callMap cb map call = some (map', answer) ∧
      Answers key cb.elfree find (call, answer) find' ∧ Stores key map' find' := by
  cases call with
  | set alloc item hash =>
    obtain ⟨old, map', returns, outcome⟩ := stores.set compares alloc item hash fits
    have called : callMap cb map (.set alloc item hash) =
        some (map', if map'.oom then .outOfMemory else .item old) := by
      rw [callMap, returns]
      rfl
    -- `hashmap_oom` tells the two kinds of `NULL` apart
    rcases outcome with ⟨oom, rfl, stores'⟩ | ⟨oom, rfl, -, stores'⟩
    · rw [oom, if_neg Bool.false_ne_true] at called
      exact ⟨map', _, _, called, .set find alloc item hash, stores'⟩
    · rw [oom, if_pos rfl] at called
      exact ⟨map', _, find, called, .outOfMemory find item hash, stores'⟩
  | get wanted hash =>
    refine ⟨map, _, find, ?_, .get find wanted hash, stores⟩
    rw [callMap, stores.get compares]
    rfl
  | delete alloc wanted hash =>
    obtain ⟨map', returns, stores'⟩ := stores.delete compares alloc wanted hash fits
    refine ⟨map', _, _, ?_, .delete find alloc wanted hash, stores'⟩
    rw [callMap, returns]
    rfl
  | clear updateCap =>
    obtain ⟨sound, content⟩ := hashmapClear_spec cb stores.sound updateCap
    refine ⟨(hashmapClear cb map updateCap).2, _, _, rfl, .clear updateCap ?_, sound, ?_⟩
    · show if cb.elfree = true then Enumerates (freeElements cb map) find else freeElements cb map = []
      split
      next frees =>
        rw [freeElements_eq frees]
        exact stores.listed.enumerates
      next keeps => exact if_neg keeps
    · rw [content]
      exact .empty key
  | setGrowByPower power =>
    exact ⟨_, _, find, rfl, .setGrowByPower find power, stores.sound.of_power power, stores.denotes⟩
  | count =>
    have number : ((Table.listed map.nbuckets map.buckets).map Prod.snd).length = map.count := by
      rw [List.length_map, ← Multiset.coe_card, coe_listed, stores.sound.count]
      rfl
    refine ⟨map, .count map.count, find, rfl, ?_, stores⟩
    rw [← number]
    exact .count stores.listed.enumerates

end Stores

/-! ### The size of the table -/

theorem Sized.mono {elsize n m : ℕ} (sized : Sized elsize n) (le : m ≤ n) : Sized elsize m :=
  (Nat.mul_le_mul_left _ le).trans_lt sized

/-- Every bucket is at least a word, so the buckets can be counted with a `size_t`. -/
theorem Sized.lt {elsize n : ℕ} (sized : Sized elsize n) : n < 2 ^ 64 := by
  have word : 1 ≤ bucketSize elsize := by
    unfold bucketSize
    omega
  exact (Nat.le_mul_of_pos_left n word).trans_lt sized

section Size

variable [Inhabited α] {cb : Callbacks α} {map map' : Hashmap α} {alloc : Bool} {elsize k : ℕ}

theorem nbuckets_resize {answer : Bool} (taken : resize alloc map (2 ^ (k + 4)) = some (answer, map')) :
    map'.nbuckets = map.nbuckets ∨ map'.nbuckets = 2 ^ (k + 4) := by
  unfold resize at taken
  split at taken
  next =>
    cases taken
    exact .inl rfl
  next map2 new =>
    split at taken
    next => cases taken
    next =>
      cases taken
      cases alloc with
      | false => cases new
      | true =>
        rw [hashmapNew_power] at new
        cases new
        exact .inr rfl

/-- A key is set in as many buckets as before, or in those of the larger table. -/
theorem nbuckets_set (sound : Sound map) {item : α} {hash : Size} {old : Option α}
    (taken : hashmapSetWithHash cb alloc map item hash = some (old, map')) :
    map'.nbuckets = map.nbuckets ∨
      map.count = map.growat ∧ map'.nbuckets = map.nbuckets * 2 ^ map.growpower := by
  obtain ⟨k, power⟩ := sound.power
  have grown : map.nbuckets * 2 ^ map.growpower = 2 ^ (k + map.growpower + 4) := by
    rw [power, ← Nat.pow_add]
    congr 1
    omega
  -- what is put afterwards leaves the buckets where they are
  have before {answer : Bool} {map1 : Hashmap α}
      (resized : (if map.count = map.growat then
        resize alloc { map with oom := false } (map.nbuckets * 2 ^ map.growpower)
        else some (true, { map with oom := false })) = some (answer, map1)) :
      map1.nbuckets = map.nbuckets ∨
        map.count = map.growat ∧ map1.nbuckets = map.nbuckets * 2 ^ map.growpower := by
    split at resized
    next full =>
      rw [grown] at resized ⊢
      exact (nbuckets_resize resized).imp id fun same => ⟨full, same⟩
    next =>
      cases resized
      exact .inl rfl
  unfold hashmapSetWithHash at taken
  dsimp only at taken
  split at taken
  next => cases taken
  next map1 resized =>
    have same := before resized
    cases taken
    exact same
  next map1 resized =>
    have same := before resized
    split at taken
    next => cases taken
    next =>
      cases taken
      exact same
    next =>
      cases taken
      exact same

theorem nbuckets_delete (sound : Sound map) {wanted : α} {hash : Size} {found : Option α}
    (taken : hashmapDeleteWithHash cb alloc map wanted hash = some (found, map')) :
    map'.nbuckets ≤ map.nbuckets := by
  unfold hashmapDeleteWithHash at taken
  dsimp only at taken
  split at taken
  next => cases taken
  next =>
    cases taken
    exact Nat.le_refl _
  next =>
    split at taken
    next => cases taken
    next buckets _ =>
      split at taken
      next shrinks =>
        obtain ⟨⟨answer, map1⟩, resized, is⟩ := Option.map_eq_some_iff.mp taken
        cases is
        -- half of more than 16 buckets is a power of two again
        obtain ⟨k, power⟩ := sound.power
        obtain ⟨c, capPower⟩ := sound.capPower
        have above := shrinks.1
        have least := le_two_pow c
        cases k with
        | zero => omega
        | succ k =>
          have half : map.nbuckets / 2 = 2 ^ (k + 4) := by
            rw [power, Nat.add_right_comm, Nat.pow_succ, Nat.mul_div_cancel _ Nat.two_pos]
          rw [half] at resized
          rcases nbuckets_resize resized with same | same
          · exact same.le
          · exact same.le.trans (half ▸ Nat.div_le_self _ 2)
      next =>
        cases taken
        exact Nat.le_refl _

/-- The size of the buckets never wraps. -/
theorem sized_of_call (sound : Sound map) (sized : Sized elsize map.nbuckets) {call : Call α}
    {answer : Answer α} (allocates : Allocates elsize map call)
    (returns : callMap cb map call = some (map', answer)) : Sized elsize map'.nbuckets := by
  cases call with
  | set alloc item hash =>
    obtain ⟨⟨old, map1⟩, taken, is⟩ := Option.map_eq_some_iff.mp returns
    cases is
    rcases nbuckets_set sound taken with same | ⟨full, same⟩
    · rwa [same]
    · rw [same]
      exact allocates full
  | get =>
    obtain ⟨found, -, is⟩ := Option.map_eq_some_iff.mp returns
    cases is
    exact sized
  | delete =>
    obtain ⟨⟨found, map1⟩, taken, is⟩ := Option.map_eq_some_iff.mp returns
    cases is
    exact sized.mono (nbuckets_delete sound taken)
  | clear updateCap =>
    cases returns
    cases updateCap with
    | false => exact sized.mono sound.cap
    | true => exact sized
  | setGrowByPower | count =>
    cases returns
    exact sized

end Size

/-! ### Runs -/

/-- A call that the table has room for, in the `dib` of its entries and in memory that can be
addressed. -/
def Allowed (elsize : ℕ) (map : Hashmap α) (call : Call α) : Prop :=
  Fits map call ∧ Allocates elsize map call

section Runs

variable [Inhabited α]

theorem hashmapNew_stores (key : α → κ) {cap : ℕ} {seed0 seed1 : Size} {map : Hashmap α} {alloc : Bool}
    (new : hashmapNew alloc cap seed0 seed1 = some map) : Stores key map fun _ => none := by
  obtain ⟨sound, empty⟩ := hashmapNew_sound new
  refine ⟨sound, ?_⟩
  rw [empty]
  exact .empty key

variable [DecidableEq κ] {key : α → κ} {cb : Callbacks α}

theorem simulates (compares : ∀ a b, cb.compare a b = 0 ↔ key a = key b) (elsize : ℕ) :
    Simulates (machine cb) (Allowed elsize) (Answers key cb.elfree)
      fun map find => Stores key map find ∧ Sized elsize map.nbuckets := by
  rintro map find call map' seen ⟨stores, sized⟩ ⟨fits, allocates⟩ taken
  obtain ⟨next, answer, find', returns, answers, stores'⟩ := stores.call compares call fits
  rw [step_of_call returns] at taken
  cases taken
  exact ⟨find', .one answers, stores', sized_of_call stores.sound sized allocates returns⟩

/-- In every run, whatever `malloc` answers, the table answers as a finite map does, no size wraps,
and no loop goes on forever. -/
theorem run_follows (compares : ∀ a b, cb.compare a b = 0 ↔ key a = key b) {elsize cap : ℕ}
    {seed0 seed1 : Size} {alloc : Bool} {start map : Hashmap α} {trace : List (Call α × Answer α)}
    (new : hashmapNew alloc cap seed0 seed1 = some start) (sized : Sized elsize start.nbuckets)
    (run : (machine cb).Run (Allowed elsize) start map trace) :
    ∃ find, Follows (Answers key cb.elfree) (fun _ => none) trace find ∧ Stores key map find ∧
      Sized elsize map.nbuckets ∧
        ∀ call, Allowed elsize map call → ((machine cb).step map call).isSome := by
  obtain ⟨find, follows, stores, sized'⟩ :=
    (simulates compares elsize).run ⟨hashmapNew_stores key new, sized⟩ run
  refine ⟨find, follows, stores, sized', fun call allowed => ?_⟩
  obtain ⟨map', answer, -, returns, -⟩ := stores.call compares call allowed.1
  rw [step_of_call returns]
  rfl

omit [Inhabited α] in
/-- Whatever their hashes are, fewer than `maxDib` entries have room. -/
theorem Sound.fits {map : Hashmap α} (sound : Sound map) (few : map.count < maxDib) (call : Call α) :
    Fits map call := by
  have counted := sound.count
  cases call with
  | set alloc item hash =>
    apply spread_of_card_le
    rw [Multiset.card_add, Multiset.card_singleton]
    omega
  | delete => exact spread_of_card_le (by omega)
  | get | clear | setGrowByPower | count => trivial

theorem run_of_few (compares : ∀ a b, cb.compare a b = 0 ↔ key a = key b) {elsize : ℕ}
    {start map : Hashmap α} {trace : List (Call α × Answer α)} {find : Size × κ → Option α}
    (stores : Stores key start find) (sized : Sized elsize start.nbuckets)
    (run : (machine cb).Run (fun map call => map.count < maxDib ∧ Allocates elsize map call)
      start map trace) : (machine cb).Run (Allowed elsize) start map trace := by
  induction run with
  | refl => exact .refl
  | step _ few taken ih =>
    obtain ⟨_, -, stores', -⟩ := (simulates compares elsize).run ⟨stores, sized⟩ ih
    exact ih.step ⟨stores'.sound.fits few.1 _, few.2⟩ taken

end Runs

/-- Two items with the same hash. -/
def collisions : List (Call (ℕ × ℕ) × Answer (ℕ × ℕ)) :=
  [(.set true (1, 5) 7, .item none), (.set true (2, 6) 7, .item none),
    (.delete true (1, 0) 7, .item (some (1, 5))), (.get (2, 0) 7, .item (some (2, 6)))]

def pairs : Callbacks (ℕ × ℕ) := ⟨fun _ _ _ => 7, fun a b => a.1 - b.1, false⟩

theorem pairs_compare (a b : ℕ × ℕ) : pairs.compare a b = 0 ↔ a.1 = b.1 := by
  show (a.1 : ℤ) - b.1 = 0 ↔ _
  omega

theorem collisions_run : ∃ start map : Hashmap (ℕ × ℕ), hashmapNew true 16 0 0 = some start ∧
    Sized 16 start.nbuckets ∧ (machine pairs).Run (Allowed 16) start map collisions := by
  obtain ⟨start, new, sized, done⟩ : ∃ start, hashmapNew true 16 0 0 = some start ∧
      Sized 16 start.nbuckets ∧
      (((machine pairs).restrict fun map call => map.count < maxDib ∧ Allocates 16 map call).exec start
        (collisions.map Prod.fst)).map Prod.snd = some collisions := ⟨_, rfl, by decide, rfl⟩
  obtain ⟨map, trace, run, rfl⟩ := Machine.exists_run_of_exec _ _ _ _ Prod.snd done
  exact ⟨start, map, new, sized, run_of_few pairs_compare (hashmapNew_stores Prod.fst new) sized run⟩

theorem run_follows_collisions :
    ∃ (map : Hashmap (ℕ × ℕ)) (find : Size × ℕ → Option (ℕ × ℕ)),
      Follows (Answers Prod.fst false) (fun _ => none) collisions find ∧ Stores Prod.fst map find := by
  obtain ⟨start, map, new, sized, run⟩ := collisions_run
  obtain ⟨find, follows, stores, -⟩ := run_follows pairs_compare new sized run
  exact ⟨map, find, follows, stores⟩

end GhettoRedis.Table
