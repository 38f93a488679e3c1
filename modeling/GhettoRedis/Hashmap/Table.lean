import Mathlib.Logic.Function.Basic
import GhettoRedis.Lib.Word

/-!
# The hash table

`hashmap.c`: an array of buckets with Robin Hood hashing. The hash of a bucket has 48 bits and
its `dib` has 16, which wrap. Sizes and indices are natural numbers; they are those of the code for
tables whose size in bytes is a `size_t`. The `while(1)` loops take as fuel the number of buckets;
`none` means that a loop has not ended within one turn around them. What `malloc` answers comes from
outside.
-/
namespace GhettoRedis.Table

open Lib

variable {α : Type}

/-- What a map is given to `hashmap_new`; `compare` is never `NULL` here. -/
structure Callbacks (α : Type) where
  hash : α → Size → Size → Size
  compare : α → α → ℤ
  elfree : Bool

structure Bucket (α : Type) where
  hash : Size
  dib : BitVec 16
  item : α

structure Hashmap (α : Type) where
  cap : ℕ
  seed0 : Size
  seed1 : Size
  nbuckets : ℕ
  count : ℕ
  mask : ℕ
  growat : ℕ
  shrinkat : ℕ
  growpower : ℕ
  oom : Bool
  buckets : ℕ → Bucket α

/-- A bucket behind `memset`. -/
def Bucket.zero [Inhabited α] : Bucket α := ⟨0, 0, default⟩

/-- `nbuckets * GROW_AT`: the double next to 0.60 is 5404319552844595 / 2^53, and its product
with a power of two is exact. -/
def growAt (nbuckets : ℕ) : ℕ := nbuckets * 5404319552844595 / 2 ^ 53

/-- `nbuckets * SHRINK_AT`: the double next to 0.10 is 3602879701896397 / 2^55. -/
def shrinkAt (nbuckets : ℕ) : ℕ := nbuckets * 3602879701896397 / 2 ^ 55

def clipHash (hash : Size) : Size := hash &&& 0xFFFFFFFFFFFF

def hashmapSetGrowByPower (map : Hashmap α) (power : ℕ) : Hashmap α :=
  { map with growpower := if power < 1 then 1 else if power > 16 then 16 else power }

def getHash (cb : Callbacks α) (map : Hashmap α) (key : α) : Size :=
  clipHash (cb.hash key map.seed0 map.seed1)

/-! ### Making a map -/

/-- `bucketsz`: `sizeof(struct bucket) + elsize`, rounded up to whole words. -/
def bucketSize (elsize : ℕ) : ℕ := (8 + elsize + 7) / 8 * 8

/-- The buckets have a size in bytes, `bucketsz * nbuckets`, that does not wrap. -/
def Sized (elsize nbuckets : ℕ) : Prop := bucketSize elsize * nbuckets < 2 ^ 64

instance (elsize nbuckets : ℕ) : Decidable (Sized elsize nbuckets) := inferInstanceAs (Decidable (_ < _))

/-- `while (ncap < cap) ncap *= 2;` -/
def doubleUp (cap : ℕ) : (fuel ncap : ℕ) → ℕ
  | 0, ncap => ncap
  | fuel + 1, ncap => if ncap < cap then doubleUp cap fuel (ncap * 2) else ncap

/-- `hashmap_new` of a map that is `Sized`; `alloc` says whether both calls of `malloc` succeed. -/
def hashmapNew [Inhabited α] (alloc : Bool) (cap : ℕ) (seed0 seed1 : Size) : Option (Hashmap α) :=
  let cap := if cap < 16 then 16 else doubleUp cap cap 16
  if alloc then
    some
      { cap := cap, seed0 := seed0, seed1 := seed1, nbuckets := cap, count := 0, mask := cap - 1,
        growat := growAt cap, shrinkat := shrinkAt cap, growpower := 1, oom := false,
        buckets := fun _ => Bucket.zero }
  else none

/-! ### Emptying a map -/

/-- The items that `free_elements` passes to `elfree`. -/
def freeElements (cb : Callbacks α) (map : Hashmap α) : List α :=
  if cb.elfree then
    (List.range map.nbuckets).filterMap fun i =>
      if (map.buckets i).dib = 0 then none else some (map.buckets i).item
  else []

/-- A failing `malloc` leaves the buckets as they are, which are then more than needed. -/
def hashmapClear [Inhabited α] (cb : Callbacks α) (map : Hashmap α) (updateCap : Bool) :
    List α × Hashmap α :=
  let freed := freeElements cb map
  let map := { map with count := 0 }
  let map := if updateCap then { map with cap := map.nbuckets } else { map with nbuckets := map.cap }
  (freed, { map with
    buckets := fun _ => Bucket.zero
    mask := map.nbuckets - 1
    growat := map.nbuckets * 3 / 4
    shrinkat := shrinkAt map.nbuckets })

def hashmapFree (cb : Callbacks α) (map : Hashmap α) : List α := freeElements cb map

/-! ### Resizing -/

/-- The loop of `resize0` that puts an entry into the new buckets. -/
def resizeEntry (mask : ℕ) : (fuel j : ℕ) → Bucket α → (ℕ → Bucket α) → Option (ℕ → Bucket α)
  | 0, _, _, _ => none
  | fuel + 1, j, entry, buckets =>
    let bucket := buckets j
    if bucket.dib = 0 then some (Function.update buckets j entry)
    -- an entry nearer to its home gives way, and is carried on instead
    else if bucket.dib < entry.dib then
      resizeEntry mask fuel ((j + 1) &&& mask) { bucket with dib := bucket.dib + 1 }
        (Function.update buckets j entry)
    else resizeEntry mask fuel ((j + 1) &&& mask) { entry with dib := entry.dib + 1 } buckets

/-- The loop of `resize0` over the old buckets, up to bucket `k`. -/
def resizeLoop [Inhabited α] (old : ℕ → Bucket α) (map2 : Hashmap α) : (k : ℕ) → Option (ℕ → Bucket α)
  | 0 => some map2.buckets
  | k + 1 =>
    match resizeLoop old map2 k with
    | none => none
    | some buckets =>
      if (old k).dib = 0 then some buckets
      else
        -- every entry starts at its home again
        resizeEntry map2.mask map2.nbuckets ((old k).hash.toNat &&& map2.mask)
          { old k with dib := 1 } buckets

/-- `resize`: whether it succeeds, and the map. -/
def resize [Inhabited α] (alloc : Bool) (map : Hashmap α) (newCap : ℕ) : Option (Bool × Hashmap α) :=
  match hashmapNew alloc newCap map.seed0 map.seed1 with
  | none => some (false, map)
  | some map2 =>
    match resizeLoop map.buckets map2 map.nbuckets with
    | none => none
    | some buckets =>
      -- `cap` and `growpower` stay those of the old map
      some (true, { map with
        buckets := buckets
        nbuckets := map2.nbuckets
        mask := map2.mask
        growat := map2.growat
        shrinkat := map2.shrinkat })

/-! ### Access -/

variable (cb : Callbacks α)

/-- The loop of `hashmap_set_with_hash`: the buckets, and the item that was replaced. -/
def setLoop (mask : ℕ) :
    (fuel i : ℕ) → Bucket α → (ℕ → Bucket α) → Option ((ℕ → Bucket α) × Option α)
  | 0, _, _, _ => none
  | fuel + 1, i, entry, buckets =>
    let bucket := buckets i
    if bucket.dib = 0 then some (Function.update buckets i entry, none)
    else if entry.hash = bucket.hash ∧ cb.compare entry.item bucket.item = 0 then
      some (Function.update buckets i { bucket with item := entry.item }, some bucket.item)
    -- from here on `entry` is what the bucket held, also in the comparison with further buckets
    else if bucket.dib < entry.dib then
      setLoop mask fuel ((i + 1) &&& mask) { bucket with dib := bucket.dib + 1 }
        (Function.update buckets i entry)
    else setLoop mask fuel ((i + 1) &&& mask) { entry with dib := entry.dib + 1 } buckets

/-- The item that was replaced, and the map. -/
def hashmapSetWithHash [Inhabited α] (alloc : Bool) (map : Hashmap α) (item : α) (hash : Size) :
    Option (Option α × Hashmap α) :=
  let hash := clipHash hash
  let map := { map with oom := false }
  let resized :=
    if map.count = map.growat then resize alloc map (map.nbuckets * 2 ^ map.growpower)
    else some (true, map)
  match resized with
  | none => none
  | some (false, map) =>
    -- `NULL` as for a new key, but nothing is stored
    some (none, { map with oom := true })
  | some (true, map) =>
    match setLoop cb map.mask map.nbuckets (hash.toNat &&& map.mask) ⟨hash, 1, item⟩ map.buckets with
    | none => none
    | some (buckets, none) => some (none, { map with buckets := buckets, count := map.count + 1 })
    | some (buckets, some old) => some (some old, { map with buckets := buckets })

/-- The loop of `hashmap_get_with_hash` and `hashmap_delete_with_hash`: where the key is. -/
def findLoop (mask : ℕ) (key : α) (hash : Size) (buckets : ℕ → Bucket α) :
    (fuel i : ℕ) → Option (Option ℕ)
  | 0, _ => none
  | fuel + 1, i =>
    let bucket := buckets i
    if bucket.dib = 0 then some none
    else if bucket.hash = hash ∧ cb.compare key bucket.item = 0 then some (some i)
    else findLoop mask key hash buckets fuel ((i + 1) &&& mask)

def hashmapGetWithHash (map : Hashmap α) (key : α) (hash : Size) : Option (Option α) :=
  let hash := clipHash hash
  (findLoop cb map.mask key hash map.buckets map.nbuckets (hash.toNat &&& map.mask)).map fun found =>
    found.map fun i => (map.buckets i).item

def hashmapProbe (map : Hashmap α) (position : Size) : Option α :=
  let bucket := map.buckets (position.toNat &&& map.mask)
  if bucket.dib = 0 then none else some bucket.item

/-- The inner loop of `hashmap_delete_with_hash`, with `prev` at index `i`. -/
def shiftLoop (mask : ℕ) : (fuel i : ℕ) → (ℕ → Bucket α) → Option (ℕ → Bucket α)
  | 0, _, _ => none
  | fuel + 1, i, buckets =>
    let bucket := buckets ((i + 1) &&& mask)
    -- an empty bucket, or an entry at its home
    if bucket.dib ≤ 1 then some (Function.update buckets i { buckets i with dib := 0 })
    else
      shiftLoop mask fuel ((i + 1) &&& mask)
        (Function.update buckets i { bucket with dib := bucket.dib - 1 })

/-- The item that was deleted, and the map; whether it can be shrunk does not matter. -/
def hashmapDeleteWithHash [Inhabited α] (alloc : Bool) (map : Hashmap α) (key : α) (hash : Size) :
    Option (Option α × Hashmap α) :=
  let hash := clipHash hash
  let map := { map with oom := false }
  match findLoop cb map.mask key hash map.buckets map.nbuckets (hash.toNat &&& map.mask) with
  | none => none
  | some none => some (none, map)
  | some (some i) =>
    let bucket := map.buckets i
    match shiftLoop map.mask map.nbuckets i (Function.update map.buckets i { bucket with dib := 0 }) with
    | none => none
    | some buckets =>
      let map := { map with buckets := buckets, count := map.count - 1 }
      if map.nbuckets > map.cap ∧ map.count ≤ map.shrinkat then
        -- without memory the map stays as it is
        (resize alloc map (map.nbuckets / 2)).map fun resized => (some bucket.item, resized.2)
      else some (some bucket.item, map)

def hashmapSet [Inhabited α] (alloc : Bool) (map : Hashmap α) (item : α) :
    Option (Option α × Hashmap α) :=
  hashmapSetWithHash cb alloc map item (getHash cb map item)

def hashmapGet (map : Hashmap α) (key : α) : Option (Option α) :=
  hashmapGetWithHash cb map key (getHash cb map key)

def hashmapDelete [Inhabited α] (alloc : Bool) (map : Hashmap α) (key : α) :
    Option (Option α × Hashmap α) :=
  hashmapDeleteWithHash cb alloc map key (getHash cb map key)

/-! ### Iteration -/

/-- The loop of `hashmap_scan` from bucket `i` on, `iter` with its `udata`. -/
def scanLoop {σ : Type} (buckets : ℕ → Bucket α) (iter : σ → α → Bool × σ) :
    (count i : ℕ) → σ → Bool × σ
  | 0, _, udata => (true, udata)
  | count + 1, i, udata =>
    if (buckets i).dib = 0 then scanLoop buckets iter count (i + 1) udata
    else
      let (more, udata) := iter udata (buckets i).item
      if more then scanLoop buckets iter count (i + 1) udata else (false, udata)

def hashmapScan {σ : Type} (map : Hashmap α) (iter : σ → α → Bool × σ) (udata : σ) : Bool × σ :=
  scanLoop map.buckets iter map.nbuckets 0 udata

/-- The loop of `hashmap_iter`, with `left` buckets behind the cursor: the cursor and the item. -/
def iterLoop (buckets : ℕ → Bucket α) : (left i : ℕ) → ℕ × Option α
  | 0, i => (i, none)
  | left + 1, i =>
    if (buckets i).dib = 0 then iterLoop buckets left (i + 1) else (i + 1, some (buckets i).item)

/-- The cursor behind the call, and the item that was retrieved. -/
def hashmapIter (map : Hashmap α) (i : ℕ) : ℕ × Option α :=
  iterLoop map.buckets (map.nbuckets - i) i

end GhettoRedis.Table
