import GhettoRedis.Commands.Register
import GhettoRedis.Hashmap.Refines

/-!
# Databases

The entries of `kv.c`, and the keyed commands on the tables that hold them. A database answers to
commands as the finite map of `Commands.Store` does; where a table cannot grow, a command that
stores is answered all the same, and what it stores is lost.
-/
namespace GhettoRedis.Table

open Lib Protocol

/-- A key as it can stand in a receive buffer: `entry_compare` takes the difference of two lengths
for an `int`. -/
abbrev Key := { key : Bytes // key.length < 2 ^ 32 }

structure Entry where
  key : Key
  val : Commands.Value

instance : Inhabited Entry := ⟨⟨[], by decide⟩, default⟩

/-! ### `kv.c` -/

/-- The sign is that of the first difference. -/
def memcmp : Bytes → Bytes → ℤ
  | a :: as, b :: bs => if a = b then memcmp as bs else (a.toNat : ℤ) - b.toNat
  | _, _ => 0

/-- `ea->keylen - eb->keylen` as an `int` -/
def lengthDifference (a b : Bytes) : ℤ :=
  ((BitVec.ofNat 64 a.length - BitVec.ofNat 64 b.length).setWidth 32).toInt

/-- The body of `entry_compare` and of `command_compare`. -/
def compareKeys (a b : Key) : ℤ :=
  if a.val.length ≠ b.val.length then lengthDifference a b else memcmp a b

def entryCompare (a b : Entry) : ℤ := compareKeys a.key b.key

def entryHashXxhash3 (a : Entry) (seed0 seed1 : Size) : Size :=
  Commands.hashmapXxhash3 a.key seed0 seed1

/-- The arguments of `hashmap_new` in `init_shards`. -/
def entryCallbacks : Callbacks Entry := ⟨entryHashXxhash3, entryCompare, true⟩

theorem memcmp_eq_zero {a b : Bytes} (same : a.length = b.length) : memcmp a b = 0 ↔ a = b := by
  induction a generalizing b with
  | nil =>
    obtain rfl := List.length_eq_zero_iff.mp same.symm
    simp [memcmp]
  | cons x a ih =>
    cases b with
    | nil => cases same
    | cons y b =>
      rw [memcmp]
      split
      next equal =>
        rw [ih (Nat.succ.inj same), equal]
        simp
      next differ =>
        have apart : x.toNat ≠ y.toNat := fun same => differ (UInt8.toNat_inj.mp same)
        simp only [List.cons.injEq, differ, false_and, iff_false]
        omega

theorem lengthDifference_ne_zero {a b : Bytes} (short : a.length < 2 ^ 32) (short' : b.length < 2 ^ 32)
    (differ : a.length ≠ b.length) : lengthDifference a b ≠ 0 := by
  intro zero
  -- lengths below 2^32 are still apart where the difference has wrapped
  have none := congrArg BitVec.toNat (BitVec.toInt_inj.mp (zero.trans BitVec.toInt_zero.symm))
  simp only [BitVec.toNat_setWidth, BitVec.toNat_sub, BitVec.toNat_ofNat, Nat.zero_mod] at none
  omega

theorem compareKeys_eq_zero (a b : Key) : compareKeys a b = 0 ↔ a = b := by
  rw [compareKeys]
  split
  next differ =>
    refine iff_of_false (lengthDifference_ne_zero a.2 b.2 differ) fun same => differ ?_
    rw [same]
  next same => rw [memcmp_eq_zero (not_not.mp same), Subtype.ext_iff]

theorem entryCompare_eq_zero (a b : Entry) : entryCallbacks.compare a b = 0 ↔ a.key = b.key :=
  compareKeys_eq_zero a.key b.key

/-! ### Keyed commands -/

/-- `&(Entry){.key = key, .keylen = keylen}` -/
def Entry.ofKey (key : Key) : Entry := ⟨key, default⟩

/-- `try_modify_counter`, with what `malloc` answers when the table has to grow. -/
def tryModifyCounter (alloc : Bool) (db : Hashmap Entry) (key : Key) (hash delta : Size) :
    Option (Hashmap Entry × Option Size) :=
  match hashmapGetWithHash entryCallbacks db (.ofKey key) hash with
  | none => none
  | some entry =>
    match entry.elim (some 0) fun entry => Commands.tryParseSignedInteger entry.val with
    | none => some (db, none)
    | some val =>
      (hashmapSetWithHash entryCallbacks alloc db ⟨key, Commands.counterText (val + delta)⟩ hash).map
        fun (_, db) => (db, some (val + delta))

def modifyCounter (alloc : Bool) (db : Hashmap Entry) (key : Key) (hash delta : Size) :
    Option (Hashmap Entry × Commands.Result) :=
  (tryModifyCounter alloc db key hash delta).map fun (db, res) => (db, .res (res.getD 0))

/-- `CMD_EXEC` -/
def cmdExec (alloc : Bool) (op : Commands.Op) (db : Hashmap Entry) (key : Key) (hash : Size) :
    Option (Hashmap Entry × Commands.Result) :=
  match op with
  | .get =>
    (hashmapGetWithHash entryCallbacks db (.ofKey key) hash).map fun entry =>
      (db, .entry (entry.map fun entry => entry.val.bytes))
  | .set val =>
    (hashmapSetWithHash entryCallbacks alloc db ⟨key, val⟩ hash).map fun (_, db) => (db, .stored)
  | .del =>
    (hashmapDeleteWithHash entryCallbacks alloc db (.ofKey key) hash).map fun (entry, db) =>
      (db, .res (if entry.isSome then 1 else 0))
  | .dispatchPing shardId => some (db, .shardId shardId)
  | .incr => modifyCounter alloc db key hash 1
  | .decr => modifyCounter alloc db key hash (-1)
  | .incrby delta => modifyCounter alloc db key hash delta
  | .decrby delta => modifyCounter alloc db key hash (-delta)

/-! ### What a database holds -/

/-- The table has the entries of the finite map. -/
def Holds (db : Hashmap Entry) (map : Commands.Hashmap) : Prop :=
  ∃ find, Stores Entry.key db find ∧
    ∀ hash (key : Key), map.find hash key = (find (hash, key)).map Entry.val

/-- The entries leave room for another one with this hash, and for each other when one goes. -/
def Ready (db : Hashmap Entry) (hash : Size) : Prop :=
  Spread db.entries ∧ ∀ item, Spread (db.entries + {(clipHash hash, item)})

theorem ready_of_few {db : Hashmap Entry} (sound : Sound db) (few : db.count < maxDib) (hash : Size) :
    Ready db hash :=
  ⟨sound.fits few (.delete true default hash), fun item => sound.fits few (.set true item hash)⟩

section Commands

variable {db : Hashmap Entry} {map : Commands.Hashmap} {key : Key} {hash : Size} {entry : Option Entry}

theorem Holds.get (holds : Holds db map) (key : Key) (hash : Size) :
    ∃ entry, hashmapGetWithHash entryCallbacks db (.ofKey key) hash = some entry ∧
      entry.map Entry.val = Commands.hashmapGetWithHash map key hash := by
  obtain ⟨find, stores, same⟩ := holds
  exact ⟨_, stores.get entryCompare_eq_zero (.ofKey key) hash, (same _ key).symm⟩

/-- What the tag of an entry finds in the finite map, when the entry changes. -/
theorem holds_update {find : Size × Key → Option Entry}
    (stores : Stores Entry.key db (Function.update find (clipHash hash, key) entry))
    (same : ∀ hash (key : Key), map.find hash key = (find (hash, key)).map Entry.val) :
    Holds db (map.put key hash (entry.map Entry.val)) := by
  refine ⟨_, stores, fun hash' key' => ?_⟩
  rw [Commands.Hashmap.put]
  by_cases here : hash' = clipHash hash ∧ key' = key
  · obtain ⟨rfl, rfl⟩ := here
    rw [Function.update_self]
    exact if_pos ⟨rfl, rfl⟩
  · have other : (hash', key') ≠ (clipHash hash, key) := fun is => here (Prod.mk.inj is)
    rw [Function.update_of_ne other, ← same]
    exact if_neg fun is => here ⟨is.1, Subtype.ext is.2⟩

/-- A value is stored, or the table is full and there is no memory for a larger one. -/
theorem Holds.set (holds : Holds db map) (ready : Ready db hash) (alloc : Bool) (val : Commands.Value) :
    ∃ old db', hashmapSetWithHash entryCallbacks alloc db ⟨key, val⟩ hash = some (old, db') ∧
      (Holds db' (map.put key hash (some val)) ∨ alloc = false ∧ Holds db' map) := by
  obtain ⟨find, stores, same⟩ := holds
  obtain ⟨old, db', returns, outcome⟩ :=
    stores.set entryCompare_eq_zero alloc ⟨key, val⟩ hash (ready.2 _)
  refine ⟨old, db', returns, ?_⟩
  rcases outcome with ⟨-, -, stores'⟩ | ⟨-, fails, -, stores'⟩
  · exact .inl (holds_update stores' same)
  · exact .inr ⟨fails, find, stores', same⟩

theorem Holds.delete (holds : Holds db map) (ready : Ready db hash) (alloc : Bool) :
    ∃ entry db', hashmapDeleteWithHash entryCallbacks alloc db (.ofKey key) hash = some (entry, db') ∧
      entry.map Entry.val = Commands.hashmapGetWithHash map key hash ∧
        Holds db' (map.put key hash none) := by
  obtain ⟨find, stores, same⟩ := holds
  obtain ⟨db', returns, stores'⟩ := stores.delete entryCompare_eq_zero alloc (.ofKey key) hash ready.1
  exact ⟨_, db', returns, (same _ key).symm, holds_update stores' same⟩

/-! ### Commands -/

/-- A command that calls `hashmap_set_with_hash`. -/
def Puts : Commands.Op → Prop
  | .set _ | .incr | .decr | .incrby _ | .decrby _ => True
  | _ => False

/-- What a command leaves: what it leaves of the finite map, unless it stores, the table is full and
there is no memory. -/
def Leaves (alloc : Bool) (op : Commands.Op) (db : Hashmap Entry) (map map' : Commands.Hashmap) : Prop :=
  Holds db map' ∨ alloc = false ∧ Puts op ∧ Holds db map

theorem modifyCounter_spec (holds : Holds db map) (ready : Ready db hash) (alloc : Bool) (delta : Size) :
    ∃ db', modifyCounter alloc db key hash delta =
        some (db', (Commands.modifyCounter map key hash delta).2) ∧
      (Holds db' (Commands.modifyCounter map key hash delta).1 ∨ alloc = false ∧ Holds db' map) := by
  obtain ⟨entry, found, val⟩ := holds.get key hash
  -- the table and the finite map have the same number, or none
  have stored : (entry.elim (some 0) fun entry => Commands.tryParseSignedInteger entry.val) =
      Commands.counter (Commands.hashmapGetWithHash map key hash) := by
    rw [← val]
    cases entry <;> rfl
  rw [modifyCounter, tryModifyCounter, found, Commands.modifyCounter, Commands.tryModifyCounter_eq]
  simp only [stored]
  cases Commands.counter (Commands.hashmapGetWithHash map key hash) with
  | none => exact ⟨db, rfl, .inl holds⟩
  | some val =>
    obtain ⟨old, db', returns, outcome⟩ := holds.set ready alloc (Commands.counterText (val + delta))
    refine ⟨db', ?_, outcome⟩
    dsimp only
    rw [returns]
    rfl

/-- A command answers as it does on the finite map. -/
theorem cmdExec_spec (holds : Holds db map) (ready : Ready db hash) (alloc : Bool) (op : Commands.Op) :
    ∃ db', cmdExec alloc op db key hash = some (db', (Commands.cmdExec op map key hash).2) ∧
      Leaves alloc op db' map (Commands.cmdExec op map key hash).1 := by
  have counts (delta : Size) (puts : Puts op) :
      ∃ db', modifyCounter alloc db key hash delta =
          some (db', (Commands.modifyCounter map key hash delta).2) ∧
        Leaves alloc op db' map (Commands.modifyCounter map key hash delta).1 := by
    obtain ⟨db', returns, outcome⟩ := modifyCounter_spec holds ready alloc delta
    exact ⟨db', returns, outcome.imp id fun lost => ⟨lost.1, puts, lost.2⟩⟩
  cases op with
  | get =>
    obtain ⟨entry, found, val⟩ := holds.get key hash
    refine ⟨db, ?_, .inl holds⟩
    rw [cmdExec, found, Commands.cmdExec, ← val, Option.map_map]
    rfl
  | set val =>
    obtain ⟨old, db', returns, outcome⟩ := holds.set ready alloc val
    refine ⟨db', ?_, outcome.imp id fun lost => ⟨lost.1, trivial, lost.2⟩⟩
    rw [cmdExec, returns]
    rfl
  | del =>
    obtain ⟨entry, db', returns, val, holds'⟩ := holds.delete ready alloc
    refine ⟨db', ?_, .inl holds'⟩
    rw [cmdExec, returns, Commands.cmdExec, Commands.hashmapDeleteWithHash, ← val]
    cases entry <;> rfl
  | dispatchPing shardId => exact ⟨db, rfl, .inl holds⟩
  | incr => exact counts 1 trivial
  | decr => exact counts (-1) trivial
  | incrby delta => exact counts delta trivial
  | decrby delta => exact counts (-delta) trivial

end Commands

/-! ### Runs -/

/-- What happens to a database: a keyed command, with what `malloc` answers, or `FLUSHALL`. -/
inductive Access where
  | exec (alloc : Bool) (op : Commands.Op) (key : Key)
  | flushall

/-- The hash that `DEFINE_COMMAND` takes. -/
def hashOf (key : Key) : Size := Commands.hashmapXxhash3 key 0 0

/-- `FLUSHALL` calls `hashmap_clear(db, true)`. -/
def accessDb (db : Hashmap Entry) : Access → Option (Hashmap Entry × Commands.Result)
  | .exec alloc op key => cmdExec alloc op db key (hashOf key)
  | .flushall => some ((hashmapClear entryCallbacks db true).2, .stored)

def database : Machine (Hashmap Entry) Access (Access × Commands.Result) where
  step db access := (accessDb db access).map fun (db, result) => (db, [(access, result)])

theorem step_of_access {db db' : Hashmap Entry} {access : Access} {result : Commands.Result}
    (returns : accessDb db access = some (db', result)) :
    database.step db access = some (db', [(access, result)]) := by
  show (accessDb db access).map _ = _
  rw [returns]
  rfl

def Admits (db : Hashmap Entry) : Access → Prop
  | .exec _ _ key => Ready db (hashOf key)
  | .flushall => True

/-- How the finite map answers, and what becomes of it. What a command stores may be lost when
there is no memory. -/
inductive Serves : Commands.Hashmap → Access × Commands.Result → Commands.Hashmap → Prop
  | exec (map : Commands.Hashmap) (alloc : Bool) (op : Commands.Op) (key : Key) :
      Serves map (.exec alloc op key, (Commands.cmdExec op map key (hashOf key)).2)
        (Commands.cmdExec op map key (hashOf key)).1
  | lost {map : Commands.Hashmap} {op : Commands.Op} (key : Key) : Puts op →
      Serves map (.exec false op key, (Commands.cmdExec op map key (hashOf key)).2) map
  | flushall (map : Commands.Hashmap) : Serves map (.flushall, .stored) (Commands.hashmapClear map)

theorem Holds.clear {db : Hashmap Entry} {map : Commands.Hashmap} (holds : Holds db map) :
    Holds (hashmapClear entryCallbacks db true).2 (Commands.hashmapClear map) := by
  obtain ⟨find, stores, -⟩ := holds
  obtain ⟨sound, content⟩ := hashmapClear_spec entryCallbacks stores.sound true
  refine ⟨fun _ => none, ⟨sound, ?_⟩, fun _ _ => rfl⟩
  rw [content]
  exact .empty _

theorem accessDb_spec {db : Hashmap Entry} {map : Commands.Hashmap} (holds : Holds db map)
    (access : Access)
    (admits : Admits db access) : ∃ db' result map', accessDb db access = some (db', result) ∧
      Serves map (access, result) map' ∧ Holds db' map' := by
  cases access with
  | exec alloc op key =>
    obtain ⟨db', returns, holds' | ⟨rfl, puts, holds'⟩⟩ := cmdExec_spec holds admits alloc op
    · exact ⟨db', _, _, returns, .exec map alloc op key, holds'⟩
    -- the command is answered although its entry is lost
    · exact ⟨db', _, map, returns, .lost key puts, holds'⟩
  | flushall => exact ⟨_, _, _, rfl, .flushall map, holds.clear⟩

theorem hashmapNew_holds {alloc : Bool} {cap : ℕ} {seed0 seed1 : Size} {db : Hashmap Entry}
    (new : hashmapNew alloc cap seed0 seed1 = some db) : Holds db Commands.hashmapNew :=
  ⟨fun _ => none, hashmapNew_stores Entry.key new, fun _ _ => rfl⟩

theorem database_simulates : Simulates database Admits Serves Holds := by
  intro db map access db' seen holds admits taken
  obtain ⟨next, result, map', returns, serves, holds'⟩ := accessDb_spec holds access admits
  rw [step_of_access returns] at taken
  cases taken
  exact ⟨map', .one serves, holds'⟩

/-- In every run from what `init_shards` sets up, a database answers as the finite map, and every
access returns. -/
theorem database_follows {alloc : Bool} {seed : Size} {start db : Hashmap Entry}
    {trace : List (Access × Commands.Result)} (new : hashmapNew alloc (2 ^ 20) seed seed = some start)
    (run : database.Run Admits start db trace) :
    ∃ map, Follows Serves Commands.hashmapNew trace map ∧ Holds db map ∧
      ∀ access, Admits db access → (database.step db access).isSome := by
  obtain ⟨map, follows, holds⟩ := database_simulates.run (hashmapNew_holds new) run
  refine ⟨map, follows, holds, fun access admits => ?_⟩
  obtain ⟨db', result, -, returns, -⟩ := accessDb_spec holds access admits
  rw [step_of_access returns]
  rfl

theorem database_follows_flushall : ∃ db map, Follows Serves Commands.hashmapNew
    [(.exec true (.set ⟨[49], 0⟩) ⟨[107], by decide⟩, .stored), (.flushall, .stored)] map ∧
    Holds db map := by
  obtain ⟨start, new⟩ : ∃ start, hashmapNew (α := Entry) true (2 ^ 20) 7 7 = some start := ⟨_, rfl⟩
  have few : start.count < maxDib := by
    cases new
    decide
  let key : Key := ⟨[107], by decide⟩
  have ready := ready_of_few (hashmapNew_sound new).1 few (hashOf key)
  obtain ⟨db, returns, -⟩ := cmdExec_spec (hashmapNew_holds new) ready true (.set ⟨[49], 0⟩)
  have returns : accessDb start (.exec true (.set ⟨[49], 0⟩) key) = some (db, .stored) := returns
  have none : database.Run Admits start start [] := .refl
  have first := none.step (show Admits start (.exec true (.set ⟨[49], 0⟩) key) from ready)
    (step_of_access returns)
  have second := first.step (show Admits db .flushall from trivial) (step_of_access rfl)
  obtain ⟨map, follows, holds, -⟩ := database_follows new second
  exact ⟨_, map, follows, holds⟩

end GhettoRedis.Table
