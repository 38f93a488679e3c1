import GhettoRedis.Commands.Handle
import GhettoRedis.Hashmap.Entries

/-!
# The table of the commands

`init_commands` and `lookup_command` on a table of their own.
-/
namespace GhettoRedis.Table

open Lib Protocol

/-- The length of a name is a `size_t`, and `command_compare` takes the difference of two lengths
for an `int`. -/
structure Command extends Commands.Command where
  short : name.length < 2 ^ 32

instance : Inhabited Command := ⟨⟨[], 0, .ping⟩, by decide⟩

namespace Command

def key (cmd : Command) : Key := ⟨cmd.name, cmd.short⟩

/-- What `lookup_command` looks for. -/
def ofName (name : Key) : Command := ⟨⟨name, 0, .ping⟩, name.2⟩

end Command

def commandCompare (a b : Command) : ℤ := compareKeys a.key b.key

def commandHash (a : Command) (seed0 seed1 : Size) : Size := Commands.hashmapXxhash3 a.name seed0 seed1

def commandCallbacks : Callbacks Command := ⟨commandHash, commandCompare, false⟩

def registerCommand (alloc : Bool) (commands : Hashmap Command) (cmd : Command) :
    Option (Hashmap Command) :=
  (hashmapSet commandCallbacks alloc commands cmd).map Prod.snd

/-- The commands of `init_commands`. -/
def commandList : List Command := Commands.commands.attach.map fun cmd => ⟨cmd.val, by
  have short : ∀ cmd ∈ Commands.commands, cmd.name.length < 2 ^ 32 := by decide
  exact short cmd.val cmd.2⟩

def initCommands (alloc : Bool) : Option (Hashmap Command) :=
  (hashmapNew alloc (2 ^ 16) 0 0).bind fun commands =>
    commandList.foldlM (registerCommand alloc) commands

def lookupCommand (commands : Hashmap Command) (name : Key) : Option (Option Command) :=
  hashmapGet commandCallbacks commands (.ofName name)

/-! ### Registering commands -/

variable {α : Type}

/-- What stays when a table that is not full is set. -/
theorem hashmapSetWithHash_stays [Inhabited α] {cb : Callbacks α} {alloc : Bool} {map map' : Hashmap α}
    {item : α} {hash : Size} {old : Option α} (room : map.count < map.growat)
    (returns : hashmapSetWithHash cb alloc map item hash = some (old, map')) :
    map'.seed0 = map.seed0 ∧ map'.seed1 = map.seed1 ∧ map'.growat = map.growat ∧
      map'.count ≤ map.count + 1 ∧ map'.oom = false := by
  unfold hashmapSetWithHash at returns
  dsimp only at returns
  rw [if_neg room.ne] at returns
  dsimp only at returns
  split at returns
  next => cases returns
  next =>
    cases returns
    exact ⟨rfl, rfl, rfl, Nat.le_refl _, rfl⟩
  next =>
    cases returns
    exact ⟨rfl, rfl, rfl, Nat.le_succ _, rfl⟩

theorem commandCompare_eq_zero (a b : Command) : commandCallbacks.compare a b = 0 ↔ a.key = b.key :=
  compareKeys_eq_zero a.key b.key

/-- Where the table keeps a name. -/
def nameTag (name : Key) : Size × Key := (clipHash (Commands.hashmapXxhash3 name 0 0), name)

theorem clipHash_clipHash (hash : Size) : clipHash (clipHash hash) = clipHash hash := by
  rw [clipHash, clipHash, BitVec.and_assoc, BitVec.and_self]

variable {commands : Hashmap Command} {find : Size × Key → Option Command}

theorem getHash_command (unseeded : commands.seed0 = 0 ∧ commands.seed1 = 0) (cmd : Command) :
    (clipHash (getHash commandCallbacks commands cmd), cmd.key) = nameTag cmd.key := by
  rw [getHash, clipHash_clipHash, unseeded.1, unseeded.2]
  rfl

/-- As many commands as have room, under different names, are all found under their names. -/
theorem register_all (list : List Command) (stores : Stores Command.key commands find)
    (unseeded : commands.seed0 = 0 ∧ commands.seed1 = 0)
    (few : commands.count + list.length < commands.growat)
    (small : commands.growat ≤ maxDib) (apart : (list.map Command.key).Nodup)
    (new : ∀ cmd ∈ list, find (nameTag cmd.key) = none) (alloc : Bool) :
    ∃ commands' find', list.foldlM (registerCommand alloc) commands = some commands' ∧
      Stores Command.key commands' find' ∧ (commands'.seed0 = 0 ∧ commands'.seed1 = 0) ∧
      ∀ name, find' (nameTag name) =
        (list.find? fun cmd => cmd.key = name).or (find (nameTag name)) := by
  induction list generalizing commands find with
  | nil => exact ⟨commands, find, rfl, stores, unseeded, fun _ => rfl⟩
  | cons cmd list ih =>
    rw [List.length_cons] at few
    rw [List.map_cons, List.nodup_cons] at apart
    have place := getHash_command unseeded cmd
    have fits := stores.sound.fits (by omega) (.set alloc cmd (getHash commandCallbacks commands cmd))
    obtain ⟨old, next, returns, outcome⟩ :=
      stores.set commandCompare_eq_zero alloc cmd (getHash commandCallbacks commands cmd) fits
    obtain ⟨seed0, seed1, growat, count, oom⟩ := hashmapSetWithHash_stays (by omega) returns
    rcases outcome with ⟨-, -, stores'⟩ | ⟨full, -⟩
    · rw [place] at stores'
      have old (name) (other : name ≠ cmd.key) :
        Function.update find (nameTag cmd.key) (some cmd) (nameTag name) =
          find (nameTag name) :=
        Function.update_of_ne (fun is => other (congrArg Prod.snd is)) _ _
      -- the other commands, from a table that has the first one too
      obtain ⟨commands', find', registered, stores'', unseeded', finds⟩ :=
        ih stores' ⟨seed0.trans unseeded.1, seed1.trans unseeded.2⟩ (by omega) (by omega) apart.2 (by
          intro other mem
          rw [old]
          · exact new other (List.mem_cons_of_mem _ mem)
          · rintro same
            exact apart.1 (same ▸ List.mem_map_of_mem mem))
      refine ⟨commands', find', ?_, stores'', unseeded', fun name => ?_⟩
      · have first : registerCommand alloc commands cmd = some next := by
          rw [registerCommand, hashmapSet, returns]
          rfl
        rw [List.foldlM_cons, first]
        exact registered
      · rw [finds, List.find?_cons]
        by_cases same : cmd.key = name
        · subst same
          -- its name does not come again
          have missing : (list.find? fun other => other.key = cmd.key) = none := by
            refine List.find?_eq_none.mpr fun other mem is => apart.1 ?_
            exact List.mem_map.mpr ⟨other, mem, of_decide_eq_true is⟩
          rw [missing, Option.none_or, Function.update_self, decide_eq_true rfl]
          rfl
        · rw [decide_eq_false same]
          exact congrArg _ (old name (Ne.symm same))
    -- a table that is not full needs no memory
    · rw [oom] at full
      cases full

/-! ### `init_commands` -/

theorem commandList_map : commandList.map Command.toCommand = Commands.commands := by
  rw [commandList, List.map_map]
  exact List.attach_map_subtype_val _

theorem commandList_find (name : Key) :
    (commandList.find? fun cmd => cmd.key = name).map Command.toCommand =
    Commands.lookupCommand name := by
  rw [Commands.lookupCommand, ← commandList_map, List.find?_map]
  congr 2
  funext cmd
  exact decide_eq_decide.mpr Subtype.ext_iff

/-- `init_commands` succeeds with its memory, and then `lookup_command` finds the command of a name,
if there is one. -/
theorem initCommands_spec : ∃ commands, initCommands true = some commands ∧
    ∀ name, (lookupCommand commands name).map (Option.map Command.toCommand) =
      some (Commands.lookupCommand name) := by
  obtain ⟨start, new⟩ : ∃ start, hashmapNew (α := Command) true (2 ^ 16) 0 0 = some start := ⟨_, rfl⟩
  have empty : start.seed0 = 0 ∧ start.seed1 = 0 ∧ start.count = 0 ∧ start.growat = 39321 := by
    cases new
    decide
  obtain ⟨seed0, seed1, count, growat⟩ := empty
  -- far from the load at which the table would grow
  have number : commandList.length = 14 := by decide
  obtain ⟨commands, find, registered, stores, unseeded, finds⟩ :=
    register_all commandList (hashmapNew_stores Command.key new) ⟨seed0, seed1⟩ (by omega)
      (by rw [growat]; decide) (by decide) (fun _ _ => rfl) true
  refine ⟨commands, ?_, fun name => ?_⟩
  · rw [initCommands, new]
    exact registered
  · have key : (Command.ofName name).key = name := rfl
    have got := stores.get commandCompare_eq_zero (.ofName name)
      (getHash commandCallbacks commands (.ofName name))
    have place := getHash_command unseeded (.ofName name)
    rw [place, key, finds, Option.or_none] at got
    rw [lookupCommand, hashmapGet, got, ← commandList_find]
    rfl

end GhettoRedis.Table
