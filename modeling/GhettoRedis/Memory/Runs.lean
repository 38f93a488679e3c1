import GhettoRedis.Memory.Moves

/-!
# Runs with memory

In every run of the server nothing is freed twice, used when it is free or used behind its end, as
long as its steps stay within their buffers and no connection is freed under a message, and every
cell is counted.
-/
namespace GhettoRedis.Memory

open Lib Protocol Commands HeapM Server

variable {n : ℕ}

/-! ### Runs -/

def Observation.key : Observation → Option Bytes
  | .lost key => some key
  | .reply _ _ => none

/-- The keys whose copies are lost. -/
def lostOf (trace : List Observation) : List Bytes := trace.filterMap Observation.key

theorem lostOf_append (trace seen : List Observation) :
    lostOf (trace ++ seen) = lostOf trace ++ lostOf seen :=
  List.filterMap_append

/-- What a step shows of memory: replies lose nothing. -/
theorem lostOf_step (server : Option Write) (replies : List Write) (keys : List Bytes) :
    lostOf (replies.map (.reply server) ++ keys.map .lost) = keys := by
  have none : lostOf (replies.map (.reply server)) = [] := by
    simp [lostOf, Observation.key]
  rw [lostOf_append, none, List.nil_append, lostOf, List.filterMap_map]
  exact List.filterMap_some

theorem accounted_init : Accounted (State.init n).view (Process.init n) [] := by
  refine ⟨⟨by simp [Process.init], List.nodupKeys_nil⟩, [], fun _ => 0, 0, ?_, rfl,
    List.nodupKeys_nil, ?_, ?_, lost_nil⟩
  · simp [Process.init]
  · exact fun _ => rfl
  · exact fun i => ⟨0, 0, 0, ⟨.nil, .nil, .none rfl⟩, rfl⟩

/-- What is known of a run with memory. -/
structure Kept (s : State n × Option (Process n)) (trace : List Observation) : Prop where
  accounted : ∃ m, s.2 = some m ∧ Accounted s.1.view m (lostOf trace)
  replies : ∀ server w, .reply server w ∈ trace → server = some w

theorem Kept.step [NeZero n] {cfg : Config} {s s' : State n × Option (Process n)}
    {trace seen : List Observation} {a : Fin n × Action} (kept : Kept s trace)
    (sound : SoundStep cfg s.1.view a.1 a.2) (taken : (allocated cfg).step s a = some (s', seen)) :
    Kept s' (trace ++ seen) := by
  obtain ⟨s, memory⟩ := s
  obtain ⟨⟨m, rfl, accounted⟩, replies⟩ := kept
  obtain ⟨unfreed, bounded⟩ := sound
  cases stepped : Server.step cfg s a.1 a.2 with
  | none => simp [allocated, stepped, unfreed] at taken
  | some result =>
    obtain ⟨next, events⟩ := result
    have move := move_of_step stepped
    have reads := readsInside_iff_shortArgs.mpr bounded.args
    have fits := move.fits_iff.mpr bounded.room
    obtain ⟨m', reply, steps, agrees, accounted'⟩ :=
      step_spec accounted move ((sound_iff move).mpr bounded.counters)
    simp only [allocated, stepped, Option.bind_some, if_pos (And.intro reads fits), steps,
      Option.some.injEq, Prod.mk.injEq] at taken
    obtain ⟨rfl, rfl⟩ := taken
    -- what is seen of the step is at most one reply, and the keys that it loses
    refine ⟨⟨m', rfl, by rwa [lostOf_append, lostOf_step]⟩, fun server w mem => ?_⟩
    rcases List.mem_append.mp mem with old | new
    · exact replies server w old
    · rcases List.mem_append.mp new with new | new
      · obtain ⟨w', is, same⟩ := List.mem_map.mp new
        cases same
        exact agrees w (by simpa using is)
      · simp at new

/-- Runs in which no step uses a freed connection or leaves a buffer. -/
abbrev SoundRun [NeZero n] (cfg : Config) (s : State n × Option (Process n)) (trace : List Observation) :
    Prop :=
  (allocated cfg).Run (fun s a => SoundStep cfg s.1.view a.1 a.2) (State.init n, some (Process.init n)) s trace

/-- Runs in which connections are freed when they are settled and no step leaves a buffer. -/
abbrev CleanRun [NeZero n] (cfg : Config) (s : State n × Option (Process n)) (trace : List Observation) :
    Prop :=
  (allocated cfg).Run (fun s a => CleanStep cfg s.1.view a.1 a.2) (State.init n, some (Process.init n)) s trace

section Runs

variable [NeZero n] {cfg : Config} {s next : State n} {memory after : Option (Process n)}
  {trace observed : List Observation} {i : Fin n} {a : Action}

theorem SoundRun.kept {s : State n × Option (Process n)} (run : SoundRun cfg s trace) : Kept s trace :=
  run.invariant Kept ⟨⟨_, rfl, accounted_init⟩, by simp⟩
    fun _ _ _ _ _ _ kept sound taken => kept.step sound taken

/-- In a clean run no callback finds its connection freed. -/
theorem CleanRun.sound {s : State n × Option (Process n)} (run : CleanRun cfg s trace) :
    SoundRun cfg s trace ∧ Alive s.1.view := by
  refine run.invariant (fun s trace => SoundRun cfg s trace ∧ Alive s.1.view) ⟨.refl, alive_init n⟩ ?_
  rintro ⟨s, memory⟩ trace ⟨i, a⟩ ⟨next, after⟩ seen - ⟨before, alive⟩ ⟨settled, bounded⟩ taken
  have unfreed := not_dangling_of_unfreed alive.unfreed i a
  refine ⟨before.step ⟨unfreed, bounded⟩ taken, ?_⟩
  cases stepped : Server.step cfg s i a with
  | none => simp [allocated, stepped, unfreed] at taken
  | some result =>
    have goes : next = result.1 := by
      simp only [allocated, stepped] at taken
      split at taken <;> cases taken <;> rfl
    exact goes ▸ alive.move settled (move_of_step stepped)

end Runs

/-- One client counts, on its own shard and on the other, and `INCRBY` is refused once. -/
def counts : List (Fin 2 × Action) :=
  goToSleep shard0 0 ++ acceptClient shard0 65536 ++ goToSleep shard0 1 ++
    readFrom shard0 0 (asciiBytes "INCRBY d x" ++ crlf ++ asciiBytes "INCR d" ++ crlf ++
      asciiBytes "INCR a" ++ crlf) ++
    List.replicate 3 (serveNext shard0) ++ List.replicate 2 (shard0, .go) ++
    List.replicate 11 (shard1, .go) ++ List.replicate 12 (shard0, .go) ++ [serveNext shard0]

/-- The cells of a message: its context with a key and a value, or with the copy of an entry. -/
def messageCells : Message n → ℕ
  | .request _ _ _ (.set _) => 3
  | .request _ _ _ _ => 2
  | .response _ (.entry (some _)) => 4
  | .response _ _ => 1

/-- A callback has its whole message, and behind it only the context is left. -/
def contextCells : Pc n → ℕ
  | .callback _ msg => messageCells msg
  | pc => if within pc then 1 else 0

/-- The cells that shard `i` holds. -/
def heldCells (v : View n) (i : Fin n) : ℕ :=
  ((v.queue i).map messageCells).sum + ((v.pc i).sending.map messageCells).sum + contextCells (v.pc i)

theorem Carries.card {p : Ptr} {msg : Message n} {own : Owned Cell} (carries : Carries p msg own) :
    own.card = messageCells msg := by
  cases carries with
  | @request _ _ _ _ _ fields =>
    cases fields <;> rfl
  | response copies =>
    cases copies <;> rfl

theorem Queued.card {ps : List Ptr} {msgs : List (Message n)} {own : Owned Cell}
    (queued : Queued ps msgs own) :
    own.card = (msgs.map messageCells).sum := by
  induction queued with
  | nil => rfl
  | cons carries _ ih => rw [Multiset.card_add, carries.card, ih, List.map_cons, List.sum_cons]

theorem Calls.card {ctx : Option Ptr} {pc : Pc n} {own : Owned Cell} (calls : Calls ctx pc own) :
    own.card = contextCells pc := by
  unfold contextCells
  cases calls with
  | message carries => exact carries.card
  | context calling inside =>
    split
    next => cases calling
    next => simp [inside, cellAt]
  | none outside =>
    split
    next => cases outside
    next => simp [outside]

theorem Held.card {m : Process n} {v : View n} {i : Fin n} {own : Owned Cell}
    (held : Held Calls m v i own) :
    own.card = heldCells v i := by
  obtain ⟨q, h, c, holds, rfl⟩ := held
  rw [heldCells, Multiset.card_add, Multiset.card_add, holds.queue.card, holds.message.card,
    holds.ctx.card, add_assoc]

end GhettoRedis.Memory
