import Mathlib.Algebra.Ring.Nat
import GhettoRedis.Lib.Ring
import GhettoRedis.Mpmcq.Threads

/-!
# The cells of the queue under concurrent threads

Each cell passes through generations `g`, `g + n`, `g + 2n`, … of the positions it
serves. Within generation `g` its sequence number is `g` until the thread that
claimed `g` publishes, and `g + 1` until the thread that took `g` releases the cell to
generation `g + n`. `Core` states this of every cell, with what each thread inside an
operation relies on; the sequence number of a cell never decreases, which is why a
value loaded long ago still excludes every earlier generation when a CAS succeeds.
-/
namespace GhettoRedis.Mpmcq.Concurrent

open Lib

variable {τ α : Type}

/-! ### What a thread holds -/

/-- The position a thread has claimed for its enqueue and not published yet. -/
def Pc.enqueues : Pc α → Option (ℕ × α)
  | .enqueueClaimed data pos => some (pos, data)
  | .enqueueStored data pos => some (pos, data)
  | _ => none

/-- The position a thread has taken for its dequeue and not released yet. -/
def Pc.dequeues : Pc α → Option ℕ
  | .dequeueClaimed pos => some pos
  | .dequeueRead pos _ => some pos
  | _ => none

/-- A sequence number loaded earlier, perhaps stale by now. -/
def Pc.loaded : Pc α → Option (ℕ × ℕ)
  | .enqueueSeq _ pos seq => some (pos, seq)
  | .dequeueSeq pos seq => some (pos, seq)
  | _ => none

/-! ### The positions claimed and taken -/

def Event.claimedPos : Event τ α → Option ℕ
  | .claimed _ pos _ => some pos
  | _ => none

def Event.takenPos : Event τ α → Option ℕ
  | .taken _ pos => some pos
  | _ => none

structure Positions (s : State τ α) (trace : List (Event τ α)) : Prop where
  claimed : trace.filterMap Event.claimedPos = List.range s.enqueuePos
  taken : trace.filterMap Event.takenPos = List.range s.dequeuePos

theorem positions_init (n : ℕ) : Positions (State.init n : State τ α) [] := ⟨rfl, rfl⟩

theorem Positions.claimed_lt {s : State τ α} {trace : List (Event τ α)}
    (positions : Positions s trace) {t : τ} {pos : ℕ} {v : α} (h : .claimed t pos v ∈ trace) :
    pos < s.enqueuePos := by
  have member : pos ∈ trace.filterMap Event.claimedPos := List.mem_filterMap.mpr ⟨_, h, rfl⟩
  rwa [positions.claimed, List.mem_range] at member

theorem Positions.taken_lt {s : State τ α} {trace : List (Event τ α)}
    (positions : Positions s trace) {t : τ} {pos : ℕ} (h : .taken t pos ∈ trace) :
    pos < s.dequeuePos := by
  have member : pos ∈ trace.filterMap Event.takenPos := List.mem_filterMap.mpr ⟨_, h, rfl⟩
  rwa [positions.taken, List.mem_range] at member

theorem Positions.claimed_unique {s : State τ α} {trace : List (Event τ α)}
    (positions : Positions s trace) {t t' : τ} {pos : ℕ} {v v' : α}
    (h : .claimed t pos v ∈ trace) (h' : .claimed t' pos v' ∈ trace) : t = t' ∧ v = v' := by
  have nodup : (trace.filterMap Event.claimedPos).Nodup := positions.claimed ▸ List.nodup_range
  simpa using eq_of_filterMap_nodup nodup h h' rfl rfl

theorem Positions.taken_unique {s : State τ α} {trace : List (Event τ α)}
    (positions : Positions s trace) {t t' : τ} {pos : ℕ}
    (h : .taken t pos ∈ trace) (h' : .taken t' pos ∈ trace) : t = t' := by
  have nodup : (trace.filterMap Event.takenPos).Nodup := positions.taken ▸ List.nodup_range
  simpa using eq_of_filterMap_nodup nodup h h' rfl rfl

/-! ### The cells and the threads inside an operation -/

/-- The cell of position `pos` serves generation `g`. -/
structure Serves (s : State τ α) (k pos g : ℕ) : Prop where
  residue : g % 2 ^ k = pos % 2 ^ k
  ahead : s.enqueuePos ≤ g + 2 ^ k
  released : 2 ^ k ≤ g → g - 2 ^ k < s.dequeuePos
  phase : (s.cell pos).seq = g ∨ (s.cell pos).seq = g + 1 ∧ g < s.enqueuePos

structure Core (k : ℕ) (s : State τ α) (trace : List (Event τ α)) : Prop where
  mask : s.bufferMask = 2 ^ k - 1
  ordered : s.dequeuePos ≤ s.enqueuePos
  cells : ∀ pos, ∃ g, Serves s k pos g
  enqueuing : ∀ t pos v, (s.pc t).enqueues = some (pos, v) →
    .claimed t pos v ∈ trace ∧ (s.cell pos).seq = pos
  dequeuing : ∀ t pos, (s.pc t).dequeues = some pos →
    .taken t pos ∈ trace ∧ (s.cell pos).seq = pos + 1
  stale : ∀ t pos seq, (s.pc t).loaded = some (pos, seq) → seq ≤ (s.cell pos).seq

theorem two_le_two_pow {k : ℕ} (hk : 1 ≤ k) : 2 ≤ 2 ^ k :=
  calc 2 = 2 ^ 1 := rfl
    _ ≤ 2 ^ k := Nat.pow_le_pow_right (by omega) hk

/-- Neighbouring positions have different cells. -/
theorem succ_mod_ne {k : ℕ} (hk : 1 ≤ k) (pos : ℕ) : (pos + 1) % 2 ^ k ≠ pos % 2 ^ k :=
  (mod_ne_of_lt (by omega) (by have := two_le_two_pow hk; omega)).symm

section Cells

variable {k : ℕ} {s : State τ α} {trace : List (Event τ α)}

theorem Core.index (core : Core k s trace) (pos : ℕ) : pos &&& s.bufferMask = pos % 2 ^ k := by
  rw [core.mask, Nat.and_two_pow_sub_one_eq_mod]

theorem Core.cell_congr (core : Core k s trace) {pos pos' : ℕ} (same : pos % 2 ^ k = pos' % 2 ^ k) :
    s.cell pos = s.cell pos' := by
  rw [State.cell, State.cell, core.index, core.index, same]

theorem Core.setCell_cell (core : Core k s trace) (pos pos' : ℕ) (c : Cell α) :
    (s.setCell pos c).cell pos' = if pos' % 2 ^ k = pos % 2 ^ k then c else s.cell pos' := by
  simp only [State.cell, State.setCell, core.index, Function.update_apply]

/-- The generation of a cell whose sequence number is `pos` or `pos + 1`. -/
theorem Serves.generation {g pos : ℕ} (hk : 1 ≤ k) (serves : Serves s k pos g)
    (seq : (s.cell pos).seq = pos ∨ (s.cell pos).seq = pos + 1) : g = pos := by
  have two := two_le_two_pow hk
  have phase := serves.phase
  exact eq_of_mod_eq serves.residue (by omega) (by omega)

/-- When the CAS of an enqueue succeeds, the cell is still free for that position. -/
theorem Core.claim_ready (hk : 1 ≤ k) (core : Core k s trace) {t : τ} {v : α}
    (at_pc : s.pc t = .enqueueSeq v s.enqueuePos s.enqueuePos) :
    (s.cell s.enqueuePos).seq = s.enqueuePos := by
  have two := two_le_two_pow hk
  have stale := core.stale t s.enqueuePos s.enqueuePos (by rw [at_pc]; rfl)
  have ordered := core.ordered
  obtain ⟨g, residue, ahead, released, phase⟩ := core.cells s.enqueuePos
  have same : g = s.enqueuePos := by
    refine eq_of_mod_eq residue ?_ (by omega)
    by_cases later : 2 ^ k ≤ g
    · have := released later
      omega
    · omega
  omega

/-- When the CAS of a dequeue succeeds, the cell still holds that position's value. -/
theorem Core.take_ready (hk : 1 ≤ k) (core : Core k s trace) {t : τ}
    (at_pc : s.pc t = .dequeueSeq s.dequeuePos (s.dequeuePos + 1)) :
    (s.cell s.dequeuePos).seq = s.dequeuePos + 1 ∧ s.dequeuePos < s.enqueuePos := by
  have two := two_le_two_pow hk
  have stale := core.stale t s.dequeuePos (s.dequeuePos + 1) (by rw [at_pc]; rfl)
  obtain ⟨g, residue, ahead, released, phase⟩ := core.cells s.dequeuePos
  have same : g = s.dequeuePos := by
    refine eq_of_mod_eq residue ?_ (by omega)
    by_cases later : 2 ^ k ≤ g
    · have := released later
      omega
    · omega
  omega

end Cells

theorem core_init (k : ℕ) : Core k (State.init (2 ^ k) : State τ α) [] := by
  have cell (pos : ℕ) : ((State.init (2 ^ k) : State τ α).cell pos).seq = pos % 2 ^ k := by
    simp only [State.cell, State.init, Nat.and_two_pow_sub_one_eq_mod]
  refine ⟨rfl, Nat.le_refl _, fun pos => ⟨pos % 2 ^ k, Nat.mod_mod _ _, Nat.zero_le _,
    fun large => ?_, .inl (cell pos)⟩, ?_, ?_, ?_⟩
  · exact absurd (Nat.mod_lt pos (Nat.two_pow_pos k)) (by omega)
  · intro t pos v h
    simp [State.init, Pc.enqueues] at h
  · intro t pos h
    simp [State.init, Pc.dequeues] at h
  · intro t pos seq h
    simp [State.init, Pc.loaded] at h

/-! ### One step -/

variable [DecidableEq τ]

@[simp] theorem goto_pc (s : State τ α) (t t' : τ) (pc : Pc α) :
    (s.goto t pc).pc t' = if t' = t then pc else s.pc t' :=
  Function.update_apply ..

@[simp] theorem goto_cell (s : State τ α) (t : τ) (pc : Pc α) (pos : ℕ) :
    (s.goto t pc).cell pos = s.cell pos := rfl

section Steps

variable {k : ℕ} {s s' : State τ α} {t : τ} {trace seen : List (Event τ α)}

theorem positions_move (positions : Positions s trace) (move : Move s t s' seen) :
    Positions s' (trace ++ seen) := by
  obtain ⟨claimed, taken⟩ := positions
  cases move
  case claim =>
    exact ⟨by simp [claimed, Event.claimedPos, State.goto, List.range_succ],
      by simp [taken, Event.takenPos, State.goto]⟩
  case take =>
    exact ⟨by simp [claimed, Event.claimedPos, State.goto],
      by simp [taken, Event.takenPos, State.goto, List.range_succ]⟩
  all_goals
    exact ⟨by simp [claimed, Event.claimedPos, State.goto, State.setCell],
      by simp [taken, Event.takenPos, State.goto, State.setCell]⟩

/-- A thread that moves on without storing to shared memory. -/
theorem core_goto (core : Core k s trace) (pc : Pc α) (enqueuing : pc.enqueues = none)
    (dequeuing : ∀ pos, pc.dequeues = some pos → (s.pc t).dequeues = some pos)
    (loaded : ∀ pos seq, pc.loaded = some (pos, seq) → seq ≤ (s.cell pos).seq) :
    Core k (s.goto t pc) (trace ++ seen) := by
  refine ⟨core.mask, core.ordered, fun pos => ?_, ?_, ?_, ?_⟩
  · obtain ⟨g, serves⟩ := core.cells pos
    exact ⟨g, serves.residue, serves.ahead, serves.released, serves.phase⟩
  · intro t' pos v h
    -- no position is held for an enqueue at the new place
    by_cases same : t' = t
    · simp [same, enqueuing] at h
    · have old := core.enqueuing t' pos v (by simpa [same] using h)
      exact ⟨List.mem_append_left _ old.1, old.2⟩
  · intro t' pos h
    have holds : (s.pc t').dequeues = some pos := by
      by_cases same : t' = t
      · subst same
        exact dequeuing pos (by simpa using h)
      · simpa [same] using h
    have old := core.dequeuing t' pos holds
    exact ⟨List.mem_append_left _ old.1, old.2⟩
  · intro t' pos seq h
    by_cases same : t' = t
    · exact loaded pos seq (by simpa [same] using h)
    · exact core.stale t' pos seq (by simpa [same] using h)

theorem core_claim (hk : 1 ≤ k) (core : Core k s trace) {v : α}
    (at_pc : s.pc t = .enqueueSeq v s.enqueuePos s.enqueuePos) :
    Core k ({ s with enqueuePos := s.enqueuePos + 1 }.goto t (.enqueueClaimed v s.enqueuePos))
      (trace ++ [.claimed t s.enqueuePos v]) := by
  have two := two_le_two_pow hk
  have ready := core.claim_ready hk at_pc
  refine ⟨core.mask, Nat.le_succ_of_le core.ordered, fun pos => ?_, ?_, ?_, ?_⟩
  · obtain ⟨g, serves⟩ := core.cells pos
    refine ⟨g, serves.residue, ?_, serves.released, ?_⟩
    · -- only the cell of the claimed position could be a whole ring behind, and it is free for it
      have ahead := serves.ahead
      by_cases wraps : s.enqueuePos = g + 2 ^ k
      · have residue : s.enqueuePos % 2 ^ k = pos % 2 ^ k := by
          rw [wraps, Nat.add_mod_right, serves.residue]
        have phase := serves.phase
        rw [← core.cell_congr residue, ready] at phase
        omega
      · change s.enqueuePos + 1 ≤ g + 2 ^ k
        omega
    · exact serves.phase.imp id fun ⟨seq, lt⟩ => ⟨seq, Nat.lt_succ_of_lt lt⟩
  · -- the claimer holds the position; the others stay as they are
    intro t' pos v' h
    by_cases same : t' = t
    · simp only [goto_pc, if_pos same, Pc.enqueues, Option.some.injEq, Prod.mk.injEq] at h
      obtain ⟨rfl, rfl⟩ := h
      subst same
      exact ⟨by simp, ready⟩
    · have old := core.enqueuing t' pos v' (by simpa [same] using h)
      exact ⟨List.mem_append_left _ old.1, old.2⟩
  · intro t' pos h
    by_cases same : t' = t
    · simp [same, Pc.dequeues] at h
    · have old := core.dequeuing t' pos (by simpa [same] using h)
      exact ⟨List.mem_append_left _ old.1, old.2⟩
  · intro t' pos seq h
    by_cases same : t' = t
    · simp [same, Pc.loaded] at h
    · exact core.stale t' pos seq (by simpa [same] using h)

theorem core_take (hk : 1 ≤ k) (core : Core k s trace)
    (at_pc : s.pc t = .dequeueSeq s.dequeuePos (s.dequeuePos + 1)) :
    Core k ({ s with dequeuePos := s.dequeuePos + 1 }.goto t (.dequeueClaimed s.dequeuePos))
      (trace ++ [.taken t s.dequeuePos]) := by
  obtain ⟨ready, below⟩ := core.take_ready hk at_pc
  refine ⟨core.mask, below, fun pos => ?_, ?_, ?_, ?_⟩
  · obtain ⟨g, serves⟩ := core.cells pos
    exact ⟨g, serves.residue, serves.ahead, fun later => Nat.lt_succ_of_lt (serves.released later),
      serves.phase⟩
  · intro t' pos v' h
    by_cases same : t' = t
    · simp [same, Pc.enqueues] at h
    · have old := core.enqueuing t' pos v' (by simpa [same] using h)
      exact ⟨List.mem_append_left _ old.1, old.2⟩
  · intro t' pos h
    by_cases same : t' = t
    · -- the one that takes it finds the value ready
      simp only [goto_pc, if_pos same, Pc.dequeues, Option.some.injEq] at h
      subst same h
      exact ⟨by simp, ready⟩
    · have old := core.dequeuing t' pos (by simpa [same] using h)
      exact ⟨List.mem_append_left _ old.1, old.2⟩
  · intro t' pos seq h
    by_cases same : t' = t
    · simp [same, Pc.loaded] at h
    · exact core.stale t' pos seq (by simpa [same] using h)

/-- A thread that stores to the cell of `pos`, where no other thread relies on the
sequence number it replaces. -/
theorem core_setCell (core : Core k s trace) (pos : ℕ) (c : Cell α) (pc : Pc α)
    (grows : (s.cell pos).seq ≤ c.seq)
    (serves : ∃ g, g % 2 ^ k = pos % 2 ^ k ∧ s.enqueuePos ≤ g + 2 ^ k ∧
      (2 ^ k ≤ g → g - 2 ^ k < s.dequeuePos) ∧ (c.seq = g ∨ c.seq = g + 1 ∧ g < s.enqueuePos))
    (enqueuing : ∀ t' pos' v, t' ≠ t → pos' % 2 ^ k = pos % 2 ^ k →
      (s.pc t').enqueues = some (pos', v) → c.seq = pos')
    (dequeuing : ∀ t' pos', t' ≠ t → pos' % 2 ^ k = pos % 2 ^ k →
      (s.pc t').dequeues = some pos' → c.seq = pos' + 1)
    (own : ∀ pos' v, pc.enqueues = some (pos', v) →
      pos' = pos ∧ (s.pc t).enqueues = some (pos, v) ∧ c.seq = pos)
    (holdsNone : pc.dequeues = none) (loadedNone : pc.loaded = none) :
    Core k ((s.setCell pos c).goto t pc) (trace ++ seen) := by
  refine ⟨core.mask, core.ordered, fun pos' => ?_, ?_, ?_, ?_⟩
  · -- the cells that share the slot with `pos` change, the others do not
    by_cases same : pos' % 2 ^ k = pos % 2 ^ k
    · obtain ⟨g, residue, ahead, released, phase⟩ := serves
      refine ⟨g, residue.trans same.symm, ahead, released, ?_⟩
      rwa [goto_cell, core.setCell_cell, if_pos same]
    · obtain ⟨g, serves⟩ := core.cells pos'
      refine ⟨g, serves.residue, serves.ahead, serves.released, ?_⟩
      rw [goto_cell, core.setCell_cell, if_neg same]
      exact serves.phase
  · intro t' pos' v h
    rw [goto_cell, core.setCell_cell]
    by_cases mine : t' = t
    · obtain ⟨rfl, old, seq⟩ := own pos' v (by simpa [mine] using h)
      subst mine
      exact ⟨List.mem_append_left _ (core.enqueuing t' pos' v old).1, by simpa using seq⟩
    · have holds : (s.pc t').enqueues = some (pos', v) := by simpa [mine, State.setCell] using h
      have old := core.enqueuing t' pos' v holds
      refine ⟨List.mem_append_left _ old.1, ?_⟩
      -- another thread that holds a position of this slot
      split
      next same => exact enqueuing t' pos' v mine same holds
      next => exact old.2
  · intro t' pos' h
    rw [goto_cell, core.setCell_cell]
    by_cases mine : t' = t
    · simp [mine, holdsNone] at h
    · have holds : (s.pc t').dequeues = some pos' := by simpa [mine, State.setCell] using h
      have old := core.dequeuing t' pos' holds
      refine ⟨List.mem_append_left _ old.1, ?_⟩
      split
      next same => exact dequeuing t' pos' mine same holds
      next => exact old.2
  · intro t' pos' seq h
    rw [goto_cell, core.setCell_cell]
    by_cases mine : t' = t
    · simp [mine, loadedNone] at h
    · -- what was loaded before is at most what the cell holds now
      have old := core.stale t' pos' seq (by simpa [mine, State.setCell] using h)
      split
      next same => exact (core.cell_congr same ▸ old).trans grows
      next => exact old

theorem core_store (core : Core k s trace) {v : α} {pos : ℕ}
    (at_pc : s.pc t = .enqueueClaimed v pos) :
    Core k ((s.setCell pos { s.cell pos with data := some v }).goto t (.enqueueStored v pos))
      (trace ++ seen) := by
  have holds : (s.pc t).enqueues = some (pos, v) := by rw [at_pc]; rfl
  obtain ⟨g, residue, ahead, released, phase⟩ := core.cells pos
  refine core_setCell core pos _ _ (Nat.le_refl _) ⟨g, residue, ahead, released, phase⟩ ?_ ?_ ?_
    rfl rfl
  · intro t' pos' v' _ same holds'
    exact core.cell_congr same ▸ (core.enqueuing t' pos' v' holds').2
  · intro t' pos' _ same holds'
    exact core.cell_congr same ▸ (core.dequeuing t' pos' holds').2
  · intro pos' v' h
    simp only [Pc.enqueues, Option.some.injEq, Prod.mk.injEq] at h
    obtain ⟨rfl, rfl⟩ := h
    exact ⟨rfl, holds, (core.enqueuing t pos v holds).2⟩

theorem core_publish (hk : 1 ≤ k) (core : Core k s trace) (positions : Positions s trace) {v : α}
    {pos : ℕ} (at_pc : s.pc t = .enqueueStored v pos) :
    Core k ((s.setCell pos { s.cell pos with seq := pos + 1 }).goto t .idle) (trace ++ seen) := by
  obtain ⟨claimed, seq⟩ := core.enqueuing t pos v (by rw [at_pc]; rfl)
  obtain ⟨g, serves⟩ := core.cells pos
  obtain rfl : g = pos := serves.generation hk (.inl seq)
  refine core_setCell core g _ _ (by simp [seq])
    ⟨g, rfl, serves.ahead, serves.released, .inr ⟨rfl, positions.claimed_lt claimed⟩⟩ ?_ ?_
    (fun _ _ h => by simp [Pc.enqueues] at h) rfl rfl
  · -- no other thread enqueues at this position
    intro t' pos' v' other same holds'
    obtain ⟨claimed', seq'⟩ := core.enqueuing t' pos' v' holds'
    rw [core.cell_congr same, seq] at seq'
    subst seq'
    exact absurd (positions.claimed_unique claimed' claimed).1 other
  · -- a thread dequeuing at this cell would need the sequence number of a neighbour
    intro t' pos' _ same holds'
    have seq' := (core.dequeuing t' pos' holds').2
    rw [core.cell_congr same, seq] at seq'
    subst seq'
    exact absurd same.symm (succ_mod_ne hk pos')

theorem core_release (hk : 1 ≤ k) (core : Core k s trace) (positions : Positions s trace)
    {pos : ℕ} {d : Option α} (at_pc : s.pc t = .dequeueRead pos d) :
    Core k ((s.setCell pos { s.cell pos with seq := pos + s.bufferMask + 1 }).goto t .idle)
      (trace ++ seen) := by
  have two := two_le_two_pow hk
  have mask := core.mask
  obtain ⟨taken, seq⟩ := core.dequeuing t pos (by rw [at_pc]; rfl)
  obtain ⟨g, serves⟩ := core.cells pos
  -- the cell serves the generation of `pos`
  obtain rfl : g = pos := serves.generation hk (.inr seq)
  have next : g + s.bufferMask + 1 = g + 2 ^ k := by omega
  have ahead := serves.ahead
  refine core_setCell core g _ _ (by simp only [seq]; omega)
    ⟨g + 2 ^ k, Nat.add_mod_right _ _, by omega, fun _ => by
      simpa using positions.taken_lt taken, .inl next⟩ ?_ ?_
    (fun _ _ h => by simp [Pc.enqueues] at h) rfl rfl
  · -- nobody enqueues there before the release
    intro t' pos' v' _ same holds'
    have seq' := (core.enqueuing t' pos' v' holds').2
    rw [core.cell_congr same, seq] at seq'
    subst seq'
    exact absurd same (succ_mod_ne hk g)
  · -- nobody else dequeues there, as `pos` was taken once
    intro t' pos' other same holds'
    obtain ⟨taken', seq'⟩ := core.dequeuing t' pos' holds'
    rw [core.cell_congr same, seq] at seq'
    obtain rfl : pos' = g := by omega
    exact absurd (positions.taken_unique taken' taken) other

theorem core_move (hk : 1 ≤ k) (core : Core k s trace) (positions : Positions s trace)
    (move : Move s t s' seen) : Core k s' (trace ++ seen) := by
  cases move with
  | callEnqueue data at_pc =>
    exact core_goto core _ rfl (fun _ h => by cases h) (fun _ _ h => by cases h)
  | callDequeue at_pc =>
    exact core_goto core _ rfl (fun _ h => by cases h) (fun _ _ h => by cases h)
  | loadEnqueuePos data at_pc =>
    exact core_goto core _ rfl (fun _ h => by cases h) (fun _ _ h => by cases h)
  | loadEnqueueSeq data pos at_pc =>
    refine core_goto core _ rfl (fun _ h => by cases h) (fun pos' seq h => ?_)
    simp only [Pc.loaded, Option.some.injEq, Prod.mk.injEq] at h
    obtain ⟨rfl, rfl⟩ := h
    exact Nat.le_refl _
  | claim data at_pc => exact core_claim hk core at_pc
  | store data pos at_pc => exact core_store core at_pc
  | publish data pos at_pc => exact core_publish hk core positions at_pc
  | loadDequeuePos at_pc =>
    exact core_goto core _ rfl (fun _ h => by cases h) (fun _ _ h => by cases h)
  | loadDequeueSeq pos at_pc =>
    refine core_goto core _ rfl (fun _ h => by cases h) (fun pos' seq h => ?_)
    simp only [Pc.loaded, Option.some.injEq, Prod.mk.injEq] at h
    obtain ⟨rfl, rfl⟩ := h
    exact Nat.le_refl _
  | refuse pos seq at_pc =>
    exact core_goto core _ rfl (fun _ h => by cases h) (fun _ _ h => by cases h)
  | take at_pc => exact core_take hk core at_pc
  | read pos at_pc =>
    exact core_goto core _ rfl (fun pos' h => by rw [at_pc]; exact h) (fun _ _ h => by cases h)
  | release pos data at_pc => exact core_release hk core positions at_pc

/-- Sequence numbers never decrease. -/
theorem seq_mono (hk : 1 ≤ k) (core : Core k s trace) (move : Move s t s' seen) (pos : ℕ) :
    (s.cell pos).seq ≤ (s'.cell pos).seq := by
  cases move with
  | store data pos' at_pc =>
    rw [goto_cell, core.setCell_cell]
    split
    next same => rw [core.cell_congr same]
    next => exact Nat.le_refl _
  -- only the publication and the release write a sequence number
  | publish data pos' at_pc =>
    have seq := (core.enqueuing t pos' data (by rw [at_pc]; rfl)).2
    rw [goto_cell, core.setCell_cell]
    split
    next same => rw [core.cell_congr same, seq]; exact Nat.le_succ _
    next => exact Nat.le_refl _
  | release pos' data at_pc =>
    have seq := (core.dequeuing t pos' (by rw [at_pc]; rfl)).2
    have two := two_le_two_pow hk
    have mask := core.mask
    rw [goto_cell, core.setCell_cell]
    split
    next same => rw [core.cell_congr same, seq]; dsimp only; omega
    next => exact Nat.le_refl _
  | _ => exact Nat.le_refl _

end Steps

end GhettoRedis.Mpmcq.Concurrent
