import GhettoRedis.Mpmcq.Cells

/-!
# No message is lost, duplicated or invented

What the cells guarantee of a run: the value read at a position is the one its
enqueue stored, a value is read before its cell is written again, and what is
returned was taken once.
-/
namespace GhettoRedis.Mpmcq.Concurrent

open Lib

variable {τ α : Type}

/-! ### Reading a trace -/

def Event.returnedPos : Event τ α → Option ℕ
  | .returned _ pos _ => some pos
  | _ => none

def Event.calledBy [DecidableEq τ] (t : τ) : Event τ α → Option α
  | .called t' data => if t' = t then some data else none
  | _ => none

def Event.claimedBy [DecidableEq τ] (t : τ) : Event τ α → Option α
  | .claimed t' _ data => if t' = t then some data else none
  | _ => none

/-- The queue delivers: positions are claimed once each, in order; a dequeue returns
what the one enqueue of its position passed; no position is returned twice; a cell is
written again only after the value published in it has been read; and the values of
each producer are claimed in the order of its calls. -/
structure Delivers [DecidableEq τ] (n : ℕ) (trace : List (Event τ α)) : Prop where
  claimedOnce : ∃ count, trace.filterMap Event.claimedPos = List.range count
  sameValue : ∀ t pos data, .returned t pos data ∈ trace →
    ∃ t' v, .claimed t' pos v ∈ trace ∧ data = some v ∧
      ∀ t'' v', .claimed t'' pos v' ∈ trace → t'' = t' ∧ v' = v
  returnedOnce : (trace.filterMap Event.returnedPos).Nodup
  notOverwritten : ∀ before t pos v after, trace = before ++ .stored t pos v :: after →
    ∀ t' pos', .published t' pos' ∈ before → pos' % n = pos % n →
      ∃ t'' data, .read t'' pos' data ∈ before
  inOrder : ∀ t, trace.filterMap (Event.claimedBy t) <+: trace.filterMap (Event.calledBy t)

/-- The value of an enqueue that has not claimed a position yet. -/
def Pc.pending : Pc α → List α
  | .enqueueStart data => [data]
  | .enqueueTop data _ => [data]
  | .enqueueSeq data _ _ => [data]
  | _ => []

/-! ### The values -/

structure Values (s : State τ α) (trace : List (Event τ α)) : Prop where
  stored : ∀ t pos v, s.pc t = .enqueueStored v pos → (s.cell pos).data = some v
  data : ∀ t pos v, .claimed t pos v ∈ trace → (s.cell pos).seq = pos + 1 →
    (s.cell pos).data = some v
  read : ∀ t pos d, .read t pos d ∈ trace → ∃ t' v, .claimed t' pos v ∈ trace ∧ d = some v

structure Passed (s : State τ α) (trace : List (Event τ α)) : Prop where
  published : ∀ t pos, .published t pos ∈ trace → pos < s.enqueuePos ∧ pos < (s.cell pos).seq
  returned : ∀ t pos d, .returned t pos d ∈ trace → pos + 1 < (s.cell pos).seq
  returnedRead : ∀ t pos d, .returned t pos d ∈ trace → .read t pos d ∈ trace
  holding : ∀ t pos d, s.pc t = .dequeueRead pos d → .read t pos d ∈ trace
  returnedOnce : (trace.filterMap Event.returnedPos).Nodup
  unread : ∀ pos < s.dequeuePos,
    (∃ t, s.pc t = .dequeueClaimed pos) ∨ ∃ t d, .read t pos d ∈ trace

theorem values_init (n : ℕ) : Values (State.init n : State τ α) [] := by
  constructor <;> simp [State.init]

theorem passed_init (n : ℕ) : Passed (State.init n : State τ α) [] := by
  constructor <;> simp [State.init]

variable [DecidableEq τ]

section Steps

variable {k : ℕ} {s s' : State τ α} {t : τ} {trace seen : List (Event τ α)}

/-- A step that leaves all cells alone and claims, stores and reads nothing. -/
theorem values_goto (values : Values s trace) (pc : Pc α)
    (notStored : ∀ v pos, pc ≠ .enqueueStored v pos)
    (quiet : ∀ e ∈ seen, (∀ t pos v, e ≠ .claimed t pos v) ∧ ∀ t pos d, e ≠ .read t pos d) :
    Values (s.goto t pc) (trace ++ seen) := by
  refine ⟨?_, ?_, ?_⟩
  · intro t' pos v h
    by_cases same : t' = t
    · exact absurd (by simpa [same] using h) (notStored v pos)
    · exact values.stored t' pos v (by simpa [same] using h)
  · intro t' pos v h seq
    rcases List.mem_append.mp h with old | new
    · exact values.data t' pos v old seq
    · exact absurd rfl ((quiet _ new).1 t' pos v)
  · intro t' pos d h
    rcases List.mem_append.mp h with old | new
    · obtain ⟨t'', v, claimed, eq⟩ := values.read t' pos d old
      exact ⟨t'', v, List.mem_append_left _ claimed, eq⟩
    · exact absurd rfl ((quiet _ new).2 t' pos d)

theorem values_claim (hk : 1 ≤ k) (core : Core k s trace) (values : Values s trace) {v : α}
    (at_pc : s.pc t = .enqueueSeq v s.enqueuePos s.enqueuePos) :
    Values ({ s with enqueuePos := s.enqueuePos + 1 }.goto t (.enqueueClaimed v s.enqueuePos))
      (trace ++ [.claimed t s.enqueuePos v]) := by
  refine ⟨?_, ?_, ?_⟩
  · intro t' pos v' h
    by_cases same : t' = t
    · simp [same] at h
    · exact values.stored t' pos v' (by simpa [same] using h)
  · intro t' pos v' h seq
    simp only [List.mem_append, List.mem_singleton, Event.claimed.injEq] at h
    rcases h with old | ⟨rfl, rfl, rfl⟩
    · exact values.data t' pos v' old seq
    · -- the claimed cell is still empty
      have ready := core.claim_ready hk at_pc
      have : (s.cell s.enqueuePos).seq = s.enqueuePos + 1 := seq
      omega
  · intro t' pos d h
    obtain ⟨t'', v', claimed, eq⟩ := values.read t' pos d (by simpa using h)
    exact ⟨t'', v', List.mem_append_left _ claimed, eq⟩

theorem values_store (hk : 1 ≤ k) (core : Core k s trace) (positions : Positions s trace)
    (values : Values s trace) {v : α} {pos : ℕ} (at_pc : s.pc t = .enqueueClaimed v pos) :
    Values ((s.setCell pos { s.cell pos with data := some v }).goto t (.enqueueStored v pos))
      (trace ++ [.stored t pos v]) := by
  obtain ⟨claimed, seq⟩ := core.enqueuing t pos v (by rw [at_pc]; rfl)
  refine ⟨?_, ?_, ?_⟩
  · intro t' pos' v' h
    rw [goto_cell, core.setCell_cell]
    by_cases mine : t' = t
    · simp only [goto_pc, if_pos mine, Pc.enqueueStored.injEq] at h
      obtain ⟨rfl, rfl⟩ := h
      simp
    · have old : s.pc t' = .enqueueStored v' pos' := by simpa [mine, State.setCell] using h
      obtain ⟨claimed', seq'⟩ := core.enqueuing t' pos' v' (by rw [old]; rfl)
      -- two enqueuers of one slot hold one position
      split
      next same =>
        rw [core.cell_congr same, seq] at seq'
        subst seq'
        exact absurd (positions.claimed_unique claimed' claimed).1 mine
      next => exact values.stored t' pos' v' old
  · intro t' pos' v' h filled
    have old : .claimed t' pos' v' ∈ trace := by simpa using h
    rw [goto_cell, core.setCell_cell] at filled ⊢
    split
    next same =>
      -- the cell is free for `pos`, so it cannot hold the value of a neighbour
      rw [if_pos same, seq] at filled
      subst filled
      exact absurd same.symm (succ_mod_ne hk pos')
    next other =>
      rw [if_neg other] at filled
      exact values.data t' pos' v' old filled
  · intro t' pos' d h
    obtain ⟨t'', v', claimed', eq⟩ := values.read t' pos' d (by simpa using h)
    exact ⟨t'', v', List.mem_append_left _ claimed', eq⟩

/-- A thread that stores a sequence number and keeps the data of the cell. -/
theorem values_setSeq (core : Core k s trace) (values : Values s trace) (pos seq : ℕ)
    (filled : ∀ t' pos' v', pos' % 2 ^ k = pos % 2 ^ k → .claimed t' pos' v' ∈ trace →
      seq = pos' + 1 → (s.cell pos).data = some v')
    (quiet : ∀ e ∈ seen, (∀ t pos v, e ≠ .claimed t pos v) ∧ ∀ t pos d, e ≠ .read t pos d) :
    Values ((s.setCell pos { s.cell pos with seq := seq }).goto t .idle) (trace ++ seen) := by
  refine ⟨?_, ?_, ?_⟩
  · intro t' pos' v' h
    by_cases mine : t' = t
    · simp [mine] at h
    · have old := values.stored t' pos' v' (by simpa [mine, State.setCell] using h)
      rw [goto_cell, core.setCell_cell]
      split
      next same => rw [← core.cell_congr same]; exact old
      next => exact old
  · intro t' pos' v' h full
    rw [goto_cell, core.setCell_cell] at full ⊢
    rcases List.mem_append.mp h with old | new
    · split
      next same => exact filled t' pos' v' same old (by simpa [same] using full)
      next other => exact values.data t' pos' v' old (by simpa [other] using full)
    · exact absurd rfl ((quiet _ new).1 t' pos' v')
  · intro t' pos' d h
    rcases List.mem_append.mp h with old | new
    · obtain ⟨t'', v', claimed', eq⟩ := values.read t' pos' d old
      exact ⟨t'', v', List.mem_append_left _ claimed', eq⟩
    · exact absurd rfl ((quiet _ new).2 t' pos' d)

theorem values_read (core : Core k s trace) (positions : Positions s trace)
    (values : Values s trace) {pos : ℕ} (at_pc : s.pc t = .dequeueClaimed pos) :
    Values (s.goto t (.dequeueRead pos (s.cell pos).data))
      (trace ++ [.read t pos (s.cell pos).data]) := by
  obtain ⟨taken, seq⟩ := core.dequeuing t pos (by rw [at_pc]; rfl)
  have below : pos < s.enqueuePos := (positions.taken_lt taken).trans_le core.ordered
  have claimed : pos ∈ trace.filterMap Event.claimedPos := by
    rw [positions.claimed]
    exact List.mem_range.mpr below
  -- every position below has been claimed by somebody
  obtain ⟨e, member, isClaim⟩ := List.mem_filterMap.mp claimed
  refine ⟨?_, ?_, ?_⟩
  · intro t' pos' v' h
    by_cases mine : t' = t
    · simp [mine] at h
    · exact values.stored t' pos' v' (by simpa [mine] using h)
  · intro t' pos' v' h full
    exact values.data t' pos' v' (by simpa using h) full
  · intro t' pos' d h
    simp only [List.mem_append, List.mem_singleton, Event.read.injEq] at h
    rcases h with old | ⟨rfl, rfl, rfl⟩
    · obtain ⟨t'', v', claimed', eq⟩ := values.read t' pos' d old
      exact ⟨t'', v', List.mem_append_left _ claimed', eq⟩
    · -- what is read is the value of the claim
      cases e with
      | claimed t'' pos'' v =>
        obtain rfl : pos'' = pos' := by simpa [Event.claimedPos] using isClaim
        exact ⟨t'', v, List.mem_append_left _ member, values.data t'' pos'' v member seq⟩
      | _ => simp [Event.claimedPos] at isClaim

theorem values_move (hk : 1 ≤ k) (core : Core k s trace) (positions : Positions s trace)
    (values : Values s trace) (move : Move s t s' seen) : Values s' (trace ++ seen) := by
  cases move with
  | claim data at_pc => exact values_claim hk core values at_pc
  | store data pos at_pc => exact values_store hk core positions values at_pc
  | publish data pos at_pc =>
    have claimed := (core.enqueuing t pos data (by rw [at_pc]; rfl)).1
    refine values_setSeq core values pos (pos + 1) (fun t' pos' v' _ claimed' next => ?_) (by simp)
    obtain rfl : pos' = pos := by omega
    rw [values.stored t pos' data at_pc, (positions.claimed_unique claimed' claimed).2]
  | release pos data at_pc =>
    refine values_setSeq core values pos _ (fun t' pos' v' same _ next => ?_) (by simp)
    -- the released cell is free for the next generation, a whole ring away
    have wraps : (pos' + 1) % 2 ^ k = pos' % 2 ^ k := by
      have two := two_le_two_pow hk
      have mask := core.mask
      rw [← next, show pos + s.bufferMask + 1 = pos + 2 ^ k by omega, Nat.add_mod_right, same]
    exact absurd wraps (succ_mod_ne hk pos')
  | read pos at_pc => exact values_read core positions values at_pc
  | take at_pc =>
    have moved : Values { s with dequeuePos := s.dequeuePos + 1 } trace :=
      ⟨values.stored, values.data, values.read⟩
    exact values_goto moved _ (by simp) (by simp)
  | _ => exact values_goto values _ (by simp) (by simp)

/-! ### Publication and release -/

/-- The new events of a step of `t`, as far as publication and release are concerned. -/
theorem passed_of (passed : Passed s trace) (pc : Pc α)
    (pcs : ∀ t', s'.pc t' = if t' = t then pc else s.pc t')
    (mono : ∀ pos, (s.cell pos).seq ≤ (s'.cell pos).seq) (claims : s.enqueuePos ≤ s'.enqueuePos)
    (published : ∀ t pos, .published t pos ∈ seen → pos < s'.enqueuePos ∧ pos < (s'.cell pos).seq)
    (returned : ∀ t pos d, .returned t pos d ∈ seen →
      pos + 1 < (s'.cell pos).seq ∧ .read t pos d ∈ trace)
    (holding : ∀ pos d, pc = .dequeueRead pos d → .read t pos d ∈ seen)
    (once : seen.filterMap Event.returnedPos = [] ∨ ∃ pos,
      seen.filterMap Event.returnedPos = [pos] ∧ pos ∉ trace.filterMap Event.returnedPos)
    (reads : ∀ pos, s.pc t = .dequeueClaimed pos → ∃ d, .read t pos d ∈ seen)
    (takes : ∀ pos < s'.dequeuePos, pos < s.dequeuePos ∨ pc = .dequeueClaimed pos) :
    Passed s' (trace ++ seen) := by
  refine ⟨?_, ?_, ?_, ?_, ?_, ?_⟩
  · intro t pos h
    rcases List.mem_append.mp h with old | new
    · exact ⟨(passed.published t pos old).1.trans_le claims,
        (passed.published t pos old).2.trans_le (mono pos)⟩
    · exact published t pos new
  · intro t pos d h
    rcases List.mem_append.mp h with old | new
    · exact (passed.returned t pos d old).trans_le (mono pos)
    · exact (returned t pos d new).1
  · intro t pos d h
    rcases List.mem_append.mp h with old | new
    · exact List.mem_append_left _ (passed.returnedRead t pos d old)
    · exact List.mem_append_left _ (returned t pos d new).2
  · intro t' pos d h
    rw [pcs] at h
    split at h
    next mine => subst mine; exact List.mem_append_right _ (holding pos d h)
    next => exact List.mem_append_left _ (passed.holding t' pos d h)
  · -- each position is returned once
    rw [List.filterMap_append]
    rcases once with none | ⟨pos, one, fresh⟩
    · rw [none, List.append_nil]
      exact passed.returnedOnce
    · rw [one, ← List.concat_eq_append]
      exact passed.returnedOnce.concat fresh
  · intro pos below
    rcases takes pos below with old | now
    · -- a position that was taken before is held or read, also after this step
      rcases passed.unread pos old with ⟨t', claimed⟩ | ⟨t', d, read⟩
      · by_cases mine : t' = t
        · subst mine
          obtain ⟨d, read⟩ := reads pos claimed
          exact .inr ⟨t', d, List.mem_append_right _ read⟩
        · exact .inl ⟨t', by rw [pcs, if_neg mine, claimed]⟩
      · exact .inr ⟨t', d, List.mem_append_left _ read⟩
    · exact .inl ⟨t, by rw [pcs, if_pos rfl, now]⟩

theorem passed_move (hk : 1 ≤ k) (core : Core k s trace) (positions : Positions s trace)
    (passed : Passed s trace) (move : Move s t s' seen) : Passed s' (trace ++ seen) := by
  have mono := seq_mono hk core move
  cases move with
  | publish data pos at_pc =>
    obtain ⟨claimed, seq⟩ := core.enqueuing t pos data (by rw [at_pc]; rfl)
    refine passed_of passed _ (fun _ => goto_pc ..) mono (Nat.le_refl _) ?_ (by simp) (by simp)
      (.inl rfl) (by simp [at_pc]) (fun _ => .inl)
    -- the cell is past the position from here on
    intro t' pos' h
    simp only [List.mem_singleton, Event.published.injEq] at h
    obtain ⟨rfl, rfl⟩ := h
    refine ⟨positions.claimed_lt claimed, ?_⟩
    rw [goto_cell, core.setCell_cell, if_pos rfl]
    exact Nat.lt_succ_self _
  | take at_pc =>
    refine passed_of passed _ (fun _ => goto_pc ..) mono (Nat.le_refl _) (by simp) (by simp)
      (by simp) (.inl rfl) (by simp [at_pc]) (fun pos below => ?_)
    have : pos < s.dequeuePos + 1 := below
    rcases Nat.lt_succ_iff_lt_or_eq.mp this with old | rfl
    · exact .inl old
    · exact .inr rfl
  | read pos at_pc =>
    refine passed_of passed _ (fun _ => goto_pc ..) mono (Nat.le_refl _) (by simp) (by simp)
      ?_ (.inl rfl) ?_ (fun _ => .inl)
    · intro pos' d h
      simp only [Pc.dequeueRead.injEq] at h
      obtain ⟨rfl, rfl⟩ := h
      simp
    · intro pos' h
      rw [at_pc, Pc.dequeueClaimed.injEq] at h
      subst h
      exact ⟨_, List.mem_singleton_self _⟩
  | release pos data at_pc =>
    have two := two_le_two_pow hk
    have mask := core.mask
    have seq := (core.dequeuing t pos (by rw [at_pc]; rfl)).2
    refine passed_of passed _ (fun _ => goto_pc ..) mono (Nat.le_refl _) (by simp) ?_ (by simp)
      ?_ (by simp [at_pc]) (fun _ => .inl)
    · intro t' pos' d h
      simp only [List.mem_singleton, Event.returned.injEq] at h
      obtain ⟨rfl, rfl, rfl⟩ := h
      refine ⟨?_, passed.holding t' pos' d at_pc⟩
      rw [goto_cell, core.setCell_cell, if_pos rfl]
      dsimp only
      omega
    · -- a position already returned has a greater sequence number by now
      have fresh : pos ∉ trace.filterMap Event.returnedPos := by
        intro again
        obtain ⟨e, member, isReturn⟩ := List.mem_filterMap.mp again
        cases e with
        | returned t' pos' d =>
          obtain rfl : pos' = pos := by simpa [Event.returnedPos] using isReturn
          have := passed.returned t' pos' d member
          omega
        | _ => simp [Event.returnedPos] at isReturn
      exact .inr ⟨pos, rfl, fresh⟩
  | claim data at_pc =>
    exact passed_of passed _ (fun _ => goto_pc ..) mono (Nat.le_succ _) (by simp) (by simp)
      (by simp) (.inl rfl) (by simp [at_pc]) (fun _ => .inl)
  | callEnqueue data at_pc | callDequeue at_pc | loadEnqueueSeq data pos at_pc
  | store data pos at_pc | loadDequeueSeq pos at_pc | refuse pos seq at_pc =>
    exact passed_of passed _ (fun _ => goto_pc ..) mono (Nat.le_refl _) (by simp) (by simp)
      (by simp) (.inl rfl) (by simp [at_pc]) (fun _ => .inl)
  | loadEnqueuePos data at_pc =>
    have notTaken (pos : ℕ) : s.pc t ≠ .dequeueClaimed pos := by
      rcases at_pc with at_pc | ⟨_, _, at_pc⟩ <;> simp [at_pc]
    exact passed_of passed _ (fun _ => goto_pc ..) mono (Nat.le_refl _) (by simp) (by simp)
      (by simp) (.inl rfl) (fun pos h => absurd h (notTaken pos))
      (fun _ => .inl)
  | loadDequeuePos at_pc =>
    have notTaken (pos : ℕ) : s.pc t ≠ .dequeueClaimed pos := by
      rcases at_pc with at_pc | ⟨_, _, at_pc⟩ <;> simp [at_pc]
    exact passed_of passed _ (fun _ => goto_pc ..) mono (Nat.le_refl _) (by simp) (by simp)
      (by simp) (.inl rfl) (fun pos h => absurd h (notTaken pos))
      (fun _ => .inl)

/-! ### The order of a producer's values -/

/-- What a thread has called and what it has claimed differ by its pending value. -/
def InOrder (s : State τ α) (trace : List (Event τ α)) : Prop :=
  ∀ t, trace.filterMap (Event.calledBy t) =
    trace.filterMap (Event.claimedBy t) ++ (s.pc t).pending

theorem inOrder_move (inOrder : InOrder s trace) (move : Move s t s' seen) :
    InOrder s' (trace ++ seen) := by
  intro t'
  have old := inOrder t'
  simp only [List.filterMap_append, old]
  by_cases mine : t' = t
  · subst mine
    cases move
    case loadEnqueuePos at_pc =>
      rcases at_pc with at_pc | ⟨_, _, at_pc⟩ <;> simp [at_pc, Pc.pending]
    case loadDequeuePos at_pc =>
      rcases at_pc with at_pc | ⟨_, _, at_pc⟩ <;> simp [at_pc, Pc.pending]
    all_goals
      rename_i at_pc
      simp [at_pc, Pc.pending, Event.calledBy, Event.claimedBy, List.filterMap_cons]
  · have other : t ≠ t' := Ne.symm mine
    cases move <;>
      simp [mine, other, Event.calledBy, Event.claimedBy, State.setCell, List.filterMap_cons]

/-! ### Whole runs -/

/-- A cell is written only when the value published in it has been read. -/
def NotOverwritten (n : ℕ) (trace : List (Event τ α)) : Prop :=
  ∀ before t pos v after, trace = before ++ .stored t pos v :: after →
    ∀ t' pos', .published t' pos' ∈ before → pos' % n = pos % n →
      ∃ t'' data, .read t'' pos' data ∈ before

structure Inv (k : ℕ) (s : State τ α) (trace : List (Event τ α)) : Prop where
  positions : Positions s trace
  core : Core k s trace
  values : Values s trace
  passed : Passed s trace
  inOrder : InOrder s trace
  notOverwritten : NotOverwritten (2 ^ k) trace

theorem stored_after_read (hk : 1 ≤ k) (inv : Inv k s trace) {pos : ℕ} {v : α}
    (at_pc : s.pc t = .enqueueClaimed v pos) {t' : τ} {pos' : ℕ}
    (published : .published t' pos' ∈ trace) (same : pos' % 2 ^ k = pos % 2 ^ k) :
    ∃ t'' data, .read t'' pos' data ∈ trace := by
  have two := two_le_two_pow hk
  obtain ⟨claimed, seq⟩ := inv.core.enqueuing t pos v (by rw [at_pc]; rfl)
  obtain ⟨below, passed⟩ := inv.passed.published t' pos' published
  obtain ⟨g, serves⟩ := inv.core.cells pos
  obtain rfl : g = pos := serves.generation hk (.inl seq)
  have ahead := serves.ahead
  rw [inv.core.cell_congr same, seq] at passed
  -- the published position is a whole generation older, and that generation has been taken
  have older : pos' + 2 ^ k ≤ g := by
    by_contra close
    exact absurd (eq_of_mod_eq same (by omega) (by omega)) (by omega)
  have takenPos : pos' < s.dequeuePos := by
    have := serves.released (by omega)
    omega
  rcases inv.passed.unread pos' takenPos with ⟨t'', held⟩ | read
  · have seq' := (inv.core.dequeuing t'' pos' (by rw [held]; rfl)).2
    rw [inv.core.cell_congr same, seq] at seq'
    omega
  · exact read

theorem notOverwritten_move (hk : 1 ≤ k) (inv : Inv k s trace) (move : Move s t s' seen) :
    NotOverwritten (2 ^ k) (trace ++ seen) := by
  intro before t₁ pos v after split t' pos' published same
  have short : seen = [] ∨ ∃ e, seen = [e] := by cases move <;> simp
  rcases short with rfl | ⟨e, rfl⟩
  · exact inv.notOverwritten before t₁ pos v after (by simpa using split) t' pos' published same
  · rcases List.eq_nil_or_concat after with rfl | ⟨after, last, rfl⟩
    · obtain ⟨rfl, isStore⟩ := List.append_inj' split rfl
      simp only [List.cons.injEq, and_true] at isStore
      subst isStore
      cases move with
      | store data pos at_pc => exact stored_after_read hk inv at_pc published same
    · rw [List.concat_eq_append, ← List.cons_append, ← List.append_assoc] at split
      obtain ⟨earlier, _⟩ := List.append_inj' split rfl
      exact inv.notOverwritten before t₁ pos v after earlier t' pos' published same

theorem inv_init (k : ℕ) : Inv k (State.init (2 ^ k) : State τ α) [] where
  positions := positions_init _
  core := core_init k
  values := values_init _
  passed := passed_init _
  inOrder t := rfl
  notOverwritten before t pos v after split := by simp at split

theorem inv_move (hk : 1 ≤ k) (inv : Inv k s trace) (move : Move s t s' seen) :
    Inv k s' (trace ++ seen) where
  positions := positions_move inv.positions move
  core := core_move hk inv.core inv.positions move
  values := values_move hk inv.core inv.positions inv.values move
  passed := passed_move hk inv.core inv.positions inv.passed move
  inOrder := inOrder_move inv.inOrder move
  notOverwritten := notOverwritten_move hk inv move

end Steps

/-- Under every interleaving of any threads, a queue of `2 ^ k` cells delivers. -/
theorem mpmcq_delivers (k : ℕ) (hk : 1 ≤ k) (s : State τ α) (trace : List (Event τ α))
    (run : threads.Reaches (State.init (2 ^ k)) s trace) : Delivers (2 ^ k) trace := by
  have inv : Inv k s trace := run.invariant (Inv k) (inv_init k)
    fun _ _ _ _ _ _ inv _ taken => inv_move hk inv (move_of_step taken)
  refine ⟨⟨_, inv.positions.claimed⟩, ?_, inv.passed.returnedOnce, inv.notOverwritten, ?_⟩
  · intro t pos d returned
    obtain ⟨t', v, claimed, eq⟩ := inv.values.read t pos d (inv.passed.returnedRead t pos d returned)
    refine ⟨t', v, claimed, eq, fun t'' v' again => ?_⟩
    obtain ⟨rfl, rfl⟩ := inv.positions.claimed_unique again claimed
    exact ⟨rfl, rfl⟩
  · intro t
    exact ⟨_, (inv.inOrder t).symm⟩

/-- One thread publishes a value and the other takes it, calling `mpmcq_enqueue` next. -/
theorem mpmcq_delivers_two : Delivers (2 ^ 1)
    ([.called false 'a', .claimed false 0 'a', .stored false 0 'a', .published false 0,
      .taken true 0, .read true 0 (some 'a'), .returned true 0 (some 'a'),
      .called true 'b'] : List (Event Bool Char)) :=
  mpmcq_delivers 1 (by decide) _ _ <| Machine.reaches_of_exec
    [(false, .enqueue 'a'), (true, .dequeue), (false, .go false), (false, .go false),
      (false, .go false), (false, .go false), (false, .go false), (true, .go false),
      (true, .go false), (true, .go false), (true, .go false), (true, .go false),
      (true, .enqueue 'b')] rfl

end GhettoRedis.Mpmcq.Concurrent
