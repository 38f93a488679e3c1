import GhettoRedis.Lib.ClaimQueue
import GhettoRedis.Lib.Simulation
import GhettoRedis.Mpmcq.Delivery

/-!
# The queue under concurrent threads as a queue of claims

The positions from `dequeue_pos` up to `enqueue_pos` are the claims. An enqueue takes effect
in two steps, its CAS and the store of the sequence number; a dequeue in its CAS, or where it
loads a sequence number that is behind.
-/
namespace GhettoRedis.Mpmcq.Concurrent

open Lib

variable {τ α : Type}

/-- What an event means to the queue. -/
def Event.onQueue : Event τ α → Option (QueueEvent τ α)
  | .claimed t _ data => some (.claimed t data)
  | .published t _ => some (.published t)
  | .taken t _ => some (.taken t)
  | .returned t _ data => some (.returned t data)
  | .returnedNull t => some (.returned t none)
  | _ => none

/-- The thread is about to load a sequence number that is behind its position. -/
def misses (s : State τ α) (t : τ) : Bool :=
  match s.pc t with
  | .dequeueTop pos => (s.cell pos).seq < pos + 1
  | _ => false

/-- What a step means to the queue. -/
def look [DecidableEq τ] (s : State τ α) (a : τ × Action α) : List (QueueEvent τ α) :=
  (if misses s a.1 then [.missed a.1] else []) ++
    ((step s a.1 a.2).elim [] Prod.snd).filterMap Event.onQueue

/-! ### The relation -/

/-- What the dequeue of a thread will return, once that is settled. -/
def State.settled (s : State τ α) : Pc α → Option (Option α)
  | .dequeueSeq pos seq => if seq < pos + 1 then some none else none
  | .dequeueClaimed pos => some (s.cell pos).data
  | .dequeueRead _ data => some data
  | _ => none

/-- The claim stands for the position. -/
def Holds (s : State τ α) (pos : ℕ) (c : Claim τ α) : Prop :=
  match c.writer with
  | some t => (s.pc t).enqueues = some (pos, c.value)
  | none => (s.cell pos).seq = pos + 1 ∧ (s.cell pos).data = some c.value

structure Represents (s : State τ α) (q : ClaimQueue τ α) : Prop where
  length : s.dequeuePos + q.claims.length = s.enqueuePos
  holds : ∀ i c, q.claims[i]? = some c → Holds s (s.dequeuePos + i) c
  result : ∀ t, q.result t = s.settled (s.pc t)
  passed : ∀ pos < s.dequeuePos, pos < (s.cell pos).seq
  behind : ∀ t pos, s.pc t = .dequeueTop pos → pos ≤ s.dequeuePos

theorem represents_init (n : ℕ) : Represents (State.init n : State τ α) ClaimQueue.empty where
  length := rfl
  holds := by simp [ClaimQueue.empty]
  result _ := rfl
  passed := by simp [State.init]
  behind := by simp [State.init]

section Claims

variable {k : ℕ} {s : State τ α} {q : ClaimQueue τ α} {trace : List (Event τ α)}

theorem Represents.claim_at (represents : Represents s q) {pos : ℕ} (below : pos < s.enqueuePos)
    (left : s.dequeuePos ≤ pos) : ∃ c ∈ q.claims, Holds s pos c := by
  have within : pos - s.dequeuePos < q.claims.length := by
    have := represents.length
    omega
  have holds := represents.holds (pos - s.dequeuePos) _ (List.getElem?_eq_getElem within)
  rw [Nat.add_sub_cancel' left] at holds
  exact ⟨_, List.getElem_mem within, holds⟩

/-- A thread that has claimed a position has the claim there. -/
theorem Represents.claim_of_enqueues (represents : Represents s q) (core : Core k s trace)
    (positions : Positions s trace) {t : τ} {pos : ℕ} {v : α}
    (enqueues : (s.pc t).enqueues = some (pos, v)) : ∃ c ∈ q.claims, c.writer = some t := by
  obtain ⟨claimed, seq⟩ := core.enqueuing t pos v enqueues
  -- a position that was taken has a larger sequence number
  have left : s.dequeuePos ≤ pos := by
    by_contra taken
    have := represents.passed pos (by omega)
    omega
  obtain ⟨c, mem, holds⟩ := represents.claim_at (positions.claimed_lt claimed) left
  refine ⟨c, mem, ?_⟩
  cases writer : c.writer with
  | none =>
    simp only [Holds, writer] at holds
    omega
  | some t' =>
    simp only [Holds, writer] at holds
    have claimed' := (core.enqueuing t' pos c.value holds).1
    rw [(positions.claimed_unique claimed' claimed).1]

theorem Represents.writer_enqueues (represents : Represents s q) {t : τ} {c : Claim τ α}
    (mem : c ∈ q.claims) (writer : c.writer = some t) :
    ∃ pos, (s.pc t).enqueues = some (pos, c.value) := by
  obtain ⟨i, at_i⟩ := List.mem_iff_getElem?.mp mem
  have holds := represents.holds i c at_i
  simp only [Holds, writer] at holds
  exact ⟨_, holds⟩

/-- The front is published as soon as the cell at `dequeue_pos` is. -/
theorem Represents.seq_of_ready (represents : Represents s q) (ready : q.Ready) :
    (s.cell s.dequeuePos).seq = s.dequeuePos + 1 := by
  obtain ⟨c, rest, claims, writer⟩ := ready
  have holds := represents.holds 0 c (by rw [claims]; rfl)
  simp only [Holds, writer] at holds
  exact holds.1

/-- There is room for a position that can be claimed. -/
theorem Represents.room (represents : Represents s q) (hk : 1 ≤ k) (core : Core k s trace) {t : τ}
    {v : α} (at_pc : s.pc t = .enqueueSeq v s.enqueuePos s.enqueuePos) :
    q.claims.length < 2 ^ k := by
  have two := two_le_two_pow hk
  -- the cell is free again, so the position a turn before was taken
  have ready := core.claim_ready hk at_pc
  obtain ⟨g, serves⟩ := core.cells s.enqueuePos
  obtain rfl : g = s.enqueuePos := serves.generation hk (.inl ready)
  have released := serves.released
  have length := represents.length
  omega

end Claims

/-! ### One step -/

section Steps

variable [DecidableEq τ] {k : ℕ} {s s' : State τ α} {t : τ} {q : ClaimQueue τ α}
  {trace seen : List (Event τ α)}

/-- A thread that moves on without storing to shared memory. -/
theorem Represents.goto (represents : Represents s q) (pc : Pc α)
    (enqueues : ∀ held, (s.pc t).enqueues = some held → pc.enqueues = some held)
    (behind : ∀ pos, pc = .dequeueTop pos → pos ≤ s.dequeuePos) :
    Represents (s.goto t pc) (q.settle t (s.settled pc)) := by
  refine ⟨represents.length, fun i c at_i => ?_, fun t' => ?_, represents.passed, fun t' pos h => ?_⟩
  · have holds := represents.holds i c at_i
    cases writer : c.writer with
    | none =>
      simp only [Holds, writer] at holds ⊢
      exact holds
    | some t' =>
      simp only [Holds, writer] at holds ⊢
      rw [goto_pc]
      split
      next same => exact enqueues _ (same ▸ holds)
      next => exact holds
  · simp only [ClaimQueue.settle, Function.update_apply, goto_pc]
    split
    next => rfl
    next => exact represents.result t'
  · rw [goto_pc] at h
    split at h
    next => exact behind pos h
    next => exact represents.behind t' pos h

/-- Where nothing is settled, the queue stays as it is. -/
theorem Represents.quiet (represents : Represents s q) (pc : Pc α)
    (enqueues : ∀ held, (s.pc t).enqueues = some held → pc.enqueues = some held)
    (behind : ∀ pos, pc = .dequeueTop pos → pos ≤ s.dequeuePos)
    (settled : s.settled pc = s.settled (s.pc t)) : Represents (s.goto t pc) q := by
  have next := represents.goto pc enqueues behind
  rwa [settled, ClaimQueue.settle_eq_self (represents.result t)] at next

theorem Represents.claim (represents : Represents s q) {v : α}
    (at_pc : s.pc t = .enqueueSeq v s.enqueuePos s.enqueuePos) :
    Represents ({ s with enqueuePos := s.enqueuePos + 1 }.goto t (.enqueueClaimed v s.enqueuePos))
      { q with claims := q.claims ++ [⟨v, some t⟩] } := by
  have quiet : Represents (s.goto t (.enqueueClaimed v s.enqueuePos)) q :=
    represents.quiet _ (by simp [at_pc, Pc.enqueues]) (by simp) (by simp [at_pc, State.settled])
  refine ⟨?_, fun i c at_i => ?_, quiet.result, quiet.passed, quiet.behind⟩
  · have := represents.length
    simp only [List.length_append, List.length_singleton, State.goto]
    omega
  · rcases Nat.lt_or_ge i q.claims.length with old | new
    · rw [List.getElem?_append_left old] at at_i
      exact quiet.holds i c at_i
    · rw [List.getElem?_append_right new] at at_i
      -- the new claim stands for the position behind all others
      obtain ⟨last, rfl⟩ : i - q.claims.length = 0 ∧ c = ⟨v, some t⟩ := by
        rw [List.getElem?_singleton] at at_i
        split at at_i
        next first => exact ⟨first, (Option.some.inj at_i).symm⟩
        next => cases at_i
      have at_end : s.dequeuePos + i = s.enqueuePos := by
        have := represents.length
        omega
      simp only [Holds, goto_pc, Pc.enqueues]
      rw [← at_end]
      rfl

omit [DecidableEq τ] in
theorem Represents.front (represents : Represents s q) (hk : 1 ≤ k) (core : Core k s trace)
    (at_pc : s.pc t = .dequeueSeq s.dequeuePos (s.dequeuePos + 1)) :
    ∃ v rest, q.claims = ⟨v, none⟩ :: rest ∧ (s.cell s.dequeuePos).data = some v := by
  obtain ⟨ready, below⟩ := core.take_ready hk at_pc
  cases claims : q.claims with
  | nil =>
    have := represents.length
    simp only [claims, List.length_nil] at this
    omega
  | cons c rest =>
    have holds := represents.holds 0 c (by rw [claims]; rfl)
    obtain ⟨v, writer⟩ := c
    cases writer with
    | none => exact ⟨v, rest, rfl, holds.2⟩
    | some t' =>
      -- a position that is not published yet cannot be taken
      have := (core.enqueuing t' _ _ holds).2
      rw [Nat.add_zero] at this
      omega

theorem Represents.take (represents : Represents s q) (hk : 1 ≤ k) (core : Core k s trace)
    (at_pc : s.pc t = .dequeueSeq s.dequeuePos (s.dequeuePos + 1)) {v : α}
    {rest : List (Claim τ α)} (claims : q.claims = ⟨v, none⟩ :: rest)
    (data : (s.cell s.dequeuePos).data = some v) :
    Represents ({ s with dequeuePos := s.dequeuePos + 1 }.goto t (.dequeueClaimed s.dequeuePos))
      (ClaimQueue.settle { q with claims := rest } t (some (some v))) := by
  have moved := represents.goto (t := t) (.dequeueClaimed s.dequeuePos) (by simp [at_pc, Pc.enqueues])
    (by simp)
  rw [State.settled, data] at moved
  refine ⟨?_, fun i c at_i => ?_, moved.result, fun pos below => ?_, fun t' pos h => ?_⟩
  · have := represents.length
    simp only [claims, List.length_cons] at this
    simp only [ClaimQueue.settle, State.goto]
    omega
  · have next : s.dequeuePos + 1 + i = s.dequeuePos + (i + 1) := by omega
    change Holds _ (s.dequeuePos + 1 + i) c
    rw [next]
    exact moved.holds (i + 1) c (by simpa [ClaimQueue.settle, claims] using at_i)
  · rcases Nat.lt_succ_iff_lt_or_eq.mp below with old | rfl
    · exact represents.passed pos old
    · have ready := (core.take_ready hk at_pc).1
      change s.dequeuePos < (s.cell s.dequeuePos).seq
      omega
  · exact Nat.le_succ_of_le (moved.behind t' pos h)

omit [DecidableEq τ] in
/-- The cell of a position that is about to be published holds no other value. -/
theorem Core.apart (hk : 1 ≤ k) (core : Core k s trace) {pos pos' : ℕ}
    (free : (s.cell pos).seq = pos) (full : (s.cell pos').seq = pos' + 1) :
    pos' % 2 ^ k ≠ pos % 2 ^ k := by
  intro same
  rw [core.cell_congr same, free] at full
  subst full
  exact succ_mod_ne hk pos' same.symm

theorem Represents.store (represents : Represents s q) (hk : 1 ≤ k) (core : Core k s trace)
    {v : α} {pos : ℕ} (at_pc : s.pc t = .enqueueClaimed v pos) :
    Represents
      ((s.setCell pos { s.cell pos with data := some v }).goto t (.enqueueStored v pos)) q := by
  have free := (core.enqueuing t pos v (by rw [at_pc]; rfl)).2
  have seq (pos' : ℕ) :
      ((s.setCell pos { s.cell pos with data := some v }).cell pos').seq = (s.cell pos').seq := by
    rw [core.setCell_cell]
    split
    next same => rw [core.cell_congr same]
    next => rfl
  have data (pos' : ℕ) (full : (s.cell pos').seq = pos' + 1) :
      ((s.setCell pos { s.cell pos with data := some v }).cell pos').data = (s.cell pos').data := by
    rw [core.setCell_cell, if_neg (core.apart hk free full)]
  have stored : Represents (s.setCell pos { s.cell pos with data := some v }) q := by
    refine ⟨represents.length, fun i c at_i => ?_, fun t' => ?_, fun pos' below => ?_,
      represents.behind⟩
    -- claims are read off the sequence numbers, which the store of the data leaves alone
    · have holds := represents.holds i c at_i
      cases writer : c.writer with
      | none =>
        simp only [Holds, writer] at holds ⊢
        exact ⟨(seq _).trans holds.1, (data _ holds.1).trans holds.2⟩
      | some t' =>
        simp only [Holds, writer] at holds ⊢
        exact holds
    · rw [represents.result t']
      -- only a value that has been taken is looked up in its cell
      cases pc : s.pc t' with
      | dequeueClaimed pos' =>
        have full := (core.dequeuing t' pos' (by rw [pc]; rfl)).2
        simp only [State.setCell, pc, State.settled]
        exact congrArg some (data pos' full).symm
      | _ => simp only [State.setCell, pc, State.settled]
    · have := represents.passed pos' below
      rwa [seq]
  have pc : (s.setCell pos { s.cell pos with data := some v }).pc t = .enqueueClaimed v pos := at_pc
  exact stored.quiet _ (by simp [pc, Pc.enqueues]) (by simp) (by simp [pc, State.settled])

/-- A thread that stores a sequence number at the end of its operation. -/
theorem Represents.setSeq (represents : Represents s q) (core : Core k s trace) (pos seq : ℕ)
    (grows : (s.cell pos).seq ≤ seq) {claims : List (Claim τ α)}
    (length : claims.length = q.claims.length)
    (holds : ∀ i c, claims[i]? = some c → Holds
      ((s.setCell pos { s.cell pos with seq := seq }).goto t .idle) (s.dequeuePos + i) c) :
    Represents ((s.setCell pos { s.cell pos with seq := seq }).goto t .idle)
      (ClaimQueue.settle { q with claims := claims } t none) := by
  refine ⟨?_, holds, fun t' => ?_, fun pos' below => ?_, fun t' pos' h => ?_⟩
  · have := represents.length
    simp only [ClaimQueue.settle, State.goto, State.setCell]
    omega
  · have data (pos' : ℕ) : ((s.setCell pos { s.cell pos with seq := seq }).cell pos').data =
        (s.cell pos').data := by
      rw [core.setCell_cell]
      split
      next same => rw [core.cell_congr same]
      next => rfl
    have result := represents.result t'
    simp only [ClaimQueue.settle, Function.update_apply, goto_pc]
    split
    next => rfl
    next =>
      rw [result]
      simp only [State.setCell]
      cases s.pc t' with
      | dequeueClaimed pos' => exact congrArg some (data pos').symm
      | _ => rfl
  · have := represents.passed pos' below
    rw [goto_cell, core.setCell_cell]
    split
    next same =>
      rw [core.cell_congr same] at this
      exact this.trans_le grows
    next => exact this
  · rw [goto_pc] at h
    split at h
    next => cases h
    next => exact represents.behind t' pos' h

theorem Represents.publish (represents : Represents s q) (hk : 1 ≤ k) (core : Core k s trace)
    (values : Values s trace) {v : α} {pos : ℕ} (at_pc : s.pc t = .enqueueStored v pos) :
    Represents ((s.setCell pos { s.cell pos with seq := pos + 1 }).goto t .idle)
      { q with claims := q.claims.map (Claim.publish t) } := by
  have free := (core.enqueuing t pos v (by rw [at_pc]; rfl)).2
  have result : q.result t = none := by rw [represents.result t, at_pc]; rfl
  have next := represents.setSeq (t := t) core pos (pos + 1) (by omega)
    (List.length_map (Claim.publish t)) fun i c at_i => ?_
  · rwa [ClaimQueue.settle, ← result, Function.update_eq_self] at next
  · rw [List.getElem?_map, Option.map_eq_some_iff] at at_i
    obtain ⟨c, at_i, rfl⟩ := at_i
    have holds := represents.holds i c at_i
    cases writer : c.writer with
    | none =>
      rw [Claim.publish_of_ne (by simp [writer])]
      simp only [Holds, writer] at holds ⊢
      rwa [goto_cell, core.setCell_cell, if_neg (core.apart hk free holds.1)]
    | some t' =>
      simp only [Holds, writer] at holds
      by_cases same : t' = t
      · -- the claim of the thread that publishes
        subst same
        rw [Claim.publish_of_eq writer]
        rw [at_pc, Pc.enqueues, Option.some.injEq, Prod.mk.injEq] at holds
        obtain ⟨rfl, rfl⟩ := holds
        simp only [Holds]
        rw [goto_cell, core.setCell_cell, if_pos rfl]
        exact ⟨rfl, values.stored t' _ _ at_pc⟩
      · rw [Claim.publish_of_ne (by simp [writer, same])]
        simp only [Holds, writer]
        rwa [goto_pc, if_neg same]

theorem Represents.release (represents : Represents s q) (core : Core k s trace)
    (positions : Positions s trace) {data : Option α} {pos : ℕ}
    (at_pc : s.pc t = .dequeueRead pos data) :
    Represents ((s.setCell pos { s.cell pos with seq := pos + s.bufferMask + 1 }).goto t .idle)
      (q.settle t none) := by
  obtain ⟨taken, full⟩ := core.dequeuing t pos (by rw [at_pc]; rfl)
  have gone := positions.taken_lt taken
  refine represents.setSeq (t := t) core pos _ (by omega) rfl fun i c at_i => ?_
  have holds := represents.holds i c at_i
  cases writer : c.writer with
  | none =>
    simp only [Holds, writer] at holds ⊢
    rw [goto_cell, core.setCell_cell]
    split
    next same =>
      -- the cell would stand for two positions at once
      rw [core.cell_congr same] at holds
      omega
    next => exact holds
  | some t' =>
    simp only [Holds, writer] at holds ⊢
    rw [goto_pc]
    split
    next same =>
      subst same
      simp [at_pc, Pc.enqueues] at holds
    next => exact holds

/-- A dequeue that finds the sequence number behind is the one that returns `NULL`. -/
theorem returnedNull_iff {a : Action α} {pos seq : ℕ} (at_pc : s.pc t = .dequeueSeq pos seq)
    (taken : step s t a = some (s', seen)) : .returnedNull t ∈ seen ↔ seq < pos + 1 := by
  cases a with
  | enqueue data | dequeue => simp [step, at_pc] at taken
  | go spurious =>
    simp only [step, at_pc] at taken
    split at taken
    next ready =>
      split at taken <;> cases taken <;> simp <;> omega
    next =>
      split at taken <;> cases taken <;> simp <;> omega

theorem look_of_step {a : Action α} (taken : step s t a = some (s', seen)) :
    look s (t, a) = (if misses s t then [.missed t] else []) ++ seen.filterMap Event.onQueue := by
  simp [look, taken]

omit [DecidableEq τ] in
/-- The load that decides that a dequeue misses. -/
theorem Represents.not_ready (represents : Represents s q) {pos : ℕ} (at_pc : s.pc t = .dequeueTop pos)
    (behind : (s.cell pos).seq < pos + 1) : ¬ q.Ready := by
  intro ready
  have full := represents.seq_of_ready ready
  -- a position that was taken meanwhile would not be behind
  rcases Nat.lt_or_eq_of_le (represents.behind t pos at_pc) with old | rfl
  · have := represents.passed pos old
    omega
  · omega

open ClaimQueue (Performs)

/-- Every step is accounted for by what it means to the queue. -/
theorem follows_of_step {a : Action α} (hk : 1 ≤ k) (inv : Inv k s trace)
    (represents : Represents s q) (taken : step s t a = some (s', seen)) :
    ∃ q', Follows (Performs (2 ^ k)) q (look s (t, a)) q' ∧ Represents s' q' := by
  have looks := look_of_step taken
  have result := represents.result t
  -- what neither claims nor publishes nor settles anything
  have still {pc : Pc α} (none : look s (t, a) = [])
      (enqueues : ∀ held, (s.pc t).enqueues = some held → pc.enqueues = some held)
      (behind : ∀ pos, pc = .dequeueTop pos → pos ≤ s.dequeuePos)
      (settled : s.settled pc = s.settled (s.pc t)) :
      ∃ q', Follows (Performs (2 ^ k)) q (look s (t, a)) q' ∧ Represents (s.goto t pc) q' := by
    rw [none]
    exact ⟨q, .nil, represents.quiet pc enqueues behind settled⟩
  cases move_of_step taken with
  | callEnqueue data at_pc =>
    exact still (by simp [looks, misses, at_pc, Event.onQueue]) (by simp [at_pc, Pc.enqueues])
      (by simp) (by simp [at_pc, State.settled])
  | callDequeue at_pc =>
    exact still (by simp [looks, misses, at_pc]) (by simp [at_pc, Pc.enqueues]) (by simp)
      (by simp [at_pc, State.settled])
  | loadEnqueuePos data at_pc =>
    rcases at_pc with at_pc | ⟨_, _, at_pc⟩ <;>
      exact still (by simp [looks, misses, at_pc]) (by simp [at_pc, Pc.enqueues]) (by simp)
        (by simp [at_pc, State.settled])
  | loadEnqueueSeq data pos at_pc =>
    exact still (by simp [looks, misses, at_pc]) (by simp [at_pc, Pc.enqueues]) (by simp)
      (by simp [at_pc, State.settled])
  | claim data at_pc =>
    have seen : look s (t, a) = [.claimed t data] := by
      simp [looks, misses, at_pc, Event.onQueue]
    rw [seen]
    refine ⟨_, .one (.claimed t data (represents.room hk inv.core at_pc) fun c mem writer => ?_),
      represents.claim at_pc⟩
    obtain ⟨pos, enqueues⟩ := represents.writer_enqueues mem writer
    simp [at_pc, Pc.enqueues] at enqueues
  | store data pos at_pc =>
    have seen : look s (t, a) = [] := by simp [looks, misses, at_pc, Event.onQueue]
    rw [seen]
    exact ⟨q, .nil, represents.store hk inv.core at_pc⟩
  | publish data pos at_pc =>
    have seen : look s (t, a) = [.published t] := by
      simp [looks, misses, at_pc, Event.onQueue]
    rw [seen]
    have claim := represents.claim_of_enqueues inv.core inv.positions (by rw [at_pc]; rfl)
    exact ⟨_, .one (.published t claim), represents.publish hk inv.core inv.values at_pc⟩
  | loadDequeuePos at_pc =>
    have pos (pos : ℕ) (is : Pc.dequeueTop s.dequeuePos = (.dequeueTop pos : Pc α)) :
        pos ≤ s.dequeuePos := by
      cases is
      exact Nat.le_refl _
    rcases at_pc with at_pc | ⟨pos', seq, at_pc⟩
    · exact still (by simp [looks, misses, at_pc]) (by simp [at_pc, Pc.enqueues]) pos
        (by simp [at_pc, State.settled])
    · have ahead : ¬ seq < pos' + 1 := by
        rw [← returnedNull_iff at_pc taken]
        exact List.not_mem_nil
      exact still (by simp [looks, misses, at_pc]) (by simp [at_pc, Pc.enqueues]) pos
        (by simp only [at_pc, State.settled, if_neg ahead])
  | loadDequeueSeq pos at_pc =>
    by_cases behind : (s.cell pos).seq < pos + 1
    · have seen : look s (t, a) = [.missed t] := by simp [looks, misses, at_pc, behind]
      rw [at_pc] at result
      rw [seen]
      refine ⟨_, .one (.missed t (represents.not_ready at_pc behind) result), ?_⟩
      have next := represents.goto (t := t) (.dequeueSeq pos (s.cell pos).seq)
        (by simp [at_pc, Pc.enqueues]) (by simp)
      rwa [State.settled, if_pos behind] at next
    · exact still (by simp [looks, misses, at_pc, behind]) (by simp [at_pc, Pc.enqueues]) (by simp)
        (by simp only [at_pc, State.settled, if_neg behind])
  | refuse pos seq at_pc =>
    have behind : seq < pos + 1 := (returnedNull_iff at_pc taken).mp (List.mem_singleton_self _)
    have seen : look s (t, a) = [.returned t none] := by
      simp [looks, misses, at_pc, Event.onQueue]
    rw [at_pc, State.settled, if_pos behind] at result
    rw [seen]
    exact ⟨_, .one (.returned t result),
      represents.goto .idle (by simp [at_pc, Pc.enqueues]) (by simp)⟩
  | take at_pc =>
    have seen : look s (t, a) = [.taken t] := by simp [looks, misses, at_pc, Event.onQueue]
    obtain ⟨v, rest, claims, data⟩ := represents.front hk inv.core at_pc
    rw [at_pc, State.settled, if_neg (Nat.lt_irrefl _)] at result
    rw [seen]
    exact ⟨_, .one (.taken t claims result), represents.take hk inv.core at_pc claims data⟩
  | read pos at_pc =>
    exact still (by simp [looks, misses, at_pc, Event.onQueue]) (by simp [at_pc, Pc.enqueues])
      (by simp) (by simp [at_pc, State.settled])
  | release pos data at_pc =>
    have seen : look s (t, a) = [.returned t data] := by
      simp [looks, misses, at_pc, Event.onQueue]
    rw [at_pc, State.settled] at result
    rw [seen]
    exact ⟨_, .one (.returned t result), represents.release inv.core inv.positions at_pc⟩

/-- The invariant of the cells goes along with the claims they stand for. -/
theorem simulates (hk : 1 ≤ k) (ok : State τ α → τ × Action α → Prop) :
    Simulates (threads.observe look) ok (Performs (2 ^ k))
      fun s q => (∃ trace, Inv k s trace) ∧ Represents s q := by
  rintro s q ⟨t, a⟩ s' seen ⟨⟨trace, inv⟩, represents⟩ - taken
  obtain ⟨rfl, events, taken⟩ := Machine.step_of_observe taken
  obtain ⟨q', follows, represents'⟩ := follows_of_step hk inv represents taken
  exact ⟨q', follows, ⟨_, inv_move hk inv (move_of_step taken)⟩, represents'⟩

end Steps

/-! ### One consumer -/

/-- Only thread `r` calls `mpmcq_dequeue`. -/
def Consumes (r : τ) (_ : State τ α) (a : τ × Action α) : Prop :=
  match a.2 with
  | .dequeue => a.1 = r
  | _ => True

instance [DecidableEq τ] (r : τ) (s : State τ α) (a : τ × Action α) : Decidable (Consumes r s a) := by
  unfold Consumes
  split <;> infer_instance

/-- The thread is inside `mpmcq_dequeue`. -/
def Pc.dequeueing : Pc α → Bool
  | .dequeueStart | .dequeueTop _ | .dequeueSeq _ _ | .dequeueClaimed _ | .dequeueRead _ _ => true
  | _ => false

section Consumer

variable [DecidableEq τ] {s s' : State τ α} {t : τ} {seen : List (Event τ α)} {a : Action α}

/-- A dequeue is seen only of a thread that is inside one. -/
theorem consumer_of_look (taken : step s t a = some (s', seen)) :
    ∀ e ∈ look s (t, a), ∀ r ∈ e.consumer, r = t ∧ (s.pc t).dequeueing := by
  have looks := look_of_step taken
  have at_top (misses : misses s t) : (s.pc t).dequeueing := by
    unfold Concurrent.misses at misses
    split at misses
    next at_pc => rw [at_pc]; rfl
    next => cases misses
  intro e mem r consumes
  rw [looks, List.mem_append] at mem
  rcases mem with mem | mem
  · split at mem
    next behind =>
      obtain rfl := List.mem_singleton.mp mem
      cases consumes
      exact ⟨rfl, at_top behind⟩
    next => cases mem
  · cases move_of_step taken with
    | take at_pc | refuse pos seq at_pc | release pos data at_pc =>
      obtain rfl := by simpa [Event.onQueue] using mem
      cases consumes
      exact ⟨rfl, by rw [at_pc]; rfl⟩
    | _ =>
      simp [Event.onQueue] at mem
      try (subst mem; cases consumes)

theorem dequeueing_of_step (taken : step s t a = some (s', seen)) (inside : (s'.pc t).dequeueing) :
    a = .dequeue ∨ (s.pc t).dequeueing := by
  cases move_of_step taken with
  | callDequeue at_pc =>
    cases a with
    | dequeue => exact .inl rfl
    | enqueue data =>
      simp only [step, at_pc, Option.some.injEq, Prod.mk.injEq] at taken
      cases taken.2
    | go spurious => simp [step, at_pc] at taken
  | loadDequeuePos at_pc => rcases at_pc with at_pc | ⟨_, _, at_pc⟩ <;> exact .inr (by rw [at_pc]; rfl)
  | loadDequeueSeq pos at_pc | take at_pc | read pos at_pc => exact .inr (by rw [at_pc]; rfl)
  | _ => simp [Pc.dequeueing] at inside

/-- The events of dequeues are those of the one consumer. -/
theorem consumer_of_run {n : ℕ} {r : τ} {trace : List (QueueEvent τ α)}
    (run : (threads.observe look).Run (Consumes r) (State.init n) s trace) :
    ∀ e ∈ trace, ∀ t ∈ e.consumer, t = r := by
  refine (run.invariant (fun s trace => (∀ t, (s.pc t).dequeueing → t = r) ∧
    ∀ e ∈ trace, ∀ t ∈ e.consumer, t = r) ⟨by simp [State.init, Pc.dequeueing], by simp⟩ ?_).2
  rintro s trace ⟨t, a⟩ s' seen - ⟨inside, single⟩ consumes taken
  obtain ⟨rfl, events, taken⟩ := Machine.step_of_observe taken
  refine ⟨fun t' now => ?_, fun e mem t' consumer => ?_⟩
  · by_cases same : t' = t
    · subst same
      rcases dequeueing_of_step taken now with rfl | before
      · exact consumes
      · exact inside t' before
    · have unchanged : s'.pc t' = s.pc t' := by
        cases move_of_step taken <;> simp [same, State.setCell]
      exact inside t' (unchanged ▸ now)
  · rcases List.mem_append.mp mem with old | new
    · exact single e old t' consumer
    · obtain ⟨rfl, before⟩ := consumer_of_look taken e new t' consumer
      exact inside t' before

end Consumer

/-! ### Runs -/

/-- Under every interleaving of any threads, a queue of `2 ^ k` cells is a queue of `2 ^ k`
claims. -/
theorem mpmcq_follows [DecidableEq τ] {k : ℕ} (hk : 1 ≤ k) {s : State τ α}
    {trace : List (QueueEvent τ α)}
    (run : (threads.observe look).Reaches (State.init (2 ^ k)) s trace) :
    ∃ q, Follows (ClaimQueue.Performs (2 ^ k)) ClaimQueue.empty trace q ∧
      s.dequeuePos + q.claims.length = s.enqueuePos := by
  obtain ⟨q, follows, -, represents⟩ :=
    (simulates hk _).run ⟨⟨[], inv_init k⟩, represents_init _⟩ run
  exact ⟨q, follows, represents.length⟩

/-- Thread 0 claims first, and thread 1 publishes what it claims next. -/
def overtaking : List (Fin 3 × Action Char) :=
  [(0, .enqueue 'a'), (0, .go false), (0, .go false), (0, .go false), (1, .enqueue 'b'),
    (1, .go false), (1, .go false), (1, .go false), (1, .go false), (1, .go false)]

/-- What thread 1 has published is not there yet for thread 2. -/
theorem mpmcq_follows_overtaking : ∃ (s : State (Fin 3) Char) (trace : List (QueueEvent (Fin 3) Char)),
    (s.dequeuePos, s.enqueuePos, trace) =
      (0, 2, [.claimed 0 'a', .claimed 1 'b', .published 1, .missed 2, .returned 2 none]) ∧
    ∃ q, Follows (ClaimQueue.Performs (2 ^ 1)) ClaimQueue.empty trace q ∧
      s.dequeuePos + q.claims.length = s.enqueuePos := by
  obtain ⟨s, trace, run, is⟩ := Machine.exists_of_exec (threads.observe look) (State.init (2 ^ 1))
    (overtaking ++ [(2, .dequeue), (2, .go false), (2, .go false), (2, .go false)])
    (fun r => (r.1.dequeuePos, r.1.enqueuePos, r.2))
    (b := (0, 2, [.claimed 0 'a', .claimed 1 'b', .published 1, .missed 2, .returned 2 none]))
    (by decide +kernel)
  exact ⟨s, trace, is, mpmcq_follows (Nat.le_refl 1) run⟩

/-- Any number of producers and one consumer: the values come out in the order in which they
were claimed, and no more than the cells can hold and the one in hand are outstanding. -/
theorem mpmcq_in_order [DecidableEq τ] {k : ℕ} (hk : 1 ≤ k) {r : τ} {s : State τ α}
    {trace : List (QueueEvent τ α)}
    (run : (threads.observe look).Run (Consumes r) (State.init (2 ^ k)) s trace) :
    ∃ rest, trace.filterMap QueueEvent.claimedValue =
      trace.filterMap QueueEvent.returnedValue ++ rest ∧ rest.length ≤ 2 ^ k + 1 := by
  obtain ⟨q, follows, -, represents⟩ :=
    (simulates hk _).run ⟨⟨[], inv_init k⟩, represents_init _⟩ run
  have within := ClaimQueue.length_le follows
  refine ⟨q.inHand r ++ q.claims.map Claim.value, ?_, ?_⟩
  · rw [ClaimQueue.in_order follows (consumer_of_run run), List.append_assoc]
  · have hand : (q.inHand r).length ≤ 1 := Option.length_toList_le
    rw [List.length_append, List.length_map]
    omega

/-- The value of thread 0 comes out first. -/
theorem mpmcq_in_order_overtaking : ∃ trace : List (QueueEvent (Fin 3) Char),
    (trace.filterMap QueueEvent.claimedValue, trace.filterMap QueueEvent.returnedValue) =
      (['a', 'b'], ['a']) ∧
    ∃ rest, trace.filterMap QueueEvent.claimedValue =
      trace.filterMap QueueEvent.returnedValue ++ rest ∧ rest.length ≤ 2 ^ 1 + 1 := by
  obtain ⟨s, trace, run, is⟩ := Machine.exists_run_of_exec (threads.observe look) (Consumes 2)
    (State.init (2 ^ 1)) (overtaking ++ [(0, .go false), (0, .go false), (2, .dequeue),
      (2, .go false), (2, .go false), (2, .go false), (2, .go false), (2, .go false)])
    (fun r => (r.2.filterMap QueueEvent.claimedValue, r.2.filterMap QueueEvent.returnedValue))
    (b := (['a', 'b'], ['a'])) (by decide +kernel)
  exact ⟨trace, is, mpmcq_in_order (Nat.le_refl 1) run⟩

end GhettoRedis.Mpmcq.Concurrent
