import GhettoRedis.Lib.Ring
import GhettoRedis.Mpmcq.Queue

/-!
# The queue without overlapping calls

`Represents q k d held` ties a ring of `2 ^ k` cells to the elements it holds,
oldest first, where `d` counts the dequeues since `mpmcq_init`. Positions are
counted without bound here; the ring stores them modulo `2 ^ 64`, and `2 ^ k`
divides that modulus, so an index never moves when a position wraps.
-/
namespace GhettoRedis.Mpmcq

open Lib

variable {α : Type}

structure Represents (q : Queue α) (k d : Nat) (held : List α) : Prop where
  mask : q.bufferMask = BitVec.ofNat 64 (2 ^ k - 1)
  dequeuePos : q.dequeuePos = BitVec.ofNat 64 d
  enqueuePos : q.enqueuePos = BitVec.ofNat 64 (d + held.length)
  bound : held.length ≤ 2 ^ k
  occupied : ∀ i (h : i < held.length),
    q.buffer ((d + i) % 2 ^ k) = ⟨BitVec.ofNat 64 (d + i + 1), some held[i]⟩
  free : ∀ p, d + held.length ≤ p → p < d + 2 ^ k →
    (q.buffer (p % 2 ^ k)).seq = BitVec.ofNat 64 p

/-! ### Positions modulo the ring -/

theorem index_eq {q : Queue α} {k d : Nat} {held : List α} (repr : Represents q k d held)
    (hk : k ≤ 63) (p : Nat) : q.index (BitVec.ofNat 64 p) = p % 2 ^ k := by
  have divides : 2 ^ k ∣ 2 ^ 64 := Nat.pow_dvd_pow 2 (by omega)
  have fits : 2 ^ k - 1 < 2 ^ 64 := by
    have : 2 ^ k ≤ 2 ^ 63 := Nat.pow_le_pow_right (by omega) hk
    omega
  rw [Queue.index, repr.mask, BitVec.toNat_and, BitVec.toNat_ofNat, BitVec.toNat_ofNat,
    Nat.mod_eq_of_lt fits, Nat.and_two_pow_sub_one_eq_mod, Nat.mod_mod_of_dvd _ divides]

/-- A word is not its successor by a step that is not a multiple of `2 ^ 64`. -/
theorem ofNat_ne {a b : Nat} (lower : a < b) (upper : b < a + 2 ^ 64) :
    (BitVec.ofNat 64 a) ≠ BitVec.ofNat 64 b := by
  intro same
  have := congrArg BitVec.toNat same
  simp only [BitVec.toNat_ofNat] at this
  exact mod_ne_of_lt lower upper this

theorem ofNat_succ (p : Nat) : BitVec.ofNat 64 (p + 1) = BitVec.ofNat 64 p + 1 :=
  BitVec.ofNat_add p 1

/-! ### `mpmcq_init` -/

theorem mpmcqInit_represents (k : Nat) (hk : k ≤ 63) :
    Represents (mpmcqInit (BitVec.ofNat 64 (2 ^ k)) : Queue α) k 0 [] := by
  have positive : 0 < 2 ^ k := Nat.two_pow_pos k
  have fits : 2 ^ k < 2 ^ 64 := Nat.pow_lt_pow_right (by omega) (by omega)
  refine ⟨?_, rfl, rfl, by simp, fun i h => absurd h (by simp), ?_⟩
  · obtain ⟨m, size⟩ : ∃ m, 2 ^ k = m + 1 := ⟨2 ^ k - 1, by omega⟩
    simp only [mpmcqInit, size, Nat.add_sub_cancel, BitVec.ofNat_add]
    exact BitVec.add_sub_cancel _ _
  · intro p _ upper
    have inRing : p < 2 ^ k := by omega
    simp only [mpmcqInit, BitVec.toNat_ofNat, Nat.mod_eq_of_lt inRing, Nat.mod_eq_of_lt fits,
      if_pos inRing]

/-! ### The claiming loops -/

/-- When the cell at the current position is ready, the loop claims that position
after its spurious failures. -/
theorem enqueueClaim_ready {q : Queue α}
    (ready : (q.buffer (q.index q.enqueuePos)).seq = q.enqueuePos) (spurious fuel : Nat)
    (enough : spurious < fuel) :
    enqueueClaim q fuel spurious q.enqueuePos = some (some q.enqueuePos) := by
  induction fuel generalizing spurious with
  | zero => omega
  | succ fuel ih =>
    simp only [enqueueClaim, ready, BitVec.sub_self, true_and]
    by_cases last : spurious = 0
    · simp [last]
    · simpa [last] using ih (spurious - 1) (by omega)

/-- When the cell is not ready, an unsigned difference never compares below zero, so
the loop reloads the same position for ever. -/
theorem enqueueClaim_spins {q : Queue α}
    (full : (q.buffer (q.index q.enqueuePos)).seq ≠ q.enqueuePos) (spurious fuel : Nat) :
    enqueueClaim q fuel spurious q.enqueuePos = none := by
  have nonzero : (q.buffer (q.index q.enqueuePos)).seq - q.enqueuePos ≠ 0 := by
    intro zero
    exact full (by simpa using BitVec.sub_eq_iff_eq_add.mp zero)
  induction fuel with
  | zero => rfl
  | succ fuel ih =>
    have unsigned : ¬ (q.buffer (q.index q.enqueuePos)).seq - q.enqueuePos < 0 := by
      simp [BitVec.lt_def]
    simp only [enqueueClaim, if_neg nonzero, if_neg unsigned]
    exact ih

theorem dequeueClaim_ready {q : Queue α}
    (ready : (q.buffer (q.index q.dequeuePos)).seq = q.dequeuePos + 1) (spurious fuel : Nat)
    (enough : spurious < fuel) :
    dequeueClaim q fuel spurious q.dequeuePos = some (some q.dequeuePos) := by
  induction fuel generalizing spurious with
  | zero => omega
  | succ fuel ih =>
    simp only [dequeueClaim, ready, BitVec.sub_self, true_and]
    by_cases last : spurious = 0
    · simp [last]
    · simpa [last] using ih (spurious - 1) (by omega)

/-- A cell still waiting for its enqueue is one behind, which is negative as an `ssize_t`. -/
theorem dequeueClaim_empty {q : Queue α}
    (empty : (q.buffer (q.index q.dequeuePos)).seq = q.dequeuePos) (spurious fuel : Nat) :
    dequeueClaim q (fuel + 1) spurious q.dequeuePos = some none := by
  have behind : q.dequeuePos - (q.dequeuePos + 1) = -1 := by
    rw [← BitVec.sub_sub, BitVec.sub_self, BitVec.zero_sub]
  simp only [dequeueClaim, empty, behind]
  rfl

/-! ### What one call does -/

theorem enqueue_room {q : Queue α} {k d : Nat} {held : List α} (repr : Represents q k d held)
    (hk : k ≤ 63) (room : held.length < 2 ^ k) (v : α) (fuel spurious : Nat)
    (enough : spurious < fuel) :
    ∃ q', mpmcqEnqueue q fuel spurious v = some (true, q') ∧ Represents q' k d (held ++ [v]) := by
  -- the next cell is free for this position
  have ready : (q.buffer (q.index q.enqueuePos)).seq = q.enqueuePos := by
    rw [repr.enqueuePos, index_eq repr hk]
    exact repr.free _ (by omega) (by omega)
  refine ⟨_, by simp only [mpmcqEnqueue, enqueueClaim_ready ready spurious fuel enough]; rfl, ?_⟩
  have cell : q.index q.enqueuePos = (d + held.length) % 2 ^ k := by
    rw [repr.enqueuePos, index_eq repr hk]
  refine ⟨repr.mask, repr.dequeuePos, ?_, ?_, ?_, ?_⟩
  · simp only [repr.enqueuePos, List.length_append, List.length_singleton, ← Nat.add_assoc,
      ofNat_succ]
  · simp only [List.length_append, List.length_singleton]
    omega
  · intro i h
    simp only [List.length_append, List.length_singleton] at h
    -- the cell that is written, and those that were occupied before
    by_cases last : i = held.length
    · subst last
      simp only [cell, Function.update_self, List.getElem_concat_length, ofNat_succ]
      rw [repr.enqueuePos]
    · have earlier : i < held.length := by omega
      have apart : (d + i) % 2 ^ k ≠ (d + held.length) % 2 ^ k :=
        mod_ne_of_lt (by omega) (by omega)
      simp only [cell, Function.update_of_ne apart, repr.occupied i earlier,
        List.getElem_append_left earlier]
  · intro p lower upper
    simp only [List.length_append, List.length_singleton] at lower
    -- a free position whose cell this is would be a whole ring away
    have apart : p % 2 ^ k ≠ (d + held.length) % 2 ^ k :=
      (mod_ne_of_lt (by omega) (by omega)).symm
    simp only [cell, Function.update_of_ne apart]
    exact repr.free p (by omega) upper

/-- On a full queue the cell at the enqueue position is a ring behind. -/
theorem enqueue_full {q : Queue α} {k d : Nat} {held : List α} (repr : Represents q k d held)
    (hk : 1 ≤ k) (hk' : k ≤ 63) (full : held.length = 2 ^ k) (v : α) (fuel spurious : Nat) :
    mpmcqEnqueue q fuel spurious v = none := by
  have atLeastTwo : 2 ≤ 2 ^ k := by
    calc 2 = 2 ^ 1 := rfl
      _ ≤ 2 ^ k := Nat.pow_le_pow_right (by omega) hk
  have fits : 2 ^ k ≤ 2 ^ 63 := Nat.pow_le_pow_right (by omega) hk'
  have behind : (q.buffer (q.index q.enqueuePos)).seq ≠ q.enqueuePos := by
    have cell := congrArg Cell.seq (repr.occupied 0 (by omega))
    rw [repr.enqueuePos, index_eq repr hk', full, Nat.add_mod_right]
    rw [Nat.add_zero] at cell
    rw [cell]
    exact ofNat_ne (by omega) (by omega)
  simp only [mpmcqEnqueue, enqueueClaim_spins behind spurious fuel]

theorem dequeue_some {q : Queue α} {k d : Nat} {v : α} {held : List α}
    (repr : Represents q k d (v :: held)) (hk : k ≤ 63) (fuel spurious : Nat)
    (enough : spurious < fuel) :
    ∃ q', mpmcqDequeue q fuel spurious = some (some v, q') ∧ Represents q' k (d + 1) held := by
  have bound := repr.bound
  simp only [List.length_cons] at bound
  have cell : q.index q.dequeuePos = d % 2 ^ k := by rw [repr.dequeuePos, index_eq repr hk]
  have first : q.buffer (d % 2 ^ k) = ⟨BitVec.ofNat 64 (d + 1), some v⟩ :=
    repr.occupied 0 (by simp)
  -- the oldest cell holds a value for this position
  have ready : (q.buffer (q.index q.dequeuePos)).seq = q.dequeuePos + 1 := by
    rw [cell, first, repr.dequeuePos, ofNat_succ]
  refine ⟨_, by
    simp only [mpmcqDequeue, dequeueClaim_ready ready spurious fuel enough, cell, first]; rfl, ?_⟩
  have positive : 0 < 2 ^ k := Nat.two_pow_pos k
  refine ⟨repr.mask, ?_, ?_, by omega, ?_, ?_⟩
  · simp only [repr.dequeuePos, ofNat_succ]
  · simp only [repr.enqueuePos, List.length_cons]
    congr 1
    omega
  · intro i h
    have apart : (d + 1 + i) % 2 ^ k ≠ d % 2 ^ k := (mod_ne_of_lt (by omega) (by omega)).symm
    have old := repr.occupied (i + 1) (by simpa using h)
    rw [List.getElem_cons_succ, ← Nat.add_assoc, Nat.add_right_comm] at old
    simp only [Function.update_of_ne apart, old]
  · intro p lower upper
    -- the cell is free again for the position one ring further
    by_cases released : p = d + 2 ^ k
    · subst released
      have next : BitVec.ofNat 64 d + BitVec.ofNat 64 (2 ^ k - 1) + 1 = BitVec.ofNat 64 (d + 2 ^ k) := by
        rw [← BitVec.ofNat_add, show (1 : BitVec 64) = BitVec.ofNat 64 1 from rfl,
          ← BitVec.ofNat_add]
        congr 1
        omega
      simp only [Nat.add_mod_right, Function.update_self, repr.dequeuePos, repr.mask, next]
    · have apart : p % 2 ^ k ≠ d % 2 ^ k := (mod_ne_of_lt (by omega) (by omega)).symm
      simp only [Function.update_of_ne apart]
      exact repr.free p (by simp only [List.length_cons]; omega) (by omega)

theorem dequeue_none {q : Queue α} {k d : Nat} (repr : Represents q k d []) (hk : k ≤ 63)
    (fuel spurious : Nat) : mpmcqDequeue q (fuel + 1) spurious = some (none, q) := by
  have empty : (q.buffer (q.index q.dequeuePos)).seq = q.dequeuePos := by
    rw [repr.dequeuePos, index_eq repr hk]
    exact repr.free d (by simp) (by have := Nat.two_pow_pos k; omega)
  simp only [mpmcqDequeue, dequeueClaim_empty empty spurious fuel]

theorem count_eq {q : Queue α} {k d : Nat} {held : List α} (repr : Represents q k d held)
    (hk : k ≤ 63) : (mpmcqCount q).toNat = held.length := by
  have fits : 2 ^ k ≤ 2 ^ 63 := Nat.pow_le_pow_right (by omega) hk
  have bound := repr.bound
  simp only [mpmcqCount, repr.enqueuePos, repr.dequeuePos, BitVec.ofNat_add, BitVec.toNat_sub,
    BitVec.toNat_add, BitVec.toNat_ofNat]
  omega

/-! ### More fuel changes no result -/

theorem enqueueClaim_mono {q : Queue α} {fuel fuel' : Nat} (le : fuel ≤ fuel') {spurious : Nat}
    {pos : Size} {r : Option Size} (returned : enqueueClaim q fuel spurious pos = some r) :
    enqueueClaim q fuel' spurious pos = some r := by
  induction fuel generalizing fuel' spurious pos with
  | zero => simp [enqueueClaim] at returned
  | succ fuel ih =>
    obtain ⟨fuel', rfl⟩ : ∃ f, fuel' = f + 1 := ⟨fuel' - 1, by omega⟩
    simp only [enqueueClaim] at returned ⊢
    by_cases zero : (q.buffer (q.index pos)).seq - pos = 0
    · rw [if_pos zero] at returned ⊢
      by_cases won : q.enqueuePos = pos ∧ spurious = 0
      · rwa [if_pos won] at returned ⊢
      · rw [if_neg won] at returned ⊢
        exact ih (by omega) returned
    · rw [if_neg zero] at returned ⊢
      by_cases negative : (q.buffer (q.index pos)).seq - pos < 0
      · rwa [if_pos negative] at returned ⊢
      · rw [if_neg negative] at returned ⊢
        exact ih (by omega) returned

theorem dequeueClaim_mono {q : Queue α} {fuel fuel' : Nat} (le : fuel ≤ fuel') {spurious : Nat}
    {pos : Size} {r : Option Size} (returned : dequeueClaim q fuel spurious pos = some r) :
    dequeueClaim q fuel' spurious pos = some r := by
  induction fuel generalizing fuel' spurious pos with
  | zero => simp [dequeueClaim] at returned
  | succ fuel ih =>
    obtain ⟨fuel', rfl⟩ : ∃ f, fuel' = f + 1 := ⟨fuel' - 1, by omega⟩
    simp only [dequeueClaim] at returned ⊢
    by_cases zero : (q.buffer (q.index pos)).seq - (pos + 1) = 0
    · rw [if_pos zero] at returned ⊢
      by_cases won : q.dequeuePos = pos ∧ spurious = 0
      · rwa [if_pos won] at returned ⊢
      · rw [if_neg won] at returned ⊢
        exact ih (by omega) returned
    · rw [if_neg zero] at returned ⊢
      by_cases negative : BitVec.slt ((q.buffer (q.index pos)).seq - (pos + 1)) 0 = true
      · rwa [if_pos negative] at returned ⊢
      · rw [if_neg negative] at returned ⊢
        exact ih (by omega) returned

theorem call_mono {q : Queue α} {fuel fuel' : Nat} (le : fuel ≤ fuel') {c : Call α}
    {r : FifoRet α × Queue α} (returned : call fuel q c = some r) : call fuel' q c = some r := by
  cases c with
  | enqueue v spurious =>
    cases claimed : enqueueClaim q fuel spurious q.enqueuePos with
    | none => simp [call, mpmcqEnqueue, claimed] at returned
    | some pos =>
      simpa only [call, mpmcqEnqueue, claimed, enqueueClaim_mono le claimed] using returned
  | dequeue spurious =>
    cases claimed : dequeueClaim q fuel spurious q.dequeuePos with
    | none => simp [call, mpmcqDequeue, claimed] at returned
    | some pos =>
      simpa only [call, mpmcqDequeue, claimed, dequeueClaim_mono le claimed] using returned
  | count => exact returned

theorem calls_mono {q : Queue α} {fuel fuel' : Nat} (le : fuel ≤ fuel') {cs : List (Call α)}
    {rets : List (FifoRet α)} (returned : calls fuel q cs = some rets) :
    calls fuel' q cs = some rets := by
  induction cs generalizing q rets with
  | nil => exact returned
  | cons c cs ih =>
    simp only [calls] at returned ⊢
    cases done : call fuel q c with
    | none => simp [done] at returned
    | some result =>
      simp only [done, Option.map_eq_some_iff] at returned
      obtain ⟨rest, remaining, rfl⟩ := returned
      simp [call_mono le done, ih remaining]

/-! ### Sequences of calls -/

/-- Enough fuel for every call of a sequence. -/
def callFuel : List (Call α) → Nat
  | [] => 1
  | .enqueue _ spurious :: cs => max (spurious + 1) (callFuel cs)
  | .dequeue spurious :: cs => max (spurious + 1) (callFuel cs)
  | .count :: cs => callFuel cs

/-- With enough fuel, a sequence of calls returns exactly when none of them meets a
full queue, and then its results are those of the FIFO. -/
theorem calls_eq_fifo {q : Queue α} {k d : Nat} {held : List α} (repr : Represents q k d held)
    (hk : 1 ≤ k) (hk' : k ≤ 63) (cs : List (Call α)) (fuel : Nat) (enough : callFuel cs ≤ fuel) :
    (NeverFull (2 ^ k) held.length (cs.map Call.op) →
      calls fuel q cs = some (fifoRets (2 ^ k) held (cs.map Call.op))) ∧
    (∀ rets, calls fuel q cs = some rets → NeverFull (2 ^ k) held.length (cs.map Call.op)) := by
  induction cs generalizing q d held with
  | nil => exact ⟨fun _ => rfl, fun _ _ => trivial⟩
  | cons c cs ih =>
    cases c with
    | enqueue v spurious =>
      simp only [callFuel, max_le_iff] at enough
      by_cases room : held.length < 2 ^ k
      · obtain ⟨q', done, repr'⟩ := enqueue_room repr hk' room v fuel spurious (by omega)
        have rest := ih repr' enough.2
        rw [List.length_append] at rest
        simp_all [calls, call, fifoRets, fifoStep, Call.op, NeverFull]
      · -- the ring is full: the call does not return, and `NeverFull` fails
        have full : held.length = 2 ^ k := by have := repr.bound; omega
        have stuck := enqueue_full repr hk hk' full v fuel spurious
        simp [calls, call, stuck, Call.op, NeverFull, room]
    | dequeue spurious =>
      simp only [callFuel, max_le_iff] at enough
      cases held with
      | nil =>
        obtain ⟨fuel, rfl⟩ : ∃ f, fuel = f + 1 := ⟨fuel - 1, by omega⟩
        have done := dequeue_none repr hk' fuel spurious
        have rest := ih repr enough.2
        simp_all [calls, call, fifoRets, fifoStep, Call.op, NeverFull]
      | cons v held =>
        obtain ⟨q', done, repr'⟩ := dequeue_some repr hk' fuel spurious (by omega)
        have rest := ih repr' enough.2
        simp_all [calls, call, fifoRets, fifoStep, Call.op, NeverFull]
    | count =>
      have rest := ih repr enough
      simp_all [calls, call, count_eq repr hk', fifoRets, fifoStep, Call.op, NeverFull]

/-- Without overlapping calls the queue is a FIFO of `2 ^ k` elements, each call
returning with the FIFO's result, exactly as long as no `mpmcq_enqueue` is called
while the queue is full: that call never returns. -/
theorem mpmcq_fifo_iff (k : Nat) (hk : 1 ≤ k) (hk' : k ≤ 63) (cs : List (Call α)) :
    (∃ fuel, calls fuel (mpmcqInit (BitVec.ofNat 64 (2 ^ k))) cs =
      some (fifoRets (2 ^ k) [] (cs.map Call.op))) ↔
    NeverFull (2 ^ k) 0 (cs.map Call.op) := by
  have initial : Represents (mpmcqInit (BitVec.ofNat 64 (2 ^ k)) : Queue α) k 0 [] :=
    mpmcqInit_represents k hk'
  constructor
  · rintro ⟨fuel, returned⟩
    have more := calls_mono (Nat.le_max_left fuel (callFuel cs)) returned
    exact (calls_eq_fifo initial hk hk' cs _ (Nat.le_max_right _ _)).2 _ more
  · intro fits
    exact ⟨callFuel cs, (calls_eq_fifo initial hk hk' cs _ (Nat.le_refl _)).1 fits⟩

/-- A ring of two cells, an enqueue, a dequeue and a count. -/
theorem mpmcq_fifo_two :
    (1 ≤ 1 ∧ 1 ≤ 63) ∧
    ((∃ fuel, calls fuel (mpmcqInit (BitVec.ofNat 64 (2 ^ 1)))
        [.enqueue 7 0, .dequeue 1, .count] =
      some (fifoRets (2 ^ 1) [] [.push 7, .pop, .size])) ↔
    NeverFull (2 ^ 1) 0 [.push 7, .pop, .size]) :=
  ⟨by decide, mpmcq_fifo_iff 1 (by decide) (by decide) [.enqueue 7 0, .dequeue 1, .count]⟩

/-- The third enqueue into a ring of two cells never returns. -/
theorem mpmcq_third_enqueue_stuck :
    ¬ ∃ fuel, calls fuel (mpmcqInit (BitVec.ofNat 64 (2 ^ 1)))
        [.enqueue 1 0, .enqueue 2 0, .enqueue 3 0] =
      some (fifoRets (2 ^ 1) [] [.push 1, .push 2, .push 3]) := by
  rintro ⟨fuel, returned⟩
  have initial := mpmcqInit_represents (α := Nat) 1 (by decide)
  have more := calls_mono (Nat.le_max_left fuel 1) returned
  have fits := (calls_eq_fifo initial (by decide) (by decide) _ _ (Nat.le_max_right fuel 1)).2 _ more
  exact absurd fits (by decide)

end GhettoRedis.Mpmcq
