import GhettoRedis.Server.Alarm

/-!
# Notifications

`reactor_wakeup_pending` after any notifications, with nothing going on in between: which shards
it signals, and that it does what the shard's thread does step by step.
-/
namespace GhettoRedis.Server

open Lib Protocol Commands

variable {n : ℕ}

/-! ### The pass over the shards -/

/-- `atomic_exchange(&r->sleeping, false)`, and the write to `wakeup_fd` if it slept. -/
def Shard.wake (shard : Shard n) : Shard n × Bool :=
  if shard.sleeping then ({ shard with sleeping := false, wakeupFd := shard.wakeupFd + 1 }, true)
  else ({ shard with sleeping := false }, false)

/-- One turn of the loop of reactor `i`, at shard `j`. -/
def wakeTurn (i : Fin n) (r : State n × Bool) (j : Fin n) : State n × Bool :=
  if bitset64Get (r.1.shard i).softNotify j then
    (r.1.setShard j (r.1.shard j).wake.1, r.2 || (r.1.shard j).wake.2)
  else r

/-- `reactor_wakeup_pending` of reactor `i`: the state afterwards and what it returns. -/
def reactorWakeupPending (s : State n) (i : Fin n) : State n × Bool :=
  let r := (List.finRange n).foldl (wakeTurn i) (s, false)
  (r.1.setShard i { r.1.shard i with softNotify := 0 }, r.2)

/-- `BITSET64_RESET`, and `BITSET64_SET` for each of the ids. -/
def notifyAll (s : State n) (i : Fin n) (ids : List (Fin n)) : State n :=
  ids.foldl (fun s (id : Fin n) => s.notify i id) (s.setShard i { s.shard i with softNotify := 0 })

/-- From `s`, reactor `i` has signalled the shards of the set that sleep, has cleared the flags of
those in the set, returns whether it signalled any, and has nothing pending. -/
structure Wakes (s : State n) (i : Fin n) (told : Fin n → Prop) [DecidablePred told]
    (r : State n × Bool) : Prop where
  signals : ∀ j, (r.1.shard j).wakeupFd =
    (s.shard j).wakeupFd + if told j ∧ (s.shard j).sleeping = true then 1 else 0
  clears : ∀ j, (r.1.shard j).sleeping = true ↔ (s.shard j).sleeping = true ∧ ¬ told j
  returns : r.2 = true ↔ ∃ j, told j ∧ (s.shard j).sleeping = true
  empty : (r.1.shard i).softNotify = 0

/-- `reactor_wakeup_pending` treats exactly the shards whose id was set since the last reset. -/
def NotifiesExactly (s : State n) (i : Fin n) (ids : List (Fin n)) : Prop :=
  Wakes s i (· ∈ ids) (reactorWakeupPending (notifyAll s i ids) i)

/-! ### The bits -/

/-- The mask of a bit is that of every bit 32 further on, and bit 31 fills the upper half. -/
theorem bitMask_and (a b : ℕ) : bitMask a &&& bitMask b ≠ 0#64 ↔ a % 32 = b % 32 := by
  have all : ∀ a < 32, ∀ b < 32, (((1 : BitVec 32) <<< a).signExtend 64 &&&
      ((1 : BitVec 32) <<< b).signExtend 64 ≠ 0#64 ↔ a = b) := by decide
  exact all _ (Nat.mod_lt _ (by decide)) _ (Nat.mod_lt _ (by decide))

theorem bitset64Get_set_iff {bitset : Size} {bit j : ℕ} :
    bitset64Get (bitset64Set bitset bit) j = true ↔
      bitset64Get bitset j = true ∨ bit % 32 = j % 32 := by
  rw [bitset64Get_iff, bitset64Get_iff, bitset64Set, BitVec.and_or_distrib_right, ne_eq,
    BitVec.or_eq_zero_iff, not_and_or, ← ne_eq, ← ne_eq, bitMask_and]

theorem notifyAll_bits (s : State n) (i : Fin n) (ids : List (Fin n)) (j : ℕ) :
    bitset64Get ((notifyAll s i ids).shard i).softNotify j = true ↔
      ∃ id ∈ ids, id.val % 32 = j % 32 := by
  unfold notifyAll
  induction ids using List.reverseRecOn with
  | nil => simp [bitset64Get]
  | append_singleton ids id ih =>
    rw [List.foldl_append, List.foldl_cons, List.foldl_nil, State.notify, State.setShard_shard_self,
      bitset64Get_set_iff, ih]
    simp [or_and_right, exists_or]

/-- Nothing else is touched by notifications. -/
theorem notifyAll_flags (s : State n) (i : Fin n) (ids : List (Fin n)) (j : Fin n) :
    ((notifyAll s i ids).shard j).sleeping = (s.shard j).sleeping ∧
      ((notifyAll s i ids).shard j).wakeupFd = (s.shard j).wakeupFd := by
  have kept (s : State n) (bits : Size) :
      ((s.setShard i { s.shard i with softNotify := bits }).shard j).sleeping = (s.shard j).sleeping ∧
        ((s.setShard i { s.shard i with softNotify := bits }).shard j).wakeupFd =
          (s.shard j).wakeupFd := by
    by_cases own : j = i
    · subst own
      simp
    · rw [State.setShard_shard_of_ne _ _ own]
      exact ⟨rfl, rfl⟩
  unfold notifyAll
  induction ids using List.reverseRecOn with
  | nil => exact kept s 0
  | append_singleton ids id ih =>
    rw [List.foldl_append, List.foldl_cons, List.foldl_nil]
    obtain ⟨sleeping, fd⟩ := kept (ids.foldl (fun s (id : Fin n) => s.notify i id)
      (s.setShard i { s.shard i with softNotify := 0 })) (bitset64Set _ id)
    exact ⟨sleeping.trans ih.1, fd.trans ih.2⟩

/-! ### The loop -/

/-- A shard behind its turn. -/
def Shard.turned (get : Bool) (shard : Shard n) : Shard n := if get then shard.wake.1 else shard

@[simp] theorem Shard.wake_softNotify (shard : Shard n) :
    shard.wake.1.softNotify = shard.softNotify := by
  unfold Shard.wake
  split <;> rfl

theorem Shard.wake_slept (shard : Shard n) : shard.wake.2 = shard.sleeping := by
  unfold Shard.wake
  split
  next slept => exact slept.symm
  next awake => exact (Bool.not_eq_true _ ▸ awake).symm

section Turn

variable {i : Fin n} (r : State n × Bool) (k : Fin n)

theorem wakeTurn_bits : ((wakeTurn i r k).1.shard i).softNotify = (r.1.shard i).softNotify := by
  unfold wakeTurn
  split
  next =>
    by_cases own : i = k
    · subst own
      simp
    · rw [State.setShard_shard_of_ne _ _ own]
  next => rfl

theorem wakeTurn_others {j : Fin n} (other : j ≠ k) : (wakeTurn i r k).1.shard j = r.1.shard j := by
  unfold wakeTurn
  split
  next => exact State.setShard_shard_of_ne _ _ other
  next => rfl

theorem wakeTurn_own : (wakeTurn i r k).1.shard k =
    (r.1.shard k).turned (bitset64Get (r.1.shard i).softNotify k) := by
  unfold wakeTurn Shard.turned
  split
  next => exact State.setShard_shard_self ..
  next => rfl

theorem wakeTurn_returned : (wakeTurn i r k).2 = true ↔ r.2 = true ∨
    bitset64Get (r.1.shard i).softNotify k = true ∧ (r.1.shard k).sleeping = true := by
  unfold wakeTurn
  split
  next get => rw [Bool.or_eq_true, Shard.wake_slept, and_iff_right get]
  next unset => rw [or_iff_left fun both => unset both.1]

end Turn

/-- Each shard has one turn; the bits stay as they are. -/
theorem wakeTurns {i : Fin n} {l : List (Fin n)} (nodup : l.Nodup) (r : State n × Bool) :
    ((l.foldl (wakeTurn i) r).1.shard i).softNotify = (r.1.shard i).softNotify ∧
    (∀ j, (l.foldl (wakeTurn i) r).1.shard j =
      if j ∈ l then (r.1.shard j).turned (bitset64Get (r.1.shard i).softNotify j) else r.1.shard j) ∧
    ((l.foldl (wakeTurn i) r).2 = true ↔ r.2 = true ∨
      ∃ j ∈ l, bitset64Get (r.1.shard i).softNotify j = true ∧ (r.1.shard j).sleeping = true) := by
  induction l generalizing r with
  | nil => simp
  | cons k l ih =>
    obtain ⟨once, nodup⟩ := List.nodup_cons.mp nodup
    obtain ⟨bits, shards, returned⟩ := ih nodup (wakeTurn i r k)
    rw [List.foldl_cons]
    refine ⟨bits.trans (wakeTurn_bits r k), fun j => ?_, ?_⟩
    · rw [shards, wakeTurn_bits]
      by_cases same : j = k
      · -- it comes only once
        subst same
        rw [if_neg once, wakeTurn_own, if_pos List.mem_cons_self]
      · simp only [wakeTurn_others r k same, List.mem_cons, same, false_or]
    · rw [returned, wakeTurn_returned, wakeTurn_bits, or_assoc, List.exists_mem_cons_iff]
      refine or_congr_right (or_congr_right (exists_congr fun j => and_congr_right fun mem => ?_))
      rw [wakeTurn_others r k fun same => once (same ▸ mem)]

/-! ### The shards that are told -/

/-- Some id was set whose mask is that of the id of `j`. -/
def Told (ids : List (Fin n)) (j : Fin n) : Prop := ∃ id ∈ ids, id.val % 32 = j.val % 32

instance (ids : List (Fin n)) (j : Fin n) : Decidable (Told ids j) :=
  inferInstanceAs (Decidable (∃ id ∈ ids, _))

theorem told_of_mem {ids : List (Fin n)} {j : Fin n} (mem : j ∈ ids) : Told ids j := ⟨j, mem, rfl⟩

theorem Shard.turned_wakeupFd (get : Bool) (shard : Shard n) : (shard.turned get).wakeupFd =
    shard.wakeupFd + if get = true ∧ shard.sleeping = true then 1 else 0 := by
  unfold Shard.turned Shard.wake
  cases get <;> cases shard.sleeping <;> rfl

theorem Shard.turned_sleeping (get : Bool) (shard : Shard n) :
    (shard.turned get).sleeping = true ↔ shard.sleeping = true ∧ ¬ get = true := by
  unfold Shard.turned Shard.wake
  cases get <;> cases asleep : shard.sleeping <;> simp [asleep]

/-- What the loop leaves, whatever the number of shards. -/
theorem wakes_told (s : State n) (i : Fin n) (ids : List (Fin n)) :
    Wakes s i (Told ids) (reactorWakeupPending (notifyAll s i ids) i) := by
  obtain ⟨-, shards, returned⟩ :=
    wakeTurns (i := i) (List.nodup_finRange n) (notifyAll s i ids, false)
  have shards (j : Fin n) := (shards j).trans (if_pos (List.mem_finRange j))
  have flags := notifyAll_flags s i ids
  have told (j : Fin n) : bitset64Get ((notifyAll s i ids).shard i).softNotify j = true ↔
      Told ids j := notifyAll_bits s i ids j
  -- the reset behind the loop
  have reset (j : Fin n) : (((reactorWakeupPending (notifyAll s i ids) i).1.shard j).wakeupFd =
      (((List.finRange n).foldl (wakeTurn i) (notifyAll s i ids, false)).1.shard j).wakeupFd) ∧
      ((reactorWakeupPending (notifyAll s i ids) i).1.shard j).sleeping =
      (((List.finRange n).foldl (wakeTurn i) (notifyAll s i ids, false)).1.shard j).sleeping := by
    unfold reactorWakeupPending
    by_cases own : j = i
    · subst own
      rw [State.setShard_shard_self]
      exact ⟨rfl, rfl⟩
    · rw [State.setShard_shard_of_ne _ _ own]
      exact ⟨rfl, rfl⟩
  refine ⟨fun j => ?_, fun j => ?_, ?_, ?_⟩
  · rw [(reset j).1, shards, Shard.turned_wakeupFd, (flags j).1, (flags j).2]
    simp only [told]
  · rw [(reset j).2, shards, Shard.turned_sleeping, (flags j).1, told]
  · refine returned.trans ?_
    simp only [Bool.false_eq_true, false_or, List.mem_finRange, true_and, told, flags]
  · exact congrArg Shard.softNotify (State.setShard_shard_self ..)

theorem notifies_exactly {s : State n} {ids : List (Fin n)}
    (apart : ∀ j, (s.shard j).sleeping = true → Told ids j → j ∈ ids) (i : Fin n) :
    NotifiesExactly s i ids := by
  have loop := wakes_told s i ids
  have same (j : Fin n) (asleep : (s.shard j).sleeping = true) : Told ids j ↔ j ∈ ids :=
    ⟨apart j asleep, told_of_mem⟩
  refine ⟨fun j => ?_, fun j => ?_, loop.returns.trans (exists_congr fun j => ?_), loop.empty⟩
  · rw [loop.signals]
    congr 2
    exact propext (and_congr_left (same j))
  · exact (loop.clears j).trans (and_congr_right fun asleep => not_congr (same j asleep))
  · exact and_congr_left (same j)

/-- With up to 32 shards the sets are exact. -/
theorem notifies_exactly_of_le (few : n ≤ 32) (s : State n) (i : Fin n) (ids : List (Fin n)) :
    NotifiesExactly s i ids := by
  refine notifies_exactly (fun j _ told => ?_) i
  obtain ⟨id, mem, same⟩ := told
  have : id = j := Fin.ext (by omega)
  exact this ▸ mem

/-- `cmd_shutdown` sets every id, and misses nobody however many shards there are. -/
theorem notifies_exactly_all (s : State n) (i : Fin n) : NotifiesExactly s i (List.finRange n) :=
  notifies_exactly (fun j _ _ => List.mem_finRange j) i

/-- The masks of two ids are the same when they differ by 32. -/
theorem notifies_exactly_iff (s : State n) (i : Fin n) (ids : List (Fin n)) :
    NotifiesExactly s i ids ↔ ∀ j, (s.shard j).sleeping = true →
      (∃ id ∈ ids, id.val % 32 = j.val % 32) → j ∈ ids := by
  constructor
  · intro is_exact j asleep told
    by_contra unset
    -- its flag is cleared, though its id is not in the set
    have kept := (is_exact.clears j).mpr ⟨asleep, unset⟩
    exact (((wakes_told s i ids).clears j).mp kept).2 told
  · exact fun apart => notifies_exactly apart i

/-- Shard 32 is woken up for shard 0. -/
theorem zero_wakes_32 : ¬ NotifiesExactly (State.init 33) 0 [0] := by
  intro is_exact
  have kept := (is_exact.clears 32).mpr ⟨rfl, by decide⟩
  exact (((wakes_told (State.init 33) 0 [0]).clears 32).mp kept).2 (by decide)

/-! ### The thread -/

/-- Where the thread of shard `i` stood is forgotten when it moves on. -/
theorem goto_goto (s : State n) (i : Fin n) (pc pc' : Pc n) :
    (s.goto i pc).goto i pc' = s.goto i pc' := by
  simp only [State.goto, State.setShard, State.mk.injEq, and_true]
  funext j
  by_cases own : j = i <;> simp [own]

/-- The exchange and the write, one after the other. -/
theorem signalled_eq_wake (s : State n) (i j : Fin n) (asleep : (s.shard j).sleeping = true)
    {pc pc' pc'' : Pc n} {t : State n}
    (exchanged : t = ((s.goto i pc).setSleeping j false).goto i pc') :
    (t.setShard j { t.shard j with wakeupFd := (t.shard j).wakeupFd + 1 }).goto i pc'' =
      (s.setShard j (s.shard j).wake.1).goto i pc'' := by
  subst exchanged
  simp only [State.goto, State.setSleeping, State.setShard, Shard.wake, asleep, State.mk.injEq,
    and_true]
  funext k
  by_cases own : k = i <;> by_cases other : k = j <;> simp_all

theorem Shard.wake_awake {shard : Shard n} (awake : ¬ shard.sleeping = true) :
    shard.wake.1 = shard := by
  unfold Shard.wake
  rw [if_neg awake, ← Bool.eq_false_iff.mpr awake]

theorem setShard_own (s : State n) (j : Fin n) : s.setShard j (s.shard j) = s := by
  simp only [State.setShard]
  congr 1
  funext k
  by_cases own : k = j <;> simp [own]

theorem wokeUp_goto (s : State n) (i : Fin n) (pc : Pc n) (k : Waking) :
    (s.goto i pc).wokeUp i k = s.wokeUp i k := by
  cases k with
  | loop => exact congrArg some (goto_goto ..)
  | shutdown c args k =>
    simp only [State.wokeUp, State.goto_conn]
    split
    next => rfl
    next conn live => exact congrArg some (goto_goto (s.setConn c _) i pc _)

variable [NeZero n] (cfg : Config)

theorem step_wakeup {s : State n} {i : Fin n} {j : ℕ} {k : Waking}
    (stands : (s.shard i).pc = .wakeup j k) : step cfg s i .go =
      if below : j < n then
        if bitset64Get (s.shard i).softNotify j ∧ (s.shard ⟨j, below⟩).sleeping then
          some ((s.setSleeping ⟨j, below⟩ false).goto i (.signal ⟨j, below⟩ k), [])
        else some (s.goto i (.wakeup (j + 1) k), [])
      else ((s.setShard i { s.shard i with softNotify := 0 }).wokeUp i k).map fun s' => (s', []) := by
  unfold step
  rw [stands]

theorem step_signal {s : State n} {i j : Fin n} {k : Waking}
    (stands : (s.shard i).pc = .signal j k) : step cfg s i .go =
      some ((s.setShard j { s.shard j with wakeupFd := (s.shard j).wakeupFd + 1 }).goto i
        (.wakeup (j + 1) k), []) := by
  unfold step
  rw [stands]

/-- The steps of the thread of reactor `i` at shard `j` are one turn. -/
theorem wake_turn_runs (r : State n × Bool) (i j : Fin n) (k : Waking) :
    (server cfg).Run (fun _ a => a.1 = i) (r.1.goto i (.wakeup j k))
      ((wakeTurn i r j).1.goto i (.wakeup (j + 1) k)) [] := by
  have stands : ((r.1.goto i (.wakeup j k)).shard i).pc = .wakeup j k := by simp
  have bits : ((r.1.goto i (.wakeup j k)).shard i).softNotify = (r.1.shard i).softNotify := by simp
  have flag : ((r.1.goto i (.wakeup j k)).shard j).sleeping = (r.1.shard j).sleeping := by
    by_cases own : j = i
    · subst own
      simp
    · rw [State.goto_shard_of_ne _ _ own]
  by_cases both : bitset64Get (r.1.shard i).softNotify j = true ∧ (r.1.shard j).sleeping = true
  · -- the exchange, then the write
    have exchange : (server cfg).step (r.1.goto i (.wakeup j k)) (i, .go) =
        some (((r.1.goto i (.wakeup j k)).setSleeping j false).goto i (.signal j k), []) := by
      refine (step_wakeup cfg stands).trans ?_
      rw [dif_pos j.isLt, bits, flag, if_pos both]
    have write : (server cfg).step
        (((r.1.goto i (.wakeup j k)).setSleeping j false).goto i (.signal j k)) (i, .go) =
          some ((r.1.setShard j (r.1.shard j).wake.1).goto i (.wakeup (j + 1) k), []) := by
      refine (step_signal cfg (congrArg Shard.pc (State.goto_shard_self ..))).trans ?_
      rw [signalled_eq_wake r.1 i j both.2 rfl]
    have turn : (wakeTurn i r j).1 = r.1.setShard j (r.1.shard j).wake.1 :=
      congrArg Prod.fst (if_pos both.1)
    rw [turn]
    exact .step (.step .refl (by rfl) exchange) (by rfl) write
  · -- nobody is signalled, and a flag that is clear stays so
    have pass : (server cfg).step (r.1.goto i (.wakeup j k)) (i, .go) =
        some (r.1.goto i (.wakeup (j + 1) k), []) := by
      refine (step_wakeup cfg stands).trans ?_
      rw [dif_pos j.isLt, bits, flag, if_neg both, goto_goto]
    have same : (wakeTurn i r j).1 = r.1 := by
      unfold wakeTurn
      split
      next get => rw [Shard.wake_awake fun asleep => both ⟨get, asleep⟩, setShard_own]
      next => rfl
    rw [same]
    exact .step .refl (by rfl) pass

theorem wake_turns_run (s : State n) (i : Fin n) (k : Waking) (m : ℕ) (le : m ≤ n) :
    (server cfg).Run (fun _ a => a.1 = i) (s.goto i (.wakeup 0 k))
      ((((List.finRange n).take m).foldl (wakeTurn i) (s, false)).1.goto i (.wakeup m k)) [] := by
  induction m with
  | zero => exact .refl
  | succ m ih =>
    have turn := wake_turn_runs cfg (((List.finRange n).take m).foldl (wakeTurn i) (s, false)) i
      ⟨m, le⟩ k
    rw [List.take_succ_eq_append_getElem (by simpa using Nat.lt_of_succ_le le), List.foldl_append]
    simpa using (ih (Nat.le_of_succ_le le)).trans turn

/-- With nothing going on in between, the steps of a thread through `reactor_wakeup_pending` are
the call. -/
theorem reactor_wakeup_pending_runs {s t : State n} {i : Fin n} {k : Waking}
    (returns : (reactorWakeupPending s i).1.wokeUp i k = some t) :
    (server cfg).Run (fun _ a => a.1 = i) (s.goto i (.wakeup 0 k)) t [] := by
  have loop := wake_turns_run cfg s i k n le_rfl
  rw [List.take_of_length_le (by simp)] at loop
  -- the reset, and back to the caller
  have reset (s : State n) (pc : Pc n) :
      (s.goto i pc).setShard i { (s.goto i pc).shard i with softNotify := 0 } =
        (s.setShard i { s.shard i with softNotify := 0 }).goto i pc := by
    simp only [State.goto, State.setShard, State.mk.injEq, and_true]
    funext j
    by_cases own : j = i <;> simp [own]
  have goes : ((((List.finRange n).foldl (wakeTurn i) (s, false)).1.goto i (.wakeup n k)).setShard i
      { (((List.finRange n).foldl (wakeTurn i) (s, false)).1.goto i (.wakeup n k)).shard i with
        softNotify := 0 }).wokeUp i k = some t := by
    rw [reset, wokeUp_goto]
    exact returns
  have last : (server cfg).step
      (((List.finRange n).foldl (wakeTurn i) (s, false)).1.goto i (.wakeup n k)) (i, .go) =
        some (t, []) := by
    refine (step_wakeup cfg (congrArg Shard.pc (State.goto_shard_self ..))).trans ?_
    rw [dif_neg (Nat.lt_irrefl n), goes, Option.map_some]
  exact .step loop (by rfl) last

end GhettoRedis.Server
