import GhettoRedis.Server.Wakeups

/-!
# Shutdown

`cmd_shutdown` clears `running` everywhere and signals the shards that sleep. A shard that
has tested `running` before and is on its way to `epoll_wait` does not sleep yet.
-/
namespace GhettoRedis.Server

open Lib Protocol Commands

variable {n : ℕ}

/-- Where `reactor_wakeup_pending` stands when `cmd_shutdown` has called it. -/
def Pc.passing : Pc n → Option ℕ
  | .wakeup m (.shutdown _ _ _) => some m
  | _ => none

theorem Pc.eq_of_passing {pc : Pc n} {m : ℕ} (passing : pc.passing = some m) :
    ∃ c args k, pc = .wakeup m (.shutdown c args k) := by
  unfold Pc.passing at passing
  split at passing <;> cases passing
  exact ⟨_, _, _, rfl⟩

namespace Watch

variable (w : Watch n) (t : Fin n)

/-- Shard `t` gets back to the test of `running`: its thread does so without waiting, its
`eventfd` does not let it wait, or it finds a message when it looks again. -/
def Returns : Prop :=
  (w.pc t).aware = true ∨ 0 < (w.alarm t).wakeupFd ∨
    0 < (w.alarm t).cells ∧ (w.pc t).isWaiting = false

/-- Shard `t` is going to find `running` cleared. -/
def Notices : Prop := (w.alarm t).running = false ∧ w.Returns t

/-- When `cmd_shutdown` passes over a shard that does not sleep, that shard is not on its way
to `epoll_wait` unseen. -/
def Heard (i : Fin n) : Prop :=
  ∀ m ∈ (w.pc i).passing, ∀ t : Fin n, t.val = m → (w.alarm t).sleeping = false → w.Returns t

instance : Decidable (w.Returns t) := inferInstanceAs (Decidable (_ ∨ _ ∨ _ ∧ _))

instance (i : Fin n) : Decidable (w.Heard i) := inferInstanceAs (Decidable (∀ _ ∈ _, ∀ _, _ → _ → _))

end Watch

/-- `cmd_shutdown` on this thread has cleared `running` of shard `t` and set its bit. -/
def Pc.Told (t : Fin n) : Pc n → Prop
  | .stop j _ _ _ => t.val < j
  | .wakeup _ (.shutdown _ _ _) | .signal _ (.shutdown _ _ _) => True
  | _ => False

/-- `cmd_shutdown` on this thread has signalled shard `t` or passed over it. -/
def Pc.Done (t : Fin n) : Pc n → Prop
  | .wakeup m (.shutdown _ _ _) => t.val < m
  | .signal m (.shutdown _ _ _) => t.val < m.val
  | _ => False

theorem Pc.Free.not_told {pc : Pc n} (free : pc.Free) (t : Fin n) : ¬ pc.Told t := by
  cases pc <;> first | exact free.elim | exact id

theorem Pc.Free.not_done {pc : Pc n} (free : pc.Free) (t : Fin n) : ¬ pc.Done t := by
  cases pc <;> first | exact free.elim | exact id

theorem Pc.Free.not_blocked {pc : Pc n} (free : pc.Free) : pc.isWaiting = false := by
  cases pc <;> first | exact free.elim | rfl

section Steps

variable {w w' : Watch n} {i : Fin n}

/-- `running` is never set again. -/
theorem Stir.running (stir : Stir w i w') {t : Fin n} (before : (w.alarm t).running = false) :
    (w'.alarm t).running = false := by
  cases stir with
  | free | enter | pass | stopped | sleep | resume | awake => exact before
  | dequeue | wake | signal | woke | claim | publish | presleep | clear | drain =>
    exact (Watch.set_field Alarm.running (by rfl)).trans before
  | @stop j _ _ _ _ _ is =>
    subst is
    refine (Watch.set_field Alarm.running (by rfl)).trans ?_
    by_cases here : t = j
    · subst here
      rw [Watch.set_alarm_self]
    · rw [Watch.set_alarm_of_ne _ _ here, before]

/-- Nobody takes from the queue or the `eventfd` of another shard. -/
theorem Stir.fills (stir : Stir w i w') {t : Fin n} (other : t ≠ i) :
    (w.alarm t).wakeupFd ≤ (w'.alarm t).wakeupFd ∧ (w.alarm t).cells ≤ (w'.alarm t).cells := by
  have fills (fd : (w'.alarm t).wakeupFd = (w.alarm t).wakeupFd)
      (cells : (w'.alarm t).cells = (w.alarm t).cells) :
      (w.alarm t).wakeupFd ≤ (w'.alarm t).wakeupFd ∧ (w.alarm t).cells ≤ (w'.alarm t).cells :=
    ⟨fd.ge, cells.ge⟩
  cases stir with
  | free | enter | pass | stopped | sleep | resume | awake => exact ⟨le_rfl, le_rfl⟩
  | dequeue | woke | publish | presleep | clear | drain =>
    apply fills <;> simp [Watch.set_alarm_of_ne _ _ other]
  | wake =>
    exact fills (Watch.set_field Alarm.wakeupFd (by rfl)) (Watch.set_field Alarm.cells (by rfl))
  | stop _ is =>
    subst is
    apply fills
    · exact (Watch.set_field Alarm.wakeupFd (by rfl)).trans (Watch.set_field Alarm.wakeupFd (by rfl))
    · exact (Watch.set_field Alarm.cells (by rfl)).trans (Watch.set_field Alarm.cells (by rfl))
  | @signal j =>
    refine ⟨?_, (Watch.set_field Alarm.cells (by rfl)).ge⟩
    -- a counter is only added to by others
    by_cases here : t = j
    · subst here
      simp
    · simp [Watch.set_alarm_of_ne _ _ here]
  | @claim j =>
    refine ⟨(Watch.set_field Alarm.wakeupFd (by rfl)).ge, ?_⟩
    -- and so is a queue
    by_cases here : t = j
    · subst here
      simp
    · simp [Watch.set_alarm_of_ne _ _ here]

/-- The shard itself, with `running` cleared, does not go to wait. -/
theorem Stir.returns (stir : Stir w i w') (cleared : (w.alarm i).running = false)
    (before : w.Returns i) : w'.Returns i := by
  have keeps (aware : (w.pc i).aware = true → (w'.pc i).aware = true)
      (fd : (w.alarm i).wakeupFd ≤ (w'.alarm i).wakeupFd) (cells : (w.alarm i).cells ≤ (w'.alarm i).cells)
      (stays : (w'.pc i).isWaiting = false) : w'.Returns i := by
    rcases before with before | before | ⟨before, -⟩
    · exact .inl (aware before)
    · exact .inr (.inl (before.trans_le fd))
    · exact .inr (.inr ⟨before.trans_le cells, stays⟩)
  cases stir with
  | free _ free aware =>
    -- the thread moves on, with what it knew
    exact keeps (by simpa using aware cleared) le_rfl le_rfl (by simpa using free.not_blocked)
  | enter _ enters aware =>
    apply keeps (by simpa using aware) le_rfl le_rfl
    rcases enters with rfl | rfl | ⟨c, args, k, rfl⟩ <;> simp [Pc.isWaiting]
  | dequeue | resume | awake | drain => exact .inl (by simp [Pc.aware])
  | pass stands | stopped stands =>
    apply keeps _ le_rfl le_rfl
    · simp [Pc.isWaiting]
    · simp [stands, Pc.aware, Waking.aware]
  | wake stands =>
    apply keeps
    · simp [stands, Pc.aware]
    · exact (Watch.set_field Alarm.wakeupFd (by rfl)).ge
    · exact (Watch.set_field Alarm.cells (by rfl)).ge
    · simp [Pc.isWaiting]
  | @signal j k stands =>
    apply keeps
    · simp [stands, Pc.aware]
    · by_cases here : i = j
      · subst here
        simp
      · simp [Watch.set_alarm_of_ne _ _ here]
    · exact (Watch.set_field Alarm.cells (by rfl)).ge
    · simp [Pc.isWaiting]
  | woke _ _ free aware | publish _ free aware =>
    exact keeps (by simpa using aware) (by simp) (by simp) (by simpa using free.not_blocked)
  | @claim t msg k stands =>
    apply keeps
    · simp [stands, Pc.aware]
    · exact (Watch.set_field Alarm.wakeupFd (by rfl)).ge
    · by_cases here : i = t
      · subst here
        simp
      · simp [Watch.set_alarm_of_ne _ _ here]
    · simp [Pc.isWaiting]
  | stop stands is =>
    subst is
    apply keeps
    · simp [stands, Pc.aware]
    · simp [Watch.set_field Alarm.wakeupFd]
    · simp [Watch.set_field Alarm.cells]
    · simp [Pc.isWaiting]
  | presleep stands => exact keeps (by simp [stands, Pc.aware]) (by simp) (by simp) (by simp [Pc.isWaiting])
  | sleep stands empty =>
    -- it waits only when its queue is empty
    rcases before with before | before | ⟨before, -⟩
    · simp [stands, Pc.aware] at before
    · exact .inr (.inl before)
    · exact absurd empty before.ne'
  | clear _ _ aware => exact .inl (by simpa using aware)

theorem Stir.notices (stir : Stir w i w') {t : Fin n} (before : w.Notices t) : w'.Notices t := by
  refine ⟨stir.running before.1, ?_⟩
  by_cases here : t = i
  · subst here
    exact stir.returns before.1 before.2
  · obtain ⟨fd, cells⟩ := stir.fills here
    rw [Watch.Returns, stir.pc_of_ne here]
    apply before.2.imp_right
    rintro (pending | ⟨filled, stays⟩)
    · exact .inl (pending.trans_le fd)
    · exact .inr ⟨filled.trans_le cells, stays⟩

/-- How far `cmd_shutdown` has got on each thread that executes it. -/
structure Announced (w : Watch n) : Prop where
  told : ∀ j t, (w.pc j).Told t →
    (w.alarm t).running = false ∧ bitset64Get (w.alarm j).softNotify t = true
  done : ∀ j t, (w.pc j).Done t → w.Notices t

/-- A thread that goes on in `cmd_shutdown` has told one more shard at most. -/
theorem Announced.told_self (announced : Announced w) (stir : Stir w i w') {t : Fin n}
    (told : (w'.pc i).Told t) :
    (w'.alarm t).running = false ∧ bitset64Get (w'.alarm i).softNotify t = true := by
  have before (told : (w.pc i).Told t) (same : (w'.alarm i).softNotify = (w.alarm i).softNotify) :
      (w'.alarm t).running = false ∧ bitset64Get (w'.alarm i).softNotify t = true := by
    obtain ⟨cleared, is_set⟩ := announced.told i t told
    exact ⟨stir.running cleared, same ▸ is_set⟩
  cases stir with
  | free _ free | woke _ _ free | publish _ free | clear _ free =>
    exact absurd (by simpa using told) (free.not_told t)
  | enter _ enters => rcases enters with rfl | rfl | ⟨c, args, k, rfl⟩ <;> simp [Pc.Told] at told
  | dequeue | claim | presleep | sleep | resume | awake | drain => simp [Pc.Told] at told
  | @pass m k stands =>
    cases k with
    | loop => simp [Pc.Told] at told
    | shutdown => exact before (by simp [stands, Pc.Told]) rfl
  | @wake m k stands | @signal m k stands =>
    cases k with
    | loop => simp [Pc.Told] at told
    | shutdown =>
      exact before (by simp [stands, Pc.Told]) (Watch.set_field Alarm.softNotify (by rfl))
  | stopped stands past =>
    refine before ?_ rfl
    rw [stands]
    exact t.isLt.trans_le past
  | @stop m c args k w' stands is =>
    subst is
    rw [Watch.goto_alarm, Watch.set_alarm_self]
    by_cases here : t = m
    · -- the shard whose turn it is
      subst here
      refine ⟨(Watch.set_field Alarm.running (by rfl)).trans ?_, bitset64Get_set_self _ _⟩
      rw [Watch.set_alarm_self]
    · -- those before it were told in earlier turns
      have earlier : (w.pc i).Told t := by
        have other : t.val ≠ m.val := fun same => here (Fin.ext same)
        simp only [Watch.goto_pc_self, Pc.Told] at told
        simp only [stands, Pc.Told]
        omega
      obtain ⟨cleared, is_set⟩ := announced.told i t earlier
      refine ⟨?_, bitset64Get_set ?_ _⟩
      · refine (Watch.set_field Alarm.running (by rfl)).trans ?_
        rw [Watch.set_alarm_of_ne _ _ here, cleared]
      · exact (congrArg (bitset64Get · t) (Watch.set_field Alarm.softNotify (by rfl))).trans is_set

/-- The shards that it has signalled or passed over are going to notice. -/
theorem Announced.done_self (announced : Announced w) (stir : Stir w i w') (heard : w.Heard i)
    {t : Fin n} (done : (w'.pc i).Done t) : w'.Notices t := by
  cases stir with
  | free _ free | woke _ _ free | publish _ free | clear _ free =>
    exact absurd (by simpa using done) (free.not_done t)
  | enter _ enters => rcases enters with rfl | rfl | ⟨c, args, k, rfl⟩ <;> simp [Pc.Done] at done
  | dequeue | claim | presleep | sleep | resume | awake | drain | stop | stopped =>
    simp [Pc.Done] at done
  | @pass m k stands not_both =>
    cases k with
    | loop => simp [Pc.Done] at done
    | shutdown c args k =>
      apply (Stir.pass stands not_both).notices
      by_cases here : t = m
      · subst here
        -- it is passed over because it does not sleep
        obtain ⟨cleared, is_set⟩ := announced.told i t (by simp [stands, Pc.Told])
        have awake : (w.alarm t).sleeping = false := by simpa [is_set] using not_both
        exact ⟨cleared, heard t (by simp [stands, Pc.passing]) t rfl awake⟩
      · have other : t.val ≠ m.val := fun same => here (Fin.ext same)
        simp only [Watch.goto_pc_self, Pc.Done] at done
        refine announced.done i t ?_
        simp only [stands, Pc.Done]
        omega
  | @wake m k stands flagged =>
    cases k with
    | loop => simp [Pc.Done] at done
    | shutdown c args k =>
      apply (Stir.wake stands flagged).notices
      refine announced.done i t ?_
      simpa [stands, Pc.Done] using done
  | @signal m k stands =>
    cases k with
    | loop => simp [Pc.Done] at done
    | shutdown c args k =>
      by_cases here : t = m
      · subst here
        -- its counter is not zero from here on
        obtain ⟨cleared, -⟩ := announced.told i t (by simp [stands, Pc.Told])
        exact ⟨(Stir.signal stands).running cleared, .inr (.inl (by simp))⟩
      · apply (Stir.signal stands).notices
        have other : t.val ≠ m.val := fun same => here (Fin.ext same)
        simp only [Watch.goto_pc_self, Pc.Done] at done
        refine announced.done i t ?_
        simp only [stands, Pc.Done]
        omega

theorem Announced.stir (announced : Announced w) (stir : Stir w i w') (heard : w.Heard i) :
    Announced w' := by
  constructor
  · intro j t told
    by_cases here : j = i
    · subst here
      exact announced.told_self stir told
    · rw [stir.pc_of_ne here] at told
      obtain ⟨cleared, is_set⟩ := announced.told j t told
      rw [stir.softNotify_of_ne here]
      exact ⟨stir.running cleared, is_set⟩
  · intro j t done
    by_cases here : j = i
    · subst here
      exact announced.done_self stir heard done
    · rw [stir.pc_of_ne here] at done
      exact stir.notices (announced.done j t done)

end Steps

/-! ### Runs -/

theorem announced_init (n : ℕ) : Announced (State.init n).watch := by
  constructor <;> intro j t is <;> exact is.elim

/-- In a run in which `cmd_shutdown` passes over no shard that is on its way to `epoll_wait`
unseen, no shard with `running` cleared waits without a timeout and with nothing in its
`eventfd` once `cmd_shutdown` has finished. -/
theorem shutdown_noticed [NeZero n] {cfg : Config} {s s' s'' : State n} {trace trace' seen : List Event}
    {i : Fin n} {a : Action} {m : ℕ} {c : ConnId} {args : CmdArgs} {k : Serving}
    (run : (server cfg).Run (fun s a => s.watch.Heard a.1) (State.init n) s trace)
    (stands : (s.shard i).pc = .wakeup m (.shutdown c args k)) (finished : n ≤ m)
    (taken : step cfg s i a = some (s', seen))
    (run' : (server cfg).Reaches s' s'' trace') (t : Fin n) :
    (s''.shard t).running = false ∧ ¬ ((s''.shard t).pc = .blocked ∧ (s''.shard t).wakeupFd = 0) := by
  have announced : Announced s.watch :=
    run.invariant (fun s _ => Announced s.watch) (announced_init n)
      fun _ _ _ _ _ _ announced heard taken => announced.stir (stir_of_step taken) heard
  -- behind the loop every shard is done
  have done : (s.watch.pc i).Done t := by
    rw [show s.watch.pc i = _ from stands]
    exact t.isLt.trans_le finished
  have noticed := (stir_of_step taken).notices (announced.done i t done)
  obtain ⟨cleared, returns⟩ : s''.watch.Notices t :=
    run'.invariant (fun s _ => s.watch.Notices t) noticed
      fun _ _ _ _ _ _ noticed _ taken => (stir_of_step taken).notices noticed
  refine ⟨cleared, fun ⟨waits, empty⟩ => ?_⟩
  have waits : s''.watch.pc t = .blocked := waits
  rcases returns with returns | pending | ⟨-, stays⟩
  · simp [waits, Pc.aware] at returns
  · exact absurd empty pending.ne'
  · simp [waits, Pc.isWaiting] at stays

/-- Shard 0 executes `SHUTDOWN` while shard 1 has got to where `before` leaves it. -/
def shutdownAfter (before : List (Fin 2 × Action)) : List (Fin 2 × Action) :=
  before ++ goToSleep shard0 0 ++ acceptClient shard0 65536 ++ goToSleep shard0 1 ++
    readFrom shard0 0 (asciiBytes "SHUTDOWN" ++ crlf) ++ [serveNext shard0]

/-- Shard 1 sleeps and is woken up. -/
theorem shutdown_noticed_sleeping : ∃ s s' trace seen,
    (server config).Run (fun s a => s.watch.Heard a.1) (State.init 2) s trace ∧
    (s.shard shard1).pc = .blocked ∧ step config s shard0 .go = some (s', seen) ∧
    ∀ s'' trace' t, (server config).Reaches s' s'' trace' →
      (s''.shard t).running = false ∧
        ¬ ((s''.shard t).pc = .blocked ∧ (s''.shard t).wakeupFd = 0) := by
  have done : ∃ r ∈ ((server config).restrict fun s a => s.watch.Heard a.1).exec (State.init 2)
      (shutdownAfter (goToSleep shard1 0) ++ List.replicate 6 (shard0, .go)),
      (r.1.shard shard0).pc.passing = some 2 ∧ (r.1.shard shard1).pc.isWaiting = true ∧
        (step config r.1 shard0 .go).isSome = true := by decide +kernel
  obtain ⟨⟨s, trace⟩, taken, passing, waits, some⟩ := done
  obtain ⟨c, args, k, stands⟩ := Pc.eq_of_passing passing
  obtain ⟨⟨s', seen⟩, finishes⟩ := Option.isSome_iff_exists.mp some
  have run := Machine.run_of_restrict (Machine.reaches_of_exec _ taken)
  exact ⟨s, s', trace, seen, run, Pc.eq_of_isWaiting waits, finishes,
    fun s'' trace' t run' => shutdown_noticed run stands le_rfl finishes run' t⟩

/-- Shard 1 wakes up once and tests `running` again. -/
def testRunning : List (Fin 2 × Action) :=
  goToSleep shard1 0 ++ [(shard1, .wait none), (shard1, .go), (shard1, .go)]

/-- Shard 1 has just tested `running`, and goes to sleep for good. -/
theorem shutdown_missed : ¬ ∀ s s' s'' trace trace' seen i a m c args k t,
    (server config).Reaches (State.init 2) s trace →
    (s.shard i).pc = .wakeup m (.shutdown c args k) → 2 ≤ m → step config s i a = some (s', seen) →
    (server config).Reaches s' s'' trace' →
    ¬ ((s''.shard t).running = false ∧ (s''.shard t).pc = .blocked ∧ (s''.shard t).wakeupFd = 0) := by
  intro claimed
  have done : ∃ r ∈ (server config).exec (State.init 2)
      (shutdownAfter testRunning ++ List.replicate 5 (shard0, .go)),
      (r.1.shard shard0).pc.passing = some 2 ∧ ∃ next ∈ step config r.1 shard0 .go,
        ∃ last ∈ (server config).exec next.1 (List.replicate 8 (shard1, .go)),
          (last.1.shard shard1).running = false ∧ (last.1.shard shard1).pc.isWaiting = true ∧
            (last.1.shard shard1).wakeupFd = 0 := by decide +kernel
  obtain ⟨⟨s, trace⟩, taken, passing, ⟨s', seen⟩, finishes, ⟨s'', trace'⟩, taken', cleared, waits,
    empty⟩ := done
  obtain ⟨c, args, k, stands⟩ := Pc.eq_of_passing passing
  apply claimed s s' s'' trace trace' seen shard0 .go 2 c args k shard1 _ stands le_rfl finishes
  · exact Machine.reaches_of_exec _ taken'
  · exact ⟨cleared, Pc.eq_of_isWaiting waits, empty⟩
  · exact Machine.reaches_of_exec _ taken

end GhettoRedis.Server
