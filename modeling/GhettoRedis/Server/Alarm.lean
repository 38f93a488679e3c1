import GhettoRedis.Server.Step

/-!
# Sleeping and waking

What the shards tell each other apart from their messages: the flags, the bits of
`soft_notify`, the counters of the `eventfd`s and how many cells of each queue are claimed.
`Stir` lists what one step does to them, and only `stir_of_step` looks into the steps.
-/
namespace GhettoRedis.Server

open Lib Protocol Commands

variable {n : ℕ}

/-! ### The bits of `soft_notify` -/

theorem bitMask_ne_zero (bit : ℕ) : bitMask bit ≠ 0#64 := by
  have all : ∀ b < 32, ((1 : BitVec 32) <<< b).signExtend 64 ≠ 0#64 := by decide
  exact all _ (Nat.mod_lt _ (by decide))

theorem bitset64Get_iff {bitset : Size} {bit : ℕ} :
    bitset64Get bitset bit = true ↔ bitset &&& bitMask bit ≠ 0#64 := by
  simp [bitset64Get]

theorem bitset64Get_set_self (bitset : Size) (bit : ℕ) :
    bitset64Get (bitset64Set bitset bit) bit = true := by
  rw [bitset64Get_iff, bitset64Set, BitVec.and_or_distrib_right, ne_eq, BitVec.or_eq_zero_iff,
    BitVec.and_self]
  exact fun zero => bitMask_ne_zero bit zero.2

/-- A bit that is set stays set. -/
theorem bitset64Get_set {bitset : Size} {bit : ℕ} (is_set : bitset64Get bitset bit = true) (bit' : ℕ) :
    bitset64Get (bitset64Set bitset bit') bit = true := by
  rw [bitset64Get_iff] at is_set ⊢
  rw [bitset64Set, BitVec.and_or_distrib_right, ne_eq, BitVec.or_eq_zero_iff]
  exact fun zero => is_set zero.1

/-! ### Alarms -/

structure Alarm where
  running : Bool
  sleeping : Bool
  softNotify : Size
  wakeupFd : ℕ
  cells : ℕ

def Shard.alarm (shard : Shard n) : Alarm where
  running := shard.running
  sleeping := shard.sleeping
  softNotify := shard.softNotify
  wakeupFd := shard.wakeupFd
  cells := shard.cbQueue.length

structure Watch (n : ℕ) where
  pc : Fin n → Pc n
  alarm : Fin n → Alarm

def State.watch (s : State n) : Watch n where
  pc i := (s.shard i).pc
  alarm i := (s.shard i).alarm

namespace Watch

variable (w : Watch n)

def goto (i : Fin n) (pc : Pc n) : Watch n := { w with pc := Function.update w.pc i pc }

def set (t : Fin n) (alarm : Alarm) : Watch n :=
  { w with alarm := Function.update w.alarm t alarm }

variable (i t : Fin n) (pc : Pc n) (alarm : Alarm)

@[simp] theorem goto_pc_self : (w.goto i pc).pc i = pc := Function.update_self ..
@[simp] theorem goto_alarm : (w.goto i pc).alarm = w.alarm := rfl
@[simp] theorem set_pc : (w.set t alarm).pc = w.pc := rfl
@[simp] theorem set_alarm_self : (w.set t alarm).alarm t = alarm := Function.update_self ..

variable {i t}

theorem goto_pc_of_ne {j : Fin n} (other : j ≠ i) : (w.goto i pc).pc j = w.pc j :=
  Function.update_of_ne other ..

theorem set_alarm_of_ne {j : Fin n} (other : j ≠ t) : (w.set t alarm).alarm j = w.alarm j :=
  Function.update_of_ne other ..

end Watch

section State

variable (s : State n) (i : Fin n)

theorem watch_setShard (shard : Shard n) :
    (s.setShard i shard).watch = (s.watch.set i shard.alarm).goto i shard.pc := by
  simp only [State.watch, State.setShard, Watch.set, Watch.goto, Watch.mk.injEq]
  constructor <;> funext j <;> by_cases same : j = i <;> simp [Function.update, same]

/-- What is done to the alarm of a shard does not move its thread. -/
theorem watch_set (shard : Shard n) (pc : shard.pc = (s.shard i).pc) :
    (s.setShard i shard).watch = s.watch.set i shard.alarm := by
  rw [watch_setShard, pc]
  simp [Watch.goto, Watch.set, State.watch]

@[simp] theorem watch_setRunning (running : Bool) :
    (s.setShard i { s.shard i with running := running }).watch =
      s.watch.set i { s.watch.alarm i with running := running } := watch_set s i _ rfl

@[simp] theorem watch_setSleeping (sleeping : Bool) :
    (s.setSleeping i sleeping).watch = s.watch.set i { s.watch.alarm i with sleeping := sleeping } :=
  watch_set s i _ rfl

@[simp] theorem watch_setNotify (softNotify : Size) :
    (s.setShard i { s.shard i with softNotify := softNotify }).watch =
      s.watch.set i { s.watch.alarm i with softNotify := softNotify } := watch_set s i _ rfl

@[simp] theorem watch_notify (target : ℕ) :
    (s.notify i target).watch = s.watch.set i { s.watch.alarm i with
      softNotify := bitset64Set (s.watch.alarm i).softNotify target } := watch_set s i _ rfl

@[simp] theorem watch_setFd (wakeupFd : ℕ) :
    (s.setShard i { s.shard i with wakeupFd := wakeupFd }).watch =
      s.watch.set i { s.watch.alarm i with wakeupFd := wakeupFd } := watch_set s i _ rfl

@[simp] theorem watch_setQueue (slots : List (Slot n)) :
    (s.setShard i { s.shard i with cbQueue := slots }).watch =
      s.watch.set i { s.watch.alarm i with cells := slots.length } := watch_set s i _ rfl

@[simp] theorem watch_goto (pc : Pc n) : (s.goto i pc).watch = s.watch.goto i pc := by
  rw [State.goto, watch_setShard]
  simp [Watch.set, Watch.goto, State.watch, Shard.alarm]

theorem watch_goto_of {pc : Pc n} {t : State n} (same : t.watch = s.watch) :
    (t.goto i pc).watch = s.watch.goto i pc := by
  rw [watch_goto, same]

@[simp] theorem watch_setConn (c : ConnId) (conn : Option Conn) : (s.setConn c conn).watch = s.watch :=
  rfl

@[simp] theorem watch_setDb (db : Size) (map : Hashmap) : (s.setDb i db map).watch = s.watch := by
  rw [State.setDb, watch_setShard]
  simp [Watch.set, Watch.goto, State.watch, Shard.alarm]

@[simp] theorem watch_flushAll (numDbs : Size) : (s.flushAll numDbs).watch = s.watch := rfl

@[simp] theorem watch_finishRequest (c : ConnId) (conn : Conn) (args : CmdArgs) (answered : Bool)
    (k : Serving) :
    (s.finishRequest i c conn args answered k).watch =
      s.watch.goto i (if (conn.finish args answered).1 then .serve c k else k.pc c) := by
  simp [State.finishRequest]

end State

/-! ### Where a thread stands -/

/-- Places that are neither inside of `reactor_wakeup_pending`, `cmd_shutdown` or a publication
nor between the two accesses to `sleeping`. -/
def Pc.Free : Pc n → Prop
  | .wakeup _ _ | .signal _ _ | .publish _ _ | .stop _ _ _ _ | .presleep | .recheck | .resume
  | .blocked | .woken _ => False
  | _ => True

def Serving.aware : Serving → Bool
  | .epollin _ _ => true
  | .onCb count => decide (0 < count)

def Waking.aware : Waking → Bool
  | .loop => false
  | .shutdown _ _ k => k.aware

def Sending.aware : Sending → Bool
  | .request _ _ k => k.aware
  | .response _ count => decide (0 < count)

/-- From here the thread tests `running` again before it waits without a timeout. -/
def Pc.aware : Pc n → Bool
  | .flush _ | .presleep | .recheck | .blocked => false
  | .wakeup _ k | .signal _ k => k.aware
  | .poll count | .callback count _ | .onCb count _ => decide (0 < count)
  | .serve _ k | .stop _ _ _ k => k.aware
  | .send _ _ k | .publish _ k => k.aware
  | _ => true

def Pc.isWaiting : Pc n → Bool
  | .blocked => true
  | _ => false

theorem Pc.eq_of_isWaiting {pc : Pc n} (waits : pc.isWaiting = true) : pc = .blocked := by
  unfold Pc.isWaiting at waits
  split at waits
  · rfl
  · cases waits

theorem free_after (more : Bool) (c : ConnId) (k : Serving) :
    (if more then Pc.serve c k else k.pc c : Pc n).Free := by
  cases more <;> cases k <;> trivial

theorem aware_after {k : Serving} (aware : k.aware) (more : Bool) (c : ConnId) :
    (if more then Pc.serve c k else k.pc c : Pc n).aware := by
  cases more <;> cases k <;> exact aware

/-! ### Steps -/

/-- What one step of shard `i` does to the alarms. -/
inductive Stir (w : Watch n) (i : Fin n) : Watch n → Prop
  /-- Only the thread moves on; when `running` is cleared, it does not forget it again. -/
  | free {pc : Pc n} : (w.pc i).Free → pc.Free →
      ((w.alarm i).running = false → (w.pc i).aware → pc.aware) → Stir w i (w.goto i pc)
  | enter {pc : Pc n} : (w.pc i).Free →
      (pc = .wakeup 0 .loop ∨ pc = .presleep ∨ ∃ c args k, pc = .stop 0 c args k) →
      ((w.pc i).aware → pc.aware) → Stir w i (w.goto i pc)
  | dequeue {count cells : ℕ} {msg : Message n} : w.pc i = .poll count →
      Stir w i ((w.set i { w.alarm i with cells := cells }).goto i (.callback (count + 1) msg))
  | pass {j : Fin n} {k : Waking} : w.pc i = .wakeup j k →
      ¬ (bitset64Get (w.alarm i).softNotify j = true ∧ (w.alarm j).sleeping = true) →
      Stir w i (w.goto i (.wakeup (j + 1) k))
  | wake {j : Fin n} {k : Waking} : w.pc i = .wakeup j k → (w.alarm j).sleeping = true →
      Stir w i ((w.set j { w.alarm j with sleeping := false }).goto i (.signal j k))
  | signal {j : Fin n} {k : Waking} : w.pc i = .signal j k →
      Stir w i ((w.set j { w.alarm j with wakeupFd := (w.alarm j).wakeupFd + 1 }).goto i
        (.wakeup (j + 1) k))
  /-- `reactor_wakeup_pending` is done. -/
  | woke {j : ℕ} {k : Waking} {pc : Pc n} : w.pc i = .wakeup j k → n ≤ j → pc.Free →
      ((w.pc i).aware → pc.aware) →
      Stir w i ((w.set i { w.alarm i with softNotify := 0 }).goto i pc)
  | claim {t : Fin n} {msg : Message n} {k : Sending} : w.pc i = .send t msg k →
      Stir w i ((w.set t { w.alarm t with cells := (w.alarm t).cells + 1 }).goto i (.publish t k))
  | publish {t : Fin n} {k : Sending} {pc : Pc n} : w.pc i = .publish t k → pc.Free →
      ((w.pc i).aware → pc.aware) →
      Stir w i ((w.set i { w.alarm i with
        softNotify := bitset64Set (w.alarm i).softNotify t }).goto i pc)
  | stop {j : Fin n} {c : ConnId} {args : CmdArgs} {k : Serving} {w' : Watch n} :
      w.pc i = .stop j c args k → w' = w.set j { w.alarm j with running := false } →
      Stir w i ((w'.set i { w'.alarm i with
        softNotify := bitset64Set (w'.alarm i).softNotify j }).goto i (.stop (j + 1) c args k))
  | stopped {j : ℕ} {c : ConnId} {args : CmdArgs} {k : Serving} : w.pc i = .stop j c args k →
      n ≤ j → Stir w i (w.goto i (.wakeup 0 (.shutdown c args k)))
  | presleep : w.pc i = .presleep →
      Stir w i ((w.set i { w.alarm i with sleeping := true }).goto i .recheck)
  | sleep : w.pc i = .recheck → (w.alarm i).cells = 0 → Stir w i (w.goto i .blocked)
  | resume : w.pc i = .recheck → Stir w i (w.goto i .resume)
  | awake {events : Option (List EpollEvent)} : w.pc i = .blocked →
      Stir w i (w.goto i (.woken events))
  | clear {pc : Pc n} : (w.pc i = .resume ∨ ∃ events, w.pc i = .woken events) → pc.Free → pc.aware →
      Stir w i ((w.set i { w.alarm i with sleeping := false }).goto i pc)
  | drain {events events' : List EpollEvent} : w.pc i = .events events →
      Stir w i ((w.set i { w.alarm i with wakeupFd := 0 }).goto i (.events events'))

section Steps

variable {cfg : Config} {s s' : State n} {i : Fin n} {a : Action} {seen : List Event}

theorem free_step {pc pc' : Pc n} (stands : (s.shard i).pc = pc)
    (goes : s'.watch = s.watch.goto i pc') (free : pc.Free) (free' : pc'.Free)
    (aware : (s.shard i).running = false → pc.aware → pc'.aware) : Stir s.watch i s'.watch := by
  have stands : s.watch.pc i = pc := stands
  subst stands
  rw [goes]
  exact .free free free' aware

theorem enter_step {pc pc' : Pc n} (stands : (s.shard i).pc = pc)
    (goes : s'.watch = s.watch.goto i pc') (free : pc.Free)
    (enters : pc' = .wakeup 0 .loop ∨ pc' = .presleep ∨ ∃ c args k, pc' = .stop 0 c args k)
    (aware : pc.aware → pc'.aware) : Stir s.watch i s'.watch := by
  have stands : s.watch.pc i = pc := stands
  subst stands
  rw [goes]
  exact .enter free enters aware

theorem finish_step {t : State n} {pc : Pc n} {c : ConnId} {conn : Conn} {args : CmdArgs}
    {answered : Bool} {k : Serving} (stands : (s.shard i).pc = pc)
    (same : t.watch = s.watch) (free : pc.Free) (aware : pc.aware → k.aware) :
    Stir s.watch i (t.finishRequest i c conn args answered k).watch := by
  apply free_step stands _ free (free_after (conn.finish args answered).1 c k)
  · exact fun _ before => aware_after (aware before) _ c
  · rw [watch_finishRequest, same]

theorem stir_of_stepServe [NeZero n] {c : ConnId} {conn : Conn} {k : Serving} {outside : Mem} {env : Env}
    (stands : (s.shard i).pc = .serve c k)
    (taken : stepServe cfg s i c conn k outside env = (s', seen)) : Stir s.watch i s'.watch := by
  -- out of the loop over `on_data_available`
  have leaves {t : State n} (same : t.watch = s.watch) : Stir s.watch i (t.goto i (k.pc c)).watch := by
    apply free_step stands (watch_goto_of s i same) trivial (free_after false c k)
    exact fun _ aware => aware_after aware false c
  have finishes {t : State n} {conn : Conn} {args : CmdArgs} {answered : Bool}
      (same : t.watch = s.watch) : Stir s.watch i (t.finishRequest i c conn args answered k).watch :=
    finish_step stands same trivial id
  unfold stepServe at taken
  split at taken
  next =>
    cases taken
    exact leaves rfl
  next =>
    cases taken
    exact leaves rfl
  next args head =>
    split at taken
    next =>
      cases taken
      exact finishes rfl
    next =>
      simp only [Prod.mk.injEq] at taken
      obtain ⟨rfl, -⟩ := taken
      cases handleCommand n cfg.numDbs env (argumentValues (conn.mem outside) args) with
      | reply | quit | select | flushall => exact finishes rfl
      | shutdown =>
        exact enter_step stands (watch_goto ..) trivial (.inr (.inr ⟨c, args, k, rfl⟩)) id
      | keyed op key =>
        simp only [stepHandle, stepKeyed]
        split
        next => exact finishes (watch_setDb ..)
        next => exact free_step stands (watch_goto ..) trivial trivial fun _ => id

theorem stir_of_stepCallback {count : ℕ} {conn : Conn} {msg : Message n}
    (stands : (s.shard i).pc = .callback count msg)
    (taken : stepCallback s i count conn msg = (s', seen)) : Stir s.watch i s'.watch := by
  cases msg with
  | request =>
    cases taken
    exact free_step stands (watch_goto_of s i (watch_setDb ..)) trivial trivial fun _ => id
  | response =>
    cases taken
    exact free_step stands (watch_goto_of s i (watch_setConn ..)) trivial trivial fun _ => id

theorem stir_of_stepRead {c : ConnId} {conn : Conn} {hup : Bool} {events : List EpollEvent}
    {r : ReadResult} (stands : (s.shard i).pc = .read c hup events)
    (taken : stepRead s i c conn hup events r = some s') : Stir s.watch i s'.watch := by
  cases r with
  | data bytes =>
    simp only [stepRead] at taken
    split at taken
    next =>
      cases taken
      apply free_step stands (watch_goto_of s i (watch_setConn ..)) trivial
      · split <;> trivial
      · intro _ _
        split <;> trivial
    next => cases taken
  | again | error | eof =>
    cases taken
    exact free_step stands (watch_goto_of s i (watch_setConn ..)) trivial trivial fun _ => id

theorem stir_of_stepEvent {e : EpollEvent} {events : List EpollEvent}
    (stands : (s.shard i).pc = .events (e :: events))
    (taken : stepEvent s i events e a = some (s', seen)) : Stir s.watch i s'.watch := by
  unfold stepEvent at taken
  split at taken
  next addr =>
    split at taken
    next =>
      cases taken
      exact free_step stands (watch_goto ..) trivial trivial fun _ => id
    next => cases taken
  next =>
    split at taken
    next => cases taken
    next =>
      cases taken
      rw [watch_goto, watch_setFd]
      exact .drain stands
  next c epollin hup =>
    cases taken
    cases epollin <;> exact free_step stands (watch_goto ..) trivial trivial fun _ => id
  next => cases taken

theorem stir_of_wokeUp {j : ℕ} {k : Waking} (stands : (s.shard i).pc = .wakeup j k) (past : n ≤ j)
    (taken : (s.setShard i { s.shard i with softNotify := 0 }).wokeUp i k = some s') :
    Stir s.watch i s'.watch := by
  have stands : s.watch.pc i = .wakeup j k := stands
  cases k with
  | loop =>
    cases taken
    rw [watch_goto, watch_setNotify]
    apply Stir.woke stands past
    · trivial
    · rw [stands]
      exact (Bool.noConfusion ·)
  | shutdown c args k =>
    simp only [State.wokeUp] at taken
    split at taken
    next => cases taken
    next conn live =>
      cases taken
      rw [watch_finishRequest, watch_setNotify]
      apply Stir.woke stands past (free_after _ c k)
      rw [stands]
      exact fun aware => aware_after aware _ c

theorem stir_of_publish {target : Fin n} {k : Sending}
    (stands : (s.shard i).pc = .publish target k)
    (taken : (s.setShard target { s.shard target with
      cbQueue := (s.shard target).cbQueue.map fun slot =>
        if slot.writer = some i then { slot with writer := none } else slot }).sent i target k =
      some s') : Stir s.watch i s'.watch := by
  have stands : s.watch.pc i = .publish target k := stands
  -- a cell stays claimed when it is published
  have same : (s.setShard target { s.shard target with
      cbQueue := (s.shard target).cbQueue.map fun slot =>
        if slot.writer = some i then { slot with writer := none } else slot }).watch = s.watch := by
    rw [watch_setQueue, List.length_map]
    exact congrArg (Watch.mk _) (Function.update_eq_self target _)
  cases k with
  | response c count =>
    cases taken
    rw [watch_goto, watch_notify, same]
    apply Stir.publish stands
    · trivial
    · rw [stands]
      exact id
  | request c args k =>
    simp only [State.sent] at taken
    split at taken
    next => cases taken
    next conn live =>
      cases taken
      rw [watch_finishRequest, watch_notify, same]
      apply Stir.publish stands (free_after _ c k)
      rw [stands]
      exact fun aware => aware_after aware _ c

theorem stir_of_step [NeZero n] (taken : step cfg s i a = some (s', seen)) : Stir s.watch i s'.watch := by
  unfold step at taken
  split at taken
  next stands =>
    cases taken
    apply free_step stands (watch_goto ..) trivial
    · split <;> trivial
    · intro stopped _
      rw [stopped]
      trivial
  next c stands =>
    split at taken
    next =>
      split at taken
      next =>
        cases taken
        exact free_step stands (watch_goto ..) trivial trivial fun _ => id
      next =>
        split at taken
        next =>
          cases taken
          exact free_step stands (watch_goto ..) trivial trivial fun _ => id
        next =>
          cases taken
          exact free_step stands (watch_goto_of s i (watch_setConn ..)) trivial trivial fun _ => id
    next =>
      cases taken
      exact enter_step stands (watch_goto ..) trivial (.inl rfl) id
  next j k stands =>
    have stands' : s.watch.pc i = .wakeup j k := stands
    split at taken
    next below =>
      split at taken
      next both =>
        cases taken
        rw [watch_goto, watch_setSleeping]
        exact @Stir.wake n s.watch i ⟨j, below⟩ k stands' both.2
      next not_both =>
        cases taken
        rw [watch_goto]
        exact @Stir.pass n s.watch i ⟨j, below⟩ k stands' not_both
    next past =>
      obtain ⟨s'', woke, rfl, rfl⟩ : ∃ s'', _ = some s'' ∧ s'' = s' ∧ [] = seen := by
        simpa using taken
      exact stir_of_wokeUp stands (Nat.le_of_not_lt past) woke
  next j k stands =>
    cases taken
    rw [watch_goto, watch_setFd]
    exact .signal stands
  next count stands =>
    split at taken
    next msg rest queue =>
      cases taken
      rw [watch_goto, watch_setQueue]
      exact .dequeue stands
    next =>
      cases taken
      split
      next => exact free_step stands (watch_goto ..) trivial trivial fun _ _ => rfl
      next none =>
        exact enter_step stands (watch_goto ..) trivial (.inr (.inl rfl)) fun aware =>
          absurd (of_decide_eq_true aware) none
  next count msg stands =>
    obtain ⟨conn, -, called⟩ := Option.map_eq_some_iff.mp taken
    exact stir_of_stepCallback stands called
  next count c stands =>
    obtain ⟨conn, -, goes⟩ := Option.map_eq_some_iff.mp taken
    cases goes
    split <;> exact free_step stands (watch_goto ..) trivial trivial fun _ => id
  next c k outside env stands =>
    obtain ⟨conn, -, served⟩ := Option.map_eq_some_iff.mp taken
    exact stir_of_stepServe stands served
  next target msg k stands =>
    split at taken
    next =>
      cases taken
      rw [watch_goto, watch_setQueue, List.length_append]
      exact .claim stands
    next => cases taken
  next target k stands =>
    obtain ⟨s'', published, rfl, rfl⟩ : ∃ s'', _ = some s'' ∧ s'' = s' ∧ [] = seen := by
      simpa using taken
    exact stir_of_publish stands published
  next j c args k stands =>
    split at taken
    next below =>
      cases taken
      rw [watch_goto, watch_notify, watch_setRunning]
      exact @Stir.stop n s.watch i ⟨j, below⟩ c args k _ stands rfl
    next past =>
      cases taken
      rw [watch_goto]
      exact .stopped stands (Nat.le_of_not_lt past)
  next stands =>
    cases taken
    rw [watch_goto, watch_setSleeping]
    exact .presleep stands
  next stands =>
    cases taken
    rw [watch_goto]
    split
    next empty => exact .sleep stands (by simp [State.watch, Shard.alarm, empty])
    next => exact .resume stands
  next stands =>
    cases taken
    rw [watch_goto, watch_setSleeping]
    exact .clear (.inl stands) trivial rfl
  next stands =>
    cases taken
    exact free_step stands (watch_goto ..) trivial trivial fun _ => id
  next events stands =>
    split at taken
    next =>
      cases taken
      exact free_step stands (watch_goto ..) trivial trivial fun _ => id
    next => cases taken
  next stands =>
    cases taken
    rw [watch_goto]
    exact .awake stands
  next events stands =>
    split at taken
    next =>
      cases taken
      rw [watch_goto]
      exact .awake stands
    next => cases taken
  next stands =>
    cases taken
    rw [watch_goto, watch_setSleeping]
    exact .clear (.inr ⟨none, stands⟩) trivial rfl
  next events stands =>
    cases taken
    rw [watch_goto, watch_setSleeping]
    exact .clear (.inr ⟨some events, stands⟩) trivial rfl
  next stands =>
    cases taken
    exact free_step stands (watch_goto ..) trivial trivial fun _ => id
  next e events stands => exact stir_of_stepEvent stands taken
  next c hup events r stands =>
    split at taken
    next => cases taken
    next conn live =>
      split at taken
      next =>
        obtain ⟨s'', received, rfl, rfl⟩ : ∃ s'', _ = some s'' ∧ s'' = s' ∧ [] = seen := by
          simpa using taken
        exact stir_of_stepRead stands received
      next => cases taken
  next c hup events stands =>
    obtain ⟨conn, -, goes⟩ := Option.map_eq_some_iff.mp taken
    split at goes
    next =>
      cases goes
      exact free_step stands (watch_goto_of s i (watch_setConn ..)) trivial trivial fun _ => id
    next =>
      cases goes
      exact free_step stands (watch_goto ..) trivial trivial fun _ => id
  next c stands =>
    split at taken
    next =>
      split at taken
      next =>
        cases taken
        exact free_step stands (watch_goto_of s i (watch_setConn ..)) trivial trivial fun _ => id
      next =>
        cases taken
        exact free_step stands (watch_goto ..) trivial trivial fun _ => id
    next =>
      cases taken
      exact free_step stands (watch_goto ..) trivial trivial fun _ => id
  next => cases taken

end Steps

end GhettoRedis.Server
