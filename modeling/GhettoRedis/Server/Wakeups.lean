import GhettoRedis.Server.Alarm

/-!
# No message is stranded

A shard that waits without a timeout while there is something in its queue has a wakeup in
its `eventfd`, or somebody is about to give it one.
-/
namespace GhettoRedis.Server

open Lib Protocol Commands

variable {n : ℕ}

/-- The thread has gone past shard `t` in `reactor_wakeup_pending`. -/
def Pc.Past (t : Fin n) : Pc n → Prop
  | .wakeup m _ => t.val < m
  | .signal m _ => t.val ≤ m.val
  | _ => False

namespace Watch

variable (w : Watch n) (j t : Fin n)

/-- There is something in the `eventfd` of shard `t`, or will be in the next step of some shard. -/
def Signalled : Prop := 0 < (w.alarm t).wakeupFd ∨ ∃ j k, w.pc j = .signal t k

/-- Shard `j` is going to look whether shard `t` sleeps. -/
def Notifying : Prop :=
  (∃ k, w.pc j = .publish t k) ∨
    bitset64Get (w.alarm j).softNotify t = true ∧ ¬ (w.pc j).Past t

variable {w j t}

/-- An update of the alarm of one shard keeps what it does not change. -/
theorem set_field {β : Type} (f : Alarm → β) {alarm : Alarm} (same : f alarm = f (w.alarm j)) :
    f ((w.set j alarm).alarm t) = f (w.alarm t) := by
  by_cases here : t = j
  · subst here
    rw [set_alarm_self, same]
  · rw [set_alarm_of_ne w alarm here]

end Watch

section Free

variable {pc : Pc n} (free : pc.Free) (t : Fin n)

include free

theorem Pc.Free.not_past : ¬ pc.Past t := by
  cases pc <;> first | exact free.elim | exact id

theorem Pc.Free.not_signal (k : Waking) : pc ≠ .signal t k := by
  rintro rfl
  exact free

theorem Pc.Free.not_publish (k : Sending) : pc ≠ .publish t k := by
  rintro rfl
  exact free

end Free

section Steps

variable {w w' : Watch n} {i : Fin n}

theorem Stir.pc_of_ne (stir : Stir w i w') {j : Fin n} (other : j ≠ i) : w'.pc j = w.pc j := by
  cases stir with
  | stop _ is => simp [is, Watch.goto_pc_of_ne _ _ other]
  | _ => simp [Watch.goto_pc_of_ne _ _ other]

/-- An `eventfd` that a shard was about to write to is written to, and only its own shard
resets it. -/
theorem Stir.signalled (stir : Stir w i w') {t : Fin n} (before : w.Signalled t)
    (waits : ∀ events, w.pc t ≠ .events events) : w'.Signalled t := by
  have stays (same : (w'.alarm t).wakeupFd = (w.alarm t).wakeupFd)
      (not_signal : ∀ k, w.pc i ≠ .signal t k) : w'.Signalled t := by
    rcases before with filled | ⟨j, k, stands⟩
    · exact .inl (same ▸ filled)
    · refine .inr ⟨j, k, ?_⟩
      have other : j ≠ i := fun is => not_signal k (is ▸ stands)
      rw [stir.pc_of_ne other, stands]
  cases stir with
  | free free | enter free => exact stays rfl (free.not_signal t)
  -- what does not touch the counter
  | dequeue stands | wake stands | woke stands | claim stands | publish stands =>
    apply stays
    · exact Watch.set_field Alarm.wakeupFd (by rfl)
    · simp [stands]
  | pass stands | stopped stands | sleep stands | resume stands | awake stands =>
    apply stays rfl
    simp [stands]
  | presleep stands =>
    apply stays
    · exact Watch.set_field Alarm.wakeupFd (by rfl)
    · simp [stands]
  | clear stands =>
    apply stays
    · exact Watch.set_field Alarm.wakeupFd (by rfl)
    · rcases stands with stands | ⟨events, stands⟩ <;> simp [stands]
  | stop stands is =>
    subst is
    apply stays
    · exact (Watch.set_field Alarm.wakeupFd (by rfl)).trans (Watch.set_field Alarm.wakeupFd (by rfl))
    · simp [stands]
  | @signal j k stands =>
    -- the signal is the write to the counter
    by_cases here : t = j
    · subst here
      exact .inl (by simp)
    · apply stays
      · simp [Watch.set_alarm_of_ne _ _ here]
      · rw [stands]
        rintro k' is
        cases is
        exact here rfl
  | @drain events events' stands =>
    -- only a thread that handles events resets its counter
    have other : t ≠ i := by
      rintro rfl
      exact waits events stands
    apply stays
    · simp [Watch.set_alarm_of_ne _ _ other]
    · simp [stands]

/-- A sleeping shard goes on sleeping, as far as `sleeping` says, until somebody is about to
signal it. -/
theorem Stir.sleeping (stir : Stir w i w') {t : Fin n} (other : t ≠ i)
    (before : (w.alarm t).sleeping = true) : (w'.alarm t).sleeping = true ∨ w'.Signalled t := by
  cases stir with
  | free | enter | pass | stopped | sleep | resume | awake => exact .inl before
  | dequeue | woke | publish | drain | signal | claim =>
    exact .inl ((Watch.set_field Alarm.sleeping (by rfl)).trans before)
  | presleep | clear => exact .inl (by simp [Watch.set_alarm_of_ne _ _ other, before])
  | stop _ is =>
    subst is
    refine .inl (Eq.trans ?_ before)
    exact (Watch.set_field Alarm.sleeping (by rfl)).trans (Watch.set_field Alarm.sleeping (by rfl))
  | @wake j k =>
    by_cases here : t = j
    · subst here
      exact .inr (.inr ⟨i, k, by simp⟩)
    · exact .inl (by simp [Watch.set_alarm_of_ne _ _ here, before])

/-- Only its own shard changes the bits of `soft_notify`. -/
theorem Stir.softNotify_of_ne (stir : Stir w i w') {j : Fin n} (other : j ≠ i) :
    (w'.alarm j).softNotify = (w.alarm j).softNotify := by
  cases stir with
  | free | enter | pass | stopped | sleep | resume | awake => rfl
  | dequeue | woke | publish | presleep | clear | drain => simp [Watch.set_alarm_of_ne _ _ other]
  | wake | signal | claim => exact Watch.set_field Alarm.softNotify (by rfl)
  | stop _ is =>
    rw [Watch.goto_alarm, Watch.set_alarm_of_ne _ _ other, is]
    exact Watch.set_field Alarm.softNotify (by rfl)

/-- Who was going to look at a shard that waits does so, and finds that it sleeps or is
signalled by somebody else. -/
theorem Stir.notifying (stir : Stir w i w') {j t : Fin n} (before : w.Notifying j t)
    (flagged : (w.alarm t).sleeping = true ∨ w.Signalled t) (waits : w.pc t = .blocked) :
    w'.Signalled t ∨ w'.Notifying j t := by
  by_cases here : j = i
  · subst here
    have signalled (before : w.Signalled t) : w'.Signalled t := stir.signalled before (by simp [waits])
    have kept (stands : ∀ k, w.pc j ≠ .publish t k)
        (same : (w'.alarm j).softNotify = (w.alarm j).softNotify)
        (not_past : ¬ (w.pc j).Past t → ¬ (w'.pc j).Past t) : w'.Notifying j t := by
      -- the bit stays set, and the loop has not come to `t`
      rcases before with ⟨k, publishes⟩ | ⟨is_set, ahead⟩
      · exact absurd publishes (stands k)
      · exact .inr ⟨same ▸ is_set, not_past ahead⟩
    cases stir with
    | free free free' =>
      refine .inr (kept (free.not_publish t) rfl fun _ => ?_)
      rw [Watch.goto_pc_self]
      exact free'.not_past t
    | enter free enters =>
      refine .inr (kept (free.not_publish t) rfl fun _ => ?_)
      rw [Watch.goto_pc_self]
      rcases enters with rfl | rfl | ⟨c, args, k, rfl⟩ <;> simp [Pc.Past]
    | dequeue stands | claim stands | presleep stands | drain stands =>
      exact .inr (kept (by simp [stands]) (Watch.set_field Alarm.softNotify (by rfl)) (by simp [Pc.Past]))
    | stopped stands | sleep stands | resume stands | awake stands =>
      exact .inr (kept (by simp [stands]) rfl (by simp [Pc.Past]))
    | clear stands free =>
      refine .inr (kept ?_ (Watch.set_field Alarm.softNotify (by rfl)) fun _ => ?_)
      · rcases stands with stands | ⟨events, stands⟩ <;> simp [stands]
      · rw [Watch.goto_pc_self]
        exact free.not_past t
    | stop stands is =>
      subst is
      rcases before with ⟨k, publishes⟩ | ⟨is_set, -⟩
      · simp [stands] at publishes
      · refine .inr (.inr ⟨?_, by simp [Pc.Past]⟩)
        rw [Watch.goto_alarm, Watch.set_alarm_self]
        apply bitset64Get_set
        exact (congrArg (bitset64Get · t) (Watch.set_field Alarm.softNotify (by rfl))).trans is_set
    | @publish t' k pc stands free =>
      refine .inr (.inr ⟨?_, by rw [Watch.goto_pc_self]; exact free.not_past t⟩)
      rw [Watch.goto_alarm, Watch.set_alarm_self]
      -- the bit is set behind the publication
      rcases before with ⟨k', publishes⟩ | ⟨is_set, -⟩
      · obtain ⟨rfl, -⟩ : t' = t ∧ k = k' := by simpa [stands] using publishes
        exact bitset64Get_set_self _ _
      · exact bitset64Get_set is_set _
    | @pass m k stands not_both =>
      rcases before with ⟨k', publishes⟩ | ⟨is_set, ahead⟩
      · simp [stands] at publishes
      · by_cases turn : t = m
        · -- it is passed over because it is not flagged, and so somebody signals it
          subst turn
          have awake : (w.alarm t).sleeping = false := by simpa [is_set] using not_both
          exact .inl (signalled (flagged.resolve_left (by simp [awake])))
        · refine .inr (.inr ⟨is_set, ?_⟩)
          have other : t.val ≠ m.val := fun same => turn (Fin.ext same)
          simp only [stands, Pc.Past] at ahead
          simp only [Watch.goto_pc_self, Pc.Past]
          omega
    | @wake m k stands =>
      by_cases turn : t = m
      · -- the exchange comes before the write
        subst turn
        exact .inl (.inr ⟨j, k, by simp⟩)
      · refine .inr (kept (by simp [stands]) (Watch.set_field Alarm.softNotify (by rfl)) fun ahead => ?_)
        have other : t.val ≠ m.val := fun same => turn (Fin.ext same)
        simp only [stands, Pc.Past] at ahead
        simp only [Watch.goto_pc_self, Pc.Past]
        omega
    | @signal m k stands =>
      refine .inr (kept (by simp [stands]) (Watch.set_field Alarm.softNotify (by rfl)) fun ahead => ?_)
      simp only [stands, Pc.Past] at ahead
      simp only [Watch.goto_pc_self, Pc.Past]
      omega
    | @woke m k pc stands past =>
      -- the loop does not end before it came to `t`
      rcases before with ⟨k', publishes⟩ | ⟨-, ahead⟩
      · simp [stands] at publishes
      · simp only [stands, Pc.Past] at ahead
        exact absurd (t.isLt.trans_le past) ahead
  · refine .inr ?_
    -- another thread does not change the bits of `j`
    rcases before with ⟨k, publishes⟩ | before
    · exact .inl ⟨k, by rw [stir.pc_of_ne here, publishes]⟩
    · refine .inr ?_
      rwa [stir.pc_of_ne here, stir.softNotify_of_ne here]

/-- What is claimed in the queue of another shard is still to be published. -/
theorem Stir.cells (stir : Stir w i w') {t : Fin n} (other : t ≠ i) :
    (w'.alarm t).cells = (w.alarm t).cells ∨ w'.Notifying i t := by
  cases stir with
  | free | enter | pass | stopped | sleep | resume | awake => exact .inl rfl
  | dequeue | woke | publish | presleep | clear | drain =>
    exact .inl (by simp [Watch.set_alarm_of_ne _ _ other])
  | wake | signal => exact .inl (Watch.set_field Alarm.cells (by rfl))
  | stop _ is =>
    subst is
    exact .inl ((Watch.set_field Alarm.cells (by rfl)).trans (Watch.set_field Alarm.cells (by rfl)))
  | @claim t' msg k =>
    by_cases here : t = t'
    · subst here
      exact .inr (.inl ⟨k, by simp⟩)
    · exact .inl (by simp [Watch.set_alarm_of_ne _ _ here])

/-- Where a shard comes from that is going to wait. -/
theorem Stir.waits (stir : Stir w i w') (waits : w'.pc i = .recheck ∨ w'.pc i = .blocked) :
    w'.pc i = .recheck ∧ (w'.alarm i).sleeping = true ∨
      w.pc i = .recheck ∧ w'.pc i = .blocked ∧ w'.alarm = w.alarm ∧ (w.alarm i).cells = 0 := by
  have not_free {pc : Pc n} (free : pc.Free) : ¬ (pc = .recheck ∨ pc = .blocked) := by
    rintro (rfl | rfl) <;> exact free
  cases stir with
  | free _ free | woke _ _ free | publish _ free | clear _ free =>
    exact absurd (by simpa using waits) (not_free free)
  | enter _ enters => rcases enters with rfl | rfl | ⟨c, args, k, rfl⟩ <;> simp at waits
  | dequeue | pass | wake | signal | claim | stop | stopped | resume | awake | drain => simp at waits
  | presleep => exact .inl (by simp)
  | sleep stands empty => exact .inr ⟨stands, by simp, rfl, empty⟩

/-- The handshake: a shard that is going to wait is flagged as sleeping or signalled, and a
shard that waits with something in its queue is signalled or going to be looked at. -/
structure Roused (w : Watch n) : Prop where
  flagged : ∀ t, w.pc t = .recheck ∨ w.pc t = .blocked →
    (w.alarm t).sleeping = true ∨ w.Signalled t
  notified : ∀ t, w.pc t = .blocked → 0 < (w.alarm t).cells → w.Signalled t ∨ ∃ j, w.Notifying j t

theorem Roused.stir (roused : Roused w) (stir : Stir w i w') : Roused w' := by
  constructor
  · intro t waits
    by_cases here : t = i
    · subst here
      -- how it came to wait
      rcases stir.waits waits with ⟨-, sleeping⟩ | ⟨stands, -, same, -⟩
      · exact .inl sleeping
      · rw [same]
        apply (roused.flagged t (.inl stands)).imp_right
        exact fun signalled => stir.signalled signalled (by simp [stands])
    · rw [stir.pc_of_ne here] at waits
      rcases roused.flagged t waits with sleeping | signalled
      · exact stir.sleeping here sleeping
      · refine .inr (stir.signalled signalled ?_)
        rcases waits with waits | waits <;> simp [waits]
  · intro t waits filled
    by_cases here : t = i
    · subst here
      rcases stir.waits (.inr waits) with ⟨recheck, -⟩ | ⟨-, -, same, empty⟩
      · simp [waits] at recheck
      · simp [same, empty] at filled
    · rw [stir.pc_of_ne here] at waits
      -- who put the message there
      rcases stir.cells here with same | claimed
      · rw [same] at filled
        rcases roused.notified t waits filled with signalled | ⟨j, notifying⟩
        · exact .inl (stir.signalled signalled (by simp [waits]))
        · apply (stir.notifying notifying (roused.flagged t (.inr waits)) waits).imp_right
          exact fun notifying => ⟨j, notifying⟩
      · exact .inr ⟨i, claimed⟩

end Steps

theorem roused_init (n : ℕ) : Roused (State.init n).watch := by
  constructor <;> simp [State.init, State.watch]

theorem roused_of_run [NeZero n] {cfg : Config} {s : State n} {trace : List Event}
    (run : (server cfg).Reaches (State.init n) s trace) : Roused s.watch :=
  run.invariant (fun s _ => Roused s.watch) (roused_init n)
    fun _ _ _ _ _ _ roused _ taken => roused.stir (stir_of_step taken)

/-- Nobody is going to wake up shard `t`: no bit for it is set, and nobody is about to write
to its `eventfd` or sends it a message. -/
def State.Abandoned (s : State n) (t : Fin n) : Prop :=
  ∀ j, bitset64Get (s.shard j).softNotify t = false ∧ (∀ k, (s.shard j).pc ≠ .signal t k) ∧
    (∀ msg k, (s.shard j).pc ≠ .send t msg k) ∧ ∀ k, (s.shard j).pc ≠ .publish t k

/-- No shard waits without a timeout while there is a message in its queue, nothing in its
`eventfd`, and nobody to wake it up. -/
theorem no_lost_wakeup [NeZero n] {cfg : Config} {s : State n} {trace : List Event}
    (run : (server cfg).Reaches (State.init n) s trace) (t : Fin n) :
    ¬ ((s.shard t).pc = .blocked ∧ (s.shard t).wakeupFd = 0 ∧ (s.shard t).cbQueue ≠ [] ∧
      s.Abandoned t) := by
  rintro ⟨waits, empty, filled, abandoned⟩
  rcases (roused_of_run run).notified t waits (List.length_pos_iff.mpr filled) with
    (pending | ⟨j, k, signals⟩) | ⟨j, ⟨k, publishes⟩ | ⟨is_set, -⟩⟩
  · exact absurd empty pending.ne'
  · exact (abandoned j).2.1 k signals
  · exact (abandoned j).2.2.2 k publishes
  · exact absurd is_set (Bool.eq_false_iff.mp (abandoned j).1)

/-- Shard 1 waits, and shard 0 has claimed a cell of its queue. -/
def claimWhileBlocked : List (Fin 2 × Action) :=
  goToSleep shard1 0 ++ goToSleep shard0 0 ++ acceptClient shard0 65536 ++ goToSleep shard0 1 ++
    readFrom shard0 0 (asciiBytes "GET a" ++ crlf) ++ [serveNext shard0, (shard0, .go)]

theorem no_lost_wakeup_claim : ∃ s trace, (server config).Reaches (State.init 2) s trace ∧
    ((s.shard shard1).pc = .blocked ∧ (s.shard shard1).wakeupFd = 0 ∧ (s.shard shard1).cbQueue ≠ []) ∧
      ¬ s.Abandoned shard1 := by
  have done : ∃ r ∈ (server config).exec (State.init 2) claimWhileBlocked,
      (r.1.shard shard1).pc.isWaiting = true ∧ (r.1.shard shard1).wakeupFd = 0 ∧
        (r.1.shard shard1).cbQueue.length = 1 := by decide +kernel
  obtain ⟨⟨s, trace⟩, taken, waits, empty, filled⟩ := done
  have run := Machine.reaches_of_exec _ taken
  have waits := Pc.eq_of_isWaiting waits
  have filled : (s.shard shard1).cbQueue ≠ [] := List.ne_nil_of_length_pos (by simp [filled])
  exact ⟨s, trace, run, ⟨waits, empty, filled⟩, fun abandoned =>
    no_lost_wakeup run shard1 ⟨waits, empty, filled, abandoned⟩⟩

end GhettoRedis.Server
