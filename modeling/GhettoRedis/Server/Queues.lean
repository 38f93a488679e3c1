import Mathlib.Data.Fintype.Basic
import Mathlib.Data.Finset.Card
import GhettoRedis.Server.Routes

/-!
# Full queues

A shard that sends to a full queue waits inside `mpmcq_enqueue`, where it polls none of its
own messages and has not yet woken the shard it waits for.
-/
namespace GhettoRedis.Server

open Lib Protocol Commands

variable {n : ℕ}

/-- The shard in whose queue the thread is about to put a message. -/
def Pc.target : Pc n → Option (Fin n)
  | send t _ _ => some t
  | _ => none

def Pc.isBlocked : Pc n → Bool
  | blocked => true
  | _ => false

/-- Shard `i` is retrying inside `mpmcq_enqueue` on the full queue of another shard. -/
def Retries (cfg : Config) (s : State n) (i : Fin n) : Prop :=
  ∃ t, t ≠ i ∧ (s.shard i).pc.target = some t ∧ cfg.queueSize ≤ (s.shard t).cbQueue.length

/-- Some shard retries, and each one does, or waits in `epoll_wait` with nothing to wake it. -/
def Deadlocked (cfg : Config) (s : State n) : Prop :=
  (∃ i, Retries cfg s i) ∧
    ∀ i, Retries cfg s i ∨ (s.shard i).pc.isBlocked = true ∧ (s.shard i).wakeupFd = 0

instance (cfg : Config) (s : State n) (i : Fin n) : Decidable (Retries cfg s i) :=
  inferInstanceAs (Decidable (∃ _, _ ∧ _ ∧ _))

instance (cfg : Config) (s : State n) : Decidable (Deadlocked cfg s) :=
  inferInstanceAs (Decidable ((∃ _, _) ∧ ∀ _, _ ∨ _ ∧ _))

/-! ### The condition -/

namespace View

/-- The shards that are about to put a message in the queue of shard `t`. -/
def senders (v : View n) (t : Fin n) : Finset (Fin n) :=
  Finset.univ.filter fun j => (v.pc j).target = some t

/-- The shard to which the next step of shard `i` turns with a new message. -/
def writesTo [NeZero n] (cfg : Config) (v : View n) (i : Fin n) (a : Action) : Option (Fin n) :=
  match v.pc i, a with
  | .callback _ (.request ctx _ _ _), _ => some ctx.src
  | .serve c _, .serve outside env =>
    (v.conn c).bind fun conn =>
      match conn.head (conn.mem outside) with
      | .request args =>
        if args.argc = 0 then none
        else
          match handleCommand n cfg.numDbs env (argumentValues (conn.mem outside) args) with
          | .keyed _ key => if home key = i then none else some (home key)
          | _ => none
      | _ => none
  | _, _ => none

end View

/-- There is room for the message, and for those that other shards are about to send there. -/
def Roomy [NeZero n] (cfg : Config) (v : View n) (i : Fin n) (a : Action) : Prop :=
  ∀ t ∈ v.writesTo cfg i a, (v.queue t).length + (v.senders t).card < cfg.queueSize

instance [NeZero n] (cfg : Config) (v : View n) (i : Fin n) (a : Action) :
    Decidable (Roomy cfg v i a) := inferInstanceAs (Decidable (∀ _ ∈ _, _))

/-! ### The invariant -/

/-- Every message that is about to be sent has its place. -/
def Room (cfg : Config) (v : View n) : Prop :=
  ∀ t, (v.queue t).length + (v.senders t).card ≤ cfg.queueSize

theorem target_eq_none {pc : Pc n} (sending : pc.sending = []) : pc.target = none := by
  cases pc with
  | send => simp [Pc.sending] at sending
  | _ => rfl

section Moves

variable [NeZero n] {cfg : Config} {v v' : View n} {i : Fin n} {a : Action} {seen : List Event}

theorem Move.senders_of_none (move : Move cfg v i a v' seen) (sending : (v'.pc i).sending = [])
    (t : Fin n) : v'.senders t ⊆ v.senders t := by
  intro j mem
  simp only [View.senders, Finset.mem_filter, Finset.mem_univ, true_and] at mem ⊢
  by_cases same : j = i
  · subst same
    simp [target_eq_none sending] at mem
  · rwa [move.pc_of_ne same] at mem

/-- A step that sends nothing. -/
theorem Room.fewer (room : Room cfg v) (move : Move cfg v i a v' seen)
    (sending : (v'.pc i).sending = []) (queue : ∀ t, (v'.queue t).length ≤ (v.queue t).length) :
    Room cfg v' := by
  intro t
  have := room t
  have := queue t
  have := Finset.card_le_card (move.senders_of_none sending t)
  omega

/-- A step that writes a message to shard `t`. -/
theorem Room.write (room : Room cfg v) (move : Move cfg v i a v' seen) {t : Fin n}
    (goes : (v'.pc i).target = some t) (queue : v'.queue = v.queue)
    (roomy : (v.queue t).length + (v.senders t).card < cfg.queueSize) : Room cfg v' := by
  intro u
  rw [queue]
  by_cases there : u = t
  · subst there
    have : v'.senders u ⊆ insert i (v.senders u) := by
      intro j mem
      simp only [View.senders, Finset.mem_insert, Finset.mem_filter, Finset.mem_univ, true_and]
        at mem ⊢
      by_cases same : j = i
      · exact .inl same
      · exact .inr (by rwa [move.pc_of_ne same] at mem)
    have := Finset.card_le_card this
    have := Finset.card_insert_le i (v.senders u)
    omega
  · have : v'.senders u ⊆ v.senders u := by
      intro j mem
      simp only [View.senders, Finset.mem_filter, Finset.mem_univ, true_and] at mem ⊢
      by_cases same : j = i
      · subst same
        rw [goes] at mem
        exact absurd (Option.some.inj mem).symm there
      · rwa [move.pc_of_ne same] at mem
    have := Finset.card_le_card this
    have := room u
    omega

/-- The message takes its place. -/
theorem Room.claim (room : Room cfg v) (move : Move cfg v i a v' seen) {t : Fin n} {m : Message n}
    (stands : (v.pc i).target = some t) (sending : (v'.pc i).sending = [])
    (queue : v'.queue = Function.update v.queue t (v.queue t ++ [m])) : Room cfg v' := by
  intro u
  have fewer := move.senders_of_none sending u
  by_cases there : u = t
  · subst there
    have sender : i ∈ v.senders u := by simp [View.senders, stands]
    have gone : i ∉ v'.senders u := by simp [View.senders, target_eq_none sending]
    have := Finset.card_lt_card (Finset.ssubset_iff_of_subset fewer |>.mpr ⟨i, sender, gone⟩)
    have := room u
    rw [queue, Function.update_self, List.length_append, List.length_singleton]
    omega
  · have := Finset.card_le_card fewer
    have := room u
    rw [queue, Function.update_of_ne there]
    omega

theorem Room.move (room : Room cfg v) (roomy : Roomy cfg v i a) (move : Move cfg v i a v' seen) :
    Room cfg v' := by
  have whole := move
  cases move with
  | quiet _ calm => exact room.fewer whole (by simpa using calm.2.1) fun _ => le_rfl
  | flush | shutdown | deliver | accept =>
    exact room.fewer whole (by simp [Pc.sending]) fun _ => le_rfl
  | dequeue stands queue =>
    refine room.fewer whole (by simp [Pc.sending]) fun t => ?_
    by_cases same : t = i
    · subst same
      simp [View.setQueue, queue]
    · simp [View.setQueue, Function.update_of_ne same]
  | skip | answer | flushall | inline | dispatched =>
    exact room.fewer whole (finishRequest_calm _ _ _ _ _ _ _).2.1 fun _ => le_rfl
  | refuse => exact room.fewer whole (by simpa using (Serving.calm_pc _ _).2.1) fun _ => le_rfl
  | @dispatch c conn args k values env op key hands elsewhere =>
    refine room.write whole (by rw [View.goto_pc_self]; rfl) rfl (roomy (home key) ?_)
    obtain ⟨outside, rfl, head, rfl⟩ := hands.head
    have argc : ¬ args.argc = 0#64 := hands.argc
    simp [View.writesTo, hands.at_serve, hands.live, head, argc, ← hands.outcome, elsewhere]
  | claim stands =>
    exact room.claim whole (by rw [stands]; rfl) (by simp [Pc.sending]) rfl
  | @execute _ ctx _ _ _ _ _ _ stands =>
    refine room.write whole (by rw [View.goto_pc_self]; rfl) rfl (roomy ctx.src ?_)
    simp [View.writesTo, stands]
  | receive _ _ _ _ goes =>
    refine room.fewer whole ?_ fun _ => le_rfl
    rcases goes with rfl | ⟨rfl, -⟩ <;> simp [Pc.sending]
  | close _ place =>
    refine room.fewer whole ?_ fun _ => le_rfl
    rcases place with ⟨_, _, _, rfl, _⟩ | ⟨_, rfl, _⟩ <;> simp [Pc.sending]

end Moves

theorem room_init (n : ℕ) (cfg : Config) : Room cfg (State.init n).view := by
  intro t
  simp [State.init, State.view, View.senders, Pc.target]

theorem Room.not_deadlocked {cfg : Config} {s : State n} (room : Room cfg s.view) :
    ¬ Deadlocked cfg s := by
  rintro ⟨⟨i, t, -, sends, full⟩, -⟩
  have sender : i ∈ s.view.senders t := Finset.mem_filter.mpr ⟨Finset.mem_univ i, sends⟩
  have := Finset.card_pos.mpr ⟨i, sender⟩
  have := room t
  have : (s.view.queue t).length = (s.shard t).cbQueue.length := by simp [State.view]
  omega

/-- In a run in which every message finds room, the shards never block each other. -/
theorem no_deadlock [NeZero n] {cfg : Config} {s : State n} {trace : List Event}
    (run : (server cfg).Run (fun s a => Roomy cfg s.view a.1 a.2) (State.init n) s trace) :
    ¬ Deadlocked cfg s := by
  obtain ⟨-, room⟩ := run_invariant (fun v _ => Room cfg v) (routed_init n) (room_init n cfg)
    (fun _ room roomy move => room.move roomy move) run
  exact room.not_deadlocked

/-- The smallest queues. -/
def small : Config := ⟨2, 16⟩

/-- The other shard is asleep, and `count` requests for a key of that shard arrive. -/
def burst (count : ℕ) : List (Fin 2 × Action) :=
  goToSleep shard1 0 ++ goToSleep shard0 0 ++ acceptClient shard0 65536 ++ goToSleep shard0 1 ++
    readFrom shard0 0 ((List.replicate 3 (asciiBytes "GET a" ++ crlf)).flatten) ++
    (List.replicate count [serveNext shard0, (shard0, .go), (shard0, .go)]).flatten

theorem no_deadlock_burst : ∃ s trace,
    (server small).Run (fun s a => Roomy small s.view a.1 a.2) (State.init 2) s trace ∧
      (s.shard 1).cbQueue.length = 2 ∧ ¬ Deadlocked small s := by
  obtain ⟨s, trace, run, full⟩ := Machine.exists_run_of_exec (server small)
    (fun s a => Roomy small s.view a.1 a.2) (State.init 2) (burst 2)
    (fun r => (r.1.shard 1).cbQueue.length) (b := 2) (by decide +kernel)
  exact ⟨s, trace, run, full, no_deadlock run⟩

/-- With three such requests, the owner retries on the full queue of a shard that nobody
wakes. -/
theorem burst_deadlocks : ¬ ∀ s trace, (server small).Reaches (State.init 2) s trace →
    ¬ Deadlocked small s := by
  intro claimed
  obtain ⟨s, trace, run, deadlocked⟩ := Machine.exists_of_exec (server small) (State.init 2)
    (burst 2 ++ [serveNext shard0]) (fun r => decide (Deadlocked small r.1)) (b := true)
    (by decide +kernel)
  exact claimed s trace run (by simpa using deadlocked)

end GhettoRedis.Server
