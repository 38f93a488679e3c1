import GhettoRedis.Lib.ClaimQueue
import GhettoRedis.Server.SharedNothing
import GhettoRedis.Server.Wakeups

/-!
# The queues of the server as queues of claims

`cb_queue` stands in the model of the server as a list of cells, each of which is claimed in
one step and published in another. As seen from its shard and from the others it is the
queue of claims that the code of `mpmcq` implements.
-/
namespace GhettoRedis.Server

open Lib Protocol Commands

variable {n : ℕ}

/-- The queues, with what is not published yet. -/
def State.slots (s : State n) (j : Fin n) : List (Slot n) := (s.shard j).cbQueue

def Slot.publish (i : Fin n) (slot : Slot n) : Slot n :=
  if slot.writer = some i then { slot with writer := none } else slot

/-- The queues behind the next step of shard `i`. -/
def State.nextSlots (s : State n) (i : Fin n) : Fin n → List (Slot n) :=
  match (s.shard i).pc with
  | .send t msg _ => Function.update s.slots t (s.slots t ++ [⟨msg, some i⟩])
  | .publish t _ => Function.update s.slots t ((s.slots t).map (Slot.publish i))
  | .poll _ =>
    match s.slots i with
    | ⟨_, none⟩ :: rest => Function.update s.slots i rest
    | _ => s.slots
  | _ => s.slots

/-! ### What updates do to the queues -/

section Updates

variable (s : State n) (i : Fin n)

theorem slots_setShard (shard : Shard n) :
    (s.setShard i shard).slots = Function.update s.slots i shard.cbQueue := by
  funext j
  rw [Function.update_apply]
  simp only [State.slots, State.setShard]
  split <;> rfl

theorem slots_keep (shard : Shard n) (same : shard.cbQueue = (s.shard i).cbQueue) :
    (s.setShard i shard).slots = s.slots := by
  rw [slots_setShard, same]
  exact Function.update_eq_self i s.slots

@[simp] theorem slots_goto (pc : Pc n) : (s.goto i pc).slots = s.slots := slots_keep s i _ rfl

@[simp] theorem slots_setConn (c : ConnId) (conn : Option Conn) :
    (s.setConn c conn).slots = s.slots := rfl

@[simp] theorem slots_setDb (db : Size) (map : Hashmap) : (s.setDb i db map).slots = s.slots :=
  slots_keep s i _ rfl

@[simp] theorem slots_flushAll (numDbs : Size) : (s.flushAll numDbs).slots = s.slots := rfl

@[simp] theorem slots_notify (target : ℕ) : (s.notify i target).slots = s.slots :=
  slots_keep s i _ rfl

@[simp] theorem slots_setSleeping (sleeping : Bool) : (s.setSleeping i sleeping).slots = s.slots :=
  slots_keep s i _ rfl

@[simp] theorem slots_finishRequest (c : ConnId) (conn : Conn) (args : CmdArgs) (answered : Bool)
    (k : Serving) : (s.finishRequest i c conn args answered k).slots = s.slots := by
  simp [State.finishRequest]

end Updates

section Steps

variable [NeZero n] {cfg : Config} {s s' : State n} {i : Fin n} {a : Action} {seen : List Event}

theorem slots_stepHandle {c : ConnId} {conn : Conn} {args : CmdArgs} {k : Serving}
    (outcome : Outcome) : (stepHandle cfg s i c conn args k outcome).1.slots = s.slots := by
  cases outcome with
  | keyed op key =>
    simp only [stepHandle, stepKeyed]
    split <;> simp
  | _ => simp [stepHandle]

theorem slots_stepServe {c : ConnId} {conn : Conn} {k : Serving} {outside : Mem} {env : Env} :
    (stepServe cfg s i c conn k outside env).1.slots = s.slots := by
  unfold stepServe
  split
  next => simp
  next => simp
  next =>
    split
    next => simp
    next => exact slots_stepHandle _

omit [NeZero n] in
theorem slots_stepCallback {count : ℕ} {conn : Conn} {msg : Message n} :
    (stepCallback s i count conn msg).1.slots = s.slots := by
  cases msg <;> simp [stepCallback]

omit [NeZero n] in
theorem slots_stepRead {c : ConnId} {conn : Conn} {hup : Bool} {events : List EpollEvent}
    {r : ReadResult} (taken : stepRead s i c conn hup events r = some s') : s'.slots = s.slots := by
  cases r with
  | data bytes =>
    simp only [stepRead] at taken
    split at taken
    next => cases taken; simp
    next => cases taken
  | again | error | eof => cases taken; simp

omit [NeZero n] in
theorem slots_stepEvent {events : List EpollEvent} {e : EpollEvent}
    (taken : stepEvent s i events e a = some (s', seen)) : s'.slots = s.slots := by
  unfold stepEvent at taken
  split at taken
  next addr =>
    split at taken
    next => cases taken; rw [slots_goto]; rfl
    next => cases taken
  next =>
    split at taken
    next => cases taken
    next => cases taken; rw [slots_goto, slots_keep]; rfl
  next => cases taken; simp
  next => cases taken

omit [NeZero n] in
theorem slots_sent {target : Fin n} {k : Sending} (taken : s.sent i target k = some s') :
    s'.slots = s.slots := by
  cases k with
  | response => cases taken; simp
  | request c args k =>
    simp only [State.sent] at taken
    split at taken
    next => cases taken
    next => cases taken; simp

omit [NeZero n] in
theorem slots_wokeUp {k : Waking} (taken : s.wokeUp i k = some s') : s'.slots = s.slots := by
  cases k with
  | loop => cases taken; simp
  | shutdown c args k =>
    simp only [State.wokeUp] at taken
    split at taken
    next => cases taken
    next => cases taken; simp

/-- Only the two steps of an enqueue and the dequeue touch the queues. -/
theorem slots_of_step (taken : step cfg s i a = some (s', seen)) : s'.slots = s.nextSlots i := by
  have still (quiet : s.nextSlots i = s.slots) (same : s'.slots = s.slots) :
      s'.slots = s.nextSlots i := same.trans quiet.symm
  unfold step at taken
  split at taken
  next stands => cases taken; simp [State.nextSlots, stands]
  next stands =>
    apply still (by simp only [State.nextSlots, stands])
    split at taken
    next =>
      split at taken
      next => cases taken; simp
      next => split at taken <;> cases taken <;> simp
    next => cases taken; simp
  next stands =>
    apply still (by simp only [State.nextSlots, stands])
    split at taken
    next => split at taken <;> cases taken <;> simp
    next =>
      obtain ⟨next, woken, is⟩ := Option.map_eq_some_iff.mp taken
      cases is
      rw [slots_wokeUp woken, slots_keep]
      rfl
  next stands =>
    cases taken
    rw [slots_goto, slots_keep]
    · simp only [State.nextSlots, stands]
    · rfl
  next stands =>
    simp only [State.nextSlots, stands]
    split at taken
    next front =>
      cases taken
      rw [slots_goto, slots_setShard]
      simp only [State.slots, front]
    next other =>
      cases taken
      rw [slots_goto]
      split
      next front => exact absurd front (other _ _)
      next => rfl
  next count msg stands =>
    apply still (by simp only [State.nextSlots, stands])
    obtain ⟨conn, -, is⟩ := Option.map_eq_some_iff.mp taken
    have same : (stepCallback s i count conn msg).1.slots = s.slots := slots_stepCallback
    rwa [is] at same
  next stands =>
    apply still (by simp only [State.nextSlots, stands])
    obtain ⟨conn, -, is⟩ := Option.map_eq_some_iff.mp taken
    cases is
    simp
  next c k outside env stands =>
    apply still (by simp only [State.nextSlots, stands])
    obtain ⟨conn, -, is⟩ := Option.map_eq_some_iff.mp taken
    have same : (stepServe cfg s i c conn k outside env).1.slots = s.slots := slots_stepServe
    rwa [is] at same
  next stands =>
    split at taken
    next =>
      cases taken
      simp only [State.nextSlots, stands]
      rw [slots_goto, slots_setShard]
      rfl
    next => cases taken
  next stands =>
    obtain ⟨next, sent, is⟩ := Option.map_eq_some_iff.mp taken
    cases is
    simp only [State.nextSlots, stands]
    rw [slots_sent sent, slots_setShard]
    rfl
  next stands =>
    apply still (by simp only [State.nextSlots, stands])
    split at taken
    next =>
      cases taken
      rw [slots_goto, slots_notify, slots_keep]
      rfl
    next => cases taken; simp
  next stands => cases taken; simp [State.nextSlots, stands]
  next stands => cases taken; simp [State.nextSlots, stands]
  next stands => cases taken; simp [State.nextSlots, stands]
  next stands => cases taken; simp [State.nextSlots, stands]
  next stands => split at taken <;> cases taken; simp [State.nextSlots, stands]
  next stands => cases taken; simp [State.nextSlots, stands]
  next stands => split at taken <;> cases taken; simp [State.nextSlots, stands]
  next stands => cases taken; simp [State.nextSlots, stands]
  next stands => cases taken; simp [State.nextSlots, stands]
  next stands => cases taken; simp [State.nextSlots, stands]
  next stands =>
    exact still (by simp only [State.nextSlots, stands]) (slots_stepEvent taken)
  next stands =>
    apply still (by simp only [State.nextSlots, stands])
    split at taken
    next => cases taken
    next =>
      split at taken
      next =>
        obtain ⟨next, read, is⟩ := Option.map_eq_some_iff.mp taken
        cases is
        exact slots_stepRead read
      next => cases taken
  next stands =>
    apply still (by simp only [State.nextSlots, stands])
    obtain ⟨conn, -, is⟩ := Option.map_eq_some_iff.mp taken
    split at is <;> cases is <;> simp
  next stands =>
    apply still (by simp only [State.nextSlots, stands])
    split at taken
    next => split at taken <;> cases taken <;> simp
    next => cases taken; simp
  next => cases taken

theorem claims_of_send {t : Fin n} {msg : Message n} {k : Sending}
    (stands : (s.shard i).pc = .send t msg k) (taken : step cfg s i a = some (s', seen)) :
    (s.slots t).length < cfg.queueSize ∧ (s'.shard i).pc = .publish t k := by
  cases a with
  | go =>
    simp only [step, stands] at taken
    split at taken
    next room =>
      cases taken
      exact ⟨room, by rw [State.goto_shard_self]⟩
    next => cases taken
  | _ => simp [step, stands] at taken

omit [NeZero n] in
/-- A thread stands before the publication of a cell only when it has just claimed it. -/
theorem Stir.claimed {w w' : Watch n} {t : Fin n} {k : Sending} (stir : Stir w i w')
    (stands : w'.pc i = .publish t k) : ∃ msg, w.pc i = .send t msg k := by
  cases stir with
  | claim sends =>
    rw [Watch.goto_pc_self] at stands
    cases stands
    exact ⟨_, sends⟩
  | free _ free | woke _ _ free | publish _ free | clear _ free =>
    rw [Watch.goto_pc_self] at stands
    exact absurd stands (free.not_publish t k)
  | enter _ goes =>
    rw [Watch.goto_pc_self] at stands
    subst stands
    rcases goes with goes | goes | ⟨_, _, _, goes⟩ <;> cases goes
  | stop _ is => simp [is] at stands
  | _ => simp at stands

end Steps

/-! ### One queue -/

def Slot.claim (slot : Slot n) : Claim (Fin n) (Message n) := ⟨slot.msg, slot.writer⟩

/-- The queue of shard `j`; no dequeue of the server stops halfway. -/
def State.claimQueue (s : State n) (j : Fin n) : ClaimQueue (Fin n) (Message n) :=
  ⟨(s.slots j).map Slot.claim, fun _ => none⟩

/-- What a step means to the queue of shard `j`. -/
def queueEvents (j : Fin n) (s : State n) (a : Fin n × Action) :
    List (QueueEvent (Fin n) (Message n)) :=
  match (s.shard a.1).pc with
  | .send t msg _ => if t = j then [.claimed a.1 msg] else []
  | .publish t _ => if t = j then [.published a.1] else []
  | .poll _ =>
    if a.1 = j then
      match s.slots j with
      | ⟨msg, none⟩ :: _ => [.taken j, .returned j (some msg)]
      | _ => [.missed j, .returned j none]
    else []
  | _ => []

/-- The cells of the queue of shard `j` that are not published are those about to be. -/
def Writers (j : Fin n) (s : State n) : Prop :=
  ∀ i, (∃ slot ∈ s.slots j, slot.writer = some i) ↔ ∃ k, (s.shard i).pc = .publish j k

section Steps

variable [NeZero n] {cfg : Config} {s s' : State n} {i j : Fin n} {a : Action} {seen : List Event}

omit [NeZero n] in
theorem claims_publish (slots : List (Slot n)) :
    (slots.map (Slot.publish i)).map Slot.claim = (slots.map Slot.claim).map (Claim.publish i) := by
  rw [List.map_map, List.map_map]
  refine List.map_congr_left fun slot _ => ?_
  by_cases own : slot.writer = some i <;>
    simp [Slot.publish, Claim.publish, Slot.claim, own]

omit [NeZero n] in
/-- A step of shard `i` that neither claims a cell of the queue of shard `j` nor publishes one. -/
theorem Writers.still (writers : Writers j s) (others : ∀ i' ≠ i, (s'.shard i').pc = (s.shard i').pc)
    (same : ∀ i', (∃ slot ∈ s'.slots j, slot.writer = some i') ↔
      ∃ slot ∈ s.slots j, slot.writer = some i')
    (before : ∀ k, (s.shard i).pc ≠ .publish j k)
    (after : ∀ k, (s'.shard i).pc ≠ .publish j k) : Writers j s' := by
  intro i'
  rw [same i', writers i']
  by_cases here : i' = i
  · subst here
    exact ⟨fun ⟨k, is⟩ => absurd is (before k), fun ⟨k, is⟩ => absurd is (after k)⟩
  · rw [others i' here]

omit [NeZero n] in
theorem Writers.claim (writers : Writers j s)
    (others : ∀ i' ≠ i, (s'.shard i').pc = (s.shard i').pc) {msg : Message n} {k : Sending}
    (queue : s'.slots j = s.slots j ++ [⟨msg, some i⟩]) (after : (s'.shard i).pc = .publish j k) :
    Writers j s' := by
  intro i'
  simp only [queue, List.mem_append, List.mem_singleton, or_and_right, exists_or, exists_eq_left,
    writers i', Option.some.injEq]
  by_cases here : i' = i
  · subst here
    exact ⟨fun _ => ⟨k, after⟩, fun _ => .inr rfl⟩
  · rw [others i' here]
    exact or_iff_left (Ne.symm here)

omit [NeZero n] in
theorem Writers.publish (writers : Writers j s)
    (others : ∀ i' ≠ i, (s'.shard i').pc = (s.shard i').pc)
    (queue : s'.slots j = (s.slots j).map (Slot.publish i))
    (after : ∀ k, (s'.shard i).pc ≠ .publish j k) : Writers j s' := by
  intro i'
  have published (slot : Slot n) :
      (slot.publish i).writer = some i' ↔ slot.writer = some i' ∧ i' ≠ i := by
    unfold Slot.publish
    split
    next own => simp [own, eq_comm]
    next other => exact ⟨fun is => ⟨is, fun same => other (same ▸ is)⟩, And.left⟩
  have mem : (∃ slot ∈ s'.slots j, slot.writer = some i') ↔
      (∃ slot ∈ s.slots j, slot.writer = some i') ∧ i' ≠ i := by
    simp only [queue, List.mem_map, exists_exists_and_eq_and, published]
    exact ⟨fun ⟨slot, mem, is, other⟩ => ⟨⟨slot, mem, is⟩, other⟩,
      fun ⟨⟨slot, mem, is⟩, other⟩ => ⟨slot, mem, is, other⟩⟩
  rw [mem, writers i']
  by_cases here : i' = i
  · subst here
    exact ⟨fun ⟨_, other⟩ => absurd rfl other, fun ⟨k, is⟩ => absurd is (after k)⟩
  · rw [others i' here]
    exact and_iff_left here

open ClaimQueue (Performs)

omit [NeZero n] in
theorem follows_taken {cap : ℕ} {msg : Message n} {rest : List (Slot n)}
    (front : s.slots j = ⟨msg, none⟩ :: rest) (slots : s'.slots j = rest) :
    Follows (Performs cap) (s.claimQueue j) [.taken j, .returned j (some msg)]
      (s'.claimQueue j) := by
  have taken : Performs cap (s.claimQueue j) (.taken j) _ :=
    .taken j (v := msg) (by rw [State.claimQueue, front]; rfl) rfl
  have done := (Follows.one taken).snoc (.returned j (ClaimQueue.settle_result ..))
  have last : ClaimQueue.settle { s.claimQueue j with claims := rest.map Slot.claim } j none =
      s'.claimQueue j := by
    rw [State.claimQueue, State.claimQueue, slots]
    exact ClaimQueue.settle_eq_self rfl
  rwa [ClaimQueue.settle_settle, last] at done

omit [NeZero n] in
theorem follows_missed {cap : ℕ} (unready : ∀ msg rest, s.slots j ≠ ⟨msg, none⟩ :: rest)
    (slots : s'.slots j = s.slots j) :
    Follows (Performs cap) (s.claimQueue j) [.missed j, .returned j none] (s'.claimQueue j) := by
  have notReady : ¬ (s.claimQueue j).Ready := by
    rintro ⟨c, rest, claims, writer⟩
    obtain ⟨slot, slots, front, rfl, -⟩ := List.map_eq_cons_iff.mp claims
    refine unready slot.msg slots ?_
    rw [front]
    cases slot
    cases writer
    rfl
  have missed : Performs cap (s.claimQueue j) (.missed j) _ := .missed j notReady rfl
  have done := (Follows.one missed).snoc (.returned j (ClaimQueue.settle_result ..))
  have last : (s.claimQueue j).settle j none = s'.claimQueue j := by
    rw [State.claimQueue, State.claimQueue, slots]
    exact ClaimQueue.settle_eq_self rfl
  rwa [ClaimQueue.settle_settle, last] at done

omit [NeZero n] in
theorem nextSlots_poll {count : ℕ} (stands : (s.shard i).pc = .poll count) :
    (∃ msg rest, s.slots i = ⟨msg, none⟩ :: rest ∧
      s.nextSlots i = Function.update s.slots i rest) ∨
    (∀ msg rest, s.slots i ≠ ⟨msg, none⟩ :: rest) ∧ s.nextSlots i = s.slots := by
  simp only [State.nextSlots, stands]
  split
  next front => exact .inl ⟨_, _, front, rfl⟩
  next unready => exact .inr ⟨unready, rfl⟩

theorem claims_of_step (writers : Writers j s) (taken : step cfg s i a = some (s', seen)) :
    Follows (Performs cfg.queueSize) (s.claimQueue j) (queueEvents j s (i, a)) (s'.claimQueue j) ∧
      Writers j s' := by
  have stir := stir_of_step taken
  have others (i' : Fin n) (other : i' ≠ i) : (s'.shard i').pc = (s.shard i').pc :=
    stir.pc_of_ne other
  have claimed {t : Fin n} {k : Sending} (after : (s'.shard i).pc = .publish t k) :
      ∃ msg, (s.shard i).pc = .send t msg k := stir.claimed after
  have slots := congrFun (slots_of_step taken) j
  -- only three places of the thread concern a queue, and each concerns one
  cases stands : (s.shard i).pc with
  | send t msg k =>
    obtain ⟨room, after⟩ := claims_of_send stands taken
    simp only [State.nextSlots, stands] at slots
    simp only [queueEvents, stands]
    split
    next here =>
      subst here
      rw [Function.update_self] at slots
      refine ⟨?_, writers.claim others slots after⟩
      rw [State.claimQueue, State.claimQueue, slots, List.map_append]
      -- the shard stands before the claim, so no cell waits for it
      refine .one (.claimed i msg (by simpa using room) fun c held writer => ?_)
      obtain ⟨slot, mem, rfl⟩ := List.mem_map.mp held
      obtain ⟨k', is⟩ := (writers i).mp ⟨slot, mem, writer⟩
      cases stands.symm.trans is
    next there =>
      rw [Function.update_of_ne (Ne.symm there)] at slots
      refine ⟨by rw [State.claimQueue, State.claimQueue, slots]; exact .nil, ?_⟩
      refine writers.still others (fun _ => by rw [slots]) (by simp [stands]) fun k' is => ?_
      cases after.symm.trans is
      exact there rfl
  | publish t k =>
    have after (t' : Fin n) (k' : Sending) : (s'.shard i).pc ≠ .publish t' k' := fun is => by
      obtain ⟨msg, sends⟩ := claimed is
      cases stands.symm.trans sends
    simp only [State.nextSlots, stands] at slots
    simp only [queueEvents, stands]
    split
    next here =>
      subst here
      rw [Function.update_self] at slots
      refine ⟨?_, writers.publish others slots (after t)⟩
      rw [State.claimQueue, State.claimQueue, slots, claims_publish]
      obtain ⟨slot, mem, writer⟩ := (writers i).mpr ⟨k, stands⟩
      exact .one (.published i ⟨slot.claim, List.mem_map_of_mem mem, writer⟩)
    next there =>
      rw [Function.update_of_ne (Ne.symm there)] at slots
      refine ⟨by rw [State.claimQueue, State.claimQueue, slots]; exact .nil, ?_⟩
      exact writers.still others (fun _ => by rw [slots]) (by simp [stands, there]) (after j)
  | poll count =>
    have before (k : Sending) : (s.shard i).pc ≠ .publish j k := by simp [stands]
    have after (k : Sending) : (s'.shard i).pc ≠ .publish j k := fun is => by
      obtain ⟨msg, sends⟩ := claimed is
      cases stands.symm.trans sends
    simp only [queueEvents, stands]
    split
    next here =>
      subst here
      rcases nextSlots_poll stands with ⟨msg, rest, front, next⟩ | ⟨unready, next⟩
      · rw [next, Function.update_self] at slots
        rw [front]
        -- the front had no writer
        exact ⟨follows_taken front slots,
          writers.still others (fun _ => by simp [front, slots]) before after⟩
      · rw [next] at slots
        split
        next front => exact absurd front (unready _ _)
        next =>
          exact ⟨follows_missed unready slots,
            writers.still others (fun _ => by rw [slots]) before after⟩
    next there =>
      have same : s'.slots j = s.slots j := by
        rcases nextSlots_poll stands with ⟨msg, rest, front, next⟩ | ⟨unready, next⟩
        · rwa [next, Function.update_of_ne (Ne.symm there)] at slots
        · rwa [next] at slots
      refine ⟨by rw [State.claimQueue, State.claimQueue, same]; exact .nil, ?_⟩
      exact writers.still others (fun _ => by rw [same]) before after
  -- a step from elsewhere does not come before a publication either
  | _ =>
    simp only [State.nextSlots, stands] at slots
    simp only [queueEvents, stands]
    refine ⟨by rw [State.claimQueue, State.claimQueue, slots]; exact .nil, ?_⟩
    refine writers.still others (fun _ => by rw [slots]) (by simp [stands]) fun k is => ?_
    obtain ⟨msg, sends⟩ := claimed is
    cases stands.symm.trans sends

end Steps

/-! ### Runs -/

theorem writers_init (j : Fin n) : Writers j (State.init n) := by
  intro i
  simp [State.slots, State.init]

/-- Only shard `j` polls its queue. -/
theorem consumer_of_queueEvents {i j : Fin n} {s : State n} {a : Action} :
    ∀ e ∈ queueEvents j s (i, a), ∀ t ∈ e.consumer, t = j := by
  intro e mem t consumes
  unfold queueEvents at mem
  split at mem
  next =>
    split at mem
    next => obtain rfl := List.mem_singleton.mp mem; cases consumes
    next => cases mem
  next =>
    split at mem
    next => obtain rfl := List.mem_singleton.mp mem; cases consumes
    next => cases mem
  next =>
    split at mem
    next => split at mem <;> simp at mem <;> rcases mem with rfl | rfl <;> cases consumes <;> rfl
    next => cases mem
  next => cases mem

/-- In any order of the steps, the queue of each shard is a queue of claims, and its shard polls
the messages in the order in which they were claimed. -/
theorem cbQueue_follows [NeZero n] {cfg : Config} {j : Fin n} {s : State n}
    {trace : List (QueueEvent (Fin n) (Message n))}
    (run : ((server cfg).observe (queueEvents j)).Reaches (State.init n) s trace) :
    Follows (ClaimQueue.Performs cfg.queueSize) ClaimQueue.empty trace (s.claimQueue j) ∧
      trace.filterMap QueueEvent.claimedValue =
        trace.filterMap QueueEvent.returnedValue ++ (s.slots j).map Slot.msg := by
  have kept : (Follows (ClaimQueue.Performs cfg.queueSize) ClaimQueue.empty trace
      (s.claimQueue j) ∧ Writers j s) ∧ ∀ e ∈ trace, ∀ t ∈ e.consumer, t = j := by
    refine run.invariant (fun s trace => (Follows _ ClaimQueue.empty trace (s.claimQueue j) ∧
      Writers j s) ∧ ∀ e ∈ trace, ∀ t ∈ e.consumer, t = j) ⟨⟨.nil, writers_init j⟩, by simp⟩ ?_
    rintro s trace ⟨i, a⟩ s' seen - ⟨⟨follows, writers⟩, single⟩ - taken
    obtain ⟨rfl, events, taken⟩ := Machine.step_of_observe taken
    obtain ⟨goesOn, writers'⟩ := claims_of_step writers taken
    refine ⟨⟨follows.append goesOn, writers'⟩, fun e mem => ?_⟩
    exact (List.mem_append.mp mem).elim (single e) (consumer_of_queueEvents e)
  obtain ⟨⟨follows, -⟩, single⟩ := kept
  refine ⟨follows, ?_⟩
  rw [ClaimQueue.in_order follows single]
  simp [State.claimQueue, ClaimQueue.inHand, Slot.claim]

/-- Shard 1 has polled the request of shard 0. -/
theorem cbQueue_follows_setAway : ∃ (s : State 2) (trace : List (QueueEvent (Fin 2) (Message 2))),
    ((trace.filterMap QueueEvent.returnedValue).map fun msg => msg.ctx.src) = [0] ∧
    Follows (ClaimQueue.Performs config.queueSize) ClaimQueue.empty trace (s.claimQueue 1) ∧
      trace.filterMap QueueEvent.claimedValue =
        trace.filterMap QueueEvent.returnedValue ++ (s.slots 1).map Slot.msg := by
  obtain ⟨s, trace, run, is⟩ := Machine.exists_of_exec ((server config).observe (queueEvents 1))
    (State.init 2) setAway
    (fun r => (r.2.filterMap QueueEvent.returnedValue).map fun msg => msg.ctx.src) (b := [0])
    (by decide +kernel)
  exact ⟨s, trace, is, cbQueue_follows run⟩

end GhettoRedis.Server
