import GhettoRedis.Server.Agreement

/-!
# Completing a dispatched command

When the home shard waits for callbacks, the queues are empty and nothing else is left of the
event in which a command was read, its request and response make their way, and the command
gets its reply.
-/
namespace GhettoRedis.Server

open Lib Protocol Commands

variable {n : ℕ}

/-! ### The way of one command -/

/-- Where the shard of a connection and the home shard of its command stand, and what is in their
queues; in the window of the connection are at most `len` bytes. -/
structure Relay (i h : Fin n) (c : ConnId) (len : ℕ) (owner home : Pc n)
    (inbox asked : List (Slot n)) (s : State n) : Prop where
  owner : (s.shard i).pc = owner
  home : (s.shard h).pc = home
  inbox : (s.shard i).cbQueue = inbox
  asked : (s.shard h).cbQueue = asked
  running : (s.shard i).running = true
  live : ∃ conn, s.conn c = some conn ∧ conn.shardId = i.val ∧ conn.flags.ending = false ∧
    conn.recv.size ≤ len

namespace Relay

variable {s : State n} {i h : Fin n} {c : ConnId} {len : ℕ} {owner home : Pc n}
  {inbox asked : List (Slot n)}

/-- A change of nothing that concerns the command. -/
theorem quiet (relay : Relay i h c len owner home inbox asked s) {j : Fin n} {shard : Shard n}
    (pc : shard.pc = (s.shard j).pc) (queue : shard.cbQueue = (s.shard j).cbQueue)
    (running : shard.running = (s.shard j).running) :
    Relay i h c len owner home inbox asked (s.setShard j shard) := by
  have same (k : Fin n) : ((s.setShard j shard).shard k).pc = (s.shard k).pc ∧
      ((s.setShard j shard).shard k).cbQueue = (s.shard k).cbQueue ∧
      ((s.setShard j shard).shard k).running = (s.shard k).running := by
    by_cases here : k = j
    · subst here
      simp [pc, queue, running]
    · simp [State.setShard_shard_of_ne _ _ here]
  constructor
  · exact (same i).1.trans relay.owner
  · exact (same h).1.trans relay.home
  · exact (same i).2.1.trans relay.inbox
  · exact (same h).2.1.trans relay.asked
  · exact (same i).2.2.trans relay.running
  · exact relay.live

theorem notify (relay : Relay i h c len owner home inbox asked s) (j : Fin n) (target : ℕ) :
    Relay i h c len owner home inbox asked (s.notify j target) :=
  relay.quiet rfl rfl rfl

theorem setSleeping (relay : Relay i h c len owner home inbox asked s) (j : Fin n)
    (sleeping : Bool) : Relay i h c len owner home inbox asked (s.setSleeping j sleeping) :=
  relay.quiet rfl rfl rfl

theorem setDb (relay : Relay i h c len owner home inbox asked s) (j : Fin n) (db : Size)
    (map : Hashmap) : Relay i h c len owner home inbox asked (s.setDb j db map) :=
  relay.quiet rfl rfl rfl

theorem ownerGoto (relay : Relay i h c len owner home inbox asked s) (away : h ≠ i) (pc : Pc n) :
    Relay i h c len pc home inbox asked (s.goto i pc) := by
  constructor
  · simp
  · rw [State.goto_shard_of_ne _ _ away, relay.home]
  · simp [relay.inbox]
  · rw [State.goto_shard_of_ne _ _ away, relay.asked]
  · simp [relay.running]
  · exact relay.live

theorem homeGoto (relay : Relay i h c len owner home inbox asked s) (away : h ≠ i) (pc : Pc n) :
    Relay i h c len owner pc inbox asked (s.goto h pc) := by
  constructor
  · rw [State.goto_shard_of_ne _ _ away.symm, relay.owner]
  · simp
  · rw [State.goto_shard_of_ne _ _ away.symm, relay.inbox]
  · simp [relay.asked]
  · rw [State.goto_shard_of_ne _ _ away.symm, relay.running]
  · exact relay.live

theorem setInbox (relay : Relay i h c len owner home inbox asked s) (away : h ≠ i)
    (slots : List (Slot n)) : Relay i h c len owner home slots asked
      (s.setShard i { s.shard i with cbQueue := slots }) := by
  constructor
  · simp [relay.owner]
  · rw [State.setShard_shard_of_ne _ _ away, relay.home]
  · simp
  · rw [State.setShard_shard_of_ne _ _ away, relay.asked]
  · simp [relay.running]
  · exact relay.live

theorem setAsked (relay : Relay i h c len owner home inbox asked s) (away : h ≠ i)
    (slots : List (Slot n)) : Relay i h c len owner home inbox slots
      (s.setShard h { s.shard h with cbQueue := slots }) := by
  constructor
  · rw [State.setShard_shard_of_ne _ _ away.symm, relay.owner]
  · simp [relay.home]
  · rw [State.setShard_shard_of_ne _ _ away.symm, relay.inbox]
  · simp
  · rw [State.setShard_shard_of_ne _ _ away.symm, relay.running]
  · exact relay.live

/-- Another state of the connection, with no more in its window. -/
theorem setConn (relay : Relay i h c len owner home inbox asked s) {d : ConnId} {conn conn' : Conn}
    (live : s.conn d = some conn) (shardId : conn'.shardId = conn.shardId)
    (ending : conn'.flags.ending = conn.flags.ending) (size : conn'.recv.size ≤ conn.recv.size) :
    Relay i h c len owner home inbox asked (s.setConn d (some conn')) := by
  refine ⟨relay.owner, relay.home, relay.inbox, relay.asked, relay.running, ?_⟩
  obtain ⟨own, lives, belongs, going, fits⟩ := relay.live
  by_cases here : c = d
  · subst here
    obtain rfl : conn = own := by simpa [live] using lives
    exact ⟨conn', by simp, shardId.trans belongs, ending.trans going, size.trans fits⟩
  · exact ⟨own, by rwa [State.setConn_conn_of_ne _ _ _ here], belongs, going, fits⟩

end Relay

section Relays

variable [NeZero n] {cfg : Config} {i h : Fin n} {c : ConnId} {index : ℕ}

/-- A run in which nothing is interleaved with the command. -/
abbrev AloneRun (cfg : Config) (c : ConnId) (index : ℕ) (s t : State n) (trace : List Event) :
    Prop :=
  (server cfg).Run (fun s a => Alone c index s.view a.1 a.2) s t trace

/-- From `P` the command can come to `Q`, with nothing interleaved. -/
def LeadsTo (cfg : Config) (c : ConnId) (index : ℕ) (P Q : State n → Prop) : Prop :=
  ∀ s, P s → ∃ t trace, AloneRun cfg c index s t trace ∧ Q t

namespace LeadsTo

variable {P Q R : State n → Prop}

theorem of_imp (implies : ∀ s, P s → Q s) : LeadsTo cfg c index P Q := by
  intro s holds
  exact ⟨s, [], .refl, implies s holds⟩

theorem trans (first : LeadsTo cfg c index P Q) (second : LeadsTo cfg c index Q R) :
    LeadsTo cfg c index P R := by
  intro s holds
  obtain ⟨t, trace, run, reached⟩ := first s holds
  obtain ⟨u, rest, further, last⟩ := second t reached
  exact ⟨u, trace ++ rest, run.trans further, last⟩

end LeadsTo

theorem aloneRun_of_step {s s' : State n} {j : Fin n} {seen : List Event}
    (about : ∀ count m, (s.shard j).pc = .callback count m → m.ctx.conn = c ∧ m.ctx.index = index)
    (taken : step cfg s j .go = some (s', seen)) : AloneRun cfg c index s s' seen := by
  have alone : Alone c index s.view j .go := by
    refine ⟨?_, about⟩
    intro _ _ _ _ _ is
    cases is
  have start : AloneRun cfg c index s s [] := .refl
  exact @Machine.Run.step _ _ _ (server cfg) _ _ _ _ _ _ (j, .go) start alone taken

/-- One step of shard `j` leads from `P` to `Q`. -/
theorem LeadsTo.of_step {P Q : State n → Prop} (j : Fin n)
    (about : ∀ s, P s → ∀ count m, (s.shard j).pc = .callback count m →
      m.ctx.conn = c ∧ m.ctx.index = index)
    (steps : ∀ s, P s → ∃ s' seen, step cfg s j .go = some (s', seen) ∧ Q s') :
    LeadsTo cfg c index P Q := by
  intro s holds
  obtain ⟨s', seen, taken, reached⟩ := steps s holds
  exact ⟨s', seen, aloneRun_of_step (about s holds) taken, reached⟩

/-- The shard of the connection steps, and does not call a callback. -/
theorem LeadsTo.of_owner {pc home : Pc n} {inbox asked : List (Slot n)} {len : ℕ}
    {Q : State n → Prop} (outside : ∀ count m, pc ≠ .callback count m)
    (steps : ∀ s, Relay i h c len pc home inbox asked s →
      ∃ s' seen, step cfg s i .go = some (s', seen) ∧ Q s') :
    LeadsTo cfg c index (Relay i h c len pc home inbox asked) Q :=
  .of_step i (fun _ relay count m is => absurd (relay.owner.symm.trans is) (outside count m)) steps

theorem LeadsTo.of_home {owner pc : Pc n} {inbox asked : List (Slot n)} {len : ℕ}
    {Q : State n → Prop} (outside : ∀ count m, pc ≠ .callback count m)
    (steps : ∀ s, Relay i h c len owner pc inbox asked s →
      ∃ s' seen, step cfg s h .go = some (s', seen) ∧ Q s') :
    LeadsTo cfg c index (Relay i h c len owner pc inbox asked) Q :=
  .of_step h (fun _ relay count m is => absurd (relay.home.symm.trans is) (outside count m)) steps

variable {len : ℕ} {m : Message n} {owner home : Pc n} {inbox asked : List (Slot n)}

/-! ### The request goes out -/

theorem request_claimed {k : Sending} (away : h ≠ i) (room : 0 < cfg.queueSize) :
    LeadsTo cfg c index (Relay i h c len (.send h m k) home [] [])
      (Relay i h c len (.publish h k) home [] [⟨m, some i⟩]) := by
  apply LeadsTo.of_owner (by simp)
  intro s relay
  refine ⟨_, [], ?_, (relay.setAsked away [⟨m, some i⟩]).ownerGoto away _⟩
  simp [step, relay.owner, relay.asked, room]

theorem request_published {args : CmdArgs} {k : Serving} (away : h ≠ i) :
    LeadsTo cfg c index
      (Relay i h c args.len.toNat (.publish h (.request c args k)) home [] [⟨m, some i⟩])
      (Relay i h c args.len.toNat (k.pc c) home [] [⟨m, none⟩]) := by
  apply LeadsTo.of_owner (by simp)
  intro s relay
  obtain ⟨conn, live, -, going, fits⟩ := relay.live
  let conn' : Conn := { conn with flags := { conn.flags with dispatchWaiting := true } }
  -- the request is all that is in the window
  have done : (conn'.finish args true).1 = false := by
    unfold Conn.finish
    split
    · rfl
    · split
      · simpa [conn', Nat.sub_eq_zero_iff_le] using fits
      · rfl
  have size : (conn'.finish args true).2.recv.size ≤ conn.recv.size := by
    unfold Conn.finish
    split
    · exact le_rfl
    · split
      · exact Nat.sub_le _ _
      · exact le_rfl
  have ending : (conn'.finish args true).2.flags.ending = conn.flags.ending := by
    rw [finish_flags]
  have sent := ((relay.setAsked away [⟨m, none⟩]).notify i h).setConn live
    (finish_shardId conn' args true) ending size
  refine ⟨_, [], ?_, sent.ownerGoto away (k.pc c)⟩
  simp [step, relay.owner, relay.asked, State.sent, live, State.finishRequest, conn', done]

/-! ### The owner goes through its loop -/

theorem event_finished (away : h ≠ i) : LeadsTo cfg c index
    (Relay i h c len (.finish c false []) home inbox asked)
    (Relay i h c len (.events []) home inbox asked) := by
  apply LeadsTo.of_owner (by simp)
  intro s relay
  obtain ⟨conn, live, -, going, -⟩ := relay.live
  refine ⟨_, [], ?_, relay.ownerGoto away _⟩
  simp [step, relay.owner, live, going]

theorem events_finished (away : h ≠ i) : LeadsTo cfg c index
    (Relay i h c len (.events []) home inbox asked) (Relay i h c len .top home inbox asked) := by
  apply LeadsTo.of_owner (by simp)
  intro s relay
  refine ⟨_, [], ?_, relay.ownerGoto away _⟩
  simp [step, relay.owner]

theorem loop_entered (away : h ≠ i) : LeadsTo cfg c index
    (Relay i h c len .top home inbox asked) (Relay i h c len (.flush 0) home inbox asked) := by
  apply LeadsTo.of_owner (by simp)
  intro s relay
  refine ⟨_, [], ?_, relay.ownerGoto away _⟩
  simp [step, relay.owner, relay.running]

theorem Relay.step_flush (cfg : Config) {s : State n} {d : ConnId} (away : h ≠ i)
    (relay : Relay i h c len (.flush d) home inbox asked s) (below : d < s.nextConn) :
    ∃ s' seen, step cfg s i .go = some (s', seen) ∧
      Relay i h c len (.flush (d + 1)) home inbox asked s' ∧ s'.nextConn = s.nextConn := by
  cases owned : s.owned i d with
  | none => exact ⟨_, [], by simp [step, relay.owner, below, owned], relay.ownerGoto away _, rfl⟩
  | some conn =>
    by_cases empty : conn.sendBuf = []
    · refine ⟨_, [], ?_, relay.ownerGoto away _, rfl⟩
      simp [step, relay.owner, below, owned, empty]
    · have live : s.conn d = some conn := (Option.filter_eq_some_iff.mp owned).1
      have flushed : Relay i h c len (.flush d) home inbox asked (s.setConn d (some conn.flush)) :=
        relay.setConn live rfl rfl le_rfl
      refine ⟨_, [.flushed d conn.sendBuf], ?_, flushed.ownerGoto away _, rfl⟩
      simp [step, relay.owner, below, owned, empty]

theorem flush_ended {d : ConnId} (away : h ≠ i) : LeadsTo cfg c index
    (fun s => Relay i h c len (.flush d) home inbox asked s ∧ s.nextConn ≤ d)
    (Relay i h c len (.wakeup 0 .loop) home inbox asked) := by
  apply LeadsTo.of_step i
  · rintro s ⟨relay, -⟩
    simp [relay.owner]
  · rintro s ⟨relay, past⟩
    have past : ¬ d < s.nextConn := Nat.not_lt.mpr past
    exact ⟨_, [], by simp [step, relay.owner, past], relay.ownerGoto away _⟩

/-- `reactor_flush_pending_writes` gets through the `left` entries before it. -/
theorem flush_finished (away : h ≠ i) (left d : ℕ) : LeadsTo cfg c index
    (fun s => Relay i h c len (.flush d) home inbox asked s ∧ s.nextConn ≤ d + left)
    (Relay i h c len (.wakeup 0 .loop) home inbox asked) := by
  induction left generalizing d with
  | zero => exact flush_ended away
  | succ left ih =>
    rintro s ⟨relay, bound⟩
    by_cases below : d < s.nextConn
    · obtain ⟨s', seen, taken, relay', same⟩ := relay.step_flush cfg away below
      have bound' : s'.nextConn ≤ d + 1 + left := by
        rw [same, Nat.add_right_comm]
        exact bound
      obtain ⟨t, rest, run, reached⟩ := ih (d + 1) s' ⟨relay', bound'⟩
      refine ⟨t, seen ++ rest, (aloneRun_of_step ?_ taken).trans run, reached⟩
      simp [relay.owner]
    · exact flush_ended away s ⟨relay, Nat.not_lt.mp below⟩

theorem signalled {j : Fin n} (away : h ≠ i) : LeadsTo cfg c index
    (Relay i h c len (.signal j .loop) home inbox asked)
    (Relay i h c len (.wakeup (j + 1) .loop) home inbox asked) := by
  apply LeadsTo.of_owner (by simp)
  intro s relay
  have signalled : Relay i h c len (.signal j .loop) home inbox asked
      (s.setShard j { s.shard j with wakeupFd := (s.shard j).wakeupFd + 1 }) :=
    relay.quiet rfl rfl rfl
  exact ⟨_, [], by simp [step, relay.owner], signalled.ownerGoto away _⟩

/-- One shard is signalled or passed over. -/
theorem wakeup_passed {j : ℕ} (away : h ≠ i) (below : j < n) : LeadsTo cfg c index
    (Relay i h c len (.wakeup j .loop) home inbox asked)
    (Relay i h c len (.wakeup (j + 1) .loop) home inbox asked) := by
  intro s relay
  by_cases sleeps : bitset64Get (s.shard i).softNotify j ∧ (s.shard ⟨j, below⟩).sleeping
  · have taken : step cfg s i .go =
        some ((s.setSleeping ⟨j, below⟩ false).goto i (.signal ⟨j, below⟩ .loop), []) := by
      simp [step, relay.owner, below, sleeps]
    have signals : LeadsTo cfg c index (Relay i h c len (.signal ⟨j, below⟩ .loop) home inbox asked)
        (Relay i h c len (.wakeup (j + 1) .loop) home inbox asked) := signalled away
    obtain ⟨t, rest, run, reached⟩ :=
      signals _ ((relay.setSleeping ⟨j, below⟩ false).ownerGoto away _)
    refine ⟨t, _, (aloneRun_of_step ?_ taken).trans run, reached⟩
    simp [relay.owner]
  · have taken : step cfg s i .go = some (s.goto i (.wakeup (j + 1) .loop), []) := by
      simp only [step, relay.owner, dif_pos below, if_neg sleeps]
    refine ⟨_, _, aloneRun_of_step ?_ taken, relay.ownerGoto away _⟩
    simp [relay.owner]

theorem wakeup_ended {j : ℕ} (away : h ≠ i) (past : n ≤ j) : LeadsTo cfg c index
    (Relay i h c len (.wakeup j .loop) home inbox asked)
    (Relay i h c len (.poll 0) home inbox asked) := by
  apply LeadsTo.of_owner (by simp)
  intro s relay
  have cleared : Relay i h c len (.wakeup j .loop) home inbox asked
      (s.setShard i { s.shard i with softNotify := 0 }) := relay.quiet rfl rfl rfl
  refine ⟨_, [], ?_, cleared.ownerGoto away _⟩
  simp [step, relay.owner, Nat.not_lt.mpr past, State.wokeUp]

theorem wakeup_finished (away : h ≠ i) (left j : ℕ) (bound : n ≤ j + left) : LeadsTo cfg c index
    (Relay i h c len (.wakeup j .loop) home inbox asked)
    (Relay i h c len (.poll 0) home inbox asked) := by
  induction left generalizing j with
  | zero => exact wakeup_ended away bound
  | succ left ih =>
    by_cases below : j < n
    · exact (wakeup_passed away below).trans (ih (j + 1) (by omega))
    · exact wakeup_ended away (Nat.not_lt.mp below)

/-- Nothing else is left of the event in which the command was read. -/
def Serving.isLast : Serving → Bool
  | .epollin hup events => !hup && events.isEmpty
  | .onCb _ => true

/-- The owner gets back to where it waits for callbacks. -/
theorem owner_returned {k : Serving} (away : h ≠ i) (last : k.isLast = true) : LeadsTo cfg c index
    (Relay i h c len (k.pc c) home inbox asked)
    (fun s => ∃ count, Relay i h c len (.poll count) home inbox asked s) := by
  cases k with
  | onCb count => exact LeadsTo.of_imp fun s relay => ⟨count, relay⟩
  | epollin hup events =>
    obtain ⟨rfl, rfl⟩ : hup = false ∧ events = [] := by simpa [Serving.isLast] using last
    have entered : LeadsTo cfg c index (Relay i h c len (.finish c false []) home inbox asked)
        (Relay i h c len (.flush 0) home inbox asked) :=
      (event_finished away).trans ((events_finished away).trans (loop_entered away))
    -- how many connections there are to look at shows only here
    have passed (conns : ℕ) : LeadsTo cfg c index
        (fun s => Relay i h c len (.flush 0) home inbox asked s ∧ s.nextConn ≤ 0 + conns)
        (Relay i h c len (.poll 0) home inbox asked) :=
      (flush_finished away conns 0).trans (wakeup_finished away n 0 (Nat.zero_add n).ge)
    intro s relay
    obtain ⟨t, trace, run, reached⟩ := entered s relay
    obtain ⟨u, rest, further, last⟩ := passed t.nextConn t ⟨reached, (Nat.zero_add _).ge⟩
    exact ⟨u, trace ++ rest, run.trans further, 0, last⟩

/-! ### The home shard answers -/

theorem request_taken {count : ℕ} (away : h ≠ i) : LeadsTo cfg c index
    (Relay i h c len owner (.poll count) [] [⟨m, none⟩])
    (Relay i h c len owner (.callback (count + 1) m) [] []) := by
  apply LeadsTo.of_home (by simp)
  intro s relay
  refine ⟨_, [], ?_, (relay.setAsked away []).homeGoto away _⟩
  simp [step, relay.home, relay.asked]

/-- `ctx->cb` leaves the response to be sent. -/
theorem request_executed {count : ℕ} {key : Bytes} {hash : Size} {fields : ReqFields}
    (away : h ≠ i) : LeadsTo cfg c index
      (Relay i h c len owner (.callback count (.request ⟨i, h, c, index⟩ key hash fields)) [] [])
      (fun s => ∃ answer, Relay i h c len owner
        (.send i (.response ⟨h, i, c, index⟩ answer) (.response c count)) [] [] s) := by
  apply LeadsTo.of_step h
  · intro s relay count' m' stands
    cases relay.home.symm.trans stands
    exact ⟨rfl, rfl⟩
  intro s relay
  obtain ⟨conn, live, -⟩ := relay.live
  obtain ⟨⟨db, result⟩, executed⟩ :
      ∃ r, cmdExec (cmdPreDispatchExec fields) ((s.shard h).dbs conn.db) key hash = r := ⟨_, rfl⟩
  have stored := (relay.setDb h conn.db db).homeGoto away
    (.send i (.response ⟨h, i, c, index⟩ (cmdPostDispatchExec result)) (.response c count))
  let seen : List Event := [.executed c index conn.db key (cmdPreDispatchExec fields)
    (hashmapGetWithHash ((s.shard h).dbs conn.db) key hash) result]
  refine ⟨_, seen, ?_, _, stored⟩
  simp only [step, relay.home, Message.ctx, live, Option.map_some, stepCallback, executed, seen]

theorem response_claimed {k : Sending} (away : h ≠ i) (room : 0 < cfg.queueSize) :
    LeadsTo cfg c index (Relay i h c len owner (.send i m k) [] [])
      (Relay i h c len owner (.publish i k) [⟨m, some h⟩] []) := by
  apply LeadsTo.of_home (by simp)
  intro s relay
  refine ⟨_, [], ?_, (relay.setInbox away [⟨m, some h⟩]).homeGoto away _⟩
  simp [step, relay.home, relay.inbox, room]

theorem response_published {count : ℕ} (away : h ≠ i) : LeadsTo cfg c index
    (Relay i h c len owner (.publish i (.response c count)) [⟨m, some h⟩] [])
    (Relay i h c len owner (.onCb count c) [⟨m, none⟩] []) := by
  apply LeadsTo.of_home (by simp)
  intro s relay
  have sent := (relay.setInbox away [⟨m, none⟩]).notify h i
  refine ⟨_, [], ?_, sent.homeGoto away _⟩
  simp [step, relay.home, relay.inbox, State.sent]

/-! ### The response comes in -/

theorem response_taken {count : ℕ} (away : h ≠ i) : LeadsTo cfg c index
    (Relay i h c len (.poll count) home [⟨m, none⟩] [])
    (Relay i h c len (.callback (count + 1) m) home [] []) := by
  apply LeadsTo.of_owner (by simp)
  intro s relay
  refine ⟨_, [], ?_, (relay.setInbox away []).ownerGoto away _⟩
  simp [step, relay.owner, relay.inbox]

/-- The last step gives the connection its reply. -/
theorem response_delivered {count : ℕ} {answer : RespFields} {s : State n}
    (relay : Relay i h c len (.callback count (.response ⟨h, i, c, index⟩ answer)) home [] [] s) :
    ∃ t trace, AloneRun cfg c index s t trace ∧ ∃ offset w, .replied c index offset w ∈ trace := by
  obtain ⟨conn, live, -⟩ := relay.live
  have taken : step cfg s i .go =
      some (stepCallback s i count conn (.response ⟨h, i, c, index⟩ answer)) := by
    simp only [step, relay.owner, Message.ctx, live, Option.map_some]
  refine ⟨_, _, aloneRun_of_step ?_ taken, _, _, List.mem_singleton_self _⟩
  intro count' m' stands
  cases relay.owner.symm.trans stands
  exact ⟨rfl, rfl⟩

/-- A request that is about to be sent is answered. -/
theorem request_answered {args : CmdArgs} {k : Serving} {key : Bytes} {hash : Size}
    {fields : ReqFields} {count : ℕ} {s : State n} (away : h ≠ i) (room : 0 < cfg.queueSize)
    (last : k.isLast = true)
    (relay : Relay i h c args.len.toNat
      (.send h (.request ⟨i, h, c, index⟩ key hash fields) (.request c args k)) (.poll count) [] [] s) :
    ∃ t trace, AloneRun cfg c index s t trace ∧ ∃ offset w, .replied c index offset w ∈ trace := by
  obtain ⟨s₁, trace₁, run₁, owner, relay₁⟩ := ((request_claimed away room).trans
    ((request_published away).trans (owner_returned away last))) s relay
  obtain ⟨s₂, trace₂, run₂, answer, relay₂⟩ :=
    ((request_taken away).trans (request_executed away)) s₁ relay₁
  obtain ⟨s₃, trace₃, run₃, relay₃⟩ := ((response_claimed away room).trans
    ((response_published away).trans (response_taken away))) s₂ relay₂
  obtain ⟨t, rest, run, offset, w, mem⟩ := response_delivered relay₃
  exact ⟨t, _, ((run₁.trans run₂).trans run₃).trans run, offset, w, List.mem_append_right _ mem⟩

end Relays

/-! ### Both paths -/

theorem View.setDb_dbs_of_ne (v : View n) {i j : Fin n} {db db' : Size} (map : Hashmap)
    (other : ¬ (j = i ∧ db' = db)) : (v.setDb i db map).dbs j db' = v.dbs j db' := by
  by_cases here : j = i
  · subst here
    have elsewhere : db' ≠ db := fun same => other ⟨rfl, same⟩
    simp [View.setDb, Function.update_of_ne elsewhere]
  · simp [View.setDb, Function.update_of_ne here]

section Agreement

variable [NeZero n] {cfg : Config} {values : List Value} {env : Env} {s : State n} {i : Fin n}
  {a : Action} {c : ConnId} {conn : Conn}

/-- Nothing keeps shard `h` from answering a request of connection `c`: the request is all that
the connection has sent, nothing else is left of the event, the home shard waits for callbacks,
and the queues of both are empty. -/
structure Unhindered (cfg : Config) (s : State n) (i h : Fin n) (a : Action) (c : ConnId)
    (conn : Conn) : Prop where
  last : ∀ k, (s.shard i).pc = .serve c k → k.isLast = true
  whole : ∀ outside env args, a = .serve outside env → conn.head (conn.mem outside) = .request args →
    conn.recv.size ≤ args.len.toNat
  going : conn.flags.ending = false
  running : (s.shard i).running = true
  waits : ∃ count, (s.shard h).pc = .poll count
  inbox : (s.shard i).cbQueue = []
  asked : (s.shard h).cbQueue = []
  room : 0 < cfg.queueSize

/-- A command that is not dispatched has its reply after one step. -/
theorem completes_of_hands {k : Serving} {args : CmdArgs} {outcome : Outcome} {offset : ℕ} {w : Write}
    (hands : Hands cfg s.view i a c k conn args values env outcome)
    (answers : .replied c conn.answered offset w ∈ (stepHandle cfg s i c conn args k outcome).2) :
    ∃ t trace, Completes cfg s i a c conn.answered t trace :=
  ⟨_, _, ⟨⟨_, _, [], hands.step, .refl, rfl⟩, offset, w,
    List.mem_append_left _ (List.mem_cons_of_mem _ answers)⟩⟩

/-- A keyed command on the home shard of its key completes. -/
theorem completes_inline (keyed : Keyed values) (issues : Issues cfg values env s i a c conn)
    (here : home (keyOf values) = i) : ∃ t trace, Completes cfg s i a c conn.answered t trace := by
  obtain ⟨k, args, hands⟩ := issues.hands
  rcases @handleCommand_keyed _ _ env _ keyed with ⟨w, is⟩ | ⟨op, is⟩
  · rw [is] at hands
    exact completes_of_hands hands (List.mem_singleton_self _)
  · rw [is] at hands
    apply completes_of_hands hands
    rw [stepHandle, stepKeyed_home here rfl]
    exact List.mem_cons_of_mem _ (List.mem_singleton_self _)

/-- A keyed command elsewhere completes when nothing hinders it. -/
theorem completes_dispatched (keyed : Keyed values) (issues : Issues cfg values env s i a c conn)
    (away : home (keyOf values) ≠ i) (free : Unhindered cfg s i (home (keyOf values)) a c conn) :
    ∃ t trace, Completes cfg s i a c conn.answered t trace := by
  obtain ⟨k, args, hands⟩ := issues.hands
  rcases @handleCommand_keyed _ _ env _ keyed with ⟨w, is⟩ | ⟨op, is⟩
  · rw [is] at hands
    exact completes_of_hands hands (List.mem_singleton_self _)
  · rw [is] at hands
    obtain ⟨count, waits⟩ := free.waits
    obtain ⟨outside, serves, head, -⟩ := hands.head
    have stands : (s.shard i).pc = .serve c k := hands.at_serve
    have taken := hands.step
    rw [stepHandle, stepKeyed_away away] at taken
    have start : Relay i (home (keyOf values)) c args.len.toNat (.serve c k) (.poll count) [] [] s := by
      refine ⟨stands, waits, free.inbox, free.asked, free.running, conn, hands.live, ?_, free.going, ?_⟩
      · exact issues.routed.hands hands
      · exact free.whole outside env args serves head
    obtain ⟨t, rest, run, offset, w, mem⟩ := request_answered away free.room (free.last k stands)
      (start.ownerGoto away _)
    exact ⟨t, _, ⟨_, _, rest, taken, run, rfl⟩, offset, w, List.mem_append_right _ mem⟩

/-- A keyed command does the same on both paths. Executed on the home shard of its key, and sent
there from another shard with nothing interleaved, it appends the same bytes to its connection and
leaves the same contents in the selected database of the home shard; no other database changes.
The first path comes to its end, and the second when nothing hinders it. -/
theorem inline_dispatched_agree {s₁ s₂ : State n} {i₁ i₂ : Fin n} {a₁ a₂ : Action} {c₁ c₂ : ConnId}
    {conn₁ conn₂ : Conn} (keyed : Keyed values)
    (inline : Issues cfg values env s₁ i₁ a₁ c₁ conn₁)
    (dispatched : Issues cfg values env s₂ i₂ a₂ c₂ conn₂) (here : home (keyOf values) = i₁)
    (away : home (keyOf values) ≠ i₂)
    (same : (s₁.shard (home (keyOf values))).dbs conn₁.db =
      (s₂.shard (home (keyOf values))).dbs conn₂.db) :
    (∃ t trace, Completes cfg s₁ i₁ a₁ c₁ conn₁.answered t trace) ∧
      (Unhindered cfg s₂ i₂ (home (keyOf values)) a₂ c₂ conn₂ →
        ∃ t trace, Completes cfg s₂ i₂ a₂ c₂ conn₂.answered t trace) ∧
      ∀ t₁ t₂ trace₁ trace₂, Completes cfg s₁ i₁ a₁ c₁ conn₁.answered t₁ trace₁ →
        Completes cfg s₂ i₂ a₂ c₂ conn₂.answered t₂ trace₂ →
        appended c₁ trace₁ = appended c₂ trace₂ ∧
          (t₁.shard (home (keyOf values))).dbs conn₁.db =
            (t₂.shard (home (keyOf values))).dbs conn₂.db ∧
          (∀ j db, ¬ (j = home (keyOf values) ∧ db = conn₁.db) →
            (t₁.shard j).dbs db = (s₁.shard j).dbs db) ∧
          ∀ j db, ¬ (j = home (keyOf values) ∧ db = conn₂.db) →
            (t₂.shard j).dbs db = (s₂.shard j).dbs db := by
  refine ⟨completes_inline keyed inline here, completes_dispatched keyed dispatched away, ?_⟩
  intro t₁ t₂ trace₁ trace₂ done₁ done₂
  obtain ⟨reply₁, dbs₁⟩ := done₁.effect keyed inline
  obtain ⟨reply₂, dbs₂⟩ := done₂.effect keyed dispatched
  have dbs₁ (j : Fin n) : (t₁.shard j).dbs = _ := congrFun dbs₁ j
  have dbs₂ (j : Fin n) : (t₂.shard j).dbs = _ := congrFun dbs₂ j
  refine ⟨?_, ?_, ?_, ?_⟩
  · rw [reply₁, reply₂, same]
  · rw [dbs₁, dbs₂, same]
    simp [View.setDb]
  · intro j db other
    rw [dbs₁]
    exact View.setDb_dbs_of_ne _ _ other
  · intro j db other
    rw [dbs₂]
    exact View.setDb_dbs_of_ne _ _ other

end Agreement

def Pc.polls : Pc n → Bool
  | .poll _ => true
  | _ => false

theorem Pc.eq_of_polls {pc : Pc n} (polls : pc.polls = true) : ∃ count, pc = .poll count := by
  unfold Pc.polls at polls
  split at polls
  · exact ⟨_, rfl⟩
  · cases polls

/-- The request that shard `i` is going to hand to `handle_command`. -/
def State.pending (s : State n) (i : Fin n) : Option (ConnId × Serving × Conn × CmdArgs) :=
  match (s.shard i).pc with
  | .serve c k =>
    match s.conn c with
    | none => none
    | some conn =>
      match conn.head (conn.mem fun _ => 0) with
      | .request args => some (c, k, conn, args)
      | _ => none
  | _ => none

theorem hands_of_pending [NeZero n] (cfg : Config) {s : State n} {i : Fin n} {c : ConnId}
    {k : Serving} {conn : Conn} {args : CmdArgs} (pending : s.pending i = some (c, k, conn, args))
    (argc : args.argc ≠ 0) :
    Hands cfg s.view i (serveNext i).2 c k conn args (argumentValues (conn.mem fun _ => 0) args)
      ⟨false, 0⟩ (handleCommand n cfg.numDbs ⟨false, 0⟩ (argumentValues (conn.mem fun _ => 0) args)) := by
  unfold State.pending at pending
  split at pending
  next stands =>
    split at pending
    next => cases pending
    next live =>
      split at pending
      next head =>
        cases pending
        exact ⟨stands, live, ⟨_, rfl, head, rfl⟩, argc, rfl⟩
      next => cases pending
  next => cases pending

/-- `INCR a` in a line of its own. -/
def incrA : List Value := [⟨asciiBytes "INCR", space⟩, ⟨asciiBytes "a", cr⟩]

/-- A database in which the value of `a` is 41. -/
def storedA : Hashmap :=
  (hashmapSetWithHash hashmapNew (asciiBytes "a") ⟨asciiBytes "41", 0⟩
    (hashmapXxhash3 (asciiBytes "a") 0 0)).1

/-- Shard `i` has read `INCR a` from its first client, and goes through its loop with no other
client before it. -/
def readIncrA (i : Fin 2) : List (Fin 2 × Action) :=
  goToSleep i 0 ++ acceptClient i 65536 ++ goToSleep i 1 ++
    readFrom i 0 (asciiBytes "INCR a" ++ crlf)

/-- The first client of shard `i` is about to get its `INCR a` executed, which came alone. -/
def State.readyForA (s : State 2) (i : Fin 2) : Bool :=
  match s.pending i with
  | none => false
  | some found =>
    found.1 = 0 ∧ argumentValues (found.2.2.1.mem fun _ => 0) found.2.2.2 = incrA ∧
      found.2.2.2.argc ≠ 0 ∧ found.2.1.isLast = true ∧ found.2.2.1.flags.ending = false ∧
      found.2.2.1.recv.size ≤ found.2.2.2.len.toNat ∧ (s.shard i).running = true ∧
      (s.shard i).cbQueue = [] ∧ s.view.Quiet 0

/-- What such a state offers, whatever the databases contain. -/
theorem issues_of_readyForA {s₀ : State 2} {before : List Event} {i : Fin 2}
    (run : (server config).Reaches (State.init 2) s₀ before) (ready : s₀.readyForA i = true)
    (dbs : Fin 2 → Size → Hashmap) :
    ∃ conn, Issues config incrA ⟨false, 0⟩ (s₀.load dbs) i (serveNext i).2 0 conn ∧
      ∀ h, (∃ count, (s₀.shard h).pc = .poll count) → (s₀.shard h).cbQueue = [] →
        Unhindered config (s₀.load dbs) i h (serveNext i).2 0 conn := by
  unfold State.readyForA at ready
  split at ready
  next => cases ready
  next found pending =>
    obtain ⟨c, k, conn, args⟩ := found
    simp only [decide_eq_true_eq] at ready
    obtain ⟨rfl, values, argc, last, going, whole, running, inbox, quiet⟩ := ready
    have pending : (s₀.load dbs).pending i = some (0, k, conn, args) := pending
    have hands := hands_of_pending config pending argc
    rw [values] at hands
    refine ⟨conn, ⟨⟨s₀, before, dbs, run, rfl⟩, quiet, k, args, hands⟩, fun h waits asked => ?_⟩
    have room : 0 < config.queueSize := by decide
    refine ⟨fun k' stands => ?_, fun outside env args' is head => ?_, going, running, waits, inbox,
      asked, room⟩
    · have stands' := hands.at_serve.symm.trans stands
      cases stands'
      exact last
    · obtain ⟨outside', is', head', -⟩ := hands.head
      cases is.symm.trans is'
      cases head'.symm.trans head
      exact whole

/-- `INCR a` on shard 1, where its key is at home, and on shard 0. -/
theorem inline_dispatched_agree_incr : ∃ (s₁ s₂ t₁ t₂ : State 2) (conn₁ conn₂ : Conn)
    (trace₁ trace₂ : List Event),
    Issues config incrA ⟨false, 0⟩ s₁ shard1 (serveNext shard1).2 0 conn₁ ∧
      Issues config incrA ⟨false, 0⟩ s₂ shard0 (serveNext shard0).2 0 conn₂ ∧
      Completes config s₁ shard1 (serveNext shard1).2 0 conn₁.answered t₁ trace₁ ∧
      Completes config s₂ shard0 (serveNext shard0).2 0 conn₂.answered t₂ trace₂ ∧
      appended 0 trace₁ = asciiBytes ":42" ++ crlf ∧ appended 0 trace₁ = appended 0 trace₂ ∧
      (t₁.shard shard1).dbs conn₁.db = (t₂.shard shard1).dbs conn₂.db := by
  obtain ⟨u₁, before₁, run₁, ready₁⟩ := Machine.exists_of_exec (server config) (State.init 2)
    (readIncrA shard1) (fun r => r.1.readyForA shard1) (b := true) (by decide +kernel)
  obtain ⟨u₂, before₂, run₂, is⟩ := Machine.exists_of_exec (server config) (State.init 2)
    (List.replicate 5 (shard1, .go) ++ readIncrA shard0)
    (fun r => (r.1.readyForA shard0, (r.1.shard shard1).pc.polls, (r.1.shard shard1).cbQueue.length))
    (b := (true, true, 0)) (by decide +kernel)
  obtain ⟨ready₂, is⟩ := Prod.mk.inj is
  obtain ⟨waits, empty⟩ := Prod.mk.inj is
  obtain ⟨conn₁, inline, -⟩ := issues_of_readyForA run₁ ready₁ fun _ _ => storedA
  obtain ⟨conn₂, dispatched, free⟩ := issues_of_readyForA run₂ ready₂ fun _ _ => storedA
  have keyed : Keyed incrA := ⟨⟨asciiBytes "INCR", 1, .incr⟩, rfl, rfl, rfl⟩
  have here : home (n := 2) (keyOf incrA) = shard1 := by decide +kernel
  have away : home (n := 2) (keyOf incrA) ≠ shard0 := by
    rw [here]
    decide
  obtain ⟨⟨t₁, trace₁, done₁⟩, completes, agree⟩ :=
    inline_dispatched_agree keyed inline dispatched here away rfl
  rw [here] at completes agree
  obtain ⟨t₂, trace₂, done₂⟩ :=
    completes (free shard1 (Pc.eq_of_polls waits) (List.eq_nil_of_length_eq_zero empty))
  obtain ⟨reply, contents, -⟩ := agree t₁ t₂ trace₁ trace₂ done₁ done₂
  have counted : (effect 2 config incrA ⟨false, 0⟩ storedA).2 =
      asciiBytes ":42" ++ crlf := by decide +kernel
  exact ⟨_, _, t₁, t₂, conn₁, conn₂, trace₁, trace₂, inline, dispatched, done₁, done₂,
    (done₁.effect keyed inline).1.trans counted, reply, contents⟩

end GhettoRedis.Server
