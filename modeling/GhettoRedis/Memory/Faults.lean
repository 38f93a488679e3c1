import GhettoRedis.Memory.Ownership
import GhettoRedis.Protocol.Slices
import GhettoRedis.Server.Lifetime
import GhettoRedis.Server.Overflow

/-!
# Where a step is at fault

The connections and their buffers are no cells of the heap. A callback for a connection that was
freed, a command that reads an argument behind the end of `recv_buf` and a reply that runs over the
end of `send_buf` are faults all the same. Whether a step meets one of them, or a counter command one
of its own, is known from the state before it.
-/
namespace GhettoRedis.Memory

open Lib Protocol Commands Server

variable {n : ℕ}

/-! ### Freed connections -/

/-- The connection that a callback, or the rest of `on_cb`, uses in the next step. -/
def usedConn (v : View n) (i : Fin n) (a : Action) : Option ConnId :=
  match v.pc i, a with
  | .callback _ msg, .go => some msg.ctx.conn
  | .onCb _ c, .go => some c
  | _, _ => none

/-- It was freed. -/
def Dangling (v : View n) (i : Fin n) (a : Action) : Prop := ∃ c ∈ usedConn v i a, (v.conn c).isNone

instance (v : View n) (i : Fin n) (a : Action) : Decidable (Dangling v i a) :=
  inferInstanceAs (Decidable (∃ _ ∈ _, _))

theorem not_dangling_of_unfreed {v : View n} (unfreed : Unfreed v) (i : Fin n) (a : Action) :
    ¬ Dangling v i a := by
  rintro ⟨c, uses, freed⟩
  unfold usedConn at uses
  split at uses
  next count msg stands =>
    cases uses
    exact unfreed.callback i count msg stands (Option.isNone_iff_eq_none.mp freed)
  next count c stands =>
    cases uses
    exact unfreed.onCb i count c stands (Option.isNone_iff_eq_none.mp freed)
  next => cases uses

/-- How far `try_parse_signed_integer` looks: at the first byte, and then, up to the length, at the
digits and the byte behind them. -/
def numberReads (arg : Value) : ℕ :=
  let first := arg.bytes.headD arg.past
  let sign := if first = minus ∨ first = plus then 1 else 0
  max 1 (min arg.bytes.length (sign + ((arg.bytes.drop sign).takeWhile (IsDigit ·)).length + 1))

/-- How far `%.*s` looks: at the bytes that it prints, and at the NUL when it stops at one. -/
def printedReads (arg : Bytes) : ℕ :=
  let precision := ((BitVec.ofNat 64 arg.length).setWidth 32).toInt
  if precision = (printed arg).length then (printed arg).length else (printed arg).length + 1

/-- The argument that `handle_command` reads only up to a byte that ends it, and how far: the first
one of an unknown command, and the delta of `INCRBY` and `DECRBY`. -/
def readInPart (args : List Value) : Option (ℕ × ℕ) :=
  match lookupCommand (args.getD 0 default).bytes with
  | none => if 1 < args.length then some (1, printedReads (args.getD 1 default).bytes) else none
  | some cmd =>
    if cmd.arity ≠ args.length - 1 then none
    else
      match cmd.func with
      | .incrby | .decrby => some (2, numberReads (args.getD 2 default))
      | _ => none

/-- A request that is handed to `handle_command`, and the buffer that it stands in. -/
structure Handed where
  recv : RecvBuf
  args : CmdArgs
  values : List Value

def requested (v : View n) (i : Fin n) (a : Action) : Option Handed :=
  match v.pc i, a with
  | .serve c _, .serve outside _ =>
    (v.conn c).bind fun conn =>
      match conn.head (conn.mem outside) with
      | .request args =>
        if args.argc = 0 then none
        else some ⟨conn.recv, args, argumentValues (conn.mem outside) args⟩
      | _ => none
  | _, _ => none

/-- What is read of the argument that is read in part lies in `recv_buf`. -/
def Handed.HoldsPart (r : Handed) : Prop :=
  ∀ part ∈ readInPart r.values, ∀ s ∈ r.args.slices[part.1]?,
    r.recv.Holds (r.args.buf + s.offset) part.2

instance (r : Handed) : Decidable r.HoldsPart := inferInstanceAs (Decidable (∀ _ ∈ _, ∀ _ ∈ _, _))

/-- What a command reads of its arguments lies in `recv_buf`. -/
def ReadsInside (v : View n) (i : Fin n) (a : Action) : Prop :=
  ∀ r ∈ requested v i a, r.recv.HoldsArgs r.args (readInFull r.values) ∧ r.HoldsPart

instance (v : View n) (i : Fin n) (a : Action) : Decidable (ReadsInside v i a) :=
  inferInstanceAs (Decidable (∀ _ ∈ _, _ ∧ _))

/-- No argument that is read in full is announced as longer than the window, and one that is read in
part ends in `recv_buf`. -/
def ShortArgs (v : View n) (i : Fin n) (a : Action) : Prop :=
  ∀ r ∈ requested v i a, r.recv.Short r.args (readInFull r.values) ∧ r.HoldsPart

instance (v : View n) (i : Fin n) (a : Action) : Decidable (ShortArgs v i a) :=
  inferInstanceAs (Decidable (∀ _ ∈ _, _ ∧ _))

theorem head_of_requested {v : View n} {i : Fin n} {a : Action} {r : Handed}
    (handed : requested v i a = some r) :
    ∃ (conn : Conn) (mem : Mem), r.recv = conn.recv ∧ conn.head mem = .request r.args := by
  unfold requested at handed
  split at handed
  next c k outside env stands =>
    obtain ⟨conn, live, handed⟩ := Option.bind_eq_some_iff.mp handed
    split at handed
    next args head =>
      split at handed
      next => cases handed
      next =>
        cases handed
        exact ⟨conn, conn.mem outside, rfl, head⟩
    next => cases handed
  next => cases handed

theorem readsInside_iff_shortArgs {v : View n} {i : Fin n} {a : Action} :
    ReadsInside v i a ↔ ShortArgs v i a := by
  refine forall₂_congr fun r handed => and_congr_left' ?_
  obtain ⟨conn, mem, recv, head⟩ := head_of_requested handed
  rw [recv]
  exact holdsArgs_iff_short head

/-! ### Counters -/

/-- What a counter command needs of the value that is stored: a text that is not empty, and a sum whose
text and NUL fit into the 20 bytes of the new one. -/
def Counts (op : Commands.Op) (found : Option Value) : Prop :=
  ∀ d ∈ delta op, (∀ val ∈ found, val.bytes ≠ []) ∧
    ∀ number ∈ counter found, sprintfBytes (number + d) ≤ bufferSize

instance (op : Commands.Op) (found : Option Value) : Decidable (Counts op found) :=
  -- named, for otherwise every word of 64 bits is tried
  have _ (d : Size) : Decidable (∀ number ∈ counter found, sprintfBytes (number + d) ≤ bufferSize) :=
    Option.decidableForallMem _
  Option.decidableForallMem _

theorem sound_iff_counts {op : Commands.Op} {map map' : Hashmap} {key : Bytes} {hash : Size}
    {result : Commands.Result} (executed : Commands.cmdExec op map key hash = (map', result)) :
    Sound op (Commands.hashmapGetWithHash map key hash) result ↔
      Counts op (Commands.hashmapGetWithHash map key hash) := by
  cases is : delta op with
  | none => simp [Sound, Counts, is]
  | some d =>
    rw [cmdExec_delta is, Commands.modifyCounter, tryModifyCounter_eq] at executed
    cases counted : counter (Commands.hashmapGetWithHash map key hash) with
    | none =>
      -- the reply is zero, and nothing is stored
      rw [counted] at executed
      cases executed
      simp [Sound, Counts, is, counted]
    | some number =>
      rw [counted] at executed
      cases executed
      simp [Sound, Counts, is, counted, sprintfBytes_le_iff]

section Executes

variable [NeZero n] {cfg : Config} {v v' : View n} {i : Fin n} {a : Action} {seen : List Event}

/-- What is executed at once: a keyed command for a key of shard `i`, with what is stored there. -/
def atOnce (v : View n) (i : Fin n) (db : Size) : Outcome → Option (Commands.Op × Option Value)
  | .keyed op key =>
    if home key = i then
      some (op, Commands.hashmapGetWithHash (v.dbs i db) key (hashmapXxhash3 key 0 0))
    else none
  | _ => none

/-- The command that shard `i` executes in the next step, for its own connection or for another shard,
and what is stored under its key. -/
def executes (cfg : Config) (v : View n) (i : Fin n) (a : Action) :
    Option (Commands.Op × Option Value) :=
  match v.pc i with
  | .callback _ (.request ctx key hash fields) =>
    (v.conn ctx.conn).map fun conn =>
      (cmdPreDispatchExec fields, Commands.hashmapGetWithHash (v.dbs i conn.db) key hash)
  | _ =>
    (v.called i a).bind fun (_, conn, values, env) =>
      atOnce v i conn.db (Commands.handleCommand n cfg.numDbs env values)

/-- The step executes no counter command that meets a fault. -/
def SoundCounters (cfg : Config) (v : View n) (i : Fin n) (a : Action) : Prop :=
  ∀ e ∈ executes cfg v i a, Counts e.1 e.2

instance (cfg : Config) (v : View n) (i : Fin n) (a : Action) : Decidable (SoundCounters cfg v i a) :=
  inferInstanceAs (Decidable (∀ _ ∈ _, _))

/-- The counter commands among the events find numbers and stay within their buffers. -/
def SoundEvent : Event → Prop
  | .executed _ _ _ _ op found result => Sound op found result
  | _ => True

omit [NeZero n] in
theorem called_none (elsewhere : ∀ c k, v.pc i ≠ .serve c k) : v.called i a = none := by
  unfold View.called
  split
  next stands => exact absurd stands (elsewhere _ _)
  next => rfl

omit [NeZero n] in
theorem passes_called {pc : Pc n} (passes : Passes v i a pc) : v.called i a = none := by
  cases passes with
  | idle idle =>
    refine called_none fun c k stands => ?_
    rw [stands] at idle
    exact idle.elim
  | stopping stops =>
    refine called_none fun c k stands => ?_
    rw [stands] at stops
    cases stops
  | served stands is live nothing =>
    subst is
    simp only [View.called, stands, live, nothing]
  | looked stands | sent stands | event stands | spared stands =>
    exact called_none fun c k is => by cases stands.symm.trans is

theorem atOnce_none {db : Size} {outcome : Outcome} (plain : ∀ op key, outcome ≠ .keyed op key) :
    atOnce v i db outcome = none := by
  unfold atOnce
  split
  next => exact absurd rfl (plain _ _)
  next => rfl

omit [NeZero n] in
theorem passes_elsewhere {pc : Pc n} (passes : Passes v i a pc) (count : ℕ) (msg : Message n) :
    v.pc i ≠ .callback count msg := by
  intro stands
  cases passes with
  | idle idle =>
    rw [stands] at idle
    exact idle.elim
  | stopping stops =>
    rw [stands] at stops
    cases stops
  | served is | looked is | sent is | event is | spared is => cases stands.symm.trans is

/-- Where no callback is run and nothing is handed on, nothing is executed. -/
theorem executes_none (none : v.called i a = none)
    (elsewhere : ∀ count msg, v.pc i ≠ .callback count msg) : executes cfg v i a = Option.none := by
  unfold executes
  split
  next stands => exact absurd stands (elsewhere _ _)
  next => rw [none, Option.bind_none]

theorem executes_hands {c : ConnId} {k : Serving} {conn : Conn} {args : CmdArgs} {values : List Value}
    {env : Env} {outcome : Outcome} (hands : Hands cfg v i a c k conn args values env outcome) :
    executes cfg v i a = atOnce v i conn.db outcome := by
  simp only [executes, hands.at_serve, hands.called, Option.bind_some, hands.outcome]

/-- A step executes just what its state says. -/
theorem sound_iff (move : Move cfg v i a v' seen) :
    (∀ e ∈ seen, SoundEvent e) ↔ SoundCounters cfg v i a := by
  -- most steps execute nothing, and show nothing of that kind
  have idle (none : executes cfg v i a = none) (silent : ∀ e ∈ seen, SoundEvent e) :
      (∀ e ∈ seen, SoundEvent e) ↔ SoundCounters cfg v i a :=
    iff_of_true silent (by simp [SoundCounters, none])
  cases move with
  | quiet _ _ _ _ passes =>
    exact idle (executes_none (passes_called passes) (passes_elsewhere passes)) (by simp)
  | flush stands | dequeue stands | claim stands | dispatched stands | accept stands | receive stands =>
    exact idle (executes_none (called_none (by simp [stands])) (by simp [stands])) (by simp [SoundEvent])
  | close _ place =>
    rcases place with ⟨_, _, stands, -⟩ | ⟨stands, -⟩ <;>
      exact idle (executes_none (called_none (by simp [stands])) (by simp [stands])) (by simp [SoundEvent])
  | skip stands live empty =>
    rcases stands with stands | ⟨j, stands⟩
    · obtain ⟨outside, env, rfl, head, none⟩ := empty stands
      have nothing : v.called i (.serve outside env) = Option.none := by
        simp only [View.called, stands, live, head, if_pos none]
      exact idle (executes_none nothing (by simp [stands])) (by simp)
    · exact idle (executes_none (called_none (by simp [stands])) (by simp [stands])) (by simp)
  | refuse stands live is head =>
    refine idle (executes_none ?_ (by simp [stands])) (by simp [SoundEvent])
    subst is
    simp only [View.called, stands, live, head]
  | deliver stands =>
    refine idle ?_ (by simp [SoundEvent])
    unfold executes
    split
    next is => cases stands.symm.trans is
    next => rw [called_none (by simp [stands]), Option.bind_none]
  | answer hands answer =>
    refine idle ?_ (by simp [SoundEvent])
    rw [executes_hands hands]
    refine atOnce_none fun op key is => ?_
    subst is
    cases answer
  | flushall hands | shutdown hands =>
    exact idle (executes_hands hands) (by simp [SoundEvent])
  | dispatch hands away =>
    refine idle ?_ (by simp [SoundEvent])
    rw [executes_hands hands, atOnce, if_neg away]
  | inline hands here executed =>
    rw [SoundCounters, executes_hands hands, atOnce, if_pos here]
    simpa [SoundEvent] using sound_iff_counts executed
  | execute stands live executed =>
    simp only [SoundCounters, executes, stands, live, Option.map_some]
    simpa [SoundEvent] using sound_iff_counts executed

end Executes

end GhettoRedis.Memory
