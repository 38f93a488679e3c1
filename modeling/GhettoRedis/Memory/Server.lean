import GhettoRedis.Memory.Dispatch
import GhettoRedis.Memory.Faults
import GhettoRedis.Server.SharedNothing

/-!
# The memory of the server

The server beside its memory: the tables with pointers to their buffers, and the queues with
pointers to contexts, as the shards pass them on. Memory is used as the commands do it, whatever
the order in which the shards take their steps. The connections and their buffers are those of the
server; a step that uses a freed one or leaves a buffer is at fault.
-/
namespace GhettoRedis.Memory

open Lib Protocol Commands HeapM Server

variable {n : ℕ}

/-- The heap and the pointers into it: those of the entries, those in the queues, the message that a
shard is about to send, and the `ctx` of its `reactor_poll_callbacks`. -/
structure Process (n : ℕ) where
  heap : Heap Cell
  table : List (Stored n)
  cbQueue : Fin n → List Ptr
  message : Fin n → Option Ptr
  ctx : Fin n → Option Ptr

/-- Behind `init_shards`. -/
def Process.init (n : ℕ) : Process n := ⟨⟨1, []⟩, [], fun _ => [], fun _ => none, fun _ => none⟩

/-- What a command leaves: the tables, a message to send, and a reply. -/
structure Effect (n : ℕ) where
  table : List (Stored n)
  message : Option Ptr
  reply : Option Write

/-- `handle_command`; of a command without a key only the memory that it uses is followed. -/
def handleCommand [NeZero n] (numDbs : Size) (i : Fin n) (db : Size) (env : Env) (args : List Value)
    (table : List (Stored n)) : HeapM Cell (Effect n) :=
  match lookupCommand (args.getD 0 default).bytes with
  | none => return ⟨table, none, none⟩
  | some cmd =>
    if cmd.arity ≠ args.length - 1 then return ⟨table, none, none⟩
    else do
      let (key, val) ← cmdVars cmd.func args
      match callCommand n numDbs env args cmd.func with
      | .keyed op bytes =>
        let hash := hashmapXxhash3 bytes 0 0
        -- `ALLOW_INLINE_EXEC` is 1
        if home bytes = i then
          let (table, result) ← cmdExec (Op.of val op) ⟨i, db, clipHash hash, bytes⟩ key table
          return ⟨table, none, some (cmdResp (← readResult result))⟩
        else return ⟨table, some (← cmdPreDispatch (Op.of val op) key bytes hash), none⟩
      | .flushall _ => return ⟨← cmdFlushall numDbs table, none, none⟩
      | _ => return ⟨table, none, none⟩

/-- `ctx->cb(context, arg)` -/
def callback (i : Fin n) (db : Size) (ctx : Ptr) (table : List (Stored n)) : HeapM Cell (Effect n) := do
  match ← load ctx with
  | .request key keylen hash op =>
    let (table, resp) ← cmdReq i db key keylen hash op table
    return ⟨table, some resp, none⟩
  | .response fields => return ⟨table, none, some (cmdResp (← cmdResponse fields))⟩
  | _ => fault

namespace Process

variable (m : Process n) (i : Fin n)

def run (program : List (Stored n) → HeapM Cell (Effect n)) : Option (Process n × Option Write) :=
  (program m.table m.heap).map fun (effect, heap) =>
    ({ m with heap, table := effect.table, message := Function.update m.message i effect.message },
      effect.reply)

/-- `mpmcq_dequeue` -/
def dequeue : Option (Process n) :=
  match m.cbQueue i with
  | [] => none
  | p :: rest =>
    some { m with cbQueue := Function.update m.cbQueue i rest, ctx := Function.update m.ctx i (some p) }

/-- `mpmcq_enqueue` -/
def enqueue (target : Fin n) : Process n :=
  { m with
    cbQueue := Function.update m.cbQueue target (m.cbQueue target ++ (m.message i).toList)
    message := Function.update m.message i none }

/-- What a step of shard `i` from `v` to `v'` does with memory. -/
def act [NeZero n] (cfg : Config) (v v' : View n) (a : Action) : Option (Process n × Option Write) :=
  match v.pc i with
  | .serve _ _ =>
    match v.called i a with
    | none => some (m, none)
    | some (_, conn, args, env) => m.run i (handleCommand cfg.numDbs i conn.db env args)
  -- a poll takes a pointer exactly when the server takes a message
  | .poll _ =>
    match v'.pc i with
    | .callback _ _ => (m.dequeue i).map fun m => (m, none)
    | _ => some (m, none)
  | .callback _ msg =>
    match v.conn msg.ctx.conn, m.ctx i with
    | some conn, some ctx => m.run i (callback i conn.db ctx)
    | _, _ => none
  | .send target _ _ => some (m.enqueue i target, none)
  | _ => some (m, none)

/-- `reactor_poll_callbacks` frees the context when it has called `on_cb`. -/
def leave (v' : View n) : Option (Process n) :=
  match v'.pc i, m.ctx i with
  | .poll _, some ctx =>
    (free ctx m.heap).map fun (_, heap) => { m with heap, ctx := Function.update m.ctx i none }
  | _, _ => some m

def step [NeZero n] (cfg : Config) (v v' : View n) (a : Action) : Option (Process n × Option Write) :=
  (m.act i cfg v v' a).bind fun (m, reply) => (m.leave i v').map fun m => (m, reply)

end Process

/-- What is seen of memory: a reply that was written from it, beside that of the server, and a key whose
copy is lost. -/
inductive Observation where
  | reply (server : Option Write) (memory : Write)
  | lost (key : Bytes)
  deriving DecidableEq

/-- The last reply among what is seen. -/
def lastReply (seen : List Event) : Option Write :=
  match seen.getLast? with
  | some (.replied _ _ _ w) => some w
  | _ => none

/-- The copies of keys that shard `i` loses: that of a counter command that it dispatches, and that of
an `INCRBY` or `DECRBY` that it refuses. -/
def lostKeys [NeZero n] (cfg : Config) (i : Fin n) : Event → List Bytes
  | .handled _ _ args env =>
    match lookupCommand (args.getD 0 default).bytes with
    | none => []
    | some cmd =>
      if cmd.arity ≠ args.length - 1 then []
      else
        match callCommand n cfg.numDbs env args cmd.func, cmd.func with
        | .keyed op bytes, _ => if home bytes = i ∨ delta op = none then [] else [bytes]
        | _, .incrby | _, .decrby => [(args.getD 1 default).bytes]
        | _, _ => []
  | _ => []

/-- The server with its memory; `none` behind a fault. What is allocated is never longer than what
`recv_buf` holds, and `malloc` does not fail for that. -/
def allocated [NeZero n] (cfg : Config) :
    Machine (State n × Option (Process n)) (Fin n × Action) Observation where
  step s a :=
    match Server.step cfg s.1 a.1 a.2 with
    | none => if Dangling s.1.view a.1 a.2 then some ((s.1, none), []) else none
    | some (next, seen) =>
      let lost := (seen.flatMap (lostKeys cfg a.1)).map .lost
      let after := s.2.bind fun m =>
        -- the arguments are read in `recv_buf`, and the reply goes into `send_buf`
        if ReadsInside s.1.view a.1 a.2 ∧ ∀ e ∈ seen, e.Fits then
          m.step a.1 cfg s.1.view next.view a.2
        else none
      -- the server goes on without its memory once there was a fault
      match after with
      | none => some ((next, none), lost)
      | some (m, reply) => some ((next, some m), reply.toList.map (.reply (lastReply seen)) ++ lost)

/-- A step that stays within the buffers: arguments that end in `recv_buf`, room for the reply in
`send_buf`, and counters whose texts can be read and written. -/
structure Bounded [NeZero n] (cfg : Config) (v : View n) (i : Fin n) (a : Action) : Prop where
  args : ShortArgs v i a
  room : HasRoom cfg v i a
  counters : SoundCounters cfg v i a

instance [NeZero n] (cfg : Config) (v : View n) (i : Fin n) (a : Action) : Decidable (Bounded cfg v i a) :=
  decidable_of_iff (ShortArgs v i a ∧ HasRoom cfg v i a ∧ SoundCounters cfg v i a)
    ⟨fun ⟨args, room, counters⟩ => ⟨args, room, counters⟩, fun ⟨args, room, counters⟩ =>
      ⟨args, room, counters⟩⟩

/-- Such a step that does not use a freed connection. -/
def SoundStep [NeZero n] (cfg : Config) (v : View n) (i : Fin n) (a : Action) : Prop :=
  ¬ Dangling v i a ∧ Bounded cfg v i a

instance [NeZero n] (cfg : Config) (v : View n) (i : Fin n) (a : Action) :
    Decidable (SoundStep cfg v i a) := inferInstanceAs (Decidable (_ ∧ _))

/-- Such a step that frees a connection only when no message about it is on its way. -/
def CleanStep [NeZero n] (cfg : Config) (v : View n) (i : Fin n) (a : Action) : Prop :=
  Settled v i ∧ Bounded cfg v i a

instance [NeZero n] (cfg : Config) (v : View n) (i : Fin n) (a : Action) :
    Decidable (CleanStep cfg v i a) := inferInstanceAs (Decidable (_ ∧ _))

/-! ### Commands -/

/-- Cells that nothing points to any more: copies of these keys. -/
def Lost (own : Owned Cell) (keys : List Bytes) : Prop := own.map Sigma.snd = keys.map Cell.buffer

theorem lost_nil : Lost 0 [] := rfl

theorem lost_key (p : Ptr) (key : Bytes) :
    Lost (cellAt p (.buffer key)) [key] := Multiset.map_singleton ..

theorem Lost.eq_nil {keys : List Bytes} (lost : Lost 0 keys) : keys = [] := by
  rw [Lost, Multiset.map_zero] at lost
  exact List.map_eq_nil_iff.mp (Multiset.coe_eq_zero _ |>.mp lost.symm)

theorem Lost.append {own own' : Owned Cell} {keys keys' : List Bytes} (lost : Lost own keys)
    (lost' : Lost own' keys') : Lost (own + own') (keys ++ keys') := by
  rw [Lost, Multiset.map_add, lost, lost', List.map_append, Multiset.coe_add]

section Commands

variable [NeZero n] {cfg : Config} {l : Ledger n} {dbs : Fin n → Size → Hashmap} {i : Fin n} {db : Size}
  {env : Env} {args : List Value} {op : Commands.Op} {bytes : Bytes} {map : Hashmap}
  {result : Commands.Result}

/-- How `handle_command` comes to call a command. -/
theorem calls_of_handleCommand {shards : ℕ} {numDbs : Size} {outcome : Outcome}
    (handled : Commands.handleCommand shards numDbs env args = outcome)
    (called : ∀ w, outcome ≠ .reply w) :
    ∃ cmd, lookupCommand (args.getD 0 default).bytes = some cmd ∧ ¬ cmd.arity ≠ args.length - 1 ∧
      callCommand shards numDbs env args cmd.func = outcome := by
  unfold Commands.handleCommand at handled
  split at handled
  next => exact absurd handled.symm (called _)
  next cmd found =>
    split at handled
    next => exact absurd handled.symm (called _)
    next arity => exact ⟨cmd, found, arity, handled⟩

theorem handleCommand_inline (handled : Commands.handleCommand n cfg.numDbs env args = .keyed op bytes)
    (here : home bytes = i) (nodup : l.NodupKeys) (denotes : l.Denotes dbs)
    (executed : Commands.cmdExec op (dbs i db) bytes (hashmapXxhash3 bytes 0 0) = (map, result))
    (sound : Sound op (Commands.hashmapGetWithHash (dbs i db) bytes (hashmapXxhash3 bytes 0 0)) result) :
    Triple l.cells (handleCommand cfg.numDbs i db env args l.table) fun effect own =>
      ∃ l' : Ledger n, effect = ⟨l'.table, none, some (cmdResp result)⟩ ∧ own = l'.cells ∧ l'.NodupKeys ∧
        l'.Denotes (setDb dbs i db map) := by
  obtain ⟨cmd, found, arity, keyed⟩ := calls_of_handleCommand handled nofun
  simp only [handleCommand, found, if_neg arity, keyed, if_pos here]
  refine (cmdVars_spec cmd.func args).part (zero_add _).symm ?_
  rintro ⟨key, val⟩ _ rfl
  rw [varCells_keyed keyed, add_comm]
  refine (cmdExec_spec nodup denotes executed sound).bind ?_
  rintro ⟨table, r⟩ _ ⟨l', rfl, rfl, nodup', denotes', means⟩
  refine (readResult_spec means).bind ?_
  rintro _ _ ⟨rfl, rfl⟩
  exact .pure ⟨l', rfl, rfl, nodup', denotes'⟩

/-- A dispatched counter command leaves the first copy of its key behind. -/
theorem handleCommand_dispatch (handled : Commands.handleCommand n cfg.numDbs env args = .keyed op bytes)
    (away : home bytes ≠ i) (c : ConnId) (index : ℕ) :
    Triple l.cells (handleCommand cfg.numDbs i db env args l.table) fun effect own =>
      ∃ p key val lost, effect = ⟨l.table, some p, none⟩ ∧
        own = l.cells + (requestCells p key val bytes (hashmapXxhash3 bytes 0 0) op + lost) ∧
          Lost lost (lostKeys cfg i (.handled c index args env)) := by
  obtain ⟨cmd, found, arity, keyed⟩ := calls_of_handleCommand handled nofun
  simp only [handleCommand, found, if_neg arity, keyed, if_neg away]
  refine (cmdVars_spec cmd.func args).part (zero_add _).symm ?_
  rintro ⟨key, val⟩ _ rfl
  rw [varCells_keyed keyed]
  refine (cmdPreDispatch_spec op key val bytes _).part rfl ?_
  rintro p _ ⟨ctxKey, rfl⟩
  refine .pure ⟨p, ctxKey, val, lostCells key bytes op, rfl, add_comm _ _, ?_⟩
  simp only [lostKeys, found, if_neg arity, keyed, away, false_or, lostCells]
  cases delta op with
  | none => exact lost_nil
  | some d => exact lost_key key bytes

theorem handleCommand_flushall {w : Write}
    (handled : Commands.handleCommand n cfg.numDbs env args = .flushall w) :
    Triple l.cells (handleCommand cfg.numDbs i db env args l.table) fun effect own =>
      effect = ⟨(l.spared cfg.numDbs).table, none, none⟩ ∧ own = (l.spared cfg.numDbs).cells := by
  obtain ⟨cmd, found, arity, flushes⟩ := calls_of_handleCommand handled nofun
  simp only [handleCommand, found, if_neg arity, flushes]
  refine (cmdVars_spec cmd.func args).part (zero_add _).symm ?_
  rintro ⟨key, val⟩ _ rfl
  rw [varCells_flushall flushes, zero_add]
  refine (cmdFlushall_spec l cfg.numDbs).bind ?_
  rintro _ _ ⟨rfl, rfl⟩
  exact .pure ⟨rfl, rfl⟩

/-- What the local variables of a command own that is neither executed nor dispatched. -/
theorem lost_plain {cmd : Command} {outcome : Outcome}
    (found : lookupCommand (args.getD 0 default).bytes = some cmd)
    (arity : ¬ cmd.arity ≠ args.length - 1)
    (called : callCommand n cfg.numDbs env args cmd.func = outcome)
    (plain : ∀ op bytes, outcome ≠ .keyed op bytes) (key val : Ptr) (c : ConnId) (index : ℕ) :
    Lost (varCells key val args cmd.func) (lostKeys cfg i (.handled c index args env)) := by
  simp only [lostKeys, found, if_neg arity, called]
  obtain ⟨name, arity', func⟩ := cmd
  -- only a refused `INCRBY` or `DECRBY` leaves something, the copy of its key
  cases func with
  | get | del | dispatchPing | set | incr | decr => exact absurd called.symm (plain _ _)
  | ping | echo | quit | shutdown | flushall =>
    cases called
    exact lost_nil
  | select =>
    simp only [callCommand, cmdSelect] at called
    repeat' split at called
    all_goals
      cases called
      exact lost_nil
  | incrby | decrby =>
    simp only [callCommand, cmdDelta] at called
    repeat' split at called
    case h_2.isFalse => exact absurd called.symm (plain _ _)
    all_goals
      cases called
      exact lost_key key _

theorem lostKeys_flushall {w : Write}
    (handled : Commands.handleCommand n cfg.numDbs env args = .flushall w)
    (c : ConnId) (index : ℕ) : lostKeys cfg i (.handled c index args env) = [] := by
  obtain ⟨cmd, found, arity, flushes⟩ := calls_of_handleCommand handled nofun
  have lost := lost_plain (i := i) found arity flushes nofun 0 0 c index
  rw [varCells_flushall flushes] at lost
  exact lost.eq_nil

theorem lostKeys_inline (handled : Commands.handleCommand n cfg.numDbs env args = .keyed op bytes)
    (here : home bytes = i) (c : ConnId) (index : ℕ) :
    lostKeys cfg i (.handled c index args env) = [] := by
  obtain ⟨cmd, found, arity, keyed⟩ := calls_of_handleCommand handled nofun
  simp only [lostKeys, found, if_neg arity, keyed, if_pos (Or.inl here)]

/-- A command that neither needs a key nor clears anything, or that is refused. -/
theorem handleCommand_plain {outcome : Outcome}
    (handled : Commands.handleCommand n cfg.numDbs env args = outcome)
    (plain : ∀ op bytes, outcome ≠ .keyed op bytes) (spares : ∀ w, outcome ≠ .flushall w) (c : ConnId)
    (index : ℕ) : Triple l.cells (handleCommand cfg.numDbs i db env args l.table) fun effect own =>
      ∃ lost, effect = ⟨l.table, none, none⟩ ∧ own = l.cells + lost ∧
        Lost lost (lostKeys cfg i (.handled c index args env)) := by
  unfold handleCommand
  cases found : lookupCommand (args.getD 0 default).bytes with
  | none =>
    refine .pure ⟨0, rfl, (add_zero _).symm, ?_⟩
    simp only [lostKeys, found]
    exact lost_nil
  | some cmd =>
    by_cases arity : cmd.arity ≠ args.length - 1
    · simp only [if_pos arity]
      refine .pure ⟨0, rfl, (add_zero _).symm, ?_⟩
      simp only [lostKeys, found, if_pos arity]
      exact lost_nil
    · have called : callCommand n cfg.numDbs env args cmd.func = outcome := by
        simpa only [Commands.handleCommand, found, if_neg arity] using handled
      simp only [if_neg arity]
      refine (cmdVars_spec cmd.func args).part (zero_add _).symm ?_
      rintro ⟨key, val⟩ _ rfl
      have lost := lost_plain (i := i) found arity called plain key val c index
      cases outcome with
      | keyed op bytes => exact absurd rfl (plain op bytes)
      | flushall w => exact absurd rfl (spares w)
      | reply | quit | select | shutdown =>
        simp only [called]
        exact .pure ⟨_, rfl, add_comm _ _, lost⟩

/-! ### Callbacks -/

variable {ctx : Ptr} {key val : Ptr} {hash : Size}

omit [NeZero n] in
theorem callback_request (nodup : l.NodupKeys) (denotes : l.Denotes dbs)
    (executed : Commands.cmdExec op (dbs i db) bytes hash = (map, result))
    (sound : Sound op (Commands.hashmapGetWithHash (dbs i db) bytes hash) result) :
    Triple (l.cells + requestCells ctx key val bytes hash op) (callback i db ctx l.table)
      fun effect own =>
      ∃ (l' : Ledger n) (p : Ptr) (fields : RespFields) (copied : Owned Cell),
        effect = ⟨l'.table, some p, none⟩ ∧ l'.NodupKeys ∧ l'.Denotes (setDb dbs i db map) ∧
          Copies (Commands.cmdPostDispatchExec result) fields copied ∧
          own = l'.cells + ((cellAt p (.response fields) + copied) +
            cellAt ctx (.request key bytes.length hash (Op.of val op))) := by
  refine (Triple.load (add_left_comm _ _ _)).bind ?_
  rintro _ _ ⟨rfl, rfl⟩
  refine (cmdReq_spec nodup denotes executed sound).part ((add_left_comm _ _ _).trans (add_comm _ _)) ?_
  rintro ⟨table, p⟩ _ ⟨l', fields, copied, rfl, nodup', denotes', copies, rfl⟩
  exact .pure ⟨l', p, fields, copied, rfl, nodup', denotes', copies, add_assoc _ _ _⟩

omit [NeZero n] in
theorem callback_response {fields : Commands.RespFields} {r : RespFields} {copied : Owned Cell}
    (copies : Copies fields r copied) :
    Triple (l.cells + (cellAt ctx (.response r) + copied)) (callback i db ctx l.table) fun effect own =>
      effect = ⟨l.table, none, some (cmdResp (cmdPreResp fields))⟩ ∧
        own = l.cells + cellAt ctx (.response r) := by
  refine (Triple.load (add_left_comm _ _ _)).bind ?_
  rintro _ _ ⟨rfl, rfl⟩
  refine (cmdResponse_spec copies).part ((add_assoc _ _ _).symm.trans (add_comm _ _)) ?_
  rintro _ _ ⟨rfl, rfl⟩
  exact .pure ⟨rfl, zero_add _⟩

end Commands

end GhettoRedis.Memory
