import GhettoRedis.Server.Routes

/-!
# What `main` frees

The threads of the shards and the thread of `main`, which joins them one after the other
and frees the context of each as soon as it has joined it: the databases and the queue of
a shard are gone while the threads behind it still run.
-/
namespace GhettoRedis.Server

open Lib Protocol Commands

variable {n : ℕ}

/-- The whole process. `freed` counts the contexts that `main` has freed; `closedBy` names the
shard that closed a connection behind its loop, which the code does not keep. -/
structure Process (n : ℕ) where
  server : State n
  freed : ℕ
  closedBy : ConnId → Option (Fin n)

/-- Who takes the next step: a shard, or `main`. -/
inductive Turn (n : ℕ) where
  | shard (i : Fin n) (a : Action)
  | main

/-! ### What a step gets hold of -/

/-- The shard into whose queue the thread puts a message. -/
def Pc.enqueuing : Pc n → Option (Fin n)
  | .send t _ _ | .publish t _ => some t
  | _ => none

/-- Whether the thread is inside of the loop of `reactor_run`. -/
def Pc.inLoop : Pc n → Bool
  | .closing _ | .exited => false
  | _ => true

def Pc.hasExited : Pc n → Bool
  | .exited => true
  | _ => false

/-- The command that shard `i` calls in this step. -/
def State.calls (cfg : Config) (s : State n) (i : Fin n) (a : Action) : Option Outcome :=
  (s.view.called i a).map fun request =>
    handleCommand n cfg.numDbs request.2.2.2 request.2.2.1

/-- The databases of shard `j` are read, changed or cleared in a step of shard `i`:
`cmd_flushall` goes through all of them, a keyed command and a `__cmd_##name##_req` look into
those of the shard that they run on. -/
inductive State.Uses [NeZero n] (cfg : Config) (s : State n) (i : Fin n) (a : Action) (j : Fin n) :
    Prop
  | flushall {w : Write} : s.calls cfg i a = some (.flushall w) → State.Uses cfg s i a j
  | inline {op : Op} {key : Bytes} : s.calls cfg i a = some (.keyed op key) → home key = i → j = i →
      State.Uses cfg s i a j
  | callback {count : ℕ} {ctx : CBContext n} {key : Bytes} {hash : Size} {fields : ReqFields} :
      (s.shard i).pc = .callback count (.request ctx key hash fields) → j = i →
      State.Uses cfg s i a j

/-- The connection that shard `i` closes in this step, being behind its loop. -/
def State.closes (s : State n) (i : Fin n) : Option ConnId :=
  match (s.shard i).pc with
  | .closing c => if (s.owned i c).isSome then some c else none
  | _ => none

/-! ### The process -/

namespace Process

def init (n : ℕ) : Process n := ⟨State.init n, 0, fun _ => none⟩

variable (p : Process n)

/-- The context of shard `j` has been freed. -/
def Freed (j : Fin n) : Prop := j.val < p.freed

def step [NeZero n] (cfg : Config) : Turn n → Option (Process n × List Event)
  | .shard i a => (Server.step cfg p.server i a).map fun next =>
      ({ p with
          server := next.1
          closedBy := fun c => if p.server.closes i = some c then some i else p.closedBy c },
        next.2)
  | .main =>
    -- `pthread_join` returns once the thread has left `run_loop`; `free_context` comes right behind
    if below : p.freed < n then
      if (p.server.shard ⟨p.freed, below⟩).pc.hasExited then
        some ({ p with freed := p.freed + 1 }, [])
      else none
    else none

/-- No other thread has a use for the context that `main` is about to free: no thread in its
loop holds a message about one of the shard's connections or puts one into its queue. -/
def Deserted : Prop :=
  ∀ i j : Fin n, j.val = p.freed → (p.server.shard i).pc.inLoop = true →
    (p.server.shard i).pc.enqueuing ≠ some j ∧
      ∀ m ∈ p.server.view.mail.inbox i ++ p.server.view.mail.outbox i, m.owner ≠ j

instance : Decidable p.Deserted := inferInstanceAs (Decidable (∀ _ _, _ → _ → _ ∧ ∀ _ ∈ _, _))

/-- The command can do without the contexts that `main` has freed. -/
def spares [NeZero n] : Option Outcome → Bool
  | some (.flushall _) => p.freed = 0
  | some (.keyed _ key) => p.freed ≤ (home (n := n) key).val
  | _ => true

/-- `main` frees what is deserted, and no command is called that needs what it has freed. -/
def Orderly [NeZero n] (cfg : Config) : Turn n → Prop
  | .main => p.Deserted
  | .shard i a => p.spares (p.server.calls cfg i a) = true

instance [NeZero n] (cfg : Config) : ∀ turn, Decidable (p.Orderly cfg turn)
  | .main => inferInstanceAs (Decidable p.Deserted)
  | .shard i a => inferInstanceAs (Decidable (p.spares (p.server.calls cfg i a) = true))

end Process

theorem Pc.eq_of_hasExited {pc : Pc n} (exited : pc.hasExited = true) : pc = .exited := by
  unfold Pc.hasExited at exited
  split at exited
  · rfl
  · cases exited

theorem Pc.inLoop_of_sending {pc : Pc n} {m : Message n} (sending : m ∈ pc.sending) :
    pc.inLoop = true := by
  cases pc <;> first | rfl | simp [Pc.sending] at sending

theorem Pc.Idle.enqueuing {pc : Pc n} (idle : pc.Idle) : pc.enqueuing = none := by
  cases pc <;> first | rfl | exact idle.elim

@[simp] theorem Serving.enqueuing_pc (c : ConnId) (k : Serving) : (k.pc c : Pc n).enqueuing = none := by
  cases k <;> rfl

theorem finishRequest_enqueuing (v : View n) (i : Fin n) (c : ConnId) (conn : Conn) (args : CmdArgs)
    (answered : Bool) (k : Serving) :
    ((v.finishRequest i c conn args answered k).pc i).enqueuing = none := by
  rw [View.finishRequest, View.goto_pc_self]
  split
  · rfl
  · exact k.enqueuing_pc c

theorem Passes.enqueuing {v : View n} {i : Fin n} {a : Action} {pc : Pc n} (passes : Passes v i a pc) :
    pc.enqueuing = none := by
  cases passes with
  | idle _ idle => exact idle.enqueuing
  | stopping _ stops =>
    rcases Pc.eq_of_stopping stops with ⟨j, rfl⟩ | ⟨j, rfl⟩ | ⟨j, rfl⟩ <;> rfl
  | served => exact Serving.enqueuing_pc _ _
  | looked => split <;> rfl
  | event => split <;> rfl
  | sent | spared => rfl

section Steps

variable [NeZero n] {cfg : Config} {s s' : State n} {i : Fin n} {a : Action} {seen : List Event}

theorem calls_of_hands {c : ConnId} {k : Serving} {conn : Conn} {args : CmdArgs}
    {values : List Value} {env : Env} {outcome : Outcome}
    (hands : Hands cfg s.view i a c k conn args values env outcome) :
    s.calls cfg i a = some outcome := by
  rw [State.calls, hands.called, hands.outcome]
  rfl

/-- A thread that has left its loop does not enter it again. -/
theorem left_of_step (taken : step cfg s i a = some (s', seen))
    (left : (s.shard i).pc.inLoop = false) : (s'.shard i).pc.inLoop = false := by
  unfold step at taken
  cases stands : (s.shard i).pc with
  | closing c =>
    rw [stands] at taken
    cases a with
    | go =>
      dsimp only at taken
      split at taken
      · split at taken <;> cases taken <;> simp [Pc.inLoop]
      · cases taken
        simp [Pc.inLoop]
    | serve | wait | accept | read => cases taken
  | exited =>
    rw [stands] at taken
    cases a <;> cases taken
  | _ => simp [stands, Pc.inLoop] at left

theorem not_exited_of_step (taken : step cfg s i a = some (s', seen)) : (s.shard i).pc ≠ .exited := by
  intro stands
  unfold step at taken
  rw [stands] at taken
  cases a <;> cases taken

variable {v v' : View n}

/-- A thread that puts a message into a queue has just been called for a keyed command, or
answers a request. -/
theorem Move.enqueuing (move : Move cfg v i a v' seen) {t : Fin n}
    (puts : (v'.pc i).enqueuing = some t) :
    (v.pc i).enqueuing = some t ∨
      (∃ c k conn args values env op key,
        Hands cfg v i a c k conn args values env (.keyed op key) ∧ home key = t) ∨
      ∃ count ctx key hash fields, v.pc i = .callback count (.request ctx key hash fields) ∧
        ctx.src = t := by
  cases move with
  | quiet _ _ _ _ passes => simp [passes.enqueuing] at puts
  | flush | dequeue | shutdown | deliver | accept => simp [Pc.enqueuing] at puts
  | skip | answer | flushall | inline | dispatched => simp [finishRequest_enqueuing] at puts
  | refuse => simp at puts
  | dispatch hands =>
    simp only [View.goto_pc_self, Pc.enqueuing, Option.some.injEq] at puts
    exact .inr (.inl ⟨_, _, _, _, _, _, _, _, hands, puts⟩)
  | claim stands =>
    simp only [View.goto_pc_self, Pc.enqueuing, Option.some.injEq] at puts
    exact .inl (by rw [stands, Pc.enqueuing, puts])
  | execute stands =>
    simp only [View.goto_pc_self, Pc.enqueuing, Option.some.injEq] at puts
    exact .inr (.inr ⟨_, _, _, _, _, stands, puts⟩)
  | receive _ _ _ _ goes => rcases goes with rfl | ⟨rfl, -⟩ <;> simp [Pc.enqueuing] at puts
  | close _ place => rcases place with ⟨_, _, _, rfl, _⟩ | ⟨_, rfl, _⟩ <;> simp [Pc.enqueuing] at puts

/-- Where a message of one shard comes from. -/
theorem Move.arrived (move : Move cfg v i a v' seen) {j : Fin n} {m : Message n}
    (mem : m ∈ v'.mail.inbox j ++ v'.mail.outbox j) :
    m ∈ v.mail.inbox j ++ v.mail.outbox j ∨ m ∈ v.mail.outbox i ∨ (v'.pc i).sending = [m] := by
  rw [List.mem_append] at mem ⊢
  -- by the one thing that a step does to the mailboxes
  cases move.mail with
  | still mail => exact .inl (mail ▸ mem)
  | @pass t m' k stands mail =>
    rw [mail] at mem
    rcases mem with mem | mem
    · by_cases target : j = t
      · subst target
        rcases List.mem_append.mp (by simpa [Mail.pass] using mem) with old | moved
        · exact .inl (.inl old)
        · exact .inr (.inl moved)
      · exact .inl (.inl (by simpa [Mail.pass, Function.update_of_ne target] using mem))
    · by_cases same : j = i
      · subst same
        simp [Mail.pass] at mem
      · exact .inl (.inr (by simpa [Mail.pass, Function.update_of_ne same] using mem))
  | dispatch _ _ _ goes mail =>
    rw [mail] at mem
    refine mem.elim (fun mem => .inl (.inl mem)) fun mem => ?_
    by_cases same : j = i
    · subst same
      obtain rfl := by simpa [Mail.push] using mem
      exact .inr (.inr (by rw [goes, Pc.sending]))
    · exact .inl (.inr (by simpa [Mail.push, Function.update_of_ne same] using mem))
  | execute _ goes mail =>
    rw [mail] at mem
    by_cases same : j = i
    · subst same
      rcases mem with mem | mem
      · exact .inl (.inl (List.mem_of_mem_tail (by simpa [Mail.push, Mail.pop] using mem)))
      · obtain rfl := by simpa [Mail.push] using mem
        exact .inr (.inr (by rw [goes, Pc.sending]))
    · exact .inl (by simpa [Mail.push, Mail.pop, Function.update_of_ne same] using mem)
  | deliver _ mail =>
    rw [mail] at mem
    by_cases same : j = i
    · subst same
      -- a callback that has run leaves the batch
      refine .inl (mem.imp_left fun mem => ?_)
      exact List.mem_of_mem_tail (by simpa [Mail.pop] using mem)
    · exact .inl (by simpa [Mail.pop, Function.update_of_ne same] using mem)

/-- What a step does not use it leaves alone. -/
theorem Move.unused (move : Move cfg s.view i a v' seen) {j : Fin n} (unused : ¬ s.Uses cfg i a j) :
    v'.dbs j = (s.shard j).dbs := by
  have other {db : Size} {map : Hashmap} (away : j ≠ i) :
      (s.view.setDb i db map).dbs j = (s.shard j).dbs :=
    Function.update_of_ne away _ _
  cases move with
  | flushall hands => exact absurd (.flushall (calls_of_hands hands)) unused
  | inline hands here =>
    exact other fun same => unused (.inline (calls_of_hands hands) here same)
  | @execute count ctx key hash fields conn db' result stands =>
    exact other fun same => unused (.callback stands same)
  | quiet | flush | dequeue | skip | refuse | answer | shutdown | dispatch | claim | dispatched
  | deliver | accept | receive | close => rfl

end Steps

/-! ### Runs -/

/-- Nothing under way leads to a context that `main` has freed. -/
structure Process.Kept (p : Process n) : Prop where
  exited : ∀ j, p.Freed j → (p.server.shard j).pc = .exited
  mail : ∀ i, (p.server.shard i).pc.inLoop = true →
    ∀ m ∈ p.server.view.mail.inbox i ++ p.server.view.mail.outbox i, ¬ p.Freed m.owner
  target : ∀ i t, (p.server.shard i).pc.enqueuing = some t → ¬ p.Freed t
  dead : ∀ c j, p.closedBy c = some j → p.server.conn c = none ∧ c < p.server.nextConn
  names : ∀ m, p.server.view.mail.Holds m → ∀ j, p.closedBy m.ctx.conn = some j → m.owner = j

section Runs

variable [NeZero n] {cfg : Config} {p p' : Process n} {i : Fin n} {a : Action} {seen : List Event}

omit [NeZero n] in
theorem Process.Freed.earlier {j : Fin n} (freed : { p with freed := p.freed + 1 }.Freed j) :
    p.Freed j ∨ j.val = p.freed :=
  Nat.lt_succ_iff_lt_or_eq.mp freed

omit [NeZero n] in
/-- `main` frees the next context. -/
theorem Process.Kept.free (kept : p.Kept) (deserted : p.Deserted) (below : p.freed < n)
    (exited : (p.server.shard ⟨p.freed, below⟩).pc.hasExited = true) :
    { p with freed := p.freed + 1 }.Kept := by
  constructor
  · intro j freed
    rcases freed.earlier with before | new
    · exact kept.exited j before
    · obtain rfl : j = ⟨p.freed, below⟩ := Fin.ext new
      exact Pc.eq_of_hasExited exited
  · intro i looping m mem freed
    rcases freed.earlier with before | new
    · exact kept.mail i looping m mem before
    · exact (deserted i m.owner new looping).2 m mem rfl
  · intro i t puts freed
    rcases freed.earlier with before | new
    · exact kept.target i t puts before
    · -- a thread that puts a message into a queue is in its loop
      have looping : (p.server.shard i).pc.inLoop = true := by
        cases stands : (p.server.shard i).pc <;>
          first | rfl | (rw [stands] at puts; cases puts)
      exact (deserted i t new looping).1 puts
  · exact kept.dead
  · exact kept.names

omit [NeZero n] in
theorem live_of_closes {s : State n} {c : ConnId} (closes : s.closes i = some c) :
    (s.shard i).pc = .closing c ∧ ∃ conn, s.conn c = some conn ∧ conn.shardId = i.val := by
  unfold State.closes at closes
  split at closes
  next stands =>
    split at closes
    next owned =>
      cases closes
      exact ⟨stands, owned_of_isSome owned⟩
    next => cases closes
  next => cases closes

/-- The connection that a shard closes behind its loop is gone. -/
theorem gone_of_closes {s s' : State n} {c : ConnId} (routed : Routed s.view)
    (closes : s.closes i = some c) (taken : Server.step cfg s i a = some (s', seen)) :
    s'.conn c = none := by
  obtain ⟨stands, conn, live, own⟩ := live_of_closes closes
  have old : c < s.nextConn := routed.live c conn live
  have owned : (s.owned i c).isSome = true := by simp [State.owned, live, own]
  unfold Server.step at taken
  rw [stands] at taken
  cases a with
  | go =>
    dsimp only at taken
    rw [if_pos old, if_pos owned] at taken
    cases taken
    simp
  | serve | wait | accept | read => cases taken

omit [NeZero n] in
theorem Process.dead_next {v v' : View n} {c : ConnId} (keeps : v.Keeps v')
    (dead : v.conn c = none ∧ c < v.nextConn) : v'.conn c = none ∧ c < v'.nextConn := by
  refine ⟨?_, dead.2.trans_le keeps.1⟩
  cases found : v'.conn c with
  | none => rfl
  | some conn =>
    rcases keeps.2 c conn found with ⟨conn', before, -⟩ | ⟨new, -⟩
    · simp [dead.1] at before
    · exact absurd dead.2 (Nat.not_lt.mpr new)

omit [NeZero n] in
theorem Process.Kept.callback (kept : p.Kept) {count : ℕ} {msg : Message n}
    (stands : (p.server.shard i).pc = .callback count msg) : ¬ p.Freed msg.owner := by
  have calling : msg ∈ p.server.view.mail.inbox i := by
    rw [View.inbox_callback (v := p.server.view) stands]
    exact List.mem_cons_self
  exact kept.mail i (by rw [stands]; rfl) msg (List.mem_append_left _ calling)

/-- A shard takes a step. -/
theorem Process.Kept.step (kept : p.Kept) (routed : Routed p.server.view)
    (spares : p.spares (p.server.calls cfg i a) = true)
    (steps : p.step cfg (.shard i a) = some (p', seen)) : p'.Kept := by
  obtain ⟨⟨s', seen'⟩, taken, is⟩ := Option.map_eq_some_iff.mp steps
  cases is
  have move := move_of_step taken
  have running : ¬ p.Freed i := fun freed => not_exited_of_step taken (kept.exited i freed)
  -- a thread in its loop has been there before
  have looped (j) (looping : (s'.shard j).pc.inLoop = true) :
      (p.server.shard j).pc.inLoop = true := by
    by_cases same : j = i
    · subst same
      by_contra left
      rw [left_of_step taken (by simpa using left)] at looping
      cases looping
    · rwa [show (s'.shard j).pc = (p.server.shard j).pc from move.pc_of_ne same] at looping
  have closing {j : Fin n} {c : ConnId}
      (closed : (if p.server.closes i = some c then some i else p.closedBy c) = some j) :
      p.server.closes i = some c ∧ j = i ∨ p.closedBy c = some j := by
    split at closed
    next closes => exact .inl ⟨closes, (Option.some.inj closed).symm⟩
    next => exact .inr closed
  constructor
  · intro j freed
    have other : j ≠ i := fun same => running (same ▸ freed)
    exact (move.pc_of_ne other).trans (kept.exited j freed)
  · intro j looping m mem
    rcases move.arrived mem with old | moved | new
    · exact kept.mail j (looped j looping) m old
    · exact kept.mail i (Pc.inLoop_of_sending moved) m (List.mem_append_right _ moved)
    · cases move.written new with
      | request _ is =>
        subst is
        exact running
      | response stands is =>
        -- the answer is about the connection of the request
        have same : ¬ p.Freed (Message.request _ _ _ _).owner := kept.callback stands
        subst is
        exact same
  · intro j t puts
    by_cases same : j = i
    · subst same
      rcases move.enqueuing puts with old | ⟨c, k, conn, args, values, env, op, key, hands, rfl⟩ |
        ⟨count, ctx, key, hash, fields, stands, rfl⟩
      · exact kept.target j t old
      · -- the command itself is what has to be looked at
        rw [calls_of_hands hands] at spares
        exact Nat.not_lt.mpr (by simpa [Process.spares] using spares)
      · exact kept.callback stands
    · have puts : ((p.server.shard j).pc).enqueuing = some t := by
        rwa [show (s'.shard j).pc = (p.server.shard j).pc from move.pc_of_ne same] at puts
      exact kept.target j t puts
  · intro c j closed
    rcases closing closed with ⟨closes, rfl⟩ | before
    · obtain ⟨-, conn, live, -⟩ := live_of_closes closes
      exact ⟨gone_of_closes routed closes taken, (routed.live c conn live).trans_le move.keeps.1⟩
    · exact Process.dead_next move.keeps (kept.dead c j before)
  · intro m held j closed
    rcases move.held held with old | new
    · rcases closing closed with ⟨closes, rfl⟩ | before
      · obtain ⟨-, conn, live, own⟩ := live_of_closes closes
        exact Fin.ext (((routed.owner m old).2 conn live).symm.trans own)
      · exact kept.names m old j before
    · -- nobody closes a connection in the step in which he writes a message
      have before : p.closedBy m.ctx.conn = some j := by
        rcases closing closed with ⟨closes, -⟩ | before
        · obtain ⟨stands, -⟩ := live_of_closes closes
          have left := left_of_step taken (by rw [stands]; rfl)
          rw [Pc.inLoop_of_sending (new ▸ List.mem_cons_self)] at left
          cases left
        · exact before
      cases move.written new with
      | request hands is =>
        subst is
        have gone : p.server.view.conn _ = none := (kept.dead _ j before).1
        exact absurd (hands.live.symm.trans gone) (Option.some_ne_none _)
      | response stands is =>
        subst is
        exact kept.names _ (View.holds_callback stands) j before

omit [NeZero n] in
theorem Process.kept_init : (Process.init n).Kept := by
  constructor
  · intro j freed
    exact absurd freed (Nat.not_lt_zero _)
  · intro i _ m mem
    simp [init, State.init, State.view, View.mail, Pc.calling, Pc.sending] at mem
  · intro i t puts
    cases puts
  · intro c j closed
    cases closed
  · intro m held j closed
    cases closed

end Runs

end GhettoRedis.Server
