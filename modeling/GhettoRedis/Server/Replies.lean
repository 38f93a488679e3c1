import GhettoRedis.Server.Routes

/-!
# What is replied

In every run, a reply is an error reply to a malformed request, what a command answered at
once, or the result that a keyed command left where it was executed.
-/
namespace GhettoRedis.Server

open Lib Protocol Commands

variable {n : ℕ}

/-- What a command that needs no key writes. -/
def plainWrite : Outcome → Option Write
  | .reply w => some w
  | .quit w => some w
  | .select _ w => some w
  | .flushall w => some w
  | _ => none

/-- A request with number `index` of connection `c` was handed to `handle_command`. -/
def Handled (n : ℕ) (cfg : Config) (trace : List Event) (c : ConnId) (index : ℕ)
    (outcome : Outcome) : Prop :=
  ∃ values env, .handled c index values env ∈ trace ∧
    handleCommand n cfg.numDbs env values = outcome

/-- `w` is a reply to request `index` of connection `c`. -/
inductive Answers (n : ℕ) (cfg : Config) (trace : List Event) (c : ConnId) (index : ℕ)
    (w : Write) : Prop
  | malformed : .refused c index w ∈ trace →
      w = writeSimpleGenericError (asciiBytes "parse error") ∨
        w = writeSimpleGenericError (asciiBytes "invalid argc") → Answers n cfg trace c index w
  | plain {outcome : Outcome} : Handled n cfg trace c index outcome → plainWrite outcome = some w →
      Answers n cfg trace c index w
  | keyed {op : Op} {key : Bytes} {db : Size} {found : Option Value} {result : Result} :
      Handled n cfg trace c index (.keyed op key) →
      .executed c index db key op found result ∈ trace → w = cmdResp result →
      Answers n cfg trace c index w

section Traces

variable {cfg : Config} {trace : List Event} {c : ConnId} {index : ℕ}

theorem Handled.append {outcome : Outcome} (handled : Handled n cfg trace c index outcome)
    (seen : List Event) : Handled n cfg (trace ++ seen) c index outcome := by
  obtain ⟨values, env, mem, is⟩ := handled
  exact ⟨values, env, List.mem_append_left _ mem, is⟩

theorem Answers.append {w : Write} (answers : Answers n cfg trace c index w) (seen : List Event) :
    Answers n cfg (trace ++ seen) c index w := by
  cases answers with
  | malformed refused text => exact .malformed (List.mem_append_left _ refused) text
  | plain handled writes => exact .plain (handled.append seen) writes
  | keyed handled executed is =>
    exact .keyed (handled.append seen) (List.mem_append_left _ executed) is

theorem head_malformed {conn : Conn} {mem : Mem} {w : Write} (head : conn.head mem = .malformed w) :
    w = writeSimpleGenericError (asciiBytes "parse error") ∨
      w = writeSimpleGenericError (asciiBytes "invalid argc") := by
  unfold Conn.head at head
  split at head
  · cases head
  · unfold Head.ofParse at head
    split at head <;> cases head
    · exact .inl rfl
    · exact .inr rfl

theorem plainAnswer_write {conn conn' : Conn} {outcome : Outcome} {w : Write}
    (answer : plainAnswer conn outcome = some (conn', w)) : plainWrite outcome = some w := by
  cases outcome <;> cases answer <;> rfl

end Traces

section Moves

variable [NeZero n] {cfg : Config} {v v' : View n} {i : Fin n} {a : Action}
  {seen trace : List Event}

/-- What the messages on their way and the replies go back to. -/
structure Recorded (cfg : Config) (v : View n) (trace : List Event) : Prop where
  requests : ∀ ctx key hash fields, v.mail.Holds (.request ctx key hash fields) →
    hash = hashmapXxhash3 key 0 0 ∧ ctx.dst = home key ∧
      Handled n cfg trace ctx.conn ctx.index (.keyed (cmdPreDispatchExec fields) key)
  responses : ∀ ctx fields, v.mail.Holds (.response ctx fields) →
    ∃ op key db found, .executed ctx.conn ctx.index db key op found (cmdPreResp fields) ∈ trace ∧
      Handled n cfg trace ctx.conn ctx.index (.keyed op key)
  replies : ∀ c index offset w, .replied c index offset w ∈ trace → Answers n cfg trace c index w

theorem recorded_init (n : ℕ) [NeZero n] (cfg : Config) : Recorded cfg (State.init n).view [] := by
  constructor <;> simp [State.init, State.view, View.mail, Mail.Holds, Pc.calling, Pc.sending]

theorem Hands.handled {c : ConnId} {k : Serving} {conn : Conn} {args : CmdArgs}
    {values : List Value} {env : Env} {outcome : Outcome}
    (hands : Hands cfg v i a c k conn args values env outcome) (trace rest : List Event) :
    Handled n cfg (trace ++ .handled c conn.answered values env :: rest) c conn.answered outcome :=
  ⟨values, env, by simp, hands.outcome.symm⟩

theorem Recorded.move (recorded : Recorded cfg v trace) (move : Move cfg v i a v' seen) :
    Recorded cfg v' (trace ++ seen) := by
  constructor
  · intro ctx key hash fields held
    rcases move.held held with old | new
    · obtain ⟨hash, home, handled⟩ := recorded.requests ctx key hash fields old
      exact ⟨hash, home, handled.append seen⟩
    · cases move.written new with
      | request hands is saw =>
        cases is
        refine ⟨rfl, rfl, ?_⟩
        rw [saw, cmdPreDispatchExec_cmdPreDispatch]
        exact hands.handled trace []
      | response _ is => cases is
  · intro ctx fields held
    rcases move.held held with old | new
    · obtain ⟨op, key, db, found, executed, handled⟩ := recorded.responses ctx fields old
      exact ⟨op, key, db, found, List.mem_append_left _ executed, handled.append seen⟩
    · cases move.written new with
      | request _ is => cases is
      | @response _ ctx' key hash db reqFields found result stands is saw =>
        cases is
        obtain ⟨-, -, handled⟩ :=
          recorded.requests ctx' key hash reqFields (View.holds_callback stands)
        exact ⟨_, key, db, found, by simp [saw], handled.append seen⟩
  · intro c index offset w mem
    rcases List.mem_append.mp mem with old | new
    · exact (recorded.replies c index offset w old).append seen
    · cases move with
      | quiet | flush | dequeue | skip | shutdown | dispatch | claim | dispatched | execute | accept
      | receive | close => simp at new
      | refuse _ _ _ head =>
        simp only [List.mem_cons, reduceCtorEq, Event.replied.injEq, List.not_mem_nil, or_false,
          false_or] at new
        obtain ⟨rfl, rfl, rfl, rfl⟩ := new
        exact .malformed (by simp) (head_malformed head)
      | answer hands answer =>
        simp only [List.mem_cons, reduceCtorEq, Event.replied.injEq, List.not_mem_nil, or_false,
          false_or] at new
        obtain ⟨rfl, rfl, rfl, rfl⟩ := new
        exact .plain (hands.handled _ _) (plainAnswer_write answer)
      | flushall hands =>
        simp only [List.mem_cons, reduceCtorEq, Event.replied.injEq, List.not_mem_nil, or_false,
          false_or] at new
        obtain ⟨rfl, rfl, rfl, rfl⟩ := new
        exact .plain (hands.handled _ _) rfl
      | inline hands =>
        simp only [List.mem_cons, reduceCtorEq, Event.replied.injEq, List.not_mem_nil, or_false,
          false_or] at new
        obtain ⟨rfl, rfl, rfl, rfl⟩ := new
        exact .keyed (hands.handled _ _)
          (List.mem_append_right _ (List.mem_cons_of_mem _ List.mem_cons_self)) rfl
      | @deliver _ ctx fields _ stands =>
        simp only [List.mem_singleton, Event.replied.injEq] at new
        obtain ⟨rfl, rfl, rfl, rfl⟩ := new
        obtain ⟨op, key, db, found, executed, handled⟩ :=
          recorded.responses ctx fields (View.holds_callback stands)
        exact .keyed (handled.append _) (List.mem_append_left _ executed) rfl

end Moves

end GhettoRedis.Server
