import GhettoRedis.Server.Delivered
import GhettoRedis.Server.Flow

/-!
# Inline and dispatched execution

A keyed command does the same to its connection and to the databases on whatever shard its
connection is: on the home shard of the key it is executed at once, elsewhere its request
goes to the home shard and the response comes back.
-/
namespace GhettoRedis.Server

open Lib Protocol Commands

variable {n : ℕ}

/-! ### Keyed commands -/

/-- The commands of `DEFINE_COMMAND`. -/
def keyedFunc : CommandFunc → Bool
  | .get | .set | .del | .incr | .decr | .incrby | .decrby | .dispatchPing => true
  | _ => false

/-- The arguments of a keyed command that pass the check of its arity. -/
def Keyed (values : List Value) : Prop :=
  ∃ cmd, lookupCommand (values.getD 0 default).bytes = some cmd ∧ keyedFunc cmd.func = true ∧
    cmd.arity = values.length - 1

/-- The key of a keyed command. -/
def keyOf (values : List Value) : Bytes := (values.getD 1 default).bytes

/-- A keyed command is refused by its `CMD_VARS`, or executed on its key. -/
theorem handleCommand_keyed {shards : ℕ} {numDbs : Size} {env : Env} {values : List Value}
    (keyed : Keyed values) :
    (∃ w, handleCommand shards numDbs env values = .reply w) ∨
      ∃ op, handleCommand shards numDbs env values = .keyed op (keyOf values) := by
  obtain ⟨cmd, found, func, arity⟩ := keyed
  rw [handleCommand, found]
  simp only [ne_eq, arity, not_true_eq_false, if_false]
  have delta (op : Size → Op) : (∃ w, cmdDelta op (keyOf values) (values.getD 2 default) = .reply w) ∨
      ∃ op', cmdDelta op (keyOf values) (values.getD 2 default) = .keyed op' (keyOf values) := by
    unfold cmdDelta
    split
    · exact .inl ⟨_, rfl⟩
    · split
      · exact .inl ⟨_, rfl⟩
      · exact .inr ⟨_, rfl⟩
  cases is : cmd.func with
  | get | set | del | incr | decr | dispatchPing => exact .inr ⟨_, rfl⟩
  | incrby | decrby => exact delta _
  | ping | echo | quit | shutdown | flushall | select => simp [is, keyedFunc] at func

/-! ### One command under way -/

/-- A command that was dispatched, and the database and contents that it found. -/
structure Errand (n : ℕ) where
  ctx : CBContext n
  key : Bytes
  op : Op
  db : Size
  dbs : Fin n → Size → Hashmap

namespace Errand

variable (e : Errand n)

def request : Message n := .request e.ctx e.key (hashmapXxhash3 e.key 0 0) (cmdPreDispatch e.op)

/-- The database that it leaves, and its result. -/
def executed : Hashmap × Result :=
  cmdExec e.op (e.dbs e.ctx.dst e.db) e.key (hashmapXxhash3 e.key 0 0)

def response : Message n :=
  .response ⟨e.ctx.dst, e.ctx.src, e.ctx.conn, e.ctx.index⟩ (cmdPostDispatchExec e.executed.2)

/-- The databases behind it. -/
def after : Fin n → Size → Hashmap :=
  Function.update e.dbs e.ctx.dst (Function.update (e.dbs e.ctx.dst) e.db e.executed.1)

end Errand

/-- Nothing is interleaved with request `index` of connection `c`: `on_data_available` finds
nothing to hand on, and no callback of another request runs. -/
def Alone (c : ConnId) (index : ℕ) (v : View n) (i : Fin n) (a : Action) : Prop :=
  (∀ d k outside env, v.pc i = .serve d k → a = .serve outside env → ∀ conn, v.conn d = some conn →
    conn.head (conn.mem outside) = .nothing) ∧
  ∀ count m, v.pc i = .callback count m → m.ctx.conn = c ∧ m.ctx.index = index

/-- The messages about the connection are these, between its shard and the home shard. -/
structure View.Between (v : View n) (ctx : CBContext n) (forth back : List (Message n)) : Prop where
  forth : ∀ t, v.forth ctx.conn ctx.src t = if t = ctx.dst then forth else []
  back : ∀ t, v.back ctx.conn ctx.src t = if t = ctx.dst then back else []

/-- No message is under way, and the connection has got its reply. -/
structure Rests (ctx : CBContext n) (dbs : Fin n → Size → Hashmap) (reply : Bytes) (v : View n)
    (trace : List Event) : Prop where
  between : v.Between ctx [] []
  same : v.dbs = dbs
  answer : appended ctx.conn trace = reply

/-- How far an errand has come. -/
inductive Errand.Stage (e : Errand n) (v : View n) (trace : List Event) : Prop
  | asked : v.Between e.ctx [e.request] [] → v.dbs = e.dbs →
      (∀ db, v.selected e.ctx.conn = some db → db = e.db) →
      (∀ index offset w, .replied e.ctx.conn index offset w ∉ trace) → Stage e v trace
  | executed : v.Between e.ctx [] [e.response] → v.dbs = e.after →
      (∀ index offset w, .replied e.ctx.conn index offset w ∉ trace) → Stage e v trace
  | answered : Rests e.ctx e.after (cmdResp e.executed.2).text v trace → Stage e v trace

@[simp] theorem appended_handled (c d : ConnId) (index : ℕ) (values : List Value) (env : Env)
    (trace : List Event) : appended c (.handled d index values env :: trace) = appended c trace := rfl

@[simp] theorem appended_executed (c d : ConnId) (index : ℕ) (db : Size) (key : Bytes) (op : Op)
    (found : Option Value) (result : Result) (trace : List Event) :
    appended c (.executed d index db key op found result :: trace) = appended c trace := rfl

@[simp] theorem appended_replied_self (c : ConnId) (index offset : ℕ) (w : Write)
    (trace : List Event) :
    appended c (.replied c index offset w :: trace) = w.text ++ appended c trace := by
  simp [appended]

theorem View.setDb_self (v : View n) (i : Fin n) (db : Size) :
    (v.setDb i db (v.dbs i db)).dbs = v.dbs := by
  simp [View.setDb]

theorem appended_of_unreplied {c : ConnId} {trace : List Event}
    (none : ∀ index offset w, .replied c index offset w ∉ trace) : appended c trace = [] := by
  rw [appended, List.flatMap_eq_nil_iff]
  intro e mem
  cases e with
  | replied d index offset w =>
    have other : d ≠ c := by
      rintro rfl
      exact none index offset w mem
    simp [other]
  | _ => rfl

theorem unreplied_append {c : ConnId} {trace seen : List Event}
    (none : ∀ index offset w, .replied c index offset w ∉ trace)
    (none' : ∀ index offset w, .replied c index offset w ∉ seen) :
    ∀ index offset w, .replied c index offset w ∉ trace ++ seen := by
  intro index offset w mem
  rcases List.mem_append.mp mem with old | new
  · exact none index offset w old
  · exact none' index offset w new

/-- Where the only message of some lanes is taken, they are empty. -/
theorem lane_of_taken {lane lane' : Fin n → List (Message n)} {m : Message n} {h : Fin n}
    {front : Fin n → Option (Message n)} (before : ∀ t, lane t = if t = h then [m] else [])
    (takes : ∀ t, lane t = (front t).toList ++ lane' t) (some : front h = some m) :
    ∀ t, lane' t = [] := by
  intro t
  have taken := (takes t).symm.trans (before t)
  by_cases here : t = h
  · subst here
    simpa [some] using taken
  · rw [if_neg here, List.append_eq_nil_iff] at taken
    exact taken.2

section Moves

variable [NeZero n] {cfg : Config} {v v' : View n} {i : Fin n} {a : Action} {seen trace : List Event}
  {e : Errand n}

omit [NeZero n] in
theorem View.Between.frame {ctx : CBContext n} {forth back : List (Message n)}
    (between : v.Between ctx forth back) (lanes : SameLanes v v') : v'.Between ctx forth back := by
  constructor
  · exact fun t => (lanes.forth _ _ t).trans (between.forth t)
  · exact fun t => (lanes.back _ _ t).trans (between.back t)

omit [NeZero n] in
theorem View.Between.of_mail {ctx : CBContext n} {forth back : List (Message n)}
    (between : v.Between ctx forth back) (mail : v'.mail = v.mail) : v'.Between ctx forth back := by
  apply between.frame
  constructor
  · intro c j t
    rw [View.forth, mail, View.forth]
  · intro c j t
    rw [View.back, mail, View.back]

omit [NeZero n] in
/-- A message about the connection goes to or comes from its shard. -/
theorem route {ctx : CBContext n} (routed : Routed v) (owner : v.Belongs ctx.conn ctx.src)
    {count : ℕ} {m : Message n} {conn : Conn} (stands : v.pc i = .callback count m)
    (live : v.conn m.ctx.conn = some conn) (about : m.ctx.conn = ctx.conn) :
    m.ctx.dst = i ∧ m.owner = ctx.src := by
  have mem : m ∈ v.mail.inbox i := by simp [View.inbox_callback stands]
  refine ⟨(routed.inbox i m mem).1, ?_⟩
  have own := (routed.owner m (View.holds_callback stands)).2 conn live
  have own' := owner.2 conn (about ▸ live)
  exact Fin.ext (own.symm.trans own')

/-- What a step can be to a command with which nothing is interleaved. -/
inductive AloneMove (ctx : CBContext n) (v v' : View n) (i : Fin n) : List Event → Prop
  | silent {seen : List Event} : (∀ x ∈ seen, x.Silent) → v'.dbs = v.dbs → SameLanes v v' →
      v.KeepsSelected v' → AloneMove ctx v v' i seen
  /-- The request at the front of a lane is executed. -/
  | execute {ctx' : CBContext n} {key : Bytes} {hash : Size} {fields : ReqFields} {conn : Conn}
      {db' : Hashmap} {result : Result} {found : Option Value} {m m' : Message n} :
      ctx'.conn = ctx.conn → ctx'.src = ctx.src → ctx'.dst = i → m = .request ctx' key hash fields →
      v.conn ctx.conn = some conn →
      cmdExec (cmdPreDispatchExec fields) (v.dbs i conn.db) key hash = (db', result) →
      m' = .response ⟨ctx'.dst, ctx'.src, ctx'.conn, ctx'.index⟩ (cmdPostDispatchExec result) →
      v'.dbs = (v.setDb i conn.db db').dbs →
      (∀ t, v.forth ctx.conn ctx.src t =
        (Message.forth ctx.conn ctx.src t m).toList ++ v'.forth ctx.conn ctx.src t) →
      (∀ t, v'.back ctx.conn ctx.src t =
        v.back ctx.conn ctx.src t ++ (Message.back ctx.conn ctx.src t m').toList) →
      AloneMove ctx v v' i
        [.executed ctx'.conn ctx'.index conn.db key (cmdPreDispatchExec fields) found result]
  /-- The response at the front of a lane is delivered. -/
  | deliver {ctx' : CBContext n} {fields : RespFields} {offset : ℕ} {m : Message n} :
      ctx'.conn = ctx.conn → ctx'.dst = ctx.src → m = .response ctx' fields → v'.dbs = v.dbs →
      (∀ t, v'.forth ctx.conn ctx.src t = v.forth ctx.conn ctx.src t) →
      (∀ t, v.back ctx.conn ctx.src t =
        (Message.back ctx.conn ctx.src t m).toList ++ v'.back ctx.conn ctx.src t) →
      AloneMove ctx v v' i [.replied ctx'.conn ctx'.index offset (cmdResp (cmdPreResp fields))]

theorem Move.alone (routed : Routed v) (move : Move cfg v i a v' seen) {ctx : CBContext n}
    (owner : v.Belongs ctx.conn ctx.src) (alone : Alone ctx.conn ctx.index v i a) :
    AloneMove ctx v v' i seen := by
  have idle {c : ConnId} {k : Serving} {conn : Conn} {args : CmdArgs} {values : List Value} {env : Env}
      {outcome : Outcome} (hands : Hands cfg v i a c k conn args values env outcome) : False := by
    obtain ⟨outside, is, head, -⟩ := hands.head
    -- `Alone` keeps the connection from another request
    have nothing := alone.1 c k outside env hands.at_serve is conn hands.live
    simp [head] at nothing
  cases move.flow routed with
  | silent silent dbs lanes keeps => exact .silent silent dbs lanes keeps
  | @refuse c k conn outside env w stands is live malformed =>
    have nothing := alone.1 c k outside env stands is conn live
    simp [malformed] at nothing
  | answer hands | flushall hands | shutdown hands | inline hands | dispatch hands =>
    exact (idle hands).elim
  | @execute count ctx' key hash fields conn db' result m m' stands is live executed is' dbs forth
      back =>
    subst is
    have about : ctx'.conn = ctx.conn := (alone.2 count _ stands).1
    -- it is the way of the errand
    obtain ⟨dst, src⟩ := route routed owner stands live about
    rw [about] at live
    exact .execute about src dst rfl live executed is' dbs (forth _ _) (back _ _)
  | @deliver count ctx' fields conn m stands is live dbs forth back =>
    subst is
    have about : ctx'.conn = ctx.conn := (alone.2 count _ stands).1
    obtain ⟨-, dst⟩ := route routed owner stands live about
    exact .deliver about dst rfl dbs (forth _ _) (back _ _)

omit [NeZero n] in
theorem Rests.move {ctx : CBContext n} {dbs : Fin n → Size → Hashmap} {reply : Bytes}
    (rests : Rests ctx dbs reply v trace) (move : AloneMove ctx v v' i seen) :
    Rests ctx dbs reply v' (trace ++ seen) := by
  cases move with
  | silent silent same lanes =>
    refine ⟨rests.between.frame lanes, same.trans rests.same, ?_⟩
    have none (index offset w) : .replied ctx.conn index offset w ∉ seen := fun mem => silent _ mem
    rw [appended_append, appended_of_unreplied none, List.append_nil, rests.answer]
  | execute about src dst is _ _ _ _ forth =>
    -- there is no request to execute
    have front := (forth i).symm.trans (rests.between.forth i)
    rw [ite_self, List.append_eq_nil_iff, is, Message.forth, if_pos ⟨about, src, dst⟩] at front
    cases front.1
  | @deliver ctx' fields offset m about dst is _ _ back =>
    have front := (back ctx'.src).symm.trans (rests.between.back ctx'.src)
    rw [ite_self, List.append_eq_nil_iff, is, Message.back, if_pos ⟨about, dst, rfl⟩] at front
    cases front.1

omit [NeZero n] in
theorem Errand.Stage.move (stage : e.Stage v trace) (known : e.ctx.conn < v.nextConn)
    (move : AloneMove e.ctx v v' i seen) : e.Stage v' (trace ++ seen) := by
  cases stage with
  | answered rests => exact .answered (rests.move move)
  | asked between same selected unreplied =>
    cases move with
    | silent silent dbs lanes keeps =>
      apply Errand.Stage.asked (between.frame lanes) (dbs.trans same)
      · intro db is
        -- the connection keeps its database
        rcases keeps _ db is with before | ⟨new, -⟩
        · exact selected db before
        · exact absurd known (Nat.not_lt.mpr new)
      · exact unreplied_append unreplied fun index offset w mem => silent _ mem
    | @execute ctx' key hash fields conn db' result found m m' about src dst is live executed is' dbs
        forth back =>
      subst is
      have front := between.forth i
      rw [forth, Message.forth, if_pos ⟨about, src, dst⟩, Option.toList_some] at front
      split at front
      next here =>
        -- it is the request of the errand, on its home shard
        obtain ⟨is, -⟩ := List.cons.inj front
        subst here
        cases is
        have db : conn.db = e.db := selected conn.db (by simp [View.selected, live])
        rw [cmdPreDispatchExec_cmdPreDispatch, db, same] at executed
        obtain rfl : e.executed.1 = db' := congrArg Prod.fst executed
        obtain rfl : e.executed.2 = result := congrArg Prod.snd executed
        apply Errand.Stage.executed
        · constructor
          · intro t
            rw [ite_self]
            exact lane_of_taken between.forth forth (if_pos ⟨rfl, rfl, rfl⟩) t
          · intro t
            rw [back, between.back, ite_self, is']
            by_cases here : t = e.ctx.dst
            · subst here
              simp [Message.back, Errand.response]
            · simp [Message.back, here, Ne.symm here]
        · rw [dbs, db, View.setDb, same]
          rfl
        · apply unreplied_append unreplied
          simp
      next => cases front
    | @deliver ctx' fields offset m about dst is _ _ back =>
      have front := between.back ctx'.src
      -- no response of the errand is there yet
      rw [back, ite_self, List.append_eq_nil_iff, is, Message.back, if_pos ⟨about, dst, rfl⟩] at front
      cases front.1
  | executed between same unreplied =>
    cases move with
    | silent silent dbs lanes keeps =>
      apply Errand.Stage.executed (between.frame lanes) (dbs.trans same)
      exact unreplied_append unreplied fun index offset w mem => silent _ mem
    | execute about src dst is _ _ _ _ forth =>
      have front := between.forth i
      -- and no second request
      rw [forth, ite_self, List.append_eq_nil_iff, is, Message.forth, if_pos ⟨about, src, dst⟩] at front
      cases front.1
    | @deliver ctx' fields offset m about dst is dbs forth back =>
      subst is
      have front := between.back ctx'.src
      rw [back, Message.back, if_pos ⟨about, dst, rfl⟩, Option.toList_some] at front
      split at front
      next here =>
        -- it is the response of the errand, back where it was asked
        obtain ⟨is, -⟩ := List.cons.inj front
        cases is
        apply Errand.Stage.answered
        constructor
        · constructor
          · intro t
            rw [forth, between.forth]
          · intro t
            rw [ite_self]
            exact lane_of_taken between.back back (if_pos ⟨rfl, rfl, rfl⟩) t
        · exact dbs.trans same
        · rw [appended_append, appended_of_unreplied unreplied]
          simp [appended]
      next => cases front

end Moves

/-! ### The first step -/

/-- The same state with other contents of the databases. -/
def State.load (s : State n) (dbs : Fin n → Size → Hashmap) : State n :=
  { s with shard := fun i => { s.shard i with dbs := dbs i } }

section Runs

variable [NeZero n] {cfg : Config} {s s' : State n} {i : Fin n} {a : Action} {c : ConnId} {k : Serving}
  {conn : Conn} {args : CmdArgs} {values : List Value} {env : Env} {outcome : Outcome}
  {seen : List Event}

/-- A request is handed on by `on_data_available`, and its outcome carried out. -/
theorem Hands.step (hands : Hands cfg s.view i a c k conn args values env outcome) :
    step cfg s i a = some ((stepHandle cfg s i c conn args k outcome).1,
      .handled c conn.answered values env :: (stepHandle cfg s i c conn args k outcome).2) := by
  obtain ⟨outside, rfl, head, rfl⟩ := hands.head
  have stands : (s.shard i).pc = .serve c k := hands.at_serve
  have live : s.conn c = some conn := hands.live
  rw [hands.outcome]
  simp only [Server.step, stands, live, Option.map_some, stepServe, head, if_neg hands.argc]

omit [NeZero n] in
/-- The request is the only message when it is sent. -/
theorem View.Between.sends {v : View n} {ctx : CBContext n} {key : Bytes} {hash : Size}
    {fields : ReqFields} {t : Fin n} {k' : Sending} (between : v.Between ctx [] [])
    (stands : v.pc ctx.src = .serve c k) :
    (v.goto ctx.src (.send t (.request ctx key hash fields) k')).Between ctx
      [.request ctx key hash fields] [] := by
  have empty : (v.pc ctx.src).sending = [] := by simp [stands, Pc.sending]
  have mail : (v.goto ctx.src (.send t (.request ctx key hash fields) k')).mail =
      v.mail.push ctx.src (.request ctx key hash fields) := View.mail_dispatch stands
  constructor
  · intro t
    rw [View.forth, lane_dispatch (addressed_forth _ _ _) empty mail rfl]
    change v.forth _ _ t ++ _ = _
    rw [between.forth, ite_self, List.nil_append, Message.forth]
    by_cases here : t = ctx.dst
    · simp [here]
    · simp [here, Ne.symm here]
  · intro t
    rw [View.back, lane_dispatch (addressed_back _ _ _) empty mail rfl]
    change v.back _ _ t ++ _ = _
    rw [between.back, back_request, Option.toList_none, List.append_nil]

omit [NeZero n] in
theorem View.Quiet.between {v : View n} {ctx : CBContext n} (quiet : v.Quiet ctx.conn) :
    v.Between ctx [] [] := by
  have about {sel : Message n → Option (Message n)} (j t : Fin n)
      (is : ∀ m m', sel m = some m' → m.ctx.conn = ctx.conn) : v.mail.lane sel j t = [] := by
    apply List.eq_nil_iff_forall_not_mem.mpr
    intro m mem
    -- no message of the connection is there
    obtain ⟨m', place, selects⟩ := Mail.mem_lane.mp mem
    apply quiet.held _ (is m' m selects)
    exact place.elim (fun mem => ⟨t, .inl mem⟩) fun mem => ⟨j, .inr mem⟩
  constructor
  · intro t
    rw [ite_self]
    apply about
    intro m m' selects
    cases m with
    | request ctx' => exact ((Option.ite_none_right_eq_some ..).mp selects).1.1
    | response => cases selects
  · intro t
    rw [ite_self]
    apply about
    intro m m' selects
    cases m with
    | request => cases selects
    | response ctx' => exact ((Option.ite_none_right_eq_some ..).mp selects).1.1

end Runs

/-! ### The command from its first step to its reply -/

section Agreement

variable [NeZero n]

/-- In a state that can be reached, whatever the databases contain, shard `i` hands a command to
`handle_command`, and nothing else of its connection is under way. -/
structure Issues (cfg : Config) (values : List Value) (env : Env) (s : State n) (i : Fin n)
    (a : Action) (c : ConnId) (conn : Conn) : Prop where
  reached : ∃ s₀ before dbs, (server cfg).Reaches (State.init n) s₀ before ∧ s = s₀.load dbs
  quiet : s.view.Quiet c
  hands : ∃ k args, Hands cfg s.view i a c k conn args values env
    (handleCommand n cfg.numDbs env values)

/-- The command runs to its reply, with nothing interleaved. -/
structure Completes (cfg : Config) (s : State n) (i : Fin n) (a : Action) (c : ConnId) (index : ℕ)
    (t : State n) (trace : List Event) : Prop where
  run : ∃ s' seen rest, step cfg s i a = some (s', seen) ∧
    (server cfg).Run (fun s a => Alone c index s.view a.1 a.2) s' t rest ∧ trace = seen ++ rest
  answered : ∃ offset w, .replied c index offset w ∈ trace

/-- What a keyed command does to the selected database of the home shard, and its reply. -/
def effect (n : ℕ) (cfg : Config) (values : List Value) (env : Env) (db : Hashmap) :
    Hashmap × Bytes :=
  match handleCommand n cfg.numDbs env values with
  | .reply w => (db, w.text)
  | .keyed op key =>
    ((cmdExec op db key (hashmapXxhash3 key 0 0)).1,
      (cmdResp (cmdExec op db key (hashmapXxhash3 key 0 0)).2).text)
  | _ => (db, [])

variable {cfg : Config} {values : List Value} {env : Env} {s t : State n} {i : Fin n} {a : Action}
  {c : ConnId} {conn : Conn} {trace : List Event}

theorem Issues.routed (issues : Issues cfg values env s i a c conn) : Routed s.view := by
  obtain ⟨s₀, before, dbs, run, rfl⟩ := issues.reached
  obtain ⟨routed, -⟩ := reaches_invariant (fun _ _ => True) (routed_init n) trivial
    (fun _ _ _ => trivial) run
  exact ⟨routed.inbox, routed.outbox, routed.target, routed.owner, routed.conns, routed.live⟩

theorem alone_invariant {ctx : CBContext n} (inv : View n → List Event → Prop) {rest : List Event}
    (routed : Routed s.view) (owner : s.view.Belongs ctx.conn ctx.src) (initial : inv s.view [])
    (preserved : ∀ {v v' : View n} {i : Fin n} {trace seen : List Event},
      ctx.conn < v.nextConn → inv v trace → AloneMove ctx v v' i seen → inv v' (trace ++ seen))
    (run : (server cfg).Run (fun s a => Alone ctx.conn ctx.index s.view a.1 a.2) s t rest) :
    inv t.view rest := by
  obtain ⟨-, -, holds⟩ := run_invariant (fun v trace => v.Belongs ctx.conn ctx.src ∧ inv v trace)
    routed ⟨owner, initial⟩ (fun routed both alone move =>
      ⟨both.1.keep move.keeps, preserved both.1.1 both.2 (move.alone routed both.1 alone)⟩) run
  exact holds

/-- A command that is answered in its first step. -/
theorem rests_of_run {ctx : CBContext n} {rest : List Event} (routed : Routed s.view)
    (owner : s.view.Belongs ctx.conn ctx.src) (between : s.view.Between ctx [] [])
    (run : (server cfg).Run (fun s a => Alone ctx.conn ctx.index s.view a.1 a.2) s t rest) :
    t.view.dbs = s.view.dbs ∧ appended ctx.conn rest = [] := by
  have rests := alone_invariant (Rests ctx s.view.dbs []) routed owner ⟨between, rfl, rfl⟩
    (fun _ rests move => rests.move move) run
  exact ⟨rests.same, rests.answer⟩

/-- A command whose request was sent to its home shard. -/
theorem answered_of_run {e : Errand n} {rest : List Event} (routed : Routed s.view)
    (owner : s.view.Belongs e.ctx.conn e.ctx.src) (stage : e.Stage s.view [])
    (run : (server cfg).Run (fun s a => Alone e.ctx.conn e.ctx.index s.view a.1 a.2) s t rest)
    (answered : ∃ index offset w, .replied e.ctx.conn index offset w ∈ rest) :
    t.view.dbs = e.after ∧ appended e.ctx.conn rest = (cmdResp e.executed.2).text := by
  obtain ⟨index, offset, w, mem⟩ := answered
  have stage := alone_invariant e.Stage routed owner stage
    (fun known stage move => stage.move known move) run
  cases stage with
  | answered rests => exact ⟨rests.same, rests.answer⟩
  | asked _ _ _ unreplied => exact absurd mem (unreplied index offset w)
  | executed _ _ unreplied => exact absurd mem (unreplied index offset w)

/-- Whatever shard the connection is on, the command has its effect on the home shard of the key,
the connection gets its reply, and no other database changes. -/
theorem Completes.effect (keyed : Keyed values) (issues : Issues cfg values env s i a c conn)
    (completes : Completes cfg s i a c conn.answered t trace) :
    appended c trace =
        (effect n cfg values env ((s.shard (home (keyOf values))).dbs conn.db)).2 ∧
      t.view.dbs = (s.view.setDb (home (keyOf values)) conn.db
        (Server.effect n cfg values env ((s.shard (home (keyOf values))).dbs conn.db)).1).dbs := by
  obtain ⟨s', seen, rest, taken, run, rfl⟩ := completes.run
  obtain ⟨k, args, hands⟩ := issues.hands
  have move := move_of_step taken
  have routed := issues.routed.move move
  have stepped := hands.step
  rw [taken, Option.some.injEq, Prod.mk.injEq] at stepped
  obtain ⟨rfl, rfl⟩ := stepped
  let ctx : CBContext n := ⟨i, home (keyOf values), c, conn.answered⟩
  have owner : View.Belongs _ ctx.conn ctx.src :=
    (issues.routed.conns i c (by simp [hands.at_serve, Pc.conns])).keep move.keeps
  have between : s.view.Between ctx [] [] := issues.quiet.between
  have index : ∃ index offset w, Event.replied c index offset w ∈ _ := ⟨_, completes.answered⟩
  unfold Server.effect
  rcases @handleCommand_keyed _ _ env _ keyed with ⟨w, is⟩ | ⟨op, is⟩
  · -- it is answered at once, without the databases
    rw [is] at hands run routed owner ⊢
    have mail : (s.finishRequest i c (conn.write w) args true k).view.mail = s.view.mail := by
      rw [view_finishRequest, View.mail_finishRequest hands.calm.1 hands.calm.2.1]
    obtain ⟨dbs, none⟩ := rests_of_run routed owner (between.of_mail mail) run
    refine ⟨?_, dbs.trans ?_⟩
    · have is : appended c rest = [] := none
      simp [stepHandle, is]
    · simp only [stepHandle, view_finishRequest, View.finishRequest_dbs]
      exact (s.view.setDb_self ..).symm
  · rw [is] at hands run routed owner index ⊢
    by_cases here : home (keyOf values) = i
    · simp only [stepHandle, stepKeyed_home here rfl] at run routed owner ⊢
      -- the key is at home here: no message is sent
      have quiet (db : Hashmap) (conn' : Conn) : View.Between
          ((s.setDb i conn.db db).finishRequest i c conn' args true k).view ctx [] [] := by
        apply between.of_mail
        rw [view_finishRequest, view_setDb]
        exact View.mail_finishRequest hands.calm.1 hands.calm.2.1
      obtain ⟨dbs, none⟩ := rests_of_run routed owner (quiet _ _) run
      have is : appended c rest = [] := none
      refine ⟨?_, dbs.trans ?_⟩
      · rw [here]
        simp [is]
      · simp only [view_finishRequest, View.finishRequest_dbs, view_setDb, here]
    · -- the request is under way
      simp only [stepHandle, stepKeyed_away here] at run routed owner index ⊢
      let e : Errand n := ⟨ctx, keyOf values, op, conn.db, s.view.dbs⟩
      have stage : e.Stage (s.goto i (.send (home (keyOf values)) e.request (.request c args k))).view
          [] := by
        rw [view_goto]
        apply Errand.Stage.asked (between.sends hands.at_serve) rfl
        · intro db is
          have live := hands.live
          simpa [View.selected, e, ctx, live, eq_comm] using is
        · simp
      have answered : ∃ index offset w, .replied e.ctx.conn index offset w ∈ rest := by
        simpa using index
      obtain ⟨dbs, text⟩ := answered_of_run routed owner stage run answered
      refine ⟨?_, dbs⟩
      rw [List.singleton_append, appended_handled]
      exact text

end Agreement

end GhettoRedis.Server
