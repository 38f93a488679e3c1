import GhettoRedis.Server.Replies

/-!
# The flow of the commands

What a step is to the commands: which of them it hands to `handle_command`, executes or
answers, how the messages between the shard of a connection and a home shard move on, and
what becomes of the databases and of the one that each connection has selected.
-/
namespace GhettoRedis.Server

open Lib Protocol Commands

variable {n : ℕ}

/-! ### Lanes -/

/-- A request of connection `c` on its way from its shard `j` to shard `t`. -/
def Message.forth (c : ConnId) (j t : Fin n) : Message n → Option (Message n)
  | .request ctx key hash fields =>
    if ctx.conn = c ∧ ctx.src = j ∧ ctx.dst = t then some (.request ctx key hash fields) else none
  | .response _ _ => none

/-- A response on its way back. -/
def Message.back (c : ConnId) (j t : Fin n) : Message n → Option (Message n)
  | .request _ _ _ _ => none
  | .response ctx fields =>
    if ctx.conn = c ∧ ctx.dst = j ∧ ctx.src = t then some (.response ctx fields) else none

@[simp] theorem forth_response (c : ConnId) (j t : Fin n) (ctx : CBContext n) (fields : RespFields) :
    Message.forth c j t (.response ctx fields) = none := rfl

@[simp] theorem back_request (c : ConnId) (j t : Fin n) (ctx : CBContext n) (key : Bytes)
    (hash : Size) (fields : ReqFields) :
    Message.back c j t (.request ctx key hash fields) = none := rfl

theorem addressed_forth (c : ConnId) (j t : Fin n) : Addressed (Message.forth c j t) j t := by
  intro m b selects
  cases m with
  | request ctx =>
    simp only [Message.forth, Option.ite_none_right_eq_some] at selects
    exact selects.1.2
  | response => cases selects

theorem addressed_back (c : ConnId) (j t : Fin n) : Addressed (Message.back c j t) t j := by
  intro m b selects
  cases m with
  | request => cases selects
  | response ctx =>
    simp only [Message.back, Option.ite_none_right_eq_some] at selects
    exact selects.1.2.symm

namespace View

variable (v : View n) (c : ConnId) (j t : Fin n)

/-- The requests of connection `c` on their way from its shard `j` to shard `t`, the oldest first. -/
def forth : List (Message n) := v.mail.lane (Message.forth c j t) j t

/-- The responses on their way back. -/
def back : List (Message n) := v.mail.lane (Message.back c j t) t j

/-- The database that a connection has selected. -/
def selected : Option Size := (v.conn c).map Conn.db

end View

/-! ### What a step is to the commands -/

/-- No command is handed on, executed or answered. -/
def Event.Silent : Event → Prop
  | .handled _ _ _ _ | .executed _ _ _ _ _ _ _ | .replied _ _ _ _ => False
  | _ => True

/-- No message joins or leaves a lane. -/
structure SameLanes (v v' : View n) : Prop where
  forth : ∀ c j t, v'.forth c j t = v.forth c j t
  back : ∀ c j t, v'.back c j t = v.back c j t

/-- No connection selects a database; a new one starts with the first. -/
def View.KeepsSelected (v v' : View n) : Prop :=
  ∀ c db, v'.selected c = some db → v.selected c = some db ∨ v.nextConn ≤ c ∧ db = 0

inductive FlowMove [NeZero n] (cfg : Config) (v v' : View n) (i : Fin n) (a : Action) :
    List Event → Prop
  | silent {seen : List Event} : (∀ e ∈ seen, e.Silent) → v'.dbs = v.dbs → SameLanes v v' →
      v.KeepsSelected v' → FlowMove cfg v v' i a seen
  | refuse {c : ConnId} {k : Serving} {conn : Conn} {outside : Mem} {env : Env} {w : Write} :
      v.pc i = .serve c k → a = .serve outside env → v.conn c = some conn →
      conn.head (conn.mem outside) = .malformed w → v'.dbs = v.dbs → SameLanes v v' →
      v'.selected = v.selected →
      FlowMove cfg v v' i a
        [.refused c conn.answered w, .replied c conn.answered conn.sendBuf.length w]
  | answer {c : ConnId} {conn conn' : Conn} {args : CmdArgs} {k : Serving} {values : List Value}
      {env : Env} {outcome : Outcome} {w : Write} :
      Hands cfg v i a c k conn args values env outcome →
      plainAnswer conn outcome = some (conn', w) → v'.dbs = v.dbs → SameLanes v v' →
      v'.selected = Function.update v.selected c (some conn'.db) →
      FlowMove cfg v v' i a
        [.handled c conn.answered values env, .replied c conn.answered conn.sendBuf.length w]
  | flushall {c : ConnId} {conn : Conn} {args : CmdArgs} {k : Serving} {values : List Value}
      {env : Env} {w : Write} :
      Hands cfg v i a c k conn args values env (.flushall w) →
      v'.dbs = (v.flushAll cfg.numDbs).dbs → SameLanes v v' → v'.selected = v.selected →
      FlowMove cfg v v' i a
        [.handled c conn.answered values env, .replied c conn.answered conn.sendBuf.length w]
  | shutdown {c : ConnId} {conn : Conn} {args : CmdArgs} {k : Serving} {values : List Value}
      {env : Env} :
      Hands cfg v i a c k conn args values env .shutdown →
      v'.dbs = v.dbs → SameLanes v v' → v'.selected = v.selected →
      FlowMove cfg v v' i a [.handled c conn.answered values env]
  | inline {c : ConnId} {conn : Conn} {args : CmdArgs} {k : Serving} {values : List Value}
      {env : Env} {op : Op} {key : Bytes} {db' : Hashmap} {result : Result} :
      Hands cfg v i a c k conn args values env (.keyed op key) → home key = i →
      cmdExec op (v.dbs i conn.db) key (hashmapXxhash3 key 0 0) = (db', result) →
      v'.dbs = (v.setDb i conn.db db').dbs → SameLanes v v' → v'.selected = v.selected →
      FlowMove cfg v v' i a
        [.handled c conn.answered values env,
          .executed c conn.answered conn.db key op
            (hashmapGetWithHash (v.dbs i conn.db) key (hashmapXxhash3 key 0 0)) result,
          .replied c conn.answered conn.sendBuf.length (cmdResp result)]
  | dispatch {c : ConnId} {conn : Conn} {args : CmdArgs} {k : Serving} {values : List Value}
      {env : Env} {op : Op} {key : Bytes} {m : Message n} :
      Hands cfg v i a c k conn args values env (.keyed op key) → home key ≠ i →
      m = .request ⟨i, home key, c, conn.answered⟩ key (hashmapXxhash3 key 0 0) (cmdPreDispatch op) →
      v'.dbs = v.dbs →
      (∀ d j t, v'.forth d j t = v.forth d j t ++ (Message.forth d j t m).toList) →
      (∀ d j t, v'.back d j t = v.back d j t) → v'.selected = v.selected →
      FlowMove cfg v v' i a [.handled c conn.answered values env]
  | execute {count : ℕ} {ctx : CBContext n} {key : Bytes} {hash : Size} {fields : ReqFields}
      {conn : Conn} {db' : Hashmap} {result : Result} {m m' : Message n} :
      v.pc i = .callback count m → m = .request ctx key hash fields →
      v.conn ctx.conn = some conn →
      cmdExec (cmdPreDispatchExec fields) (v.dbs i conn.db) key hash = (db', result) →
      m' = .response ⟨ctx.dst, ctx.src, ctx.conn, ctx.index⟩ (cmdPostDispatchExec result) →
      v'.dbs = (v.setDb i conn.db db').dbs →
      (∀ d j t, v.forth d j t = (Message.forth d j t m).toList ++ v'.forth d j t) →
      (∀ d j t, v'.back d j t = v.back d j t ++ (Message.back d j t m').toList) →
      v'.selected = v.selected →
      FlowMove cfg v v' i a
        [.executed ctx.conn ctx.index conn.db key (cmdPreDispatchExec fields)
          (hashmapGetWithHash (v.dbs i conn.db) key hash) result]
  | deliver {count : ℕ} {ctx : CBContext n} {fields : RespFields} {conn : Conn} {m : Message n} :
      v.pc i = .callback count m → m = .response ctx fields → v.conn ctx.conn = some conn →
      v'.dbs = v.dbs → (∀ d j t, v'.forth d j t = v.forth d j t) →
      (∀ d j t, v.back d j t = (Message.back d j t m).toList ++ v'.back d j t) →
      v'.selected = v.selected →
      FlowMove cfg v v' i a
        [.replied ctx.conn ctx.index conn.sendBuf.length (cmdResp (cmdPreResp fields))]

/-! ### Selected databases -/

theorem finish_db (conn : Conn) (args : CmdArgs) (answered : Bool) :
    (conn.finish args answered).2.db = conn.db := by
  unfold Conn.finish
  split
  · rfl
  · split <;> rfl

theorem selected_of_update {v v' : View n} {c : ConnId} {conn : Conn}
    (conns : v'.conn = Function.update v.conn c (some conn)) :
    v'.selected = Function.update v.selected c (some conn.db) := by
  funext d
  by_cases here : d = c
  · subst here
    simp [View.selected, conns]
  · simp [View.selected, conns, Function.update_of_ne here]

theorem selected_of_touch {v v' : View n} {c : ConnId} {conn conn' : Conn}
    (live : v.conn c = some conn) (conns : v'.conn = Function.update v.conn c (some conn'))
    (same : conn'.db = conn.db) : v'.selected = v.selected := by
  rw [selected_of_update conns, same, Function.update_eq_self_iff]
  simp [View.selected, live]

theorem View.KeepsSelected.of_same {v v' : View n} (same : v'.selected = v.selected) :
    v.KeepsSelected v' := by
  intro c db is
  exact .inl (same ▸ is)

section Moves

variable [NeZero n] {cfg : Config} {v v' : View n} {i : Fin n} {a : Action} {seen : List Event}

theorem Move.sameLanes (routed : Routed v) (move : Move cfg v i a v' seen)
    (calling : (v.pc i).calling = []) (sending : (v'.pc i).sending = []) : SameLanes v v' := by
  constructor
  · exact fun c j t => move.lane_still routed (addressed_forth c j t) calling sending
  · exact fun c j t => move.lane_still routed (addressed_back c j t) calling sending

/-- Every step is one of these to the commands. -/
theorem Move.flow (routed : Routed v) (move : Move cfg v i a v' seen) :
    FlowMove cfg v v' i a seen := by
  have still := fun calling sending => move.sameLanes routed calling sending
  have after (w : View n) (c conn args answered k) :
      ((w.finishRequest i c conn args answered k).pc i).sending = [] :=
    (finishRequest_calm w i c conn args answered k).2.1
  cases move with
  | quiet calm calm' =>
    have lanes := still calm.1 (by simpa using calm'.2.1)
    exact .silent (by simp) rfl lanes (.of_same rfl)
  | flush stands live =>
    have lanes := still (by simp [stands, Pc.calling]) (by simp [Pc.sending])
    exact .silent (by simp [Event.Silent]) rfl lanes (.of_same (selected_of_touch live rfl rfl))
  | dequeue stands =>
    have lanes := still (by simp [stands, Pc.calling]) (by simp [Pc.sending])
    exact .silent (by simp) rfl lanes (.of_same rfl)
  | skip stands live =>
    have calling : (v.pc i).calling = [] := by
      rcases stands with stands | ⟨j, stands⟩ <;> simp [stands, Pc.calling]
    have lanes := still calling (after ..)
    exact .silent (by simp) rfl lanes (.of_same (selected_of_touch live rfl (finish_db ..)))
  | @refuse c conn k outside env w stands live is malformed =>
    have lanes := still (by simp [stands, Pc.calling]) (by simpa using (k.calm_pc c).2.1)
    exact .refuse stands is live malformed rfl lanes (selected_of_touch live rfl rfl)
  | @answer c conn conn' args k values env outcome w hands answer =>
    have lanes := still hands.calm.1 (after ..)
    have selects : (v.finishRequest i c conn' args true k).selected =
        Function.update v.selected c (some (conn'.finish args true).2.db) := selected_of_update rfl
    rw [finish_db] at selects
    exact .answer hands answer rfl lanes selects
  | flushall hands =>
    have lanes := still hands.calm.1 (after ..)
    exact .flushall hands rfl lanes (selected_of_touch hands.live rfl (finish_db ..))
  | shutdown hands =>
    have lanes := still hands.calm.1 (by simp [Pc.sending])
    exact .shutdown hands rfl lanes rfl
  | inline hands here executed =>
    have lanes := still hands.calm.1 (after ..)
    exact .inline hands here executed rfl lanes (selected_of_touch hands.live rfl (finish_db ..))
  | @dispatch c conn args k values env op key hands elsewhere =>
    let m : Message n :=
      .request ⟨i, home key, c, conn.answered⟩ key (hashmapXxhash3 key 0 0) (cmdPreDispatch op)
    have mail : (v.goto i (.send (home key) m (.request c args k))).mail = v.mail.push i m :=
      View.mail_dispatch hands.at_serve
    have forth (d j t) := lane_dispatch (addressed_forth d j t) hands.calm.2.1 mail rfl
    have back (d j t) := lane_dispatch (addressed_back d j t) hands.calm.2.1 mail rfl
    simp only [m, back_request, Option.toList_none, List.append_nil] at back
    exact .dispatch hands elsewhere rfl rfl forth back rfl
  | @claim t msg k stands =>
    have lanes := still (by simp [stands, Pc.calling]) (by simp [Pc.sending])
    exact .silent (by simp) rfl lanes (.of_same rfl)
  | dispatched stands live =>
    have lanes := still (by simp [stands, Pc.calling]) (after ..)
    exact .silent (by simp) rfl lanes (.of_same (selected_of_touch live rfl (finish_db ..)))
  | @execute count ctx key hash fields conn db' result stands live executed =>
    have mem : .request ctx key hash fields ∈ v.mail.inbox i := by simp [View.inbox_callback stands]
    have here : ctx.dst = i := (routed.inbox i _ mem).1
    let m' : Message n :=
      .response ⟨ctx.dst, ctx.src, ctx.conn, ctx.index⟩ (cmdPostDispatchExec result)
    have mail : ((v.setDb i conn.db db').goto i (.send ctx.src m' (.response ctx.conn count))).mail =
        (v.mail.pop i).push i m' := View.mail_execute (v := v.setDb i conn.db db') stands
    have forth (d j t) := lane_execute routed (addressed_forth d j t) stands mail here
    have back (d j t) := lane_execute routed (addressed_back d j t) stands mail here
    simp only [m', forth_response, Option.toList_none, List.append_nil] at forth
    simp only [back_request, Option.toList_none, List.nil_append] at back
    exact .execute stands rfl live executed rfl rfl forth (fun d j t => (back d j t).symm) rfl
  | @deliver count ctx fields conn stands live =>
    let conn' : Conn := { conn.write (cmdResp (cmdPreResp fields)) with
      flags := { conn.flags with dispatchWaiting := false } }
    have mail : ((v.setConn ctx.conn (some conn')).goto i (.onCb count ctx.conn)).mail = v.mail.pop i :=
      View.mail_deliver (v := v.setConn ctx.conn (some conn')) stands
    have forth (d j t) := lane_deliver routed (addressed_forth d j t) stands mail
    have back (d j t) := lane_deliver routed (addressed_back d j t) stands mail
    simp only [forth_response, Option.toList_none, List.nil_append] at forth
    exact .deliver stands rfl live rfl (fun d j t => (forth d j t).symm) back
      (selected_of_touch live rfl rfl)
  | @accept es recv stands =>
    have lanes := still (by simp [stands, Pc.calling]) (by simp [Pc.sending])
    refine .silent (by simp [Event.Silent]) rfl lanes fun c db is => ?_
    by_cases new : c = v.nextConn
    · subst new
      refine .inr ⟨le_rfl, ?_⟩
      simpa [View.selected, View.goto, View.setConn, Conn.accepted] using is.symm
    · exact .inl (by simpa [View.selected, View.goto, View.setConn, Function.update_of_ne new] using is)
  | @receive c hup es conn recv ending pc r stands live is ends goes =>
    have sending : pc.sending = [] := by
      rcases goes with rfl | ⟨rfl, -⟩ <;> rw [Pc.sending] <;> simp
    have lanes := still (by simp [stands, Pc.calling]) (by rw [View.goto_pc_self]; exact sending)
    exact .silent (by simp) rfl lanes (.of_same (selected_of_touch live rfl rfl))
  | @close c conn pc live place =>
    have calm : (v.pc i).calling = [] ∧ pc.sending = [] := by
      rcases place with ⟨hup, es, stands, rfl, -⟩ | ⟨stands, rfl, -⟩ <;> simp [stands, Pc.calling, Pc.sending]
    have lanes := still calm.1 (by simpa using calm.2)
    refine .silent (by simp [Event.Silent]) rfl lanes fun d db is => .inl ?_
    by_cases here : d = c
    · subst here
      simp [View.selected] at is
    · simpa [View.selected, View.setConn, Function.update_of_ne here] using is

end Moves

end GhettoRedis.Server
