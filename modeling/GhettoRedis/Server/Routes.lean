import GhettoRedis.Lib.Mailbox
import GhettoRedis.Server.Move

/-!
# The routes of the messages

The queues and threads of the shards as mailboxes, and what every message carries from
its first step to its last: it goes from the shard that owns its connection to the home
shard of its key, and its response comes back.
-/
namespace GhettoRedis.Server

open Lib Protocol Commands

variable {n : ℕ}

/-- The shard of the connection that a message is about. -/
def Message.owner : Message n → Fin n
  | .request ctx _ _ _ => ctx.src
  | .response ctx _ => ctx.dst

/-! ### Shards as mailboxes -/

def View.mail (v : View n) : Mail (Fin n) (Message n) where
  inbox i := (v.pc i).calling ++ v.queue i
  outbox i := (v.pc i).sending

namespace View

variable {v : View n} {i : Fin n}

@[simp] theorem mail_setConn (c : ConnId) (conn : Option Conn) : (v.setConn c conn).mail = v.mail :=
  rfl

@[simp] theorem mail_setDb (db : Size) (map : Hashmap) : (v.setDb i db map).mail = v.mail := rfl

@[simp] theorem mail_flushAll (numDbs : Size) : (v.flushAll numDbs).mail = v.mail := rfl

theorem mail_goto (pc : Pc n) :
    (v.goto i pc).mail = ⟨Function.update v.mail.inbox i (pc.calling ++ v.queue i),
      Function.update v.mail.outbox i pc.sending⟩ := by
  simp only [mail, goto, Mail.mk.injEq]
  constructor <;> funext j <;> by_cases same : j = i <;> simp [Function.update, same]

theorem mail_quiet {pc : Pc n} (calling : pc.calling = (v.pc i).calling)
    (sending : pc.sending = (v.pc i).sending) : (v.goto i pc).mail = v.mail := by
  rw [mail_goto, calling, sending]
  simp [mail]

theorem calm_after (more : Bool) (c : ConnId) (k : Serving) :
    (if more then Pc.serve c k else k.pc c : Pc n).Calm := by
  cases more
  · exact k.calm_pc c
  · exact ⟨rfl, rfl, rfl⟩

theorem mail_finishRequest {c : ConnId} {conn : Conn} {args : CmdArgs} {answered : Bool}
    {k : Serving} (calling : (v.pc i).calling = []) (sending : (v.pc i).sending = []) :
    (v.finishRequest i c conn args answered k).mail = v.mail := by
  have calm := calm_after (n := n) (conn.finish args answered).1 c k
  rw [finishRequest, mail_quiet, mail_setConn]
  · exact calm.1.trans calling.symm
  · exact calm.2.1.trans sending.symm

theorem mail_dequeue {count count' : ℕ} {msg : Message n} {rest : List (Message n)}
    (stands : v.pc i = .poll count) (queue : v.queue i = msg :: rest) :
    ((v.setQueue i rest).goto i (.callback count' msg)).mail = v.mail := by
  simp only [mail, goto, setQueue, Mail.mk.injEq]
  constructor <;> funext j <;> by_cases same : j = i
  · subst same
    simp [stands, queue, Pc.calling]
  · simp [Function.update, same]
  · subst same
    simp [stands, Pc.sending]
  · simp [Function.update, same]

theorem mail_dispatch {c : ConnId} {k : Serving} {t : Fin n} {msg : Message n} {k' : Sending}
    (stands : v.pc i = .serve c k) : (v.goto i (.send t msg k')).mail = v.mail.push i msg := by
  rw [mail_goto]
  simp [mail, Mail.push, stands, Pc.calling, Pc.sending]

theorem mail_claim {t : Fin n} {msg : Message n} {k : Sending} (stands : v.pc i = .send t msg k) :
    ((v.setQueue t (v.queue t ++ [msg])).goto i (.publish t k)).mail = v.mail.pass i t := by
  simp only [mail, goto, setQueue, Mail.pass, Mail.mk.injEq]
  constructor
  · funext j
    have calling : (Function.update v.pc i (.publish t k) j).calling = (v.pc j).calling := by
      by_cases same : j = i
      · subst same
        simp [stands, Pc.calling]
      · simp [Function.update, same]
    by_cases target : j = t
    · subst target
      simp [calling, stands, Pc.sending]
    · simp [calling, Function.update_of_ne target]
  · funext j
    by_cases same : j = i
    · subst same
      simp [Pc.sending]
    · simp [Function.update, same]

theorem mail_execute {count : ℕ} {msg msg' : Message n} {t : Fin n} {k : Sending}
    (stands : v.pc i = .callback count msg) :
    (v.goto i (.send t msg' k)).mail = (v.mail.pop i).push i msg' := by
  rw [mail_goto]
  simp [mail, Mail.push, Mail.pop, stands, Pc.calling, Pc.sending]

theorem mail_deliver {count : ℕ} {c : ConnId} {msg : Message n}
    (stands : v.pc i = .callback count msg) : (v.goto i (.onCb count c)).mail = v.mail.pop i := by
  rw [mail_goto]
  simp [mail, Mail.pop, stands, Pc.calling, Pc.sending]

theorem inbox_callback {count : ℕ} {m : Message n} (stands : v.pc i = .callback count m) :
    v.mail.inbox i = m :: v.queue i := by
  simp [mail, stands, Pc.calling]

theorem holds_callback {count : ℕ} {m : Message n} (stands : v.pc i = .callback count m) :
    v.mail.Holds m :=
  ⟨i, .inl (by simp [inbox_callback stands])⟩

/-! ### Connections with nothing under way -/

/-- No message about connection `c` is on its way. -/
def Quiet (v : View n) (c : ConnId) : Prop :=
  ∀ i, (∀ m ∈ v.mail.inbox i, m.ctx.conn ≠ c) ∧ ∀ m ∈ v.mail.outbox i, m.ctx.conn ≠ c

instance (v : View n) (c : ConnId) : Decidable (v.Quiet c) := inferInstanceAs (Decidable (∀ _, _ ∧ _))

theorem Quiet.held {c : ConnId} (quiet : v.Quiet c) {m : Message n} (held : v.mail.Holds m) :
    m.ctx.conn ≠ c := by
  obtain ⟨i, mem | mem⟩ := held
  · exact (quiet i).1 m mem
  · exact (quiet i).2 m mem

/-! ### Ownership -/

/-- Connection `c` was accepted by shard `i`; it may be closed by now. -/
def Belongs (v : View n) (c : ConnId) (i : Fin n) : Prop :=
  c < v.nextConn ∧ ∀ conn, v.conn c = some conn → conn.shardId = i.val

/-- No connection changes its shard, and new ones have new addresses. -/
def Keeps (v v' : View n) : Prop :=
  v.nextConn ≤ v'.nextConn ∧ ∀ c conn', v'.conn c = some conn' →
    (∃ conn, v.conn c = some conn ∧ conn'.shardId = conn.shardId) ∨
      v.nextConn ≤ c ∧ c < v'.nextConn

end View

theorem View.Belongs.keep {v v' : View n} {c : ConnId} {i : Fin n} (belongs : v.Belongs c i)
    (keeps : v.Keeps v') : v'.Belongs c i := by
  refine ⟨lt_of_lt_of_le belongs.1 keeps.1, fun conn' live => ?_⟩
  rcases keeps.2 c conn' live with ⟨conn, before, same⟩ | ⟨new, _⟩
  · rw [same]
    exact belongs.2 conn before
  · exact absurd belongs.1 (Nat.not_lt.mpr new)

theorem keeps_of_conns {v v' : View n} (next : v'.nextConn = v.nextConn)
    (conns : ∀ c conn', v'.conn c = some conn' →
      ∃ conn, v.conn c = some conn ∧ conn'.shardId = conn.shardId) : v.Keeps v' :=
  ⟨next.ge, fun _ _ live => .inl (conns _ _ live)⟩

theorem keeps_of_same {v v' : View n} (next : v'.nextConn = v.nextConn) (same : v'.conn = v.conn) :
    v.Keeps v' :=
  keeps_of_conns next fun _ conn' live => ⟨conn', same ▸ live, rfl⟩

/-- A step changes one connection at most, and not its shard. -/
theorem keeps_of_update {v v' : View n} {c : ConnId} {conn conn' : Conn}
    (live : v.conn c = some conn) (conns : v'.conn = Function.update v.conn c (some conn'))
    (next : v'.nextConn = v.nextConn) (shard : conn'.shardId = conn.shardId) : v.Keeps v' := by
  refine keeps_of_conns next fun d conn'' found => ?_
  rw [conns] at found
  by_cases same : d = c
  · subst same
    simp only [Function.update_self, Option.some.injEq] at found
    exact ⟨conn, live, found ▸ shard⟩
  · rw [Function.update_of_ne same] at found
    exact ⟨conn'', found, rfl⟩

theorem finishRequest_conns {v : View n} {i : Fin n} {c d : ConnId} {conn : Conn} {args : CmdArgs}
    {answered : Bool}
    {k : Serving} (mem : d ∈ ((v.finishRequest i c conn args answered k).pc i).conns) :
    d ∈ c :: k.conns := by
  simp only [View.finishRequest, View.goto, Function.update_self] at mem
  split at mem
  · exact mem
  · exact k.conns_pc c mem

theorem finishRequest_calm (v : View n) (i : Fin n) (c : ConnId) (conn : Conn) (args : CmdArgs)
    (answered : Bool) (k : Serving) : ((v.finishRequest i c conn args answered k).pc i).Calm := by
  simpa [View.finishRequest, View.goto] using View.calm_after (conn.finish args answered).1 c k

theorem finish_shardId (conn : Conn) (args : CmdArgs) (answered : Bool) :
    (conn.finish args answered).2.shardId = conn.shardId := by
  unfold Conn.finish
  split
  · rfl
  · split <;> rfl

theorem finish_sendBuf (conn : Conn) (args : CmdArgs) (answered : Bool) :
    (conn.finish args answered).2.sendBuf = conn.sendBuf := by
  unfold Conn.finish
  split
  · rfl
  · split <;> rfl

theorem finish_flags (conn : Conn) (args : CmdArgs) (answered : Bool) :
    (conn.finish args answered).2.flags = conn.flags := by
  unfold Conn.finish
  split
  · rfl
  · split <;> rfl

theorem plainAnswer_shardId {conn conn' : Conn} {outcome : Outcome} {w : Write}
    (answer : plainAnswer conn outcome = some (conn', w)) : conn'.shardId = conn.shardId := by
  cases outcome <;> cases answer <;> rfl

theorem plainAnswer_recv {conn conn' : Conn} {outcome : Outcome} {w : Write}
    (answer : plainAnswer conn outcome = some (conn', w)) : conn'.recv = conn.recv := by
  cases outcome <;> cases answer <;> rfl

theorem plainAnswer_waiting {conn conn' : Conn} {outcome : Outcome} {w : Write}
    (answer : plainAnswer conn outcome = some (conn', w)) :
    conn'.flags.dispatchWaiting = conn.flags.dispatchWaiting := by
  cases outcome <;> cases answer <;> rfl

theorem plainAnswer_ending {conn conn' : Conn} {outcome : Outcome} {w : Write}
    (answer : plainAnswer conn outcome = some (conn', w)) (ending : conn.flags.ending = true) :
    conn'.flags.ending = true := by
  cases outcome <;> cases answer <;> first | rfl | exact ending

theorem Move.keeps [NeZero n] {cfg : Config} {v v' : View n} {i : Fin n} {a : Action}
    {seen : List Event} (move : Move cfg v i a v' seen) : v.Keeps v' := by
  cases move with
  | quiet | dequeue | shutdown | dispatch | claim | execute => exact keeps_of_same rfl rfl
  | flush _ live => exact keeps_of_update live rfl rfl rfl
  | skip _ live => exact keeps_of_update live rfl rfl (finish_shardId _ _ _)
  | refuse _ live => exact keeps_of_update live rfl rfl rfl
  | answer hands answer =>
    exact keeps_of_update hands.live rfl rfl
      ((finish_shardId _ _ _).trans (plainAnswer_shardId answer))
  | flushall hands => exact keeps_of_update hands.live rfl rfl (finish_shardId _ _ _)
  | inline hands => exact keeps_of_update hands.live rfl rfl (finish_shardId _ _ _)
  | dispatched _ live => exact keeps_of_update live rfl rfl (finish_shardId _ _ _)
  | deliver _ live => exact keeps_of_update live rfl rfl rfl
  | receive _ live => exact keeps_of_update live rfl rfl rfl
  | accept =>
    refine ⟨Nat.le_succ _, fun c conn' found => ?_⟩
    -- the connection that is accepted is new, the others stay
    by_cases new : c = v.nextConn
    · subst new
      exact .inr ⟨le_rfl, Nat.lt_succ_self _⟩
    · exact .inl ⟨conn', by simpa [View.goto, View.setConn, Function.update_of_ne new] using found, rfl⟩
  | @close c =>
    refine keeps_of_conns rfl fun d conn' found => ?_
    by_cases same : d = c
    · subst same
      simp [View.goto, View.setConn] at found
    · exact ⟨conn', by simpa [View.goto, View.setConn, Function.update_of_ne same] using found, rfl⟩

/-! ### The threads -/

theorem not_send {pc : Pc n} (sending : pc.sending = []) (t : Fin n) (m : Message n) (k : Sending) :
    pc ≠ .send t m k := by
  rintro rfl
  simp [Pc.sending] at sending

section Moves

variable [NeZero n] {cfg : Config} {v v' : View n} {i : Fin n} {a : Action} {seen : List Event}

theorem Move.pc_of_ne {j : Fin n} (move : Move cfg v i a v' seen) (other : j ≠ i) :
    v'.pc j = v.pc j := by
  cases move <;>
    simp [View.goto, View.finishRequest, View.setConn, View.setDb, View.setQueue, View.flushAll,
      Function.update_of_ne other]

theorem Move.conns (move : Move cfg v i a v' seen) :
    ∀ c ∈ (v'.pc i).conns, c ∈ (v.pc i).conns ∨ v.Owned i c := by
  intro d mem
  cases move with
  | quiet _ _ _ conns => exact conns d (by simpa [View.goto] using mem)
  | flush | dequeue | execute | deliver =>
    simp [View.goto, Pc.conns, Sending.conns] at mem
  | skip stands =>
    have mem := finishRequest_conns mem
    rcases stands with stands | ⟨j, stands⟩
    · exact .inl (by rwa [stands, Pc.conns])
    · exact .inl (by rwa [stands, Pc.conns, Waking.conns])
  | refuse stands =>
    exact .inl (by rw [stands, Pc.conns]; exact Serving.conns_pc _ _ (by simpa [View.goto] using mem))
  | answer hands | flushall hands | inline hands =>
    exact .inl (by rw [hands.at_serve, Pc.conns]; exact finishRequest_conns mem)
  | shutdown hands | dispatch hands =>
    exact .inl (by rw [hands.at_serve]; simpa [View.goto, Pc.conns, Sending.conns] using mem)
  | claim stands =>
    exact .inl (by rw [stands]; simpa [View.goto, Pc.conns] using mem)
  | dispatched stands =>
    exact .inl (by rw [stands]; exact finishRequest_conns mem)
  | accept stands =>
    exact .inl (by rw [stands]; simpa [View.goto, Pc.conns, EpollEvent.conns] using mem)
  | receive stands _ _ _ goes =>
    refine .inl ?_
    rw [stands]
    -- whether the window is served or not, only `c` is worked on
    rcases goes with rfl | ⟨rfl, -⟩ <;> simpa [View.goto, Pc.conns, Serving.conns] using mem
  | close _ from_where =>
    rcases from_where with ⟨hup, es, stands, rfl, -⟩ | ⟨-, rfl, -⟩
    · refine .inl ?_
      rw [stands, Pc.conns]
      exact List.mem_cons_of_mem _ (by simpa [View.goto, Pc.conns] using mem)
    · simp [View.goto, Pc.conns] at mem

/-- What a message in a thread or a queue looks like. -/
structure Routed (v : View n) : Prop where
  inbox : ∀ i, ∀ m ∈ v.mail.inbox i, m.ctx.dst = i ∧ m.ctx.src ≠ i
  outbox : ∀ i, ∀ m ∈ v.mail.outbox i, m.ctx.src = i ∧ m.ctx.dst ≠ i
  target : ∀ i t m k, v.pc i = .send t m k → m.ctx.dst = t
  owner : ∀ m, v.mail.Holds m → v.Belongs m.ctx.conn m.owner
  conns : ∀ i, ∀ c ∈ (v.pc i).conns, v.Belongs c i
  live : ∀ c conn, v.conn c = some conn → c < v.nextConn

/-- A step moves messages along their routes and writes at most one that has one. -/
theorem Routed.next (routed : Routed v) (move : Move cfg v i a v' seen)
    (inbox : ∀ j, ∀ m ∈ v'.mail.inbox j,
      m ∈ v.mail.inbox j ∨ m ∈ v.mail.outbox i ∧ m.ctx.dst = j)
    (outbox : ∀ j, ∀ m ∈ v'.mail.outbox j, m ∈ v.mail.outbox j ∨
      j = i ∧ m.ctx.src = i ∧ m.ctx.dst ≠ i ∧ v.Belongs m.ctx.conn m.owner)
    (target : ∀ t m k, v'.pc i = .send t m k → m.ctx.dst = t) : Routed v' := by
  constructor
  · intro j m mem
    rcases inbox j m mem with old | ⟨sent, rfl⟩
    · exact routed.inbox j m old
    · obtain ⟨src, dst⟩ := routed.outbox i m sent
      exact ⟨rfl, fun same => dst (same.symm.trans src)⟩
  · intro j m mem
    rcases outbox j m mem with old | ⟨rfl, src, dst, -⟩
    · exact routed.outbox j m old
    · exact ⟨src, dst⟩
  · intro j t m k stands
    by_cases same : j = i
    · subst same
      exact target t m k stands
    · exact routed.target j t m k (move.pc_of_ne same ▸ stands)
  · rintro m ⟨j, mem | mem⟩
    · rcases inbox j m mem with old | ⟨sent, -⟩
      · exact (routed.owner m ⟨j, .inl old⟩).keep move.keeps
      · exact (routed.owner m ⟨i, .inr sent⟩).keep move.keeps
    · rcases outbox j m mem with old | ⟨-, -, -, belongs⟩
      · exact (routed.owner m ⟨j, .inr old⟩).keep move.keeps
      · exact belongs.keep move.keeps
  · intro j c mem
    by_cases same : j = i
    · subst same
      rcases move.conns c mem with old | ⟨conn, live, own⟩
      · exact (routed.conns j c old).keep move.keeps
      · -- it is a connection of this shard that the thread turns to
        refine View.Belongs.keep ⟨routed.live c conn live, fun conn' live' => ?_⟩ move.keeps
        obtain rfl : conn = conn' := by simpa [live] using live'
        exact own
    · exact (routed.conns j c (move.pc_of_ne same ▸ mem)).keep move.keeps
  · intro c conn' found
    -- a connection was there before or has just been accepted
    rcases move.keeps.2 c conn' found with ⟨conn, before, -⟩ | ⟨-, new⟩
    · exact lt_of_lt_of_le (routed.live c conn before) move.keeps.1
    · exact new

/-- Shard `i` belongs to the connection that it serves. -/
theorem Routed.hands (routed : Routed v) {c : ConnId} {k : Serving} {conn : Conn} {args : CmdArgs}
    {values : List Value} {env : Env} {outcome : Outcome}
    (hands : Hands cfg v i a c k conn args values env outcome) : conn.shardId = i.val := by
  have belongs := routed.conns i c (by rw [hands.at_serve]; simp [Pc.conns])
  exact belongs.2 conn hands.live

/-- What a step does to the messages. -/
inductive MailMove (v v' : View n) (i : Fin n) : Prop
  | still : v'.mail = v.mail → (v'.pc i).sending = [] → MailMove v v' i
  | pass {t : Fin n} {m : Message n} {k : Sending} : v.pc i = .send t m k →
      v'.mail = v.mail.pass i t → (v'.pc i).sending = [] → MailMove v v' i
  | dispatch {t : Fin n} {c : ConnId} {index : ℕ} {key : Bytes} {hash : Size} {fields : ReqFields}
      {k : Sending} : (v.pc i).sending = [] → c ∈ (v.pc i).conns → t ≠ i →
      v'.pc i = .send t (.request ⟨i, t, c, index⟩ key hash fields) k →
      v'.mail = v.mail.push i (.request ⟨i, t, c, index⟩ key hash fields) → MailMove v v' i
  | execute {count : ℕ} {ctx : CBContext n} {key : Bytes} {hash : Size} {fields : ReqFields}
      {result : Result} {k : Sending} : v.pc i = .callback count (.request ctx key hash fields) →
      v'.pc i = .send ctx.src
        (.response ⟨ctx.dst, ctx.src, ctx.conn, ctx.index⟩ (cmdPostDispatchExec result)) k →
      v'.mail = (v.mail.pop i).push i
        (.response ⟨ctx.dst, ctx.src, ctx.conn, ctx.index⟩ (cmdPostDispatchExec result)) →
      MailMove v v' i
  | deliver {count : ℕ} {ctx : CBContext n} {fields : RespFields} :
      v.pc i = .callback count (.response ctx fields) → v'.mail = v.mail.pop i →
      (v'.pc i).sending = [] → MailMove v v' i

theorem Move.mail (move : Move cfg v i a v' seen) : MailMove v v' i := by
  cases move with
  | quiet calm calm' =>
    exact .still (View.mail_quiet (calm'.1.trans calm.1.symm) (calm'.2.1.trans calm.2.1.symm))
      (by simpa using calm'.2.1)
  | flush stands =>
    refine .still ?_ (by simp [Pc.sending])
    rw [View.mail_quiet, View.mail_setConn] <;> simp [stands, Pc.calling, Pc.sending]
  | dequeue stands queue => exact .still (View.mail_dequeue stands queue) (by simp [Pc.sending])
  | skip stands =>
    refine .still (View.mail_finishRequest ?_ ?_) (finishRequest_calm _ _ _ _ _ _ _).2.1
    -- neither place holds a message
    all_goals rcases stands with stands | ⟨j, stands⟩ <;> rw [stands] <;> rfl
  | refuse stands =>
    refine .still ?_ (by simpa using (Serving.calm_pc _ _).2.1)
    rw [View.mail_quiet, View.mail_setConn]
    · simpa [stands, Pc.calling] using (Serving.calm_pc _ _).1
    · simpa [stands, Pc.sending] using (Serving.calm_pc _ _).2.1
  | answer hands | flushall hands | inline hands =>
    refine .still ?_ (finishRequest_calm _ _ _ _ _ _ _).2.1
    rw [View.mail_finishRequest] <;> simp [hands.at_serve, Pc.calling, Pc.sending]
  | shutdown hands =>
    refine .still ?_ (by simp [Pc.sending])
    rw [View.mail_quiet] <;> simp [hands.at_serve, Pc.calling, Pc.sending]
  | dispatch hands elsewhere =>
    exact .dispatch (by simp [hands.at_serve, Pc.sending]) (by simp [hands.at_serve, Pc.conns])
      elsewhere (View.goto_pc_self ..) (View.mail_dispatch hands.at_serve)
  | claim stands => exact .pass stands (View.mail_claim stands) (by simp [Pc.sending])
  | dispatched stands =>
    refine .still (View.mail_finishRequest ?_ ?_) (finishRequest_calm _ _ _ _ _ _ _).2.1
    all_goals simp [stands, Pc.calling, Pc.sending]
  | execute stands =>
    refine .execute stands (View.goto_pc_self ..) ?_
    rw [View.mail_execute, View.mail_setDb]
    exact stands
  | deliver stands =>
    refine .deliver stands ?_ (by simp [Pc.sending])
    -- the response leaves the queue
    rw [View.mail_deliver, View.mail_setConn]
    exact stands
  | accept stands =>
    refine .still ?_ (by simp [Pc.sending])
    rw [View.mail_quiet] <;> simp [stands, Pc.calling, Pc.sending]
    rfl
  | receive stands _ _ _ goes =>
    rcases goes with rfl | ⟨rfl, -⟩
    all_goals
      refine .still ?_ (by simp [Pc.sending])
      rw [View.mail_quiet, View.mail_setConn] <;> simp [stands, Pc.calling, Pc.sending]
  | close _ place =>
    rcases place with ⟨hup, es, stands, rfl, -⟩ | ⟨stands, rfl, -⟩
    all_goals
      refine .still ?_ (by simp [Pc.sending])
      rw [View.mail_quiet, View.mail_setConn] <;> simp [stands, Pc.calling, Pc.sending]

/-- The two ways in which a message comes to be. -/
inductive Written (cfg : Config) (v : View n) (i : Fin n) (a : Action) (seen : List Event)
    (m : Message n) : Prop
  | request {c : ConnId} {k : Serving} {conn : Conn} {args : CmdArgs} {values : List Value}
      {env : Env} {op : Op} {key : Bytes} :
      Hands cfg v i a c k conn args values env (.keyed op key) →
      m = .request ⟨i, home key, c, conn.answered⟩ key (hashmapXxhash3 key 0 0) (cmdPreDispatch op) →
      seen = [.handled c conn.answered values env] → Written cfg v i a seen m
  | response {count : ℕ} {ctx : CBContext n} {key : Bytes} {hash db : Size} {fields : ReqFields}
      {found : Option Value} {result : Result} :
      v.pc i = .callback count (.request ctx key hash fields) →
      m = .response ⟨ctx.dst, ctx.src, ctx.conn, ctx.index⟩ (cmdPostDispatchExec result) →
      seen = [.executed ctx.conn ctx.index db key (cmdPreDispatchExec fields) found result] →
      Written cfg v i a seen m

theorem Move.written (move : Move cfg v i a v' seen) {m : Message n}
    (new : (v'.pc i).sending = [m]) : Written cfg v i a seen m := by
  cases move with
  | quiet _ calm => simp [calm.2.1] at new
  | flush | dequeue | shutdown | claim | deliver | accept => simp [Pc.sending] at new
  | skip | answer | flushall | inline | dispatched => simp [(finishRequest_calm _ _ _ _ _ _ _).2.1] at new
  | refuse => simp [(Serving.calm_pc _ _).2.1] at new
  | dispatch hands =>
    simp only [View.goto_pc_self, Pc.sending, List.cons.injEq, and_true] at new
    exact .request hands new.symm rfl
  | execute stands =>
    simp only [View.goto_pc_self, Pc.sending, List.cons.injEq, and_true] at new
    exact .response stands new.symm rfl
  | receive _ _ _ _ goes => rcases goes with rfl | ⟨rfl, -⟩ <;> simp [Pc.sending] at new
  | close _ place => rcases place with ⟨_, _, _, rfl, _⟩ | ⟨_, rfl, _⟩ <;> simp [Pc.sending] at new

/-- A message that was not there before was written in this step. -/
theorem Move.held (move : Move cfg v i a v' seen) {m : Message n} (held : v'.mail.Holds m) :
    v.mail.Holds m ∨ (v'.pc i).sending = [m] := by
  cases move.mail with
  | still mail => exact .inl (mail ▸ held)
  | pass _ mail => exact .inl (Mail.holds_pass (mail ▸ held))
  | dispatch _ _ _ goes mail =>
    rcases Mail.holds_push (mail ▸ held) with rfl | old
    · exact .inr (by rw [goes, Pc.sending])
    · exact .inl old
  | execute _ goes mail =>
    rcases Mail.holds_push (mail ▸ held) with rfl | old
    · exact .inr (by rw [goes, Pc.sending])
    · exact .inl (Mail.holds_pop old)
  | deliver _ mail => exact .inl (Mail.holds_pop (mail ▸ held))

theorem Routed.move (routed : Routed v) (move : Move cfg v i a v' seen) : Routed v' := by
  cases move.mail with
  | still mail sending =>
    refine routed.next move (fun j m mem => .inl (mail ▸ mem)) (fun j m mem => .inl (mail ▸ mem)) ?_
    exact fun t m k stands => absurd stands (not_send sending t m k)
  | @pass t m k stands mail sending =>
    have target := routed.target i t m k stands
    have ready : v.mail.outbox i = [m] := by simp [View.mail, stands, Pc.sending]
    refine routed.next move (fun j m' mem => ?_) (fun j m' mem => .inl ?_)
      fun t m k stands => absurd stands (not_send sending t m k)
    · rw [mail] at mem
      by_cases same : j = t
      · subst same
        rcases List.mem_append.mp (by simpa [Mail.pass] using mem) with old | moved
        · exact .inl old
        · -- the message that moved is the one the thread held
          obtain rfl : m' = m := by simpa [ready] using moved
          exact .inr ⟨moved, target⟩
      · exact .inl (by simpa [Mail.pass, Function.update_of_ne same] using mem)
    · rw [mail] at mem
      by_cases same : j = i
      · subst same
        simp [Mail.pass] at mem
      · simpa [Mail.pass, Function.update_of_ne same] using mem
  | @dispatch t c index key hash fields k empty owns elsewhere goes mail =>
    refine routed.next move (fun j m mem => .inl (by rw [mail] at mem; exact mem))
      (fun j m mem => ?_) fun t' m k' stands => ?_
    · rw [mail] at mem
      by_cases same : j = i
      · subst same
        -- the new request goes from this shard to the home of the key
        obtain rfl : m = .request ⟨j, t, c, index⟩ key hash fields := by
          simpa [Mail.push] using mem
        exact .inr ⟨rfl, rfl, elsewhere, routed.conns j c owns⟩
      · exact .inl (by simpa [Mail.push, Function.update_of_ne same] using mem)
    · rw [goes] at stands
      cases stands
      rfl
  | @execute count ctx key hash fields result k stands goes mail =>
    have mem : .request ctx key hash fields ∈ v.mail.inbox i := by
      simp [View.mail, stands, Pc.calling]
    obtain ⟨dst, src⟩ := routed.inbox i _ mem
    refine routed.next move (fun j m mem => .inl ?_) (fun j m mem => ?_) fun t' m k' stands => ?_
    · rw [mail] at mem
      by_cases same : j = i
      · subst same
        -- the request is gone from the queue
        exact List.mem_of_mem_tail (by simpa [Mail.push, Mail.pop] using mem)
      · simpa [Mail.push, Mail.pop, Function.update_of_ne same] using mem
    · rw [mail] at mem
      by_cases same : j = i
      · subst same
        -- the response goes back the way the request came
        obtain rfl : m = .response ⟨ctx.dst, ctx.src, ctx.conn, ctx.index⟩
            (cmdPostDispatchExec result) := by
          simpa [Mail.push] using mem
        exact .inr ⟨rfl, dst, src, routed.owner (.request ctx key hash fields) ⟨j, .inl ‹_›⟩⟩
      · exact .inl (by simpa [Mail.push, Mail.pop, Function.update_of_ne same] using mem)
    · rw [goes] at stands
      cases stands
      rfl
  | deliver stands mail sending =>
    refine routed.next move (fun j m mem => .inl ?_) (fun j m mem => .inl ?_)
      fun t m k stands => absurd stands (not_send sending t m k)
    · rw [mail] at mem
      by_cases same : j = i
      · subst same
        exact List.mem_of_mem_tail (by simpa [Mail.pop] using mem)
      · simpa [Mail.pop, Function.update_of_ne same] using mem
    · rw [mail] at mem
      exact mem

variable {β : Type} {sel : Message n → Option β} {src dst : Fin n}

/-- The selected messages all go from `src` to `dst`. -/
def Addressed (sel : Message n → Option β) (src dst : Fin n) : Prop :=
  ∀ m b, sel m = some b → m.ctx.src = src ∧ m.ctx.dst = dst

theorem Move.lane_still (routed : Routed v) (addressed : Addressed sel src dst)
    (move : Move cfg v i a v' seen) (calling : (v.pc i).calling = [])
    (sending : (v'.pc i).sending = []) : v'.mail.lane sel src dst = v.mail.lane sel src dst := by
  cases move.mail with
  | still mail => rw [mail]
  | @pass t m k stands mail =>
    have ready : v.mail.outbox i = [m] := by simp [View.mail, stands, Pc.sending]
    rw [mail, Mail.lane_pass ready]
    intro b selects
    obtain ⟨rfl, rfl⟩ := addressed m b selects
    exact ⟨(routed.outbox i m (by simp [ready])).1.symm, (routed.target i t m k stands).symm⟩
  | dispatch _ _ _ goes => simp [goes, Pc.sending] at sending
  | execute stands => simp [stands, Pc.calling] at calling
  | deliver stands => simp [stands, Pc.calling] at calling

omit [NeZero n] in
theorem lane_dispatch (addressed : Addressed sel src dst) {m : Message n}
    (empty : (v.pc i).sending = []) (mail : v'.mail = v.mail.push i m) (own : m.ctx.src = i) :
    v'.mail.lane sel src dst = v.mail.lane sel src dst ++ (sel m).toList := by
  rw [mail, Mail.lane_push empty]
  intro b selects
  exact own ▸ (addressed m b selects).1

omit [NeZero n] in
theorem lane_execute (routed : Routed v) (addressed : Addressed sel src dst) {m m' : Message n}
    {count : ℕ} (stands : v.pc i = .callback count m)
    (mail : v'.mail = (v.mail.pop i).push i m') (own : m'.ctx.src = i) :
    v.mail.lane sel src dst ++ (sel m').toList = (sel m).toList ++ v'.mail.lane sel src dst := by
  have front := View.inbox_callback stands
  have here : m.ctx.dst = i := (routed.inbox i m (by simp [front])).1
  have empty : (v.mail.pop i).outbox i = [] := by simp [Mail.pop, View.mail, stands, Pc.sending]
  rw [mail, Mail.lane_push empty fun b selects => own ▸ (addressed m' b selects).1,
    ← List.append_assoc,
    ← Mail.lane_pop front fun b selects => here ▸ (addressed m b selects).2]

omit [NeZero n] in
theorem lane_deliver (routed : Routed v) (addressed : Addressed sel src dst) {m : Message n}
    {count : ℕ} (stands : v.pc i = .callback count m) (mail : v'.mail = v.mail.pop i) :
    v.mail.lane sel src dst = (sel m).toList ++ v'.mail.lane sel src dst := by
  have front := View.inbox_callback stands
  have here : m.ctx.dst = i := (routed.inbox i m (by simp [front])).1
  rw [mail, ← Mail.lane_pop front fun b selects => here ▸ (addressed m b selects).2]

end Moves

/-! ### Runs -/

theorem routed_init (n : ℕ) : Routed (State.init n).view := by
  constructor <;> simp [State.init, State.view, View.mail, Mail.Holds, Pc.calling, Pc.sending,
    Pc.conns]

/-- An invariant of runs is proved on the view, move by move. -/
theorem run_invariant [NeZero n] {cfg : Config} {start s : State n} {trace : List Event}
    {ok : View n → Fin n → Action → Prop} (inv : View n → List Event → Prop)
    (routed : Routed start.view) (initial : inv start.view [])
    (preserved : ∀ {v v' : View n} {i : Fin n} {a : Action} {trace seen : List Event},
      Routed v → inv v trace → ok v i a → Move cfg v i a v' seen → inv v' (trace ++ seen))
    (run : (server cfg).Run (fun s a => ok s.view a.1 a.2) start s trace) :
    Routed s.view ∧ inv s.view trace := by
  refine run.invariant (fun s trace => Routed s.view ∧ inv s.view trace) ⟨routed, initial⟩ ?_
  rintro s trace ⟨i, a⟩ s' seen - ⟨routed, holds⟩ allowed taken
  have move := move_of_step taken
  exact ⟨routed.move move, preserved routed holds allowed move⟩

theorem reaches_invariant [NeZero n] {cfg : Config} {start s : State n} {trace : List Event}
    (inv : View n → List Event → Prop) (routed : Routed start.view) (initial : inv start.view [])
    (preserved : ∀ {v v' : View n} {i : Fin n} {a : Action} {trace seen : List Event},
      Routed v → inv v trace → Move cfg v i a v' seen → inv v' (trace ++ seen))
    (run : (server cfg).Reaches start s trace) : Routed s.view ∧ inv s.view trace := by
  let unconditional : View n → Fin n → Action → Prop := fun _ _ _ => True
  have run : (server cfg).Run (fun s a => unconditional s.view a.1 a.2) start s trace := run
  exact run_invariant inv routed initial (fun routed holds _ move => preserved routed holds move) run

end GhettoRedis.Server
