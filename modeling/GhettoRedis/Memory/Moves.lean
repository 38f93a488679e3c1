import GhettoRedis.Memory.Accounts

/-!
# What a step does with memory

Every move of the server, with the memory that it uses. Only a command, a callback and the two ends of
a queue do anything with it.
-/
namespace GhettoRedis.Memory

open Lib Protocol Commands HeapM Server

variable {n : ℕ}

section Acts

variable {cfg : Config} {v v' : View n} {m : Process n} {i : Fin n} {a : Action}
  {lost lost' : List Bytes}

/-! ### Threads in a callback -/

theorem within_idle {pc : Pc n} (idle : pc.Idle) : within pc = false := by
  cases pc with
  | wakeup j k | signal j k =>
    cases k with
    | loop => rfl
    | shutdown => exact idle.elim
  | callback | onCb | serve | send | publish | stop | read | finish => exact idle.elim
  | _ => rfl

theorem within_stopping {pc : Pc n} {c : ConnId} {args : CmdArgs} {k : Serving}
    (stops : pc.stopping = some (c, args, k)) : within pc = servingWithin k := by
  rcases Pc.eq_of_stopping stops with ⟨j, rfl⟩ | ⟨j, rfl⟩ | ⟨j, rfl⟩ <;> rfl

/-- Where the loop over `on_data_available` ends. -/
theorem within_pc (c : ConnId) (k : Serving) :
    within (k.pc c : Pc n) = servingWithin k ∨ ∃ count, (k.pc c : Pc n) = .poll count := by
  cases k with
  | epollin => exact .inl rfl
  | onCb count => exact .inr ⟨count, rfl⟩

theorem within_finish (w : View n) (i : Fin n) (c : ConnId) (conn : Conn) (args : CmdArgs)
    (answered : Bool) (k : Serving) :
    within ((w.finishRequest i c conn args answered k).pc i) = servingWithin k ∨
      ∃ count, (w.finishRequest i c conn args answered k).pc i = .poll count := by
  rw [View.finishRequest, View.goto_pc_self]
  split
  · exact .inl rfl
  · exact within_pc c k

theorem passes_within [NeZero n] {pc : Pc n} (passes : Passes v i a pc) :
    within pc = within (v.pc i) ∨ ∃ count, pc = .poll count := by
  cases passes with
  | idle idle idle' => exact .inl ((within_idle idle').trans (within_idle idle).symm)
  | @stopping _ at_stop stops stops' =>
    obtain ⟨c, args, k⟩ := at_stop
    exact .inl ((within_stopping stops').trans (within_stopping stops).symm)
  | @served c k _ _ _ stands =>
    rw [stands]
    exact within_pc c k
  | @looked count _ _ stands =>
    rw [stands]
    split
    · exact .inl rfl
    · exact .inr ⟨count, rfl⟩
  | sent stands | spared stands =>
    rw [stands]
    exact .inl rfl
  | event stands =>
    rw [stands]
    split <;> exact .inl rfl

variable [NeZero n] {seen : List Event}

omit [NeZero n] in
theorem silent {seen : List Event} (w : Write) (none : (none : Option Write) = some w) :
    lastReply seen = some w :=
  (Option.some_ne_none w none.symm).elim

/-- Memory takes the step from `v` to `v'` with everything accounted for, and with the reply of the server. -/
def Acts (cfg : Config) (v v' : View n) (i : Fin n) (a : Action) (m : Process n) (lost : List Bytes)
    (seen : List Event) : Prop :=
  ∃ m' reply, m.act i cfg v v' a = some (m', reply) ∧ (∀ w, reply = some w → lastReply seen = some w) ∧
    Accounts (returning m' v' i) v'.dbs m' (lost ++ seen.flatMap (lostKeys cfg i)) 0

theorem Accounted.acts_still (accounted : Accounted v m lost) (move : Move cfg v i a v' seen)
    (keeps : seen.flatMap (lostKeys cfg i) = []) (called : v.called i a = none) (calm : Free (v.pc i))
    (calm' : Free (v'.pc i)) (queue : v'.queue = v.queue) (dbs : v'.dbs = v.dbs)
    (goes : within (v'.pc i) = within (v.pc i) ∨ ∃ count, v'.pc i = .poll count) :
    Acts cfg v v' i a m lost seen := by
  obtain ⟨acts, accounts⟩ := accounted.still called calm calm' queue dbs (fun j => move.pc_of_ne) goes
  refine ⟨m, none, acts, silent, ?_⟩
  rwa [keeps, List.append_nil]

/-- A step from a place where no request is served and nothing is sent or called back. -/
theorem Accounted.acts_at {pc : Pc n} (accounted : Accounted v m lost) (move : Move cfg v i a v' seen)
    (keeps : seen.flatMap (lostKeys cfg i) = []) (stands : v.pc i = pc)
    (elsewhere : ∀ c k, pc ≠ .serve c k)
    (calm : Free pc) (calm' : Free (v'.pc i)) (queue : v'.queue = v.queue) (dbs : v'.dbs = v.dbs)
    (goes : within (v'.pc i) = within pc ∨ ∃ count, v'.pc i = .poll count) :
    Acts cfg v v' i a m lost seen := by
  subst stands
  exact accounted.acts_still move keeps (called_none elsewhere) calm calm' queue dbs goes

/-- The steps that only move the thread on. -/
theorem acts_quiet (accounted : Accounted v m lost) {pc : Pc n} (calm : (v.pc i).Calm) (calm' : pc.Calm)
    (passes : Passes v i a pc) (move : Move cfg v i a (v.goto i pc) []) :
    Acts cfg v (v.goto i pc) i a m lost [] := by
  refine accounted.acts_still move rfl (passes_called passes) (free_of_calm calm) ?_ rfl rfl ?_
  · rw [View.goto_pc_self]
    exact free_of_calm calm'
  · rw [View.goto_pc_self]
    exact passes_within passes

/-- The end of a request without a reply. -/
theorem acts_skip {c : ConnId} {conn : Conn} {args : CmdArgs} {k : Serving}
    (accounted : Accounted v m lost)
    (stands : v.pc i = .serve c k ∨ ∃ j, v.pc i = .wakeup j (.shutdown c args k)) (live : v.conn c = some conn)
    (empty : v.pc i = .serve c k → ∃ outside env, a = .serve outside env ∧
      conn.head (conn.mem outside) = .request args ∧ args.argc = 0)
    (move : Move cfg v i a (v.finishRequest i c conn args false k) []) :
    Acts cfg v (v.finishRequest i c conn args false k) i a m lost [] := by
  have calm' := free_of_calm (finishRequest_calm v i c conn args false k)
  have goes := within_finish v i c conn args false k
  rcases stands with stands | ⟨j, stands⟩
  · obtain ⟨outside, env, rfl, head, none⟩ := empty stands
    refine accounted.acts_still move rfl ?_ (by rw [stands]; exact ⟨rfl, rfl⟩) calm' rfl rfl ?_
    · simp only [View.called, stands, live, head, if_pos none]
    · rwa [stands]
  · exact accounted.acts_at move rfl stands (by simp) ⟨rfl, rfl⟩ calm' rfl rfl goes

section Hands

variable {c : ConnId} {conn : Conn} {args : CmdArgs} {k : Serving} {values : List Value} {env : Env}
  {outcome : Outcome}

theorem act_hands (hands : Hands cfg v i a c k conn args values env outcome) :
    m.act i cfg v v' a = m.run i (handleCommand cfg.numDbs i conn.db env values) := by
  simp only [Process.act, hands.at_serve, hands.called]

/-- What `handle_command` does with memory, while the thread goes on to `v'`. -/
theorem Accounted.acts_hands {reply : Option Write} (accounted : Accounted v m lost)
    (hands : Hands cfg v i a c k conn args values env outcome) (move : Move cfg v i a v' seen)
    (queue : v'.queue = v.queue) (calling : (v'.pc i).calling = [])
    (goes : within (v'.pc i) = servingWithin k ∨ ∃ count, v'.pc i = .poll count)
    (replies : ∀ w, reply = some w → lastReply seen = some w)
    (triple : ∀ l : Ledger n, l.NodupKeys → l.Denotes v.dbs →
      Triple l.cells (handleCommand cfg.numDbs i conn.db env values l.table) fun effect own =>
        effect.reply = reply ∧ ∃ (l' : Ledger n) (message leaked : Owned Cell), effect.table = l'.table ∧
          l'.NodupKeys ∧ l'.Denotes v'.dbs ∧ Queued effect.message.toList (v'.pc i).sending message ∧
            Lost leaked (seen.flatMap (lostKeys cfg i)) ∧ own = l'.cells + (message + leaked)) :
    Acts cfg v v' i a m lost seen := by
  obtain ⟨m', runs, accounts⟩ :=
    accounted.serve hands.at_serve queue (fun j => move.pc_of_ne) calling goes triple
  exact ⟨m', reply, (act_hands hands).trans runs, replies, accounts⟩

/-- A command that is neither executed nor dispatched. -/
theorem acts_plain {rest : List Event} (accounted : Accounted v m lost)
    (hands : Hands cfg v i a c k conn args values env outcome)
    (plain : ∀ op bytes, outcome ≠ .keyed op bytes)
    (spares : ∀ w, outcome ≠ .flushall w) (calm' : (v'.pc i).Calm) (queue : v'.queue = v.queue)
    (dbs : v'.dbs = v.dbs) (goes : within (v'.pc i) = servingWithin k ∨ ∃ count, v'.pc i = .poll count)
    (quiet : rest.flatMap (lostKeys cfg i) = [])
    (move : Move cfg v i a v' (.handled c conn.answered values env :: rest)) :
    Acts cfg v v' i a m lost (.handled c conn.answered values env :: rest) := by
  refine accounted.acts_hands hands move queue calm'.1 goes silent ?_
  intro l nodup denotes
  refine (handleCommand_plain hands.outcome.symm plain spares c conn.answered).mono ?_
  rintro _ _ ⟨leaked, rfl, rfl, lost⟩
  refine ⟨rfl, l, 0, leaked, rfl, nodup, dbs ▸ denotes, ?_, ?_, by rw [zero_add]⟩
  · rw [calm'.2.1]
    exact .nil
  · rwa [List.flatMap_cons, quiet, List.append_nil]

theorem acts_flushall {w : Write} (accounted : Accounted v m lost)
    (hands : Hands cfg v i a c k conn args values env (.flushall w))
    (move : Move cfg v i a ((v.flushAll cfg.numDbs).finishRequest i c (conn.write w) args true k)
      [.handled c conn.answered values env, .replied c conn.answered conn.sendBuf.length w]) :
    Acts cfg v ((v.flushAll cfg.numDbs).finishRequest i c (conn.write w) args true k) i a m lost
      [.handled c conn.answered values env, .replied c conn.answered conn.sendBuf.length w] := by
  have calm' := finishRequest_calm (v.flushAll cfg.numDbs) i c (conn.write w) args true k
  refine accounted.acts_hands hands move rfl calm'.1 (within_finish _ _ _ _ _ _ _)
    silent fun l nodup denotes => ?_
  refine (handleCommand_flushall hands.outcome.symm).mono ?_
  rintro _ _ ⟨rfl, rfl⟩
  refine ⟨rfl, l.spared cfg.numDbs, 0, 0, rfl, nodup.sublist List.filter_sublist,
    denotes.flush cfg.numDbs, ?_, ?_,
    (add_zero _).symm⟩
  · rw [calm'.2.1]
    exact .nil
  · have none := lostKeys_flushall (i := i) hands.outcome.symm c conn.answered
    rw [List.flatMap_cons, none]
    exact lost_nil

theorem acts_inline {op : Commands.Op} {key : Bytes} {db' : Hashmap} {result : Commands.Result}
    (accounted : Accounted v m lost) (hands : Hands cfg v i a c k conn args values env (.keyed op key))
    (here : home key = i)
    (executed : Commands.cmdExec op (v.dbs i conn.db) key (hashmapXxhash3 key 0 0) = (db', result))
    (sound : Sound op (Commands.hashmapGetWithHash (v.dbs i conn.db) key
      (hashmapXxhash3 key 0 0)) result)
    (move : Move cfg v i a
      ((v.setDb i conn.db db').finishRequest i c (conn.write (cmdResp result)) args true k)
      [.handled c conn.answered values env,
        .executed c conn.answered conn.db key op
          (Commands.hashmapGetWithHash (v.dbs i conn.db) key (hashmapXxhash3 key 0 0)) result,
        .replied c conn.answered conn.sendBuf.length (cmdResp result)]) :
    Acts cfg v ((v.setDb i conn.db db').finishRequest i c
      (conn.write (cmdResp result)) args true k) i a m lost
      [.handled c conn.answered values env,
        .executed c conn.answered conn.db key op
          (Commands.hashmapGetWithHash (v.dbs i conn.db) key (hashmapXxhash3 key 0 0)) result,
        .replied c conn.answered conn.sendBuf.length (cmdResp result)] := by
  have calm' := finishRequest_calm (v.setDb i conn.db db') i c (conn.write (cmdResp result)) args true k
  refine accounted.acts_hands hands move rfl calm'.1 (within_finish _ _ _ _ _ _ _) (fun w is => is)
    fun l nodup denotes => ?_
  refine (handleCommand_inline hands.outcome.symm here nodup denotes executed sound).mono ?_
  rintro _ _ ⟨l', rfl, rfl, nodup', denotes'⟩
  refine ⟨rfl, l', 0, 0, rfl, nodup', denotes', ?_, ?_, (add_zero _).symm⟩
  · rw [calm'.2.1]
    exact .nil
  · rw [List.flatMap_cons, lostKeys_inline hands.outcome.symm here]
    exact lost_nil

theorem acts_dispatch {op : Commands.Op} {key : Bytes} (accounted : Accounted v m lost)
    (hands : Hands cfg v i a c k conn args values env (.keyed op key)) (away : home key ≠ i)
    (move : Move cfg v i a
      (v.goto i (.send (home key)
        (.request ⟨i, home key, c, conn.answered⟩ key (hashmapXxhash3 key 0 0)
          (Commands.cmdPreDispatch op))
        (.request c args k))) [.handled c conn.answered values env]) :
    Acts cfg v (v.goto i (.send (home key)
        (.request ⟨i, home key, c, conn.answered⟩ key (hashmapXxhash3 key 0 0)
          (Commands.cmdPreDispatch op))
        (.request c args k))) i a m lost [.handled c conn.answered values env] := by
  refine accounted.acts_hands hands move rfl (by rw [View.goto_pc_self]; rfl)
    (.inl (by rw [View.goto_pc_self]; rfl))
    silent fun l nodup denotes => ?_
  refine (handleCommand_dispatch hands.outcome.symm away c conn.answered).mono ?_
  rintro _ _ ⟨p, ctxKey, val, leaked, rfl, rfl, lost⟩
  refine ⟨rfl, l, requestCells p ctxKey val key (hashmapXxhash3 key 0 0) op, leaked, rfl, nodup,
    denotes, ?_, ?_, rfl⟩
  · rw [View.goto_pc_self]
    have carries := @Carries.request n p ctxKey val ⟨i, home key, c, conn.answered⟩ key
      (hashmapXxhash3 key 0 0)
      (Commands.cmdPreDispatch op)
    -- what the other shard unpacks is the command that was packed
    rw [cmdPreDispatchExec_cmdPreDispatch] at carries
    simpa [Pc.sending] using Queued.cons carries .nil
  · simpa using lost

end Hands

/-! ### Callbacks -/

section Callbacks

variable {count : ℕ} {ctx : CBContext n} {conn : Conn}

theorem act_callback {msg : Message n} {p : Ptr} (stands : v.pc i = .callback count msg)
    (live : v.conn msg.ctx.conn = some conn) (is : m.ctx i = some p) :
    m.act i cfg v v' a = m.run i (callback i conn.db p) := by
  simp only [Process.act, stands, live, is]

omit [NeZero n] in
theorem Calls.carries {msg : Message n} {p : Option Ptr} {own : Owned Cell}
    (calls : Calls p (.callback count msg) own) : ∃ q, p = some q ∧ Carries q msg own := by
  cases calls with
  | message carries => exact ⟨_, rfl, carries⟩
  | context calling => cases calling
  | none outside => cases outside

/-- What a callback does with memory, while the thread goes on to `v'`. -/
theorem Accounted.acts_callback {msg : Message n} {reply : Option Write} (accounted : Accounted v m lost)
    (stands : v.pc i = .callback count msg) (live : v.conn msg.ctx.conn = some conn)
    (move : Move cfg v i a v' seen) (queue : v'.queue = v.queue)
    (replies : ∀ w, reply = some w → lastReply seen = some w)
    (keeps : seen.flatMap (lostKeys cfg i) = [])
    (triple : ∀ (l : Ledger n) (p : Ptr) (own : Owned Cell), l.NodupKeys → l.Denotes v.dbs →
      Carries p msg own →
      Triple (l.cells + own) (callback i conn.db p l.table) fun effect own' =>
        effect.reply = reply ∧ Yields (some p) v' i [] effect own') : Acts cfg v v' i a m lost seen := by
  -- the thread is in a callback, so its context is a message
  obtain ⟨-, -, -, -, -, -, -, ⟨_, _, c, holds, -⟩, -⟩ := accounted.borrow i
  have calls := holds.ctx
  rw [stands] at calls
  obtain ⟨p, is, -⟩ := calls.carries
  have sending : (v.pc i).sending = [] := by rw [stands]; rfl
  obtain ⟨m', runs, accounts⟩ := accounted.run sending queue (fun j => move.pc_of_ne)
    fun l c nodup denotes calls => by
      rw [stands, is] at calls
      obtain ⟨q, same, carries⟩ := calls.carries
      cases same
      rw [is]
      exact triple l p c nodup denotes carries
  refine ⟨m', reply, ?_, replies, keeps ▸ accounts⟩
  rw [act_callback stands live is, runs]

theorem acts_execute {key : Bytes} {hash : Size} {fields : ReqFields} {db' : Hashmap}
    {result : Commands.Result}
    (accounted : Accounted v m lost) (stands : v.pc i = .callback count (.request ctx key hash fields))
    (live : v.conn ctx.conn = some conn)
    (executed : Commands.cmdExec (cmdPreDispatchExec fields) (v.dbs i conn.db) key hash = (db', result))
    (sound : Sound (cmdPreDispatchExec fields)
      (Commands.hashmapGetWithHash (v.dbs i conn.db) key hash) result)
    (move : Move cfg v i a
      ((v.setDb i conn.db db').goto i (.send ctx.src
        (.response ⟨ctx.dst, ctx.src, ctx.conn, ctx.index⟩ (Commands.cmdPostDispatchExec result))
        (.response ctx.conn count)))
      [.executed ctx.conn ctx.index conn.db key (cmdPreDispatchExec fields)
        (Commands.hashmapGetWithHash (v.dbs i conn.db) key hash) result]) :
    Acts cfg v ((v.setDb i conn.db db').goto i (.send ctx.src
        (.response ⟨ctx.dst, ctx.src, ctx.conn, ctx.index⟩ (Commands.cmdPostDispatchExec result))
        (.response ctx.conn count))) i a m lost
      [.executed ctx.conn ctx.index conn.db key (cmdPreDispatchExec fields)
        (Commands.hashmapGetWithHash (v.dbs i conn.db) key hash) result] := by
  refine accounted.acts_callback stands live move rfl silent rfl ?_
  intro l p _ nodup denotes carries
  -- the context of the request stays until `on_cb` returns; the response is on its way
  cases carries with
  | request =>
    refine (callback_request nodup denotes executed sound).mono ?_
    rintro _ _ ⟨l', resp, r, copied, rfl, nodup', denotes', copies, rfl⟩
    refine ⟨rfl, l', cellAt resp (.response r) + copied, _, 0, rfl, nodup', denotes', ?_, ?_, lost_nil,
      (add_zero _).symm⟩
    · rw [View.goto_pc_self]
      simpa [Pc.sending] using Queued.cons (.response copies) .nil
    · rw [View.goto_pc_self]
      exact .inl (.context rfl rfl)

theorem acts_deliver {fields : Commands.RespFields} (accounted : Accounted v m lost)
    (stands : v.pc i = .callback count (.response ctx fields)) (live : v.conn ctx.conn = some conn)
    (move : Move cfg v i a
      ((v.setConn ctx.conn (some { conn.write (cmdResp (cmdPreResp fields)) with
        flags := { conn.flags with dispatchWaiting := false } })).goto i (.onCb count ctx.conn))
      [.replied ctx.conn ctx.index conn.sendBuf.length (cmdResp (cmdPreResp fields))]) :
    Acts cfg v ((v.setConn ctx.conn (some { conn.write (cmdResp (cmdPreResp fields)) with
        flags := { conn.flags with dispatchWaiting := false } })).goto i
          (.onCb count ctx.conn)) i a m lost
      [.replied ctx.conn ctx.index conn.sendBuf.length (cmdResp (cmdPreResp fields))] := by
  refine accounted.acts_callback stands live move rfl (fun w is => is) rfl ?_
  intro l p _ nodup denotes carries
  cases carries with
  | @response _ _ r _ copies =>
    refine (callback_response copies).mono ?_
    rintro _ _ ⟨rfl, rfl⟩
    refine ⟨rfl, l, 0, cellAt p (.response r), 0, rfl, nodup, denotes, ?_, ?_, lost_nil, ?_⟩
    · rw [View.goto_pc_self]
      exact .nil
    · rw [View.goto_pc_self]
      exact .inl (.context rfl rfl)
    · rw [zero_add, add_zero]

end Callbacks

/-! ### Every move -/

/-- Without a fault memory follows every step of the server. -/
theorem acts_move (accounted : Accounted v m lost) (move : Move cfg v i a v' seen)
    (sound : ∀ e ∈ seen, SoundEvent e) : Acts cfg v v' i a m lost seen := by
  cases move with
  | quiet calm calm' away conns passes =>
    exact acts_quiet accounted calm calm' passes (.quiet calm calm' away conns passes)
  | flush stands live own =>
    refine accounted.acts_at (.flush stands live own) rfl stands (by simp) ⟨rfl, rfl⟩ ?_ rfl rfl (.inl ?_)
    · rw [View.goto_pc_self]
      exact ⟨rfl, rfl⟩
    · rw [View.goto_pc_self]
      rfl
  | @dequeue count msg rest stands front =>
    obtain ⟨m', takes, accounts⟩ := accounted.dequeue stands front
    refine ⟨m', none, ?_, silent, ?_⟩
    · simp only [Process.act, stands, View.goto_pc_self, takes, Option.map_some]
    · simpa using accounts
  | skip stands live empty inside =>
    exact acts_skip accounted stands live empty (.skip stands live empty inside)
  | @refuse c conn k outside env w stands live is head =>
    refine accounted.acts_still (.refuse stands live is head) rfl ?_ ?_ ?_ rfl rfl ?_
    · subst is
      simp only [View.called, stands, live, head]
    · rw [stands]
      exact ⟨rfl, rfl⟩
    · rw [View.goto_pc_self]
      exact free_of_calm (k.calm_pc c)
    · rw [View.goto_pc_self, stands]
      exact within_pc c k
  | answer hands answer =>
    refine acts_plain accounted hands (fun op bytes is => ?_) (fun w is => ?_)
      (finishRequest_calm ..) rfl rfl (within_finish ..) rfl (.answer hands answer)
    · subst is
      cases answer
    · subst is
      cases answer
  | flushall hands => exact acts_flushall accounted hands (.flushall hands)
  | shutdown hands =>
    refine acts_plain accounted hands (by simp) (by simp) ?_ rfl rfl (.inl ?_) rfl (.shutdown hands)
    · rw [View.goto_pc_self]
      exact ⟨rfl, rfl, rfl⟩
    · rw [View.goto_pc_self]
      rfl
  | inline hands here executed =>
    have safe := sound _ (List.mem_cons_of_mem _ List.mem_cons_self)
    exact acts_inline accounted hands here executed safe (.inline hands here executed)
  | dispatch hands away => exact acts_dispatch accounted hands away (.dispatch hands away)
  | @claim target msg k stands room =>
    refine ⟨m.enqueue i target, none, ?_, silent, ?_⟩
    · simp only [Process.act, stands]
    · simpa using accounted.enqueue stands
  | @dispatched t c conn args k stands live =>
    exact accounted.acts_at (.dispatched stands live) rfl stands (by simp) ⟨rfl, rfl⟩
      (free_of_calm (finishRequest_calm ..)) rfl rfl (within_finish ..)
  | execute stands live executed =>
    have safe := sound _ List.mem_cons_self
    exact acts_execute accounted stands live executed safe (.execute stands live executed)
  | deliver stands live => exact acts_deliver accounted stands live (.deliver stands live)
  | accept stands empty =>
    refine accounted.acts_at (.accept stands empty) rfl stands (by simp) ⟨rfl, rfl⟩ ?_ rfl rfl (.inl ?_)
    · rw [View.goto_pc_self]
      exact ⟨rfl, rfl⟩
    · rw [View.goto_pc_self]
      rfl
  | receive stands live is ending goes data other =>
    refine accounted.acts_at (.receive stands live is ending goes data other) rfl stands (by simp)
      ⟨rfl, rfl⟩ ?_ rfl rfl (.inl ?_)
    · rw [View.goto_pc_self]
      rcases goes with rfl | ⟨rfl, -⟩ <;> exact ⟨rfl, rfl⟩
    · rw [View.goto_pc_self]
      rcases goes with rfl | ⟨rfl, -⟩ <;> rfl
  | close live place =>
    have closes : Move cfg v i a ((v.setConn _ none).goto i _) [.closed _] := .close live place
    rcases place with ⟨hup, es, stands, rfl, -⟩ | ⟨stands, rfl, -⟩
    · refine accounted.acts_at closes rfl stands (by simp) ⟨rfl, rfl⟩ ?_ rfl rfl (.inl ?_)
      · rw [View.goto_pc_self]
        exact ⟨rfl, rfl⟩
      · rw [View.goto_pc_self]
        rfl
    · refine accounted.acts_at closes rfl stands (by simp) ⟨rfl, rfl⟩ ?_ rfl rfl (.inl ?_)
      · rw [View.goto_pc_self]
        exact ⟨rfl, rfl⟩
      · rw [View.goto_pc_self]
        rfl

theorem step_spec (accounted : Accounted v m lost) (move : Move cfg v i a v' seen)
    (sound : ∀ e ∈ seen, SoundEvent e) :
    ∃ m' reply, m.step i cfg v v' a = some (m', reply) ∧
      (∀ w, reply = some w → lastReply seen = some w) ∧
      Accounted v' m' (lost ++ seen.flatMap (lostKeys cfg i)) := by
  obtain ⟨between, reply, acts, replies, accounts⟩ := acts_move accounted move sound
  obtain ⟨m', leaves, accounted'⟩ := leave_spec accounts
  refine ⟨m', reply, ?_, replies, accounted'⟩
  simp only [Process.step, acts, Option.bind_some, leaves, Option.map_some]

end Acts

end GhettoRedis.Memory
