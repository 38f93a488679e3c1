import GhettoRedis.Protocol.Complete
import GhettoRedis.Server.Serving

/-!
# No complete request is left

Data that arrives while `DISPATCH_WAITING` is set is not parsed. The flag has a message
behind it, and the callback of a response goes on with the window; without the flag, the
owner of a connection leaves no complete request in its window.
-/
namespace GhettoRedis.Server

open Lib Protocol Commands

variable {n : ℕ}

/-- A message about connection `c` is on its way. -/
def View.Carries (v : View n) (c : ConnId) : Prop := ∃ m, v.mail.Holds m ∧ m.ctx.conn = c

theorem View.Quiet.not_carries {v : View n} {c : ConnId} (quiet : v.Quiet c) : ¬ v.Carries c := by
  rintro ⟨m, held, about⟩
  exact quiet.held held about

/-- The thread serves connection `c`, carries out a request of it or is about to look at it again. -/
def Pc.Attends (c : ConnId) : Pc n → Prop
  | .serve d _ | .onCb _ d => d = c
  | pc => ∃ args, pc.underway = some (c, args)

section Moves

variable [NeZero n] {cfg : Config} {v v' : View n} {i : Fin n} {a : Action} {seen : List Event}

/-- Messages about a connection are on their way until a response is delivered. -/
theorem Move.carries (move : Move cfg v i a v' seen) {c : ConnId} (carries : v.Carries c) :
    v'.Carries c ∨ ∃ count ctx fields, v.pc i = .callback count (.response ctx fields) ∧ ctx.conn = c := by
  obtain ⟨m, held, about⟩ := carries
  cases move.mail with
  | still mail => exact .inl ⟨m, mail ▸ held, about⟩
  | pass _ mail => exact .inl ⟨m, mail ▸ held.pass, about⟩
  | dispatch empty _ _ _ mail => exact .inl ⟨m, mail ▸ held.push empty, about⟩
  | execute stands _ mail =>
    have empty : (v.mail.pop i).outbox i = [] := by simp [Mail.pop, View.mail, stands, Pc.sending]
    rcases held.pop (View.inbox_callback stands) with rfl | held
    · rw [View.Carries, mail]
      exact .inl ⟨_, Mail.holds_push_self, about⟩
    · exact .inl ⟨m, mail ▸ held.push empty, about⟩
  | deliver stands mail =>
    rcases held.pop (View.inbox_callback stands) with rfl | held
    · exact .inr ⟨_, _, _, stands, about⟩
    · exact .inl ⟨m, mail ▸ held, about⟩

/-! ### What is on its way -/

/-- The callback of a response clears `DISPATCH_WAITING`. -/
theorem Move.delivered (move : Move cfg v i a v' seen) {count : ℕ} {ctx : CBContext n}
    {fields : RespFields} (stands : v.pc i = .callback count (.response ctx fields)) :
    ∃ conn conn', v.conn ctx.conn = some conn ∧ v'.conn ctx.conn = some conn' ∧
      conn'.flags.dispatchWaiting = false := by
  cases move with
  | @deliver count' ctx' fields' conn stands' live =>
    obtain ⟨rfl, rfl, rfl⟩ : count = count' ∧ ctx = ctx' ∧ fields = fields' := by
      simpa [stands] using stands'
    exact ⟨conn, _, live, View.setConn_conn_self .., rfl⟩
  | quiet calm => simp [stands, Pc.Calm, Pc.calling] at calm
  | skip stands' => simp [stands] at stands'
  | answer hands | flushall hands | shutdown hands | inline hands | dispatch hands =>
    simp [hands.at_serve] at stands
  | close _ place => simp [stands] at place
  | _ stands' => simp [stands] at stands'

/-- Where `DISPATCH_WAITING` is set, it was set before or a request has just been sent. -/
theorem Move.waits (move : Move cfg v i a v' seen) {c : ConnId} {conn' : Conn}
    (live' : v'.conn c = some conn') (waits : conn'.flags.dispatchWaiting = true) :
    (∃ conn, v.conn c = some conn ∧ conn.flags.dispatchWaiting = true) ∨
      ∃ t args k, v.pc i = .publish t (.request c args k) := by
  -- one connection changes, and its flag is not set by that
  have updated {d : ConnId} {conn next : Conn} (live : v.conn d = some conn)
      (conns : v'.conn = Function.update v.conn d (some next))
      (same : next.flags.dispatchWaiting = true → conn.flags.dispatchWaiting = true) :
      ∃ conn, v.conn c = some conn ∧ conn.flags.dispatchWaiting = true := by
    rw [conns] at live'
    by_cases here : c = d
    · subst here
      obtain rfl : next = conn' := by simpa using live'
      exact ⟨conn, live, same waits⟩
    · rw [Function.update_of_ne here] at live'
      exact ⟨conn', live', waits⟩
  cases move with
  | quiet | dequeue | shutdown | dispatch | claim | execute => exact .inl ⟨conn', live', waits⟩
  | flush _ live | refuse _ live | receive _ live => exact .inl (updated live rfl id)
  | skip _ live => exact .inl (updated live rfl (by rw [finish_flags]; exact id))
  | answer hands answer =>
    refine .inl (updated hands.live rfl ?_)
    rw [finish_flags, plainAnswer_waiting answer]
    exact id
  | flushall hands | inline hands =>
    exact .inl (updated hands.live rfl (by rw [finish_flags]; exact id))
  | @dispatched t d conn args k stands live =>
    -- the request has just been sent: this is where the flag is set
    by_cases here : c = d
    · subst here
      exact .inr ⟨t, args, k, stands⟩
    · rw [View.finishRequest_conn_of_ne _ _ _ _ _ _ _ here] at live'
      exact .inl ⟨conn', live', waits⟩
  | deliver _ live => exact .inl (updated live rfl nofun)
  | @accept es recv =>
    by_cases new : c = v.nextConn
    · subst new
      obtain rfl : Conn.accepted i recv = conn' := by simpa [View.goto, View.setConn] using live'
      cases waits
    · exact .inl ⟨conn', by simpa [View.goto, View.setConn, Function.update_of_ne new] using live', waits⟩
  | @close d =>
    -- it is closed
    by_cases here : c = d
    · subst here
      simp at live'
    · rw [View.goto_conn, View.setConn_conn_of_ne _ _ _ here] at live'
      exact .inl ⟨conn', live', waits⟩

/-- How a shard comes to dispatch a request. -/
theorem Move.dispatching (move : Move cfg v i a v' seen) : (v'.pc i).dispatching = [] ∨
    (∃ t m c args k, v'.pc i = .send t m (.request c args k) ∧ m.ctx.conn = c) ∨
    ∃ t m k, v.pc i = .send t m k ∧ v'.pc i = .publish t k := by
  cases move with
  | quiet _ calm => exact .inl (by simpa using calm.2.2)
  | flush | dequeue | shutdown | deliver | accept => exact .inl (by simp [Pc.dispatching])
  | skip | answer | flushall | inline | dispatched => exact .inl (finishRequest_calm _ _ _ _ _ _ _).2.2
  | refuse => exact .inl (by simpa using (Serving.calm_pc _ _).2.2)
  | dispatch => exact .inr (.inl ⟨_, _, _, _, _, View.goto_pc_self .., rfl⟩)
  | claim stands => exact .inr (.inr ⟨_, _, _, stands, View.goto_pc_self ..⟩)
  | execute => exact .inl (by simp [Pc.dispatching, Sending.dispatching])
  | receive _ _ _ _ goes => rcases goes with rfl | ⟨rfl, -⟩ <;> exact .inl (by simp [Pc.dispatching])
  | close _ place =>
    rcases place with ⟨_, _, _, rfl, _⟩ | ⟨_, rfl, _⟩ <;> exact .inl (by simp [Pc.dispatching])

/-! ### What a step leaves behind -/

/-- Where a step leaves connection `c`, which is `conn'` behind it, in the hands of shard `i`. -/
inductive Leaves (v v' : View n) (i : Fin n) (c : ConnId) (conn' : Conn) : Prop
  /-- As it was, and in the same hands. -/
  | still {conn : Conn} : v.conn c = some conn → conn'.recv.window = conn.recv.window →
      conn'.flags = conn.flags →
      (conn.shardId = i.val → (v.pc i).Attends c → (v'.pc i).Attends c) → Leaves v v' i c conn'
  | attends : (v'.pc i).Attends c → conn'.shardId = i.val → Leaves v v' i c conn'
  | waits : conn'.flags.dispatchWaiting = true → Leaves v v' i c conn'
  | ended : conn'.flags.ending = true → Leaves v v' i c conn'
  | rest : ¬ Complete conn'.recv.window → Leaves v v' i c conn'

/-- What is known of the requests that are under way, and of the window of each connection. -/
structure Attended (v : View n) : Prop where
  sending : ∀ i t m c args k, v.pc i = .send t m (.request c args k) → m.ctx.conn = c
  publishing : ∀ i t c args k, v.pc i = .publish t (.request c args k) → v.Carries c
  waiting : ∀ c conn, v.conn c = some conn → conn.flags.dispatchWaiting = true → v.Carries c
  underway : ∀ i c args conn, (v.pc i).underway = some (c, args) → v.conn c = some conn →
    Complete conn.recv.window → args.len.toNat ≤ conn.recv.size
  left : ∀ c conn, v.conn c = some conn → conn.flags.dispatchWaiting = false →
    conn.flags.ending = false → Complete conn.recv.window →
    ∃ i, conn.shardId = i.val ∧ (v.pc i).Attends c

/-- The end of a request that fits into a window with a complete request. -/
theorem finish_leaves {conn : Conn} {args : CmdArgs} {answered : Bool}
    (fits : Complete conn.recv.window → args.len.toNat ≤ conn.recv.size)
    (stops : (conn.finish args answered).1 = false) :
    (conn.finish args answered).2.flags.ending = true ∨
      ¬ Complete (conn.finish args answered).2.recv.window := by
  unfold Conn.finish at stops ⊢
  split
  next ending => exact .inl ending
  next going =>
    rw [if_neg going] at stops
    split
    next le =>
      rw [dif_pos le] at stops
      have none : conn.recv.size - args.len.toNat = 0 :=
        Nat.eq_zero_of_not_pos (of_decide_eq_false stops)
      refine .inr ?_
      rw [show (conn.recv.consume args.len.toNat le).window = [] from
        List.length_eq_zero_iff.mp (by rw [RecvBuf.window_length]; exact none)]
      exact not_complete_nil
    next long => exact .inr fun complete => long (fits complete)

omit [NeZero n] in
theorem Pc.Idle.not_attends {pc : Pc n} (idle : pc.Idle) (c : ConnId) : ¬ pc.Attends c := by
  cases pc with
  | wakeup j k | signal j k => cases k <;> first | exact idle.elim | simp [Pc.Attends, Pc.underway]
  | _ => first | exact idle.elim | simp [Pc.Attends, Pc.underway]

omit [NeZero n] in
theorem Pc.attends_of_stopping {pc : Pc n} {c d : ConnId} {args : CmdArgs} {k : Serving}
    (stops : pc.stopping = some (d, args, k)) : pc.Attends c ↔ d = c := by
  rcases Pc.eq_of_stopping stops with ⟨j, rfl⟩ | ⟨j, rfl⟩ | ⟨j, rfl⟩ <;>
    simp [Pc.Attends, Pc.underway]

omit [NeZero n] in
/-- A step about another connection, or about none. -/
theorem leaves_of_same {c : ConnId} {conn' : Conn} (live : v.conn c = some conn')
    (free : ¬ (v.pc i).Attends c) : Leaves v v' i c conn' :=
  .still live rfl rfl fun _ attends => absurd attends free

omit [NeZero n] in
/-- What the end of a request leaves behind. -/
theorem finishRequest_leaves {w : View n} {c d : ConnId} {conn conn' conn'' : Conn} {args : CmdArgs}
    {answered : Bool} {k : Serving} (is : v' = w.finishRequest i d conn' args answered k)
    (conns : w.conn = v.conn) (live : v.conn d = some conn) (own : conn'.shardId = i.val)
    (fits : Complete conn'.recv.window → args.len.toNat ≤ conn'.recv.size)
    (free : c ≠ d → ¬ (v.pc i).Attends c) (live' : v'.conn c = some conn'') :
    Leaves v v' i c conn'' := by
  subst is
  by_cases here : c = d
  · subst here
    obtain rfl : (conn'.finish args answered).2 = conn'' := by simpa using live'
    cases more : (conn'.finish args answered).1 with
    | true =>
      apply Leaves.attends
      · simp [View.finishRequest, more, Pc.Attends]
      · rw [finish_shardId, own]
    | false =>
      rcases finish_leaves fits more with ended | rest
      · exact .ended ended
      · exact .rest rest
  · apply leaves_of_same _ (free here)
    rwa [View.finishRequest_conn_of_ne _ _ _ _ _ _ _ here, conns] at live'

omit [NeZero n] in
theorem fits_of_head {conn : Conn} {outside : Mem} {args : CmdArgs}
    (head : conn.head (conn.mem outside) = .request args) (complete : Complete conn.recv.window) :
    args.len.toNat ≤ conn.recv.size := by
  rcases @Conn.head_of_complete _ outside complete with ⟨w, malformed⟩ | ⟨args', head', fits⟩
  · simp [head] at malformed
  · obtain rfl : args = args' := by simpa [head] using head'
    exact fits

theorem Hands.fits {c : ConnId} {k : Serving} {conn : Conn} {args : CmdArgs} {values : List Value}
    {env : Env} {outcome : Outcome} (hands : Hands cfg v i a c k conn args values env outcome)
    (complete : Complete conn.recv.window) : args.len.toNat ≤ conn.recv.size := by
  obtain ⟨outside, -, head, -⟩ := hands.head
  exact fits_of_head head complete

theorem Hands.free {c d : ConnId} {k : Serving} {conn : Conn} {args : CmdArgs} {values : List Value}
    {env : Env} {outcome : Outcome} (hands : Hands cfg v i a d k conn args values env outcome)
    (other : c ≠ d) : ¬ (v.pc i).Attends c := by
  rw [hands.at_serve]
  exact fun same => other same.symm

omit [NeZero n] in
/-- A step of the thread alone. -/
theorem Passes.leaves {pc : Pc n} (passes : Passes v i a pc) {c : ConnId} {conn' : Conn}
    (live : v.conn c = some conn') : Leaves v (v.goto i pc) i c conn' := by
  have keeps (attends : (v.pc i).Attends c → pc.Attends c) : Leaves v (v.goto i pc) i c conn' :=
    .still live rfl rfl fun _ before => by simpa using attends before
  cases passes with
  | idle idle => exact leaves_of_same live (idle.not_attends c)
  | @stopping _ at_stop stops stops' =>
    obtain ⟨d, args, k⟩ := at_stop
    apply keeps
    rw [Pc.attends_of_stopping stops, Pc.attends_of_stopping stops']
    exact id
  | @served d k outside env conn stands _ live' nothing =>
    by_cases here : c = d
    · subst here
      obtain rfl : conn' = conn := by simpa [live] using live'
      refine .rest fun complete => ?_
      -- a complete request would have been found
      rcases @Conn.head_of_complete _ outside complete with ⟨w, head⟩ | ⟨args, head, -⟩
      · simp [nothing] at head
      · simp [nothing] at head
    · apply leaves_of_same live
      rw [stands]
      exact fun same => here same.symm
  | @looked count d conn stands live' =>
    by_cases here : c = d
    · subst here
      obtain rfl : conn' = conn := by simpa [live] using live'
      -- the shard turns to its own connections only
      by_cases own : conn'.shardId = i.val
      · exact .attends (by simp [own, Pc.Attends]) own
      · exact .still live rfl rfl fun own' => absurd own' own
    · apply leaves_of_same live
      rw [stands]
      exact fun same => here same.symm
  | sent stands | event stands | spared stands =>
    apply leaves_of_same live
    simp [stands, Pc.Attends, Pc.underway]

theorem Move.leaves (move : Move cfg v i a v' seen) (routed : Routed v) (attended : Attended v)
    {c : ConnId} {conn'' : Conn} (live' : v'.conn c = some conn'') : Leaves v v' i c conn'' := by
  -- a step that changes nothing but the messages and databases
  have same (conns : v'.conn = v.conn) (attends : (v.pc i).Attends c → (v'.pc i).Attends c) :
      Leaves v v' i c conn'' :=
    .still (conns ▸ live') rfl rfl fun _ => attends
  have updated {d : ConnId} {conn' : Conn} (conns : v'.conn = Function.update v.conn d (some conn'))
      (free : c ≠ d → ¬ (v.pc i).Attends c) (self : c = d → Leaves v v' i d conn') :
      Leaves v v' i c conn'' := by
    rw [conns] at live'
    by_cases here : c = d
    · subst here
      obtain rfl : conn' = conn'' := by simpa using live'
      exact self rfl
    · rw [Function.update_of_ne here] at live'
      exact leaves_of_same live' (free here)
  have belongs {d : ConnId} {conn : Conn} (mem : d ∈ (v.pc i).conns) (live : v.conn d = some conn) :
      conn.shardId = i.val := (routed.conns i d mem).2 conn live
  cases move with
  | quiet _ _ _ _ passes => exact passes.leaves live'
  | @flush d conn stands live =>
    have free : ¬ (v.pc i).Attends d := by simp [stands, Pc.Attends, Pc.underway]
    refine updated rfl (fun _ => by simp [stands, Pc.Attends, Pc.underway]) fun _ => ?_
    exact .still live rfl rfl fun _ attends => absurd attends free
  | dequeue stands | execute stands =>
    exact same rfl (by simp [stands, Pc.Attends, Pc.underway])
  | shutdown hands | dispatch hands =>
    refine same rfl ?_
    rw [hands.at_serve]
    simp [Pc.Attends, Pc.underway]
  | @claim t msg k stands =>
    refine same rfl ?_
    rw [stands]
    cases k <;> simp [Pc.Attends, Pc.underway]
  | @skip d conn args k stands live request =>
    apply finishRequest_leaves rfl rfl live _ _ _ live'
    · apply belongs _ live
      rcases stands with stands | ⟨j, stands⟩ <;> simp [stands, Pc.conns, Waking.conns]
    · intro complete
      -- where the request was read
      rcases stands with stands | ⟨j, stands⟩
      · obtain ⟨outside, env, -, head, -⟩ := request stands
        exact fits_of_head head complete
      · exact attended.underway i d args conn (by simp [stands, Pc.underway]) live complete
    · intro other
      rcases stands with stands | ⟨j, stands⟩
      · rw [stands]
        exact fun same => other same.symm
      · simpa [stands, Pc.Attends, Pc.underway] using Ne.symm other
  | @refuse d conn k outside env w stands live =>
    apply updated rfl
    · rw [stands]
      exact fun other same => other same.symm
    · exact fun _ => .ended rfl
  | @answer d conn conn' args k values env outcome w hands answer =>
    apply finishRequest_leaves rfl rfl hands.live _ _ hands.free live'
    · rw [plainAnswer_shardId answer]
      exact routed.hands hands
    · rw [plainAnswer_recv answer]
      exact hands.fits
  | flushall hands | inline hands =>
    have own := routed.hands hands
    exact finishRequest_leaves rfl rfl hands.live own hands.fits hands.free live'
  | @dispatched t d conn args k stands live =>
    apply updated rfl
    · intro other
      simpa [stands, Pc.Attends, Pc.underway] using Ne.symm other
    · intro _
      apply Leaves.waits
      rw [finish_flags]
  | @deliver count ctx fields conn stands live =>
    apply updated rfl (fun _ => by simp [stands, Pc.Attends, Pc.underway])
    intro _
    have own := routed.delivers stands live
    exact .attends (by simp [Pc.Attends]) own
  | @accept es recv stands empty =>
    apply updated rfl (fun _ => by simp [stands, Pc.Attends, Pc.underway])
    intro _
    apply Leaves.rest
    have nothing : recv.window = [] := List.length_eq_zero_iff.mp (by simp [empty])
    show ¬ Complete recv.window
    rw [nothing]
    exact not_complete_nil
  | @receive d hup es conn recv ending pc r stands live is ends goes data other =>
    have free (e : ConnId) : ¬ (v.pc i).Attends e := by simp [stands, Pc.Attends, Pc.underway]
    apply updated rfl fun _ => free c
    intro _
    by_cases some : ∃ bytes, r = .data bytes
    · obtain ⟨bytes, rfl⟩ := some
      -- what was read is looked at, unless a response is awaited
      cases waiting : conn.flags.dispatchWaiting with
      | true => exact .waits waiting
      | false =>
        obtain rfl := (data bytes rfl).2 waiting
        have own : conn.shardId = i.val := belongs (by simp [stands, Pc.conns]) live
        exact .attends (by simp [Pc.Attends]) own
    · -- `END` may be set, and nothing else changes
      cases stops : ending with
      | true => exact .ended rfl
      | false =>
        have going : conn.flags.ending = false := by
          cases ended : conn.flags.ending with
          | false => rfl
          | true => simpa [stops] using ends.mpr (.inl ended)
        apply Leaves.still live (other some).1
        · rw [← going]
        · exact fun _ attends => absurd attends (free d)
  | @close d conn pc live place =>
    have free (e : ConnId) : ¬ (v.pc i).Attends e := by
      rcases place with ⟨hup, es, stands, -⟩ | ⟨stands, -⟩ <;> simp [stands, Pc.Attends, Pc.underway]
    by_cases here : c = d
    · subst here
      simp at live'
    · apply leaves_of_same _ (free c)
      rwa [View.goto_conn, View.setConn_conn_of_ne _ _ _ here] at live'

/-! ### The invariant -/

theorem Move.carried (move : Move cfg v i a v' seen) (routed : Routed v) {c : ConnId}
    (carries : v.Carries c) : v'.Carries c ∨
      (v.pc i).dispatching = [] ∧ ∃ conn conn', v.conn c = some conn ∧ conn.shardId = i.val ∧
        v'.conn c = some conn' ∧ conn'.flags.dispatchWaiting = false := by
  rcases move.carries carries with carries | ⟨count, ctx, fields, stands, rfl⟩
  · exact .inl carries
  · obtain ⟨conn, conn', live, live', cleared⟩ := move.delivered stands
    have own := routed.delivers stands live
    exact .inr ⟨by simp [stands, Pc.dispatching], conn, conn', live, own, live', cleared⟩

theorem Attended.published (attended : Attended v) (routed : Routed v)
    (move : Move cfg v i a v' seen) {t : Fin n} {c : ConnId} {args : CmdArgs} {k : Serving}
    (stands : v.pc i = .publish t (.request c args k)) : v'.Carries c := by
  rcases move.carried routed (attended.publishing i t c args k stands) with carries | ⟨idle, -⟩
  · exact carries
  · simp [stands, Pc.dispatching, Sending.dispatching] at idle

theorem Attended.move_publishing (attended : Attended v) (routed : Routed v)
    (move : Move cfg v i a v' seen) {j t : Fin n} {c : ConnId} {args : CmdArgs} {k : Serving}
    (stands' : v'.pc j = .publish t (.request c args k)) : v'.Carries c := by
  by_cases here : j = i
  · subst here
    rcases move.dispatching with none | ⟨_, _, _, _, _, goes, -⟩ | ⟨t', m, k', stands, goes⟩
    · simp [stands', Pc.dispatching, Sending.dispatching] at none
    · simp [goes] at stands'
    · rw [goes] at stands'
      cases stands'
      have held : v.mail.Holds m := ⟨j, .inr (by simp [View.mail, stands, Pc.sending])⟩
      have about := attended.sending j t m c args k stands
      rcases move.carried routed ⟨m, held, about⟩ with carries | ⟨idle, -⟩
      · exact carries
      · simp [stands, Pc.dispatching, Sending.dispatching] at idle
  · -- the message is not delivered: that would be a step of this shard
    have stands : v.pc j = .publish t (.request c args k) := move.pc_of_ne here ▸ stands'
    rcases move.carried routed (attended.publishing j t c args k stands) with
      carries | ⟨-, conn, _, live, own, -⟩
    · exact carries
    · have belongs := routed.conns j c (by simp [stands, Pc.conns, Sending.conns])
      exact absurd (Fin.ext ((belongs.2 conn live).symm.trans own)) here

theorem Attended.move_waiting (attended : Attended v) (routed : Routed v)
    (move : Move cfg v i a v' seen) {c : ConnId} {conn' : Conn} (live' : v'.conn c = some conn')
    (waits : conn'.flags.dispatchWaiting = true) : v'.Carries c := by
  rcases move.waits live' waits with ⟨conn, live, before⟩ | ⟨t, args, k, stands⟩
  · rcases move.carried routed (attended.waiting c conn live before) with
      carries | ⟨-, -, conn'', -, -, found, cleared⟩
    · exact carries
    · obtain rfl : conn' = conn'' := by simpa [live'] using found
      simp [cleared] at waits
  · exact attended.published routed move stands

theorem Attended.move_left (attended : Attended v) (routed : Routed v)
    (move : Move cfg v i a v' seen) {c : ConnId} {conn' : Conn} (live' : v'.conn c = some conn')
    (free : conn'.flags.dispatchWaiting = false) (going : conn'.flags.ending = false)
    (complete : Complete conn'.recv.window) : ∃ j, conn'.shardId = j.val ∧ (v'.pc j).Attends c := by
  cases move.leaves routed attended live' with
  | @still conn live window flags attends =>
    rw [flags] at free going
    rw [window] at complete
    obtain ⟨j, own, before⟩ := attended.left c conn live free going complete
    -- it is the same connection on the same shard
    have same : conn'.shardId = conn.shardId := by
      rcases move.keeps.2 c conn' live' with ⟨conn'', live'', same⟩ | ⟨new, -⟩
      · obtain rfl : conn = conn'' := by simpa [live] using live''
        exact same
      · exact absurd (routed.live c conn live) (Nat.not_lt.mpr new)
    refine ⟨j, same.trans own, ?_⟩
    by_cases here : j = i
    · subst here
      exact attends own before
    · rwa [move.pc_of_ne here]
  | attends attends own => exact ⟨i, own, attends⟩
  | waits waits => simp [free] at waits
  | ended ended => simp [going] at ended
  | rest rest => exact absurd complete rest

theorem Attended.move (attended : Attended v) (routed : Routed v) (move : Move cfg v i a v' seen) :
    Attended v' := by
  constructor
  · intro j t m c args k stands'
    by_cases here : j = i
    · subst here
      rcases move.dispatching with none | ⟨_, _, _, _, _, goes, about⟩ | ⟨_, _, _, -, goes⟩
      · simp [stands', Pc.dispatching, Sending.dispatching] at none
      · rw [goes] at stands'
        cases stands'
        exact about
      · simp [goes] at stands'
    · exact attended.sending j t m c args k (move.pc_of_ne here ▸ stands')
  · exact fun j t c args k => attended.move_publishing routed move
  · exact fun c conn' => attended.move_waiting routed move
  · intro j c args conn' underway' live' complete
    by_cases here : j = i
    · subst here
      -- the request was under way, or the step begins it
      rcases move.stream.underway underway' with ⟨before, same⟩ | ⟨conn, requests, same⟩
      · rw [same] at live'
        exact attended.underway j c args conn' before live' complete
      · obtain ⟨k, outside, env, -, -, live, head, -⟩ := requests
        obtain rfl : conn = conn' := by simpa [same, live] using live'
        exact fits_of_head head complete
    · have underway : (v.pc j).underway = some (c, args) := move.pc_of_ne here ▸ underway'
      rw [move.conn_of_mem routed here (Pc.mem_conns_of_underway underway)] at live'
      exact attended.underway j c args conn' underway live' complete
  · exact fun c conn' => attended.move_left routed move

end Moves

theorem attended_init (n : ℕ) : Attended (State.init n).view := by
  constructor <;> simp [State.init, State.view, Pc.underway]

/-! ### Every run -/

/-- Where the owner of a connection is between the phases of its loop and no message about the
connection is on its way, the window does not start with a complete request unless `END` is
set. -/
theorem no_complete_left [NeZero n] {cfg : Config} {s : State n} {trace : List Event}
    (run : (server cfg).Reaches (State.init n) s trace) {i : Fin n} (idle : (s.shard i).pc.Idle)
    {c : ConnId} {conn : Conn} (live : s.conn c = some conn) (own : conn.shardId = i.val)
    (going : conn.flags.ending = false) (quiet : s.view.Quiet c) : ¬ Complete conn.recv.window := by
  obtain ⟨-, attended⟩ := reaches_invariant (fun v _ => Attended v) (routed_init n) (attended_init n)
    (fun routed attended move => attended.move routed move) run
  intro complete
  cases free : conn.flags.dispatchWaiting with
  | true => exact quiet.not_carries (attended.waiting c conn live free)
  | false =>
    obtain ⟨j, own', attends⟩ := attended.left c conn live free going complete
    obtain rfl : i = j := Fin.ext (own.symm.trans own')
    exact idle.not_attends c attends

/-- `PING` and a part of the next request arrive while `GET a` is with the other shard. -/
def heldBack : List (Fin 2 × Action) :=
  goToSleep shard0 0 ++ acceptClient shard0 65536 ++ goToSleep shard0 1 ++
    readFrom shard0 0 (asciiBytes "GET a" ++ crlf) ++ [serveNext shard0] ++
    List.replicate 14 (shard0, .go) ++ readFrom shard0 0 (asciiBytes "PING" ++ crlf ++ asciiBytes "GET") ++
    List.replicate 2 (shard0, .go) ++ List.replicate 10 (shard1, .go) ++
    List.replicate 9 (shard0, .go) ++ [serveNext shard0, serveNext shard0]

instance (pc : Pc n) : Decidable pc.Idle := by
  unfold Pc.Idle
  split <;> infer_instance

theorem no_complete_left_held_back : ∃ s trace conn,
    (server config).Reaches (State.init 2) s trace ∧ s.conn 0 = some conn ∧
      conn.recv.window = asciiBytes "GET" ∧ ¬ Complete conn.recv.window := by
  have done : ∃ r ∈ (server config).exec (State.init 2) heldBack, ∃ conn ∈ r.1.conn 0,
      (r.1.shard shard0).pc.Idle ∧ r.1.view.Quiet 0 ∧ conn.shardId = shard0.val ∧
        conn.flags.ending = false ∧ conn.recv.window = asciiBytes "GET" := by decide +kernel
  obtain ⟨⟨s, trace⟩, taken, conn, live, idle, quiet, own, going, window⟩ := done
  have run := Machine.reaches_of_exec _ taken
  exact ⟨s, trace, conn, run, live, window, no_complete_left run idle live own going quiet⟩

end GhettoRedis.Server
