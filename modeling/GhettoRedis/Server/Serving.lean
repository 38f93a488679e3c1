import GhettoRedis.Server.Stream

/-!
# Calls of `on_data_available`

Where the loop over `on_data_available` is entered and goes on, and that only the owner of a
connection changes it.
-/
namespace GhettoRedis.Server

open Lib Protocol Commands

variable {n : ℕ}

section Moves

variable [NeZero n] {cfg : Config} {v v' : View n} {i : Fin n} {a : Action} {seen : List Event}

/-! ### Owners -/

omit [NeZero n] in
theorem conn_of_update {c d : ConnId} {conn conn' : Conn} {next : Option Conn}
    (live : v.conn d = some conn') (own : conn'.shardId = i.val)
    (conns : v'.conn = Function.update v.conn d next) (before : v.conn c = some conn)
    (other : conn.shardId ≠ i.val) : v'.conn c = some conn := by
  have elsewhere : c ≠ d := by
    rintro rfl
    obtain rfl : conn = conn' := by simpa [before] using live
    exact other own
  rw [conns, Function.update_of_ne elsewhere, before]

omit [NeZero n] in
/-- A response is delivered by the shard of its connection. -/
theorem Routed.delivers (routed : Routed v) {count : ℕ} {ctx : CBContext n} {fields : RespFields}
    {conn : Conn} (stands : v.pc i = .callback count (.response ctx fields))
    (live : v.conn ctx.conn = some conn) : conn.shardId = i.val := by
  have mem : .response ctx fields ∈ v.mail.inbox i := by simp [View.inbox_callback stands]
  have here : ctx.dst = i := (routed.inbox i _ mem).1
  rw [(routed.owner _ (View.holds_callback stands)).2 conn live, Message.owner, here]

/-- A step of one shard leaves the connections of the others as they are. -/
theorem Move.conn_of_other (routed : Routed v) (move : Move cfg v i a v' seen) {c : ConnId}
    {conn : Conn} (before : v.conn c = some conn) (other : conn.shardId ≠ i.val) :
    v'.conn c = some conn := by
  have belongs {d : ConnId} {conn' : Conn} (mem : d ∈ (v.pc i).conns) (live : v.conn d = some conn') :
      conn'.shardId = i.val := (routed.conns i d mem).2 conn' live
  cases move with
  | quiet | dequeue | shutdown | dispatch | claim | execute => exact before
  | flush _ live own => exact conn_of_update live own rfl before other
  | skip stands live =>
    refine conn_of_update live (belongs ?_ live) rfl before other
    rcases stands with stands | ⟨j, stands⟩ <;> simp [stands, Pc.conns, Waking.conns]
  | refuse stands live =>
    exact conn_of_update live (belongs (by simp [stands, Pc.conns]) live) rfl before other
  | answer hands | flushall hands | inline hands =>
    exact conn_of_update hands.live (routed.hands hands) rfl before other
  | dispatched stands live =>
    exact conn_of_update live (belongs (by simp [stands, Pc.conns, Sending.conns]) live) rfl before
      other
  | deliver stands live =>
    exact conn_of_update live (routed.delivers stands live) rfl before other
  | accept =>
    have old : c ≠ v.nextConn := (routed.live c conn before).ne
    simpa [View.goto, View.setConn, Function.update_of_ne old] using before
  | receive stands live =>
    exact conn_of_update live (belongs (by simp [stands, Pc.conns]) live) rfl before other
  | close live place =>
    refine conn_of_update live ?_ rfl before other
    rcases place with ⟨hup, es, stands, -⟩ | ⟨-, -, own⟩
    · exact belongs (by simp [stands, Pc.conns]) live
    · exact own

/-- What shard `j` has at hand stays as it is while another shard takes a step. -/
theorem Move.conn_of_mem (routed : Routed v) (move : Move cfg v i a v' seen) {j : Fin n}
    (other : j ≠ i) {c : ConnId} (mem : c ∈ (v.pc j).conns) : v'.conn c = v.conn c := by
  have belongs := routed.conns j c mem
  cases before : v.conn c with
  | some conn =>
    apply move.conn_of_other routed before
    rw [belongs.2 conn before]
    exact fun same => other (Fin.ext same)
  | none =>
    cases after : v'.conn c with
    | none => rfl
    | some conn' =>
      rcases move.keeps.2 c conn' after with ⟨conn, live, -⟩ | ⟨new, -⟩
      · simp [before] at live
      · exact absurd belongs.1 (Nat.not_lt.mpr new)

/-! ### Entries -/

/-- How shard `i` comes to call `on_data_available` for connection `c`, which is then `conn'`. -/
inductive Entry (v : View n) (i : Fin n) (a : Action) (c : ConnId) (conn' : Conn) : Serving → Prop
  | onCb {count : ℕ} : v.pc i = .onCb count c → v.conn c = some conn' → conn'.shardId = i.val →
      Entry v i a c conn' (.onCb count)
  | epollin {hup : Bool} {es : List EpollEvent} {bytes : Bytes} {conn : Conn} :
      v.pc i = .read c hup es → a = .read (.data bytes) → v.conn c = some conn →
      conn.flags.dispatchWaiting = false → conn'.flags.ending = conn.flags.ending →
      Entry v i a c conn' (.epollin hup es)
  /-- There is more in the window, and `END` is not set. -/
  | again {k : Serving} : conn'.flags.ending = false → 0 < conn'.recv.size → Entry v i a c conn' k

omit [NeZero n] in
theorem finish_more {conn : Conn} {args : CmdArgs} {answered : Bool}
    (more : (conn.finish args answered).1 = true) :
    (conn.finish args answered).2.flags.ending = false ∧
      0 < (conn.finish args answered).2.recv.size := by
  revert more
  unfold Conn.finish
  split
  next => simp
  next going =>
    split
    next =>
      intro more
      exact ⟨by simpa using going, by simpa [RecvBuf.consume] using more⟩
    next => simp

omit [NeZero n] in
theorem Serving.pc_ne_serve (c d : ConnId) (k k' : Serving) : (k.pc c : Pc n) ≠ .serve d k' := by
  cases k <;> simp [Serving.pc]

omit [NeZero n] in
theorem finishRequest_entry {w : View n} {c d : ConnId} {conn conn' : Conn} {args : CmdArgs}
    {answered : Bool} {k k' : Serving}
    (stands' : (w.finishRequest i d conn args answered k).pc i = .serve c k')
    (live' : (w.finishRequest i d conn args answered k).conn c = some conn') :
    Entry v i a c conn' k' := by
  simp only [View.finishRequest, View.goto_pc_self] at stands'
  split at stands'
  next more =>
    cases stands'
    obtain rfl : (conn.finish args answered).2 = conn' := by simpa using live'
    exact .again (finish_more more).1 (finish_more more).2
  next => exact absurd stands' (k.pc_ne_serve d c k')

theorem Move.entry (move : Move cfg v i a v' seen) {c : ConnId} {k : Serving} {conn' : Conn}
    (stands' : v'.pc i = .serve c k) (live' : v'.conn c = some conn') : Entry v i a c conn' k := by
  cases move with
  | quiet _ _ _ _ passes =>
    rw [View.goto_pc_self] at stands'
    rw [View.goto_conn] at live'
    cases passes with
    | idle _ idle => exact (stands' ▸ idle : (Pc.serve c k : Pc n).Idle).elim
    | stopping _ stops => simp [stands', Pc.stopping] at stops
    | served => exact (Serving.pc_ne_serve _ _ _ _ stands').elim
    | looked stands live =>
      split at stands'
      next own =>
        cases stands'
        obtain rfl : _ = conn' := by simpa [live] using live'
        exact .onCb stands live own
      next => cases stands'
    | sent => cases stands'
    | event =>
      split at stands' <;> cases stands'
    | spared => cases stands'
  | flush | dequeue | shutdown | dispatch | claim | execute | deliver | accept => simp at stands'
  | skip | answer | flushall | inline | dispatched => exact finishRequest_entry stands' live'
  | refuse =>
    rw [View.goto_pc_self] at stands'
    exact (Serving.pc_ne_serve _ _ _ _ stands').elim
  | @receive d hup es conn recv ending pc r stands live is ends goes _ other =>
    rw [View.goto_pc_self] at stands'
    rcases goes with rfl | ⟨rfl, free⟩
    · cases stands'
    · cases stands'
      obtain rfl : _ = conn' := by simpa [View.goto] using live'
      subst is
      cases r with
      | data bytes =>
        exact .epollin stands rfl live free (Bool.eq_iff_iff.mpr (by simpa using ends))
      | again | error | eof => simpa using (other (by simp)).2
  | close _ place =>
    rw [View.goto_pc_self] at stands'
    rcases place with ⟨_, _, _, rfl, _⟩ | ⟨_, rfl, _⟩ <;> cases stands'

end Moves

end GhettoRedis.Server
