import GhettoRedis.Commands.Register
import GhettoRedis.Server.Numbers

/-!
# Every key is a register

The commands on one key of one database, from whatever connections they come and on whatever
shards those are: each takes effect where it is executed, between its call and its reply, and
the requests that are on their way to the home shard are those that are still to take effect.
-/
namespace GhettoRedis.Server

open Lib Protocol Commands

variable {n : ℕ}

/-! ### The history of a key -/

/-- A key of a database, and the databases that the connections have selected. -/
structure Spot where
  db : Size
  key : Bytes
  chosen : ConnId → Size

/-- Commands are told apart by their connection and their number. -/
abbrev CommandMark := Mark (ConnId × ℕ) Op Write

/-- What a keyed command does to `key`. -/
def opOn (key : Bytes) : Outcome → Option Op
  | .keyed op key' => if key' = key then some op else none
  | _ => none

section History

variable (n) (cfg : Config) (r : Spot)

/-- What an event is to the commands on the key. -/
def Event.mark (marks : List CommandMark) : Event → Option CommandMark
  | .handled c index values env =>
    if r.chosen c = r.db then
      (opOn r.key (handleCommand n cfg.numDbs env values)).map fun op => .call (c, index) op
    else none
  | .executed c index db key op _ result =>
    if db = r.db ∧ key = r.key then some (.effect (c, index) op (cmdResp result)) else none
  | .replied c index _ w =>
    if (c, index) ∈ (calls marks).map Prod.fst then some (.ret (c, index) w) else none
  | _ => none

def extendMarks (marks : List CommandMark) (e : Event) : List CommandMark :=
  marks ++ (e.mark n cfg r marks).toList

/-- The commands on the key in a run: when each is parsed, executed and answered. -/
def history (trace : List Event) : List CommandMark := trace.foldl (extendMarks n cfg r) []

variable {n cfg r} {trace : List Event}

theorem history_append (seen : List Event) :
    history n cfg r (trace ++ seen) = seen.foldl (extendMarks n cfg r) (history n cfg r trace) :=
  List.foldl_append

theorem extendMarks_none {marks : List CommandMark} {e : Event} (none : e.mark n cfg r marks = none) :
    extendMarks n cfg r marks e = marks := by
  rw [extendMarks, none, Option.toList_none, List.append_nil]

theorem extendMarks_some {marks : List CommandMark} {e : Event} {m : CommandMark}
    (is : e.mark n cfg r marks = some m) : extendMarks n cfg r marks e = marks ++ [m] := by
  rw [extendMarks, is, Option.toList_some]

theorem history_of_unmarked {seen : List Event}
    (none : ∀ e ∈ seen, ∀ marks, e.mark n cfg r marks = none) :
    history n cfg r (trace ++ seen) = history n cfg r trace := by
  rw [history_append]
  induction seen with
  | nil => rfl
  | cons e seen ih =>
    rw [List.foldl_cons, extendMarks_none (none e List.mem_cons_self _)]
    exact ih fun e mem => none e (List.mem_cons_of_mem _ mem)

theorem Event.Silent.unmarked {e : Event} (silent : e.Silent) (marks : List CommandMark) :
    e.mark n cfg r marks = none := by
  cases e with
  | handled | executed | replied => exact silent.elim
  | _ => rfl

theorem opOn_eq_some {key : Bytes} {outcome : Outcome} {op : Op} :
    opOn key outcome = some op ↔ outcome = .keyed op key := by
  cases outcome with
  | keyed op' key' => simp [opOn, and_comm]
  | _ => simp [opOn]

theorem mark_handled {marks : List CommandMark} {c : ConnId} {index : ℕ} {values : List Value}
    {env : Env} {op : Op} (chosen : r.chosen c = r.db)
    (outcome : handleCommand n cfg.numDbs env values = .keyed op r.key) :
    (Event.handled c index values env).mark n cfg r marks = some (.call (c, index) op) := by
  rw [Event.mark, if_pos chosen, opOn_eq_some.mpr outcome, Option.map_some]

theorem mark_handled_none {marks : List CommandMark} {c : ConnId} {index : ℕ} {values : List Value}
    {env : Env} (other : ∀ op, r.chosen c = r.db →
      handleCommand n cfg.numDbs env values ≠ .keyed op r.key) :
    (Event.handled c index values env).mark n cfg r marks = none := by
  rw [Event.mark]
  split
  next chosen =>
    rw [Option.map_eq_none_iff, Option.eq_none_iff_forall_ne_some]
    exact fun op is => other op chosen (opOn_eq_some.mp is)
  next => rfl

theorem mark_executed {marks : List CommandMark} {c : ConnId} {index : ℕ} {db : Size} {key : Bytes}
    {op : Op} {found : Option Value} {result : Result} (on : db = r.db ∧ key = r.key) :
    (Event.executed c index db key op found result).mark n cfg r marks =
      some (.effect (c, index) op (cmdResp result)) := if_pos on

theorem mark_replied {marks : List CommandMark} {c : ConnId} {index offset : ℕ} {w : Write} {op : Op}
    (called : .call (c, index) op ∈ marks) :
    (Event.replied c index offset w).mark n cfg r marks = some (.ret (c, index) w) :=
  if_pos (List.mem_map.mpr ⟨((c, index), op), mem_calls.mpr called, rfl⟩)

/-- What is called in the history was handed on. -/
theorem handled_of_call {c : ConnId} {index : ℕ} {op : Op}
    (mem : .call (c, index) op ∈ history n cfg r trace) :
    r.chosen c = r.db ∧ Handled n cfg trace c index (.keyed op r.key) := by
  induction trace using List.reverseRecOn with
  | nil => cases mem
  | append_singleton trace e ih =>
    rw [history_append, List.foldl_cons, List.foldl_nil, extendMarks] at mem
    rcases List.mem_append.mp mem with old | new
    · exact ⟨(ih old).1, (ih old).2.append [e]⟩
    · have is := Option.mem_toList.mp new
      cases e with
      | handled d index' values env =>
        obtain ⟨chosen, is⟩ := (Option.ite_none_right_eq_some ..).mp is
        obtain ⟨op', on, is⟩ := Option.map_eq_some_iff.mp is
        cases is
        exact ⟨chosen, values, env, by simp, opOn_eq_some.mp on⟩
      | executed | replied => cases ((Option.ite_none_right_eq_some ..).mp is).2
      | accepted | refused | flushed | closed => cases is

theorem effect_of_executed {c : ConnId} {index : ℕ} {op : Op} {found : Option Value} {result : Result}
    (mem : .executed c index r.db r.key op found result ∈ trace) :
    .effect (c, index) op (cmdResp result) ∈ history n cfg r trace := by
  induction trace using List.reverseRecOn with
  | nil => cases mem
  | append_singleton trace e ih =>
    rw [history_append, List.foldl_cons, List.foldl_nil, extendMarks]
    rcases List.mem_append.mp mem with old | new
    · exact List.mem_append_left _ (ih old)
    · obtain rfl := List.mem_singleton.mp new
      exact List.mem_append_right _ (by simp [Event.mark])

theorem mark_replied_none {c : ConnId} {index offset : ℕ} {w : Write}
    (free : ∀ op key, ¬ Handled n cfg trace c index (.keyed op key)) :
    (Event.replied c index offset w).mark n cfg r (history n cfg r trace) = none := by
  refine if_neg fun mem => ?_
  obtain ⟨o, called, is⟩ := List.mem_map.mp mem
  obtain ⟨id, op⟩ := o
  obtain rfl : id = (c, index) := is
  exact free op r.key (handled_of_call (mem_calls.mp called)).2

end History

/-! ### The entry -/

/-- The value of the key. -/
def View.entry [NeZero n] (v : View n) (r : Spot) : Option Value :=
  hashmapGetWithHash (v.dbs (home r.key) r.db) r.key (hashmapXxhash3 r.key 0 0)

section Entry

variable [NeZero n] {v v' : View n} {i : Fin n} {r : Spot} {op : Op} {map : Hashmap} {result : Result}

theorem entry_setDb_hit (here : home r.key = i)
    (executed : cmdExec op (v.dbs i r.db) r.key (hashmapXxhash3 r.key 0 0) = (map, result))
    (dbs : v'.dbs = (v.setDb i r.db map).dbs) :
    (v'.entry r, cmdResp result) = register (v.entry r) op := by
  subst here
  have does := cmdExec_register (v.dbs (home r.key) r.db) r.key (hashmapXxhash3 r.key 0 0) op
  rw [executed] at does
  rw [View.entry, View.entry, ← does, dbs]
  simp [View.setDb]

theorem entry_setDb_miss {db : Size} {key : Bytes} {hash : Size} (other : ¬ (db = r.db ∧ key = r.key))
    (executed : cmdExec op (v.dbs i db) key hash = (map, result))
    (dbs : v'.dbs = (v.setDb i db map).dbs) : v'.entry r = v.entry r := by
  rw [View.entry, View.entry, dbs]
  by_cases here : home r.key = i
  · subst here
    by_cases same : r.db = db
    · subst same
      have different : r.key ≠ key := fun is => other ⟨rfl, is.symm⟩
      have kept := cmdExec_other (v.dbs (home r.key) r.db) hash (hashmapXxhash3 r.key 0 0) different op
      rw [executed] at kept
      simpa [View.setDb] using kept
    · simp [View.setDb, Function.update_of_ne same]
  · simp [View.setDb, Function.update_of_ne here]

end Entry

/-! ### Requests on their way -/

/-- A request for the key. -/
def Message.call (key : Bytes) : Message n → Option ((ConnId × ℕ) × Op)
  | .request ctx key' _ fields =>
    if key' = key then some ((ctx.conn, ctx.index), cmdPreDispatchExec fields) else none
  | .response _ _ => none

/-- The commands on the key on their way from shard `j` of connection `c` to the home shard. -/
def View.awaiting [NeZero n] (v : View n) (r : Spot) (c : ConnId) (j : Fin n) :
    List ((ConnId × ℕ) × Op) := (v.forth c j (home r.key)).filterMap (Message.call r.key)

/-- The value of the key is that of a register behind the commands that have taken effect; what a
connection has called beyond them is on its way. -/
structure Points [NeZero n] (cfg : Config) (r : Spot) (stored : Option Value) (owner : ConnId → Fin n)
    (v : View n) (trace : List Event) : Prop where
  tracks : Tracks register stored Prod.fst (history n cfg r trace) (v.entry r)
  waits : ∀ c, r.chosen c = r.db →
    Outstanding Prod.fst c (history n cfg r trace) (v.awaiting r c (owner c))

def View.OwnedBy (v : View n) (owner : ConnId → Fin n) : Prop :=
  ∀ c conn, v.conn c = some conn → conn.shardId = (owner c).val

/-- Every connection is on its shard and keeps its database. -/
structure Chosen (r : Spot) (owner : ConnId → Fin n) (v : View n) (trace : List Event) : Prop where
  owns : v.OwnedBy owner
  selected : ∀ c conn, v.conn c = some conn → conn.db = r.chosen c
  fresh : ∀ c, v.nextConn ≤ c → r.chosen c = 0
  executed : ∀ c index db key op found result,
    .executed c index db key op found result ∈ trace → db = r.chosen c

section Moves

variable [NeZero n] {cfg : Config} {r : Spot} {stored : Option Value} {owner : ConnId → Fin n}
  {v v' : View n} {i : Fin n} {a : Action} {seen trace : List Event}

omit [NeZero n] in
/-- A request for the key counts for its connection only. -/
theorem call_forth_self (d : ConnId) (ctx : CBContext n) (key : Bytes) (hash : Size)
    (fields : ReqFields) {t : Fin n} (src : ctx.src = owner ctx.conn) (dst : ctx.dst = t) :
    (Message.forth d (owner d) t (.request ctx key hash fields)).toList.filterMap (Message.call key) =
      ofClient Prod.fst d [((ctx.conn, ctx.index), cmdPreDispatchExec fields)] := by
  by_cases about : ctx.conn = d
  · subst about
    rw [Message.forth, if_pos ⟨rfl, src, dst⟩]
    simp [Message.call, ofClient]
  · rw [Message.forth, if_neg fun all => about all.1]
    simp [ofClient, about]

omit [NeZero n] in
theorem call_forth_other {d : ConnId} {j t : Fin n} {ctx : CBContext n} {key : Bytes} {hash : Size}
    {fields : ReqFields} (other : ¬ (r.chosen ctx.conn = r.db ∧ key = r.key)) (its : r.chosen d = r.db) :
    (Message.forth d j t (.request ctx key hash fields)).toList.filterMap (Message.call r.key) = [] := by
  rw [Message.forth]
  split
  next route =>
    have different : key ≠ r.key := fun same => other ⟨route.1 ▸ its, same⟩
    simp [Message.call, different]
  next => rfl

theorem Points.still (points : Points cfg r stored owner v trace)
    (same : history n cfg r (trace ++ seen) = history n cfg r trace) (entry : v'.entry r = v.entry r)
    (awaiting : ∀ c, r.chosen c = r.db → v'.awaiting r c (owner c) = v.awaiting r c (owner c)) :
    Points cfg r stored owner v' (trace ++ seen) := by
  constructor
  · rw [same, entry]
    exact points.tracks
  · intro c here
    rw [same, awaiting c here]
    exact points.waits c here

omit [NeZero n] in
theorem SameLanes.awaiting [NeZero n] (lanes : SameLanes v v') (c : ConnId) (j : Fin n) :
    v'.awaiting r c j = v.awaiting r c j := by
  rw [View.awaiting, lanes.forth, View.awaiting]

theorem entry_of_same (dbs : v'.dbs = v.dbs) : v'.entry r = v.entry r := by
  rw [View.entry, dbs, View.entry]

section Called

variable {c : ConnId} {k : Serving} {conn : Conn} {args : CmdArgs} {values : List Value} {env : Env}
  {outcome : Outcome}

/-- The number of a request that is handed on is free. -/
theorem Indexed.free (indexed : Indexed n cfg c v trace) (routed : Routed v)
    (hands : Hands cfg v i a c k conn args values env outcome) (op : Op) (key : Bytes) :
    ¬ Handled n cfg trace c conn.answered (.keyed op key) := fun old =>
  absurd (indexed.ready routed hands.at_serve hands.live old) (Nat.lt_irrefl _)

/-- A command that does not concern the key, and its reply. -/
theorem history_other (indexed : Indexed n cfg c v trace) (routed : Routed v)
    (hands : Hands cfg v i a c k conn args values env outcome)
    (other : ∀ op, r.chosen c = r.db → outcome ≠ .keyed op r.key) {seen : List Event}
    (replies : ∀ e ∈ seen, (∃ offset w, e = .replied c conn.answered offset w) ∨
      ∀ marks, e.mark n cfg r marks = none) :
    history n cfg r (trace ++ .handled c conn.answered values env :: seen) = history n cfg r trace := by
  have unhandled : (Event.handled c conn.answered values env).mark n cfg r (history n cfg r trace) = none :=
    mark_handled_none fun op chosen is => other op chosen (hands.outcome.trans is)
  rw [history_append, List.foldl_cons, extendMarks_none unhandled]
  induction seen with
  | nil => rfl
  | cons e seen ih =>
    have none : e.mark n cfg r (history n cfg r trace) = none := by
      rcases replies e List.mem_cons_self with ⟨offset, w, rfl⟩ | none
      · exact mark_replied_none (indexed.free routed hands)
      · exact none _
    rw [List.foldl_cons, extendMarks_none none]
    exact ih fun e mem => replies e (List.mem_cons_of_mem _ mem)

theorem Points.inline (points : Points cfg r stored owner v trace) (chosen : Chosen r owner v trace)
    (indexed : Indexed n cfg c v trace) (routed : Routed v) {op : Op} {key : Bytes} {map : Hashmap}
    {result : Result} {offset : ℕ} {found : Option Value}
    (hands : Hands cfg v i a c k conn args values env (.keyed op key)) (here : home key = i)
    (executed : cmdExec op (v.dbs i conn.db) key (hashmapXxhash3 key 0 0) = (map, result))
    (dbs : v'.dbs = (v.setDb i conn.db map).dbs) (lanes : SameLanes v v') :
    Points cfg r stored owner v' (trace ++ [.handled c conn.answered values env,
      .executed c conn.answered conn.db key op found result,
      .replied c conn.answered offset (cmdResp result)]) := by
  have db := chosen.selected c conn hands.live
  by_cases on : conn.db = r.db ∧ key = r.key
  · obtain ⟨same, rfl⟩ := on
    rw [same] at executed dbs
    have mine : r.chosen c = r.db := db.symm.trans same
    have own : owner c = i := Fin.ext ((chosen.owns c conn hands.live).symm.trans (routed.hands hands))
    let id : ConnId × ℕ := (c, conn.answered)
    have marks : history n cfg r (trace ++ [.handled c conn.answered values env,
        .executed c conn.answered conn.db r.key op found result,
        .replied c conn.answered offset (cmdResp result)]) =
        history n cfg r trace ++ [.call id op] ++ [.effect id op (cmdResp result)] ++
          [.ret id (cmdResp result)] := by
      have called : .call id op ∈ history n cfg r trace ++ [.call id op] ++
          [.effect id op (cmdResp result)] := by simp
      rw [history_append, List.foldl_cons, extendMarks_some (mark_handled mine hands.outcome.symm),
        List.foldl_cons, extendMarks_some (mark_executed ⟨same, rfl⟩), List.foldl_cons,
        extendMarks_some (mark_replied called), List.foldl_nil]
    -- nothing is on its way from the home shard to itself
    have none : v.awaiting r c (owner c) = [] := by
      rw [View.awaiting, own, here, forth_self routed, List.filterMap_nil]
    -- what the other connections wait for stays as it is
    have called (d : ConnId) (its : r.chosen d = r.db) :
        Outstanding Prod.fst d (history n cfg r trace ++ [.call id op])
          (ofClient Prod.fst d [(id, op)] ++ v.awaiting r d (owner d)) := by
      have before := (points.waits d its).call id op
      by_cases about : d = c
      · subst about
        rw [none, List.nil_append] at before
        rwa [none, List.append_nil]
      · have others : ofClient Prod.fst d [(id, op)] = [] := by
          simp [ofClient, id, Ne.symm about]
        rw [others, List.append_nil] at before
        rwa [others, List.nil_append]
    constructor
    · rw [marks]
      have next := called c mine
      rw [none] at next
      have fresh (op' : Op) : .call id op' ∉ history n cfg r trace := fun mem =>
        indexed.free routed hands op' r.key (handled_of_call mem).2
      -- call, effect and return are one step here
      have mineOnly : ofClient Prod.fst c [(id, op)] = [(id, op)] := by simp [ofClient, id]
      rw [mineOnly] at next
      exact ((points.tracks.call fresh).effect next (entry_setDb_hit here executed dbs)).ret
        (List.mem_append_right _ List.mem_cons_self)
    · intro d its
      rw [marks, lanes.awaiting]
      exact (called d its).effect.ret
  · have other (op' : Op) (mine : r.chosen c = r.db) : Outcome.keyed op key ≠ .keyed op' r.key := by
      intro is
      cases is
      exact on ⟨db.trans mine, rfl⟩
    refine points.still (history_other indexed routed hands other ?_)
      (entry_setDb_miss on executed dbs) fun d _ => lanes.awaiting d _
    intro e mem
    simp only [List.mem_cons, List.not_mem_nil, or_false] at mem
    rcases mem with rfl | rfl
    · exact .inr fun _ => if_neg on
    · exact .inl ⟨_, _, rfl⟩

theorem Points.dispatch (points : Points cfg r stored owner v trace) (chosen : Chosen r owner v trace)
    (indexed : Indexed n cfg c v trace) (routed : Routed v) {op : Op} {key : Bytes} {m : Message n}
    (hands : Hands cfg v i a c k conn args values env (.keyed op key))
    (is : m = .request ⟨i, home key, c, conn.answered⟩ key (hashmapXxhash3 key 0 0)
      (cmdPreDispatch op))
    (dbs : v'.dbs = v.dbs)
    (forth : ∀ d j t, v'.forth d j t = v.forth d j t ++ (Message.forth d j t m).toList) :
    Points cfg r stored owner v' (trace ++ [.handled c conn.answered values env]) := by
  have db := chosen.selected c conn hands.live
  have own : i = owner c := Fin.ext ((routed.hands hands).symm.trans (chosen.owns c conn hands.live))
  -- the effect is still to come, at the home shard
  have joins (d : ConnId) : v'.awaiting r d (owner d) = v.awaiting r d (owner d) ++
      (Message.forth d (owner d) (home r.key) m).toList.filterMap (Message.call r.key) := by
    rw [View.awaiting, forth, List.filterMap_append, View.awaiting]
  subst is
  by_cases on : r.chosen c = r.db ∧ key = r.key
  · obtain ⟨mine, rfl⟩ := on
    have marks : history n cfg r (trace ++ [.handled c conn.answered values env]) =
        history n cfg r trace ++ [.call (c, conn.answered) op] := by
      rw [history_append, List.foldl_cons, extendMarks_some (mark_handled mine hands.outcome.symm),
        List.foldl_nil]
    constructor
    · rw [marks, entry_of_same dbs]
      exact points.tracks.call fun op' mem => indexed.free routed hands op' r.key (handled_of_call mem).2
    · intro d its
      have waits := (points.waits d its).call (c, conn.answered) op
      have joined := call_forth_self d ⟨i, home r.key, c, conn.answered⟩ r.key
        (hashmapXxhash3 r.key 0 0) (cmdPreDispatch op) own rfl
      rw [cmdPreDispatchExec_cmdPreDispatch] at joined
      rw [marks, joins, joined]
      exact waits
  · have other (op' : Op) (mine : r.chosen c = r.db) : Outcome.keyed op key ≠ .keyed op' r.key := by
      intro is
      cases is
      exact on ⟨mine, rfl⟩
    refine points.still (history_other indexed routed hands other (by simp)) (entry_of_same dbs) ?_
    intro d its
    rw [joins, call_forth_other on its, List.append_nil]

end Called

theorem Points.execute (points : Points cfg r stored owner v trace) (chosen : Chosen r owner v trace)
    (routed : Routed v) (recorded : Recorded cfg v trace) {count : ℕ} {ctx : CBContext n}
    {key : Bytes} {hash : Size} {fields : ReqFields} {conn : Conn} {map : Hashmap} {result : Result}
    {m : Message n} {found : Option Value} (stands : v.pc i = .callback count m)
    (is : m = .request ctx key hash fields) (live : v.conn ctx.conn = some conn)
    (executed : cmdExec (cmdPreDispatchExec fields) (v.dbs i conn.db) key hash = (map, result))
    (dbs : v'.dbs = (v.setDb i conn.db map).dbs)
    (forth : ∀ d j t, v.forth d j t = (Message.forth d j t m).toList ++ v'.forth d j t) :
    Points cfg r stored owner v' (trace ++ [.executed ctx.conn ctx.index conn.db key
      (cmdPreDispatchExec fields) found result]) := by
  subst is
  have held := View.holds_callback stands
  obtain ⟨rfl, dst, -⟩ := recorded.requests ctx key hash fields held
  have arrived : .request ctx key (hashmapXxhash3 key 0 0) fields ∈ v.mail.inbox i := by
    simp [View.inbox_callback stands]
  have here : ctx.dst = i := (routed.inbox i _ arrived).1
  have own : ctx.src = owner ctx.conn :=
    Fin.ext (((routed.owner _ held).2 conn live).symm.trans (chosen.owns ctx.conn conn live))
  have db := chosen.selected ctx.conn conn live
  -- the request was the first that its connection waits for
  have leaves (d : ConnId) : v.awaiting r d (owner d) =
      (Message.forth d (owner d) (home r.key)
        (.request ctx key (hashmapXxhash3 key 0 0) fields)).toList.filterMap
        (Message.call r.key) ++ v'.awaiting r d (owner d) := by
    rw [View.awaiting, forth, List.filterMap_append, View.awaiting]
  by_cases on : conn.db = r.db ∧ key = r.key
  · obtain ⟨same, rfl⟩ := on
    rw [same] at executed dbs
    have marks : history n cfg r (trace ++ [.executed ctx.conn ctx.index conn.db r.key
        (cmdPreDispatchExec fields) found result]) = history n cfg r trace ++
          [.effect (ctx.conn, ctx.index) (cmdPreDispatchExec fields) (cmdResp result)] := by
      rw [history_append, List.foldl_cons, extendMarks_some (mark_executed ⟨same, rfl⟩), List.foldl_nil]
    have first (d : ConnId) (its : r.chosen d = r.db) :
        Outstanding Prod.fst d (history n cfg r trace)
          (ofClient Prod.fst d [((ctx.conn, ctx.index), cmdPreDispatchExec fields)] ++
            v'.awaiting r d (owner d)) := by
      have waits := points.waits d its
      rwa [leaves, call_forth_self d ctx _ _ _ own dst] at waits
    constructor
    · have next := first ctx.conn (db.symm.trans same)
      have mine : ofClient Prod.fst ctx.conn [((ctx.conn, ctx.index), cmdPreDispatchExec fields)] =
          [((ctx.conn, ctx.index), cmdPreDispatchExec fields)] := by simp [ofClient]
      rw [mine] at next
      rw [marks]
      exact points.tracks.effect next (entry_setDb_hit (dst.symm.trans here) executed dbs)
    · intro d its
      rw [marks]
      exact (first d its).effect
  · -- another key, or the same key of another database
    have other : ¬ (r.chosen ctx.conn = r.db ∧ key = r.key) := db ▸ on
    refine points.still (history_of_unmarked ?_) (entry_setDb_miss on executed dbs) ?_
    · intro e mem marks
      obtain rfl := List.mem_singleton.mp mem
      exact if_neg on
    · intro d its
      rw [leaves, call_forth_other other its, List.nil_append]

theorem Points.deliver (points : Points cfg r stored owner v trace) (chosen : Chosen r owner v trace)
    (recorded : Recorded cfg v trace) {ctx : CBContext n} (indexed : Indexed n cfg ctx.conn v trace)
    {count offset : ℕ} {fields : RespFields} {m : Message n} (stands : v.pc i = .callback count m)
    (is : m = .response ctx fields) (dbs : v'.dbs = v.dbs)
    (forth : ∀ d j t, v'.forth d j t = v.forth d j t) :
    Points cfg r stored owner v' (trace ++ [.replied ctx.conn ctx.index offset
      (cmdResp (cmdPreResp fields))]) := by
  subst is
  have awaiting (d : ConnId) : v'.awaiting r d (owner d) = v.awaiting r d (owner d) := by
    rw [View.awaiting, forth, View.awaiting]
  by_cases called : (ctx.conn, ctx.index) ∈ (calls (history n cfg r trace)).map Prod.fst
  · obtain ⟨o, mem, id⟩ := List.mem_map.mp called
    obtain ⟨⟨c, index⟩, op⟩ := o
    cases id
    have call := mem_calls.mp mem
    obtain ⟨mine, handled⟩ := handled_of_call call
    -- the response is one to this command, since its number is that of no other
    obtain ⟨op', key', db, found, executed, handled'⟩ :=
      recorded.responses ctx fields (View.holds_callback stands)
    obtain ⟨rfl, rfl⟩ := indexed.unique _ _ _ _ _ handled handled'
    obtain rfl : db = r.db := (chosen.executed _ _ _ _ _ _ _ executed).trans mine
    have marks : history n cfg r (trace ++ [.replied ctx.conn ctx.index offset
        (cmdResp (cmdPreResp fields))]) = history n cfg r trace ++
          [.ret (ctx.conn, ctx.index) (cmdResp (cmdPreResp fields))] := by
      rw [history_append, List.foldl_cons, extendMarks_some (mark_replied call), List.foldl_nil]
    constructor
    · rw [marks, entry_of_same dbs]
      exact points.tracks.ret (effect_of_executed executed)
    · intro d its
      rw [marks, awaiting]
      exact (points.waits d its).ret
  · refine points.still ?_ (entry_of_same dbs) fun d _ => awaiting d
    -- the response is about another key, or about this key in another database
    have unmarked : (Event.replied ctx.conn ctx.index offset (cmdResp (cmdPreResp fields))).mark n cfg r
        (history n cfg r trace) = none := if_neg called
    rw [history_append, List.foldl_cons, extendMarks_none unmarked, List.foldl_nil]

/-- A connection that has selected another database calls nothing on the key. -/
theorem Points.outstanding_other (points : Points cfg r stored owner v trace) {c : ConnId}
    (other : r.chosen c ≠ r.db) : Outstanding Prod.fst c (history n cfg r trace) [] := by
  have none {id : ConnId × ℕ} {op : Op} (called : .call id op ∈ history n cfg r trace) : id.1 ≠ c := by
    rintro rfl
    exact other (handled_of_call called).1
  have calls : ofClient Prod.fst c (calls (history n cfg r trace)) = [] := by
    apply List.filter_eq_nil_iff.mpr
    exact fun o mem => by simpa using none (mem_calls.mp mem)
  have effects : ofClient Prod.fst c ((effects (history n cfg r trace)).map fun o => (o.id, o.op)) = [] := by
    apply List.filter_eq_nil_iff.mpr
    intro o mem
    obtain ⟨o', effected, rfl⟩ := List.mem_map.mp mem
    simpa using none (points.tracks.pointed.called o' effected)
  rw [Outstanding, calls, effects, List.append_nil]

/-! ### The condition -/

/-- The command neither selects another database nor clears them all. -/
def KeepsDb (conn : Conn) : Outcome → Prop
  | .select db _ => db = conn.db
  | .flushall _ => False
  | _ => True

instance (conn : Conn) (outcome : Outcome) : Decidable (KeepsDb conn outcome) :=
  match outcome with
  | .select _ _ => inferInstanceAs (Decidable (_ = _))
  | .flushall _ => inferInstanceAs (Decidable False)
  | .reply _ | .quit _ | .shutdown | .keyed _ _ => inferInstanceAs (Decidable True)

/-- Open connections hand on whole requests, and these keep their databases. -/
def Uniform (cfg : Config) (v : View n) (i : Fin n) (a : Action) : Prop :=
  Prompt v i a ∧ ∀ request ∈ v.called i a, KeepsDb request.2.1
    (handleCommand n cfg.numDbs request.2.2.2 request.2.2.1)

instance (cfg : Config) (v : View n) (i : Fin n) (a : Action) : Decidable (Uniform cfg v i a) :=
  inferInstanceAs (Decidable (_ ∧ ∀ request ∈ v.called i a, _))

theorem Uniform.hands (uniform : Uniform cfg v i a) {c : ConnId} {k : Serving} {conn : Conn}
    {args : CmdArgs} {values : List Value} {env : Env} {outcome : Outcome}
    (hands : Hands cfg v i a c k conn args values env outcome) : KeepsDb conn outcome := by
  have called := uniform.2 _ hands.called
  rwa [← hands.outcome] at called

theorem Points.flow (points : Points cfg r stored owner v trace) (chosen : Chosen r owner v trace)
    (indexed : ∀ c, Indexed n cfg c v trace) (routed : Routed v) (recorded : Recorded cfg v trace)
    (uniform : Uniform cfg v i a) (flow : FlowMove cfg v v' i a seen) :
    Points cfg r stored owner v' (trace ++ seen) := by
  cases flow with
  | silent silent dbs lanes =>
    exact points.still (history_of_unmarked fun e mem => (silent e mem).unmarked) (entry_of_same dbs)
      fun c _ => lanes.awaiting c _
  | @refuse c k conn outside env w stands is live malformed dbs lanes =>
    -- a refused request was never handled, so no call has its number
    have free (op : Op) (key : Bytes) : ¬ Handled n cfg trace c conn.answered (.keyed op key) :=
      fun old => absurd ((indexed c).ready routed stands live old) (Nat.lt_irrefl _)
    refine points.still ?_ (entry_of_same dbs) fun c _ => lanes.awaiting c _
    rw [history_append, List.foldl_cons, extendMarks_none rfl, List.foldl_cons,
      extendMarks_none (mark_replied_none free), List.foldl_nil]
  | @answer c conn conn' args k values env outcome w hands answer dbs lanes =>
    have other (op : Op) (_ : r.chosen c = r.db) : outcome ≠ .keyed op r.key := by
      rintro rfl
      cases answer
    refine points.still (history_other (indexed c) routed hands other ?_) (entry_of_same dbs)
      fun c _ => lanes.awaiting c _
    simp
  | flushall hands => exact (uniform.hands hands).elim
  | @shutdown c conn args k values env hands dbs lanes =>
    refine points.still (history_other (indexed c) routed hands (by simp) (by simp))
      (entry_of_same dbs) fun c _ => lanes.awaiting c _
  | @inline c conn args k values env op key db' result hands here executed dbs lanes =>
    exact points.inline chosen (indexed c) routed hands here executed dbs lanes
  | @dispatch c conn args k values env op key m hands away is dbs forth =>
    exact points.dispatch chosen (indexed c) routed hands is dbs forth
  | execute stands is live executed is' dbs forth =>
    exact points.execute chosen routed recorded stands is live executed dbs forth
  | @deliver count ctx fields conn m stands is live dbs forth =>
    exact points.deliver chosen recorded (indexed ctx.conn) stands is dbs forth

omit [NeZero n] in
theorem Chosen.db (chosen : Chosen r owner v trace) {c : ConnId} {db : Size}
    (is : v.selected c = some db) : db = r.chosen c := by
  obtain ⟨conn, live, rfl⟩ := Option.map_eq_some_iff.mp is
  exact chosen.selected c conn live

/-- No step selects another database, and what is executed is executed on the one selected. -/
theorem Chosen.flow (chosen : Chosen r owner v trace) (uniform : Uniform cfg v i a)
    (flow : FlowMove cfg v v' i a seen) : (∀ c db, v'.selected c = some db → db = r.chosen c) ∧
      ∀ c index db key op found result,
        .executed c index db key op found result ∈ seen → db = r.chosen c := by
  have kept (same : v'.selected = v.selected) (c db) (is : v'.selected c = some db) :
      db = r.chosen c := chosen.db (same ▸ is)
  cases flow with
  | silent silent dbs lanes keeps =>
    refine ⟨fun c db is => ?_, fun c index db key op found result mem => (silent _ mem).elim⟩
    rcases keeps c db is with before | ⟨new, rfl⟩
    · exact chosen.db before
    · exact (chosen.fresh c new).symm
  | @answer c conn conn' args k values env outcome w hands answer dbs lanes selected =>
    -- the only answer that selects is `SELECT`, of the database selected already
    have same : conn'.db = conn.db := by
      have keeps := uniform.hands hands
      cases outcome with
      | reply | quit => cases answer; rfl
      | select db => cases answer; exact keeps
      | flushall | shutdown | keyed => cases answer
    refine ⟨kept ?_, by simp⟩
    rw [selected, same, Function.update_eq_self_iff, selected_of_live hands.live]
  | refuse _ _ _ _ _ _ selected | flushall _ _ _ selected | shutdown _ _ _ selected
  | dispatch _ _ _ _ _ _ selected | deliver _ _ _ _ _ _ selected => exact ⟨kept selected, by simp⟩
  | @inline c conn args k values env op key db' result hands here executed dbs lanes selected =>
    refine ⟨kept selected, fun d index db key' op' found result' mem => ?_⟩
    simp only [List.mem_cons, Event.executed.injEq, reduceCtorEq, List.not_mem_nil, or_false,
      false_or] at mem
    obtain ⟨rfl, -, rfl, -⟩ := mem
    exact chosen.selected d conn hands.live
  | @execute count ctx key hash fields conn db' result m m' stands is live executed is' dbs forth back
      selected =>
    refine ⟨kept selected, fun d index db key' op' found result' mem => ?_⟩
    simp only [List.mem_cons, Event.executed.injEq, List.not_mem_nil, or_false] at mem
    obtain ⟨rfl, -, rfl, -⟩ := mem
    exact chosen.selected _ conn live

/-- The shards of the connections, when shard `i` takes the next one. -/
def ownersBehind (v : View n) (i : Fin n) (owner : ConnId → Fin n) : ConnId → Fin n := fun c =>
  if v.nextConn ≤ c then i else owner c

theorem View.OwnedBy.move (owned : v.OwnedBy owner) (routed : Routed v)
    (move : Move cfg v i a v' seen) : v'.OwnedBy (ownersBehind v i owner) := by
  intro c conn' live'
  by_cases new : v.nextConn ≤ c
  · rw [ownersBehind, if_pos new]
    exact move.new_owner routed new live'
  · rw [ownersBehind, if_neg new]
    rcases move.keeps.2 c conn' live' with ⟨conn, live, same⟩ | ⟨later, -⟩
    · exact same.trans (owned c conn live)
    · exact absurd later new

theorem Points.reassign (points : Points cfg r stored owner v trace) (routed : Routed v) :
    Points cfg r stored (ownersBehind v i owner) v trace := by
  refine ⟨points.tracks, fun c its => ?_⟩
  have waits := points.waits c its
  by_cases new : v.nextConn ≤ c
  · have none (j : Fin n) : v.awaiting r c j = [] := by
      rw [View.awaiting, executed_of_new routed new, List.filterMap_nil]
    rwa [none] at waits ⊢
  · rwa [ownersBehind, if_neg new]

omit [NeZero n] in
theorem Chosen.reassign (chosen : Chosen r owner v trace) (routed : Routed v) :
    Chosen r (ownersBehind v i owner) v trace := by
  refine ⟨fun c conn live => ?_, chosen.selected, chosen.fresh, chosen.executed⟩
  rw [ownersBehind, if_neg (Nat.not_le.mpr (routed.live c conn live))]
  exact chosen.owns c conn live

theorem Chosen.move (chosen : Chosen r owner v trace) (routed : Routed v)
    (uniform : Uniform cfg v i a) (move : Move cfg v i a v' seen) :
    Chosen r (ownersBehind v i owner) v' (trace ++ seen) := by
  obtain ⟨selected, executed⟩ := chosen.flow uniform (move.flow routed)
  refine ⟨chosen.owns.move routed move, fun c conn' live' => selected c _ (selected_of_live live'),
    fun c new => chosen.fresh c (move.keeps.1.trans new), ?_⟩
  intro c index db key op found result mem
  rcases List.mem_append.mp mem with old | now
  · exact chosen.executed c index db key op found result old
  · exact executed c index db key op found result now

end Moves

/-! ### Runs -/

/-- What a run relies on. -/
structure Linear [NeZero n] (cfg : Config) (r : Spot) (stored : Option Value) (v : View n)
    (trace : List Event) : Prop where
  going : Going v
  recorded : Recorded cfg v trace
  known : HandledKnown v trace
  indexed : ∀ c, Indexed n cfg c v trace
  points : ∃ owner, Points cfg r stored owner v trace ∧ Chosen r owner v trace

theorem Linear.move [NeZero n] {cfg : Config} {r : Spot} {stored : Option Value} {v v' : View n}
    {i : Fin n} {a : Action} {seen trace : List Event} (linear : Linear cfg r stored v trace)
    (routed : Routed v) (uniform : Uniform cfg v i a) (move : Move cfg v i a v' seen) :
    Linear cfg r stored v' (trace ++ seen) := by
  obtain ⟨owner, points, chosen⟩ := linear.points
  refine ⟨linear.going.move routed uniform.1 move, linear.recorded.move move,
    linear.known.move routed move,
    fun c => (linear.indexed c).move routed linear.going linear.known uniform.1 move,
    ownersBehind v i owner, ?_, chosen.move routed uniform move⟩
  exact (points.reassign routed).flow (chosen.reassign routed) linear.indexed routed linear.recorded
    uniform (move.flow routed)

/-- No message is on its way. -/
def View.Resting (v : View n) : Prop :=
  ∀ i, (v.pc i).calling = [] ∧ v.queue i = [] ∧ (v.pc i).sending = []

/-- The spot of a key, from a state on in which the connections keep their databases. -/
def State.spot (s : State n) (db : Size) (key : Bytes) : Spot :=
  ⟨db, key, fun c => (s.view.selected c).getD 0⟩

theorem View.Resting.held {v : View n} (resting : v.Resting) (m : Message n) : ¬ v.mail.Holds m := by
  rintro ⟨i, mem | mem⟩
  · simp [View.mail, (resting i).1, (resting i).2.1] at mem
  · simp [View.mail, (resting i).2.2] at mem

theorem View.Resting.executed {v : View n} (resting : v.Resting) (c : ConnId) : v.Executed c := by
  intro i t
  apply List.eq_nil_iff_forall_not_mem.mpr
  intro m mem
  obtain ⟨m', place, -⟩ := Mail.mem_lane.mp mem
  exact resting.held m' (place.elim (fun mem => ⟨t, .inl mem⟩) fun mem => ⟨i, .inr mem⟩)

section Start

variable [NeZero n] {cfg : Config} {s : State n}

/-- When no message is on its way, every key holds what is stored. -/
theorem linear_start (routed : Routed s.view) (going : Going s.view) {owner : ConnId → Fin n}
    (owned : s.view.OwnedBy owner) (resting : s.view.Resting) (db : Size) (key : Bytes) :
    Linear cfg (s.spot db key) (s.view.entry (s.spot db key)) s.view [] := by
  have unhandled (c : ConnId) (index : ℕ) (outcome : Outcome) :
      ¬ Handled n cfg [] c index outcome := by
    rintro ⟨values, env, mem, -⟩
    cases mem
  refine ⟨going, ⟨?_, ?_, by simp⟩, by simp [HandledKnown], fun c => ⟨?_, ?_⟩, owner,
    ⟨.nil _ _ _, ?_⟩, ⟨owned, ?_, ?_, by simp⟩⟩
  · exact fun ctx key hash fields held => absurd held (resting.held _)
  · exact fun ctx fields held => absurd held (resting.held _)
  · exact fun conn live index op key handled => absurd handled (unhandled _ _ _)
  · exact fun index op key op' key' handled => absurd handled (unhandled _ _ _)
  · intro c its
    rw [View.awaiting, resting.executed c]
    rfl
  · intro c conn live
    simp only [State.spot, selected_of_live live, Option.getD_some]
  · intro c new
    have none : s.view.conn c = none := by
      cases live : s.view.conn c with
      | none => rfl
      | some conn => exact absurd (routed.live c conn live) (Nat.not_lt.mpr new)
    simp only [State.spot, View.selected, none, Option.map_none, Option.getD_none]

/-- In a run from `s₀` to `s`, the commands on a key of a database are those of one register. -/
structure OneRegister (cfg : Config) (db : Size) (key : Bytes) (s₀ s : State n)
    (trace : List Event) : Prop where
  /-- Every command takes effect between its parsing and its reply. -/
  points : Pointed Prod.fst (history n cfg (s₀.spot db key) trace)
  linearizes : Linearizes register (s₀.view.entry (s₀.spot db key)) Prod.fst
    (history n cfg (s₀.spot db key) trace) (effects (history n cfg (s₀.spot db key) trace))
  content : s.view.entry (s₀.spot db key) = final register (s₀.view.entry (s₀.spot db key))
    (effects (history n cfg (s₀.spot db key) trace))
  /-- As long as only `INCR` is called, each raises the counter by one. -/
  incr : ∀ val, counter (s₀.view.entry (s₀.spot db key)) = some val →
    (∀ o ∈ calls (history n cfg (s₀.spot db key) trace), o.2 = .incr) → (∀ c, s.view.Executed c) →
    val.toInt + (calls (history n cfg (s₀.spot db key) trace)).length < 2 ^ 63 →
    ∃ val', counter (s.view.entry (s₀.spot db key)) = some val' ∧
      val'.toInt = val.toInt + (calls (history n cfg (s₀.spot db key) trace)).length

/-- Every run in which connections stay open, hand on whole requests and keep their databases is
linearizable, key by key. -/
theorem store_linearizable {s₀ : State n} {before trace : List Event}
    (start : (server cfg).Run (fun s a => Prompt s.view a.1 a.2) (State.init n) s₀ before)
    (resting : s₀.view.Resting)
    (run : (server cfg).Run (fun s a => Uniform cfg s.view a.1 a.2) s₀ s trace)
    (db : Size) (key : Bytes) : OneRegister cfg db key s₀ s trace := by
  obtain ⟨routed, going, owner, owned⟩ := run_invariant
    (fun v _ => Going v ∧ ∃ owner, v.OwnedBy owner) (routed_init n)
    ⟨going_init n, fun _ => 0, fun _ _ live => by cases live⟩
    (fun routed holds prompt move => by
      obtain ⟨going, owner, owned⟩ := holds
      exact ⟨going.move routed prompt move, _, owned.move routed move⟩) start
  obtain ⟨-, linear⟩ := run_invariant (Linear cfg (s₀.spot db key) (s₀.view.entry (s₀.spot db key)))
    routed (linear_start routed going owned resting db key)
    (fun routed linear uniform move => linear.move routed uniform move) run
  obtain ⟨owner, points, -⟩ := linear.points
  have pointed := points.tracks.pointed
  refine ⟨pointed, pointed.linearizes points.tracks.legal, points.tracks.state, ?_⟩
  intro val stands incr executed fits
  -- everything that was called has taken effect
  have length : (effects (history n cfg (s₀.spot db key) trace)).length =
      (calls (history n cfg (s₀.spot db key) trace)).length := by
    apply pointed.length_effects
    intro c
    by_cases its : (s₀.spot db key).chosen c = (s₀.spot db key).db
    · have waits := points.waits c its
      rwa [View.awaiting, executed c, List.filterMap_nil] at waits
    · exact points.outstanding_other its
  have raised : ∀ o ∈ effects (history n cfg (s₀.spot db key) trace), o.op = .incr := fun o mem =>
    incr (o.id, o.op) (mem_calls.mpr (pointed.called o mem))
  refine ⟨_, ?_, toInt_add_ofNat fits⟩
  rw [points.tracks.state, counter_final raised stands, length]

end Start

theorem resting_init (n : ℕ) : (State.init n).view.Resting := fun _ => ⟨rfl, rfl, rfl⟩

/-- A client of each shard raises the same counter. The request of the first one is on its way to
the home shard while the second one is served there. -/
def raiseTwice : List (Fin 2 × Action) :=
  goToSleep shard0 0 ++ acceptClient shard0 65536 ++ goToSleep shard0 1 ++ goToSleep shard1 1 ++
    acceptClient shard1 131072 ++ goToSleep shard1 2 ++
    readFrom shard0 0 (asciiBytes "INCR a" ++ crlf) ++ [serveNext shard0] ++
    readFrom shard1 1 (asciiBytes "INCR a" ++ crlf) ++ List.replicate 2 (shard0, .go) ++
    [serveNext shard1] ++ List.replicate 11 (shard1, .go)

theorem store_linearizable_incr : ∃ s trace,
    (server config).Run (fun s a => Uniform config s.view a.1 a.2) (State.init 2) s trace ∧
      counter (s.view.entry ((State.init 2).spot 0 (asciiBytes "a"))) = some 2 ∧
      OneRegister config 0 (asciiBytes "a") (State.init 2) s trace := by
  obtain ⟨s, trace, run, stands⟩ := Machine.exists_run_of_exec (server config)
    (fun s a => Uniform config s.view a.1 a.2) (State.init 2) raiseTwice
    (fun r => counter (r.1.view.entry ((State.init 2).spot 0 (asciiBytes "a")))) (b := some 2)
    (by decide +kernel)
  exact ⟨s, trace, run, stands, store_linearizable .refl (resting_init 2) run 0 (asciiBytes "a")⟩

end GhettoRedis.Server
