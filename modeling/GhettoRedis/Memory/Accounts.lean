import GhettoRedis.Memory.Server

/-!
# Who owns which cell

Each allocated cell belongs to an entry of a table, to a message on its way or to a callback under
way, or it is a lost copy of a key. A shard takes what it owns out of the account, works on it, and
puts back what is left.
-/
namespace GhettoRedis.Memory

open Lib Protocol Commands HeapM Server

variable {n : ℕ}

/-! ### Messages -/

/-- A message in memory, and the cells that it owns. -/
inductive Carries : Ptr → Message n → Owned Cell → Prop
  | request {p key val : Ptr} {ctx : CBContext n} {bytes : Bytes} {hash : Size} {fields : ReqFields} :
      Carries p (.request ctx bytes hash fields)
        (requestCells p key val bytes hash (cmdPreDispatchExec fields))
  | response {p : Ptr} {ctx : CBContext n} {fields : Commands.RespFields} {r : RespFields}
      {copied : Owned Cell} : Copies fields r copied →
      Carries p (.response ctx fields) (cellAt p (.response r) + copied)

theorem Carries.context {p : Ptr} {msg : Message n} {own : Owned Cell} (carries : Carries p msg own) :
    ∃ cell rest, own = cellAt p cell + rest := by
  cases carries with
  | request => exact ⟨_, _, rfl⟩
  | response => exact ⟨_, _, rfl⟩

inductive Queued : List Ptr → List (Message n) → Owned Cell → Prop
  | nil : Queued [] [] 0
  | cons {p : Ptr} {msg : Message n} {own rest : Owned Cell} {ps : List Ptr} {msgs : List (Message n)} :
      Carries p msg own → Queued ps msgs rest → Queued (p :: ps) (msg :: msgs) (own + rest)

theorem Queued.append {ps ps' : List Ptr} {msgs msgs' : List (Message n)} {own own' : Owned Cell}
    (queued : Queued ps msgs own) (behind : Queued ps' msgs' own') :
    Queued (ps ++ ps') (msgs ++ msgs') (own + own') := by
  induction queued with
  | nil => rwa [zero_add]
  | cons carries _ ih =>
    rw [add_assoc]
    exact .cons carries ih

/-! ### Shards -/

/-- The loop over `on_data_available` was entered in `on_cb`. -/
def servingWithin : Serving → Bool
  | .onCb _ => true
  | .epollin _ _ => false

/-- The thread is in `on_cb`, and so it holds on to the context of a callback. -/
def within : Pc n → Bool
  | .callback _ _ | .onCb _ _ => true
  | .serve _ k | .stop _ _ _ k => servingWithin k
  | .wakeup _ (.shutdown _ _ k) | .signal _ (.shutdown _ _ k) => servingWithin k
  | .send _ _ (.request _ _ k) | .publish _ (.request _ _ k) => servingWithin k
  | .send _ _ (.response _ _) | .publish _ (.response _ _) => true
  | _ => false

/-- The `ctx` of `reactor_poll_callbacks`: a message, and behind its callback only its context. -/
inductive Calls : Option Ptr → Pc n → Owned Cell → Prop
  | message {p : Ptr} {count : ℕ} {msg : Message n} {own : Owned Cell} : Carries p msg own →
      Calls (some p) (.callback count msg) own
  | context {p : Ptr} {cell : Cell} {pc : Pc n} : pc.calling = [] → within pc = true →
      Calls (some p) pc (cellAt p cell)
  | none {pc : Pc n} : within pc = false → Calls none pc 0

/-- The same where `on_cb` has returned and the context is about to be freed. -/
def Returns (ctx : Option Ptr) (pc : Pc n) (own : Owned Cell) : Prop :=
  Calls ctx pc own ∨ ∃ p cell count, ctx = some p ∧ pc = .poll count ∧ own = cellAt p cell

/-- What shard `i` owns, with `calls` for its `ctx`. -/
structure Holds (calls : Option Ptr → Pc n → Owned Cell → Prop) (m : Process n) (v : View n) (i : Fin n)
    (queue message ctx : Owned Cell) : Prop where
  queue : Queued (m.cbQueue i) (v.queue i) queue
  message : Queued (m.message i).toList (v.pc i).sending message
  ctx : calls (m.ctx i) (v.pc i) ctx

/-- Shard `i` owns these cells and no others. -/
def Held (calls : Option Ptr → Pc n → Owned Cell → Prop) (m : Process n) (v : View n) (i : Fin n)
    (own : Owned Cell) : Prop :=
  ∃ queue message ctx, Holds calls m v i queue message ctx ∧ own = queue + (message + ctx)

/-- Between the steps all cells are accounted for: entries, what each shard owns, lost copies of the
keys `lost`, and the cells `extra`. -/
def Accounts (held : Fin n → Owned Cell → Prop) (dbs : Fin n → Size → Hashmap) (m : Process n)
    (lost : List Bytes) (extra : Owned Cell) : Prop :=
  m.heap.Tidy ∧ ∃ (l : Ledger n) (shards : Fin n → Owned Cell) (leaked : Owned Cell),
    (m.heap.cells : Owned Cell) = l.cells + (∑ i, shards i + leaked) + extra ∧ m.table = l.table ∧
      l.NodupKeys ∧ l.Denotes dbs ∧ (∀ i, held i (shards i)) ∧ Lost leaked lost

/-- What shard `i` owns may be taken out, changed, and put back. -/
theorem Accounts.borrow {held : Fin n → Owned Cell → Prop} {dbs : Fin n → Size → Hashmap} {m : Process n}
    {lost : List Bytes} {extra : Owned Cell} (accounts : Accounts held dbs m lost extra) (i : Fin n) :
    ∃ (l : Ledger n) (own rest : Owned Cell),
      (m.heap.cells : Owned Cell) = l.cells + own + (extra + rest) ∧ m.table = l.table ∧ l.NodupKeys ∧
      l.Denotes dbs ∧ held i own ∧
      ∀ {held' : Fin n → Owned Cell → Prop} {dbs' : Fin n → Size → Hashmap} {m' : Process n}
        {l' : Ledger n} {own' leaked extra' : Owned Cell} {lost' : List Bytes}, m'.heap.Tidy →
        (m'.heap.cells : Owned Cell) = l'.cells + own' + leaked + (extra' + rest) → m'.table = l'.table →
        l'.NodupKeys → l'.Denotes dbs' → held' i own' → (∀ j ≠ i, ∀ o, held j o → held' j o) →
        Lost leaked lost' → Accounts held' dbs' m' (lost ++ lost') extra' := by
  obtain ⟨-, l, shards, leaked, cells, table, nodup, denotes, shares, lost⟩ := accounts
  have parts (f : Fin n → Owned Cell) : ∑ j, f j = f i + ∑ j ∈ Finset.univ.erase i, f j :=
    (Finset.add_sum_erase _ f (Finset.mem_univ i)).symm
  refine ⟨l, shards i, ∑ j ∈ Finset.univ.erase i, shards j + leaked, ?_, table, nodup, denotes,
    shares i, ?_⟩
  · rw [cells, parts]
    abel
  · intro held' dbs' m' l' own' leaked' extra' lost' tidy' cells' table' nodup' denotes' own others lost''
    refine ⟨tidy', l', Function.update shards i own', leaked + leaked', ?_, table', nodup', denotes',
      fun j => ?_, lost.append lost''⟩
    · have same : ∑ j ∈ Finset.univ.erase i, Function.update shards i own' j =
          ∑ j ∈ Finset.univ.erase i, shards j :=
        Finset.sum_congr rfl fun j mem => Function.update_of_ne (Finset.ne_of_mem_erase mem) ..
      rw [cells', parts, same, Function.update_self]
      abel
    · by_cases here : j = i
      · subst here
        rwa [Function.update_self]
      · rw [Function.update_of_ne here]
        exact others j here _ (shares j)

/-- What a program of shard `i` does with the heap. -/
theorem run_spec {m : Process n} {i : Fin n} {program : List (Stored n) → HeapM Cell (Effect n)}
    {pre rest : Owned Cell} {post : Effect n → Owned Cell → Prop} (tidy : m.heap.Tidy)
    (cells : (m.heap.cells : Owned Cell) = pre + rest) (triple : Triple pre (program m.table) post) :
    ∃ effect heap own, m.run i program = some ({ m with
        heap := heap, table := effect.table, message := Function.update m.message i effect.message },
          effect.reply) ∧ heap.Tidy ∧ (heap.cells : Owned Cell) = own + rest ∧ post effect own := by
  obtain ⟨effect, heap, own, returns, tidy', cells', holds⟩ := triple rest m.heap tidy cells
  exact ⟨effect, heap, own, by rw [Process.run, returns]; rfl, tidy', cells', holds⟩

/-- A step of shard `i` may leave its context to be freed. -/
def returning (m : Process n) (v : View n) (i : Fin n) (j : Fin n) : Owned Cell → Prop :=
  Held (if j = i then Returns else Calls) m v j

/-- All cells are accounted for when the server is in `v` and the keys `lost` are lost. -/
def Accounted (v : View n) (m : Process n) (lost : List Bytes) : Prop :=
  Accounts (Held Calls m v) v.dbs m lost 0

/-- A shard that is not concerned owns what it did. -/
theorem Held.same {calls : Option Ptr → Pc n → Owned Cell → Prop} {m m' : Process n} {v v' : View n}
    {j : Fin n} {own : Owned Cell} (held : Held calls m v j own) (cbQueue : m'.cbQueue j = m.cbQueue j)
    (message : m'.message j = m.message j) (ctx : m'.ctx j = m.ctx j) (pc : v'.pc j = v.pc j)
    (queue : v'.queue j = v.queue j) : Held calls m' v' j own := by
  obtain ⟨q, h, c, holds, is⟩ := held
  refine ⟨q, h, c, ⟨?_, ?_, ?_⟩, is⟩
  · rw [cbQueue, queue]
    exact holds.queue
  · rw [message, pc]
    exact holds.message
  · rw [ctx, pc]
    exact holds.ctx

/-- The context is freed where `on_cb` has returned. -/
theorem leave_spec {m : Process n} {v : View n} {i : Fin n} {lost : List Bytes}
    (accounts : Accounts (returning m v i) v.dbs m lost 0) :
    ∃ m', m.leave i v = some m' ∧ Accounted v m' lost := by
  obtain ⟨l, own, rest, cells, table, nodup, denotes, ⟨q, h, c, holds, rfl⟩, close⟩ := accounts.borrow i
  obtain ⟨queue, message, ctx⟩ := holds
  rw [if_pos rfl] at ctx
  have others {m' : Process n} (cbQueue : m'.cbQueue = m.cbQueue) (message : m'.message = m.message)
      (ctx : ∀ j ≠ i, m'.ctx j = m.ctx j) (j : Fin n) (other : j ≠ i) (o : Owned Cell)
      (held : returning m v i j o) : Held Calls m' v j o := by
    rw [returning, if_neg other] at held
    exact held.same (by rw [cbQueue]) (by rw [message]) (ctx j other) rfl rfl
  -- either the thread is still in its callback, or has none, or the context is freed now
  rcases ctx with calls | ⟨p, cell, count, is, stands, rfl⟩
  · refine ⟨m, ?_, ?_⟩
    · unfold Process.leave
      split
      next stands is =>
        -- only in a callback is there a context
        rw [stands, is] at calls
        cases calls with
        | context _ inside => cases inside
      next => rfl
    · rw [← List.append_nil lost]
      exact close accounts.1 (by rw [add_zero]; exact cells) table nodup denotes
        ⟨q, h, c, ⟨queue, message, calls⟩, rfl⟩ (others rfl rfl fun _ _ => rfl) lost_nil
  · have owned : (m.heap.cells : Owned Cell) = cellAt p cell + (l.cells + (q + h) + rest) := by
      rw [cells]
      abel
    have freed : Triple (cellAt p cell) (free p) fun _ own => own = 0 := .free (add_zero _).symm
    obtain ⟨_, heap, _, returns, tidy, cells', rfl⟩ := freed _ m.heap accounts.1 owned
    refine ⟨{ m with heap, ctx := Function.update m.ctx i none }, ?_, ?_⟩
    · simp only [Process.leave, stands, is, returns, Option.map_some]
    · have inside : within (v.pc i) = false := by rw [stands]; rfl
      have calls : Calls (Function.update m.ctx i none i) (v.pc i) 0 := by
        rw [Function.update_self]
        exact .none inside
      rw [← List.append_nil lost]
      exact close tidy (by rw [cells']; abel) table nodup denotes ⟨q, h, 0, ⟨queue, message, calls⟩, rfl⟩
        (others rfl rfl fun j other => Function.update_of_ne other ..) lost_nil

theorem Calls.returns {ctx : Option Ptr} {pc pc' : Pc n} {own : Owned Cell} (calls : Calls ctx pc own)
    (calling : pc.calling = []) (calling' : pc'.calling = [])
    (goes : within pc' = within pc ∨ ∃ count, pc' = .poll count) : Returns ctx pc' own := by
  cases calls with
  | message => cases calling
  | context _ inside =>
    rcases goes with same | ⟨count, rfl⟩
    · exact .inl (.context calling' (same.trans inside))
    · exact .inr ⟨_, _, count, rfl, rfl, rfl⟩
  | none outside =>
    rcases goes with same | ⟨count, rfl⟩
    · exact .inl (.none (same.trans outside))
    · exact .inl (.none rfl)

theorem Calls.eq_zero {ctx : Option Ptr} {pc : Pc n} {own : Owned Cell} (calls : Calls ctx pc own)
    (outside : within pc = false) : own = 0 := by
  cases calls with
  | message => cases outside
  | context _ inside => exact absurd (inside.symm.trans outside) (by decide)
  | none => rfl

section Acts

variable {cfg : Config} {v v' : View n} {m : Process n} {i : Fin n} {a : Action}
  {lost lost' : List Bytes}

/-- The thread has no message at hand. -/
def Free (pc : Pc n) : Prop := pc.calling = [] ∧ pc.sending = []

theorem free_of_calm {pc : Pc n} (calm : pc.Calm) : Free pc := ⟨calm.1, calm.2.1⟩

/-- A step that moves only the thread on uses no memory. -/
theorem Accounted.still [NeZero n] (accounted : Accounted v m lost) (called : v.called i a = none)
    (calm : Free (v.pc i)) (calm' : Free (v'.pc i)) (queue : v'.queue = v.queue) (dbs : v'.dbs = v.dbs)
    (pcs : ∀ j ≠ i, v'.pc j = v.pc j)
    (goes : within (v'.pc i) = within (v.pc i) ∨ ∃ count, v'.pc i = .poll count) :
    m.act i cfg v v' a = some (m, none) ∧ Accounts (returning m v' i) v'.dbs m lost 0 := by
  constructor
  · unfold Process.act
    split
    next => rw [called]
    next =>
      split
      next calls =>
        rw [Free, calls] at calm'
        cases calm'.1
      next => rfl
    next calls =>
      rw [Free, calls] at calm
      cases calm.1
    next sends =>
      rw [Free, sends] at calm
      cases calm.2
    next => rfl
  · obtain ⟨l, own, rest, cells, table, nodup, denotes, ⟨q, h, c, holds, rfl⟩, close⟩ :=
      accounted.borrow i
    have held : returning m v' i i (q + (h + c)) := by
      refine ⟨q, h, c, ⟨?_, ?_, ?_⟩, rfl⟩
      · rw [queue]
        exact holds.queue
      · rw [calm'.2, ← calm.2]
        exact holds.message
      · rw [if_pos rfl]
        exact holds.ctx.returns calm.1 calm'.1 goes
    rw [← List.append_nil lost]
    refine close accounted.1 (by rw [cells, add_zero]) table nodup (dbs ▸ denotes) held ?_ lost_nil
    intro j other o held
    rw [returning, if_neg other]
    exact held.same rfl rfl rfl (pcs j other) (by rw [queue])

/-- What a program of shard `i` leaves behind: entries, a message that it sends, its context, and copies
of lost keys. -/
def Yields (ctx : Option Ptr) (v' : View n) (i : Fin n) (lost' : List Bytes) (effect : Effect n)
    (own : Owned Cell) : Prop :=
  ∃ (l' : Ledger n) (message c leaked : Owned Cell), effect.table = l'.table ∧ l'.NodupKeys ∧
    l'.Denotes v'.dbs ∧ Queued effect.message.toList (v'.pc i).sending message ∧
    Returns ctx (v'.pc i) c ∧ Lost leaked lost' ∧ own = l'.cells + (message + c) + leaked

theorem Accounted.run {program : List (Stored n) → HeapM Cell (Effect n)} {reply : Option Write}
    (accounted : Accounted v m lost) (sending : (v.pc i).sending = []) (queue : v'.queue = v.queue)
    (pcs : ∀ j ≠ i, v'.pc j = v.pc j)
    (triple : ∀ (l : Ledger n) (c : Owned Cell), l.NodupKeys → l.Denotes v.dbs →
      Calls (m.ctx i) (v.pc i) c →
      Triple (l.cells + c) (program l.table) fun effect own =>
        effect.reply = reply ∧ Yields (m.ctx i) v' i lost' effect own) :
    ∃ m', m.run i program = some (m', reply) ∧
      Accounts (returning m' v' i) v'.dbs m' (lost ++ lost') 0 := by
  obtain ⟨l, own, rest, cells, table, nodup, denotes, ⟨q, h, c, holds, rfl⟩, close⟩ := accounted.borrow i
  obtain ⟨inbox, message, ctx⟩ := holds
  -- nothing is being sent
  obtain rfl : h = 0 := by
    rw [sending] at message
    generalize (m.message i).toList = ps at message
    cases message
    rfl
  have owned : (m.heap.cells : Owned Cell) = l.cells + c + (q + rest) := by
    rw [cells]
    abel
  have triple := triple l c nodup denotes ctx
  rw [← table] at triple
  obtain ⟨effect, heap, own, returns, tidy, cells', rfl, l', message', c', leaked, table', nodup',
    denotes', queued, returning', lost'', rfl⟩ := run_spec accounted.1 owned triple
  refine ⟨_, returns, close tidy (by rw [cells']; abel) table' nodup' denotes'
    ⟨q, message', c', ⟨?_, ?_, ?_⟩, rfl⟩ ?_ lost''⟩
  · rw [queue]
    exact inbox
  · simp only [Function.update_self]
    exact queued
  · rw [if_pos rfl]
    exact returning'
  · intro j other o held
    rw [returning, if_neg other]
    exact held.same rfl (Function.update_of_ne other ..) rfl (pcs j other) (by rw [queue])

theorem Accounted.dequeue {count : ℕ} {msg : Message n} {queued : List (Message n)}
    (accounted : Accounted v m lost) (stands : v.pc i = .poll count)
    (front : v.queue i = msg :: queued) :
    ∃ m', m.dequeue i = some m' ∧
      Accounts (returning m' ((v.setQueue i queued).goto i
        (.callback (count + 1) msg)) i) v.dbs m' lost 0 := by
  obtain ⟨l, own, rest, cells, table, nodup, denotes, ⟨q, h, c, holds, rfl⟩, close⟩ := accounted.borrow i
  obtain ⟨inbox, message, ctx⟩ := holds
  obtain rfl : c = 0 := ctx.eq_zero (by rw [stands]; rfl)
  rw [front] at inbox
  -- the pointers in the queue are as many as the messages
  cases waits : m.cbQueue i with
  | nil =>
    rw [waits] at inbox
    cases inbox
  | cons p ps =>
    rw [waits] at inbox
    cases inbox with
    | @cons _ _ carried behind _ _ carries inbox =>
      refine ⟨{ m with
        cbQueue := Function.update m.cbQueue i ps, ctx := Function.update m.ctx i (some p) }, ?_, ?_⟩
      · rw [Process.dequeue, waits]
      · rw [← List.append_nil lost]
        have cells' : (m.heap.cells : Owned Cell) = l.cells + (behind + (h + carried)) + 0 +
          (0 + rest) := by
          rw [cells]
          abel
        refine close accounted.1 cells' table nodup denotes
          ⟨behind, h, carried, ⟨?_, ?_, ?_⟩, rfl⟩ ?_ lost_nil
        · simpa [View.setQueue] using inbox
        · simpa [stands, Pc.sending] using message
        · simp only [Function.update_self, View.goto_pc_self, if_true]
          exact .inl (.message carries)
        · intro j other o held
          rw [returning, if_neg other]
          exact held.same (Function.update_of_ne other ..) rfl (Function.update_of_ne other ..)
            (View.goto_pc_of_ne _ _ _ other) (Function.update_of_ne other ..)

/-- The message goes from one shard to the queue of another. -/
theorem Accounted.enqueue {target : Fin n} {msg : Message n} {k : Sending}
    (accounted : Accounted v m lost) (stands : v.pc i = .send target msg k) :
    Accounts (returning (m.enqueue i target)
      ((v.setQueue target (v.queue target ++ [msg])).goto i (.publish target k)) i) v.dbs
      (m.enqueue i target) lost 0 := by
  let between := { m with message := Function.update m.message i none }
  have calm : (Pc.publish target k : Pc n).sending = [] := rfl
  -- the message leaves shard `i`
  obtain ⟨msgs, queued, taken⟩ : ∃ own, Queued (m.message i).toList [msg] own ∧
      Accounts (returning between (v.goto i (.publish target k)) i) v.dbs between lost own := by
    obtain ⟨l, own, rest, cells, table, nodup, denotes, ⟨q, h, c, holds, rfl⟩, close⟩ :=
      accounted.borrow i
    obtain ⟨inbox, message, ctx⟩ := holds
    rw [stands] at message ctx
    refine ⟨h, message, ?_⟩
    rw [← List.append_nil lost]
    have cells' : (m.heap.cells : Owned Cell) = l.cells + (q + (0 + c)) + 0 + (h + rest) := by
      rw [cells]
      abel
    refine close accounted.1 cells' table nodup denotes ⟨q, 0, c, ⟨inbox, ?_, ?_⟩, rfl⟩ ?_ lost_nil
    · simpa [between, Pc.sending] using .nil
    · rw [if_pos rfl, View.goto_pc_self]
      refine ctx.returns rfl rfl (.inl ?_)
      cases k <;> rfl
    · intro j other o held
      rw [returning, if_neg other]
      exact held.same rfl (Function.update_of_ne other ..) rfl (View.goto_pc_of_ne _ _ _ other) rfl
  -- and goes to the end of the queue
  obtain ⟨l, own, rest, cells, table, nodup, denotes, ⟨q, h, c, holds, rfl⟩, close⟩ :=
    taken.borrow target
  obtain ⟨inbox, message, ctx⟩ := holds
  rw [← List.append_nil lost]
  have cells' : (m.heap.cells : Owned Cell) = l.cells + (q + msgs + (h + c)) + 0 + (0 + rest) := by
    refine Eq.trans cells ?_
    abel
  refine close taken.1 cells' table nodup denotes ⟨q + msgs, h, c, ⟨?_, message, ctx⟩, rfl⟩ ?_ lost_nil
  · simpa [Process.enqueue, View.setQueue] using inbox.append queued
  · intro j other o held
    exact held.same (Function.update_of_ne other ..) rfl rfl rfl (Function.update_of_ne other ..)

/-- While it serves a connection a shard keeps its context, if it has one. -/
theorem Accounted.serve {program : List (Stored n) → HeapM Cell (Effect n)} {reply : Option Write}
    {c : ConnId} {k : Serving} (accounted : Accounted v m lost) (stands : v.pc i = .serve c k)
    (queue : v'.queue = v.queue)
    (pcs : ∀ j ≠ i, v'.pc j = v.pc j) (calling : (v'.pc i).calling = [])
    (goes : within (v'.pc i) = servingWithin k ∨ ∃ count, v'.pc i = .poll count)
    (triple : ∀ l : Ledger n, l.NodupKeys → l.Denotes v.dbs →
      Triple l.cells (program l.table) fun effect own =>
      effect.reply = reply ∧ ∃ (l' : Ledger n) (message leaked : Owned Cell), effect.table = l'.table ∧
        l'.NodupKeys ∧ l'.Denotes v'.dbs ∧ Queued effect.message.toList (v'.pc i).sending message ∧
          Lost leaked lost' ∧ own = l'.cells + (message + leaked)) :
    ∃ m', m.run i program = some (m', reply) ∧
      Accounts (returning m' v' i) v'.dbs m' (lost ++ lost') 0 := by
  refine accounted.run (by rw [stands]; rfl) queue pcs fun l ctx nodup denotes calls => ?_
  refine ((triple l nodup denotes).frame ctx).mono ?_
  rintro effect _ ⟨own, rfl, rfl, l', message, leaked, table, nodup', denotes', queued, lost'', rfl⟩
  rw [stands] at calls
  refine ⟨rfl, l', message, ctx, leaked, table, nodup', denotes', queued,
    calls.returns rfl calling goes, lost'', ?_⟩
  abel

end Acts

end GhettoRedis.Memory
