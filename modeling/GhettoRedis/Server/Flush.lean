import GhettoRedis.Lib.Machine
import GhettoRedis.Lib.Memory
import GhettoRedis.Protocol.Available

/-!
# Flushing

`reactor_epoll_flush` and `reactor_flush_pending_writes` over any answers of `write`. Its result is
kept in a `size_t`, so -1 is the largest number and no test for an error ever succeeds: a failed
`write` takes one byte back, or ends the process when there is none to take back.
-/
namespace GhettoRedis.Server

open Lib Protocol

/-! ### One call -/

inductive Errno where
  | eintr
  | eagain
  | other
  deriving DecidableEq

/-- What `write` returns: how many bytes it accepted, or -1 with `errno`. -/
inductive WriteResult where
  | accepted (count : ℕ)
  | failed (errno : Errno)
  deriving DecidableEq

namespace WriteResult

/-- As it is kept in `size_t rv`. -/
def rv : WriteResult → Size
  | accepted count => BitVec.ofNat 64 count
  | failed _ => sizeMax

def errno : WriteResult → Option Errno
  | accepted _ => none
  | failed errno => some errno

end WriteResult

/-- What flushing needs of a connection: `send_buf`, `send_buf_size`, `send_buf_sent` and the flags
`BLOCKED` and `END`. -/
structure Outgoing where
  bytes : ℕ → UInt8
  size : Size
  sent : Size
  blocked : Bool
  ending : Bool

/-- What a call makes of it; `aborted` for the `assert` and the `panic`. -/
inductive Flushed where
  | done (out : Outgoing)
  | aborted

def Flushed.isAborted : Flushed → Bool
  | done _ => false
  | aborted => true

/-- The loop around `write`, over the results that it meets: the last one, and those not met. -/
def writeLoop : List WriteResult → Option (WriteResult × List WriteResult)
  | [] => none
  | r :: rest => if r.rv < 0 ∧ r.errno = some .eintr then writeLoop rest else some (r, rest)

namespace Outgoing

variable (out : Outgoing)

def remaining : ℕ := (out.size - out.sent).toNat

/-- The bytes that are still to be sent. -/
def pending : Bytes := load out.bytes out.sent.toNat out.remaining

/-- Behind the loop. -/
def afterWrite (r : WriteResult) : Flushed :=
  if r.rv < 0 ∧ r.errno = some .eagain then .done { out with blocked := true }
  else if r.rv < 0 then .done { out with blocked := false, ending := true }
  else if out.size < out.sent + r.rv then .aborted
  else if out.sent + r.rv = out.size then .done { out with sent := 0, size := 0 }
  else .done { out with sent := out.sent + r.rv }

end Outgoing

/-- `reactor_epoll_flush`, over the results that `write` is going to return. -/
def reactorEpollFlush (out : Outgoing) (results : List WriteResult) :
    Option (Flushed × List WriteResult) :=
  (writeLoop results).map fun met => (out.afterWrite met.1, met.2)

/-! ### The rest of the loop over all connections -/

/-- How the peer takes what is written to a socket at call `k`: a byte of it at least, when there
is one, or never any. -/
inductive Socket where
  | accepting (takes : (k remaining : ℕ) → ℕ) (le : ∀ k remaining, takes k remaining ≤ remaining)
      (some : ∀ k remaining, 0 < remaining → 0 < takes k remaining)
  | blocked

def Socket.answer : Socket → (k remaining : ℕ) → WriteResult
  | accepting takes _ _ => fun k remaining => .accepted (takes k remaining)
  | blocked => fun _ _ => .failed .eagain

/-- The next `fuel` answers from call `k` on, while as many bytes remain. -/
def Socket.answers (socket : Socket) (k remaining fuel : ℕ) : List WriteResult :=
  (List.range fuel).map fun j => socket.answer (k + j) remaining

/-- `while (conn->send_buf_size > 0)`; `none` when the fuel is used up. -/
def flushWhile (socket : Socket) : (fuel k : ℕ) → Outgoing → Option Flushed
  | 0, _, _ => none
  | fuel + 1, k, out =>
    if 0 < out.size then
      match reactorEpollFlush out (socket.answers k out.remaining (fuel + 1)) with
      | none => none
      | some (.aborted, _) => some .aborted
      | some (.done out', rest) => flushWhile socket fuel (k + (fuel + 1 - rest.length)) out'
    else some (.done out)

/-- A connection in the table; its counters are in order. -/
structure Client where
  out : Outgoing
  socket : Socket
  inOrder : out.sent.toNat ≤ out.size.toNat
  fits : out.size.toNat ≤ messageMaxLength

/-- What is left of the table when the loop over it returns, if the process goes on. -/
inductive Swept where
  | done (table : List (Option Outgoing))
  | aborted

def Swept.cons (out : Option Outgoing) : Swept → Swept
  | done table => done (out :: table)
  | aborted => aborted

/-- `reactor_flush_pending_writes` -/
def reactorFlushPendingWrites (fuel : ℕ) : List (Option Client) → Option Swept
  | [] => some (.done [])
  | none :: clients => (reactorFlushPendingWrites fuel clients).map (Swept.cons none)
  | some client :: clients =>
    match flushWhile client.socket fuel 0 client.out with
    | none => none
    | some .aborted => some .aborted
    | some (.done out) => (reactorFlushPendingWrites fuel clients).map (Swept.cons (some out))

/-! ### What a call does -/

section Calls

variable {out : Outgoing} {r : WriteResult} {rest : List WriteResult} {count : ℕ}

/-- `rv < 0` does not happen. -/
theorem WriteResult.rv_not_neg (r : WriteResult) : ¬ r.rv < 0 := BitVec.not_lt_zero

/-- The loop ends with the first result, whatever it is. -/
theorem writeLoop_cons : writeLoop (r :: rest) = some (r, rest) := by
  rw [writeLoop, if_neg fun failed => r.rv_not_neg failed.1]

theorem reactorEpollFlush_cons (out : Outgoing) (r : WriteResult) (rest : List WriteResult) :
    reactorEpollFlush out (r :: rest) = some (out.afterWrite r, rest) := by
  rw [reactorEpollFlush, writeLoop_cons]
  rfl

namespace Outgoing

theorem afterWrite_eq : out.afterWrite r =
    if out.size < out.sent + r.rv then .aborted
    else if out.sent + r.rv = out.size then .done { out with sent := 0, size := 0 }
    else .done { out with sent := out.sent + r.rv } := by
  rw [afterWrite, if_neg fun failed => r.rv_not_neg failed.1, if_neg r.rv_not_neg]

theorem remaining_eq (inOrder : out.sent.toNat ≤ out.size.toNat) :
    out.remaining = out.size.toNat - out.sent.toNat := toNat_sub inOrder

/-- A `write` that accepts `count` bytes. -/
theorem afterWrite_accepted (inOrder : out.sent.toNat ≤ out.size.toNat) (le : count ≤ out.remaining) :
    (out.sent + BitVec.ofNat 64 count).toNat = out.sent.toNat + count ∧
      out.afterWrite (.accepted count) =
        if out.sent.toNat + count = out.size.toNat then .done { out with sent := 0, size := 0 }
        else .done { out with sent := out.sent + BitVec.ofNat 64 count } := by
  have := out.size.isLt
  rw [remaining_eq inOrder] at le
  have sum : (out.sent + BitVec.ofNat 64 count).toNat = out.sent.toNat + count :=
    toNat_add_ofNat (by omega)
  refine ⟨sum, ?_⟩
  have fits : ¬ out.size < out.sent + BitVec.ofNat 64 count := by
    rw [BitVec.lt_def, sum]
    omega
  have whole : out.sent + BitVec.ofNat 64 count = out.size ↔ out.sent.toNat + count = out.size.toNat := by
    rw [← sum]
    exact BitVec.toNat_inj.symm
  simp only [afterWrite_eq, WriteResult.rv, if_neg fits, whole]

/-- A `write` that fails takes a byte back, and with none to take back the call aborts. -/
theorem afterWrite_failed {errno : Errno} (inOrder : out.sent.toNat ≤ out.size.toNat)
    (fits : out.size.toNat ≤ messageMaxLength) : out.afterWrite (.failed errno) =
      if out.sent = 0 then .aborted else .done { out with sent := out.sent - 1 } := by
  simp only [messageMaxLength] at fits
  have minusOne : out.sent + sizeMax = out.sent - 1 := by
    rw [BitVec.sub_eq_add_neg]
    rfl
  rw [afterWrite_eq, WriteResult.rv, minusOne]
  by_cases start : out.sent = 0
  · have beyond : out.size < out.sent - 1 := by
      have last : (0 - 1 : Size).toNat = 2 ^ 64 - 1 := rfl
      rw [start, BitVec.lt_def, last]
      omega
    rw [if_pos beyond, if_pos start]
  · have positive : out.sent.toNat ≠ 0 := fun zero => start (BitVec.eq_of_toNat_eq zero)
    have back : (out.sent - 1).toNat = out.sent.toNat - 1 := toNat_sub (by simp; omega)
    have inside : ¬ out.size < out.sent - 1 := by
      rw [BitVec.lt_def, back]
      omega
    have notAll : out.sent - 1 ≠ out.size := by
      intro all
      rw [all] at back
      omega
    rw [if_neg inside, if_neg notAll, if_neg start]

end Outgoing

end Calls

/-! ### Repeated calls -/

/-- What the peer takes of a result. -/
def Outgoing.taken (out : Outgoing) : WriteResult → Bytes
  | .accepted count => load out.bytes out.sent.toNat count
  | .failed _ => []

/-- What `write` can return: a count from 1 to the bytes that remain, or -1. -/
def Outgoing.Possible (out : Outgoing) : WriteResult → Prop
  | .accepted count => 1 ≤ count ∧ count ≤ out.remaining
  | .failed _ => True

instance (out : Outgoing) : (r : WriteResult) → Decidable (out.Possible r)
  | .accepted _ => inferInstanceAs (Decidable (_ ∧ _))
  | .failed _ => inferInstanceAs (Decidable True)

/-- One call after the other, each with the results that it meets; observed are the bytes that the
socket accepts. -/
def flusher : Machine Flushed (List WriteResult) UInt8 where
  step
    | .aborted, _ => none
    | .done out, results =>
      if ∀ r ∈ results, out.Possible r then
        match reactorEpollFlush out results, results.getLast? with
        | some (next, []), some r => some (next, out.taken r)
        | _, _ => none
      else none

/-- What the calls have made of a buffer: they did not abort, the counters are in order, and what
was accepted is the front of what was to be sent, all of it when the buffer is empty. -/
def SentOnce (start : Outgoing) (s : Flushed) (accepted : Bytes) : Prop :=
  ∃ out, s = .done out ∧ out.sent.toNat ≤ out.size.toNat ∧ accepted <+: start.pending ∧
    (out.size = 0 → accepted = start.pending)

/-- No `write` of the call fails. -/
def Writes (_ : Flushed) (results : List WriteResult) : Prop := ∀ r ∈ results, r.errno = none

instance (s : Flushed) (results : List WriteResult) : Decidable (Writes s results) :=
  inferInstanceAs (Decidable (∀ r ∈ results, r.errno = none))

theorem Writes.accepted {s : Flushed} {r : WriteResult} (writes : Writes s [r]) :
    ∃ count, r = .accepted count := by
  cases r with
  | accepted count => exact ⟨count, rfl⟩
  | failed errno => cases writes _ (List.mem_singleton_self _)

/-- How far the calls have come. -/
inductive Progress (start : Outgoing) : Flushed → Bytes → Prop
  | sending {out : Outgoing} (count : ℕ) : out.bytes = start.bytes → out.size = start.size →
      out.sent.toNat = start.sent.toNat + count → count ≤ start.remaining →
      Progress start (.done out) (load start.bytes start.sent.toNat count)
  | sent {out : Outgoing} : out.size = 0 → out.sent = 0 → Progress start (.done out) start.pending

section Run

variable {start : Outgoing} {s s' : Flushed} {accepted seen : Bytes} {results : List WriteResult}

theorem flusher_step {out : Outgoing} (taken : flusher.step (.done out) results = some (s', seen)) :
    ∃ r, results = [r] ∧ out.Possible r ∧ s' = out.afterWrite r ∧ seen = out.taken r := by
  simp only [flusher] at taken
  split at taken
  next possible =>
    cases results with
    | nil => simp [reactorEpollFlush, writeLoop] at taken
    | cons r rest =>
      rw [reactorEpollFlush_cons] at taken
      cases rest with
      | nil =>
        cases taken
        exact ⟨r, rfl, possible r List.mem_cons_self, rfl, rfl⟩
      | cons other rest => cases taken
  next => cases taken

theorem Progress.step (inOrder : start.sent.toNat ≤ start.size.toNat)
    (progress : Progress start s accepted) (writes : Writes s results)
    (taken : flusher.step s results = some (s', seen)) : Progress start s' (accepted ++ seen) := by
  have whole := start.remaining_eq inOrder
  cases progress with
  | @sending out count bytes size sent le =>
    obtain ⟨r, rfl, possible, rfl, rfl⟩ := flusher_step taken
    obtain ⟨more, rfl⟩ := writes.accepted
    obtain ⟨-, inside⟩ : 1 ≤ more ∧ more ≤ out.remaining := possible
    have inOrder' : out.sent.toNat ≤ out.size.toNat := by
      rw [size]
      omega
    have left := out.remaining_eq inOrder'
    rw [size] at left
    obtain ⟨sum, after⟩ := Outgoing.afterWrite_accepted inOrder' inside
    have accepted : load start.bytes start.sent.toNat count ++ out.taken (.accepted more) =
        load start.bytes start.sent.toNat (count + more) := by
      rw [load_add, Outgoing.taken, bytes, sent]
    rw [accepted, after, size]
    split
    next all =>
      have pending : load start.bytes start.sent.toNat (count + more) = start.pending := by
        rw [Outgoing.pending, show start.remaining = count + more by omega]
      rw [pending]
      exact .sent rfl rfl
    next => exact .sending (count + more) bytes rfl (by rw [sum]; omega) (by omega)
  | @sent out size sent =>
    -- nothing remains that a `write` could accept
    obtain ⟨r, rfl, possible, rfl, rfl⟩ := flusher_step taken
    obtain ⟨more, rfl⟩ := writes.accepted
    obtain ⟨some, inside⟩ : 1 ≤ more ∧ more ≤ out.remaining := possible
    have none : out.remaining = 0 := by
      rw [Outgoing.remaining, size, sent]
      rfl
    omega

theorem Progress.sentOnce (inOrder : start.sent.toNat ≤ start.size.toNat)
    (progress : Progress start s accepted) : SentOnce start s accepted := by
  have whole := start.remaining_eq inOrder
  cases progress with
  | @sending out count bytes size sent le =>
    have front : start.pending = load start.bytes start.sent.toNat count ++
        load start.bytes (start.sent.toNat + count) (start.remaining - count) := by
      rw [Outgoing.pending, ← load_add, Nat.add_sub_cancel' le]
    refine ⟨out, rfl, by rw [size]; omega, ⟨_, front.symm⟩, ?_⟩
    intro empty
    have zero : start.size.toNat = 0 := by
      rw [← size, empty]
      rfl
    rw [Outgoing.pending, show start.remaining = count by omega]
  | @sent out size sent =>
    refine ⟨out, rfl, ?_, List.prefix_refl _, fun _ => rfl⟩
    rw [size, sent]

/-- While no `write` fails, flushing sends each byte once. -/
theorem flush_sends_once (inOrder : start.sent.toNat ≤ start.size.toNat)
    (run : flusher.Run Writes (.done start) s accepted) : SentOnce start s accepted := by
  have progress : Progress start s accepted := by
    apply run.invariant (Progress start)
    · exact .sending 0 rfl rfl rfl (Nat.zero_le _)
    · exact fun s trace a s' seen _ progress writes taken => progress.step inOrder writes taken
  exact progress.sentOnce inOrder

/-- A reply of seven bytes, none of them sent yet. -/
def pongOut : Outgoing := ⟨fun i => (asciiBytes "+PONG\r\n").getD i 0, 7, 0, false, false⟩

/-- It is sent in two pieces. -/
theorem flush_sends_once_pong : ∃ s accepted, flusher.Run Writes (.done pongOut) s accepted ∧
    accepted = asciiBytes "+PONG\r\n" ∧ SentOnce pongOut s accepted := by
  obtain ⟨s, accepted, run, is⟩ := Machine.exists_run_of_exec flusher Writes (.done pongOut)
    [[.accepted 3], [.accepted 4]] (fun r => r.2) (b := asciiBytes "+PONG\r\n") (by decide)
  exact ⟨s, accepted, run, is, flush_sends_once (by decide) run⟩

/-- Its socket is full. -/
theorem flush_blocked_aborts : ¬ ∀ s accepted, flusher.Reaches (.done pongOut) s accepted →
    SentOnce pongOut s accepted := by
  intro once
  obtain ⟨s, accepted, run, is⟩ := Machine.exists_of_exec flusher (.done pongOut) [[.failed .eagain]]
    (fun r => r.1.isAborted) (b := true) (by decide)
  obtain ⟨out, rfl, -⟩ := once s accepted run
  cases is

end Run

/-! ### All connections -/

section Sweep

variable {out : Outgoing} {socket : Socket} {fuel k : ℕ}

theorem socket_answers (socket : Socket) (k remaining fuel : ℕ) :
    ∃ rest, socket.answers k remaining (fuel + 1) = socket.answer k remaining :: rest := by
  rw [Socket.answers, List.range_succ_eq_map, List.map_cons]
  exact ⟨_, rfl⟩

theorem flushWhile_empty (none : out.size = 0) : flushWhile socket (fuel + 1) k out = some (.done out) := by
  rw [flushWhile, none]
  rfl

/-- One turn of the loop over a connection. -/
theorem flushWhile_done {out' : Outgoing} (some : 0 < out.size)
    (after : out.afterWrite (socket.answer k out.remaining) = .done out') :
    ∃ k', flushWhile socket (fuel + 1) k out = flushWhile socket fuel k' out' := by
  obtain ⟨rest, answers⟩ := socket_answers socket k out.remaining fuel
  refine ⟨k + (fuel + 1 - rest.length), ?_⟩
  rw [flushWhile, if_pos some, answers, reactorEpollFlush_cons, after]

theorem flushWhile_aborted (some : 0 < out.size)
    (after : out.afterWrite (socket.answer k out.remaining) = .aborted) :
    flushWhile socket (fuel + 1) k out = Option.some .aborted := by
  obtain ⟨rest, answers⟩ := socket_answers socket k out.remaining fuel
  rw [flushWhile, if_pos some, answers, reactorEpollFlush_cons, after]

/-- A socket that accepts takes everything: by induction on what remains. -/
theorem flushWhile_accepting {takes : ℕ → ℕ → ℕ} {le : ∀ k remaining, takes k remaining ≤ remaining}
    {some : ∀ k remaining, 0 < remaining → 0 < takes k remaining}
    (inOrder : out.sent.toNat ≤ out.size.toNat) (enough : out.remaining + 2 ≤ fuel) :
    ∃ out', flushWhile (.accepting takes le some) fuel k out = Option.some (.done out') ∧
      out'.size = 0 := by
  induction fuel generalizing k out with
  | zero => omega
  | succ fuel ih =>
    by_cases empty : out.size = 0
    · exact ⟨out, flushWhile_empty empty, empty⟩
    · have pending : 0 < out.size := by
        have := mt (@BitVec.eq_of_toNat_eq 64 out.size 0) empty
        rw [BitVec.lt_def]
        exact Nat.pos_of_ne_zero this
      have left := out.remaining_eq inOrder
      obtain ⟨sum, after⟩ := Outgoing.afterWrite_accepted inOrder (le k out.remaining)
      split at after
      next all =>
        obtain ⟨k', turn⟩ := @flushWhile_done _ (.accepting takes le some) fuel k _ pending after
        obtain ⟨fuel, rfl⟩ : ∃ fuel', fuel = fuel' + 1 := ⟨fuel - 1, by omega⟩
        rw [turn]
        exact ⟨_, flushWhile_empty rfl, rfl⟩
      next part =>
        obtain ⟨k', turn⟩ := @flushWhile_done _ (.accepting takes le some) fuel k _ pending after
        -- something remained, so something was taken
        have more := some k out.remaining (by have := le k out.remaining; omega)
        have taken := le k out.remaining
        have inOrder' : (out.sent + BitVec.ofNat 64 (takes k out.remaining)).toNat ≤ out.size.toNat := by
          omega
        rw [turn]
        apply ih inOrder'
        rw [Outgoing.remaining_eq inOrder']
        dsimp only
        omega

/-- A blocked one gives back what it has taken, byte by byte, and then the process aborts. -/
theorem flushWhile_blocked (inOrder : out.sent.toNat ≤ out.size.toNat)
    (fits : out.size.toNat ≤ messageMaxLength) (some : 0 < out.size) (enough : out.sent.toNat < fuel) :
    flushWhile .blocked fuel k out = Option.some .aborted := by
  induction fuel generalizing k out with
  | zero => omega
  | succ fuel ih =>
    have after := @Outgoing.afterWrite_failed _ .eagain inOrder fits
    split at after
    next => exact flushWhile_aborted some after
    next positive =>
      obtain ⟨k', turn⟩ := @flushWhile_done _ .blocked fuel k _ some after
      have positive : out.sent.toNat ≠ 0 := mt (@BitVec.eq_of_toNat_eq 64 out.sent 0) positive
      have back : (out.sent - 1).toNat = out.sent.toNat - 1 := toNat_sub (by simp; omega)
      rw [turn]
      exact ih (by rw [back]; dsimp only; omega) fits some (by rw [back]; omega)

/-- What becomes of a connection. -/
def Client.Kept : Option Client → Option Outgoing → Prop
  | none, out => out = none
  | some client, out =>
    ∃ left, out = some left ∧ (client.socket = .blocked → left.pending = client.out.pending) ∧
      (client.socket ≠ .blocked → left.size = 0)

/-- The loop over the table returns, without aborting, with every accepting connection drained and
the unsent bytes of the others kept. -/
def Isolates (table : List (Option Client)) : Prop :=
  ∃ enough, ∀ fuel, enough ≤ fuel → ∃ left,
    reactorFlushPendingWrites fuel table = some (.done left) ∧ List.Forall₂ Client.Kept table left

/-- A blocked connection that has something to send. -/
def Client.Stops (client : Client) : Prop := client.socket = .blocked ∧ client.out.size ≠ 0

/-- 8194 turns are enough for any connection. -/
theorem flushWhile_client {client : Client} (enough : messageMaxLength + 2 ≤ fuel) :
    (client.Stops → flushWhile client.socket fuel 0 client.out = some .aborted) ∧
      (¬ client.Stops → ∃ left, flushWhile client.socket fuel 0 client.out = some (.done left) ∧
        Client.Kept (some client) (some left)) := by
  have inOrder := client.inOrder
  have fits := client.fits
  obtain ⟨fuel, rfl⟩ : ∃ fuel', fuel = fuel' + 1 := ⟨fuel - 1, by omega⟩
  constructor
  · rintro ⟨blocked, pending⟩
    rw [blocked]
    apply flushWhile_blocked inOrder fits
    · rw [BitVec.lt_def]
      exact Nat.pos_of_ne_zero (mt (@BitVec.eq_of_toNat_eq 64 _ 0) pending)
    · omega
  · intro goesOn
    cases socket : client.socket with
    | accepting takes le some =>
      -- what remains is at most a whole buffer, so the turns suffice
      have left := client.out.remaining_eq inOrder
      obtain ⟨out, done, empty⟩ := @flushWhile_accepting client.out (fuel + 1) 0 takes le some inOrder
        (by omega)
      refine ⟨out, done, out, rfl, ?_, fun _ => empty⟩
      intro blocked
      rw [socket] at blocked
      cases blocked
    | blocked =>
      have empty : client.out.size = 0 := by
        by_contra pending
        exact goesOn ⟨socket, pending⟩
      exact ⟨client.out, flushWhile_empty empty, client.out, rfl, fun _ => rfl, fun _ => empty⟩

theorem sweep_aborts {table : List (Option Client)} {client : Client} (member : some client ∈ table)
    (stops : client.Stops) (enough : messageMaxLength + 2 ≤ fuel) :
    reactorFlushPendingWrites fuel table = some .aborted := by
  induction table with
  | nil => cases member
  | cons first table ih =>
    cases first with
    | none =>
      have later : some client ∈ table := by simpa using member
      rw [reactorFlushPendingWrites, ih later]
      rfl
    | some other =>
      obtain ⟨aborts, goesOn⟩ := @flushWhile_client fuel other enough
      by_cases here : other.Stops
      · rw [reactorFlushPendingWrites, aborts here]
      · obtain ⟨left, done, -⟩ := goesOn here
        have later : some client ∈ table := by
          rcases List.mem_cons.mp member with same | later
          · cases same
            exact absurd stops here
          · exact later
        rw [reactorFlushPendingWrites, done, ih later]
        rfl

theorem sweep_keeps {table : List (Option Client)} (free : ∀ client, some client ∈ table → ¬ client.Stops)
    (enough : messageMaxLength + 2 ≤ fuel) : ∃ left,
    reactorFlushPendingWrites fuel table = some (.done left) ∧ List.Forall₂ Client.Kept table left := by
  induction table with
  | nil => exact ⟨[], rfl, .nil⟩
  | cons first table ih =>
    obtain ⟨left, done, kept⟩ := ih fun client member => free client (List.mem_cons_of_mem _ member)
    cases first with
    | none =>
      refine ⟨none :: left, ?_, .cons rfl kept⟩
      rw [reactorFlushPendingWrites, done]
      rfl
    | some client =>
      obtain ⟨out, flushed, isKept⟩ := (flushWhile_client enough).2 (free client List.mem_cons_self)
      refine ⟨some out :: left, ?_, .cons isKept kept⟩
      rw [reactorFlushPendingWrites, flushed, done]
      rfl

/-- A slow client stops its shard exactly when there is something to send to it. -/
theorem flush_isolates_iff (table : List (Option Client)) :
    Isolates table ↔ ∀ client, some client ∈ table → client.socket = .blocked → client.out.size = 0 := by
  constructor
  · rintro ⟨enough, returns⟩ client member blocked
    by_contra pending
    obtain ⟨left, done, -⟩ := returns (max enough (messageMaxLength + 2)) (Nat.le_max_left _ _)
    rw [sweep_aborts member ⟨blocked, pending⟩ (Nat.le_max_right _ _)] at done
    cases done
  · intro empty
    refine ⟨messageMaxLength + 2, fun fuel enough => sweep_keeps ?_ enough⟩
    exact fun client member stops => stops.2 (empty client member stops.1)

end Sweep

/-! ### Connections of the server -/

/-- The send buffer of a connection, as it is outside of `reactor_epoll_flush`. -/
def outgoing (conn : Conn) : Outgoing where
  bytes i := conn.sendBuf.getD i 0
  size := BitVec.ofNat 64 conn.sendBuf.length
  sent := 0
  blocked := false
  ending := conn.flags.ending

/-- What `Conn.flush` takes for granted: a client that reads gets the whole of `send_buf`, which is
empty then. -/
theorem flush_conn {conn : Conn} {takes : ℕ → ℕ → ℕ} {le : ∀ k remaining, takes k remaining ≤ remaining}
    {some : ∀ k remaining, 0 < remaining → 0 < takes k remaining}
    (fits : conn.sendBuf.length ≤ messageMaxLength) :
    (outgoing conn).pending = conn.sendBuf ∧ ∃ out,
      flushWhile (.accepting takes le some) (messageMaxLength + 2) 0 (outgoing conn) =
          Option.some (.done out) ∧
        out.size.toNat = conn.flush.sendBuf.length := by
  have small : conn.sendBuf.length < 2 ^ 64 := by
    simp only [messageMaxLength] at fits
    omega
  have size : (outgoing conn).size.toNat = conn.sendBuf.length := by
    rw [outgoing, BitVec.toNat_ofNat, Nat.mod_eq_of_lt small]
  have remaining : (outgoing conn).remaining = conn.sendBuf.length := by
    rw [Outgoing.remaining_eq (Nat.zero_le _), size]
    rfl
  constructor
  · rw [Outgoing.pending, remaining]
    apply List.ext_getElem
    · exact load_length
    · intro i h inside
      simp [load, outgoing, List.getElem?_eq_getElem inside]
  · obtain ⟨out, done, empty⟩ := @flushWhile_accepting (outgoing conn) (messageMaxLength + 2) 0 takes le
      some (Nat.zero_le _) (by omega)
    exact ⟨out, done, by rw [empty]; rfl⟩

/-- A client that does not read, with a reply of seven bytes to come. -/
def slowClient : Client := ⟨pongOut, .blocked, by decide, by decide⟩

theorem slow_client_stops : ¬ Isolates [some slowClient] := by
  rintro ⟨enough, returns⟩
  obtain ⟨left, done, -⟩ := returns (max enough (messageMaxLength + 2)) (Nat.le_max_left _ _)
  have stops : slowClient.Stops := ⟨rfl, by decide⟩
  rw [sweep_aborts (List.mem_singleton_self _) stops (Nat.le_max_right _ _)] at done
  cases done

end GhettoRedis.Server
