import GhettoRedis.Lib.Growth
import GhettoRedis.Lib.Machine
import GhettoRedis.Lib.Word

/-!
# The table of connections

`reactor->conns` with file descriptors as its indices: how `reactor_conn_emplace` grows and
fills it and `reactor_epoll_close` clears it, for connections that come and go in any order.
-/
namespace GhettoRedis.Server

open Lib

/-- A `Conn` of the table by its address, with the file descriptor that it was accepted on: these
stay below `INT_MAX`. -/
structure TableConn where
  addr : Size
  fd : ℕ
  fd_lt : fd < 2 ^ 31 - 1
  deriving DecidableEq

/-! ### `vector_Conn_ptr` -/

structure VectorConnPtr where
  array : List (Option TableConn)
  used : ℕ
  size : ℕ

def initVector (initialSize : ℕ) (junk : ℕ → Option TableConn) : VectorConnPtr :=
  ⟨(List.range initialSize).map junk, 0, initialSize⟩

def capacityVector (a : VectorConnPtr) : ℕ := a.size

/-- A `realloc` that fails ends the process. -/
def resizeVector (a : VectorConnPtr) (newSize : ℕ) (junk : ℕ → Option TableConn) : VectorConnPtr :=
  { a with array := realloc a.array newSize junk, size := newSize }

/-! ### The reactor -/

/-- `conn->fd + 1`, an `int` that becomes a `size_t`. -/
def TableConn.nextFd (conn : TableConn) : ℕ :=
  ((BitVec.ofNat 32 conn.fd + 1).signExtend 64).toNat

/-- The part of `reactor_init` about the connections. -/
def reactorInit (junk : ℕ → Option TableConn) : VectorConnPtr :=
  let conns := initVector 128 junk
  { conns with array := fillCells none (capacityVector conns) 0 conns.array }

def reactorConnEmplace (conns : VectorConnPtr) (conn : TableConn) (junk : ℕ → Option TableConn) :
    VectorConnPtr :=
  let capacity := capacityVector conns
  let conns := if capacity ≤ conn.fd then resizeVector conns conn.nextFd junk else conns
  let newCapacity := capacityVector conns
  let array := fillCells none (newCapacity - capacity) capacity conns.array
  { conns with array := array.set conn.fd (some conn), used := conns.size }

/-- `reactor_epoll_accept`, with what `on_accept` returns. -/
def reactorEpollAccept (conns : VectorConnPtr) (client : Option TableConn)
    (junk : ℕ → Option TableConn) : VectorConnPtr :=
  match client with
  | none => conns
  | some conn => reactorConnEmplace conns conn junk

def reactorEpollClose (conns : VectorConnPtr) (conn : TableConn) : VectorConnPtr :=
  { conns with array := conns.array.set conn.fd none }

/-- `reactor->conns->array[fd]` for the file descriptor of an event. -/
def eventConn (conns : VectorConnPtr) (fd : ℕ) : Option TableConn := conns.array.getD fd none

/-- The connections that the loop of `reactor_flush_pending_writes` comes to. -/
def flushVisits (conns : VectorConnPtr) : List TableConn :=
  (List.range (capacityVector conns)).filterMap fun i => conns.array.getD i none

/-- The loop at the end of `reactor_run` from entry `i` on: the connections that it closes, and
the table behind it. -/
def closeVisits : (count i : ℕ) → VectorConnPtr → List TableConn × VectorConnPtr
  | 0, _, conns => ([], conns)
  | count + 1, i, conns =>
    match conns.array.getD i none with
    | none => closeVisits count (i + 1) conns
    | some conn =>
      let (closed, conns) := closeVisits count (i + 1) (reactorEpollClose conns conn)
      (conn :: closed, conns)

/-! ### Clients that come and go -/

/-- The table, and beside it the connection last accepted on each file descriptor that is open. -/
structure Table where
  conns : VectorConnPtr
  opened : ℕ → Option TableConn

/-- A client is accepted, or the connection of an event is closed. -/
inductive TableAction where
  | accept (client : Option TableConn) (junk : ℕ → Option TableConn)
  | close (fd : ℕ)

/-- A client gets a file descriptor that is not open. -/
def tableStep (t : Table) : TableAction → Option (Table × List Empty)
  | .accept client junk =>
    match client with
    | none => some (⟨reactorEpollAccept t.conns none junk, t.opened⟩, [])
    | some conn =>
      if (t.opened conn.fd).isNone then
        some (⟨reactorEpollAccept t.conns (some conn) junk,
          Function.update t.opened conn.fd (some conn)⟩, [])
      else none
  | .close fd =>
    if (t.opened fd).isSome then
      (eventConn t.conns fd).map fun conn =>
        (⟨reactorEpollClose t.conns conn, Function.update t.opened fd none⟩, [])
    else none

def connections : Machine Table TableAction Empty := ⟨tableStep⟩

def Table.init (junk : ℕ → Option TableConn) : Table := ⟨reactorInit junk, fun _ => none⟩

/-- The table knows the open connections: their entries hold them and all others are `NULL`, the
loops come to each of them once, and an event finds its own. -/
structure Table.Exact (t : Table) : Prop where
  size : ∀ fd conn, t.opened fd = some conn → fd < capacityVector t.conns
  cell : ∀ fd < capacityVector t.conns, t.conns.array[fd]? = some (t.opened fd)
  event : ∀ fd conn, t.opened fd = some conn → eventConn t.conns fd = some conn ∧ conn.fd = fd
  once : (flushVisits t.conns).Nodup
  visited : ∀ conn, conn ∈ flushVisits t.conns ↔ ∃ fd, t.opened fd = some conn
  closed : (closeVisits (capacityVector t.conns) 0 t.conns).1 = flushVisits t.conns
  cleared : ∀ fd, eventConn (closeVisits (capacityVector t.conns) 0 t.conns).2 fd = none

/-! ### The invariant -/

structure Table.Inv (t : Table) : Prop where
  sized : t.conns.array.length = t.conns.size
  keeps : Keeps t.conns.array t.opened
  own : ∀ fd conn, t.opened fd = some conn → conn.fd = fd

theorem nextFd_eq (conn : TableConn) : conn.nextFd = conn.fd + 1 := by
  have range := conn.fd_lt
  have sum : BitVec.ofNat 32 conn.fd + 1 = BitVec.ofNat 32 (conn.fd + 1) := by
    rw [BitVec.ofNat_add]
    rfl
  have positive : (BitVec.ofNat 32 (conn.fd + 1)).msb = false := by
    rw [BitVec.msb_eq_false_iff_two_mul_lt, BitVec.toNat_ofNat]
    omega
  rw [TableConn.nextFd, sum, BitVec.signExtend_eq_setWidth_of_msb_false positive,
    BitVec.toNat_setWidth, BitVec.toNat_ofNat]
  omega

theorem inv_init (junk : ℕ → Option TableConn) : (Table.init junk).Inv := by
  have all : (initVector 128 junk).array.length = capacityVector (initVector 128 junk) := by
    simp [initVector, capacityVector]
  have keeps := Keeps.cleared all
  refine ⟨by simp [Table.init, reactorInit, initVector], ?_, fun _ _ none => by cases none⟩
  simpa only [Table.init, reactorInit] using keeps

/-- The table with room for the file descriptor, still keeping what it kept. -/
theorem emplace_room {t : Table} (inv : t.Inv) (conn : TableConn) (junk : ℕ → Option TableConn) :
    ∃ cells, Keeps cells t.opened ∧ conn.fd < cells.length ∧
      (reactorConnEmplace t.conns conn junk).array = cells.set conn.fd (some conn) ∧
      (reactorConnEmplace t.conns conn junk).size = cells.length := by
  have sized := inv.sized
  unfold reactorConnEmplace capacityVector
  by_cases short : t.conns.size ≤ conn.fd
  · have larger : t.conns.array.length ≤ conn.nextFd := by
      rw [nextFd_eq]
      omega
    refine ⟨_, inv.keeps.grow larger junk, ?_, ?_, ?_⟩
    · rw [length_fillCells, length_realloc, nextFd_eq]
      omega
    · simp only [if_pos short, resizeVector, sized]
    · simp [if_pos short, resizeVector]
  · refine ⟨t.conns.array, inv.keeps, by omega, ?_, ?_⟩
    · -- nothing new, nothing to clear
      simp only [if_neg short, Nat.sub_self, fillCells]
    · simp only [if_neg short, sized]

theorem inv_emplace {t : Table} (inv : t.Inv) (conn : TableConn) (junk : ℕ → Option TableConn) :
    (Table.mk (reactorConnEmplace t.conns conn junk)
      (Function.update t.opened conn.fd (some conn))).Inv := by
  obtain ⟨cells, keeps, room, array, size⟩ := emplace_room inv conn junk
  refine ⟨?_, ?_, fun fd other found => ?_⟩
  · rw [array, size, List.length_set]
  · rw [array]
    exact keeps.set room _
  · by_cases same : fd = conn.fd
    · subst same
      obtain rfl : conn = other := by simpa using found
      rfl
    · exact inv.own fd other (by simpa [same] using found)

theorem inv_close {t : Table} (inv : t.Inv) {conn : TableConn} (found : t.opened conn.fd = some conn) :
    (Table.mk (reactorEpollClose t.conns conn) (Function.update t.opened conn.fd none)).Inv := by
  refine ⟨?_, inv.keeps.set (inv.keeps.lt_length found) _, fun fd other found' => ?_⟩
  · rw [reactorEpollClose, List.length_set, inv.sized]
  · by_cases same : fd = conn.fd
    · subst same
      simp at found'
    · exact inv.own fd other (by simpa [same] using found')

theorem inv_step {t t' : Table} {a : TableAction} {seen : List Empty} (inv : t.Inv)
    (taken : tableStep t a = some (t', seen)) : t'.Inv := by
  cases a with
  | accept client junk =>
    cases client with
    | none =>
      cases taken
      exact inv
    | some conn =>
      simp only [tableStep] at taken
      split at taken
      next =>
        cases taken
        exact inv_emplace inv conn junk
      next => cases taken
  | close fd =>
    simp only [tableStep] at taken
    split at taken
    next =>
      obtain ⟨conn, found, is⟩ := Option.map_eq_some_iff.mp taken
      cases is
      have found : t.opened fd = some conn := inv.keeps fd ▸ found
      -- it is the connection of the event that is closed
      obtain rfl := inv.own fd conn found
      exact inv_close inv found
    next => cases taken

/-! ### The loops -/

/-- Closing an entry leaves those alone that the loop has still to come to. -/
theorem closeVisits_eq {conns : VectorConnPtr} {map : ℕ → Option TableConn} (count i : ℕ)
    (keeps : Keeps conns.array map) (own : ∀ fd conn, map fd = some conn → conn.fd = fd) :
    (closeVisits count i conns).1 = (List.range' i count).filterMap map ∧
      Keeps (closeVisits count i conns).2.array
        (fun j => if i ≤ j ∧ j < i + count then none else map j) := by
  induction count generalizing i conns map with
  | zero =>
    refine ⟨rfl, fun j => ?_⟩
    exact (keeps j).trans (if_neg (by omega)).symm
  | succ count ih =>
    rw [closeVisits, List.range'_succ]
    cases found : map i with
    | none =>
      obtain ⟨visits, cleared⟩ := ih (i + 1) keeps own
      rw [List.filterMap_cons_none found, keeps i, found]
      refine ⟨visits, fun j => (cleared j).trans ?_⟩
      -- an entry that is empty is passed over, and is empty afterwards
      by_cases first : j = i
      · subst first
        simp [found]
      · simp only [show (i + 1 ≤ j ∧ j < i + 1 + count) ↔ (i ≤ j ∧ j < i + (count + 1)) by omega]
    | some conn =>
      obtain rfl := own i conn found
      -- the entry is closed: what the table stands for loses it
      have keeps' : Keeps (reactorEpollClose conns conn).array (Function.update map conn.fd none) :=
        keeps.set (keeps.lt_length found) _
      have own' (fd : ℕ) (other : TableConn)
          (found' : Function.update map conn.fd none fd = some other) : other.fd = fd := by
        by_cases same : fd = conn.fd
        · subst same
          simp at found'
        · exact own fd other (by simpa [same] using found')
      obtain ⟨visits, cleared⟩ := ih (conn.fd + 1) keeps' own'
      rw [List.filterMap_cons_some found, keeps conn.fd, found]
      refine ⟨congrArg (conn :: ·) (visits.trans (List.filterMap_congr fun j mem => ?_)),
        fun j => (cleared j).trans ?_⟩
      · -- the visits behind it do not see the entry that was cleared
        rw [List.mem_range'_1] at mem
        exact Function.update_of_ne (by omega) _ _
      · by_cases first : j = conn.fd
        · subst first
          simp
        · simp only [Function.update_of_ne first, show (conn.fd + 1 ≤ j ∧ j < conn.fd + 1 + count) ↔
            (conn.fd ≤ j ∧ j < conn.fd + (count + 1)) by omega]

theorem Table.Inv.exact {t : Table} (inv : t.Inv) : t.Exact := by
  have sized := inv.sized
  have visits : flushVisits t.conns = (List.range t.conns.array.length).filterMap t.opened := by
    rw [flushVisits, capacityVector, ← sized]
    exact inv.keeps.visits _
  obtain ⟨closes, cleared⟩ := closeVisits_eq (capacityVector t.conns) 0 inv.keeps inv.own
  refine ⟨fun fd conn found => ?_, fun fd inside => ?_, fun fd conn found => ?_, ?_, fun conn => ?_, ?_,
    fun fd => ?_⟩
  · rw [capacityVector, ← sized]
    exact inv.keeps.lt_length found
  · rw [capacityVector, ← sized] at inside
    rw [← inv.keeps fd, List.getD_eq_getElem _ _ inside, List.getElem?_eq_getElem inside]
  · exact ⟨(inv.keeps fd).trans found, inv.own fd conn found⟩
  · -- two entries never hold the same connection
    rw [visits]
    refine List.nodup_range.filterMap fun i j conn foundI foundJ => ?_
    rw [← inv.own i conn foundI, ← inv.own j conn foundJ]
  · rw [visits]
    exact inv.keeps.mem_visits
  · rw [closes, visits, capacityVector, sized, List.range_eq_range']
  · refine (cleared fd).trans (ite_eq_left_iff.mpr fun outside => ?_)
    rw [← inv.keeps fd]
    exact List.getD_eq_default _ _ (by rw [sized]; simp only [capacityVector] at outside; omega)

/-- Whatever clients come and go, and whatever `realloc` leaves behind. -/
theorem connection_table {junk : ℕ → Option TableConn} {t : Table} {seen : List Empty}
    (run : connections.Reaches (Table.init junk) t seen) : t.Exact := by
  have inv := run.invariant (fun t _ => t.Inv) (inv_init junk)
    fun s trace a s' seen _ inv _ taken => inv_step inv taken
  exact inv.exact

/-- The table grows for file descriptor 200, over cells that hold something else. -/
theorem connection_table_grown : Table.Exact
    ⟨reactorConnEmplace (reactorInit fun _ => none) ⟨4096, 200, by decide⟩
      (fun _ => some ⟨64, 7, by decide⟩),
      Function.update (fun _ => none) 200 (some ⟨4096, 200, by decide⟩)⟩ := by
  have start : connections.Reaches (Table.init fun _ => none) (Table.init fun _ => none) [] := .refl
  have accepted := start.step (a := .accept (some ⟨4096, 200, by decide⟩)
    fun _ => some ⟨64, 7, by decide⟩) trivial rfl
  exact connection_table accepted

end GhettoRedis.Server
