import Mathlib.Logic.Function.Basic
import Mathlib.Data.List.Basic

/-!
# Mailboxes

Nodes that pass messages: each has an inbox, the oldest message first, and an outbox
for what it is about to put into the inbox of another. The messages that a selector
picks on their way from one node to another form a lane; messages join it at its end
and leave it at its front, whatever the nodes do in between.
-/
namespace GhettoRedis.Lib

variable {ν μ β : Type}

structure Mail (ν μ : Type) where
  inbox : ν → List μ
  outbox : ν → List μ

namespace Mail

/-- Message `m` is somewhere on its way. -/
def Holds (x : Mail ν μ) (m : μ) : Prop := ∃ i, m ∈ x.inbox i ∨ m ∈ x.outbox i

/-- The lane from `src` to `dst` of the messages that `sel` selects. -/
def lane (x : Mail ν μ) (sel : μ → Option β) (src dst : ν) : List β :=
  (x.inbox dst).filterMap sel ++ (x.outbox src).filterMap sel

theorem mem_lane {x : Mail ν μ} {sel : μ → Option β} {src dst : ν} {b : β} : b ∈ x.lane sel src dst ↔
    ∃ m, (m ∈ x.inbox dst ∨ m ∈ x.outbox src) ∧ sel m = some b := by
  simp only [lane, List.mem_append, List.mem_filterMap]
  constructor
  · rintro (⟨m, mem, selects⟩ | ⟨m, mem, selects⟩)
    · exact ⟨m, .inl mem, selects⟩
    · exact ⟨m, .inr mem, selects⟩
  · rintro ⟨m, mem | mem, selects⟩
    · exact .inl ⟨m, mem, selects⟩
    · exact .inr ⟨m, mem, selects⟩

variable [DecidableEq ν] (x : Mail ν μ)

/-- Node `i` writes a message. -/
def push (i : ν) (m : μ) : Mail ν μ := { x with outbox := Function.update x.outbox i [m] }

/-- Node `i` takes its oldest message. -/
def pop (i : ν) : Mail ν μ := { x with inbox := Function.update x.inbox i (x.inbox i).tail }

/-- The message that node `i` wrote reaches node `t`. -/
def pass (i t : ν) : Mail ν μ where
  inbox := Function.update x.inbox t (x.inbox t ++ x.outbox i)
  outbox := Function.update x.outbox i []

variable {x} {sel : μ → Option β} {src dst i t : ν} {m : μ} {rest : List μ}

theorem lane_push (empty : x.outbox i = []) (from_src : ∀ b, sel m = some b → i = src) :
    (x.push i m).lane sel src dst = x.lane sel src dst ++ (sel m).toList := by
  cases selects : sel m with
  | none =>
    by_cases same : src = i
    · subst same
      simp [lane, push, empty, selects]
    · simp [lane, push, Function.update_of_ne same]
  | some b =>
    obtain rfl := from_src b selects
    simp [lane, push, empty, selects]

theorem lane_pop (front : x.inbox i = m :: rest) (at_dst : ∀ b, sel m = some b → i = dst) :
    x.lane sel src dst = (sel m).toList ++ (x.pop i).lane sel src dst := by
  cases selects : sel m with
  | none =>
    by_cases same : dst = i
    · subst same
      simp [lane, pop, front, selects]
    · simp [lane, pop, Function.update_of_ne same]
  | some b =>
    obtain rfl := at_dst b selects
    simp [lane, pop, front, selects]

theorem lane_pass (ready : x.outbox i = [m])
    (addressed : ∀ b, sel m = some b → i = src ∧ t = dst) :
    (x.pass i t).lane sel src dst = x.lane sel src dst := by
  cases selects : sel m with
  | none =>
    have inbox : ((x.pass i t).inbox dst).filterMap sel = (x.inbox dst).filterMap sel := by
      by_cases same : dst = t
      · subst same
        simp [pass, ready, selects]
      · simp [pass, Function.update_of_ne same]
    have outbox : ((x.pass i t).outbox src).filterMap sel = (x.outbox src).filterMap sel := by
      by_cases same : src = i
      · subst same
        simp [pass, ready, selects]
      · simp [pass, Function.update_of_ne same]
    rw [lane, lane, inbox, outbox]
  | some b =>
    obtain ⟨rfl, rfl⟩ := addressed b selects
    simp [lane, pass, ready]

/-! ### What is on its way -/

theorem holds_push {m' : μ} (holds : (x.push i m).Holds m') : m' = m ∨ x.Holds m' := by
  obtain ⟨j, mem | mem⟩ := holds
  · exact .inr ⟨j, .inl mem⟩
  · by_cases same : j = i
    · subst same
      exact .inl (by simpa [push] using mem)
    · exact .inr ⟨j, .inr (by simpa [push, Function.update_of_ne same] using mem)⟩

theorem holds_pop {m' : μ} (holds : (x.pop i).Holds m') : x.Holds m' := by
  obtain ⟨j, mem | mem⟩ := holds
  · by_cases same : j = i
    · subst same
      exact ⟨j, .inl (List.mem_of_mem_tail (by simpa [pop] using mem))⟩
    · exact ⟨j, .inl (by simpa [pop, Function.update_of_ne same] using mem)⟩
  · exact ⟨j, .inr mem⟩

theorem holds_pass {m' : μ} (holds : (x.pass i t).Holds m') : x.Holds m' := by
  obtain ⟨j, mem | mem⟩ := holds
  · by_cases same : j = t
    · subst same
      rcases List.mem_append.mp (by simpa [pass] using mem) with old | moved
      · exact ⟨j, .inl old⟩
      · exact ⟨i, .inr moved⟩
    · exact ⟨j, .inl (by simpa [pass, Function.update_of_ne same] using mem)⟩
  · by_cases same : j = i
    · subst same
      simp [pass] at mem
    · exact ⟨j, .inr (by simpa [pass, Function.update_of_ne same] using mem)⟩

theorem holds_push_self : (x.push i m).Holds m := ⟨i, .inr (by simp [push])⟩

theorem Holds.push {m' : μ} (holds : x.Holds m') (empty : x.outbox i = []) :
    (x.push i m).Holds m' := by
  obtain ⟨j, mem | mem⟩ := holds
  · exact ⟨j, .inl mem⟩
  · have other : j ≠ i := by
      rintro rfl
      simp [empty] at mem
    exact ⟨j, .inr (by simpa [Mail.push, Function.update_of_ne other] using mem)⟩

theorem Holds.pop {m' : μ} (holds : x.Holds m') (front : x.inbox i = m :: rest) :
    m' = m ∨ (x.pop i).Holds m' := by
  obtain ⟨j, mem | mem⟩ := holds
  · by_cases same : j = i
    · subst same
      rw [front, List.mem_cons] at mem
      apply mem.imp_right
      exact fun mem => ⟨j, .inl (by simpa [Mail.pop, front] using mem)⟩
    · exact .inr ⟨j, .inl (by simpa [Mail.pop, Function.update_of_ne same] using mem)⟩
  · exact .inr ⟨j, .inr mem⟩

theorem Holds.pass {m' : μ} (holds : x.Holds m') : (x.pass i t).Holds m' := by
  obtain ⟨j, mem | mem⟩ := holds
  · by_cases same : j = t
    · subst same
      exact ⟨j, .inl (by simp [Mail.pass, mem])⟩
    · exact ⟨j, .inl (by simpa [Mail.pass, Function.update_of_ne same] using mem)⟩
  · by_cases same : j = i
    · subst same
      exact ⟨t, .inl (by simp [Mail.pass, mem])⟩
    · exact ⟨j, .inr (by simpa [Mail.pass, Function.update_of_ne same] using mem)⟩

end Mail

end GhettoRedis.Lib
