import Mathlib.Data.List.Basic

/-!
# Labelled machines and their runs

A machine takes an action in a state and, when the action is enabled there,
yields the next state together with the observations it makes on the way. A run
collects the observations in order. Every invariant of a run is proved through
`Run.invariant`: it holds at the start and one step carries it on.
-/
namespace GhettoRedis.Lib

variable {σ α ε : Type}

/-- A step function whose steps also report what can be observed of them. -/
structure Machine (σ α ε : Type) where
  step : σ → α → Option (σ × List ε)

namespace Machine

/-- The runs of a machine from `start` in which every step meets `ok`, with the
state reached and everything observed so far. -/
inductive Run (m : Machine σ α ε) (ok : σ → α → Prop) (start : σ) : σ → List ε → Prop
  | refl : Run m ok start start []
  | step {s s' : σ} {trace seen : List ε} {a : α} :
      Run m ok start s trace → ok s a → m.step s a = some (s', seen) →
      Run m ok start s' (trace ++ seen)

/-- Runs without any condition on their steps. -/
abbrev Reaches (m : Machine σ α ε) (start s : σ) (trace : List ε) : Prop :=
  Run m (fun _ _ => True) start s trace

/-- Execute a list of actions; `none` as soon as one of them is not enabled. -/
def exec (m : Machine σ α ε) : σ → List α → Option (σ × List ε)
  | s, [] => some (s, [])
  | s, a :: as =>
    match m.step s a with
    | none => none
    | some (s', seen) =>
      match exec m s' as with
      | none => none
      | some (last, rest) => some (last, seen ++ rest)

/-- The induction over runs, packaged once. The step case may use every invariant
already proved of the run before the step. -/
theorem Run.invariant {m : Machine σ α ε} {ok : σ → α → Prop} {start : σ}
    (inv : σ → List ε → Prop) (initial : inv start [])
    (preserved : ∀ s trace a s' seen, Run m ok start s trace → inv s trace → ok s a →
      m.step s a = some (s', seen) → inv s' (trace ++ seen))
    {s : σ} {trace : List ε} (run : Run m ok start s trace) : inv s trace := by
  induction run with
  | refl => exact initial
  | step before allowed taken ih => exact preserved _ _ _ _ _ before ih allowed taken

/-- When a step shows only what meets `good` if and only if it meets `ok`, so does a run. -/
theorem Run.forall_iff {m : Machine σ α ε} {ok : σ → α → Prop} {good : ε → Prop} {start : σ}
    (exact : ∀ s a s' seen, m.step s a = some (s', seen) → ((∀ e ∈ seen, good e) ↔ ok s a))
    {s : σ} {trace : List ε} (run : m.Reaches start s trace) :
    (∀ e ∈ trace, good e) ↔ Run m ok start s trace := by
  constructor
  · intro all
    induction run with
    | refl => exact .refl
    | @step s s' _ _ a _ _ taken ih =>
      rw [List.forall_mem_append] at all
      exact (ih all.1).step ((exact s a s' _ taken).mp all.2) taken
  · intro allowed
    refine allowed.invariant (fun _ trace => ∀ e ∈ trace, good e) (by simp) ?_
    intro s trace a s' seen _ before ok taken
    rw [List.forall_mem_append]
    exact ⟨before, (exact s a s' seen taken).mpr ok⟩

/-- One run goes on where another ends. -/
theorem Run.trans {m : Machine σ α ε} {ok : σ → α → Prop} {start s t : σ} {trace rest : List ε}
    (run : Run m ok start s trace) (further : Run m ok s t rest) :
    Run m ok start t (trace ++ rest) := by
  induction further with
  | refl => rwa [List.append_nil]
  | step _ allowed taken ih =>
    rw [← List.append_assoc]
    exact ih.step allowed taken

/-- Executing actions extends a run. -/
theorem Run.exec {m : Machine σ α ε} {start : σ} (as : List α) {s last : σ}
    {trace rest : List ε} (run : m.Reaches start s trace)
    (done : m.exec s as = some (last, rest)) : m.Reaches start last (trace ++ rest) := by
  induction as generalizing s trace rest with
  | nil =>
    simp only [Machine.exec, Option.some.injEq, Prod.mk.injEq] at done
    obtain ⟨rfl, rfl⟩ := done
    simpa using run
  | cons a as ih =>
    simp only [Machine.exec] at done
    cases taken : m.step s a with
    | none => simp [taken] at done
    | some next =>
      obtain ⟨s', seen⟩ := next
      cases remaining : m.exec s' as with
      | none => simp [taken, remaining] at done
      | some result =>
        obtain ⟨final, tail⟩ := result
        simp only [taken, remaining, Option.some.injEq, Prod.mk.injEq] at done
        obtain ⟨rfl, rfl⟩ := done
        have extended := ih (run.step trivial taken) remaining
        simpa only [List.append_assoc] using extended

theorem reaches_of_exec {m : Machine σ α ε} {start last : σ} {trace : List ε} (as : List α)
    (done : m.exec start as = some (last, trace)) : m.Reaches start last trace := by
  simpa using Run.exec as (.refl : m.Reaches start start []) done

theorem exists_of_exec {β : Type} (m : Machine σ α ε) (start : σ) (as : List α)
    (f : σ × List ε → β) {b : β} (done : (m.exec start as).map f = some b) :
    ∃ s trace, m.Reaches start s trace ∧ f (s, trace) = b := by
  obtain ⟨⟨s, trace⟩, taken, is⟩ := Option.map_eq_some_iff.mp done
  exact ⟨s, trace, reaches_of_exec as taken, is⟩

/-- The same machine, observed in another way. -/
def observe {ω : Type} (m : Machine σ α ε) (look : σ → α → List ω) : Machine σ α ω where
  step s a := (m.step s a).map fun next => (next.1, look s a)

theorem step_of_observe {ω : Type} {m : Machine σ α ε} {look : σ → α → List ω} {s s' : σ} {a : α}
    {seen : List ω} (taken : (m.observe look).step s a = some (s', seen)) :
    seen = look s a ∧ ∃ events, m.step s a = some (s', events) := by
  obtain ⟨⟨next, events⟩, before, is⟩ := Option.map_eq_some_iff.mp taken
  cases is
  exact ⟨rfl, events, before⟩

/-- The machine that takes only the steps that meet `ok`. -/
def restrict (m : Machine σ α ε) (ok : σ → α → Prop) [∀ s a, Decidable (ok s a)] :
    Machine σ α ε where
  step s a := if ok s a then m.step s a else none

theorem run_of_restrict {m : Machine σ α ε} {ok : σ → α → Prop} [∀ s a, Decidable (ok s a)]
    {start s : σ} {trace : List ε} (run : (m.restrict ok).Reaches start s trace) :
    m.Run ok start s trace := by
  induction run with
  | refl => exact .refl
  | @step s _ _ _ a _ _ taken ih =>
    simp only [restrict] at taken
    split at taken
    next allowed => exact .step ih allowed taken
    next => cases taken

theorem exists_run_of_exec {β : Type} (m : Machine σ α ε) (ok : σ → α → Prop)
    [∀ s a, Decidable (ok s a)] (start : σ) (as : List α) (f : σ × List ε → β) {b : β}
    (done : ((m.restrict ok).exec start as).map f = some b) :
    ∃ s trace, m.Run ok start s trace ∧ f (s, trace) = b := by
  obtain ⟨s, trace, run, is⟩ := exists_of_exec (m.restrict ok) start as f done
  exact ⟨s, trace, run_of_restrict run, is⟩

end Machine

end GhettoRedis.Lib
