import GhettoRedis.Lib.Machine

/-!
# Specifications and simulations

A specification says which observation leads from one abstract state to which other one. A machine
whose steps it accounts for, along a relation between the states, is observed as the specification
says in all of its runs.
-/
namespace GhettoRedis.Lib

variable {σ τ α ε : Type} {spec : τ → ε → τ → Prop} {t t' t'' : τ} {e : ε} {trace rest : List ε}

/-- The observations lead from one state of the specification to another. -/
inductive Follows (spec : τ → ε → τ → Prop) (start : τ) : List ε → τ → Prop
  | nil : Follows spec start [] start
  | snoc {trace : List ε} {e : ε} {t t' : τ} :
      Follows spec start trace t → spec t e t' → Follows spec start (trace ++ [e]) t'

theorem Follows.one (does : spec t e t') : Follows spec t [e] t' := Follows.nil.snoc does

theorem Follows.append (before : Follows spec t trace t') (behind : Follows spec t' rest t'') :
    Follows spec t (trace ++ rest) t'' := by
  induction behind with
  | nil => rwa [List.append_nil]
  | snoc _ does ih =>
    rw [← List.append_assoc]
    exact ih.snoc does

/-- What holds at the start and is kept by the specification holds after every trace. -/
theorem Follows.invariant (inv : τ → Prop) (follows : Follows spec t trace t') (initial : inv t)
    (preserved : ∀ t e t', inv t → spec t e t' → inv t') : inv t' := by
  induction follows with
  | nil => exact initial
  | snoc _ does ih => exact preserved _ _ _ ih does

/-- Every step of the machine that meets `ok` is accounted for. -/
def Simulates (m : Machine σ α ε) (ok : σ → α → Prop) (spec : τ → ε → τ → Prop)
    (rel : σ → τ → Prop) : Prop :=
  ∀ s t a s' seen, rel s t → ok s a → m.step s a = some (s', seen) →
    ∃ t', Follows spec t seen t' ∧ rel s' t'

theorem Simulates.run {m : Machine σ α ε} {ok : σ → α → Prop} {rel : σ → τ → Prop} {start s : σ}
    (simulates : Simulates m ok spec rel) (initial : rel start t) (run : m.Run ok start s trace) :
    ∃ t', Follows spec t trace t' ∧ rel s t' := by
  refine Machine.Run.invariant (fun s trace => ∃ t', Follows spec t trace t' ∧ rel s t')
    ⟨t, .nil, initial⟩ ?_ run
  rintro s trace a s' seen - ⟨t', follows, related⟩ allowed taken
  obtain ⟨t'', goesOn, related'⟩ := simulates s t' a s' seen related allowed taken
  exact ⟨t'', follows.append goesOn, related'⟩

end GhettoRedis.Lib
