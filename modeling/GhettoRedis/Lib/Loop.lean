import Mathlib.Data.Nat.Notation

/-!
# Loops over calls

`while (call()) {}`: a call changes the state and says whether the loop goes on. A loop whose
measure shrinks with every call that goes on ends.
-/
namespace GhettoRedis.Lib.Loop

variable {σ : Type} (call : ℕ → σ → Bool × σ)

/-- The state before call `k`; `none` when the loop has ended by then. -/
def before (s : σ) : (k : ℕ) → Option σ
  | 0 => some s
  | k + 1 =>
    match before s k with
    | none => none
    | some t => if (call k t).1 then some (call k t).2 else none

def Ends (s : σ) : Prop := ∃ k, before call s k = none

/-- Every call that goes on shrinks the measure. -/
def Shrinks (measure : σ → ℕ) (s : σ) : Prop :=
  ∀ k t, before call s k = some t → (call k t).1 = true → measure (call k t).2 < measure t

variable {call} {measure : σ → ℕ} {s t : σ} {k : ℕ}

theorem before_succ (here : before call s k = some t) (more : (call k t).1 = true) :
    before call s (k + 1) = some (call k t).2 := by
  rw [before, here]
  exact if_pos more

theorem before_succ_none (here : before call s k = some t) (done : (call k t).1 = false) :
    before call s (k + 1) = none := by
  rw [before, here]
  simp [done]

/-- By induction on the measure, the loop ends within that many calls and one more. -/
theorem ends_of_shrinks (shrinks : Shrinks call measure s) : Ends call s := by
  have within (m : ℕ) : ∀ k t, before call s k = some t → measure t ≤ m → Ends call s := by
    induction m with
    | zero =>
      intro k t here small
      cases more : (call k t).1 with
      | false => exact ⟨k + 1, before_succ_none here more⟩
      | true =>
        have := shrinks k t here more
        omega
    | succ m ih =>
      intro k t here small
      cases more : (call k t).1 with
      | false => exact ⟨k + 1, before_succ_none here more⟩
      | true =>
        have := shrinks k t here more
        exact ih (k + 1) _ (before_succ here more) (by omega)
  exact within (measure s) 0 s rfl (Nat.le_refl _)

end GhettoRedis.Lib.Loop
