import Mathlib.Data.List.Basic

/-!
# Runs

The maximal runs of the elements of a list that are no separators. `runsFrom` finds them in
one pass that carries the run it is in; `mem_runs` says which ones it finds.
-/
namespace GhettoRedis.Lib

/-- `len` elements from index `first` on. -/
structure Run where
  first : ℕ
  len : ℕ
  deriving DecidableEq

namespace Run

variable {α : Type}

/-- The elements of a run. -/
def of (l : List α) (r : Run) : List α := (l.drop r.first).take r.len

/-- Not empty, without separators, and with one on either side, or the end of the list. -/
structure Maximal (sep : α → Prop) (l : List α) (r : Run) : Prop where
  nonempty : 0 < r.len
  inside : r.first + r.len ≤ l.length
  plain : ∀ j x, r.first ≤ j → j < r.first + r.len → l[j]? = some x → ¬ sep x
  before : ∀ j x, j + 1 = r.first → l[j]? = some x → sep x
  behind : ∀ x, l[r.first + r.len]? = some x → sep x

end Run

section Runs

variable {α : Type} (sep : α → Prop) [DecidablePred sep]

/-- The runs of a list whose first element has index `i`; the one that started at `opened` has
not ended before. -/
def runsFrom : (i : ℕ) → (opened : Option ℕ) → List α → List Run
  | _, none, [] => []
  | i, some o, [] => [⟨o, i - o⟩]
  | i, none, x :: l => if sep x then runsFrom (i + 1) none l else runsFrom (i + 1) (some i) l
  | i, some o, x :: l =>
    if sep x then ⟨o, i - o⟩ :: runsFrom (i + 1) none l else runsFrom (i + 1) (some o) l

def runs (l : List α) : List Run := runsFrom sep 0 none l

/-- What stands between the separators. -/
def words (l : List α) : List (List α) := (runs sep l).map (Run.of l)

variable {sep} {l : List α} {x : α}

theorem runsFrom_cons_sep (isSep : sep x) (l : List α) (i : ℕ) (opened : Option ℕ) :
    runsFrom sep i opened (x :: l) = runsFrom sep i opened [] ++ runsFrom sep (i + 1) none l := by
  cases opened <;> simp [runsFrom, isSep]

theorem runsFrom_cons_plain (plain : ¬ sep x) (l : List α) (i : ℕ) (opened : Option ℕ) :
    runsFrom sep i opened (x :: l) = runsFrom sep (i + 1) (some (opened.getD i)) l := by
  cases opened <;> simp [runsFrom, plain]

/-- A run that was started is found. -/
theorem runsFrom_some_pos (l : List α) (i o : ℕ) : 0 < (runsFrom sep i (some o) l).length := by
  induction l generalizing i with
  | nil => simp [runsFrom]
  | cons y l ih =>
    rw [runsFrom]
    split
    · simp
    · exact ih (i + 1)

/-- A separator at the end starts no run. -/
theorem runsFrom_concat (isSep : sep x) (l : List α) (i : ℕ) (opened : Option ℕ) :
    runsFrom sep i opened (l ++ [x]) = runsFrom sep i opened l := by
  induction l generalizing i opened with
  | nil => cases opened <;> simp [runsFrom, isSep]
  | cons y l ih =>
    cases opened with
    | none => simp only [List.cons_append, runsFrom, ih]
    | some o => simp only [List.cons_append, runsFrom, ih]

/-- More elements do not make fewer runs. -/
theorem runsFrom_length_le_append (l more : List α) (i : ℕ) (opened : Option ℕ) :
    (runsFrom sep i opened l).length ≤ (runsFrom sep i opened (l ++ more)).length := by
  induction l generalizing i opened with
  | nil =>
    cases opened with
    | none => simp [runsFrom]
    | some o =>
      simp only [runsFrom, List.length_singleton, List.nil_append]
      exact runsFrom_some_pos more i o
  | cons y l ih =>
    by_cases isSep : sep y
    · rw [List.cons_append, runsFrom_cons_sep isSep, runsFrom_cons_sep isSep, List.length_append,
        List.length_append]
      exact Nat.add_le_add_left (ih (i + 1) none) _
    · rw [List.cons_append, runsFrom_cons_plain isSep, runsFrom_cons_plain isSep]
      exact ih (i + 1) _

theorem runsFrom_congr {sep' : α → Prop} [DecidablePred sep'] (same : ∀ x ∈ l, sep x ↔ sep' x)
    (i : ℕ) (opened : Option ℕ) : runsFrom sep i opened l = runsFrom sep' i opened l := by
  induction l generalizing i opened with
  | nil => cases opened <;> rfl
  | cons y l ih =>
    have rest := ih fun x mem => same x (List.mem_cons_of_mem _ mem)
    have here := same y List.mem_cons_self
    cases opened with
    | none => simp only [runsFrom, rest, here]
    | some o => simp only [runsFrom, rest, here]

/-! ### Which runs are found -/

/-- What the pass knows of the elements before index `i`. -/
def Sound (sep : α → Prop) (l : List α) (i : ℕ) : Option ℕ → Prop
  | none => ∀ j x, j + 1 = i → l[j]? = some x → sep x
  | some o => o < i ∧ (∀ j x, o ≤ j → j < i → l[j]? = some x → ¬ sep x) ∧
    ∀ j x, j + 1 = o → l[j]? = some x → sep x

/-- Where the runs still to be found start. -/
def horizon (i : ℕ) : Option ℕ → ℕ
  | none => i
  | some o => o

omit [DecidablePred sep] in
/-- The run that the pass is in is the only one that starts in it. -/
theorem eq_of_sound {i o : ℕ} {r : Run} (sound : Sound sep l i (some o)) (ends : ∀ x, l[i]? = some x → sep x)
    (le : i ≤ l.length) (maximal : r.Maximal sep l) (from_o : o ≤ r.first) (before : r.first < i) :
    r = ⟨o, i - o⟩ := by
  obtain ⟨lt, plain, -⟩ := sound
  -- a run that began later would have no separator before it
  have at_o : r.first = o := by
    by_contra other
    obtain ⟨j, is⟩ : ∃ j, j + 1 = r.first := ⟨r.first - 1, by omega⟩
    have found : l[j]? = some (l.get ⟨j, by omega⟩) := List.getElem?_eq_getElem _
    exact plain j _ (by omega) (by omega) found (maximal.before j _ is found)
  -- it does not end before `i`, and `i` is no part of it
  have len : r.len = i - o := by
    rcases Nat.lt_trichotomy r.len (i - o) with short | same | long
    · have found : l[r.first + r.len]? = some (l.get ⟨r.first + r.len, by omega⟩) :=
        List.getElem?_eq_getElem _
      exact absurd (maximal.behind _ found) (plain _ _ (by omega) (by omega) found)
    · exact same
    · have inside := maximal.inside
      have found : l[i]? = some (l.get ⟨i, by omega⟩) := List.getElem?_eq_getElem _
      exact absurd (ends _ found) (maximal.plain i _ (by omega) (by omega) found)
  cases r
  simp_all

omit [DecidablePred sep] in
theorem maximal_of_sound {i o : ℕ} (sound : Sound sep l i (some o)) (le : i ≤ l.length)
    (ends : ∀ x, l[i]? = some x → sep x) : (⟨o, i - o⟩ : Run).Maximal sep l := by
  obtain ⟨lt, plain, before⟩ := sound
  have last : o + (i - o) = i := by omega
  refine ⟨?_, ?_, ?_, before, ?_⟩
  · exact Nat.sub_pos_of_lt lt
  · simpa only [last] using le
  · simpa only [last] using plain
  · simpa only [last] using ends

/-- The pass finds the maximal runs that start behind its horizon. -/
theorem mem_runsFrom {l rest : List α} {i : ℕ} {opened : Option ℕ} {r : Run}
    (whole : l.drop i = rest) (le : i ≤ l.length) (sound : Sound sep l i opened) :
    r ∈ runsFrom sep i opened rest ↔ r.Maximal sep l ∧ horizon i opened ≤ r.first := by
  induction rest generalizing i opened with
  | nil =>
    have ended : l.length ≤ i := List.drop_eq_nil_iff.mp whole
    cases opened with
    | none =>
      simp only [runsFrom, List.not_mem_nil, horizon, false_iff, not_and]
      intro maximal
      have := maximal.inside
      have := maximal.nonempty
      omega
    | some o =>
      have ends : ∀ x, l[i]? = some x → sep x := by simp [ended]
      simp only [runsFrom, List.mem_singleton, horizon]
      constructor
      · rintro rfl
        exact ⟨maximal_of_sound sound le ends, Nat.le_refl o⟩
      · rintro ⟨maximal, from_o⟩
        have := maximal.inside
        have := maximal.nonempty
        exact eq_of_sound sound ends le maximal from_o (by omega)
  | cons x rest ih =>
    have found : l[i]? = some x := by
      have front : (l.drop i)[0]? = some x := by rw [whole, List.getElem?_cons_zero]
      rwa [List.getElem?_drop, Nat.add_zero] at front
    have next : l.drop (i + 1) = rest := by
      rw [← List.drop_drop, whole, List.drop_succ_cons, List.drop_zero]
    have le' : i + 1 ≤ l.length := by
      have := List.getElem?_eq_some_iff.mp found
      obtain ⟨lt, -⟩ := this
      omega
    -- no run starts at a separator
    have notHere (isSep : sep x) {r : Run} (maximal : r.Maximal sep l) : r.first ≠ i := by
      intro same
      have := maximal.nonempty
      exact maximal.plain i x (by omega) (by omega) found isSep
    have closed (isSep : sep x) : Sound sep l (i + 1) none := by
      intro j y is other
      obtain rfl : j = i := by omega
      rw [found, Option.some.injEq] at other
      exact other ▸ isSep
    cases opened with
    | none =>
      rw [runsFrom]
      split
      -- a separator, and no run is open
      next isSep =>
        rw [ih next le' (closed isSep)]
        simp only [horizon]
        constructor
        · rintro ⟨maximal, behind⟩
          exact ⟨maximal, by omega⟩
        · rintro ⟨maximal, from_i⟩
          have := notHere isSep maximal
          exact ⟨maximal, by omega⟩
      -- a run begins here
      next notSep =>
        have opens : Sound sep l (i + 1) (some i) := by
          refine ⟨Nat.lt_succ_self i, ?_, sound⟩
          intro j y from_i before other
          obtain rfl : j = i := by omega
          rw [found, Option.some.injEq] at other
          exact other ▸ notSep
        exact ih next le' opens
    | some o =>
      rw [runsFrom]
      split
      -- the separator closes the run
      next isSep =>
        have ends : ∀ y, l[i]? = some y → sep y := by
          intro y other
          rw [found, Option.some.injEq] at other
          exact other ▸ isSep
        rw [List.mem_cons, ih next le' (closed isSep)]
        simp only [horizon]
        constructor
        · rintro (rfl | ⟨maximal, behind⟩)
          · exact ⟨maximal_of_sound sound le ends, Nat.le_refl o⟩
          · exact ⟨maximal, by have := sound.1; omega⟩
        · rintro ⟨maximal, from_o⟩
          by_cases before : r.first < i
          · exact .inl (eq_of_sound sound ends le maximal from_o before)
          · have := notHere isSep maximal
            exact .inr ⟨maximal, by omega⟩
      -- the run goes on
      next notSep =>
        obtain ⟨lt, plain, bounded⟩ := sound
        have goesOn : Sound sep l (i + 1) (some o) := by
          refine ⟨by omega, ?_, bounded⟩
          intro j y from_o before other
          by_cases here : j = i
          · subst here
            rw [found, Option.some.injEq] at other
            exact other ▸ notSep
          · exact plain j y from_o (by omega) other
        exact ih next le' goesOn

/-- The runs are the maximal ones. -/
theorem mem_runs {r : Run} : r ∈ runs sep l ↔ r.Maximal sep l := by
  have start : Sound sep l 0 none := by
    intro j x is
    omega
  rw [runs, mem_runsFrom List.drop_zero (Nat.zero_le _) start]
  simp [horizon]

end Runs

end GhettoRedis.Lib
