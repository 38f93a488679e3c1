import Mathlib.Data.List.Nodup

/-!
# Linearization

Operations on a sequential object are called and return while others are under way. A
history is linearizable when its operations can be put into an order in which the object
gives their results one after the other, and which keeps operations apart that do not
overlap. An operation that takes effect at one point between its call and its return can
be put there.
-/
namespace GhettoRedis.Lib

variable {ι ω ρ σ κ : Type}

/-- What happens to an operation. -/
inductive Mark (ι ω ρ : Type) where
  | call (id : ι) (op : ω)
  | effect (id : ι) (op : ω) (result : ρ)
  | ret (id : ι) (result : ρ)

structure Operation (ι ω ρ : Type) where
  id : ι
  op : ω
  result : ρ

/-! ### Sequential objects -/

/-- The object gives these results to these operations, one after the other. -/
def Legal (spec : σ → ω → σ × ρ) : σ → List (Operation ι ω ρ) → Prop
  | _, [] => True
  | s, o :: rest => (spec s o.op).2 = o.result ∧ Legal spec (spec s o.op).1 rest

/-- Its state behind them. -/
def final (spec : σ → ω → σ × ρ) (s : σ) (order : List (Operation ι ω ρ)) : σ :=
  order.foldl (fun s o => (spec s o.op).1) s

variable {spec : σ → ω → σ × ρ} {s : σ}

theorem final_concat (order : List (Operation ι ω ρ)) (o : Operation ι ω ρ) :
    final spec s (order ++ [o]) = (spec (final spec s order) o.op).1 := by
  simp [final]

theorem Legal.concat {order : List (Operation ι ω ρ)} {o : Operation ι ω ρ}
    (legal : Legal spec s order) (result : (spec (final spec s order) o.op).2 = o.result) :
    Legal spec s (order ++ [o]) := by
  induction order generalizing s with
  | nil => exact ⟨result, trivial⟩
  | cons first rest ih => exact ⟨legal.1, ih legal.2 result⟩

/-! ### Histories -/

/-- `order` is a linearization of the calls and returns in a history; `client` tells who has
called an operation. -/
structure Linearizes (spec : σ → ω → σ × ρ) (s : σ) (client : ι → κ)
    (history : List (Mark ι ω ρ)) (order : List (Operation ι ω ρ)) : Prop where
  legal : Legal spec s order
  once : (order.map Operation.id).Nodup
  called : ∀ o ∈ order, .call o.id o.op ∈ history
  returned : ∀ id result, .ret id result ∈ history → ∃ o ∈ order, o.id = id ∧ o.result = result
  /-- An operation that returns before another one is called comes before it. -/
  realTime : ∀ id result id' op', [.ret id result, .call id' op'].Sublist history →
    id' ∈ order.map Operation.id → [id, id'].Sublist (order.map Operation.id)
  /-- The operations of one client come in the order in which it has called them. -/
  programOrder : ∀ id op id' op', client id = client id' →
    [.call id op, .call id' op'].Sublist history → id' ∈ order.map Operation.id →
      [id, id'].Sublist (order.map Operation.id)

/-! ### Points -/

/-- The operations that have been called. -/
def calls (marks : List (Mark ι ω ρ)) : List (ι × ω) :=
  marks.filterMap fun
    | .call id op => some (id, op)
    | _ => none

/-- The operations that have taken effect. -/
def effects (marks : List (Mark ι ω ρ)) : List (Operation ι ω ρ) :=
  marks.filterMap fun
    | .effect id op result => some ⟨id, op, result⟩
    | _ => none

/-- Every operation takes effect once, between its call and its return and behind those that
its client has called before. -/
inductive Pointed (client : ι → κ) : List (Mark ι ω ρ) → Prop
  | nil : Pointed client []
  | call {marks : List (Mark ι ω ρ)} {id : ι} {op : ω} : Pointed client marks →
      (∀ op', .call id op' ∉ marks) → Pointed client (marks ++ [.call id op])
  | effect {marks : List (Mark ι ω ρ)} {id : ι} {op : ω} {result : ρ} : Pointed client marks →
      .call id op ∈ marks → (∀ o ∈ effects marks, o.id ≠ id) →
      (∀ id' op' op'', client id' = client id → [.call id' op', .call id op''].Sublist marks →
        id' ∈ (effects marks).map Operation.id) →
      Pointed client (marks ++ [.effect id op result])
  | ret {marks : List (Mark ι ω ρ)} {id : ι} {op : ω} {result : ρ} : Pointed client marks →
      .effect id op result ∈ marks → Pointed client (marks ++ [.ret id result])

theorem effects_append (marks marks' : List (Mark ι ω ρ)) :
    effects (marks ++ marks') = effects marks ++ effects marks' := List.filterMap_append

theorem calls_append (marks marks' : List (Mark ι ω ρ)) :
    calls (marks ++ marks') = calls marks ++ calls marks' := List.filterMap_append

theorem mem_calls {marks : List (Mark ι ω ρ)} {o : ι × ω} :
    o ∈ calls marks ↔ .call o.1 o.2 ∈ marks := by
  rw [calls, List.mem_filterMap]
  constructor
  · rintro ⟨m, mem, is⟩
    cases m with
    | call id op =>
      cases is
      exact mem
    | effect | ret => cases is
  · exact fun mem => ⟨_, mem, rfl⟩

theorem mem_effects {marks : List (Mark ι ω ρ)} {o : Operation ι ω ρ} :
    o ∈ effects marks ↔ .effect o.id o.op o.result ∈ marks := by
  rw [effects, List.mem_filterMap]
  constructor
  · rintro ⟨m, mem, is⟩
    cases m with
    | effect id op result =>
      cases is
      exact mem
    | call | ret => cases is
  · exact fun mem => ⟨_, mem, rfl⟩

/-- A pair in a list with one more entry is in the list, or ends with that entry. -/
theorem sublist_concat {α : Type} {a b x : α} {list : List α}
    (sub : [a, b].Sublist (list ++ [x])) : [a, b].Sublist list ∨ b = x ∧ a ∈ list := by
  obtain ⟨first, last, is, inside, atEnd⟩ := List.sublist_append_iff.mp sub
  rcases List.sublist_singleton.mp atEnd with rfl | rfl
  · rw [List.append_nil] at is
    exact .inl (is ▸ inside)
  · have is : [a] ++ [b] = first ++ [x] := is
    obtain ⟨rfl, last⟩ := List.append_inj' is rfl
    cases last
    exact .inr ⟨rfl, List.singleton_sublist.mp inside⟩

theorem pair_sublist_concat {α : Type} {a b : α} {list : List α} (mem : a ∈ list) :
    [a, b].Sublist (list ++ [b]) :=
  (List.singleton_sublist.mpr mem).append (List.Sublist.refl [b])

namespace Pointed

variable {client : ι → κ} {marks : List (Mark ι ω ρ)} {id : ι}

/-- Only what was called takes effect. -/
theorem called (pointed : Pointed client marks) :
    ∀ o ∈ effects marks, .call o.id o.op ∈ marks := by
  induction pointed with
  | nil => simp [effects]
  | call _ _ ih | ret _ _ ih =>
    intro o mem
    rw [effects_append] at mem
    exact List.mem_append_left _ (ih o (by simpa [effects] using mem))
  | effect _ called _ _ ih =>
    intro o mem
    rw [effects_append] at mem
    rcases List.mem_append.mp mem with old | new
    · exact List.mem_append_left _ (ih o old)
    · obtain rfl := List.mem_singleton.mp new
      exact List.mem_append_left _ called

theorem once (pointed : Pointed client marks) : ((effects marks).map Operation.id).Nodup := by
  induction pointed with
  | nil => simp [effects]
  | call _ _ ih | ret _ _ ih =>
    rw [effects_append]
    simpa [effects] using ih
  | @effect marks id op result _ _ fresh _ ih =>
    rw [effects_append, List.map_append, List.nodup_append]
    refine ⟨ih, List.nodup_singleton _, ?_⟩
    rintro a old b new rfl
    obtain ⟨o, mem, is⟩ := List.mem_map.mp old
    exact fresh o mem (is.trans (List.mem_singleton.mp new))

theorem returned (pointed : Pointed client marks) (id : ι) (result : ρ)
    (mem : .ret id result ∈ marks) : ∃ o ∈ effects marks, o.id = id ∧ o.result = result := by
  have extend {marks' : List (Mark ι ω ρ)} {m : Mark ι ω ρ}
      (before : ∃ o ∈ effects marks', o.id = id ∧ o.result = result) :
      ∃ o ∈ effects (marks' ++ [m]), o.id = id ∧ o.result = result := by
    obtain ⟨o, there, is⟩ := before
    exact ⟨o, by rw [effects_append]; exact List.mem_append_left _ there, is⟩
  induction pointed with
  | nil => cases mem
  | call _ _ ih | effect _ _ _ _ ih => exact extend (ih (by simpa using mem))
  | @ret marks id' op result' _ effect ih =>
    rcases List.mem_append.mp mem with old | new
    · exact extend (ih old)
    · cases List.mem_singleton.mp new
      exact extend ⟨⟨id, op, result⟩, mem_effects.mpr effect, rfl, rfl⟩

/-- The operations of one client that were called before this one have taken effect. -/
def InOrder (client : ι → κ) (marks : List (Mark ι ω ρ)) (id : ι) : Prop :=
  ∀ id' op' op'', client id' = client id → [.call id' op', .call id op''].Sublist marks →
    id' ∈ (effects marks).map Operation.id

/-- When `id` has taken effect before `id'` does, whenever `m` comes before the call of `id'`, the
two are in this order. -/
theorem ordered (pointed : Pointed client marks) {m : Mark ι ω ρ} {id' : ι} {op' : ω}
    (earlier : ∀ marks : List (Mark ι ω ρ), Pointed client marks → InOrder client marks id' →
      [m, .call id' op'].Sublist marks → id ∈ (effects marks).map Operation.id)
    (sub : [m, .call id' op'].Sublist marks) (mem : id' ∈ (effects marks).map Operation.id) :
    [id, id'].Sublist ((effects marks).map Operation.id) := by
  induction pointed with
  | nil => cases sub
  | @call marks id'' op pointed new ih =>
    rw [effects_append] at mem ⊢
    have before : id' ∈ (effects marks).map Operation.id := by simpa [effects] using mem
    rcases sublist_concat sub with inside | ⟨is, -⟩
    · simpa [effects] using ih inside before
    · -- what is called now has not taken effect before
      cases is
      obtain ⟨o, there, rfl⟩ := List.mem_map.mp before
      exact absurd (pointed.called o there) (new o.op)
  | @effect marks id'' op result pointed called fresh inOrder ih =>
    rcases sublist_concat sub with inside | ⟨is, -⟩
    · rw [effects_append, List.map_append] at mem ⊢
      rcases List.mem_append.mp mem with old | new
      · exact (ih inside old).trans (List.sublist_append_left _ _)
      · -- the last effect is that of `id'`: that of `id` was before
        obtain rfl : id' = id'' := List.mem_singleton.mp new
        exact pair_sublist_concat (earlier marks pointed inOrder inside)
    · cases is
  | @ret marks id'' op result pointed effect ih =>
    rw [effects_append] at mem ⊢
    rcases sublist_concat sub with inside | ⟨is, -⟩
    · simpa [effects] using ih inside (by simpa [effects] using mem)
    · cases is

theorem realTime (pointed : Pointed client marks) (id : ι) (result : ρ) (id' : ι) (op' : ω)
    (sub : [.ret id result, .call id' op'].Sublist marks)
    (mem : id' ∈ (effects marks).map Operation.id) :
    [id, id'].Sublist ((effects marks).map Operation.id) := by
  refine pointed.ordered (fun marks' pointed _ inside => ?_) sub mem
  obtain ⟨o, effected, rfl, -⟩ :=
    pointed.returned id result (inside.subset List.mem_cons_self)
  exact List.mem_map_of_mem effected

theorem programOrder (pointed : Pointed client marks) (id : ι) (op : ω) (id' : ι) (op' : ω)
    (same : client id = client id') (sub : [.call id op, .call id' op'].Sublist marks)
    (mem : id' ∈ (effects marks).map Operation.id) :
    [id, id'].Sublist ((effects marks).map Operation.id) :=
  pointed.ordered (fun _ _ inOrder inside => inOrder id op op' same inside) sub mem

/-- The points are a linearization. -/
theorem linearizes (pointed : Pointed client marks) (legal : Legal spec s (effects marks)) :
    Linearizes spec s client marks (effects marks) :=
  ⟨legal, pointed.once, pointed.called, pointed.returned, pointed.realTime, pointed.programOrder⟩

theorem calls_once (pointed : Pointed client marks) : ((calls marks).map Prod.fst).Nodup := by
  induction pointed with
  | nil => simp [calls]
  | effect _ _ _ _ ih | ret _ _ ih =>
    rw [calls_append]
    simpa [calls] using ih
  | @call marks id op _ fresh ih =>
    rw [calls_append, List.map_append, List.nodup_append]
    refine ⟨ih, List.nodup_singleton _, ?_⟩
    rintro a old b new rfl
    obtain ⟨o, mem, is⟩ := List.mem_map.mp old
    obtain rfl : o.1 = id := is.trans (List.mem_singleton.mp new)
    exact fresh o.2 (mem_calls.mp mem)

end Pointed

/-! ### Clients -/

section Clients

variable [DecidableEq κ] (client : ι → κ) (k : κ)

/-- The operations of one client. -/
def ofClient (ops : List (ι × ω)) : List (ι × ω) := ops.filter fun o => client o.1 = k

theorem ofClient_append (ops ops' : List (ι × ω)) :
    ofClient client k (ops ++ ops') = ofClient client k ops ++ ofClient client k ops' :=
  List.filter_append ..

/-- Client `k` has called `rest` behind its operations that have taken effect. -/
def Outstanding (marks : List (Mark ι ω ρ)) (rest : List (ι × ω)) : Prop :=
  ofClient client k (calls marks) =
    ofClient client k ((effects marks).map fun o => (o.id, o.op)) ++ rest

variable {client k} {marks : List (Mark ι ω ρ)} {rest : List (ι × ω)} {id : ι} {op : ω} {result : ρ}

theorem Outstanding.call (outstanding : Outstanding client k marks rest) (id : ι) (op : ω) :
    Outstanding client k (marks ++ [.call id op]) (rest ++ ofClient client k [(id, op)]) := by
  have called : calls (marks ++ [.call id op]) = calls marks ++ [(id, op)] := calls_append ..
  have done : effects (marks ++ [.call id op]) = effects marks := by simp [effects]
  rw [Outstanding, called, done, ofClient_append, outstanding, List.append_assoc]

theorem Outstanding.effect (outstanding : Outstanding client k marks (ofClient client k [(id, op)] ++ rest)) :
    Outstanding client k (marks ++ [.effect id op result]) rest := by
  have called : calls (marks ++ [.effect id op result]) = calls marks := by simp [calls]
  have done : effects (marks ++ [.effect id op result]) = effects marks ++ [⟨id, op, result⟩] :=
    effects_append ..
  rw [Outstanding, called, done, outstanding, List.map_append, ofClient_append, List.append_assoc]
  rfl

theorem Outstanding.ret (outstanding : Outstanding client k marks rest) :
    Outstanding client k (marks ++ [.ret id result]) rest := by
  have called : calls (marks ++ [.ret id result]) = calls marks := by simp [calls]
  have done : effects (marks ++ [.ret id result]) = effects marks := by simp [effects]
  rw [Outstanding, called, done, outstanding]

/-- In a list without repetitions, what comes before `b` comes before it. -/
theorem mem_of_pair_sublist {α : Type} {a b : α} {front back : List α}
    (nodup : (front ++ b :: back).Nodup) (sub : [a, b].Sublist (front ++ b :: back)) : a ∈ front := by
  obtain ⟨-, behind, -⟩ := List.nodup_append.mp nodup
  obtain ⟨first, last, is, inFront, inBack⟩ := List.sublist_append_iff.mp sub
  cases first with
  | nil =>
    -- both behind `front`: then `b` is in `back` once more
    obtain rfl : [a, b] = last := is
    have again : [b].Sublist back := inBack.of_cons_cons
    exact absurd (List.singleton_sublist.mp again) (List.nodup_cons.mp behind).1
  | cons x first =>
    obtain ⟨rfl, -⟩ := List.cons.inj is
    exact inFront.subset List.mem_cons_self

/-- The first operation that is outstanding can take effect. -/
theorem Pointed.next (pointed : Pointed client marks)
    (outstanding : Outstanding client (client id) marks ((id, op) :: rest)) :
    Pointed client (marks ++ [.effect id op result]) := by
  have mine : ofClient client (client id) (calls marks) =
    ofClient client (client id) ((effects marks).map fun o => (o.id, o.op)) ++ (id, op) :: rest :=
      outstanding
  -- an operation of this client that has taken effect
  have done {id' : ι} (mem : id' ∈ (ofClient client (client id)
      ((effects marks).map fun o => (o.id, o.op))).map Prod.fst) :
      id' ∈ (effects marks).map Operation.id := by
    obtain ⟨o, inside, rfl⟩ := List.mem_map.mp mem
    obtain ⟨o', there, rfl⟩ := List.mem_map.mp (List.mem_of_mem_filter inside)
    exact List.mem_map_of_mem there
  have nodup : (ofClient client (client id) (calls marks)).map Prod.fst |>.Nodup :=
    pointed.calls_once.sublist (List.filter_sublist.map _)
  rw [mine, List.map_append, List.map_cons] at nodup
  refine .effect pointed ?_ ?_ ?_
  · -- it was called
    have mem : (id, op) ∈ ofClient client (client id) (calls marks) := by
      rw [mine]
      exact List.mem_append_right _ List.mem_cons_self
    exact mem_calls.mp (List.mem_of_mem_filter mem)
  · -- it has not taken effect yet, as its id occurs once
    intro o mem same
    have before : id ∈ (ofClient client (client id)
        ((effects marks).map fun o => (o.id, o.op))).map Prod.fst := by
      refine List.mem_map.mpr ⟨(o.id, o.op), List.mem_filter.mpr ⟨List.mem_map_of_mem mem, ?_⟩, same⟩
      exact decide_eq_true (congrArg client same)
    exact (List.nodup_append.mp nodup).2.2 id before id List.mem_cons_self rfl
  · -- what the client called earlier has taken effect
    intro id' op' op'' same sub
    have both : (calls [.call id' op', .call id op'']).Sublist (calls marks) := sub.filterMap _
    have mineToo : [(id', op'), (id, op'')].Sublist (ofClient client (client id) (calls marks)) := by
      have filtered := both.filter fun o => client o.1 = client id
      have kept : [(id', op'), (id, op'')].filter (fun o => client o.1 = client id) =
          [(id', op'), (id, op'')] := by simp [same]
      exact kept ▸ filtered
    have ids := mineToo.map Prod.fst
    rw [mine, List.map_append, List.map_cons] at ids
    exact done (mem_of_pair_sublist nodup ids)

/-- When nothing is outstanding, as many operations have taken effect as have been called. -/
theorem Pointed.length_effects (pointed : Pointed client marks)
    (none : ∀ k, Outstanding client k marks []) : (effects marks).length = (calls marks).length := by
  have same : ((effects marks).map Operation.id).Perm ((calls marks).map Prod.fst) := by
    refine (List.perm_ext_iff_of_nodup pointed.once pointed.calls_once).mpr fun id => ?_
    constructor
    · intro mem
      obtain ⟨o, there, rfl⟩ := List.mem_map.mp mem
      exact List.mem_map.mpr ⟨(o.id, o.op), mem_calls.mpr (pointed.called o there), rfl⟩
    · intro mem
      obtain ⟨o, there, rfl⟩ := List.mem_map.mp mem
      have mine : o ∈ ofClient client (client o.1) (calls marks) :=
        List.mem_filter.mpr ⟨there, decide_eq_true rfl⟩
      rw [none (client o.1), List.append_nil] at mine
      obtain ⟨o', effected, rfl⟩ := List.mem_map.mp (List.mem_of_mem_filter mine)
      exact List.mem_map_of_mem effected
  simpa using same.length_eq

end Clients

/-! ### Objects -/

/-- An object has come to `state` through operations that took effect at their points. -/
structure Tracks (spec : σ → ω → σ × ρ) (s : σ) (client : ι → κ) (marks : List (Mark ι ω ρ))
    (state : σ) : Prop where
  pointed : Pointed client marks
  legal : Legal spec s (effects marks)
  state : state = final spec s (effects marks)

namespace Tracks

variable {client : ι → κ} {marks : List (Mark ι ω ρ)} {state : σ} {id : ι} {op : ω} {result : ρ}

theorem nil (spec : σ → ω → σ × ρ) (s : σ) (client : ι → κ) : Tracks spec s client [] s :=
  ⟨.nil, trivial, rfl⟩

theorem call (tracks : Tracks spec s client marks state) (fresh : ∀ op', .call id op' ∉ marks) :
    Tracks spec s client (marks ++ [.call id op]) state := by
  have same : effects (marks ++ [.call id op]) = effects marks := by simp [effects]
  exact ⟨.call tracks.pointed fresh, same ▸ tracks.legal, same ▸ tracks.state⟩

theorem ret (tracks : Tracks spec s client marks state) (effect : .effect id op result ∈ marks) :
    Tracks spec s client (marks ++ [.ret id result]) state := by
  have same : effects (marks ++ [.ret id result]) = effects marks := by simp [effects]
  exact ⟨.ret tracks.pointed effect, same ▸ tracks.legal, same ▸ tracks.state⟩

theorem effect [DecidableEq κ] {rest : List (ι × ω)} {state' : σ}
    (tracks : Tracks spec s client marks state)
    (outstanding : Outstanding client (client id) marks ((id, op) :: rest))
    (does : (state', result) = spec state op) :
    Tracks spec s client (marks ++ [.effect id op result]) state' := by
  have more : effects (marks ++ [.effect id op result]) = effects marks ++ [⟨id, op, result⟩] :=
    effects_append ..
  obtain ⟨state'_eq, result_eq⟩ := Prod.mk.inj does
  refine ⟨tracks.pointed.next outstanding, ?_, ?_⟩
  · rw [more]
    exact tracks.legal.concat (by rw [← tracks.state, result_eq])
  · rw [more, final_concat, ← tracks.state, state'_eq]

end Tracks

end GhettoRedis.Lib
