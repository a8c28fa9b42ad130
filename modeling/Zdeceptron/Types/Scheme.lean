import Zdeceptron.Types.Assigned

/-!
# Schemes and their instances

A scheme is a type with the variables it is polymorphic in.  An instance has a fresh variable
for each of them, except under a pair.
-/

namespace Zdeceptron
namespace Types

open Library

namespace Ty

section Outside

mutual

def substOutside (σ : Nat → Ty) : Ty → Ty
  | list inner => list (inner.substOutside σ)
  | option inner => option (inner.substOutside σ)
  | remote inner => remote (inner.substOutside σ)
  | map key value => map (key.substOutside σ) (value.substOutside σ)
  | function params result => function (substOutsideAll σ params) (result.substOutside σ)
  | var id => σ id
  | t => t

def substOutsideAll (σ : Nat → Ty) : List Ty → List Ty
  | [] => []
  | t :: ts => t.substOutside σ :: substOutsideAll σ ts

end

mutual

def pairVars : Ty → List Nat
  | list inner => inner.pairVars
  | option inner => inner.pairVars
  | remote inner => inner.pairVars
  | map key value => key.pairVars ++ value.pairVars
  | pair first second => first.vars ++ second.vars
  | function params result => pairVarsAll params ++ result.pairVars
  | _ => []

def pairVarsAll : List Ty → List Nat
  | [] => []
  | t :: ts => t.pairVars ++ pairVarsAll ts

end

variable {σ : Nat → Ty}

theorem subst_self (t : Ty) : t.subst var = t := by
  induction t using byChildren with
  | h t ih =>
      cases hvar : t.isVar with
      | true =>
          obtain ⟨id, rfl⟩ := isVar_eq_true hvar
          rfl
      | false =>
          refine ext_children (shape_subst hvar var) ?_
          rw [children_subst hvar, List.map_congr_left (g := id) ih, List.map_id]

mutual

theorem substOutside_eq (t : Ty) (h : ∀ v ∈ t.pairVars, σ v = .var v) :
    t.substOutside σ = t.subst σ := by
  match t with
  | list inner => rw [substOutside, subst, substOutside_eq inner h]
  | option inner => rw [substOutside, subst, substOutside_eq inner h]
  | remote inner => rw [substOutside, subst, substOutside_eq inner h]
  | map key value =>
      rw [substOutside, subst, substOutside_eq key (fun v hv => h v (List.mem_append_left _ hv)),
        substOutside_eq value (fun v hv => h v (List.mem_append_right _ hv))]
  | function params result =>
      rw [substOutside, subst,
        substOutsideAll_eq params (fun v hv => h v (List.mem_append_left _ hv)),
        substOutside_eq result (fun v hv => h v (List.mem_append_right _ hv))]
  | pair first second =>
      have hid : (pair first second).subst σ = (pair first second).subst var :=
        subst_congr h
      rw [hid, subst_self]
      rfl
  | var id => rfl
  | text | markup | whole | decimal | truth | error | handle | code | event _ | named _
  | unknown | nothing => rfl

theorem substOutsideAll_eq (ts : List Ty) (h : ∀ v ∈ pairVarsAll ts, σ v = .var v) :
    substOutsideAll σ ts = substAll σ ts := by
  match ts with
  | [] => rfl
  | t :: ts =>
      rw [substOutsideAll, substAll,
        substOutside_eq t (fun v hv => h v (List.mem_append_left _ hv)),
        substOutsideAll_eq ts (fun v hv => h v (List.mem_append_right _ hv))]

end

mutual

theorem mem_vars_substOutside (t : Ty) {v : Nat} (h : v ∈ t.pairVars) :
    v ∈ (t.substOutside σ).vars := by
  match t with
  | list inner => exact mem_vars_substOutside inner h
  | option inner => exact mem_vars_substOutside inner h
  | remote inner => exact mem_vars_substOutside inner h
  | map key value =>
      rw [substOutside, vars, List.mem_append]
      exact (List.mem_append.mp h).imp (mem_vars_substOutside key) (mem_vars_substOutside value)
  | function params result =>
      rw [substOutside, vars, List.mem_append]
      exact (List.mem_append.mp h).imp (mem_varsAll_substOutsideAll params)
        (mem_vars_substOutside result)
  | pair first second => exact h

theorem mem_varsAll_substOutsideAll (ts : List Ty) {v : Nat} (h : v ∈ pairVarsAll ts) :
    v ∈ varsAll (substOutsideAll σ ts) := by
  match ts with
  | t :: ts =>
      rw [substOutsideAll, varsAll, List.mem_append]
      exact (List.mem_append.mp h).imp (mem_vars_substOutside t) (mem_varsAll_substOutsideAll ts)

end

end Outside

end Ty

/-- A generalised type: the variables it is polymorphic in, each with what it was restricted
to, and its shape. -/
structure Scheme where
  quantified : List (Nat × Constraint)
  ty : Ty

namespace Scheme

def monomorphic (ty : Ty) : Scheme := ⟨[], ty⟩

def ids (scheme : Scheme) : List Nat := scheme.quantified.map Prod.fst

end Scheme

namespace Solver

section Substitute

def freshEach (s : Solver) : List (Nat × Constraint) → Option (Solver × List (Nat × Ty))
  | [] => some (s, [])
  | (id, constraint) :: quantified => do
      let (s, fresh) ← s.freshConstrained constraint
      let (s, mapping) ← freshEach s quantified
      return (s, (id, fresh) :: mapping)

def mapped (mapping : List (Nat × Ty)) (id : Nat) : Ty := (mapping.lookup id).getD (.var id)

mutual

def substitute (s : Solver) (mapping : List (Nat × Ty)) (ty : Ty) : Option Ty := do
  match ← s.shallow ty with
  | .var id => return mapped mapping id
  | .list inner => return .list (← s |>.substitute mapping inner)
  | .option inner => return .option (← s |>.substitute mapping inner)
  | .remote inner => return .remote (← s |>.substitute mapping inner)
  | .map key value =>
      return .map (← s |>.substitute mapping key) (← s |>.substitute mapping value)
  | .function params result =>
      return .function (← s |>.substituteAll mapping params) (← s |>.substitute mapping result)
  | settled => return settled
partial_fixpoint

def substituteAll (s : Solver) (mapping : List (Nat × Ty)) (params : List Ty) :
    Option (List Ty) :=
  match params with
  | [] => some []
  | param :: params =>
      do return (← s |>.substitute mapping param) :: (← s |>.substituteAll mapping params)
partial_fixpoint

end

def instantiate (s : Solver) (scheme : Scheme) : Option (Solver × Ty) :=
  if scheme.quantified.isEmpty then some (s, scheme.ty)
  else do
    let (s, mapping) ← s.freshEach scheme.quantified
    return (s, ← s.substitute mapping scheme.ty)

variable {s : Solver} {ρ : Nat → Ty} {mapping : List (Nat × Ty)} {t : Ty}

/-- The substitute of a type, which may hold bound variables, in pairs alone. -/
structure Substituted (s : Solver) (ρ : Nat → Ty) (mapping : List (Nat × Ty)) (t t' : Ty) :
    Prop where
  gives : s.substitute mapping t = some t'
  inScope : s.Scopes t'
  resolved : t'.subst ρ = (t.subst ρ).substOutside (mapped mapping)

theorem substituteAll_eq {params : List Ty}
    (h : ∀ param ∈ params, ∃ t', Substituted s ρ mapping param t') :
    ∃ params', s.substituteAll mapping params = some params' ∧ (∀ param ∈ params', s.Scopes param) ∧
      Ty.substAll ρ params' = Ty.substOutsideAll (mapped mapping) (Ty.substAll ρ params) := by
  induction params with
  | nil =>
      refine ⟨[], ?_, by simp, rfl⟩
      rw [substituteAll.eq_def]
  | cons param params ih =>
      obtain ⟨t', ht'⟩ := h param List.mem_cons_self
      obtain ⟨params', hparams, hscope, heq⟩ := ih (fun p hp => h p (List.mem_cons_of_mem _ hp))
      refine ⟨t' :: params', ?_, ?_, ?_⟩
      · rw [substituteAll.eq_def]
        simp only [ht'.gives, hparams]
        rfl
      · exact List.forall_mem_cons.mpr ⟨ht'.inScope, hscope⟩
      · rw [Ty.substAll, Ty.substAll, Ty.substOutsideAll, ht'.resolved, heq]

theorem substitute_spec (hs : s.WellFormed) (hρ : Ty.terms.Resolution s.binds ρ)
    (hmapping : ∀ v, s.Scopes (.var v) → s.Scopes (mapped mapping v))
    (hfree : ∀ v, s.binds v = none → (mapped mapping v).subst ρ = mapped mapping v)
    (ht : s.Scopes t) :
    ∃ t', Substituted s ρ mapping t t' := by
  induction hn : sizeOf (t.subst ρ) using Nat.strong_induction_on generalizing t with
  | h n ih =>
      subst hn
      obtain ⟨shape, hfollows⟩ := shallow_spec hs ht
      have hchildren : ∀ child ∈ shape.children, ∃ t', Substituted s ρ mapping child t' := by
        intro child hchild
        exact ih _ (hfollows.sizeOf_child hρ hchild) (hfollows.inScope.child hchild) rfl
      suffices ∃ t', s.substitute mapping t = some t' ∧ s.Scopes t' ∧
          t'.subst ρ = (shape.subst ρ).substOutside (mapped mapping) by
        obtain ⟨t', hgives, hscope, heq⟩ := this
        exact ⟨t', hgives, hscope, by rw [heq, hfollows.same hρ.bound]⟩
      have hscope := hfollows.inScope
      rw [substitute.eq_def, hfollows.shallow]
      cases shape with
      | var id =>
          refine ⟨mapped mapping id, rfl, hmapping id hscope, ?_⟩
          have hnone := binds_none_of_getElem? (hfollows.settled id rfl)
          rw [hfollows.settled.resolved hρ rfl, hfree id hnone]
          rfl
      | list inner =>
          obtain ⟨inner', h⟩ := hchildren inner List.mem_cons_self
          refine ⟨.list inner', ?_, h.inScope, ?_⟩
          · simp [h.gives]
          · rw [Ty.subst, Ty.subst, Ty.substOutside, h.resolved]
      | option inner =>
          obtain ⟨inner', h⟩ := hchildren inner List.mem_cons_self
          refine ⟨.option inner', ?_, h.inScope, ?_⟩
          · simp [h.gives]
          · rw [Ty.subst, Ty.subst, Ty.substOutside, h.resolved]
      | remote inner =>
          obtain ⟨inner', h⟩ := hchildren inner List.mem_cons_self
          refine ⟨.remote inner', ?_, h.inScope, ?_⟩
          · simp [h.gives]
          · rw [Ty.subst, Ty.subst, Ty.substOutside, h.resolved]
      | map key value =>
          obtain ⟨key', hkey⟩ := hchildren key (by simp [Ty.children])
          obtain ⟨value', hvalue⟩ := hchildren value (by simp [Ty.children])
          refine ⟨.map key' value', ?_, ?_, ?_⟩
          · simp [hkey.gives, hvalue.gives]
          · exact List.forall_mem_append.mpr ⟨hkey.inScope, hvalue.inScope⟩
          · rw [Ty.subst, Ty.subst, Ty.substOutside, hkey.resolved, hvalue.resolved]
      | function params result =>
          obtain ⟨params', hparams, hscopes, heq⟩ := substituteAll_eq
            (fun param (hparam : param ∈ params) => hchildren param (by simp [Ty.children, hparam]))
          obtain ⟨result', hresult⟩ := hchildren result (by simp [Ty.children])
          refine ⟨.function params' result', ?_, ?_, ?_⟩
          · simp [hparams, hresult.gives]
          · intro v hv
            rw [Ty.vars, List.mem_append, Ty.varsAll_eq_flatMap, List.mem_flatMap] at hv
            rcases hv with ⟨param, hparam, hv⟩ | hv
            · exact hscopes param hparam v hv
            · exact hresult.inScope v hv
          · rw [Ty.subst, Ty.subst, Ty.substOutside, heq, hresult.resolved]
      | pair first second => exact ⟨.pair first second, rfl, hscope, rfl⟩
      | _ => exact ⟨_, rfl, hscope, rfl⟩

end Substitute

section Fresh

variable {s s' : Solver} {ρ : Nat → Ty} {quantified : List (Nat × Constraint)} {v n : Nat}

/-- The variables from `n` on, for those that are quantified. -/
def numbered (n : Nat) (quantified : List (Nat × Constraint)) : List (Nat × Ty) :=
  (quantified.zipIdx n).map (fun entry => (entry.1.1, .var entry.2))

theorem mapped_numbered_of_notMem (h : v ∉ quantified.map Prod.fst) :
    mapped (numbered n quantified) v = .var v := by
  induction quantified generalizing n with
  | nil => rfl
  | cons entry quantified ih =>
      rw [List.map_cons, List.mem_cons, not_or] at h
      have hne : (v == entry.1) = false := by simpa using h.1
      have hrest : mapped (numbered (n + 1) quantified) v = .var v := ih h.2
      simpa only [mapped, numbered, List.zipIdx_cons, List.map_cons, List.lookup_cons, hne]
        using hrest

theorem mapped_numbered (hnodup : (quantified.map Prod.fst).Nodup) {i id : Nat}
    {constraint : Constraint} (h : quantified[i]? = some (id, constraint)) :
    mapped (numbered n quantified) id = .var (n + i) := by
  induction quantified generalizing n i with
  | nil => cases h
  | cons entry quantified ih =>
      rw [List.map_cons, List.nodup_cons] at hnodup
      cases i with
      | zero =>
          cases h
          simp [mapped, numbered]
      | succ i =>
          have hmem : id ∈ quantified.map Prod.fst :=
            List.mem_map.mpr ⟨_, List.mem_of_getElem? h, rfl⟩
          have hne : (id == entry.1) = false := by
            simp only [beq_eq_false_iff_ne, ne_eq]
            rintro rfl
            exact hnodup.1 hmem
          have hrest : mapped (numbered (n + 1) quantified) id = .var (n + 1 + i) :=
            ih hnodup.2 h
          rw [show n + (i + 1) = n + 1 + i by omega]
          simpa only [mapped, numbered, List.zipIdx_cons, List.map_cons, List.lookup_cons, hne]
            using hrest

theorem mapped_numbered_cases (n v : Nat) (quantified : List (Nat × Constraint)) :
    (∃ i < quantified.length, mapped (numbered n quantified) v = .var (n + i)) ∨
      v ∉ quantified.map Prod.fst ∧ mapped (numbered n quantified) v = .var v := by
  induction quantified generalizing n with
  | nil => exact .inr ⟨List.not_mem_nil, rfl⟩
  | cons entry quantified ih =>
      by_cases hv : v = entry.1
      · refine .inl ⟨0, Nat.succ_pos _, ?_⟩
        simp [mapped, numbered, hv]
      · have hne : (v == entry.1) = false := by simpa using hv
        have hrest : mapped (numbered n (entry :: quantified)) v =
            mapped (numbered (n + 1) quantified) v := by
          simp only [mapped, numbered, List.zipIdx_cons, List.map_cons, List.lookup_cons, hne]
        rw [hrest]
        rcases ih (n + 1) with ⟨i, hi, heq⟩ | ⟨hmem, heq⟩
        · refine .inl ⟨i + 1, Nat.succ_lt_succ hi, ?_⟩
          rw [heq, Nat.add_assoc, Nat.add_comm 1]
        · refine .inr ⟨?_, heq⟩
          rw [List.map_cons, List.mem_cons, not_or]
          exact ⟨hv, hmem⟩

structure Extended (s : Solver) (quantified : List (Nat × Constraint)) (s' : Solver) :
    Prop where
  wellFormed : s'.WellFormed
  binds : s'.binds = s.binds
  bindings : s'.bindings = s.bindings ++ List.replicate quantified.length none
  constraints : s'.constraints = s.constraints ++ quantified.map Prod.snd

theorem freshEach_spec (hs : s.WellFormed)
    (hroom : ∀ k < quantified.length, s.bindings.length + k < 2 ^ 32) :
    ∃ s', s.freshEach quantified = some (s', numbered s.bindings.length quantified) ∧
      Extended s quantified s' := by
  induction quantified generalizing s with
  | nil => exact ⟨s, rfl, hs, rfl, by simp, by simp⟩
  | cons entry quantified ih =>
      obtain ⟨id, constraint⟩ := entry
      have hfresh : s.freshConstrained constraint =
          some (⟨s.bindings ++ [none], s.constraints ++ [constraint]⟩, .var s.bindings.length) :=
        if_pos (hroom 0 (Nat.succ_pos _))
      have hroom' (k : Nat) (hk : k < quantified.length) :
          (s.bindings ++ [none]).length + k < 2 ^ 32 := by
        have := hroom (k + 1) (Nat.succ_lt_succ hk)
        rw [List.length_append, List.length_singleton]
        omega
      obtain ⟨s', hs', h⟩ := ih (freshConstrained_grows hs hfresh).wellFormed hroom'
      refine ⟨s', ?_, h.wellFormed, ?_, ?_, ?_⟩
      · rw [freshEach, hfresh]
        simp only [Option.bind_eq_bind, Option.bind_some, hs']
        simp [numbered]
      · rw [h.binds, binds_concat]
      · rw [h.bindings, List.append_assoc]
        rfl
      · rw [h.constraints, List.append_assoc]
        rfl

theorem freshEach_room {mapping : List (Nat × Ty)}
    (h : s.freshEach quantified = some (s', mapping)) :
    ∀ k < quantified.length, s.bindings.length + k < 2 ^ 32 := by
  induction quantified generalizing s s' mapping with
  | nil => exact fun k hk => absurd hk (Nat.not_lt_zero k)
  | cons entry quantified ih =>
      obtain ⟨id, constraint⟩ := entry
      simp only [freshEach, freshConstrained, Option.bind_eq_bind, Option.bind_eq_some_iff] at h
      obtain ⟨⟨s₁, fresh⟩, hfresh, ⟨s₂, rest⟩, hrest, -⟩ := h
      split_ifs at hfresh with hlt
      cases hfresh
      intro k hk
      cases k with
      | zero => exact hlt
      | succ k =>
          have := ih hrest k (Nat.lt_of_succ_lt_succ hk)
          rw [List.length_append, List.length_singleton] at this
          omega

end Fresh

section Instances

variable {s s' : Solver} {ρ : Nat → Ty} {scheme : Scheme} {t : Ty} {v : Nat}

def FreeIn (s : Solver) (v : Nat) (t : Ty) : Prop :=
  ∃ resolved, s.zonk t = some resolved ∧ v ∈ resolved.vars

def FreeInPair (s : Solver) (v : Nat) (t : Ty) : Prop :=
  ∃ resolved, s.zonk t = some resolved ∧ v ∈ resolved.pairVars

theorem freeIn_iff (hs : s.WellFormed) (hρ : Ty.terms.Resolution s.binds ρ) (ht : s.Scopes t) :
    s.FreeIn v t ↔ v ∈ (t.subst ρ).vars := by
  simp only [FreeIn, zonk_spec hs hρ ht, Option.some.injEq, exists_eq_left']

theorem freeInPair_iff (hs : s.WellFormed) (hρ : Ty.terms.Resolution s.binds ρ)
    (ht : s.Scopes t) : s.FreeInPair v t ↔ v ∈ (t.subst ρ).pairVars := by
  simp only [FreeInPair, zonk_spec hs hρ ht, Option.some.injEq, exists_eq_left']

def HasRoom (s : Solver) (scheme : Scheme) : Prop :=
  ∀ k < scheme.quantified.length, s.bindings.length + k < 2 ^ 32

theorem instantiate_spec (hs : s.WellFormed) (hρ : Ty.terms.Resolution s.binds ρ)
    (hty : s.Scopes scheme.ty) (hroom : s.HasRoom scheme) :
    ∃ s' t, s.instantiate scheme = some (s', t) ∧ Extended s scheme.quantified s' ∧
      s'.Scopes t ∧ t.subst ρ = (scheme.ty.subst ρ).substOutside
        (mapped (numbered s.bindings.length scheme.quantified)) := by
  obtain ⟨s', hfresh, hextended⟩ := freshEach_spec hs hroom
  have hlength : s'.bindings.length = s.bindings.length + scheme.quantified.length := by
    rw [hextended.bindings, List.length_append, List.length_replicate]
  by_cases hempty : scheme.quantified = []
  · refine ⟨s, scheme.ty, ?_, ⟨hs, rfl, by simp [hempty], by simp [hempty]⟩, hty, ?_⟩
    · rw [instantiate, hempty]
      rfl
    · rw [hempty, show mapped (numbered s.bindings.length []) = .var from rfl,
        Ty.substOutside_eq _ (fun v _ => rfl), Ty.subst_self]
  · have hscope : s'.Scopes scheme.ty := fun v hv => by
      have := hty v hv
      omega
    have hmapping (v : Nat) (hv : s'.Scopes (.var v)) :
        s'.Scopes (mapped (numbered s.bindings.length scheme.quantified) v) := by
      rcases mapped_numbered_cases s.bindings.length v scheme.quantified with
        ⟨i, hi, heq⟩ | ⟨-, heq⟩
      · rw [heq]
        intro w hw
        rw [List.mem_singleton.mp hw]
        omega
      · rw [heq]
        exact hv
    have hnew (i : Nat) : s.binds (s.bindings.length + i) = none := by
      rw [Solver.binds, List.getElem?_eq_none (Nat.le_add_right _ _)]
      rfl
    have hρ' : Ty.terms.Resolution s'.binds ρ := hextended.binds ▸ hρ
    have hfree (v : Nat) (hv : s'.binds v = none) :
        (mapped (numbered s.bindings.length scheme.quantified) v).subst ρ =
          mapped (numbered s.bindings.length scheme.quantified) v := by
      rcases mapped_numbered_cases s.bindings.length v scheme.quantified with
        ⟨i, -, heq⟩ | ⟨-, heq⟩
      · rw [heq]
        exact hρ.free _ (hnew i)
      · rw [heq]
        exact hρ'.free v hv
    obtain ⟨t, ht⟩ := substitute_spec hextended.wellFormed hρ' hmapping hfree hscope
    refine ⟨s', t, ?_, hextended, ht.inScope, ht.resolved⟩
    rw [instantiate, if_neg (by simpa using hempty), hfresh]
    simp [ht.gives]

/-- What an instance of a scheme is to be: its type with a fresh variable, carrying the same
constraint, for each that is quantified, at every depth; so that none of those is left and
the next instance has in common with it what is free in the scheme alone. -/
structure Instantiates (s : Solver) (scheme : Scheme) (s' : Solver) (t : Ty) : Prop where
  replaced : ∃ resolved σ, s.zonk scheme.ty = some resolved ∧ s'.zonk t = some (resolved.subst σ) ∧
    (∀ v, v ∉ scheme.ids → σ v = .var v) ∧
    ∀ i id constraint, scheme.quantified[i]? = some (id, constraint) →
      σ id = .var (s.bindings.length + i) ∧
      s'.bindings[s.bindings.length + i]? = some none ∧
      s'.constraints[s.bindings.length + i]? = some constraint
  kept : ∀ v < s.bindings.length,
    s'.bindings[v]? = s.bindings[v]? ∧ s'.constraints[v]? = s.constraints[v]?
  gone : ∀ id ∈ scheme.ids, ¬ s'.FreeIn id t
  apart : ∀ s'' t', s'.instantiate scheme = some (s'', t') →
    ∀ v, s''.FreeIn v t → s''.FreeIn v t' → s.FreeIn v scheme.ty ∧ v ∉ scheme.ids

theorem Extended.scopes (h : Extended s scheme.quantified s') (ht : s.Scopes t) :
    s'.Scopes t := by
  intro v hv
  have := ht v hv
  rw [h.bindings, List.length_append]
  omega

theorem Extended.kept (h : Extended s scheme.quantified s') (hs : s.WellFormed) {v : Nat}
    (hv : v < s.bindings.length) :
    s'.bindings[v]? = s.bindings[v]? ∧ s'.constraints[v]? = s.constraints[v]? := by
  rw [h.bindings, h.constraints]
  exact ⟨List.getElem?_append_left hv, List.getElem?_append_left (hs.lengths.symm ▸ hv)⟩

/-- A scheme over the variables of a solver: each that is quantified is one of them, once. -/
structure ScopesScheme (s : Solver) (scheme : Scheme) : Prop where
  ty : s.Scopes scheme.ty
  ids : ∀ id ∈ scheme.ids, id < s.bindings.length
  nodup : scheme.ids.Nodup

theorem instance_eq (hs : s.WellFormed) (hρ : Ty.terms.Resolution s.binds ρ)
    (hty : s.Scopes scheme.ty) (hpair : ∀ id ∈ scheme.ids, ¬ s.FreeInPair id scheme.ty) (n : Nat) :
    (scheme.ty.subst ρ).substOutside (mapped (numbered n scheme.quantified)) =
      (scheme.ty.subst ρ).subst (mapped (numbered n scheme.quantified)) := by
  refine Ty.substOutside_eq _ (fun v hv => mapped_numbered_of_notMem (fun hmem => ?_))
  exact hpair v hmem ((freeInPair_iff hs hρ hty).mpr hv)

theorem freeIn_instance (hs : s.WellFormed) (hρ : Ty.terms.Resolution s.binds ρ)
    (hty : s.Scopes scheme.ty) (hpair : ∀ id ∈ scheme.ids, ¬ s.FreeInPair id scheme.ty) {n : Nat}
    (ht : t.subst ρ = (scheme.ty.subst ρ).substOutside (mapped (numbered n scheme.quantified)))
    (hv : v ∈ (t.subst ρ).vars) :
    (n ≤ v ∧ v < n + scheme.quantified.length) ∨ (s.FreeIn v scheme.ty ∧ v ∉ scheme.ids) := by
  rw [ht, instance_eq hs hρ hty hpair] at hv
  obtain ⟨u, hu, hv⟩ := Ty.mem_vars_subst.mp hv
  rcases mapped_numbered_cases n u scheme.quantified with ⟨i, hi, heq⟩ | ⟨hmem, heq⟩
  · rw [heq] at hv
    obtain rfl := List.mem_singleton.mp hv
    exact .inl ⟨Nat.le_add_right n i, by omega⟩
  · rw [heq] at hv
    obtain rfl := List.mem_singleton.mp hv
    exact .inr ⟨(freeIn_iff hs hρ hty).mpr hu, hmem⟩

theorem hasRoom_of_instantiate (h : s.instantiate scheme = some (s', t)) : s.HasRoom scheme := by
  unfold instantiate at h
  split_ifs at h with hempty
  · rw [HasRoom, List.isEmpty_iff.mp hempty]
    exact fun k hk => absurd hk (Nat.not_lt_zero k)
  · simp only [Option.bind_eq_bind, Option.bind_eq_some_iff] at h
    obtain ⟨⟨s₁, mapping⟩, hfresh, -⟩ := h
    exact freshEach_room hfresh

theorem instantiates_iff (hs : s.WellFormed) (hscheme : s.ScopesScheme scheme) :
    (∃ s' t, s.instantiate scheme = some (s', t) ∧ Instantiates s scheme s' t) ↔
      s.HasRoom scheme ∧ ∀ id ∈ scheme.ids, ¬ s.FreeInPair id scheme.ty := by
  obtain ⟨ρ, hρ⟩ := hs.exists_resolution
  constructor
  · rintro ⟨s', t, hgives, h⟩
    have hroom := hasRoom_of_instantiate hgives
    obtain ⟨_, _, hsame, hextended, hscope, ht⟩ := instantiate_spec hs hρ hscheme.ty hroom
    cases hgives.symm.trans hsame
    refine ⟨hroom, fun id hid hpair => h.gone id hid ?_⟩
    rw [freeIn_iff hextended.wellFormed (hextended.binds ▸ hρ) hscope, ht]
    exact Ty.mem_vars_substOutside _ ((freeInPair_iff hs hρ hscheme.ty).mp hpair)
  · rintro ⟨hroom, hpair⟩
    obtain ⟨s', t, hgives, hextended, hscope, ht⟩ := instantiate_spec hs hρ hscheme.ty hroom
    have hρ' : Ty.terms.Resolution s'.binds ρ := hextended.binds ▸ hρ
    have hlength : s'.bindings.length = s.bindings.length + scheme.quantified.length := by
      rw [hextended.bindings, List.length_append, List.length_replicate]
    refine ⟨s', t, hgives, ?_, fun v hv => hextended.kept hs hv, ?_, ?_⟩
    · refine ⟨scheme.ty.subst ρ, mapped (numbered s.bindings.length scheme.quantified),
        zonk_spec hs hρ hscheme.ty, ?_, fun v hv => mapped_numbered_of_notMem hv, ?_⟩
      · rw [zonk_spec hextended.wellFormed hρ' hscope, ht, instance_eq hs hρ hscheme.ty hpair]
      · intro i id constraint hi
        refine ⟨mapped_numbered hscheme.nodup hi, ?_, ?_⟩
        · obtain ⟨hlt, -⟩ := List.getElem?_eq_some_iff.mp hi
          rw [hextended.bindings, List.getElem?_append_right (Nat.le_add_right _ _),
            Nat.add_sub_cancel_left, List.getElem?_replicate_of_lt hlt]
        · rw [hextended.constraints, ← hs.lengths,
            List.getElem?_append_right (Nat.le_add_right _ _), Nat.add_sub_cancel_left,
            List.getElem?_map, hi, Option.map_some]
    · intro id hid hfree
      rw [freeIn_iff hextended.wellFormed hρ' hscope] at hfree
      rcases freeIn_instance hs hρ hscheme.ty hpair ht hfree with ⟨hle, -⟩ | ⟨-, hmem⟩
      · exact absurd (hscheme.ids id hid) (Nat.not_lt.mpr hle)
      · exact hmem hid
    · intro s'' t' hgives' v hv hv'
      have hroom' := hasRoom_of_instantiate hgives'
      obtain ⟨_, _, hsame, hextended', hscope', ht'⟩ :=
        instantiate_spec hextended.wellFormed hρ' (hextended.scopes hscheme.ty) hroom'
      cases hgives'.symm.trans hsame
      have hρ'' : Ty.terms.Resolution s''.binds ρ := hextended'.binds ▸ hρ'
      rw [freeIn_iff hextended'.wellFormed hρ'' (hextended'.scopes hscope)] at hv
      rw [freeIn_iff hextended'.wellFormed hρ'' hscope'] at hv'
      rcases freeIn_instance hs hρ hscheme.ty hpair ht hv with ⟨-, hlt⟩ | hfree
      · rcases freeIn_instance hs hρ hscheme.ty hpair ht' hv' with ⟨hle, -⟩ | hfree
        · omega
        · exact hfree
      · exact hfree

/-- `function twin with x` that gives `Pair with first is x, second is x`. -/
def twin : Scheme := ⟨[(0, .any)], .function [.var 0] (.pair (.var 0) (.var 0))⟩

end Instances

end Solver

end Types
end Zdeceptron
