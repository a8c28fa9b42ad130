import Zdeceptron.Types.Scheme

/-!
# What a unification leaves alone

Unification stays among the variables that its two types lead to.  A variable that neither
leads to stays free, and out of every type that it was out of.
-/

namespace Zdeceptron
namespace Types

open Library

namespace Solver

section Regions

variable {R : Nat → Prop} {s s' : Solver} {t t' : Ty} {result : Except Mismatch Unit}

def Inside (R : Nat → Prop) (t : Ty) : Prop := ∀ v ∈ t.vars, R v

def Closed (s : Solver) (R : Nat → Prop) : Prop :=
  ∀ v t, R v → s.binds v = some t → Inside R t

structure Stays (R : Nat → Prop) (s s' : Solver) : Prop where
  closed : s'.Closed R
  outside : ∀ v, ¬ R v → s'.binds v = s.binds v

theorem Stays.refl (h : s.Closed R) : Stays R s s := ⟨h, fun _ _ => rfl⟩

theorem Stays.trans {s'' : Solver} (h : Stays R s s') (h' : Stays R s' s'') : Stays R s s'' :=
  ⟨h'.closed, fun v hv => (h'.outside v hv).trans (h.outside v hv)⟩

theorem Inside.child (h : Inside R t) {child : Ty} (hchild : child ∈ t.children) :
    Inside R child := fun v hv => h v (Ty.mem_vars_of_child hchild hv)

theorem shallow_inside (hclosed : s.Closed R) (ht : Inside R t) (h : s.shallow t = some t') :
    Inside R t' := by
  revert ht
  refine shallow.partial_correctness s (fun t t' => Inside R t → Inside R t') ?_ t t' h
  intro next ih a r hnext ha
  split at hnext
  · split at hnext
    · cases hnext
    · cases hnext
      exact ha
    · rename_i id _ bound hbound
      exact ih _ _ hnext (hclosed id bound (ha id (List.mem_singleton_self id))
        (binds_some_of_getElem? hbound))
  · cases hnext
    exact ha

theorem stays_set (hclosed : s.Closed R) {id : Nat} (hid : R id) (ht : Inside R t)
    (hfree : s.bindings[id]? = some none) (constraints : List Constraint) :
    Stays R s ⟨s.bindings.set id (some t), constraints⟩ := by
  have hbinds := binds_set hfree t constraints
  constructor
  · intro v u hv hu
    rw [hbinds] at hu
    by_cases hvid : v = id
    · subst hvid
      rw [Function.update_self] at hu
      obtain rfl := Option.some.inj hu
      exact ht
    · rw [Function.update_of_ne hvid] at hu
      exact hclosed v u hv hu
  · intro v hv
    rw [hbinds, Function.update_of_ne]
    rintro rfl
    exact hv hid

theorem bind_stays (hclosed : s.Closed R) {id : Nat} (hid : R id) (ht : Inside R t)
    (hfree : s.bindings[id]? = some none) (h : s.bind id t = some (s', result)) :
    Stays R s s' := by
  simp only [Solver.bind, Option.bind_eq_bind, Option.bind_eq_some_iff] at h
  obtain ⟨occurs, -, h⟩ := h
  split_ifs at h
  · cases h
    exact .refl hclosed
  · simp only [Option.bind_eq_some_iff] at h
    obtain ⟨constraint, -, h⟩ := h
    split_ifs at h <;> cases h
    · exact stays_set hclosed hid ht hfree _
    · exact .refl hclosed

theorem merge_stays (hclosed : s.Closed R) {a b : Nat} (ha : R a) (hb : R b)
    (hfree : s.bindings[a]? = some none) (h : s.merge a b = some (s', result)) :
    Stays R s s' := by
  simp only [merge, Option.bind_eq_bind, Option.bind_eq_some_iff] at h
  obtain ⟨needed, -, other, -, h⟩ := h
  split at h
  · cases h
    refine stays_set hclosed ha ?_ hfree _
    intro v hv
    rw [List.mem_singleton.mp hv]
    exact hb
  · cases h
    exact .refl hclosed

theorem stays_both {first : Result} {second : Solver → Result}
    (hfirst : ∀ r, first = some r → Stays R s r.1)
    (hsecond : ∀ s₁ r, s₁.Closed R → second s₁ = some r → Stays R s₁ r.1)
    {r : Solver × Except Mismatch Unit}
    (h : (do
      match ← first with
      | (s, .ok _) => second s
      | (s, .error mismatch) => return (s, .error mismatch)) = some r) : Stays R s r.1 := by
  simp only [Option.bind_eq_bind, Option.bind_eq_some_iff] at h
  obtain ⟨⟨s₁, result⟩, hr, h⟩ := h
  cases result with
  | ok _ => exact (hfirst _ hr).trans (hsecond _ _ (hfirst _ hr).closed h)
  | error mismatch =>
      cases h
      exact hfirst _ hr

theorem unify_stays {l r : Ty} (hclosed : s.Closed R) (hl : Inside R l) (hr : Inside R r)
    (h : s.unify l r = some (s', result)) : Stays R s s' := by
  have hboth := unify.mutual_partial_correctness
    (fun s l r res => s.Closed R → Inside R l → Inside R r → Stays R s res.1)
    (fun s ls rs res => s.Closed R → (∀ l ∈ ls, Inside R l) → (∀ r ∈ rs, Inside R r) →
      Stays R s res.1) ?_ ?_
  · exact hboth.1 s l r _ h hclosed hl hr
  · intro unify unifyEach ih ihEach s left right res hres hclosed hleft hright
    simp only [Option.bind_eq_bind, Option.bind_eq_some_iff] at hres
    obtain ⟨left', hl', right', hr', hres⟩ := hres
    have hfreeL := shallow_settled hl'
    have hfreeR := shallow_settled hr'
    replace hl' := shallow_inside hclosed hleft hl'
    replace hr' := shallow_inside hclosed hright hr'
    have hnil : Stays R s s := .refl hclosed
    split at hres
    case h_5 a b =>
      split_ifs at hres
      · cases hres
        exact hnil
      · exact merge_stays hclosed (hl' a List.mem_cons_self) (hr' b List.mem_cons_self)
          (hfreeL a rfl) hres
    case h_6 id _ _ _ =>
      exact bind_stays hclosed (hl' id List.mem_cons_self) hr' (hfreeL id rfl) hres
    case h_7 id _ _ _ =>
      exact bind_stays hclosed (hr' id List.mem_cons_self) hl' (hfreeR id rfl) hres
    case h_23 =>
      split_ifs at hres
      · refine stays_both (fun r hr => ihEach _ _ _ r hr hclosed ?_ ?_)
          (fun s₁ r hs₁ hr => ih s₁ _ _ r hr hs₁ ?_ ?_) hres
        · exact fun param hparam => hl'.child (by simp [Ty.children, hparam])
        · exact fun param hparam => hr'.child (by simp [Ty.children, hparam])
        · exact hl'.child (by simp [Ty.children])
        · exact hr'.child (by simp [Ty.children])
      · cases hres
        exact hnil
    all_goals first
      | (cases hres; exact hnil)
      | (split_ifs at hres <;> cases hres <;> exact hnil)
      | exact ih _ _ _ _ hres hclosed hl' hr'
      | exact stays_both
          (fun r hr => ih _ _ _ r hr hclosed (hl'.child (by simp [Ty.children]))
            (hr'.child (by simp [Ty.children])))
          (fun s₁ r hs₁ hr => ih s₁ _ _ r hr hs₁ (hl'.child (by simp [Ty.children]))
            (hr'.child (by simp [Ty.children]))) hres
  · intro unify unifyEach ih ihEach s lefts rights res hres hclosed hls hrs
    split at hres
    · rw [List.forall_mem_cons] at hls hrs
      exact stays_both (fun r hr => ih _ _ _ r hr hclosed hls.1 hrs.1)
        (fun s₁ r hs₁ hr => ihEach s₁ _ _ r hr hs₁ hls.2 hrs.2) hres
    · cases hres
      exact .refl hclosed

end Regions

section Spared

variable {R S : Nat → Prop} {s s' : Solver} {ρ : Nat → Ty} {t : Ty} {v q : Nat}

theorem Inside.resolved (ht : Inside R t) (hs : s.WellFormed) (hclosed : s.Closed R)
    (hρ : Ty.terms.Resolution s.binds ρ) : Inside R (t.subst ρ) :=
  vars_resolved hs hρ hclosed ht

theorem binds_of_mem_resolved (hs : s.WellFormed) (hρ : Ty.terms.Resolution s.binds ρ)
    (h : v ∈ (t.subst ρ).vars) : s.binds v = none := by
  have hall : ∀ u, ∀ v ∈ (ρ u).vars, s.binds v = none := by
    intro u
    induction u using hs.acyclic.induct with
    | step u ih =>
        intro v hv
        cases hbinds : s.binds u with
        | none =>
            rw [hρ.free u hbinds] at hv
            rw [List.mem_singleton.mp hv]
            exact hbinds
        | some bound =>
            rw [hρ.bound u bound hbinds] at hv
            obtain ⟨w, hw, hv⟩ := Ty.mem_vars_subst.mp hv
            exact ih bound hbinds w hw v hv
  obtain ⟨u, -, hv⟩ := Ty.mem_vars_subst.mp h
  exact hall u v hv

/-- A step that leaves some free variables alone: they stay free, and out of every type that
none of them was in. -/
structure Spares (S : Nat → Prop) (s s' : Solver) : Prop where
  grows : s.Grows s'
  kept : ∀ q, S q → s'.binds q = none
  apart : ∀ t, s.Scopes t → (∀ q, S q → ¬ s.FreeIn q t) → ∀ q, S q → ¬ s'.FreeIn q t

theorem Spares.of_binds (hs : s.WellFormed) (hgrows : s.Grows s') (hbinds : s'.binds = s.binds)
    (hS : ∀ q, S q → s.binds q = none) : Spares S s s' := by
  obtain ⟨ρ, hρ⟩ := hs.exists_resolution
  have hρ' : Ty.terms.Resolution s'.binds ρ := hbinds ▸ hρ
  refine ⟨hgrows, fun q hq => hbinds ▸ hS q hq, ?_⟩
  intro t ht hfree q hq hmem
  rw [freeIn_iff hgrows.wellFormed hρ' (fun v hv => (ht v hv).trans_le hgrows.length)] at hmem
  exact hfree q hq ((freeIn_iff hs hρ ht).mpr hmem)

theorem unify_spares (hs : s.WellFormed) {l r : Ty} {result : Except Mismatch Unit}
    (hS : ∀ q, S q → s.binds q = none) (hl : s.Scopes l) (hr : s.Scopes r)
    (hlfree : ∀ q, S q → ¬ s.FreeIn q l) (hrfree : ∀ q, S q → ¬ s.FreeIn q r)
    (h : s.unify l r = some (s', result)) : Spares S s s' := by
  obtain ⟨ρ, hρ⟩ := hs.exists_resolution
  have hgrows : s.Grows s' := by
    obtain ⟨s₁, result₁, hunify, houtcome⟩ := unify_spec hs hl hr
    cases h.symm.trans hunify
    exact houtcome.grows_of
  -- the variables that lead to none of those to spare
  let R (v : Nat) : Prop := ∀ q, S q → q ∉ (ρ v).vars
  have hclosed : s.Closed R := by
    intro v t hv hbinds w hw q hq hmem
    refine hv q hq ?_
    rw [hρ.bound v t hbinds]
    exact Ty.mem_vars_subst.mpr ⟨w, hw, hmem⟩
  have hinside {t : Ty} (ht : s.Scopes t) (hfree : ∀ q, S q → ¬ s.FreeIn q t) : Inside R t := by
    intro v hv q hq hmem
    exact hfree q hq ((freeIn_iff hs hρ ht).mpr (Ty.mem_vars_subst.mpr ⟨v, hv, hmem⟩))
  have hout {q : Nat} (hq : S q) : ¬ R q := by
    intro hR
    refine hR q hq ?_
    rw [hρ.free q (hS q hq)]
    exact List.mem_singleton_self q
  have hstays := unify_stays hclosed (hinside hl hlfree) (hinside hr hrfree) h
  obtain ⟨ρ', hρ'⟩ := hgrows.wellFormed.exists_resolution
  refine ⟨hgrows, fun q hq => (hstays.outside q (hout hq)).trans (hS q hq), ?_⟩
  intro t ht hfree q hq hmem
  rw [freeIn_iff hgrows.wellFormed hρ' (fun v hv => (ht v hv).trans_le hgrows.length)] at hmem
  exact hout hq ((hinside ht hfree).resolved hgrows.wellFormed hstays.closed hρ' q hmem)

theorem freeIn_grows_iff (hs : s.WellFormed) (hgrows : s.Grows s') (ht : s.Scopes t) :
    s'.FreeIn v t ↔ ∃ u, s.FreeIn u t ∧ s'.FreeIn v (.var u) := by
  obtain ⟨ρ, hρ⟩ := hs.exists_resolution
  obtain ⟨ρ', hρ'⟩ := hgrows.wellFormed.exists_resolution
  have hsolves : Ty.terms.Solves s.binds ρ' := hρ'.bound.of_extends (fun _ _ => hgrows.binds)
  have hsame : (t.subst ρ).subst ρ' = t.subst ρ' := hsolves.subst_resolved hs.acyclic hρ t
  have hscopes {t : Ty} (ht : s.Scopes t) : s'.Scopes t :=
    fun v hv => (ht v hv).trans_le hgrows.length
  have hvar {u : Nat} (hu : u ∈ (t.subst ρ).vars) : s.Scopes (.var u) := by
    intro w hw
    rw [List.mem_singleton.mp hw]
    exact ht.resolved hs hρ u hu
  rw [freeIn_iff hgrows.wellFormed hρ' (hscopes ht), ← hsame, Ty.mem_vars_subst]
  constructor
  · rintro ⟨u, hu, hv⟩
    refine ⟨u, (freeIn_iff hs hρ ht).mpr hu, ?_⟩
    exact (freeIn_iff hgrows.wellFormed hρ' (hscopes (hvar hu))).mpr hv
  · rintro ⟨u, hu, hv⟩
    rw [freeIn_iff hs hρ ht] at hu
    exact ⟨u, hu, (freeIn_iff hgrows.wellFormed hρ' (hscopes (hvar hu))).mp hv⟩

theorem freeIn_var (hs : s.WellFormed) (hlt : q < s.bindings.length) (hq : s.binds q = none) :
    s.FreeIn v (.var q) ↔ v = q := by
  obtain ⟨ρ, hρ⟩ := hs.exists_resolution
  have hscope : s.Scopes (.var q) := fun w hw => List.mem_singleton.mp hw ▸ hlt
  rw [freeIn_iff hs hρ hscope, Ty.subst, hρ.free q hq]
  exact List.mem_singleton

theorem FreeIn.lt (hs : s.WellFormed) (ht : s.Scopes t) (h : s.FreeIn v t) :
    v < s.bindings.length := by
  obtain ⟨ρ, hρ⟩ := hs.exists_resolution
  exact ht.resolved hs hρ v ((freeIn_iff hs hρ ht).mp h)

theorem FreeIn.binds (hs : s.WellFormed) (ht : s.Scopes t) (h : s.FreeIn v t) :
    s.binds v = none := by
  obtain ⟨ρ, hρ⟩ := hs.exists_resolution
  exact binds_of_mem_resolved hs hρ ((freeIn_iff hs hρ ht).mp h)

theorem Spares.freeIn (h : Spares S s s') (hs : s.WellFormed) (ht : s.Scopes t) (hq : S q)
    (hfree : s.FreeIn q t) : s'.FreeIn q t := by
  have hlt := (hfree.lt hs ht).trans_le h.grows.length
  exact (freeIn_grows_iff hs h.grows ht).mpr
    ⟨q, hfree, (freeIn_var h.grows.wellFormed hlt (h.kept q hq)).mpr rfl⟩

theorem Spares.freeIn_cases (h : Spares S s s') (hs : s.WellFormed) (ht : s.Scopes t)
    (hfree : s'.FreeIn v t) :
    (S v ∧ s.FreeIn v t) ∨ ¬ S v ∧ ∃ u, ¬ S u ∧ s.FreeIn u t ∧ s'.FreeIn v (.var u) := by
  obtain ⟨u, hu, hv⟩ := (freeIn_grows_iff hs h.grows ht).mp hfree
  have hlt := hu.lt hs ht
  by_cases hS : S u
  · rw [freeIn_var h.grows.wellFormed (hlt.trans_le h.grows.length) (h.kept u hS)] at hv
    subst hv
    exact .inl ⟨hS, hu⟩
  · refine .inr ⟨fun hSv => ?_, u, hS, hu, hv⟩
    have hscope : s.Scopes (.var u) := fun w hw => List.mem_singleton.mp hw ▸ hlt
    refine h.apart (.var u) hscope (fun q hq hqu => hS ?_) v hSv hv
    rw [freeIn_var hs hlt (hu.binds hs ht)] at hqu
    exact hqu ▸ hq

end Spared

end Solver

end Types
end Zdeceptron
