import Mathlib.Logic.Relation
import Zdeceptron.Types.MostGeneral

/-!
# What the solver assigns

A unification binds free variables, one after another, also where it fails half way.  Each
binding meets the constraint of its variable, or hands it on to another free variable.

* `reachable_acyclic`: no variable reaches itself, and bound variables meet their constraints.
-/

namespace Zdeceptron
namespace Types

open Library

section Narrower

namespace Constraint

def Narrower (narrow wide : Constraint) : Prop := wide.meet narrow = some narrow

instance (narrow wide : Constraint) : Decidable (Narrower narrow wide) :=
  inferInstanceAs (Decidable (_ = _))

theorem Narrower.trans {a b c : Constraint} (h : Narrower a b) (h' : Narrower b c) :
    Narrower a c := by
  revert h h'
  cases a <;> cases b <;> cases c <;> decide

theorem meet_narrower {a b narrowed : Constraint} (h : a.meet b = some narrowed) :
    Narrower narrowed a ∧ Narrower narrowed b := by
  revert h
  cases a <;> cases b <;> cases narrowed <;> decide

theorem Narrower.admits {narrow wide : Constraint} {t : Ty} (h : Narrower narrow wide)
    (hadmits : narrow.admits t = true) : wide.admits t = true :=
  (admits_of_meet h hadmits).1

theorem defaultType_admitted {constraint : Constraint} {t : Ty}
    (h : constraint.defaultType = some t) : constraint.admits t = true ∧ t.isVar = false := by
  cases constraint <;> cases h <;> exact ⟨rfl, rfl⟩

end Constraint

end Narrower

namespace Solver

section FreeVars

mutual

def freeVars (s : Solver) (ty : Ty) (out : List Nat) : Option (List Nat) := do
  match ← s.shallow ty with
  | .var id => return if out.contains id then out else out ++ [id]
  | .list inner => s |>.freeVars inner out
  | .option inner => s |>.freeVars inner out
  | .remote inner => s |>.freeVars inner out
  | .map key value => s |>.freeVars value (← s |>.freeVars key out)
  | .pair first second => s |>.freeVars second (← s |>.freeVars first out)
  | .function params result => s |>.freeVars result (← s |>.freeVarsAll params out)
  | _ => return out
partial_fixpoint

def freeVarsAll (s : Solver) (params : List Ty) (out : List Nat) : Option (List Nat) :=
  match params with
  | [] => some out
  | param :: params => do s |>.freeVarsAll params (← s |>.freeVars param out)
partial_fixpoint

end

def collect (out ids : List Nat) : List Nat :=
  ids.foldl (fun out id => if out.contains id then out else out ++ [id]) out

theorem collect_append (out ids ids' : List Nat) :
    collect out (ids ++ ids') = collect (collect out ids) ids' := List.foldl_append ..

theorem mem_collect {out ids : List Nat} {v : Nat} :
    v ∈ collect out ids ↔ v ∈ out ∨ v ∈ ids := by
  induction ids generalizing out with
  | nil => simp [collect]
  | cons id ids ih =>
      rw [collect, List.foldl_cons, ← collect, ih]
      by_cases hmem : id ∈ out
      · simp only [List.contains_iff_mem.mpr hmem, if_true, List.mem_cons]
        constructor
        · rintro (h | h)
          · exact .inl h
          · exact .inr (.inr h)
        · rintro (h | rfl | h)
          · exact .inl h
          · exact .inl hmem
          · exact .inr h
      · have hcontains : out.contains id = false := by simpa using hmem
        rw [hcontains]
        simp [or_assoc]

variable {s : Solver} {ρ : Nat → Ty} {t : Ty}

theorem freeVarsAll_eq {params : List Ty} (h : ∀ param ∈ params, ∀ out,
      s.freeVars param out = some (collect out (param.subst ρ).vars)) (out : List Nat) :
    s.freeVarsAll params out = some (collect out (Ty.varsAll (Ty.substAll ρ params))) := by
  induction params generalizing out with
  | nil =>
      rw [freeVarsAll.eq_def]
      rfl
  | cons param params ih =>
      have hparams := ih (fun p hp => h p (List.mem_cons_of_mem _ hp))
      rw [freeVarsAll.eq_def]
      simp only [h param List.mem_cons_self, hparams, Ty.substAll, Ty.varsAll, collect_append]
      rfl

theorem freeVars_spec (hs : s.WellFormed) (hρ : Ty.terms.Resolution s.binds ρ)
    (ht : s.Scopes t) (out : List Nat) :
    s.freeVars t out = some (collect out (t.subst ρ).vars) := by
  induction hn : sizeOf (t.subst ρ) using Nat.strong_induction_on generalizing t out with
  | h n ih =>
      subst hn
      obtain ⟨t', hfollows⟩ := shallow_spec hs ht
      have hchildren : ∀ child ∈ t'.children, ∀ out,
          s.freeVars child out = some (collect out (child.subst ρ).vars) := by
        intro child hchild out
        exact ih _ (hfollows.sizeOf_child hρ hchild) (hfollows.inScope.child hchild) out rfl
      rw [← hfollows.same hρ.bound]
      rw [freeVars.eq_def, hfollows.shallow]
      cases t' with
      | var id =>
          rw [hfollows.settled.resolved hρ rfl]
          rfl
      | function params result =>
          have hparams := freeVarsAll_eq
            (fun param (hparam : param ∈ params) =>
              hchildren param (by simp [Ty.children, hparam])) out
          have hresult := hchildren result (by simp [Ty.children])
          simp [hparams, hresult, Ty.subst, Ty.vars, collect_append]
      | map key value =>
          have hkey := hchildren key (by simp [Ty.children])
          have hvalue := hchildren value (by simp [Ty.children])
          simp [hkey, hvalue, Ty.subst, Ty.vars, collect_append]
      | pair first second =>
          have hfirst := hchildren first (by simp [Ty.children])
          have hsecond := hchildren second (by simp [Ty.children])
          simp [hfirst, hsecond, Ty.subst, Ty.vars, collect_append]
      | list inner | option inner | remote inner => exact hchildren inner List.mem_cons_self out
      | _ => simp [Ty.subst, Ty.vars, collect]

end FreeVars

section Assigns

/-- One assignment to a free variable: a type that its constraint admits, another free
variable that takes the meet of the two constraints, or a narrower constraint. -/
inductive Assigns : Solver → Solver → Prop
  | bind {s : Solver} {id : Nat} {t : Ty} {constraint : Constraint} :
      s.bindings[id]? = some none → t.isVar = false → s.constraints[id]? = some constraint →
      constraint.admits t = true →
      Assigns s { s with bindings := s.bindings.set id (some t) }
  | merge {s : Solver} {a b : Nat} {ca cb narrowed : Constraint} :
      s.bindings[a]? = some none → s.bindings[b]? = some none → a ≠ b →
      s.constraints[a]? = some ca → s.constraints[b]? = some cb → ca.meet cb = some narrowed →
      Assigns s ⟨s.bindings.set a (some (.var b)), s.constraints.set b narrowed⟩
  | narrow {s : Solver} {id : Nat} {constraint narrowed : Constraint} :
      s.bindings[id]? = some none → s.constraints[id]? = some constraint →
      narrowed.Narrower constraint →
      Assigns s { s with constraints := s.constraints.set id narrowed }

abbrev AssignsAll : Solver → Solver → Prop := Relation.ReflTransGen Assigns

variable {s s' : Solver} {result : Except Mismatch Unit}

theorem shallow_settled {t t' : Ty} (h : s.shallow t = some t') : s.Settled t' := by
  refine shallow.partial_correctness s (fun _ t' => s.Settled t') ?_ t t' h
  intro next ih a r hnext
  split at hnext
  · split at hnext
    · cases hnext
    · rename_i id hfree
      cases hnext
      rintro other ⟨⟩
      exact hfree
    · exact ih _ _ hnext
  · rename_i hvar
    cases hnext
    rintro id rfl
    exact absurd rfl (hvar id)

theorem isVar_eq_false {t : Ty} (h : ∀ id, t = .var id → False) : t.isVar = false := by
  cases t with
  | var id => exact absurd rfl (h id)
  | _ => rfl

theorem bind_assigns {id : Nat} {t : Ty} (hfree : s.bindings[id]? = some none)
    (hvar : t.isVar = false) (h : s.bind id t = some (s', result)) : AssignsAll s s' := by
  simp only [Solver.bind, Option.bind_eq_bind, Option.bind_eq_some_iff] at h
  obtain ⟨occurs, -, h⟩ := h
  cases occurs with
  | true =>
      rw [if_pos rfl] at h
      cases h
      exact .refl
  | false =>
      simp only [Bool.false_eq_true, if_false, Option.bind_eq_some_iff] at h
      obtain ⟨constraint, hconstraint, h⟩ := h
      split_ifs at h with hadmits
      · cases h
        exact .single (.bind hfree hvar hconstraint hadmits)
      · cases h
        exact .refl

theorem merge_assigns {a b : Nat} (ha : s.bindings[a]? = some none)
    (hb : s.bindings[b]? = some none) (hab : a ≠ b) (h : s.merge a b = some (s', result)) :
    AssignsAll s s' := by
  simp only [merge, Option.bind_eq_bind, Option.bind_eq_some_iff] at h
  obtain ⟨needed, hneeded, other, hother, h⟩ := h
  split at h
  · rename_i narrowed hmeet
    cases h
    exact .single (.merge ha hb hab hneeded hother hmeet)
  · cases h
    exact .refl

theorem assigns_both {first : Result} {second : Solver → Result}
    (hfirst : ∀ r, first = some r → AssignsAll s r.1)
    (hsecond : ∀ s₁ r, second s₁ = some r → AssignsAll s₁ r.1) {r : Solver × Except Mismatch Unit}
    (h : (do
      match ← first with
      | (s, .ok _) => second s
      | (s, .error mismatch) => return (s, .error mismatch)) = some r) : AssignsAll s r.1 := by
  simp only [Option.bind_eq_bind, Option.bind_eq_some_iff] at h
  obtain ⟨⟨s₁, result⟩, hr, h⟩ := h
  cases result with
  | ok _ => exact (hfirst _ hr).trans (hsecond _ _ h)
  | error mismatch =>
      cases h
      exact hfirst _ hr

theorem unify_assigns {l r : Ty} (h : s.unify l r = some (s', result)) : AssignsAll s s' := by
  have hboth := unify.mutual_partial_correctness (fun s _ _ r => AssignsAll s r.1)
    (fun s _ _ r => AssignsAll s r.1) ?_ ?_
  · exact hboth.1 s l r _ h
  · intro unify unifyEach ih ihEach s left right r hr
    simp only [Option.bind_eq_bind, Option.bind_eq_some_iff] at hr
    obtain ⟨left, hleft, right, hright, hr⟩ := hr
    have hl := shallow_settled hleft
    have hr' := shallow_settled hright
    split at hr
    case h_5 a b =>
      split_ifs at hr with hab
      · cases hr
        exact .refl
      · exact merge_assigns (hl a rfl) (hr' b rfl) hab hr
    case h_6 id _ _ hvar => exact bind_assigns (hl id rfl) (isVar_eq_false hvar) hr
    case h_7 id _ _ hvar => exact bind_assigns (hr' id rfl) (isVar_eq_false hvar) hr
    case h_23 =>
      split_ifs at hr
      · exact assigns_both (fun r hr => ihEach _ _ _ r hr) (fun s₁ r hr => ih s₁ _ _ r hr) hr
      · cases hr
        exact .refl
    all_goals first
      | exact ih _ _ _ r hr
      | exact assigns_both (fun r hr => ih _ _ _ r hr) (fun s₁ r hr => ih s₁ _ _ r hr) hr
      | (cases hr; exact .refl)
      | (split_ifs at hr <;> cases hr <;> exact .refl)
  · intro unify unifyEach ih ihEach s lefts rights r hr
    split at hr
    · exact assigns_both (fun r hr => ih _ _ _ r hr) (fun s₁ r hr => ihEach s₁ _ _ r hr) hr
    · cases hr
      exact .refl

theorem require_assigns {t : Ty} {constraint : Constraint}
    (h : s.require t constraint = some (s', result)) : AssignsAll s s' := by
  simp only [Solver.require, Option.bind_eq_bind, Option.bind_eq_some_iff] at h
  obtain ⟨t', ht', h⟩ := h
  split at h
  · cases h
    exact .refl
  · rename_i id
    simp only [Option.bind_eq_some_iff] at h
    obtain ⟨found, hfound, h⟩ := h
    split at h
    · rename_i narrowed hmeet
      cases h
      exact .single (.narrow (shallow_settled ht' id rfl) hfound
        (Constraint.meet_narrower hmeet).1)
    · cases h
      exact .refl
  · split_ifs at h <;> cases h <;> exact .refl

theorem defaultOne_assigns (s : Solver) (id : Nat) : AssignsAll s (s.defaultOne id) := by
  unfold defaultOne
  split
  · rename_i constraint hfree hconstraint
    split
    · rename_i default hdefault
      obtain ⟨hadmits, hvar⟩ := Constraint.defaultType_admitted hdefault
      exact .single (.bind hfree hvar hconstraint hadmits)
    · exact .refl
  · exact .refl

theorem defaultUnconstrained_assigns (s : Solver) : AssignsAll s s.defaultUnconstrained := by
  unfold defaultUnconstrained
  induction List.range s.bindings.length generalizing s with
  | nil => exact .refl
  | cons id ids ih => exact (defaultOne_assigns s id).trans (ih _)

end Assigns

section Linked

/-- What a variable is bound to is admitted by its constraint, or is a variable whose
constraint is at least as narrow. -/
def Linked (s : Solver) : Prop :=
  ∀ v t constraint, s.binds v = some t → s.constraints[v]? = some constraint →
    (t.isVar = false ∧ constraint.admits t = true) ∨
      ∃ u narrow, t = .var u ∧ s.constraints[u]? = some narrow ∧ narrow.Narrower constraint

variable {s s' : Solver}

theorem Linked.narrow (h : s.Linked) {id : Nat} {old narrowed : Constraint}
    (hfree : s.bindings[id]? = some none) (hold : s.constraints[id]? = some old)
    (hnarrower : narrowed.Narrower old) :
    Linked { s with constraints := s.constraints.set id narrowed } := by
  intro v t constraint hv hconstraint
  have hvid : v ≠ id := by
    rintro rfl
    cases hv.symm.trans (binds_none_of_getElem? hfree)
  rw [List.getElem?_set_ne hvid.symm] at hconstraint
  rcases h _ _ _ hv hconstraint with hadmits | ⟨u, narrow, rfl, hnarrow, hle⟩
  · exact .inl hadmits
  · refine .inr ?_
    by_cases hu : u = id
    · subst hu
      obtain rfl := Option.some.inj (hold.symm.trans hnarrow)
      obtain ⟨hlt, -⟩ := List.getElem?_eq_some_iff.mp hold
      exact ⟨u, narrowed, rfl, List.getElem?_set_self hlt, hnarrower.trans hle⟩
    · exact ⟨u, narrow, rfl, (List.getElem?_set_ne (Ne.symm hu)).trans hnarrow, hle⟩

theorem Linked.bind (h : s.Linked) {id : Nat} {t : Ty} (hfree : s.bindings[id]? = some none)
    (ht : ∀ constraint, s.constraints[id]? = some constraint →
      (t.isVar = false ∧ constraint.admits t = true) ∨
        ∃ u narrow, t = .var u ∧ s.constraints[u]? = some narrow ∧ narrow.Narrower constraint) :
    Linked { s with bindings := s.bindings.set id (some t) } := by
  intro v t' constraint hv hconstraint
  rw [binds_set hfree] at hv
  by_cases hvid : v = id
  · subst hvid
    rw [Function.update_self] at hv
    obtain rfl := Option.some.inj hv
    exact ht constraint hconstraint
  · rw [Function.update_of_ne hvid] at hv
    exact h _ _ _ hv hconstraint

theorem Assigns.linked (hassigns : Assigns s s') (h : s.Linked) : s'.Linked := by
  cases hassigns with
  | bind hfree hvar hconstraint hadmits =>
      refine h.bind hfree ?_
      intro constraint hconstraint'
      obtain rfl := Option.some.inj (hconstraint.symm.trans hconstraint')
      exact .inl ⟨hvar, hadmits⟩
  | narrow hfree hold hnarrower => exact h.narrow hfree hold hnarrower
  | @merge a b ca cb narrowed ha hb hab hca hcb hmeet =>
      obtain ⟨hna, hnb⟩ := Constraint.meet_narrower hmeet
      have hnarrowed := h.narrow hb hcb hnb
      refine Linked.bind (s := { s with constraints := s.constraints.set b narrowed })
        hnarrowed ha ?_
      intro constraint hconstraint
      rw [List.getElem?_set_ne hab.symm, hca] at hconstraint
      obtain rfl := Option.some.inj hconstraint
      obtain ⟨hlt, -⟩ := List.getElem?_eq_some_iff.mp hcb
      exact .inr ⟨b, narrowed, rfl, List.getElem?_set_self hlt, hna⟩

theorem AssignsAll.linked (hassigns : AssignsAll s s') (h : s.Linked) : s'.Linked := by
  induction hassigns with
  | refl => exact h
  | tail _ hone ih => exact hone.linked ih

theorem lt_of_binds {v : Nat} {t : Ty} (h : s.binds v = some t) : v < s.bindings.length := by
  by_contra hge
  rw [binds, List.getElem?_eq_none (Nat.le_of_not_lt hge)] at h
  cases h

variable {constraint : Constraint}

theorem WellFormed.free_of_binds (hs : s.WellFormed) {v : Nat}
    (hconstraint : s.constraints[v]? = some constraint) (h : s.binds v = none) :
    s.bindings[v]? = some none := by
  obtain ⟨hlt, -⟩ := List.getElem?_eq_some_iff.mp hconstraint
  rw [hs.lengths] at hlt
  rw [binds, List.getElem?_eq_getElem hlt] at h
  rw [List.getElem?_eq_getElem hlt]
  exact congrArg some h

theorem freshConstrained_linked (h : s.Linked) (hs : s.WellFormed) {t : Ty}
    (hfresh : s.freshConstrained constraint = some (s', t)) :
    s'.Linked := by
  unfold freshConstrained at hfresh
  split_ifs at hfresh
  cases hfresh
  intro v t wide hv hwide
  rw [binds_concat] at hv
  have hlt : v < s.constraints.length := by
    rw [hs.lengths]
    exact lt_of_binds hv
  rw [List.getElem?_append_left hlt] at hwide
  rcases h v t wide hv hwide with hadmits | ⟨u, narrow, rfl, hnarrow, hle⟩
  · exact .inl hadmits
  · obtain ⟨hu, -⟩ := List.getElem?_eq_some_iff.mp hnarrow
    exact .inr ⟨u, narrow, rfl, (List.getElem?_append_left hu).trans hnarrow, hle⟩

theorem Reachable.linked {equations : List (Ty × Ty)} (h : Reachable s equations) :
    s.Linked := by
  induction h with
  | new =>
      intro v t constraint hv
      cases hv
  | fresh hreach hfresh ih => exact freshConstrained_linked ih hreach.sound.wellFormed hfresh
  | freshConstrained hreach hfresh ih =>
      exact freshConstrained_linked ih hreach.sound.wellFormed hfresh
  | require _ _ hrequire ih => exact (require_assigns hrequire).linked ih
  | accepted _ _ _ hunify ih => exact (unify_assigns hunify).linked ih
  | refused _ _ _ hunify ih => exact (unify_assigns hunify).linked ih
  | defaultUnconstrained _ ih => exact (defaultUnconstrained_assigns _).linked ih

end Linked

section Acyclic

variable {s : Solver} {equations : List (Ty × Ty)}

def Leads (s : Solver) (v u : Nat) : Prop := ∃ t, s.binds v = some t ∧ u ∈ t.vars

theorem WellFormed.no_cycle (hs : s.WellFormed) (v : Nat) :
    ¬ Relation.TransGen s.Leads v v := by
  obtain ⟨rank, hrank⟩ := hs.acyclic
  have hdown {v u : Nat} (h : Relation.TransGen s.Leads v u) : rank u < rank v := by
    induction h with
    | single hstep =>
        obtain ⟨t, ht, hu⟩ := hstep
        exact hrank v t ht _ hu
    | tail _ hstep ih =>
        obtain ⟨t, ht, hu⟩ := hstep
        exact (hrank _ t ht _ hu).trans ih
  exact fun h => Nat.lt_irrefl _ (hdown h)

theorem Linked.resolved (h : s.Linked) (hs : s.WellFormed) {ρ : Nat → Ty}
    (hρ : Ty.terms.Resolution s.binds ρ) {v : Nat} {t : Ty} {constraint : Constraint}
    (hv : s.binds v = some t) (hconstraint : s.constraints[v]? = some constraint) :
    ((ρ v).isVar = false ∧ constraint.admits (ρ v) = true) ∨
      ∃ u narrow, ρ v = .var u ∧ s.bindings[u]? = some none ∧
        s.constraints[u]? = some narrow ∧ narrow.Narrower constraint := by
  induction v using hs.acyclic.induct generalizing t constraint with
  | step v ih =>
      have hρv : ρ v = t.subst ρ := hρ.bound v t hv
      rcases h _ _ _ hv hconstraint with ⟨hvar, hadmits⟩ | ⟨u, narrow, rfl, hnarrow, hle⟩
      · rw [hρv]
        exact .inl ⟨Ty.isVar_subst hvar ρ, (admits_subst hvar constraint ρ).trans hadmits⟩
      · rw [show ρ v = ρ u from hρv]
        cases hu : s.binds u with
        | none =>
            exact .inr ⟨u, narrow, hρ.free u hu, hs.free_of_binds hnarrow hu, hnarrow, hle⟩
        | some bound =>
            rcases ih _ hv u (List.mem_singleton_self u) hu hnarrow with
              ⟨hvar, hadmits⟩ | ⟨w, last, hw, hfree, hlast, hle'⟩
            · exact .inl ⟨hvar, hle.admits hadmits⟩
            · exact .inr ⟨w, last, hw, hfree, hlast, hle'.trans hle⟩

/-- In every state a solver gets into, also by unifications that failed half way, no variable
reaches itself through the bindings, and what a bound variable is resolved to is admitted by
its constraint or is a free variable with a constraint at least as narrow.  Whatever follows
the bindings comes to an end. -/
theorem reachable_acyclic (h : Reachable s equations) :
    (∀ v, ¬ Relation.TransGen s.Leads v v) ∧
      (∀ v t, s.binds v = some t → ∃ constraint resolved,
        s.constraints[v]? = some constraint ∧ s.zonk (.var v) = some resolved ∧
          ((resolved.isVar = false ∧ constraint.admits resolved = true) ∨
            ∃ u narrow, resolved = .var u ∧ s.bindings[u]? = some none ∧
              s.constraints[u]? = some narrow ∧ narrow.Narrower constraint)) ∧
      (∀ t, s.Scopes t → (s.shallow t).isSome ∧ (s.zonk t).isSome ∧
        (∀ id, (s.occurs id t).isSome) ∧ ∀ out, (s.freeVars t out).isSome) ∧
      ∀ l r, s.Scopes l → s.Scopes r → (s.unify l r).isSome := by
  have hs := h.sound.wellFormed
  obtain ⟨ρ, hρ⟩ := hs.exists_resolution
  refine ⟨hs.no_cycle, ?_, ?_, ?_⟩
  · intro v t hv
    have hlt : v < s.constraints.length := by
      rw [hs.lengths]
      exact lt_of_binds hv
    have hscope : s.Scopes (.var v) := by
      intro u hu
      rw [List.mem_singleton.mp hu]
      exact lt_of_binds hv
    have hconstraint := List.getElem?_eq_getElem hlt
    exact ⟨_, ρ v, hconstraint, zonk_spec hs hρ hscope,
      h.linked.resolved hs hρ hv hconstraint⟩
  · intro t ht
    obtain ⟨t', hfollows⟩ := shallow_spec hs ht
    refine ⟨?_, ?_, ?_, ?_⟩
    · rw [hfollows.shallow]
      rfl
    · rw [zonk_spec hs hρ ht]
      rfl
    · intro id
      rw [occurs_spec hs hρ ht]
      rfl
    · intro out
      rw [freeVars_spec hs hρ ht]
      rfl
  · intro l r hl hr
    obtain ⟨s', result, hunify, -⟩ := unify_spec hs hl hr
    rw [hunify]
    rfl

def mergedVariables : Solver := ⟨[some (.var 1), none], [.any, .numeric]⟩

theorem scopes_mergedVariables (v : Nat) (hv : v < 2) : mergedVariables.Scopes (.var v) := by
  intro u hu
  rw [List.mem_singleton.mp hu]
  exact hv

theorem reachable_mergedVariables : Reachable mergedVariables [(.var 0, .var 1)] := by
  refine reachable_twoVariables.accepted (scopes_mergedVariables 0 (by omega))
    (scopes_mergedVariables 1 (by omega)) ?_
  rw [unify.eq_def, shallow_free rfl, shallow_free rfl]
  rfl

theorem mergedVariables_acyclic :
    ¬ Relation.TransGen mergedVariables.Leads 0 0 ∧
      (∃ constraint resolved, mergedVariables.constraints[0]? = some constraint ∧
        mergedVariables.zonk (.var 0) = some resolved ∧
        ((resolved.isVar = false ∧ constraint.admits resolved = true) ∨
          ∃ u narrow, resolved = .var u ∧ mergedVariables.bindings[u]? = some none ∧
            mergedVariables.constraints[u]? = some narrow ∧ narrow.Narrower constraint)) ∧
      (mergedVariables.zonk (.var 0)).isSome ∧
      (mergedVariables.unify (.var 0) (.var 1)).isSome := by
  obtain ⟨hcycle, hbound, hends, hunify⟩ := reachable_acyclic reachable_mergedVariables
  have hscope := scopes_mergedVariables
  exact ⟨hcycle 0, hbound 0 (.var 1) rfl, (hends _ (hscope 0 (by omega))).2.1,
    hunify _ _ (hscope 0 (by omega)) (hscope 1 (by omega))⟩

end Acyclic

end Solver

end Types
end Zdeceptron
