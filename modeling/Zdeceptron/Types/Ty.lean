import Zdeceptron.Library.Triangular

/-!
# Types

The types, and the small closed set of built-in constraints.  A type is read through its
outermost shape and its children; variables stand for types, and an assignment puts types
in their place.
-/

namespace Zdeceptron
namespace Types

open Library

section Types

inductive EventPayload
  | pointer
  | edit
  | key
  | focus
  | submit
deriving DecidableEq

inductive Ty
  | text
  | markup
  | whole
  | decimal
  | truth
  | error
  | handle
  | code
  | event (payload : EventPayload)
  | named (name : String)
  | list (inner : Ty)
  | map (key value : Ty)
  | pair (first second : Ty)
  | option (inner : Ty)
  | remote (inner : Ty)
  | function (params : List Ty) (result : Ty)
  | var (id : Nat)
  | unknown
  | nothing

namespace Ty

def children : Ty → List Ty
  | list inner => [inner]
  | map key value => [key, value]
  | pair first second => [first, second]
  | option inner => [inner]
  | remote inner => [inner]
  | function params result => params ++ [result]
  | _ => []

def shape : Ty → Ty
  | list _ => list text
  | map _ _ => map text text
  | pair _ _ => pair text text
  | option _ => option text
  | remote _ => remote text
  | function params _ => function (params.map (fun _ => text)) text
  | t => t

def isVar : Ty → Bool
  | var _ => true
  | _ => false

theorem sizeOf_child {t child : Ty} (h : child ∈ t.children) : sizeOf child < sizeOf t := by
  cases t with
  | function params result =>
      rw [children, List.mem_append, List.mem_singleton] at h
      rcases h with h | rfl
      · have := List.sizeOf_lt_of_mem h
        simp only [function.sizeOf_spec]
        omega
      · simp only [function.sizeOf_spec]
        omega
  | list _ | option _ | remote _ =>
      rw [children, List.mem_singleton] at h
      subst h
      simp
  | map key value =>
      rw [children, List.mem_pair] at h
      rcases h with rfl | rfl
      · simp only [map.sizeOf_spec]
        omega
      · simp only [map.sizeOf_spec]
        omega
  | pair first second =>
      rw [children, List.mem_pair] at h
      rcases h with rfl | rfl
      · simp only [pair.sizeOf_spec]
        omega
      · simp only [pair.sizeOf_spec]
        omega
  | _ => cases h

theorem byChildren {P : Ty → Prop} (h : ∀ t, (∀ child ∈ t.children, P child) → P t) (t : Ty) :
    P t := by
  induction hn : sizeOf t using Nat.strong_induction_on generalizing t with
  | h n ih =>
      subst hn
      refine h t ?_
      intro child hchild
      exact ih _ (sizeOf_child hchild) child rfl

theorem ext_children {t t' : Ty} (hshape : t.shape = t'.shape)
    (hchildren : t.children = t'.children) : t = t' := by
  cases t <;> cases t' <;> simp_all [shape, children]

mutual

def subst (σ : Nat → Ty) : Ty → Ty
  | list inner => list (inner.subst σ)
  | map key value => map (key.subst σ) (value.subst σ)
  | pair first second => pair (first.subst σ) (second.subst σ)
  | option inner => option (inner.subst σ)
  | remote inner => remote (inner.subst σ)
  | function params result => function (substAll σ params) (result.subst σ)
  | var id => σ id
  | text => text
  | markup => markup
  | whole => whole
  | decimal => decimal
  | truth => truth
  | error => error
  | handle => handle
  | code => code
  | event payload => event payload
  | named name => named name
  | unknown => unknown
  | nothing => nothing

def substAll (σ : Nat → Ty) : List Ty → List Ty
  | [] => []
  | t :: ts => t.subst σ :: substAll σ ts

end

theorem substAll_eq_map (σ : Nat → Ty) (ts : List Ty) : substAll σ ts = ts.map (subst σ) := by
  induction ts with
  | nil => rfl
  | cons t ts ih => rw [substAll, ih, List.map_cons]

mutual

def vars : Ty → List Nat
  | list inner => inner.vars
  | map key value => key.vars ++ value.vars
  | pair first second => first.vars ++ second.vars
  | option inner => inner.vars
  | remote inner => inner.vars
  | function params result => varsAll params ++ result.vars
  | var id => [id]
  | _ => []

def varsAll : List Ty → List Nat
  | [] => []
  | t :: ts => t.vars ++ varsAll ts

end

theorem varsAll_eq_flatMap (ts : List Ty) : varsAll ts = ts.flatMap vars := by
  induction ts with
  | nil => rfl
  | cons t ts ih => rw [varsAll, ih, List.flatMap_cons]

variable {t : Ty}

theorem vars_children (h : t.isVar = false) : t.vars = t.children.flatMap vars := by
  cases t with
  | var id => cases h
  | function params result => simp [vars, children, varsAll_eq_flatMap]
  | _ => simp [vars, children]

theorem shape_subst (h : t.isVar = false) (σ : Nat → Ty) :
    (t.subst σ).shape = t.shape := by
  cases t with
  | var id => cases h
  | function params result => simp [subst, shape, substAll_eq_map, Function.comp_def]
  | _ => rfl

theorem children_subst (h : t.isVar = false) (σ : Nat → Ty) :
    (t.subst σ).children = t.children.map (subst σ) := by
  cases t with
  | var id => cases h
  | function params result => simp [subst, children, substAll_eq_map]
  | _ => rfl

theorem isVar_subst (h : t.isVar = false) (σ : Nat → Ty) :
    (t.subst σ).isVar = false := by
  cases t with
  | var id => cases h
  | _ => rfl

theorem isVar_eq_true (h : t.isVar = true) : ∃ id, t = var id := by
  cases t with
  | var id => exact ⟨id, rfl⟩
  | _ => cases h

theorem mem_vars_of_child {t child : Ty} {v : Nat} (hchild : child ∈ t.children)
    (hv : v ∈ child.vars) : v ∈ t.vars := by
  cases hvar : t.isVar with
  | true =>
      obtain ⟨id, rfl⟩ := isVar_eq_true hvar
      cases hchild
  | false =>
      rw [vars_children hvar]
      exact List.mem_flatMap.mpr ⟨child, hchild, hv⟩

theorem subst_congr {σ τ : Nat → Ty} (h : ∀ v ∈ t.vars, σ v = τ v) :
    t.subst σ = t.subst τ := by
  induction t using byChildren with
  | h t ih =>
      cases hvar : t.isVar with
      | true =>
          obtain ⟨id, rfl⟩ := isVar_eq_true hvar
          exact h id (List.mem_singleton_self id)
      | false =>
          refine ext_children ?_ ?_
          · rw [shape_subst hvar, shape_subst hvar]
          · rw [children_subst hvar, children_subst hvar]
            refine List.map_congr_left ?_
            intro child hchild
            refine ih child hchild ?_
            intro v hv
            rw [vars_children hvar] at h
            exact h v (List.mem_flatMap.mpr ⟨child, hchild, hv⟩)

theorem subst_subst (σ τ : Nat → Ty) (t : Ty) :
    (t.subst τ).subst σ = t.subst (fun v => (τ v).subst σ) := by
  induction t using byChildren with
  | h t ih =>
      cases hvar : t.isVar with
      | true =>
          obtain ⟨id, rfl⟩ := isVar_eq_true hvar
          rfl
      | false =>
          have hvar' := isVar_subst hvar τ
          refine ext_children ?_ ?_
          · rw [shape_subst hvar', shape_subst hvar, shape_subst hvar]
          · rw [children_subst hvar', children_subst hvar, children_subst hvar, List.map_map]
            exact List.map_congr_left ih

variable {σ : Nat → Ty}

theorem mem_vars_subst {u : Nat} :
    u ∈ (t.subst σ).vars ↔ ∃ v ∈ t.vars, u ∈ (σ v).vars := by
  induction t using byChildren with
  | h t ih =>
      cases hvar : t.isVar with
      | true =>
          obtain ⟨id, rfl⟩ := isVar_eq_true hvar
          simp [subst, vars]
      | false =>
          rw [vars_children (isVar_subst hvar σ), children_subst hvar, vars_children hvar]
          simp only [List.mem_flatMap, List.mem_map]
          constructor
          · rintro ⟨_, ⟨child, hchild, rfl⟩, hu⟩
            obtain ⟨v, hv, hu⟩ := (ih child hchild).mp hu
            exact ⟨v, ⟨child, hchild, hv⟩, hu⟩
          · rintro ⟨v, ⟨child, hchild, hv⟩, hu⟩
            exact ⟨_, ⟨child, hchild, rfl⟩, (ih child hchild).mpr ⟨v, hv, hu⟩⟩

theorem sizeOf_subst_le {v : Nat} (h : v ∈ t.vars) :
    sizeOf (σ v) ≤ sizeOf (t.subst σ) := by
  induction t using byChildren with
  | h t ih =>
      cases hvar : t.isVar with
      | true =>
          obtain ⟨id, rfl⟩ := isVar_eq_true hvar
          rw [List.mem_singleton.mp h]
          exact Nat.le_refl _
      | false =>
          rw [vars_children hvar, List.mem_flatMap] at h
          obtain ⟨child, hchild, hv⟩ := h
          have hle := ih child hchild hv
          have hmem : child.subst σ ∈ (t.subst σ).children := by
            rw [children_subst hvar]
            exact List.mem_map_of_mem hchild
          have hlt := sizeOf_child hmem
          omega

mutual

/-- Neither `Unknown` nor `Nothing` occurs. -/
def isPlain : Ty → Bool
  | list inner => inner.isPlain
  | map key value => key.isPlain && value.isPlain
  | pair first second => first.isPlain && second.isPlain
  | option inner => inner.isPlain
  | remote inner => inner.isPlain
  | function params result => allPlain params && result.isPlain
  | unknown => false
  | nothing => false
  | _ => true

def allPlain : List Ty → Bool
  | [] => true
  | t :: ts => t.isPlain && allPlain ts

end

theorem allPlain_eq_true {ts : List Ty} :
    allPlain ts = true ↔ ∀ t ∈ ts, t.isPlain = true := by
  induction ts with
  | nil => simp [allPlain]
  | cons t ts ih => simp [allPlain, ih]

theorem isPlain_child {t child : Ty} (h : t.isPlain = true) (hchild : child ∈ t.children) :
    child.isPlain = true := by
  cases t <;> simp_all [isPlain, children, allPlain_eq_true]
  · rcases hchild with rfl | rfl
    · exact h.1
    · exact h.2
  · rcases hchild with rfl | rfl
    · exact h.1
    · exact h.2
  · rcases hchild with hchild | rfl
    · exact h.1 child hchild
    · exact h.2

theorem isPlain_subst (h : t.isPlain = true)
    (hσ : ∀ v ∈ t.vars, (σ v).isPlain = true) : (t.subst σ).isPlain = true := by
  induction t using byChildren with
  | h t ih =>
      have hchild : ∀ child ∈ t.children, (child.subst σ).isPlain = true := by
        intro child hmem
        refine ih child hmem (isPlain_child h hmem) ?_
        exact fun v hv => hσ v (mem_vars_of_child hmem hv)
      cases t with
      | var id => exact hσ id (by simp [vars])
      | function params result =>
          simp only [subst, isPlain, Bool.and_eq_true, substAll_eq_map, allPlain_eq_true]
          refine ⟨?_, hchild result (by simp [children])⟩
          intro t ht
          obtain ⟨param, hparam, rfl⟩ := List.mem_map.mp ht
          exact hchild param (by simp [children, hparam])
      | map key value | pair key value =>
          simp only [subst, isPlain, Bool.and_eq_true]
          exact ⟨hchild key (by simp [children]), hchild value (by simp [children])⟩
      | list inner => exact hchild inner List.mem_cons_self
      | option inner => exact hchild inner List.mem_cons_self
      | remote inner => exact hchild inner List.mem_cons_self
      | _ => exact h

def terms : Terms Ty where
  var := var
  vars := vars
  subst := subst
  vars_var _ := rfl
  subst_var _ _ := rfl
  subst_congr := subst_congr
  subst_subst := subst_subst
  mem_vars_subst := mem_vars_subst

end Ty

end Types

section Constraints

inductive Constraint
  | any
  | shown
  | addable
  | numeric
  | collection
deriving DecidableEq

namespace Constraint

/-- Whether a concrete type satisfies a constraint.  `Nothing` satisfies none. -/
def admits (constraint : Constraint) (t : Ty) : Bool :=
  match t with
  | .nothing => false
  | _ =>
      match constraint, t with
      | .any, _ => true
      | .shown, .text | .shown, .whole | .shown, .decimal | .shown, .truth => true
      | .addable, .text | .addable, .whole | .addable, .decimal => true
      | .numeric, .whole | .numeric, .decimal => true
      | .collection, .list _ | .collection, .map _ _ => true
      | _, _ => false

def rank : Constraint → Nat
  | any => 0
  | shown => 1
  | addable => 2
  | numeric => 3
  | collection => 4

def meet (constraint other : Constraint) : Option Constraint :=
  if constraint = other then some constraint
  else
    match constraint, other with
    | any, c => some c
    | c, any => some c
    | collection, _ => none
    | _, collection => none
    | _, _ => some (if other.rank < constraint.rank then constraint else other)

/-- The type a variable becomes when nothing else has pinned it down. -/
def defaultType : Constraint → Option Ty
  | any => none
  | collection => none
  | shown => some .text
  | addable => some .whole
  | numeric => some .whole

theorem admits_shape (constraint : Constraint) (t : Ty) :
    constraint.admits t.shape = constraint.admits t := by
  cases t <;> cases constraint <;> rfl

theorem meet_admits {constraint other : Constraint} {t : Ty} (h : constraint.admits t = true)
    (h' : other.admits t = true) :
    ∃ narrowed, constraint.meet other = some narrowed ∧ narrowed.admits t = true := by
  cases constraint <;> cases other <;>
    first
      | exact ⟨_, rfl, h⟩
      | exact ⟨_, rfl, h'⟩
      | (cases t <;> first | (cases h; done) | cases h')

theorem admits_of_meet {constraint other narrowed : Constraint} {t : Ty}
    (hmeet : constraint.meet other = some narrowed) (h : narrowed.admits t = true) :
    constraint.admits t = true ∧ other.admits t = true := by
  cases constraint <;> cases other <;> cases hmeet <;> cases t <;>
    first
      | exact ⟨rfl, rfl⟩
      | cases h

theorem defaultType_plain {constraint : Constraint} {t : Ty}
    (h : constraint.defaultType = some t) : t.isPlain = true ∧ t.vars = [] := by
  cases constraint <;> cases h <;> exact ⟨rfl, rfl⟩

end Constraint

end Constraints

end Types
end Zdeceptron
