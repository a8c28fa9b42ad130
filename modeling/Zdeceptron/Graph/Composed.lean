import Zdeceptron.Graph.LeastSummaries

/-!
# Composing function summaries

A summary is a symbol over the parameters of its function, and a call puts the symbols of its
arguments in their place.  Doing so twice is doing it once with the arguments of the inner call
already filled in, so the summary of a caller needs no second fixpoint.
-/

namespace Zdeceptron
namespace Graph

namespace Sym

variable {s t : Sym} {args args' kept : List SymLabel}

/-- Whatever the arguments are worth, `t` is at least as secret as `s`. -/
def Below (s t : Sym) : Prop :=
  ∀ args, (s.instantiate args).concrete ≤ (t.instantiate args).concrete

theorem ofFloor_sup (a b : Secrecy) : ofFloor (a ⊔ b) = ofFloor a ⊔ ofFloor b := rfl

theorem instantiate_ofFloor (a : Secrecy) (args : List SymLabel) :
    (ofFloor a).instantiate args = ofFloor a :=
  sup_bot_eq (ofFloor a)

theorem instantiate_sup (s t : Sym) (args : List SymLabel) :
    (s ⊔ t).instantiate args = s.instantiate args ⊔ t.instantiate args := by
  unfold instantiate
  rw [sup_floor, sup_deps, ofFloor_sup, Finset.sup_union, sup_sup_sup_comm]

theorem instantiate_finsetSup (deps : Finset (Nat × Obs)) (f : Nat × Obs → Sym)
    (args : List SymLabel) :
    (deps.sup f).instantiate args = deps.sup (fun dep => (f dep).instantiate args) :=
  Finset.apply_sup_eq_sup_comp (fun s : Sym => s.instantiate args)
    (fun s t => instantiate_sup s t args) (instantiate_ofFloor .public_ args)

theorem argumentAt_map (args args' : List SymLabel) (dep : Nat × Obs) :
    argumentAt (args.map (fun arg => arg.instantiate args')) dep =
      (argumentAt args dep).instantiate args' := by
  obtain ⟨param, obs⟩ := dep
  unfold argumentAt
  rw [List.getElem?_map]
  cases args[param]? with
  | none => exact (instantiate_ofFloor .secret args').symm
  | some arg => cases obs <;> rfl

theorem instantiate_instantiate (s : Sym) (args args' : List SymLabel) :
    (s.instantiate args).instantiate args' =
      s.instantiate (args.map (fun arg => arg.instantiate args')) := by
  have hargs : argumentAt (args.map (fun arg => arg.instantiate args')) =
      fun dep => (argumentAt args dep).instantiate args' :=
    funext (argumentAt_map args args')
  calc (s.instantiate args).instantiate args'
      = (ofFloor s.floor).instantiate args' ⊔ (s.deps.sup (argumentAt args)).instantiate args' :=
        instantiate_sup _ _ _
    _ = s.instantiate (args.map (fun arg => arg.instantiate args')) := by
        rw [instantiate_ofFloor, instantiate_finsetSup, instantiate, hargs]

theorem logical_le : Logical (· ≤ ·) where
  ofFloor _ := le_rfl
  sup h k := sup_le_sup h k

theorem instantiate_le (h : s ≤ t) (hargs : List.Forall₂ (· ≤ ·) args args') :
    s.instantiate args ≤ t.instantiate args' := by
  have hrel := hargs.imp (fun _ _ harg => LabelRel.mk harg.1 harg.2.1 harg.2.2)
  exact (instantiate_mono h args).trans (logical_le.instantiate hrel t)

theorem concrete_instantiate (s : Sym) (args : List SymLabel) :
    (s.instantiate args).concrete =
      s.floor ⊔ s.deps.sup (fun dep => (argumentAt args dep).concrete) := by
  have hdeps : (s.deps.sup (argumentAt args)).concrete = _ :=
    Finset.apply_sup_eq_sup_comp concrete (fun _ _ => rfl) rfl
  exact congrArg (s.floor ⊔ ·) hdeps

theorem argumentAt_prefix (h : kept <+: args) (dep : Nat × Obs) :
    argumentAt kept dep = argumentAt args dep ∨ argumentAt kept dep = ofFloor .secret := by
  obtain ⟨rest, rfl⟩ := h
  unfold argumentAt
  obtain hlt | hge := Nat.lt_or_ge dep.1 kept.length
  · rw [List.getElem?_append_left hlt]
    exact .inl rfl
  · rw [List.getElem?_eq_none hge]
    exact .inr rfl

theorem instantiate_below (s : Sym) (h : kept <+: args) :
    (s.instantiate args).Below (s.instantiate kept) := by
  intro args'
  rw [instantiate_instantiate, instantiate_instantiate, concrete_instantiate, concrete_instantiate]
  refine sup_le_sup le_rfl (Finset.sup_mono_fun (fun dep _ => ?_))
  rw [argumentAt_map, argumentAt_map]
  obtain hkept | hmissing := argumentAt_prefix h dep
  · rw [hkept]
  · rw [hmissing, instantiate_ofFloor]
    exact .inr rfl

end Sym

theorem SymLabel.instantiate_instantiate (label : SymLabel) (args args' : List SymLabel) :
    (label.instantiate args).instantiate args' =
      label.instantiate (args.map (fun arg => arg.instantiate args')) :=
  SymLabel.ext (Sym.instantiate_instantiate _ _ _) (Sym.instantiate_instantiate _ _ _)
    (Sym.instantiate_instantiate _ _ _)

/-- Substitution composes, distributes over joins and is monotone, and a call that leaves out
arguments is only taken for more secret. -/
theorem substitution_composes :
    (∀ (s : Sym) (args args' : List SymLabel), (s.instantiate args).instantiate args' =
      s.instantiate (args.map (fun arg => arg.instantiate args'))) ∧
    (∀ (label : SymLabel) (args args' : List SymLabel),
      (label.instantiate args).instantiate args' =
        label.instantiate (args.map (fun arg => arg.instantiate args'))) ∧
    (∀ (s t : Sym) (args : List SymLabel),
      (s.join t).instantiate args = (s.instantiate args).join (t.instantiate args)) ∧
    (∀ (s t : Sym) (args args' : List SymLabel), s ≤ t → List.Forall₂ (· ≤ ·) args args' →
      s.instantiate args ≤ t.instantiate args') ∧
    ∀ (s : Sym) (args kept : List SymLabel), kept <+: args →
      (s.instantiate args).Below (s.instantiate kept) :=
  ⟨Sym.instantiate_instantiate, SymLabel.instantiate_instantiate, Sym.instantiate_sup,
    fun _ _ _ _ => Sym.instantiate_le, fun s _ _ => s.instantiate_below⟩

end Graph
end Zdeceptron
