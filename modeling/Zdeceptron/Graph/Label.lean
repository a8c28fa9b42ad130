import Mathlib.Data.Finset.Lattice.Fold
import Mathlib.Data.Finset.Card
import Zdeceptron.Graph.Hir

/-!
# Labels of the information flow

A label says of each observation of a value what it may depend on: a level, and
observations of the parameters of the function it is computed in.
-/

namespace Zdeceptron
namespace Graph

section Levels

inductive Secrecy
  | public_
  | secret
deriving DecidableEq

namespace Secrecy

def join (s t : Secrecy) : Secrecy :=
  if s = .secret ∨ t = .secret then .secret else .public_

def flowsTo (s t : Secrecy) : Prop := s = .public_ ∨ t = .secret

instance : SemilatticeSup Secrecy where
  le := flowsTo
  le_refl s := by cases s <;> simp [flowsTo]
  le_trans s t u := by cases s <;> cases t <;> cases u <;> simp [flowsTo]
  le_antisymm s t := by cases s <;> cases t <;> simp [flowsTo]
  sup := join
  le_sup_left s t := by cases s <;> cases t <;> simp [flowsTo, join]
  le_sup_right s t := by cases s <;> cases t <;> simp [flowsTo, join]
  sup_le s t u := by cases s <;> cases t <;> cases u <;> simp [flowsTo, join]

instance : OrderBot Secrecy where
  bot := .public_
  bot_le _ := .inl rfl

def rank : Secrecy → Nat
  | .public_ => 0
  | .secret => 1

theorem rank_le {s t : Secrecy} (h : s ≤ t) : s.rank ≤ t.rank := by
  obtain rfl | rfl := h
  · exact Nat.zero_le _
  · cases s <;> decide

theorem rank_le_one (s : Secrecy) : s.rank ≤ 1 := by
  cases s <;> decide

theorem eq_of_rank_le {s t : Secrecy} (h : s ≤ t) (hrank : t.rank ≤ s.rank) : s = t := by
  obtain rfl | rfl := h
  · cases t with
    | public_ => rfl
    | secret => exact absurd hrank (by decide)
  · cases s with
    | public_ => exact absurd hrank (by decide)
    | secret => rfl

end Secrecy

inductive Obs
  | shape
  | value
  | failure
deriving DecidableEq

structure Label where
  shape : Secrecy
  value : Secrecy
  failure : Secrecy
deriving DecidableEq

def Label.scalar (secrecy : Secrecy) : Label := ⟨secrecy, secrecy, secrecy⟩

end Levels

section Symbols

/-- `floor` joined with the labels of the parameters in `deps`. -/
@[ext] structure Sym where
  floor : Secrecy
  /-- The index of a parameter, and which observation of it. -/
  deps : Finset (Nat × Obs)
deriving DecidableEq

namespace Sym

def bottom : Sym := ⟨.public_, ∅⟩

def ofFloor (secrecy : Secrecy) : Sym := ⟨secrecy, ∅⟩

def dep (param : Nat) (obs : Obs) : Sym := ⟨.public_, {(param, obs)}⟩

def join (s t : Sym) : Sym := ⟨s.floor ⊔ t.floor, s.deps ∪ t.deps⟩

instance : SemilatticeSup Sym where
  le s t := s.floor ≤ t.floor ∧ s.deps ⊆ t.deps
  le_refl _ := ⟨le_rfl, Finset.Subset.refl _⟩
  le_trans _ _ _ h k := ⟨h.1.trans k.1, h.2.trans k.2⟩
  le_antisymm _ _ h k := Sym.ext (h.1.antisymm k.1) (h.2.antisymm k.2)
  sup := join
  le_sup_left _ _ := ⟨le_sup_left, Finset.subset_union_left⟩
  le_sup_right _ _ := ⟨le_sup_right, Finset.subset_union_right⟩
  sup_le _ _ _ h k := ⟨sup_le h.1 k.1, Finset.union_subset h.2 k.2⟩

instance : OrderBot Sym where
  bot := bottom
  bot_le _ := ⟨bot_le, Finset.empty_subset _⟩

@[simp] theorem sup_floor (s t : Sym) : (s ⊔ t).floor = s.floor ⊔ t.floor := rfl

@[simp] theorem sup_deps (s t : Sym) : (s ⊔ t).deps = s.deps ∪ t.deps := rfl

def concrete (s : Sym) : Secrecy := s.floor

def isBottom (s : Sym) : Bool := s.floor = .public_ ∧ s.deps = ∅

def size (s : Sym) : Nat := s.floor.rank + s.deps.card

theorem size_le {s t : Sym} (h : s ≤ t) : s.size ≤ t.size :=
  Nat.add_le_add (Secrecy.rank_le h.1) (Finset.card_le_card h.2)

theorem eq_of_size_le {s t : Sym} (h : s ≤ t) (hsize : t.size ≤ s.size) : s = t := by
  have hrank := Secrecy.rank_le h.1
  have hcard := Finset.card_le_card h.2
  unfold size at hsize
  refine Sym.ext (Secrecy.eq_of_rank_le h.1 (by omega)) ?_
  exact Finset.eq_of_subset_of_card_le h.2 (by omega)

theorem size_le_of_subset {s : Sym} {deps : Finset (Nat × Obs)} (h : s.deps ⊆ deps) :
    s.size ≤ 1 + deps.card :=
  Nat.add_le_add (Secrecy.rank_le_one _) (Finset.card_le_card h)

end Sym

@[ext] structure SymLabel where
  shape : Sym
  value : Sym
  failure : Sym
deriving DecidableEq

namespace SymLabel

def bottom : SymLabel := ⟨.bottom, .bottom, .bottom⟩

def triple (sym : Sym) : SymLabel := ⟨sym, sym, sym⟩

def declared (label : Label) : SymLabel :=
  ⟨.ofFloor label.shape, .ofFloor label.value, .ofFloor label.failure⟩

def get (label : SymLabel) : Obs → Sym
  | .shape => label.shape
  | .value => label.value
  | .failure => label.failure

def join (s t : SymLabel) : SymLabel :=
  ⟨s.shape ⊔ t.shape, s.value ⊔ t.value, s.failure ⊔ t.failure⟩

def joinAll (label : SymLabel) (sym : Sym) : SymLabel :=
  ⟨label.shape ⊔ sym, label.value ⊔ sym, label.failure ⊔ sym⟩

def settle (label : SymLabel) : SymLabel := { label with value := label.value ⊔ label.shape }

instance : SemilatticeSup SymLabel where
  le s t := s.shape ≤ t.shape ∧ s.value ≤ t.value ∧ s.failure ≤ t.failure
  le_refl _ := ⟨le_rfl, le_rfl, le_rfl⟩
  le_trans _ _ _ h k := ⟨h.1.trans k.1, h.2.1.trans k.2.1, h.2.2.trans k.2.2⟩
  le_antisymm _ _ h k :=
    SymLabel.ext (h.1.antisymm k.1) (h.2.1.antisymm k.2.1) (h.2.2.antisymm k.2.2)
  sup := join
  le_sup_left _ _ := ⟨le_sup_left, le_sup_left, le_sup_left⟩
  le_sup_right _ _ := ⟨le_sup_right, le_sup_right, le_sup_right⟩
  sup_le _ _ _ h k := ⟨sup_le h.1 k.1, sup_le h.2.1 k.2.1, sup_le h.2.2 k.2.2⟩

instance : OrderBot SymLabel where
  bot := bottom
  bot_le _ := ⟨bot_le, bot_le, bot_le⟩

def size (label : SymLabel) : Nat := label.shape.size + label.value.size + label.failure.size

theorem size_le {s t : SymLabel} (h : s ≤ t) : s.size ≤ t.size :=
  Nat.add_le_add (Nat.add_le_add (Sym.size_le h.1) (Sym.size_le h.2.1)) (Sym.size_le h.2.2)

theorem eq_of_size_le {s t : SymLabel} (h : s ≤ t) (hsize : t.size ≤ s.size) : s = t := by
  have hshape := Sym.size_le h.1
  have hvalue := Sym.size_le h.2.1
  have hfailure := Sym.size_le h.2.2
  unfold size at hsize
  exact SymLabel.ext (Sym.eq_of_size_le h.1 (by omega)) (Sym.eq_of_size_le h.2.1 (by omega))
    (Sym.eq_of_size_le h.2.2 (by omega))

end SymLabel

end Symbols

section Instances

/-- What a parameter is worth at a call.  A missing argument is taken for a secret. -/
def argumentAt (args : List SymLabel) (dep : Nat × Obs) : Sym :=
  match args[dep.1]? with
  | some arg => arg.get dep.2
  | none => .ofFloor .secret

def Sym.instantiate (s : Sym) (args : List SymLabel) : Sym :=
  .ofFloor s.floor ⊔ s.deps.sup (argumentAt args)

def SymLabel.instantiate (label : SymLabel) (args : List SymLabel) : SymLabel :=
  ⟨label.shape.instantiate args, label.value.instantiate args, label.failure.instantiate args⟩

end Instances

end Graph
end Zdeceptron
