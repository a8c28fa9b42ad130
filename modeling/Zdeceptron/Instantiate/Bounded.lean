import Zdeceptron.Instantiate.Copies

/-!
# When the expanded view is bounded

The walk never runs out of its stack, the copies are within the budget, and no component is
left.  How deep the result nests is bounded where no element is shown by an arm and no node is
put by `children`, and elsewhere exactly when the chains through such a node are short enough.

* `instantiate_bounded_iff`: when what `instantiate` returns is bounded.
-/

namespace Zdeceptron
namespace Instantiate

variable {Op Head : Type}

section Bounded

/-- The nesting and the copies of bodies are within their limits, and no component is left. -/
structure Bounded (hir : Hir Op Head) (out : List (HirNode Op Head)) : Prop where
  nesting : heights out ≤ MAX_NODE_DEPTH
  copies : ∀ mark, Marks hir mark → tally mark out ≤ INSTANCE_BUDGET
  clean : ∀ n ∈ within out, n.plain hir = true

variable {hir : Hir Op Head}

theorem start_ready : Ready hir (MAX_NODE_DEPTH + 1) .view hir.start where
  fits := ⟨Nat.zero_le _, Nat.lt_succ_self _⟩
  told := ⟨fun h => absurd h Bool.false_ne_true, fun h => absurd h (Nat.not_lt_zero _)⟩
  stands := rfl

theorem expanding_not_overflowed : hir.expanding.2.overflowed = false :=
  (nodes_keeps (MAX_NODE_DEPTH + 1) hir.view hir.start).overflowed start_ready.fits

theorem instantiate_ok {out : List (HirNode Op Head)} (h : instantiate hir = .ok out) :
    hir.expanding.2.errors = [] ∧ out = hir.expanding.1 := by
  unfold instantiate at h
  split_ifs at h with herrors
  · cases h
    exact ⟨List.isEmpty_iff.mp herrors, rfl⟩

theorem expanding_copies (honce : PlacesOnce hir) (hok : hir.expanding.2.errors = [])
    {mark : Span → Bool} (hmarks : Marks hir mark) :
    tally mark hir.expanding.1 ≤ INSTANCE_BUDGET := by
  have hcounted := nodes_counted hmarks honce _ .view hir.view hir.start start_ready hok
  have hnone : tally mark hir.start.frame.children = 0 := rfl
  rw [owed, hmarks.view, hnone] at hcounted
  have hbudget : ¬ INSTANCE_BUDGET < hir.expanding.2.expansions := fun h =>
    ((nodes_keeps (MAX_NODE_DEPTH + 1) hir.view hir.start).told start_ready.told).budget h hok
  have hstart : hir.start.expansions = 0 := rfl
  unfold Hir.expanding at hbudget ⊢
  omega

theorem expanding_clean (hok : hir.expanding.2.errors = []) : Clean hir hir.expanding.1 :=
  nodes_clean _ .view hir.view hir.start start_ready (by rintro n ⟨⟩) hok

theorem expanding_nesting (hok : hir.expanding.2.errors = []) :
    heights hir.expanding.1 ≤ MAX_NODE_DEPTH ↔
      ∀ k, Chain hir .view hir.view true k → k ≤ MAX_NODE_DEPTH := by
  have hexact := nodes_exact _ .view hir.view hir.start start_ready hok
  constructor
  · intro h k hchain
    exact ((hexact k).mpr ⟨true, hchain⟩).trans h
  · intro h
    obtain ⟨b, hchain⟩ := (hexact _).mp le_rfl
    cases b with
    | true => exact h _ hchain
    | false =>
        have hbounded := nodes_bounded _ .view hir.view hir.start start_ready hok _ hchain
        have hstart : hir.start.depth = 0 := rfl
        rwa [hstart, Nat.zero_add] at hbounded

/-- The pass never recurses deeper than the limit, and what it returns is bounded exactly when
the nodes put by `children` and the shown elements do not nest too deep. -/
theorem instantiate_bounded_iff (hir : Hir Op Head) (honce : PlacesOnce hir) :
    hir.expanding.2.overflowed = false ∧
      ∀ out, instantiate hir = .ok out →
        (Bounded hir out ↔ ∀ k, Chain hir .view hir.view true k → k ≤ MAX_NODE_DEPTH) := by
  refine ⟨expanding_not_overflowed, fun out hout => ?_⟩
  obtain ⟨hok, rfl⟩ := instantiate_ok hout
  rw [← expanding_nesting hok]
  exact ⟨fun h => h.nesting, fun h => ⟨h, fun mark hmarks => expanding_copies honce hok hmarks,
    expanding_clean hok⟩⟩

end Bounded

section Nested

def wrapped (res : Res) : Nat → List (HirNode Empty Empty) → List (HirNode Empty Empty)
  | 0, ns => ns
  | levels + 1, ns => [.element (.mk "Column" res [] (wrapped res levels ns) (0, 0))]

/-- A component that places its `children` twelve columns deep, used inside itself this often. -/
def nested (uses : Nat) : Hir Empty Empty where
  defs := [⟨"Deep", some ⟨[], true, [], wrapped (.provided "Column") 12 [.children (0, 0)]⟩⟩]
  locals := []
  places := 0
  view := wrapped (.def_ 0) uses (wrapped (.provided "Column") 1 [])

theorem nested_places_once (uses : Nat) : PlacesOnce (nested uses) := by
  intro id component h
  cases id with
  | zero =>
      obtain rfl : _ = component := Option.some.inj h
      decide
  | succ id => cases h

/-- Twenty-four uses of the component nest 289 levels deep, and no error says so. -/
theorem deep_children_not_bounded :
    ¬ ∀ hir : Hir Empty Empty, PlacesOnce hir →
      ∀ out, instantiate hir = .ok out → Bounded hir out := by
  intro h
  have hok : (nested 24).expanding.2.errors.isEmpty = true := by decide +kernel
  have hdeep : heights (nested 24).expanding.1 = 289 := by decide +kernel
  have hbounded := (h (nested 24) (nested_places_once 24) _ (if_pos hok)).nesting
  rw [hdeep] at hbounded
  exact absurd hbounded (by decide)

/-- Two uses of the component are bounded. -/
theorem nested_bounded :
    (nested 2).expanding.2.overflowed = false ∧
      ∀ out, instantiate (nested 2) = .ok out →
        (Bounded (nested 2) out ↔
          ∀ k, Chain (nested 2) .view (nested 2).view true k → k ≤ MAX_NODE_DEPTH) :=
  instantiate_bounded_iff (nested 2) (nested_places_once 2)

end Nested

end Instantiate
end Zdeceptron
