import Zdeceptron.Instantiate.Walks

/-!
# The shape of a view

How deep a view nests, which nodes it holds, and the runs that stand directly in a node: what a
walk makes of a node is a node whose runs are what it makes of the runs.
-/

namespace Zdeceptron
namespace Instantiate

variable {Op Head : Type}

section Height

mutual

def HirNode.height : HirNode Op Head → Nat
  | .element el => el.height
  | .each _ _ body _ => heights body + 1
  | .when _ arms _ => armHeights arms + 1
  | .ifThen _ then_ none _ => heights then_ + 1
  | .ifThen _ then_ (some otherwise) _ => max (heights then_) (heights otherwise) + 1
  | .handler _ _ _ _ => 1
  | .children _ => 1
  | .scope _ body _ => heights body + 1

def HirElement.height : HirElement Op Head → Nat
  | .mk _ _ _ children _ => heights children + 1

def armHeights : List (HirNodeArm Op Head) → Nat
  | [] => 0
  | .show_ _ _ element :: arms => max element.height (armHeights arms)
  | .nodes _ _ ns :: arms => max (heights ns) (armHeights arms)

def heights : List (HirNode Op Head) → Nat
  | [] => 0
  | n :: ns => max n.height (heights ns)

end

/-- The run that stands in an arm, and whether the arm shows it as an element. -/
def HirNodeArm.run : HirNodeArm Op Head → Bool × List (HirNode Op Head)
  | .show_ _ _ element => (true, [.element element])
  | .nodes _ _ ns => (false, ns)

def HirNode.runs : HirNode Op Head → List (Bool × List (HirNode Op Head))
  | .element el => [(false, el.children)]
  | .each _ _ body _ => [(false, body)]
  | .when _ arms _ => arms.map HirNodeArm.run
  | .ifThen _ then_ none _ => [(false, then_)]
  | .ifThen _ then_ (some otherwise) _ => [(false, then_), (false, otherwise)]
  | .handler _ _ _ _ => []
  | .children _ => []
  | .scope _ body _ => [(false, body)]

theorem le_armHeights {k : Nat} : ∀ {arms : List (HirNodeArm Op Head)},
    k ≤ armHeights arms ↔ k = 0 ∨ ∃ arm ∈ arms, k ≤ heights arm.run.2
  | [] => by simp [armHeights]
  | .show_ pattern bindings element :: arms => by
      simp only [armHeights, le_max_iff, le_armHeights, List.mem_cons, exists_eq_or_imp,
        HirNodeArm.run, heights, HirNode.height, max_eq_left (Nat.zero_le _)]
      tauto
  | .nodes pattern bindings ns :: arms => by
      simp only [armHeights, le_max_iff, le_armHeights, List.mem_cons, exists_eq_or_imp,
        HirNodeArm.run]
      tauto

theorem le_height {k : Nat} {n : HirNode Op Head} :
    k + 1 ≤ n.height ↔ k = 0 ∨ ∃ run ∈ n.runs, k ≤ heights run.2 := by
  cases n with
  | element element =>
      obtain ⟨name, res, args, children, span⟩ := element
      simp only [HirNode.height, HirElement.height, HirNode.runs, HirElement.children,
        List.mem_singleton, exists_eq_left]
      omega
  | each _ _ _ _ | scope _ _ _ =>
      simp only [HirNode.height, HirNode.runs, List.mem_singleton, exists_eq_left]
      omega
  | when scrutinee arms span =>
      simp only [HirNode.height, HirNode.runs, Nat.add_le_add_iff_right, le_armHeights,
        List.mem_map, exists_exists_and_eq_and]
  | ifThen cond then_ otherwise span =>
      cases otherwise with
      | none =>
          simp only [HirNode.height, HirNode.runs, List.mem_singleton, exists_eq_left]
          omega
      | some otherwise =>
          simp only [HirNode.height, HirNode.runs, List.mem_cons, List.not_mem_nil, or_false,
            exists_eq_or_imp, exists_eq_left, Nat.add_le_add_iff_right, le_max_iff]
          omega
  | handler event payload body span => simp [HirNode.height, HirNode.runs]
  | children span => simp [HirNode.height, HirNode.runs]

end Height

section Within

def HirNode.span : HirNode Op Head → Span
  | .element el => el.span
  | .each _ _ _ span => span
  | .when _ _ span => span
  | .ifThen _ _ _ span => span
  | .handler _ _ _ span => span
  | .children span => span
  | .scope _ _ span => span

mutual

def HirNode.within : HirNode Op Head → List (HirNode Op Head)
  | .element el => .element el :: el.inner
  | .each var iter body span => .each var iter body span :: within body
  | .when scrutinee arms span => .when scrutinee arms span :: armsWithin arms
  | .ifThen cond then_ none span => .ifThen cond then_ none span :: within then_
  | .ifThen cond then_ (some otherwise) span =>
      .ifThen cond then_ (some otherwise) span :: (within then_ ++ within otherwise)
  | .handler event payload body span => [.handler event payload body span]
  | .children span => [.children span]
  | .scope locals body span => .scope locals body span :: within body

def HirElement.inner : HirElement Op Head → List (HirNode Op Head)
  | .mk _ _ _ children _ => within children

def armsWithin : List (HirNodeArm Op Head) → List (HirNode Op Head)
  | [] => []
  | .show_ _ _ element :: arms => (.element element :: element.inner) ++ armsWithin arms
  | .nodes _ _ ns :: arms => within ns ++ armsWithin arms

def within : List (HirNode Op Head) → List (HirNode Op Head)
  | [] => []
  | n :: ns => n.within ++ within ns

end

theorem armsWithin_eq : ∀ (arms : List (HirNodeArm Op Head)),
    armsWithin arms = (arms.map HirNodeArm.run).flatMap fun run => within run.2
  | [] => rfl
  | .show_ pattern bindings element :: arms => by
      simp [armsWithin, armsWithin_eq arms, HirNodeArm.run, within, HirNode.within]
  | .nodes pattern bindings ns :: arms => by
      simp [armsWithin, armsWithin_eq arms, HirNodeArm.run]

theorem within_eq (n : HirNode Op Head) :
    n.within = n :: n.runs.flatMap fun run => within run.2 := by
  cases n with
  | element element =>
      obtain ⟨name, res, args, children, span⟩ := element
      simp [HirNode.within, HirElement.inner, HirNode.runs, HirElement.children]
  | when scrutinee arms span => simp [HirNode.within, HirNode.runs, armsWithin_eq]
  | ifThen cond then_ otherwise span =>
      cases otherwise <;> simp [HirNode.within, HirNode.runs]
  | _ => simp [HirNode.within, HirNode.runs]

theorem within_append (ns ns' : List (HirNode Op Head)) :
    within (ns ++ ns') = within ns ++ within ns' := by
  induction ns with
  | nil => rfl
  | cons n ns ih => simp [within, ih]

end Within

section Plain

variable (hir : Hir Op Head)

/-- A node that stands for itself: no `children`, and no element that names a component. -/
def HirNode.plain : HirNode Op Head → Bool
  | .element el => (component_of hir el.res).isNone
  | .children _ => false
  | _ => true

end Plain

section Runs

variable {hir : Hir Op Head} {room : Nat} {runs : Runs Op Head}

/-- What became of a run that stands in a node, from where the run before it ended. -/
def Became (hir : Hir Op Head) (room : Nat) (runs : Runs Op Head)
    (run : Bool × List (HirNode Op Head)) (s : Pass Op Head)
    (run' : Bool × List (HirNode Op Head)) (s' : Pass Op Head) : Prop :=
  Keeps room s s' ∧ ∃ s₁, Quiet s s₁ ∧
    ((run.1 = false ∧ (runs run.2 s₁).2.errors = [] ∧ run'.2 = (runs run.2 s₁).1 ∧
        s' = (runs run.2 s₁).2) ∨
      (run.1 = true ∧ ∃ element, run.2 = [.element element] ∧
        WalksElement hir runs element s₁ run'.2 s'))

theorem became_run (hruns : RunsKeep room runs) {ns : List (HirNode Op Head)}
    {s s₁ : Pass Op Head} (hquiet : Quiet s s₁) (hok : (runs ns s₁).2.errors = []) :
    Became hir room runs (false, ns) s (false, (runs ns s₁).1) (runs ns s₁).2 :=
  ⟨hquiet.keeps.trans (hruns ns s₁), s₁, hquiet, Or.inl ⟨rfl, hok, rfl, rfl⟩⟩

theorem shownArm_run (pattern : String) (bindings : List Nat) (shown : List (HirNode Op Head)) :
    (shownArm pattern bindings shown).run.2 = shown := by
  unfold shownArm
  split <;> rfl

variable {s s' : Pass Op Head}

theorem WalksArm.became {arm arm' : HirNodeArm Op Head} (h : WalksArm hir room runs arm s arm' s') :
    Became hir room runs arm.run s arm'.run s' := by
  cases h with
  | show_ hquiet helement hkeeps =>
      refine ⟨hkeeps, _, hquiet, Or.inr ⟨rfl, _, rfl, ?_⟩⟩
      rw [shownArm_run]
      exact helement
  | nodes hquiet hok hkeeps => exact ⟨hkeeps, _, hquiet, Or.inl ⟨rfl, hok, rfl, rfl⟩⟩

theorem arms_became {arms arms' : List (HirNodeArm Op Head)}
    (h : Chained (WalksArm hir room runs) arms s arms' s') :
    Chained (Became hir room runs) (arms.map HirNodeArm.run) s (arms'.map HirNodeArm.run) s' := by
  induction h with
  | nil s => exact Chained.nil s
  | cons harm _ ih => exact Chained.cons harm.became ih

theorem Walks.became (hruns : RunsKeep room runs) {n : HirNode Op Head}
    {out : List (HirNode Op Head)} (h : Walks hir room runs n s out s')
    (hplain : n.plain hir = true) :
    ∃ n' s₁, out = [n'] ∧ n'.plain hir = true ∧ n'.span = n.span ∧ Quiet s s₁ ∧
      Chained (Became hir room runs) n.runs s₁ n'.runs s' := by
  cases h with
  | element helement =>
      cases helement with
      | element hres hquiet hok =>
          exact ⟨_, _, rfl, by simp [HirNode.plain, HirElement.res, hres], rfl, Quiet.refl _,
            Chained.cons (became_run hruns hquiet hok) (Chained.nil _)⟩
      | call hres => simp [HirNode.plain, hres] at hplain
  | each hquiet hok | ifThen hquiet hok | scope hquiet hok =>
      exact ⟨_, _, rfl, rfl, rfl, Quiet.refl _,
        Chained.cons (became_run hruns hquiet hok) (Chained.nil _)⟩
  | when hquiet harms => exact ⟨_, _, rfl, rfl, rfl, hquiet, arms_became harms⟩
  | ifElse hquiet hok hok' =>
      exact ⟨_, _, rfl, rfl, rfl, Quiet.refl _,
        Chained.cons (became_run hruns hquiet hok)
          (Chained.cons (became_run hruns (Quiet.refl _) hok') (Chained.nil _))⟩
  | handler hquiet => exact ⟨_, _, rfl, rfl, rfl, hquiet, Chained.nil _⟩
  | children => cases hplain

end Runs

end Instantiate
end Zdeceptron
