import Mathlib.Algebra.BigOperators.Ring.List
import Mathlib.Tactic.Ring
import Zdeceptron.Instantiate.Nesting

/-!
# How much the expanded view holds

Each call site is counted before its body is copied.  A mark on one node of each body at most
tells the copies of it that stand in the expanded view.
-/

namespace Zdeceptron
namespace Instantiate

variable {Op Head : Type}

section Marks

def HirNode.places : HirNode Op Head → Bool
  | .children _ => true
  | _ => false

/-- How often `children` is written in a run. -/
def placements (ns : List (HirNode Op Head)) : Nat := (within ns).countP HirNode.places

def tally (mark : Span → Bool) (ns : List (HirNode Op Head)) : Nat :=
  (within ns).countP fun n => mark n.span

variable (hir : Hir Op Head)

/-- What the resolver makes sure of: a body places `children` once at most. -/
def PlacesOnce : Prop :=
  ∀ id component, hir.component id = some component → placements component.body ≤ 1

structure Marks (mark : Span → Bool) : Prop where
  view : tally mark hir.view = 0
  body : ∀ id component, hir.component id = some component → tally mark component.body ≤ 1

theorem countP_within (p : HirNode Op Head → Bool) (n : HirNode Op Head) :
    n.within.countP p = (p n).toNat + (n.runs.map fun run => (within run.2).countP p).sum := by
  rw [within_eq, List.countP_cons, List.countP_flatMap, Nat.add_comm]
  cases p n <;> rfl

theorem tally_append (mark : Span → Bool) (ns ns' : List (HirNode Op Head)) :
    tally mark (ns ++ ns') = tally mark ns + tally mark ns' := by
  simp [tally, within_append]

theorem tally_single (mark : Span → Bool) (n : HirNode Op Head) :
    tally mark [n] = (mark n.span).toNat + (n.runs.map fun run => tally mark run.2).sum := by
  simpa [tally, within] using countP_within (fun n => mark n.span) n

theorem placements_single (n : HirNode Op Head) :
    placements [n] = n.places.toNat + (n.runs.map fun run => placements run.2).sum := by
  simpa [placements, within] using countP_within HirNode.places n

end Marks

section Counted

variable {hir : Hir Op Head} {room : Nat} {runs : Runs Op Head} {placed : Placed Op Head}
  {mark : Span → Bool}

/-- A run, and what `children` stands for wherever the run places it. -/
def owed (mark : Span → Bool) (children ns : List (HirNode Op Head)) : Nat :=
  tally mark ns + placements ns * tally mark children

def RunsCounted (hir : Hir Op Head) (mark : Span → Bool) (room : Nat) (runs : Runs Op Head) :
    Prop :=
  ∀ placed ns s, Ready hir room placed s → (runs ns s).2.errors = [] →
    tally mark (runs ns s).1 + s.expansions ≤
      owed mark s.frame.children ns + (runs ns s).2.expansions

theorem owed_single (children : List (HirNode Op Head)) (n : HirNode Op Head) :
    owed mark children [n] = (mark n.span).toNat + n.places.toNat * tally mark children +
        (n.runs.map fun run => owed mark children run.2).sum := by
  simp only [owed, tally_single, placements_single, List.sum_map_add, List.sum_map_mul_right]
  ring

theorem owed_cons (children : List (HirNode Op Head)) (n : HirNode Op Head)
    (ns : List (HirNode Op Head)) :
    owed mark children (n :: ns) = owed mark children [n] + owed mark children ns := by
  simp only [owed, tally, placements, within, List.countP_append, List.append_nil]
  ring

theorem owed_eq_sum (children : List (HirNode Op Head)) : ∀ (ns : List (HirNode Op Head)),
    owed mark children ns = (ns.map fun n => owed mark children [n]).sum
  | [] => by simp [owed, tally, placements, within]
  | n :: ns => by rw [owed_cons, owed_eq_sum children ns, List.map_cons, List.sum_cons]

theorem tally_flatten : ∀ (outs : List (List (HirNode Op Head))),
    tally mark outs.flatten = (outs.map (tally mark)).sum
  | [] => by simp [tally, within]
  | out :: outs => by simp [tally_append, tally_flatten outs]

theorem tally_scope (locals : List (LocalSignal Op Head)) (body : List (HirNode Op Head))
    (span : Span) :
    tally mark [.scope locals body span] = (mark span).toNat + tally mark body := by
  rw [tally_single]
  simp [HirNode.span, HirNode.runs]

theorem component_of_component {res : Res} {id : Nat} {component : Component Op Head}
    (h : component_of hir res = some (id, component)) : hir.component id = some component := by
  cases res with
  | def_ id' =>
      obtain ⟨component', hcomponent, heq⟩ := Option.map_eq_some_iff.mp h
      cases heq
      exact hcomponent
  | _ => cases h

theorem plain_counted {children : List (HirNode Op Head)} {n n' : HirNode Op Head}
    (hplain : n.plain hir = true) (hspan : n'.span = n.span) {before after : Nat}
    (hruns : (n'.runs.map fun run => tally mark run.2).sum + before ≤
      (n.runs.map fun run => owed mark children run.2).sum + after) :
    tally mark [n'] + before ≤ owed mark children [n] + after := by
  have hplaces : n.places = false := by cases n <;> first | rfl | cases hplain
  rw [tally_single, owed_single, hplaces, hspan]
  simp only [Bool.toNat_false, Nat.zero_mul, Nat.add_zero]
  omega

theorem walksElement_counted (hmarks : Marks hir mark) (honce : PlacesOnce hir)
    (hkeeps : RunsKeep room runs) (hexact : RunsExact hir room runs)
    (hcounted : RunsCounted hir mark room runs) {element : HirElement Op Head}
    {out : List (HirNode Op Head)} {s s' : Pass Op Head}
    (h : WalksElement hir runs element s out s') (hready : Ready hir room placed s) :
    tally mark out + s.expansions ≤
      owed mark s.frame.children [.element element] + s'.expansions := by
  cases h with
  | @element name res args args' children span s s₁ hres hquiet hok =>
      have hplain : HirNode.plain hir (.element (.mk name res args children span)) = true := by
        simp [HirNode.plain, HirElement.res, hres]
      refine plain_counted hplain (by rfl) ?_
      have hinner := hcounted placed children s₁ (hready.quiet hquiet) hok
      rw [hquiet.children, hquiet.expansions] at hinner
      simpa [HirNode.runs, HirElement.children] using hinner
  | @call _ id component params locals _ s₁ s₂ hres hbudget hquiet hok hinner hbody hempty =>
      have hready₁ := (hready.counted hbudget).quiet hquiet
      have hchildren := hcounted placed element.children s₁ hready₁ hok
      have hcopied := hcounted (.call element.children placed) component.body s₂
        (hready.copied hkeeps hexact hbudget hquiet hok hinner) hbody
      have hcomponent := component_of_component hres
      have hmarked := hmarks.body id component hcomponent
      have hplaced : placements component.body * tally mark (runs element.children s₁).1 ≤
          1 * tally mark (runs element.children s₁).1 :=
        Nat.mul_le_mul_right _ (honce id component hcomponent)
      have hscope : tally mark (if locals.isEmpty then (runs component.body s₂).1
          else [.scope locals (runs component.body s₂).1 element.span]) ≤
          (mark element.span).toNat + tally mark (runs component.body s₂).1 := by
        split_ifs
        · exact Nat.le_add_left _ _
        · exact (tally_scope locals _ _).le
      have howed : owed mark s.frame.children [.element element] = _ := owed_single _ _
      simp only [HirNode.span, HirNode.places, Bool.toNat_false, Nat.zero_mul, Nat.add_zero,
        HirNode.runs, List.map_cons, List.map_nil, List.sum_cons, List.sum_nil] at howed
      rw [hquiet.children, hquiet.expansions] at hchildren
      rw [hinner.children, hinner.expansions] at hcopied
      simp only [Pass.inside, owed] at hchildren hcopied howed ⊢
      omega

theorem walks_counted (hmarks : Marks hir mark) (honce : PlacesOnce hir)
    (hkeeps : RunsKeep room runs) (hexact : RunsExact hir room runs)
    (hcounted : RunsCounted hir mark room runs) {n : HirNode Op Head}
    {out : List (HirNode Op Head)} {s s' : Pass Op Head} (h : Walks hir room runs n s out s')
    (hready : Ready hir room placed s) :
    tally mark out + s.expansions ≤ owed mark s.frame.children [n] + s'.expansions := by
  cases hplain : n.plain hir with
  | true =>
      obtain ⟨n', s₀, rfl, -, hspan, hquiet, hruns⟩ := h.became hkeeps hplain
      have hsum := hruns.sum Pass.expansions (v := fun run => owed mark s.frame.children run.2)
        (w := fun run => tally mark run.2)
        (P := fun s' => Ready hir room placed s' ∧ s'.frame.children = s.frame.children)
        (fun hs hone => ⟨hs.1.keeps hone.1, hone.1.children.trans hs.2⟩)
        (fun {run s₁ run' s₂} hs hone => ?_) ⟨hready.quiet hquiet, hquiet.children⟩
      · rw [hquiet.expansions] at hsum
        exact plain_counted hplain hspan hsum
      · obtain ⟨-, s₃, hquiet₃, ⟨-, hok, hrun, rfl⟩ | ⟨-, element, hrun, helement⟩⟩ := hone
        · have hinner := hcounted placed run.2 s₃ (hs.1.quiet hquiet₃) hok
          rwa [hquiet₃.children, hs.2, hquiet₃.expansions, ← hrun] at hinner
        · have hinner := walksElement_counted hmarks honce hkeeps hexact hcounted helement
            (hs.1.quiet hquiet₃)
          rwa [hquiet₃.children, hs.2, hquiet₃.expansions, ← hrun] at hinner
  | false =>
      cases h with
      | element helement =>
          exact walksElement_counted hmarks honce hkeeps hexact hcounted helement hready
      | @children span =>
          rw [owed_single]
          simp only [HirNode.places, Bool.toNat_true, Nat.one_mul]
          omega
      | _ => cases hplain

theorem nodes_counted (hmarks : Marks hir mark) (honce : PlacesOnce hir) :
    ∀ room, RunsCounted hir mark room (nodes hir room) := by
  intro room
  induction room with
  | zero =>
      intro placed ns s hready
      have hfits := hready.fits
      unfold Fits at hfits
      omega
  | succ room ih =>
      intro placed ns s hready hok
      obtain ⟨room', outs, s', hroom, hdepth, hchained, heq⟩ :=
        nodes_walks hready.fits hready.told hok
      obtain rfl := Nat.succ.inj hroom
      have hsum := hchained.sum Pass.expansions (v := fun n => owed mark s.frame.children [n])
        (w := tally mark)
        (P := fun s' => Ready hir room placed s' ∧ s'.frame.children = s.frame.children)
        (fun hs hone => ⟨hs.1.keeps hone.2, hone.2.children.trans hs.2⟩)
        (fun hs hone => ?_) ⟨hready.deeper hdepth, rfl⟩
      · rw [heq, tally_flatten, owed_eq_sum]
        exact hsum
      · have hnode := walks_counted hmarks honce (nodes_keeps room) (nodes_exact room) ih hone.1
          hs.1
        rwa [hs.2] at hnode

end Counted

section Clean

variable {hir : Hir Op Head} {room : Nat} {runs : Runs Op Head} {placed : Placed Op Head}

variable (hir) in
def Clean (ns : List (HirNode Op Head)) : Prop := ∀ n ∈ within ns, n.plain hir = true

def RunsClean (hir : Hir Op Head) (room : Nat) (runs : Runs Op Head) : Prop :=
  ∀ placed ns s, Ready hir room placed s → Clean hir s.frame.children →
    (runs ns s).2.errors = [] → Clean hir (runs ns s).1

theorem clean_single {n : HirNode Op Head} :
    Clean hir [n] ↔ n.plain hir = true ∧ ∀ run ∈ n.runs, Clean hir run.2 := by
  simp only [Clean, within, List.append_nil, within_eq, List.mem_cons, List.mem_flatMap,
    forall_eq_or_imp]
  refine and_congr Iff.rfl ⟨fun h run hrun m hm => h m ⟨run, hrun, hm⟩, ?_⟩
  rintro h m ⟨run, hrun, hm⟩
  exact h run hrun m hm

theorem clean_flatten {outs : List (List (HirNode Op Head))} (h : ∀ out ∈ outs, Clean hir out) :
    Clean hir outs.flatten := by
  induction outs with
  | nil => simp [Clean, within]
  | cons out outs ih =>
      intro n hn
      rw [List.flatten_cons, within_append, List.mem_append] at hn
      rcases hn with hn | hn
      · exact h out (by simp) n hn
      · exact ih (fun out hout => h out (List.mem_cons_of_mem _ hout)) n hn

theorem walksElement_clean (hkeeps : RunsKeep room runs) (hexact : RunsExact hir room runs)
    (hclean : RunsClean hir room runs) {element : HirElement Op Head}
    {out : List (HirNode Op Head)} {s s' : Pass Op Head}
    (h : WalksElement hir runs element s out s') (hready : Ready hir room placed s)
    (hchildren : Clean hir s.frame.children) : Clean hir out := by
  cases h with
  | @element name res args args' children span s s₁ hres hquiet hok =>
      refine clean_single.mpr ⟨by simp [HirNode.plain, HirElement.res, hres], ?_⟩
      simp only [HirNode.runs, HirElement.children, List.mem_singleton, forall_eq]
      exact hclean placed _ _ (hready.quiet hquiet) (hquiet.children ▸ hchildren) hok
  | @call _ id component params locals _ s₁ s₂ hres hbudget hquiet hok hinner hbody hempty =>
      have hready₁ := (hready.counted hbudget).quiet hquiet
      have hcalled := hclean placed element.children s₁ hready₁ (hquiet.children ▸ hchildren) hok
      have hcopied := hclean (.call element.children placed) component.body s₂
        (hready.copied hkeeps hexact hbudget hquiet hok hinner) (hinner.children ▸ hcalled) hbody
      split_ifs
      · exact hcopied
      · refine clean_single.mpr ⟨rfl, ?_⟩
        simpa [HirNode.runs] using hcopied

theorem walks_clean (hkeeps : RunsKeep room runs) (hexact : RunsExact hir room runs)
    (hclean : RunsClean hir room runs) {n : HirNode Op Head} {out : List (HirNode Op Head)}
    {s s' : Pass Op Head} (h : Walks hir room runs n s out s') (hready : Ready hir room placed s)
    (hchildren : Clean hir s.frame.children) : Clean hir out := by
  cases hplain : n.plain hir with
  | true =>
      obtain ⟨n', s₀, rfl, hplain', -, hquiet, hruns⟩ := h.became hkeeps hplain
      refine clean_single.mpr ⟨hplain', fun run' hrun' => ?_⟩
      obtain ⟨run, s₁, s₂, ⟨hready₁, hchildren₁⟩, -, s₃, hquiet₃, hrun⟩ := hruns.mem_out
        (P := fun s' => Ready hir room placed s' ∧ Clean hir s'.frame.children)
        (fun hs hone => ⟨hs.1.keeps hone.1, hone.1.children ▸ hs.2⟩)
        ⟨hready.quiet hquiet, hquiet.children ▸ hchildren⟩ hrun'
      obtain ⟨-, hok, heq, -⟩ | ⟨-, element, -, helement⟩ := hrun
      · rw [heq]
        exact hclean placed run.2 s₃ (hready₁.quiet hquiet₃) (hquiet₃.children ▸ hchildren₁) hok
      · exact walksElement_clean hkeeps hexact hclean helement (hready₁.quiet hquiet₃)
          (hquiet₃.children ▸ hchildren₁)
  | false =>
      cases h with
      | element helement =>
          exact walksElement_clean hkeeps hexact hclean helement hready hchildren
      | children => exact hchildren
      | _ => cases hplain

theorem nodes_clean : ∀ room, RunsClean hir room (nodes hir room) := by
  intro room
  induction room with
  | zero =>
      intro placed ns s hready
      have hfits := hready.fits
      unfold Fits at hfits
      omega
  | succ room ih =>
      intro placed ns s hready hchildren hok
      obtain ⟨room', outs, s', hroom, hdepth, hchained, heq⟩ :=
        nodes_walks hready.fits hready.told hok
      obtain rfl := Nat.succ.inj hroom
      rw [heq]
      refine clean_flatten fun out hout => ?_
      obtain ⟨n, s₁, s₂, hs₁, hone⟩ := hchained.mem_out
        (P := fun s' => Ready hir room placed s' ∧ Clean hir s'.frame.children)
        (fun hs hone => ⟨hs.1.keeps hone.2, hone.2.children ▸ hs.2⟩)
        ⟨hready.deeper hdepth, hchildren⟩ hout
      exact walks_clean (nodes_keeps room) (nodes_exact room) ih hone.1 hs₁.1 hs₁.2

end Clean

end Instantiate
end Zdeceptron
