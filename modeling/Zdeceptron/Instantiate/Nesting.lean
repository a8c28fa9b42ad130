import Zdeceptron.Instantiate.Shape

/-!
# How deep the expanded view nests

The nodes under a call site are expanded where the call is, and stand where the body puts them.
A chain of nodes of the written program goes from a call into the body, and from `children` back
to the nodes of the call; the expanded view nests as deep as the longest of them.
-/

namespace Zdeceptron
namespace Instantiate

variable {Op Head : Type}

section Chains

/-- What `children` stands for: nothing in the view itself, and in a body the nodes of the call,
in the place the call is written in. -/
inductive Placed (Op Head : Type)
  | view
  | call (ns : List (HirNode Op Head)) (placed : Placed Op Head)

variable (hir : Hir Op Head)

/-- Nodes that stand inside each other in a run once the components are written out, how many
they are, and whether one of them is shown by an arm or put where it is by `children`. -/
inductive Chain : Placed Op Head → List (HirNode Op Head) → Bool → Nat → Prop
  | stop {placed : Placed Op Head} {ns : List (HirNode Op Head)} : Chain placed ns false 0
  | leaf {placed : Placed Op Head} {ns : List (HirNode Op Head)} {n : HirNode Op Head} :
      n ∈ ns → n.plain hir = true → Chain placed ns false 1
  | inside {placed : Placed Op Head} {ns : List (HirNode Op Head)} {n : HirNode Op Head}
      {run : Bool × List (HirNode Op Head)} {b : Bool} {k : Nat} :
      n ∈ ns → n.plain hir = true → run ∈ n.runs → Chain placed run.2 b k →
      Chain placed ns (run.1 || b) (k + 1)
  | call {placed : Placed Op Head} {ns : List (HirNode Op Head)} {element : HirElement Op Head}
      {id : Nat} {component : Component Op Head} {b : Bool} {k : Nat} :
      .element element ∈ ns → component_of hir element.res = some (id, component) →
      Chain (.call element.children placed) component.body b k →
      Chain placed ns b (k + if component.states.isEmpty then 0 else 1)
  | children {placed : Placed Op Head} {ns called : List (HirNode Op Head)} {span : Span}
      {b : Bool} {k : Nat} :
      .children span ∈ ns → Chain placed called b k → Chain (.call called placed) ns true k

/-- The frame's nodes nest as deep as what `children` stands for. -/
def Stands : Placed Op Head → List (HirNode Op Head) → Prop
  | .view, children => children = []
  | .call ns placed, children => ∀ k, k ≤ heights children ↔ ∃ b, Chain hir placed ns b k

variable {hir}

variable {placed : Placed Op Head} {k : Nat}

theorem chain_iff {ns : List (HirNode Op Head)} :
    (∃ b, Chain hir placed ns b k) ↔ k = 0 ∨ ∃ n ∈ ns, ∃ b, Chain hir placed [n] b k := by
  constructor
  · rintro ⟨b, h⟩
    cases h with
    | stop => exact Or.inl rfl
    | leaf hmem hplain => exact Or.inr ⟨_, hmem, _, .leaf (by simp) hplain⟩
    | inside hmem hplain hrun hinner =>
        exact Or.inr ⟨_, hmem, _, .inside (by simp) hplain hrun hinner⟩
    | call hmem hres hbody => exact Or.inr ⟨_, hmem, _, .call (by simp) hres hbody⟩
    | children hmem hcalled => exact Or.inr ⟨_, hmem, _, .children (List.mem_singleton.mpr rfl) hcalled⟩
  · rintro (rfl | ⟨n, hmem, b, h⟩)
    · exact ⟨false, .stop⟩
    · cases h with
      | stop => exact ⟨_, .stop⟩
      | leaf hmem' hplain =>
          obtain rfl := List.mem_singleton.mp hmem'
          exact ⟨_, .leaf hmem hplain⟩
      | inside hmem' hplain hrun hinner =>
          obtain rfl := List.mem_singleton.mp hmem'
          exact ⟨_, .inside hmem hplain hrun hinner⟩
      | call hmem' hres hbody =>
          obtain rfl := List.mem_singleton.mp hmem'
          exact ⟨_, .call hmem hres hbody⟩
      | children hmem' hcalled =>
          obtain rfl := List.mem_singleton.mp hmem'
          exact ⟨_, .children hmem hcalled⟩

theorem chain_plain {n : HirNode Op Head} (hplain : n.plain hir = true)
    : (∃ b, Chain hir placed [n] b (k + 1)) ↔
      k = 0 ∨ ∃ run ∈ n.runs, ∃ b, Chain hir placed run.2 b k := by
  constructor
  · rintro ⟨b, h⟩
    generalize hk : k + 1 = k' at h
    cases h with
    | stop => omega
    | leaf hmem hplain' => exact Or.inl (by omega)
    | inside hmem hplain' hrun hinner =>
        obtain rfl := List.mem_singleton.mp hmem
        obtain rfl := Nat.add_right_cancel hk
        exact Or.inr ⟨_, hrun, _, hinner⟩
    | call hmem hres hbody =>
        obtain rfl := List.mem_singleton.mp hmem
        simp [HirNode.plain, hres] at hplain
    | children hmem hcalled =>
        obtain rfl := List.mem_singleton.mp hmem
        cases hplain
  · rintro (rfl | ⟨run, hrun, b, h⟩)
    · exact ⟨_, .leaf (by simp) hplain⟩
    · exact ⟨_, .inside (by simp) hplain hrun h⟩

theorem chain_call {element : HirElement Op Head} {id : Nat}
    {component : Component Op Head} (hres : component_of hir element.res = some (id, component))
    : (∃ b, Chain hir placed [.element element] b k) ↔
      k = 0 ∨ ∃ j b, Chain hir (.call element.children placed) component.body b j ∧
        k = j + if component.states.isEmpty then 0 else 1 := by
  constructor
  · rintro ⟨b, h⟩
    cases h with
    | stop => exact Or.inl rfl
    | leaf hmem hplain | inside hmem hplain =>
        obtain rfl := List.mem_singleton.mp hmem
        simp [HirNode.plain, hres] at hplain
    | call hmem hres' hbody =>
        cases List.mem_singleton.mp hmem
        cases hres.symm.trans hres'
        exact Or.inr ⟨_, _, hbody, rfl⟩
    | children hmem => simp at hmem
  · rintro (rfl | ⟨j, b, h, rfl⟩)
    · exact ⟨_, .stop⟩
    · exact ⟨_, .call (by simp) hres h⟩

theorem chain_children {called : List (HirNode Op Head)} {span : Span}
    : (∃ b, Chain hir (.call called placed) [.children span] b k) ↔
      ∃ b, Chain hir placed called b k := by
  constructor
  · rintro ⟨b, h⟩
    cases h with
    | stop => exact ⟨_, .stop⟩
    | leaf hmem hplain | inside hmem hplain =>
        obtain rfl := List.mem_singleton.mp hmem
        cases hplain
    | call hmem => simp at hmem
    | children hmem hcalled => exact ⟨_, hcalled⟩
  · rintro ⟨b, h⟩
    exact ⟨_, .children (List.mem_singleton.mpr rfl) h⟩

end Chains

section Exact

variable {hir : Hir Op Head} {room : Nat} {runs : Runs Op Head} {placed : Placed Op Head}

/-- The stack has room, the errors are told of, and the frame's nodes are those of the call. -/
structure Ready (hir : Hir Op Head) (room : Nat) (placed : Placed Op Head) (s : Pass Op Head) :
    Prop where
  fits : Fits room s
  told : Told s
  stands : Stands hir placed s.frame.children

variable {s s' : Pass Op Head}

theorem Ready.keeps (h : Ready hir room placed s)
    (hkeeps : Keeps room s s') : Ready hir room placed s' := by
  refine ⟨?_, hkeeps.told h.told, ?_⟩
  · have hfits := h.fits
    unfold Fits at hfits ⊢
    rwa [hkeeps.depth]
  · rw [hkeeps.children]
    exact h.stands

theorem Ready.quiet (h : Ready hir room placed s) (hquiet : Quiet s s') :
    Ready hir room placed s' :=
  h.keeps hquiet.keeps

theorem Ready.counted {s : Pass Op Head} (h : Ready hir room placed s)
    (hbudget : s.expansions < INSTANCE_BUDGET) :
    Ready hir room placed { s with expansions := s.expansions + 1 } :=
  ⟨h.fits, ⟨h.told.depth, fun hb => absurd hb (Nat.not_lt.mpr hbudget)⟩, h.stands⟩

theorem Ready.inside {s : Pass Op Head} (h : Ready hir room placed s) (id : Nat)
    (params : Nat → Option (HirExpr Op)) {children ns : List (HirNode Op Head)}
    (hchildren : Stands hir (.call ns placed) children) :
    Ready hir room (.call ns placed) (s.inside id params children) :=
  ⟨h.fits, ⟨h.told.depth, h.told.budget⟩, hchildren⟩

theorem Ready.deeper {s : Pass Op Head} (h : Ready hir (room + 1) placed s)
    (hdepth : s.depth < MAX_NODE_DEPTH) :
    Ready hir room placed { s with depth := s.depth + 1 } := by
  refine ⟨?_, ⟨h.told.depth, h.told.budget⟩, h.stands⟩
  have hfits := h.fits
  unfold Fits at hfits ⊢
  simp only []
  omega

def RunsExact (hir : Hir Op Head) (room : Nat) (runs : Runs Op Head) : Prop :=
  ∀ placed ns s, Ready hir room placed s → (runs ns s).2.errors = [] →
    ∀ k, k ≤ heights (runs ns s).1 ↔ ∃ b, Chain hir placed ns b k

variable {ns : List (HirNode Op Head)}

theorem Ready.copied {s s₁ s₂ : Pass Op Head} (h : Ready hir room placed s)
    (hkeeps : RunsKeep room runs) (hexact : RunsExact hir room runs)
    {id : Nat} {params : Nat → Option (HirExpr Op)} (hbudget : s.expansions < INSTANCE_BUDGET)
    (hquiet : Quiet { s with expansions := s.expansions + 1 } s₁)
    (hok : (runs ns s₁).2.errors = [])
    (hinner : Quiet ((runs ns s₁).2.inside id params (runs ns s₁).1) s₂) :
    Ready hir room (.call ns placed) s₂ := by
  have h₁ := (h.counted hbudget).quiet hquiet
  have hchildren := hexact placed ns s₁ h₁ hok
  exact ((h₁.keeps (hkeeps ns s₁)).inside id params hchildren).quiet hinner

theorem heights_scope (locals : List (LocalSignal Op Head)) (body : List (HirNode Op Head))
    (span : Span) : heights [.scope locals body span] = heights body + 1 := by
  simp [heights, HirNode.height]

theorem plain_exact {n n' : HirNode Op Head} (hplain : n.plain hir = true)
    (hruns : List.Forall₂ (fun run run' : Bool × List (HirNode Op Head) =>
      ∀ k, k ≤ heights run'.2 ↔ ∃ b, Chain hir placed run.2 b k) n.runs n'.runs)
    (k : Nat) : k ≤ heights [n'] ↔ ∃ b, Chain hir placed [n] b k := by
  cases k with
  | zero => exact iff_of_true (Nat.zero_le _) ⟨_, .stop⟩
  | succ k =>
      have hheights : k + 1 ≤ heights [n'] ↔ k + 1 ≤ n'.height := by simp [heights]
      rw [hheights, le_height, chain_plain hplain]
      refine or_congr Iff.rfl ?_
      generalize n.runs = list at hruns
      generalize n'.runs = list' at hruns
      induction hruns with
      | nil => simp
      | cons hrun _ ih =>
          simp only [List.mem_cons, exists_eq_or_imp]
          exact or_congr (hrun k) ih

variable {out : List (HirNode Op Head)}

theorem walksElement_exact (hkeeps : RunsKeep room runs) (hexact : RunsExact hir room runs)
    {element : HirElement Op Head}
    (h : WalksElement hir runs element s out s') (hready : Ready hir room placed s) (k : Nat) :
    k ≤ heights out ↔ ∃ b, Chain hir placed [.element element] b k := by
  cases h with
  | element hres hquiet hok =>
      refine plain_exact (by simp [HirNode.plain, HirElement.res, hres]) ?_ k
      exact List.Forall₂.cons (hexact placed _ _ (hready.quiet hquiet) hok) List.Forall₂.nil
  | @call _ id component params locals _ s₁ s₂ hres hbudget hquiet hok hinner hbody hempty =>
      have hcopied := hexact (.call element.children placed) component.body s₂
        (hready.copied hkeeps hexact hbudget hquiet hok hinner) hbody
      rw [chain_call hres, hempty]
      cases component.states.isEmpty with
      | true =>
          simp only [if_true, Nat.add_zero, hcopied]
          constructor
          · rintro ⟨b, hb⟩
            exact Or.inr ⟨k, b, hb, rfl⟩
          · rintro (rfl | ⟨j, b, hb, rfl⟩)
            · exact ⟨_, .stop⟩
            · exact ⟨b, hb⟩
      | false =>
          simp only [Bool.false_eq_true, if_false, heights_scope]
          cases k with
          | zero => simp
          | succ k =>
              rw [Nat.add_le_add_iff_right, hcopied]
              constructor
              · rintro ⟨b, hb⟩
                exact Or.inr ⟨k, b, hb, rfl⟩
              · rintro (hk | ⟨j, b, hb, hk⟩)
                · omega
                · obtain rfl := Nat.add_right_cancel hk
                  exact ⟨b, hb⟩

theorem walks_exact (hkeeps : RunsKeep room runs) (hexact : RunsExact hir room runs)
    {n : HirNode Op Head}
    (h : Walks hir room runs n s out s') (hready : Ready hir room placed s) (k : Nat) :
    k ≤ heights out ↔ ∃ b, Chain hir placed [n] b k := by
  cases hplain : n.plain hir with
  | true =>
      obtain ⟨n', s₀, rfl, -, -, hquiet, hruns⟩ := h.became hkeeps hplain
      refine plain_exact hplain (hruns.forall₂ (P := Ready hir room placed)
        (fun hs hrun => hs.keeps hrun.1) (fun {run s run' s'} hs hrun => ?_)
        (hready.keeps hquiet.keeps)) k
      obtain ⟨-, s₁, hs₁, ⟨-, hok, hrun, -⟩ | ⟨-, element, hrun, helement⟩⟩ := hrun
      · rw [hrun]
        exact hexact placed run.2 s₁ (hs.keeps hs₁.keeps) hok
      · rw [hrun]
        exact walksElement_exact hkeeps hexact helement (hs.keeps hs₁.keeps)
  | false =>
      cases h with
      | element helement => exact walksElement_exact hkeeps hexact helement hready k
      | children =>
          cases placed with
          | view =>
              rw [show s.frame.children = [] from hready.stands]
              constructor
              · intro hk
                obtain rfl : k = 0 := by simpa [heights] using hk
                exact ⟨_, .stop⟩
              · rintro ⟨b, hb⟩
                cases hb with
                | stop => exact Nat.zero_le _
                | leaf hmem hplain' | inside hmem hplain' =>
                    obtain rfl := List.mem_singleton.mp hmem
                    cases hplain'
                | call hmem => simp at hmem
          | call called placed =>
              rw [chain_children]
              exact hready.stands k
      | _ => cases hplain

theorem heights_append (ns ns' : List (HirNode Op Head)) :
    heights (ns ++ ns') = max (heights ns) (heights ns') := by
  induction ns with
  | nil => simp [heights]
  | cons n ns ih => simp [heights, ih, max_assoc]

theorem le_heights_flatten {k : Nat} : ∀ {outs : List (List (HirNode Op Head))},
    k ≤ heights outs.flatten ↔ k = 0 ∨ ∃ out ∈ outs, k ≤ heights out
  | [] => by simp [heights]
  | out :: outs => by
      rw [List.flatten_cons, heights_append, le_max_iff, le_heights_flatten]
      simp only [List.mem_cons, exists_eq_or_imp]
      exact or_left_comm

theorem outs_exact {outs : List (List (HirNode Op Head))}
    (h : List.Forall₂ (fun n out => ∀ k, k ≤ heights out ↔ ∃ b, Chain hir placed [n] b k) ns outs)
    (k : Nat) : k ≤ heights outs.flatten ↔ ∃ b, Chain hir placed ns b k := by
  rw [chain_iff, le_heights_flatten]
  refine or_congr Iff.rfl ?_
  induction h with
  | nil => simp
  | cons hone _ ih =>
      simp only [List.mem_cons, exists_eq_or_imp]
      exact or_congr (hone k) ih

theorem nodes_exact : ∀ room, RunsExact hir room (nodes hir room) := by
  intro room
  induction room with
  | zero =>
      intro placed ns s hready
      have hfits := hready.fits
      unfold Fits at hfits
      omega
  | succ room ih =>
      intro placed ns s hready hok k
      obtain ⟨room', outs, s', hroom, hdepth, hchained, heq⟩ :=
        nodes_walks hready.fits hready.told hok
      obtain rfl := Nat.succ.inj hroom
      rw [heq]
      exact outs_exact (hchained.forall₂ (P := Ready hir room placed)
        (fun hs hone => hs.keeps hone.2)
        (fun hs hone => walks_exact (nodes_keeps room) ih hone.1 hs)
        (hready.deeper hdepth)) k

end Exact

section Bounded

variable {hir : Hir Op Head} {room : Nat} {runs : Runs Op Head} {placed : Placed Op Head}

/-- The chains whose nodes are all walked where they stand are within the limit. -/
def RunsBounded (hir : Hir Op Head) (room : Nat) (runs : Runs Op Head) : Prop :=
  ∀ placed ns s, Ready hir room placed s → (runs ns s).2.errors = [] →
    ∀ k, Chain hir placed ns false k → s.depth + k ≤ MAX_NODE_DEPTH

variable {out : List (HirNode Op Head)} {s s' : Pass Op Head}

theorem inside_bounded (hkeeps : RunsKeep room runs) (hbounded : RunsBounded hir room runs)
    {n : HirNode Op Head} (h : Walks hir room runs n s out s') (hready : Ready hir room placed s)
    (hplain : n.plain hir = true) {ns : List (HirNode Op Head)} (hrun : (false, ns) ∈ n.runs)
    {k : Nat} (hchain : Chain hir placed ns false k) : s.depth + k ≤ MAX_NODE_DEPTH := by
  obtain ⟨n', s₀, rfl, -, -, hquiet, hruns⟩ := h.became hkeeps hplain
  obtain ⟨s₁, run', s₂, ⟨hready₁, hdepth⟩, -, s₃, hquiet₃, ⟨-, hok, -⟩ | ⟨hshown, -⟩⟩ :=
    hruns.mem (P := fun s' => Ready hir room placed s' ∧ s'.depth = s.depth)
      (fun hs hone => ⟨hs.1.keeps hone.1, hone.1.depth.trans hs.2⟩)
      ⟨hready.quiet hquiet, hquiet.depth⟩ hrun
  · have hinner := hbounded placed ns s₃ (hready₁.quiet hquiet₃) hok k hchain
    rwa [hquiet₃.depth, hdepth] at hinner
  · cases hshown

theorem call_bounded (hkeeps : RunsKeep room runs) (hexact : RunsExact hir room runs)
    (hbounded : RunsBounded hir room runs) {element : HirElement Op Head} {id : Nat}
    {component : Component Op Head} (h : WalksElement hir runs element s out s')
    (hready : Ready hir room placed s)
    (hres : component_of hir element.res = some (id, component)) {k : Nat}
    (hchain : Chain hir (.call element.children placed) component.body false k) :
    s.depth + k ≤ MAX_NODE_DEPTH := by
  cases h with
  | element hnone => simp [HirElement.res, hnone] at hres
  | @call _ id' component' params locals _ s₁ s₂ hres' hbudget hquiet hok hinner hbody hempty =>
      cases hres.symm.trans hres'
      have hcopied := hbounded (.call element.children placed) component.body s₂
        (hready.copied hkeeps hexact hbudget hquiet hok hinner) hbody k hchain
      rwa [hinner.depth, show ((runs element.children s₁).2.inside id params _).depth = _ from
        (hkeeps element.children s₁).depth, hquiet.depth] at hcopied

theorem nodes_bounded : ∀ room, RunsBounded hir room (nodes hir room) := by
  intro room
  induction room with
  | zero =>
      intro placed ns s hready
      have hfits := hready.fits
      unfold Fits at hfits
      omega
  | succ room ih =>
      intro placed ns s hready hok k hchain
      obtain ⟨room', outs, s', hroom, hdepth, hchained, -⟩ :=
        nodes_walks hready.fits hready.told hok
      obtain rfl := Nat.succ.inj hroom
      -- where the walk of each node of the run begins
      have hwalks : ∀ n ∈ ns, ∃ s₁ out s₂, (Ready hir room placed s₁ ∧ s₁.depth = s.depth + 1) ∧
          Walks hir room (nodes hir room) n s₁ out s₂ := by
        intro n hn
        obtain ⟨s₁, out, s₂, hs₁, hone, -⟩ := hchained.mem
          (P := fun s' => Ready hir room placed s' ∧ s'.depth = s.depth + 1)
          (fun hs hone => ⟨hs.1.keeps hone.2, hone.2.depth.trans hs.2⟩)
          ⟨hready.deeper hdepth, rfl⟩ hn
        exact ⟨s₁, out, s₂, hs₁, hone⟩
      generalize hb : false = b at hchain
      cases hchain with
      | stop => omega
      | leaf => omega
      | @inside _ _ n run b k hmem hplain hrun hinner =>
          obtain ⟨hshown, rfl⟩ : run.1 = false ∧ b = false := by simpa using hb.symm
          obtain ⟨s₁, out, s₂, ⟨hready₁, hdepth₁⟩, hwalk⟩ := hwalks n hmem
          have hlevel := inside_bounded (nodes_keeps room) ih hwalk hready₁ hplain
            (show (false, run.2) ∈ n.runs from hshown ▸ hrun) hinner
          omega
      | @call _ _ element id component b k hmem hres hbody =>
          obtain ⟨s₁, out, s₂, ⟨hready₁, hdepth₁⟩, hwalk⟩ := hwalks _ hmem
          cases hwalk with
          | element helement =>
              have hlevel := call_bounded (nodes_keeps room) (nodes_exact room) ih helement
                hready₁ hres (hb ▸ hbody)
              split_ifs <;> omega
      | children => cases hb

end Bounded

end Instantiate
end Zdeceptron
