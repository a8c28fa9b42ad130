import Zdeceptron.Template.Edges

/-!
# Climbing the graph

Both edges run to a later node, so one forward pass gives every node but the first the one step
that reaches it.  A climb is a walk read backwards.
-/

namespace Zdeceptron
namespace Template
namespace Graph

section Forward

/-- What the forward pass has recorded up to a node: how some of the later ones are reached. -/
structure Climbs (g₀ : Graph) (bound : Nat) (g : Graph) : Prop where
  addresses : g.addresses = g₀.addresses
  edges : ∀ id step, g.edge id step = g₀.edge id step
  sound : ∀ {next p step}, g.parent next = some (p, step) →
    p < bound ∧ g₀.edge p step = some next ∧ g.depth next = g.depth p + 1

variable {g₀ g : Graph}

theorem Climbs.mono {bound bound' : Nat} (h : Climbs g₀ bound g)
    (hle : bound ≤ bound') : Climbs g₀ bound' g := by
  refine ⟨h.addresses, h.edges, fun hparent => ?_⟩
  obtain ⟨hp, hedge, hdepth⟩ := h.sound hparent
  exact ⟨by omega, hedge, hdepth⟩

theorem Climbs.reach {id bound : Nat} (hg₀ : g₀.Built) (h : Climbs g₀ bound g)
    (hbound : bound ≤ id + 1) (step : Step) :
    Climbs g₀ (id + 1) (g.reach id step (g₀.edge id step)) := by
  cases hnext : g₀.edge id step with
  | none => exact h.mono hbound
  | some next =>
      have hlater := (hg₀.sound hnext).later
      refine ⟨h.addresses, h.edges, fun {next' p step'} hparent => ?_⟩
      have hdepth : ∀ {p}, p < id + 1 → (g.reach id step (some next)).depth p = g.depth p :=
        fun hp => Function.update_of_ne (by omega) _ _
      simp only [Graph.reach] at hparent
      by_cases heq : next' = next
      · subst heq
        rw [Function.update_self] at hparent
        cases hparent
        refine ⟨Nat.lt_succ_self _, hnext, ?_⟩
        rw [hdepth (Nat.lt_succ_self _)]
        exact Function.update_self ..
      · rw [Function.update_of_ne heq] at hparent
        obtain ⟨hp, hedge, hdepth'⟩ := h.sound hparent
        refine ⟨by omega, hedge, ?_⟩
        rw [hdepth (p := p) (by omega), ← hdepth']
        exact Function.update_of_ne heq _ _

theorem reach_parent {g : Graph} {id n : Nat} {step : Step} {target : Option Nat}
    (h : (g.parent n).isSome = true ∨ target = some n) :
    ((g.reach id step target).parent n).isSome = true := by
  cases target with
  | none => exact h.resolve_right (by simp)
  | some next =>
      simp only [reach, Function.update_apply]
      split_ifs with heq
      · rfl
      · exact h.resolve_right (by simpa using fun h => heq h.symm)

theorem Climbs.reachFrom {id : Nat} (hg₀ : g₀.Built) (h : Climbs g₀ id g) :
    Climbs g₀ (id + 1) (g.reachFrom id) := by
  have hfirst := h.reach hg₀ (Nat.le_succ id) .firstChild
  have hnext := hfirst.reach hg₀ le_rfl .nextSibling
  unfold Graph.reachFrom
  rwa [show g.first_child id = g₀.edge id .firstChild from h.edges id .firstChild,
    show g.next_sibling id = g₀.edge id .nextSibling from h.edges id .nextSibling]

theorem reachFrom_parent {id n : Nat} (h : Climbs g₀ id g)
    (hn : (g.parent n).isSome = true ∨ ∃ step, g₀.edge id step = some n) :
    ((g.reachFrom id).parent n).isSome = true := by
  unfold Graph.reachFrom
  rcases hn with hn | ⟨step, hstep⟩
  · exact reach_parent (Or.inl (reach_parent (Or.inl hn)))
  · rw [← h.edges] at hstep
    cases step with
    | firstChild => exact reach_parent (Or.inl (reach_parent (Or.inr hstep)))
    | nextSibling => exact reach_parent (Or.inr hstep)

theorem forward_climbs {g₀ : Graph} (hg₀ : g₀.Built) : ∀ (n : Nat),
    Climbs g₀ n ((List.range n).foldl Graph.reachFrom { g₀ with
      parent := fun _ => none, depth := fun _ => 0 })
  | 0 => by
      refine ⟨rfl, fun id step => ?_, fun hparent => ?_⟩
      · cases step <;> rfl
      · cases hparent
  | n + 1 => by
      rw [List.range_succ, List.foldl_append]
      exact (forward_climbs hg₀ n).reachFrom hg₀

theorem forward_parent {g₀ : Graph} (hg₀ : g₀.Built) {p next : Nat} {step : Step}
    (hedge : g₀.edge p step = some next) : ∀ {n : Nat}, p < n →
    (((List.range n).foldl Graph.reachFrom { g₀ with
      parent := fun _ => none, depth := fun _ => 0 }).parent next).isSome = true
  | n + 1, hp => by
      rw [List.range_succ, List.foldl_append]
      refine reachFrom_parent (forward_climbs hg₀ n) ?_
      rcases Nat.lt_succ_iff_lt_or_eq.mp hp with hp | rfl
      · exact Or.inl (forward_parent hg₀ hedge hp)
      · exact Or.inr ⟨step, hedge⟩

structure Climbable (roots : List Tpl) (g : Graph) : Prop where
  addresses : g.addresses = preorder [] 0 roots
  edges : ∀ {next p step}, g.parent next = some (p, step) → EdgeAt g p step next
  deeper : ∀ {next p step}, g.parent next = some (p, step) → g.depth next = g.depth p + 1
  reached : ∀ {id}, 0 < id → id < g.addresses.length → (g.parent id).isSome = true

theorem build_climbs (roots : List Tpl) : Climbable roots (build roots) := by
  obtain ⟨haddresses, hbuilt, hreached⟩ := add_siblings_built roots
  have hforward := forward_climbs hbuilt (empty.add_siblings roots []).addresses.length
  refine ⟨hforward.addresses.trans haddresses, fun hparent => ?_, fun hparent => ?_, ?_⟩
  · exact (hbuilt.sound (hforward.sound hparent).2.1).congr hforward.addresses
  · exact (hforward.sound hparent).2.2
  · intro id hpos hlt
    have hlength : (build roots).addresses.length = _ := congrArg List.length hforward.addresses
    rw [hlength] at hlt
    obtain ⟨p, step, hedge⟩ := hreached hpos hlt
    refine forward_parent hbuilt hedge ?_
    by_contra hp
    rw [hbuilt.fresh (Nat.not_lt.mp hp)] at hedge
    cases hedge

end Forward

section Walks

variable {roots : List Tpl} {g : Graph}

/-- A walk along the steps that reach nodes. -/
inductive Walk (g : Graph) (a : Nat) : List Step → Nat → Prop
  | nil : Walk g a [] a
  | snoc {steps : List Step} {p b : Nat} {step : Step} :
      Walk g a steps p → g.parent b = some (p, step) → Walk g a (steps ++ [step]) b

variable {steps : List Step} {a b : Nat}

theorem Walk.le (hg : Climbable roots g) (h : Walk g a steps b) : a ≤ b := by
  induction h with
  | nil => exact le_rfl
  | snoc _ hparent ih => exact ih.trans (hg.edges hparent).later.le

theorem Walk.eq_of_nil (h : Walk g a steps b) (hnil : steps = []) : a = b := by
  cases h with
  | nil => rfl
  | snoc => simp at hnil

theorem Walk.depth_le (hg : Climbable roots g) (h : Walk g a steps b) : g.depth a ≤ g.depth b := by
  induction h with
  | nil => exact le_rfl
  | snoc _ hparent ih => exact ih.trans (by rw [hg.deeper hparent]; exact Nat.le_succ _)

theorem climb_walk {a : Nat} : ∀ {room b : Nat} {steps : List Step},
    g.climb a room b = some steps → Walk g a steps.reverse b
  | 0, b, steps, h => by
      unfold climb at h
      split_ifs at h with heq
      cases h
      exact heq ▸ Walk.nil
  | room + 1, b, steps, h => by
      unfold climb at h
      split_ifs at h with heq
      · cases h
        exact heq ▸ Walk.nil
      · cases hparent : g.parent b with
        | none => simp [hparent] at h
        | some up =>
            simp only [hparent, Option.map_eq_some_iff] at h
            obtain ⟨rest, hrest, rfl⟩ := h
            rw [List.reverse_cons]
            exact (climb_walk hrest).snoc hparent

theorem route_walk (h : g.route a b = some steps) :
    Walk g a steps b := by
  unfold route at h
  split_ifs at h
  obtain ⟨climbed, hclimb, rfl⟩ := Option.map_eq_some_iff.mp h
  exact climb_walk hclimb

theorem Walk.climb (hg : Climbable roots g) (h : Walk g a steps b)
    {room : Nat} (hroom : b ≤ room) : (g.climb a room b).isSome = true := by
  induction h generalizing room with
  | nil => cases room <;> simp [Graph.climb]
  | @snoc steps p b step hwalk hparent ih =>
      have hlater := (hg.edges hparent).later
      cases room with
      | zero => omega
      | succ room =>
          unfold Graph.climb
          split_ifs
          · rfl
          · simp only [hparent, Option.isSome_map]
            exact ih (by omega)

theorem Walk.route (hg : Climbable roots g)
    (h : Walk g a steps b) (hb : b < g.addresses.length) : (g.route a b).isSome = true := by
  unfold Graph.route
  rw [if_neg (Nat.not_lt.mpr (h.depth_le hg)), Option.isSome_map]
  exact h.climb hg hb.le

theorem walk_first (hg : Climbable roots g) {id : Nat} (hid : id < g.addresses.length) :
    ∃ steps, Walk g 0 steps id := by
  induction id using Nat.strong_induction_on with
  | _ id ih =>
      rcases Nat.eq_zero_or_pos id with rfl | hpos
      · exact ⟨[], Walk.nil⟩
      · obtain ⟨⟨p, step⟩, hparent⟩ := Option.isSome_iff_exists.mp (hg.reached hpos hid)
        have hlater := (hg.edges hparent).later
        obtain ⟨steps, hwalk⟩ := ih p hlater (by omega)
        exact ⟨_, hwalk.snoc hparent⟩

variable {named : Nat → Option Nat}

theorem climbNamed_walk : ∀ {room b : Nat} {up : Nat × List Step},
    g.climbNamed named room b = some up →
    ∃ a, named a = some up.1 ∧ Walk g a up.2.reverse b
  | room + 1, b, up, h => by
      unfold climbNamed at h
      cases hparent : g.parent b with
      | none => simp [hparent] at h
      | some edge =>
          obtain ⟨p, step⟩ := edge
          simp only [hparent] at h
          cases hname : named p with
          | some name =>
              simp only [hname, Option.some.injEq] at h
              subst h
              exact ⟨p, hname, Walk.nil.snoc hparent⟩
          | none =>
              simp only [hname, Option.map_eq_some_iff] at h
              obtain ⟨rest, hrest, rfl⟩ := h
              obtain ⟨a, ha, hwalk⟩ := climbNamed_walk hrest
              refine ⟨a, ha, ?_⟩
              rw [List.reverse_cons]
              exact hwalk.snoc hparent

theorem nearest_named_walk {b : Nat} {up : Nat × List Step}
    (h : g.nearest_named named b = some up) :
    ∃ a, named a = some up.1 ∧ Walk g a up.2 b := by
  obtain ⟨climbed, hclimb, rfl⟩ := Option.map_eq_some_iff.mp h
  exact climbNamed_walk hclimb

end Walks

end Graph
end Template
end Zdeceptron
