import Zdeceptron.Template.Graph

/-!
# The edges of a graph

Every edge goes to a later node of the document, to the first child of a node or to its next
sibling, and every node but the first is reached by one.
-/

namespace Zdeceptron
namespace Template

def Step.leads : Step → Address → Address → Prop
  | .firstChild, a, b => b = a ++ [0]
  | .nextSibling, a, b => ∃ p i, a = p ++ [i] ∧ b = p ++ [i + 1]

namespace Graph

section Edges

def edge (g : Graph) (id : Nat) : Step → Option Nat
  | .firstChild => g.first_child id
  | .nextSibling => g.next_sibling id

structure EdgeAt (g : Graph) (id : Nat) (step : Step) (next : Nat) : Prop where
  later : id < next
  leads : ∃ a b, g.addresses[id]? = some a ∧ g.addresses[next]? = some b ∧ step.leads a b

structure Built (g : Graph) : Prop where
  sound : ∀ {id step next}, g.edge id step = some next → EdgeAt g id step next
  fresh : ∀ {id step}, g.addresses.length ≤ id → g.edge id step = none

def Reached (g : Graph) (id : Nat) : Prop := ∃ p step, g.edge p step = some id

theorem empty_built : empty.Built := by
  constructor
  · intro id step next h
    cases step <;> cases h
  · intro id step _
    cases step <;> rfl

theorem edge_push (g : Graph) (path : Address) (id : Nat) (step : Step) :
    (g.push path).edge id step = g.edge id step := by
  cases step <;> rfl

theorem length_push (g : Graph) (path : Address) :
    (g.push path).addresses.length = g.addresses.length + 1 := by
  simp [push]

variable {step : Step}

theorem EdgeAt.push {g : Graph} {id next : Nat} (h : EdgeAt g id step next)
    (path : Address) : EdgeAt (g.push path) id step next := by
  obtain ⟨hlater, a, b, ha, hb, hleads⟩ := h
  refine ⟨hlater, a, b, ?_, ?_, hleads⟩
  · exact (List.getElem?_append_left (List.getElem?_eq_some_iff.mp ha).1).trans ha
  · exact (List.getElem?_append_left (List.getElem?_eq_some_iff.mp hb).1).trans hb

theorem Built.push {g : Graph} (h : g.Built) (path : Address) : (g.push path).Built := by
  constructor
  · intro id step next hedge
    rw [edge_push] at hedge
    exact (h.sound hedge).push path
  · intro id step hid
    rw [length_push] at hid
    rw [edge_push]
    exact h.fresh (by omega)

variable {g g' : Graph}

theorem EdgeAt.congr (haddresses : g'.addresses = g.addresses) {id next : Nat}
    (h : EdgeAt g id step next) : EdgeAt g' id step next := by
  obtain ⟨hlater, hleads⟩ := h
  exact ⟨hlater, haddresses ▸ hleads⟩

structure Joined (g g' : Graph) (id : Nat) (step : Step) (target : Option Nat) : Prop where
  addresses : g'.addresses = g.addresses
  here : g'.edge id step = target
  elsewhere : ∀ {id' step'}, (id', step') ≠ (id, step) → g'.edge id' step' = g.edge id' step'

variable {target : Option Nat}

theorem Joined.built {id : Nat}
    (h : Joined g g' id step target) (hg : g.Built) (hid : id < g.addresses.length)
    (hnew : ∀ next, target = some next → EdgeAt g id step next) : g'.Built := by
  constructor
  · intro id' step' next hedge
    by_cases heq : (id', step') = (id, step)
    · cases heq
      rw [h.here] at hedge
      exact (hnew next hedge).congr h.addresses
    · rw [h.elsewhere heq] at hedge
      exact (hg.sound hedge).congr h.addresses
  · intro id' step' hid'
    rw [h.addresses] at hid'
    rw [h.elsewhere (by rintro ⟨⟩; omega)]
    exact hg.fresh hid'

theorem Joined.reached {id : Nat}
    (h : Joined g g' id step target) (hnone : g.edge id step = none) {n : Nat}
    (hn : g.Reached n) : g'.Reached n := by
  obtain ⟨p, step', hedge⟩ := hn
  refine ⟨p, step', ?_⟩
  rw [h.elsewhere, hedge]
  rintro ⟨⟩
  rw [hnone] at hedge
  cases hedge

theorem joined_next (g : Graph) (id next : Nat) :
    Joined g { g with next_sibling := Function.update g.next_sibling id (some next) } id
      .nextSibling (some next) := by
  refine ⟨rfl, by simp [edge], ?_⟩
  intro id' step' hne
  cases step' with
  | firstChild => rfl
  | nextSibling =>
      have hid : id' ≠ id := fun heq => hne (by rw [heq])
      simp [edge, hid]

theorem joined_first (g : Graph) (id : Nat) (first : Option Nat) :
    Joined g { g with first_child := Function.update g.first_child id first } id .firstChild
      first := by
  refine ⟨rfl, by simp [edge], ?_⟩
  intro id' step' hne
  cases step' with
  | nextSibling => rfl
  | firstChild =>
      have hid : id' ≠ id := fun heq => hne (by rw [heq])
      simp [edge, hid]

end Edges

section Linked

/-- Siblings from this index on, in order, with no edge between them yet. -/
structure Siblings (g : Graph) (path : Address) (index : Nat) (ids : List Nat) : Prop where
  located : ∀ {k id}, ids[k]? = some id → g.addresses[id]? = some (path ++ [index + k])
  sorted : ids.Pairwise (· < ·)
  unlinked : ∀ id ∈ ids, g.edge id .nextSibling = none

structure Linked (g g' : Graph) (ids : List Nat) : Prop where
  addresses : g'.addresses = g.addresses
  built : g'.Built
  kept : ∀ {id step}, id ∉ ids ∨ step = .firstChild → g'.edge id step = g.edge id step
  reached : ∀ {n}, g.Reached n → g'.Reached n
  linked : ∀ n ∈ ids.tail, g'.Reached n

theorem link_linked {path : Address} : ∀ {ids : List Nat} {index : Nat} {g : Graph},
    g.Built → Siblings g path index ids → Linked g (g.link ids) ids
  | [], _, g, hg, _ => ⟨rfl, hg, fun _ => rfl, id, fun _ h => by cases h⟩
  | [_], _, g, hg, _ => ⟨rfl, hg, fun _ => rfl, id, fun _ h => by cases h⟩
  | id :: next :: ids, index, g, hg, hids => by
      have hid := hids.located (k := 0) rfl
      have hnext := hids.located (k := 1) rfl
      have hlater : id < next := List.rel_of_pairwise_cons hids.sorted (by simp)
      have hnone := hids.unlinked id (by simp)
      have hjoin := joined_next g id next
      have hbuilt := hjoin.built hg (List.getElem?_eq_some_iff.mp hid).1 fun n hn => by
        cases hn
        exact ⟨hlater, _, _, hid, hnext, path, index, rfl, rfl⟩
      have hrest : Siblings { g with
          next_sibling := Function.update g.next_sibling id (some next) } path (index + 1)
          (next :: ids) := by
        refine ⟨fun {k n} hk => ?_, hids.sorted.of_cons, fun n hn => ?_⟩
        · have hn := hids.located (k := k + 1) hk
          rw [show index + 1 + k = index + (k + 1) by omega]
          exact hn
        · have hne : n ≠ id := (Nat.ne_of_lt (List.rel_of_pairwise_cons hids.sorted hn)).symm
          rw [hjoin.elsewhere (by simp [hne])]
          exact hids.unlinked n (List.mem_cons_of_mem _ hn)
      have hlinked := link_linked hbuilt hrest
      refine ⟨hlinked.addresses, hlinked.built, fun {n step} hn => ?_,
        fun hn => hlinked.reached (hjoin.reached hnone hn), fun n hn => ?_⟩
      · rw [link, hlinked.kept (hn.imp_left fun hmem h => hmem (List.mem_cons_of_mem _ h)),
          hjoin.elsewhere]
        rintro ⟨⟩
        rcases hn with hn | hn
        · exact hn List.mem_cons_self
        · cases hn
      · rw [link]
        rcases List.mem_cons.mp hn with rfl | hn
        · exact hlinked.reached ⟨id, .nextSibling, hjoin.here⟩
        · exact hlinked.linked n hn

end Linked

section Added

/-- What adding a node with its subtree adds: it is the first of what is added, and the rest is
reached from it. -/
structure AddedNode (g g' : Graph) (path : Address) (n : Tpl) : Prop where
  addresses : g'.addresses = g.addresses ++ n.addresses path
  built : g'.Built
  kept : ∀ {id step}, id < g.addresses.length → g'.edge id step = g.edge id step
  alone : g'.edge g.addresses.length .nextSibling = none
  reached : ∀ {id}, g.addresses.length < id → id < g'.addresses.length → g'.Reached id

/-- What adding siblings adds: they are where they should be, and the rest is reached. -/
structure Added (g g' : Graph) (path : Address) (index : Nat) (ns : List Tpl) (ids : List Nat) :
    Prop where
  addresses : g'.addresses = g.addresses ++ preorder path index ns
  built : g'.Built
  kept : ∀ {id step}, id < g.addresses.length → g'.edge id step = g.edge id step
  siblings : Siblings g' path index ids
  new : ∀ id ∈ ids, g.addresses.length ≤ id ∧ id < g'.addresses.length
  reached : ∀ {id}, g.addresses.length ≤ id → id < g'.addresses.length →
    id ∈ ids ∨ g'.Reached id

theorem addresses_ne_nil (path : Address) (n : Tpl) :
    ∃ rest, n.addresses path = path :: rest := by
  cases n with
  | element tag attributes children => exact ⟨_, rfl⟩
  | text s => exact ⟨[], rfl⟩
  | anchor edge => exact ⟨[], rfl⟩

variable {path : Address} {g g' : Graph} {n : Tpl}

theorem AddedNode.length (h : AddedNode g g' path n) :
    g.addresses.length < g'.addresses.length := by
  obtain ⟨rest, hrest⟩ := addresses_ne_nil path n
  rw [h.addresses, hrest]
  simp

theorem AddedNode.located
    (h : AddedNode g g' path n) : g'.addresses[g.addresses.length]? = some path := by
  obtain ⟨rest, hrest⟩ := addresses_ne_nil path n
  rw [h.addresses, hrest]
  simp

theorem Reached.of_kept (hg : g.Built)
    (hkept : ∀ {id step}, id < g.addresses.length → g'.edge id step = g.edge id step) {id : Nat}
    (h : g.Reached id) : g'.Reached id := by
  obtain ⟨p, step, hedge⟩ := h
  refine ⟨p, step, ?_⟩
  rw [hkept, hedge]
  by_contra hp
  rw [hg.fresh (Nat.not_lt.mp hp)] at hedge
  cases hedge

theorem leaf_added {g : Graph} (hg : g.Built) (path : Address)
    (hn : n.addresses path = [path]) : AddedNode g (g.push path) path n := by
  refine ⟨by rw [hn]; rfl, hg.push path, fun _ => edge_push g path _ _, ?_, fun hlt hlt' => ?_⟩
  · rw [edge_push]
    exact hg.fresh le_rfl
  · rw [length_push] at hlt'
    omega

theorem cons_added {g g₁ g₂ : Graph} {index : Nat} {ns : List Tpl}
    {ids : List Nat} (hn : AddedNode g g₁ (path ++ [index]) n)
    (hns : Added g₁ g₂ path (index + 1) ns ids) :
    Added g g₂ path index (n :: ns) (g.addresses.length :: ids) := by
  have hlength := hn.length
  have hlocated : g₂.addresses[g.addresses.length]? = some (path ++ [index]) := by
    rw [hns.addresses, List.getElem?_append_left hlength]
    exact hn.located
  constructor
  · rw [hns.addresses, hn.addresses, preorder, List.append_assoc]
  · exact hns.built
  · intro id step hid
    rw [hns.kept (by omega), hn.kept hid]
  · refine ⟨fun {k id} hk => ?_, ?_, ?_⟩
    · cases k with
      | zero =>
          cases hk
          exact hlocated
      | succ k =>
          have hid := hns.siblings.located (k := k) hk
          rw [show index + (k + 1) = index + 1 + k by omega]
          exact hid
    · refine List.pairwise_cons.mpr ⟨fun id hid => ?_, hns.siblings.sorted⟩
      have hnew := hns.new id hid
      omega
    · intro id hid
      rcases List.mem_cons.mp hid with rfl | hid
      · rw [hns.kept hlength]
        exact hn.alone
      · exact hns.siblings.unlinked id hid
  · intro id hid
    have hlt : g.addresses.length < g₂.addresses.length :=
      (List.getElem?_eq_some_iff.mp hlocated).1
    rcases List.mem_cons.mp hid with rfl | hid
    · exact ⟨le_rfl, hlt⟩
    · have hnew := hns.new id hid
      omega
  · intro id hle hlt
    rcases Nat.lt_or_ge id g₁.addresses.length with hid | hid
    · rcases Nat.eq_or_lt_of_le hle with rfl | hgt
      · exact Or.inl List.mem_cons_self
      · exact Or.inr ((hn.reached hgt hid).of_kept hn.built hns.kept)
    · exact (hns.reached hid hlt).imp_left (List.mem_cons_of_mem _)

theorem element_added {g g₁ : Graph} (hg : g.Built) {tag : String}
    {attributes : List (String × String)} {children : List Tpl} {ids : List Nat}
    (h : Added (g.push path) g₁ path 0 children ids) :
    AddedNode g { g₁.link ids with
      first_child := Function.update (g₁.link ids).first_child g.addresses.length ids.head? }
      path (.element tag attributes children) := by
  have hlinked := link_linked h.built h.siblings
  have hjoin := joined_first (g₁.link ids) g.addresses.length ids.head?
  have hpush := length_push g path
  have hlocated : g₁.addresses[g.addresses.length]? = some path := by
    rw [h.addresses, List.getElem?_append_left (by omega)]
    simp [push]
  have hlength := (List.getElem?_eq_some_iff.mp hlocated).1
  have hout : g.addresses.length ∉ ids := fun hmem => by
    have hnew := h.new _ hmem
    omega
  have hnone : (g₁.link ids).edge g.addresses.length .firstChild = none := by
    rw [hlinked.kept (Or.inl hout), h.kept (by omega), edge_push]
    exact hg.fresh le_rfl
  constructor
  · rw [hjoin.addresses, hlinked.addresses, h.addresses, push, Tpl.addresses,
      List.append_assoc]
    rfl
  · refine hjoin.built hlinked.built (by rw [hlinked.addresses]; exact hlength) fun next hnext => ?_
    rw [List.head?_eq_getElem?] at hnext
    have hnew := h.new next (List.mem_of_getElem? hnext)
    refine ⟨by omega, path, _, hlinked.addresses ▸ hlocated, ?_, rfl⟩
    rw [hlinked.addresses]
    exact h.siblings.located hnext
  · intro id step hid
    rw [hjoin.elsewhere (by rintro ⟨⟩; omega),
      hlinked.kept (Or.inl fun hmem => by have hnew := h.new _ hmem; omega),
      h.kept (by omega), edge_push]
  · rw [hjoin.elsewhere (by simp), hlinked.kept (Or.inl hout), h.kept (by omega), edge_push]
    exact hg.fresh le_rfl
  · intro id hgt hlt
    rw [hjoin.addresses, hlinked.addresses] at hlt
    rcases h.reached (by omega) hlt with hmem | hreached
    · cases ids with
      | nil => cases hmem
      | cons first rest =>
          rcases List.mem_cons.mp hmem with rfl | hmem
          · exact ⟨g.addresses.length, .firstChild, hjoin.here⟩
          · exact hjoin.reached hnone (hlinked.linked id hmem)
    · exact hjoin.reached hnone (hlinked.reached hreached)

mutual

theorem add_node_added : ∀ (n : Tpl) {g : Graph}, g.Built → ∀ (path : Address),
    AddedNode g (g.add_node path n) path n
  | .element _ _ children, _, hg, path =>
      element_added hg (add_each_added children (hg.push path) path 0)
  | .text _, _, hg, path => leaf_added hg path rfl
  | .anchor _, _, hg, path => leaf_added hg path rfl

theorem add_each_added : ∀ (ns : List Tpl) {g : Graph}, g.Built → ∀ (path : Address)
    (index : Nat), Added g (g.add_each path index ns).1 path index ns (g.add_each path index ns).2
  | [], g, hg, path, index => by
      refine ⟨?_, hg, fun _ => rfl, ⟨fun hk => ?_, List.Pairwise.nil, ?_⟩, ?_, fun hle hlt => ?_⟩
      · simp [add_each, preorder]
      · cases hk
      · rintro id ⟨⟩
      · rintro id ⟨⟩
      · exact absurd hlt (Nat.not_lt.mpr hle)
  | n :: ns, g, hg, path, index => by
      have hn := add_node_added n hg (path ++ [index])
      exact cons_added hn (add_each_added ns hn.built path (index + 1))

end

theorem add_siblings_built (roots : List Tpl) :
    (empty.add_siblings roots []).addresses = preorder [] 0 roots ∧
      (empty.add_siblings roots []).Built ∧
      ∀ {id}, 0 < id → id < (empty.add_siblings roots []).addresses.length →
        (empty.add_siblings roots []).Reached id := by
  have hadded := add_each_added roots empty_built [] 0
  have hlinked := link_linked hadded.built hadded.siblings
  refine ⟨?_, hlinked.built, fun {id} hpos hlt => ?_⟩
  · rw [add_siblings, hlinked.addresses, hadded.addresses]
    rfl
  · rw [add_siblings, hlinked.addresses] at hlt
    rcases hadded.reached (Nat.zero_le _) hlt with hmem | hreached
    · cases roots with
      | nil => cases hmem
      | cons first rest =>
          rcases List.mem_cons.mp hmem with rfl | hmem
          · exact absurd hpos (Nat.lt_irrefl 0)
          · exact hlinked.linked id hmem
    · exact hlinked.reached hreached

end Added

end Graph

end Template
end Zdeceptron
