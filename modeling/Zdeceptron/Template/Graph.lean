import Mathlib.Data.List.Sort
import Mathlib.Logic.Function.Basic
import Zdeceptron.Template.Placed

/-!
# The graph a walk traverses

A region is flattened into its `firstChild` and `nextSibling` edges, in document order.  The two
edges make a binary tree, so the only walk to a node is read off by climbing from it.
-/

namespace Zdeceptron
namespace Template

inductive Step
  | firstChild
  | nextSibling
deriving DecidableEq

/-- The nodes in document order, the edges between them, and for each node the step that reaches
it and its distance from the first. -/
structure Graph where
  addresses : List Address
  first_child : Nat → Option Nat
  next_sibling : Nat → Option Nat
  parent : Nat → Option (Nat × Step)
  depth : Nat → Nat

namespace Graph

def empty : Graph := ⟨[], fun _ => none, fun _ => none, fun _ => none, fun _ => 0⟩

def push (g : Graph) (path : Address) : Graph := { g with addresses := g.addresses ++ [path] }

def link (g : Graph) : List Nat → Graph
  | id :: next :: ids =>
      link { g with next_sibling := Function.update g.next_sibling id (some next) } (next :: ids)
  | _ => g

mutual

def add_node (g : Graph) (path : Address) : Tpl → Graph
  | .element _ _ children =>
      let added := add_each (g.push path) path 0 children
      let linked := added.1.link added.2
      { linked with
        first_child := Function.update linked.first_child g.addresses.length added.2.head? }
  | .text _ => g.push path
  | .anchor _ => g.push path

def add_each (g : Graph) (path : Address) (index : Nat) : List Tpl → Graph × List Nat
  | [] => (g, [])
  | n :: ns =>
      let rest := add_each (add_node g (path ++ [index]) n) path (index + 1) ns
      (rest.1, g.addresses.length :: rest.2)

end

def add_siblings (g : Graph) (ns : List Tpl) (path : Address) : Graph :=
  (add_each g path 0 ns).1.link (add_each g path 0 ns).2

def reach (g : Graph) (id : Nat) (step : Step) : Option Nat → Graph
  | some next => { g with
      parent := Function.update g.parent next (some (id, step))
      depth := Function.update g.depth next (g.depth id + 1) }
  | none => g

def reachFrom (g : Graph) (id : Nat) : Graph :=
  (g.reach id .firstChild (g.first_child id)).reach id .nextSibling (g.next_sibling id)

def build (roots : List Tpl) : Graph :=
  let g := empty.add_siblings roots []
  (List.range g.addresses.length).foldl reachFrom { g with
    parent := fun _ => none
    depth := fun _ => 0 }

/-- Addresses are distinct, so the map from them to nodes holds the index of each. -/
def id_of (g : Graph) (address : Address) : Option Nat := g.addresses.idxOf? address

/-- The climb from `cursor` to `origin`, the last step first, at most this many steps. -/
def climb (g : Graph) (origin : Nat) : Nat → Nat → Option (List Step)
  | 0, cursor => if cursor = origin then some [] else none
  | room + 1, cursor =>
      if cursor = origin then some []
      else
        match g.parent cursor with
        | some (parent, step) => (climb g origin room parent).map (step :: ·)
        | none => none

def route (g : Graph) (origin target : Nat) : Option (List Step) :=
  if g.depth target < g.depth origin then none
  else (g.climb origin g.addresses.length target).map List.reverse

def climbNamed (g : Graph) (named : Nat → Option Nat) : Nat → Nat → Option (Nat × List Step)
  | 0, _ => none
  | room + 1, cursor =>
      match g.parent cursor with
      | some (parent, step) =>
          match named parent with
          | some name => some (name, [step])
          | none => (climbNamed g named room parent).map fun up => (up.1, step :: up.2)
      | none => none

def nearest_named (g : Graph) (named : Nat → Option Nat) (id : Nat) :
    Option (Nat × List Step) :=
  (g.climbNamed named g.addresses.length id).map fun up => (up.1, up.2.reverse)

end Graph

section Preorder

mutual

def Tpl.addresses (path : Address) : Tpl → List Address
  | .element _ _ children => path :: preorder path 0 children
  | .text _ => [path]
  | .anchor _ => [path]

def preorder (path : Address) (index : Nat) : List Tpl → List Address
  | [] => []
  | n :: ns => n.addresses (path ++ [index]) ++ preorder path (index + 1) ns

end

theorem node_at_zero (n : Tpl) (ns : List Tpl) (rest : Address) :
    node_at (n :: ns) (0 :: rest) = node_at [n] (0 :: rest) := by
  cases rest <;> rfl

theorem node_at_succ (n : Tpl) (ns : List Tpl) (i : Nat) (rest : Address) :
    node_at (n :: ns) ((i + 1) :: rest) = node_at ns (i :: rest) := by
  cases rest <;> rfl

theorem node_at_inside {tag : String} {attributes : List (String × String)}
    {children : List Tpl} {i : Nat} {rest : Address} :
    node_at [.element tag attributes children] (0 :: i :: rest) = node_at children (i :: rest) :=
  rfl

mutual

theorem mem_addresses : ∀ {n : Tpl} {path a : Address}, a ∈ n.addresses path →
    ∃ rest, a = path ++ rest ∧ (node_at [n] (0 :: rest)).isSome = true
  | .element tag attributes children, path, a, h => by
      rcases List.mem_cons.mp h with rfl | h
      · exact ⟨[], (List.append_nil a).symm, rfl⟩
      · obtain ⟨i, rest, rfl, hsome⟩ := mem_preorder h
        rw [Nat.zero_add]
        exact ⟨i :: rest, rfl, hsome⟩
  | .text s, path, a, h => ⟨[], by simpa [Tpl.addresses] using h, rfl⟩
  | .anchor edge, path, a, h => ⟨[], by simpa [Tpl.addresses] using h, rfl⟩

theorem mem_preorder : ∀ {ns : List Tpl} {path : Address} {index : Nat} {a : Address},
    a ∈ preorder path index ns →
    ∃ i rest, a = path ++ (index + i) :: rest ∧ (node_at ns (i :: rest)).isSome = true
  | n :: ns, path, index, a, h => by
      rcases List.mem_append.mp h with h | h
      · obtain ⟨rest, rfl, hsome⟩ := mem_addresses h
        exact ⟨0, rest, by simp, (node_at_zero n ns rest).symm ▸ hsome⟩
      · obtain ⟨i, rest, rfl, hsome⟩ := mem_preorder h
        exact ⟨i + 1, rest, by rw [Nat.add_right_comm, Nat.add_assoc],
          (node_at_succ n ns i rest).symm ▸ hsome⟩

end

mutual

theorem addresses_mem : ∀ {n : Tpl} (path : Address) {rest : Address},
    (node_at [n] (0 :: rest)).isSome = true → path ++ rest ∈ n.addresses path
  | .element tag attributes children, path, [], _ => by simp [Tpl.addresses]
  | .element tag attributes children, path, i :: rest, h => by
      rw [node_at_inside] at h
      have hmem := preorder_mem path 0 h
      rw [Nat.zero_add] at hmem
      exact List.mem_cons_of_mem _ hmem
  | .text s, path, [], _ => by simp [Tpl.addresses]
  | .text s, path, i :: rest, h => by cases h
  | .anchor edge, path, [], _ => by simp [Tpl.addresses]
  | .anchor edge, path, i :: rest, h => by cases h

theorem preorder_mem : ∀ {ns : List Tpl} (path : Address) (index : Nat) {i : Nat}
    {rest : Address},
    (node_at ns (i :: rest)).isSome = true → path ++ (index + i) :: rest ∈ preorder path index ns
  | [], _, _, i, rest, h => by cases rest <;> simp [node_at] at h
  | n :: ns, path, index, 0, rest, h => by
      rw [node_at_zero] at h
      refine List.mem_append_left _ ?_
      have hmem := addresses_mem (path ++ [index]) h
      rwa [List.append_assoc] at hmem
  | n :: ns, path, index, i + 1, rest, h => by
      rw [node_at_succ] at h
      refine List.mem_append_right _ ?_
      have hmem := preorder_mem path (index + 1) h
      rwa [show index + 1 + i = index + (i + 1) by omega] at hmem

end

def Before (a b : Address) : Prop := ¬ b <+: a

mutual

theorem addresses_pairwise : ∀ (n : Tpl) (path : Address), (n.addresses path).Pairwise Before
  | .element tag attributes children, path => by
      refine List.pairwise_cons.mpr ⟨fun a ha hprefix => ?_, preorder_pairwise children path 0⟩
      obtain ⟨i, rest, rfl, -⟩ := mem_preorder ha
      have hlength := hprefix.length_le
      rw [List.length_append, List.length_cons] at hlength
      omega
  | .text s, path => List.pairwise_singleton _ _
  | .anchor edge, path => List.pairwise_singleton _ _

theorem preorder_pairwise : ∀ (ns : List Tpl) (path : Address) (index : Nat),
    (preorder path index ns).Pairwise Before
  | [], _, _ => List.Pairwise.nil
  | n :: ns, path, index => by
      refine List.pairwise_append.mpr
        ⟨addresses_pairwise n _, preorder_pairwise ns path _, fun a ha b hb hprefix => ?_⟩
      obtain ⟨rest, rfl, -⟩ := mem_addresses ha
      obtain ⟨i, rest', rfl, -⟩ := mem_preorder hb
      rw [List.append_assoc, List.prefix_append_right_inj, List.singleton_append,
        List.cons_prefix_cons] at hprefix
      omega

end

end Preorder

end Template
end Zdeceptron
