import Zdeceptron.Template.Climb

/-!
# Emitting the walk of a region

A region is emitted as a walk that names nodes, and then as statements that attach the binds, in
document order.
-/

namespace Zdeceptron
namespace Template

section Statements

/-- The expression that reaches a node: steps from the fragment's first child, or from a node
that has a name. -/
inductive Chain
  | fragment (steps : List Step)
  | named (name : Nat) (steps : List Step)

/-- A statement of a region.  `attach` passes its target, and for a hole the sibling after it too,
to the bind it is emitted for. -/
inductive Stmt
  | const (name : Nat) (chain : Chain)
  | attach (bind : Bind) (target : Chain)

structure Site where
  anchor : Nat
  suffix : List Step
  bind : Bind

def Site.root (g : Graph) (site : Site) : Option Nat :=
  match g.addresses[site.anchor]? with
  | some (first :: _ :: _) => g.id_of [first]
  | _ => none

def dedup : List Nat → List Nat
  | a :: b :: rest => if a = b then dedup (b :: rest) else a :: dedup (b :: rest)
  | rest => rest

end Statements

namespace Emission

variable (g : Graph)

/-- An element and an anchor are named themselves, a text is reached from its parent. -/
def namesItself : Option Tpl → Bool
  | some (.element _ _ _) => true
  | some (.anchor _) => true
  | _ => false

/-- `none` is a walk that was expected to be there and is not. -/
def sites (roots : List Tpl) : List Bind → Option (List Site)
  | [] => some []
  | b :: binds =>
      match g.id_of b.target with
      | none => sites roots binds
      | some target =>
          if namesItself (node_at roots b.target) then
            (sites roots binds).map (⟨target, [], b⟩ :: ·)
          else
            match g.id_of b.target.dropLast with
            | none => sites roots binds
            | some parent =>
                (g.route parent target).bind fun suffix =>
                  (sites roots binds).map (⟨parent, suffix, b⟩ :: ·)

def named (sites : List Site) : List Nat :=
  dedup ((sites.map Site.anchor ++ sites.filterMap (Site.root g)).mergeSort (· ≤ ·))

def shortest_chain (assigned : Nat → Option Nat) (id : Nat) : Option Chain :=
  match g.nearest_named assigned id with
  | some (name, steps) => some (.named name steps)
  | none => (g.route 0 id).map Chain.fragment

def walk (assigned : Nat → Option Nat) (locals : Nat) :
    List Nat → Option (List Stmt × (Nat → Option Nat))
  | [] => some ([], assigned)
  | id :: ids =>
      (shortest_chain g assigned id).bind fun chain =>
        (walk (Function.update assigned id (some locals)) (locals + 1) ids).map fun rest =>
          (.const locals chain :: rest.1, rest.2)

def attach (assigned : Nat → Option Nat) (site : Site) : Option Stmt :=
  (assigned site.anchor).map fun name => .attach site.bind (.named name site.suffix)

/-- The statements of a region, whose names are numbered from `locals` on. -/
def region (r : Region) (locals : Nat) : Option (List Stmt) :=
  let g := Graph.build r.roots
  (sites g r.roots r.binds).bind fun sites =>
    (walk g (fun _ => none) locals (named g sites)).bind fun walked =>
      ((sites.mergeSort fun a b => a.anchor ≤ b.anchor).mapM (attach walked.2)).map
        (walked.1 ++ ·)

end Emission

end Template
end Zdeceptron
