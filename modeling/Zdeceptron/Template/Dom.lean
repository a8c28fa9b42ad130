import Zdeceptron.Template.Emission

/-!
# Running a region over a document

A document holds the nodes of a template and others.  A bind on a hole inserts nodes between its
two anchors, whenever it likes and as many as it likes, and one that fills an element writes what
stands in it.
-/

namespace Zdeceptron
namespace Template

section Documents

/-- A node of a document: the fragment itself, a node of the template, or any other. -/
inductive DomNode
  | fragment
  | tpl (address : Address)
  | other (k : Nat)
deriving DecidableEq

def DomNode.isOther : DomNode → Bool
  | .other _ => true
  | _ => false

structure Dom where
  kids : DomNode → List DomNode
  parent : DomNode → Option DomNode
  mem_kids : ∀ {x p}, x ∈ kids p ↔ parent x = some p
  nodup : ∀ p, (kids p).Nodup

def following (x : DomNode) : List DomNode → Option DomNode
  | [] => none
  | y :: ys => if y = x then ys.head? else following x ys

namespace Dom

variable (d : Dom)

def firstChild (x : DomNode) : Option DomNode := (d.kids x).head?

def nextSibling (x : DomNode) : Option DomNode :=
  (d.parent x).bind fun p => following x (d.kids p)

def step (x : DomNode) : Step → Option DomNode
  | .firstChild => d.firstChild x
  | .nextSibling => d.nextSibling x

/-- A chain of steps, which is an exception where there is no node to go on from. -/
def follow : DomNode → List Step → Option DomNode
  | x, [] => some x
  | x, s :: steps => (d.step x s).bind fun y => follow y steps

end Dom

def refill (new : List DomNode) (start stop : DomNode) : List DomNode → List DomNode
  | [] => []
  | x :: xs =>
      if x = start then x :: (new ++ xs.dropWhile (· ≠ stop)) else x :: refill new start stop xs

end Documents

section Machine

/-- A region being run: the nodes named so far, the document, the anchors passed to the binds on
holes, and the elements passed to binds that fill them. -/
structure Machine where
  env : Nat → Option DomNode
  dom : Dom
  regions : List (DomNode × Option DomNode)
  owned : List DomNode

def Machine.eval (m : Machine) : Chain → Option DomNode
  | .fragment steps => (m.dom.firstChild .fragment).bind fun x => m.dom.follow x steps
  | .named name steps => (m.env name).bind fun x => m.dom.follow x steps

inductive Change (m : Machine) : Dom → Prop
  | refill {start stop : DomNode} {new : List DomNode} {d : Dom} :
      (start, some stop) ∈ m.regions → (∀ x ∈ new, x.isOther = true) →
      (∀ p, p.isOther = false → d.kids p = Template.refill new start stop (m.dom.kids p)) →
      Change m d
  | fill {x : DomNode} {d : Dom} :
      x ∈ m.owned → (∀ p, p.isOther = false → p ≠ x → d.kids p = m.dom.kids p) → Change m d

def Machine.attached (m : Machine) (b : Bind) (x : DomNode) : Machine :=
  { m with
    regions := if b.kind.isHole then (x, m.dom.nextSibling x) :: m.regions else m.regions
    owned := if b.kind.fills then x :: m.owned else m.owned }

inductive Runs : Machine → List Stmt → Machine → List Stmt → Prop
  | refl {m : Machine} {stmts : List Stmt} : Runs m stmts m stmts
  | const {m m' : Machine} {stmts rest : List Stmt} {name : Nat} {chain : Chain} {x : DomNode} :
      Runs m stmts m' (.const name chain :: rest) → m'.eval chain = some x →
      Runs m stmts { m' with env := Function.update m'.env name (some x) } rest
  | attach {m m' : Machine} {stmts rest : List Stmt} {b : Bind} {target : Chain} {x : DomNode} :
      Runs m stmts m' (.attach b target :: rest) → m'.eval target = some x →
      Runs m stmts (m'.attached b x) rest
  | change {m m' : Machine} {stmts rest : List Stmt} {d : Dom} :
      Runs m stmts m' rest → Change m' d → Runs m stmts { m' with dom := d } rest

end Machine

end Template
end Zdeceptron
