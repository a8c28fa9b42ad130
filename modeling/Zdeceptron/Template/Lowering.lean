import Mathlib.Data.List.Basic

/-!
# Lowering a view to templates

A region of a view becomes the markup that is parsed once and the binds that are attached to it.
`each`, `when` and `if` become a hole, which is a pair of comments, and their bodies become
regions of their own.
-/

namespace Zdeceptron
namespace Template

section Regions

inductive Edge
  | open_
  | close
deriving DecidableEq

inductive Tpl
  | element (tag : String) (attributes : List (String × String)) (children : List Tpl)
  | text (text : String)
  | anchor (edge : Edge)

abbrev Address := List Nat

mutual

inductive Region
  | mk (roots : List Tpl) (binds : List Bind)

/-- What is attached to a node.  `onElement` is what touches the element alone: an attribute, a
style, a listener, a control. -/
inductive BindKind
  | text (getter : String)
  | textOnce (value : String)
  | markup (getter : String)
  | markupOnce (value : String)
  | onElement (source : String)
  | scene (draws : String)
  | foreign (callee : String)
  | each (list : String) (body : Region)
  | when (scrutinee : String) (arms : List (String × Region))
  | ifThen (condition : String) (then_ : Region) (otherwise : Option Region)

inductive Bind
  | mk (target : Address) (kind : BindKind)

end

namespace Region

def roots : Region → List Tpl
  | .mk roots _ => roots

def binds : Region → List Bind
  | .mk _ binds => binds

def of (lowered : List Tpl × List Bind) : Region := .mk lowered.1 lowered.2

end Region

namespace Bind

def target : Bind → Address
  | .mk target _ => target

def kind : Bind → BindKind
  | .mk _ kind => kind

end Bind

def BindKind.isHole : BindKind → Bool
  | .each _ _ => true
  | .when _ _ => true
  | .ifThen _ _ _ => true
  | _ => false

def BindKind.fills : BindKind → Bool
  | .markup _ => true
  | .markupOnce _ => true
  | .scene _ => true
  | .foreign _ => true
  | _ => false

def BindKind.isText : BindKind → Bool
  | .text _ => true
  | .textOnce _ => true
  | _ => false

mutual

def Region.regions : Region → List Region
  | .mk roots binds => .mk roots binds :: bindRegions binds

def bindRegions : List Bind → List Region
  | [] => []
  | .mk _ kind :: binds => kind.regions ++ bindRegions binds

def BindKind.regions : BindKind → List Region
  | .each _ body => body.regions
  | .when _ arms => armRegions arms
  | .ifThen _ then_ none => then_.regions
  | .ifThen _ then_ (some otherwise) => then_.regions ++ otherwise.regions
  | _ => []

def armRegions : List (String × Region) → List Region
  | [] => []
  | (_, body) :: arms => body.regions ++ armRegions arms

end

end Regions

section Written

/-- What a slot shows: a literal, with its text and its source, or the source of a value. -/
inductive Operand
  | literal (text js : String)
  | static (value : String)
  | reactive (getter : String)

inductive Slot
  | none_
  | text (shown : Option Operand)
  | rendered (shown : Operand)
  | choice (offered : List (String × String)) (sources : List String)
  | control (sources : List String)

/-- A named argument: the message of an `ErrorBar`, or one that touches the element alone. -/
inductive Named
  | message (shown : Operand)
  | onElement (sources : List String)

def Named.isMessage : Named → Bool
  | .message _ => true
  | .onElement _ => false

def Slot.isRendered : Slot → Bool
  | .rendered _ => true
  | _ => false

/-- An element without what is nested in it: what its row of the table of shapes says, and its
arguments.  The row with a tag around its children shows nothing of its own, and the one whose
content is a document takes nothing besides it. -/
structure Head where
  tag : String
  attributes : List (String × String)
  slot : Slot
  literal_text : Option String
  named : List Named
  children : Bool
  inner_tag : Option String
  label : Option Operand
  wraps : inner_tag.isSome = true →
    slot = .none_ ∧ literal_text = none ∧ ∀ n ∈ named, n.isMessage = false
  renders : slot.isRendered = true →
    children = false ∧ inner_tag = none ∧ literal_text = none ∧ ∀ n ∈ named, n.isMessage = false

inductive Node
  | element (head : Head) (children : List Node)
  | scene (tag : String) (attributes : List (String × String)) (sources : List String)
      (draws : String)
  | foreign (callee : String)
  | handler (source : String)
  | key (key source : String)
  | each (list : String) (body : List Node)
  | when (scrutinee : String) (arms : List (String × List Node))
  | ifThen (condition : String) (then_ : List Node) (otherwise : Option (List Node))
  | scope (body : List Node)
  | children

end Written

namespace Lowering

def hole : List Tpl := [.anchor .open_, .anchor .close]

/-- A text node for a slot: baked when it is a literal, a single space to write into otherwise. -/
def text_child (parent : Address) (index : Nat) : Operand → Tpl × List Bind
  | .literal text js =>
      if text ≠ "" then (.text text, [])
      else (.text " ", [.mk (parent ++ [index]) (.textOnce js)])
  | .static value => (.text " ", [.mk (parent ++ [index]) (.textOnce value)])
  | .reactive getter => (.text " ", [.mk (parent ++ [index]) (.text getter)])

def markup_child (target : Address) : Operand → Bind
  | .literal _ js => .mk target (.markupOnce js)
  | .static value => .mk target (.markupOnce value)
  | .reactive getter => .mk target (.markup getter)

def onElement (target : Address) (sources : List String) : List Bind :=
  sources.map fun source => .mk target (.onElement source)

def leading_argument (target : Address) : Slot → List Tpl × List Bind
  | .none_ => ([], [])
  | .text none => ([], [])
  | .text (some shown) =>
      let child := text_child target 0 shown
      ([child.1], child.2)
  | .rendered shown => ([], [markup_child target shown])
  | .choice offered sources =>
      (offered.map fun option => .element "option" [("value", option.1)] [.text option.2],
        onElement target sources)
  | .control sources => ([], onElement target sources)

def named_arguments (target : Address) : Nat → List Named → List Tpl × List Bind
  | _, [] => ([], [])
  | index, .message shown :: named =>
      let child := text_child target index shown
      let rest := named_arguments target (index + 1) named
      (child.1 :: rest.1, child.2 ++ rest.2)
  | index, .onElement sources :: named =>
      let rest := named_arguments target index named
      (rest.1, onElement target sources ++ rest.2)

def listeners (target : Address) : List Node → List Bind
  | [] => []
  | .handler source :: nodes => .mk target (.onElement source) :: listeners target nodes
  | _ :: nodes => listeners target nodes

def shown (head : Head) (target : Address) : List Tpl × List Bind :=
  let leading := leading_argument target head.slot
  let literal := head.literal_text.toList.map Tpl.text
  let named := named_arguments target (leading.1.length + literal.length) head.named
  (leading.1 ++ literal ++ named.1, leading.2 ++ named.2)

def inside (inner_tag : Option String) (children : List Tpl) : List Tpl :=
  match inner_tag with
  | some wrapper => [.element wrapper [] children]
  | none => children

mutual

/-- Lower one node whose first markup child index is `start`. -/
def node (path : Address) (start : Nat) : Node → List Tpl × List Bind
  | .element head children =>
      -- a labelled control sits one level below the element's own address
      let own := path ++ [start]
      let inner := if head.label.isSome then own ++ [0] else own
      let shown := shown head inner
      let lowered :=
        if head.children then
          if head.inner_tag.isSome then nodes (inner ++ [0]) 0 children
          else nodes inner shown.1.length children
        else ([], [])
      let element := Tpl.element head.tag head.attributes
        (inside head.inner_tag (shown.1 ++ lowered.1))
      let binds := shown.2 ++ listeners inner children ++ lowered.2
      match head.label with
      | none => ([element], binds)
      | some label =>
          let text := text_child own 1 label
          ([.element "label" [("class", "zd-row")] [element, text.1]], binds ++ text.2)
  | .scene tag attributes sources draws =>
      let own := path ++ [start]
      ([.element tag attributes []], onElement own sources ++ [.mk own (.scene draws)])
  | .foreign callee => ([.element "div" [] []], [.mk (path ++ [start]) (.foreign callee)])
  | .handler _ => ([], [])
  | .key _ _ => ([], [])
  | .each list body =>
      (hole, [.mk (path ++ [start]) (.each list (.of (nodes [] 0 body)))])
  | .when scrutinee armList =>
      (hole, [.mk (path ++ [start]) (.when scrutinee (arms armList))])
  | .ifThen condition then_ none =>
      (hole, [.mk (path ++ [start]) (.ifThen condition (.of (nodes [] 0 then_)) none)])
  | .ifThen condition then_ (some otherwise) =>
      (hole, [.mk (path ++ [start]) (.ifThen condition (.of (nodes [] 0 then_))
        (some (.of (nodes [] 0 otherwise))))])
  | .scope body => nodes path start body
  | .children => ([], [])

def nodes (path : Address) (start : Nat) : List Node → List Tpl × List Bind
  | [] => ([], [])
  | first :: rest =>
      let head := node path start first
      let tail := nodes path (start + head.1.length) rest
      (head.1 ++ tail.1, head.2 ++ tail.2)

def arms : List (String × List Node) → List (String × Region)
  | [] => []
  | (name, body) :: rest => (name, .of (nodes [] 0 body)) :: arms rest

end

/-- The region of a run of nodes, in which the bodies of holes are regions of their own. -/
def region (body : List Node) : Region := .of (nodes [] 0 body)

end Lowering

end Template
end Zdeceptron
