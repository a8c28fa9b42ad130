import Zdeceptron.Routes.Hir

/-!
# Routes, checked and enumerated

`check` renders the URL of every combination of the values of an enumerable route and
refuses two that are the same.  A route with a parameter that is not enumerable renders
nothing: it may not be declared at the path of another route.
-/

namespace Zdeceptron
namespace Routes

section Fold

inductive Constant
  | text (text : Text)
  | number (n : Float)
  | truth (b : Bool)
  | list (items : List Constant)

/-- The values of the `static` signals folded so far. -/
abbrev Known := List (Nat × Constant)

mutual

def fold (known : Known) : Expr → Option Constant
  | .text text => some (.text text)
  | .number n => some (.number n)
  | .truth b => some (.truth b)
  | .conditional condition value otherwise =>
      match fold known condition with
      | some (.truth true) => fold known value
      | some (.truth false) => fold known otherwise
      | _ => none
  | .list items => (foldEach known items).map Constant.list
  | .ref definition => known.lookup definition
  | .address => none
  | .other => none

def foldEach (known : Known) : List Expr → Option (List Constant)
  | [] => some []
  | item :: items =>
      match fold known item, foldEach known items with
      | some value, some values => some (value :: values)
      | _, _ => none

end

def learn (known : Known) (id : Nat) : DefKind → Known
  | .signal signal =>
      if signal.placement ≠ .static ∨ (known.lookup id).isSome then known
      else
        match fold known signal.init with
        | some value => (id, value) :: known
        | none => known
  | _ => known

def pass : Nat → List DefKind → Known → Known
  | _, [], known => known
  | id, definition :: defs, known => pass (id + 1) defs (learn known id definition)

def passes (defs : List DefKind) : Nat → Known → Known
  | 0, known => known
  | rounds + 1, known =>
      let next := pass 0 defs known
      if next.length = known.length then next else passes defs rounds next

/-- Every pass but the last learns a signal, so there are at most as many as there are
definitions and one more. -/
def constants (hir : Hir) : Known := passes hir.defs (hir.defs.length + 1) []

end Fold

section Errors

inductive RouteError
  | notState (source : Nat)
  | secret (source : Nat)
  | notStatic (source : Nat) (placement : Placement)
  | notList (source : Nat)
  | notSegment (source : Nat)
  | unsafeSegment (source : Nat) (segment : Text)
  | samePrefix (index other : Nat) (path : Text)
  | sameUrl (index first : Nat) (url : Text)
  | twoPhrasings (url : Text) (route : Nat)
  | writtenAddress (target : Nat)

end Errors

section Enumerate

def isWhole (n : Float) : Bool :=
  match n.toModel.unpack with
  | .zero _ => true
  | .finite _ m e _ => decide (0 ≤ e) || m % 2 ^ (-e).toNat == 0
  | _ => false

def numberToText (n : Float) : Text :=
  if isWhole n then (toString n.toInt64).toList
  else (Store.Number.display n).map Char.ofNat

def Constant.asSegment : Constant → Option Text
  | .text segment => some segment
  | .number n => some (numberToText n)
  | .truth _ => none
  | .list _ => none

def segmentsOf (source : Nat) : List Constant → Except RouteError (List Text)
  | [] => .ok []
  | item :: items =>
      match item.asSegment with
      | none => .error (.notSegment source)
      | some segment =>
          if segmentIsSafe segment then
            (segmentsOf source items).map (fun segments => segment :: segments)
          else .error (.unsafeSegment source segment)

/-- The values a route parameter ranges over, or why it does not have any. -/
def enumeratedValues (hir : Hir) (source : Nat) : Except RouteError (List Text) :=
  match hir.defs[source]? with
  | some (.signal signal) =>
      if signal.secret then .error (.secret source)
      else if signal.placement ≠ .static then .error (.notStatic source signal.placement)
      else
        match (constants hir).lookup source with
        | some (.list items) => segmentsOf source items
        | _ => .error (.notList source)
  | _ => .error (.notState source)

/-- The values of every parameter if all are enumerable, with what was refused. -/
def enumerate (hir : Hir) : List RouteParam → List RouteError × Option (List (List Text))
  | [] => ([], some [])
  | param :: params =>
      let (errors, columns) := enumerate hir params
      match param.enumeratedIn with
      | none => (errors, none)
      | some source =>
          match enumeratedValues hir source with
          | .ok values => (errors, columns.map (fun columns => values :: columns))
          | .error error => (error :: errors, none)

def product (columns : List (List Text)) : List (List Text) :=
  columns.foldl
    (fun rows column => rows.flatMap (fun row => column.map (fun value => row ++ [value])))
    [[]]

end Enumerate

section Pages

structure Page where
  url : Text
  variant : Option Nat
  values : List Text
  slug : Text
deriving DecidableEq

structure Site where
  pages : List Page
deriving DecidableEq

def trimMatches (url : Text) : Text :=
  (trimEndMatches url).dropWhile (fun c => c == '/')

def slugOf (url : Text) : Text :=
  if trimMatches url = [] then "index".toList
  else (trimMatches url).map (fun c => if c.isAlphanum then c else '-')

/-- The pages so far, the URLs they are at, each with its route, and what was refused. -/
structure Collected where
  errors : List RouteError
  pages : List Page
  seen : List (Text × Nat)

def Collected.render (table : RouteTable) (index : Nat) (c : Collected) (values : List Text) :
    Collected :=
  let url := table.url index values
  match c.seen.lookup url with
  | some first => { c with errors := c.errors ++ [.sameUrl index first url] }
  | none =>
      { c with
        seen := c.seen ++ [(url, index)]
        pages := c.pages ++ [⟨url, some index, values, slugOf url⟩] }

def sharing (table : RouteTable) (index : Nat) (path : Text) : List RouteError :=
  table.variants.zipIdx.filterMap (fun (sibling, other) =>
    if other ≠ index ∧ trimEndMatches path = trimEndMatches sibling.path then
      some (.samePrefix index other path)
    else none)

def Collected.variant (hir : Hir) (table : RouteTable) (c : Collected) (index : Nat)
    (variant : RouteVariantInfo) : Collected :=
  let (errors, columns) := enumerate hir variant.params
  let c := { c with errors := c.errors ++ errors }
  match columns with
  | none => { c with errors := c.errors ++ sharing table index variant.path }
  | some columns => (product columns).foldl (Collected.render table index) c

def Collected.variants (hir : Hir) (table : RouteTable) :
    Nat → List RouteVariantInfo → Collected → Collected
  | _, [], c => c
  | index, variant :: rest, c =>
      Collected.variants hir table (index + 1) rest (c.variant hir table index variant)

end Pages

section Destinations

mutual

def nodeDestinations : Node → List Text
  | .element element => elementDestinations element
  | .each body => nodesDestinations body
  | .when arms => armsDestinations arms
  | .ifThen then_ none => nodesDestinations then_
  | .ifThen then_ (some otherwise) => nodesDestinations then_ ++ nodesDestinations otherwise
  | .scope body => nodesDestinations body
  | .handler _ => []
  | .children => []

def nodesDestinations : List Node → List Text
  | [] => []
  | node :: nodes => nodeDestinations node ++ nodesDestinations nodes

def elementDestinations : Element → List Text
  | .mk name args children =>
      (match destinationOf name args with
        | some (.text url) => [url]
        | _ => []) ++ nodesDestinations children

def armsDestinations : List NodeArm → List Text
  | [] => []
  | .show_ element :: arms => elementDestinations element ++ armsDestinations arms
  | .nodes nodes :: arms => nodesDestinations nodes ++ armsDestinations arms

end

/-- Every `Link` destination written as a text literal. -/
def literalDestinations (hir : Hir) : List Text :=
  hir.defs.flatMap (fun definition =>
    match definition with
    | .view nodes => nodesDestinations nodes
    | _ => [])

def twoPhrasings (seen : List (Text × Nat)) (destinations : List Text) : List RouteError :=
  destinations.filterMap (fun url =>
    (seen.lookup url).map (fun route => RouteError.twoPhrasings url route))

end Destinations

section Writes

mutual

def stmtWrites : Bodies.Stmt Expr Effect → List Nat
  | .mutation (.mutation (some target)) => [target]
  | .mutation _ => []
  | .when _ arms => armsWrites arms
  | .each _ _ body => blockWrites body
  | .ifThen _ then_ none => blockWrites then_
  | .ifThen _ then_ (some otherwise) => blockWrites then_ ++ blockWrites otherwise
  | .pipeline _ => []
  | .give _ => []
  | .bind _ => []
  | .perform _ => []

def blockWrites : List (Bodies.Stmt Expr Effect) → List Nat
  | [] => []
  | stmt :: stmts => stmtWrites stmt ++ blockWrites stmts

def armsWrites : List (Bodies.Arm Expr Effect) → List Nat
  | [] => []
  | .mk _ _ (.block stmts) :: arms => blockWrites stmts ++ armsWrites arms
  | .mk _ _ (.show_ _) :: arms => armsWrites arms

end

def boundSignal (name : String) (args : List NodeArg) : List Nat :=
  if name = "Input" ∨ name = "Checkbox" then
    match args.head? with
    | some (.positional (.ref target)) => [target]
    | _ => []
  else []

mutual

def nodeWrites : Node → List Nat
  | .element element => elementWrites element
  | .each body => nodesWrites body
  | .when arms => nodeArmsWrites arms
  | .ifThen then_ none => nodesWrites then_
  | .ifThen then_ (some otherwise) => nodesWrites then_ ++ nodesWrites otherwise
  | .scope body => nodesWrites body
  | .handler body => blockWrites body
  | .children => []

def nodesWrites : List Node → List Nat
  | [] => []
  | node :: nodes => nodeWrites node ++ nodesWrites nodes

def elementWrites : Element → List Nat
  | .mk name args children => boundSignal name args ++ nodesWrites children

def nodeArmsWrites : List NodeArm → List Nat
  | [] => []
  | .show_ element :: arms => elementWrites element ++ nodeArmsWrites arms
  | .nodes nodes :: arms => nodesWrites nodes ++ nodeArmsWrites arms

end

def writes (hir : Hir) : List Nat :=
  hir.defs.flatMap (fun definition =>
    match definition with
    | .function body => blockWrites body
    | .release body => blockWrites body
    | .view nodes => nodesWrites nodes
    | _ => [])

def fromAddress (hir : Hir) (target : Nat) : Bool :=
  match hir.defs[target]? with
  | some (.signal signal) =>
      match signal.init with
      | .address => true
      | _ => false
  | _ => false

/-- A signal initialised from `address` is immutable. -/
def addressIsImmutable (hir : Hir) : List RouteError :=
  ((writes hir).filter (fromAddress hir)).map RouteError.writtenAddress

end Writes

section Check

def finish (site : Site) (errors : List RouteError) : Except (List RouteError) Site :=
  if errors.isEmpty then .ok site else .error errors

def check (hir : Hir) : Except (List RouteError) Site :=
  match hir.routes with
  | none => finish ⟨[]⟩ (addressIsImmutable hir)
  | some table =>
      let c := Collected.variants hir table 0 table.variants
        ⟨addressIsImmutable hir, [], []⟩
      let errors := c.errors ++ twoPhrasings c.seen (literalDestinations hir)
      let notFound : Page := ⟨"/404".toList, none, [], "not-found".toList⟩
      finish ⟨c.pages ++ [notFound]⟩ errors

end Check

end Routes
end Zdeceptron
