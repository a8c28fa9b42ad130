import Zdeceptron.Reactive.Soundness
import Zdeceptron.View.Masked

/-!
# What a page shows

The nodes of a view over a state of its cells: what each argument of an element is, which
branch of an `if`, which arm of a `when` and which rows of an `each` are there.  A computed
signal is evaluated where it is read.
-/

namespace Zdeceptron
namespace View

open Bodies Bodies.Step Reactive

section Meaning

structure Program (Verb : Type) extends Reactive.Hir Verb where
  computed : Nat → Option (HirExpr Op)

/-- What is outside the bodies.  A mutation changes the signal of its place, which it may
read. -/
structure Meaning (Verb : Type) where
  operator : Op → List Value → Except Fault Value
  call : Nat → List Value → Except Fault Value
  place : Verb → Nat
  mutate : Verb → List Value → Value → Value
  truthy : Value → Bool
  less : Value → Value → Bool
  undefined_ : Value

variable {Verb : Type}

/-- The bodies run over the cells; `compute` evaluates a computed signal. -/
def Meaning.hostWith (M : Meaning Verb) (P : Program Verb)
    (compute : HirExpr Op → Step Cells Value) : Host Cells Op Verb where
  operator op vs :=
    match cell_of P.toHir op with
    | some (.signal id) =>
        match P.computed id with
        | some e => compute e
        | none => fun cells => (.ok (cells (.signal id)), cells)
    | some cell => fun cells => (.ok (cells cell), cells)
    | none => fun cells => (M.operator op vs, cells)
  mutate verb vs := change fun cells =>
    let cell := Cell.signal (M.place verb)
    Function.update cells cell (M.mutate verb vs (cells cell))
  call id vs := fun cells => (M.call id vs, cells)
  truthy := M.truthy
  less := M.less
  undefined_ := M.undefined_

/-- The bodies, with `depth` for computed signals that read one another and `fuel` for calls
nested in one another. -/
def Meaning.host (M : Meaning Verb) (P : Program Verb) (fuel : Nat) : Nat → Host Cells Op Verb
  | 0 => M.hostWith P fun _ => fail .endless
  | depth + 1 => M.hostWith P fun e =>
      inScope (fun _ => none)
        ((M.host P fuel depth).value P.defs (P.defs.evaluate (M.host P fuel depth) fuel) e)

def Meaning.evaluate (M : Meaning Verb) (P : Program Verb) (fuel depth : Nat) (cells : Cells)
    (locals : Locals) (e : HirExpr Op) : Except Fault Value :=
  (((M.host P fuel depth).value P.defs (P.defs.evaluate (M.host P fuel depth) fuel) e).run
    ⟨locals, cells⟩).1

end Meaning

section Page

inductive Shown
  | element (name : String) (args : List (Except Fault Value)) (children : List Shown)
  | rows (rows : List (List Shown))
  -- the branch or the arm that is there
  | chosen (branch : Option Nat) (nodes : List Shown)
  | scope (nodes : List Shown)
  | fault (fault : Fault)
  | nothing

/-- A state of the page: its cells, and the state of its instances, row by row. -/
structure Page where
  cells : Cells
  instances : List Nat → Nat → Value

variable {Verb : Type} (P : Program Verb) (M : Meaning Verb) (fuel depth : Nat) (page : Page)

def bindLocals (path : List Nat) : List LocalSignal → Locals → Locals
  | [], locals => locals
  | signal :: signals, locals =>
      let value :=
        if signal.is_source then some (page.instances path signal.id)
        else (M.evaluate P fuel depth page.cells locals signal.init).toOption
      bindLocals path signals (Function.update locals signal.id value)

def bindFields : List Nat → List Value → Locals → Locals
  | id :: ids, v :: vs, locals => bindFields ids vs (Function.update locals id (some v))
  | _, _, locals => locals

mutual

/-- What a node shows, in the row `path`. -/
def shownNode (path : List Nat) (locals : Locals) : HirNode → Shown
  | .element element => shownElement path locals element
  | .each var iter body =>
      match M.evaluate P fuel depth page.cells locals iter with
      | .ok (.list items) => .rows (items.mapIdx fun i v =>
          shownNodes (path ++ [i]) (Function.update locals var (some v)) body)
      | .ok _ => .fault .threw
      | .error fault => .fault fault
  | .when scrutinee arms =>
      match M.evaluate P fuel depth page.cells locals scrutinee with
      | .ok (.variant tag fields) => shownArms path locals tag fields 0 arms
      | .ok _ => .chosen none []
      | .error fault => .fault fault
  | .ifThen cond then_ none =>
      match M.evaluate P fuel depth page.cells locals cond with
      | .ok v =>
          if M.truthy v then .chosen (some 0) (shownNodes path locals then_) else .chosen none []
      | .error fault => .fault fault
  | .ifThen cond then_ (some otherwise) =>
      match M.evaluate P fuel depth page.cells locals cond with
      | .ok v =>
          if M.truthy v then .chosen (some 0) (shownNodes path locals then_)
          else .chosen (some 1) (shownNodes path locals otherwise)
      | .error fault => .fault fault
  | .handler => .nothing
  | .scope signals body =>
      .scope (shownNodes path (bindLocals P M fuel depth page path signals locals) body)

def shownNodes (path : List Nat) (locals : Locals) : List HirNode → List Shown
  | [] => []
  | node :: nodes => shownNode path locals node :: shownNodes path locals nodes

/-- An element shows what is written for it, but for the value of a masked field. -/
def shownElement (path : List Nat) (locals : Locals) : HirElement → Shown
  | .mk name _ args children =>
      .element name ((written name args).map (M.evaluate P fuel depth page.cells locals))
        (shownNodes path locals children)

def shownArms (path : List Nat) (locals : Locals) (tag : String) (fields : List Value) (n : Nat) :
    List HirNodeArm → Shown
  | [] => .chosen none []
  | .mk pattern bindings (.show_ element) :: arms =>
      if pattern = tag then
        .chosen (some n) [shownElement path (bindFields bindings fields locals) element]
      else shownArms path locals tag fields (n + 1) arms
  | .mk pattern bindings (.nodes nodes) :: arms =>
      if pattern = tag then
        .chosen (some n) (shownNodes path (bindFields bindings fields locals) nodes)
      else shownArms path locals tag fields (n + 1) arms

end

def shown (view : List HirNode) : List Shown :=
  shownNodes P M fuel depth page [] (fun _ => none) view

end Page

section Hidden

/-- Two states of a page that differ only in what the masked fields of the view bind. -/
structure Page.DifferIn (view : List HirNode) (page page' : Page) : Prop where
  cells : ∀ cell, (∀ id, cell = .signal id → id ∉ masked_signals view) →
    page.cells cell = page'.cells cell
  instances : ∀ path, ∀ id ∉ masked_instances view,
    page.instances path id = page'.instances path id

def Hidden {Verb : Type} (P : Program Verb) (M : Meaning Verb) (view : List HirNode) : Prop :=
  ∀ fuel depth page page', Page.DifferIn view page page' →
    shown P M fuel depth page view = shown P M fuel depth page' view

end Hidden

end View
end Zdeceptron
