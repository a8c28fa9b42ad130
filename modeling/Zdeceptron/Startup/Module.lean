import Zdeceptron.Bodies.Functions
import Mathlib.Data.Prod.Lex

/-!
# The declarations of a client module, as it is loaded

A module declares its signals in the order of their ids, then its requests, then its remote
cells.  What a declaration evaluates on the spot is its `starting` value, the value a stepping
clock starts with, the arguments of a request and the parameters of a remote cell; the rest
waits in a closure.  A name that is read before its declaration has been evaluated throws.

A write while the module loads runs effects again.  Which ones, and in which order, is up to
`Outside.wakes`.
-/

namespace Zdeceptron
namespace Startup

open Bodies Engine Step

section Declarations

/-- What a statement writes: it reads a binding of the module, or calls the setter of one. -/
inductive Act
  | binding (id : Nat)
  | write (id : Nat) (name : String)

variable (Op : Type)

/-- What a definition is in a client module.  A read of a signal is the call of its getter. -/
inductive Decl
  | function (params : List Param) (body : FunctionBody Op Act)
  | foreign (params : List String)
  | source (remembered : Bool) (init : HirExpr Op)
  | derived (body : HirExpr Op)
  | clock
  | stepping (start : HirExpr Op)
  | request (args : List (HirExpr Op))
  | remote (inputs : List Nat)

/-- The definitions of a program, which of them the module declares, the remote cells in the
order of their endpoints, and what runs once everything is declared. -/
structure Module where
  decls : List (Decl Op)
  members : Nat → Bool
  endpoints : List Nat
  main : FunctionBody Op Act
  distinct : endpoints.Nodup

variable {Op}

namespace Decl

def isSignal : Decl Op → Bool
  | source _ _ => true
  | derived _ => true
  | clock => true
  | stepping _ => true
  | _ => false

def isRequest : Decl Op → Bool
  | request _ => true
  | _ => false

def isRemote : Decl Op → Bool
  | remote _ => true
  | _ => false

def toDef (id : Nat) : Decl Op → DefKind Op Act
  | function params body => .function params body
  | foreign params => .foreign params
  | derived body => .function [] [.mutation (.mutation (.binding id) []), .give body]
  | _ => .foreign []

end Decl

namespace Module

variable (m : Module Op)

/-- The definitions of a kind that the module declares, in the order of their ids. -/
def membersOf (kind : Decl Op → Bool) : List Nat :=
  (List.range m.decls.length).filter (fun id => m.members id && (m.decls[id]?).any kind)

def remotes : List Nat :=
  m.endpoints.filter (fun id => (m.decls[id]?).any Decl.isRemote)

/-- The order in which `emit_declarations` and `emit_remotes` write them. -/
def bindings : List Nat :=
  m.membersOf Decl.isSignal ++ m.membersOf Decl.isRequest ++ m.remotes

def program : Program Op Act := m.decls.mapIdx Decl.toDef

end Module

end Declarations

section Load

variable {Op : Type}

inductive Event
  -- while `reader` is evaluated, or after all of them, the name of `id` is read
  | read (reader : Option Nat) (id : Nat)
  | wrote (id : Nat) (v : Value)
  | woke (id : Nat)

/-- What is outside the module: operators and foreign functions, what a write makes of a cell,
the entries of `localStorage`, the values that clocks, requests and remote cells rest at, and
the effect that runs next, after all that has happened. -/
structure Outside (Op : Type) where
  operator : Op → List Value → Except Fault Value
  call : Nat → List Value → Except Fault Value
  write : String → Value → List Value → Value
  stored : Nat → Option Value
  resting : Nat → Value
  wakes : List Event → Option Nat
  truthy : Value → Bool
  less : Value → Value → Bool
  undefined_ : Value

/-- A page: the values of its cells, the bindings evaluated so far, what has happened, and
whether a binding was read before it was evaluated. -/
structure Page where
  cell : Nat → Value
  declared : List Nat
  log : List Event
  early : Bool

namespace Page

def blank (v : Value) : Page := ⟨fun _ => v, [], [], false⟩

def record (event : Event) (page : Page) : Page := { page with log := page.log ++ [event] }

def wrote (id : Nat) (v : Value) (page : Page) : Page :=
  { page with cell := Function.update page.cell id v, log := page.log ++ [.wrote id v] }

def declare (id : Nat) (v : Value) (page : Page) : Page :=
  { page with cell := Function.update page.cell id v, declared := page.declared ++ [id] }

end Page

def each : List (Step Page Unit) → Step Page Unit
  | [] => return ()
  | step :: steps => do
      step
      each steps

def discarded {σ α : Type} (step : Step σ α) : Step σ Unit := do
  let _ ← step
  return ()

inductive Mode
  | module
  | inPlace

namespace Module

variable (m : Module Op) (O : Outside Op) (mode : Mode) (fuel : Nat) (reader : Option Nat)

def readBinding (id : Nat) : Step Page Unit := fun page =>
  if id ∈ m.bindings then
    match mode with
    | .inPlace => (.ok (), page.record (.read reader id))
    | .module =>
        if id ∈ page.declared then (.ok (), page.record (.read reader id))
        else (.error .threw, { page with early := true })
  else (.ok (), page)

def readCell (id : Nat) : Step Page Value := do
  m.readBinding mode reader id
  return (← look).cell id

/-- The code of the module over the page; `flush` runs what a write wakes. -/
def host (flush : Step Page Unit) : Host Page Op Act where
  operator op vs := fun page => (O.operator op vs, page)
  mutate
    | .binding id, _ => m.readBinding mode reader id
    | .write id name, vs => do
        m.readBinding mode reader id
        change (fun page => page.wrote id (O.write name (page.cell id) vs))
        flush
  call id vs :=
    match m.decls[id]? with
    | some (.foreign _) => fun page => (O.call id vs, page)
    | _ => m.readCell mode reader id
  truthy := O.truthy
  less := O.less
  undefined_ := O.undefined_

def eager (flush : Step Page Unit) (e : HirExpr Op) : Step Page Value :=
  let host := m.host O mode reader flush
  inScope (fun _ => none) (host.value m.program (m.program.evaluate host fuel) e)

/-- The effect of a request evaluates the arguments, the one of a remote cell calls the
getters of the parameters. -/
def effect (flush : Step Page Unit) (id : Nat) : Step Page Unit :=
  match m.decls[id]? with
  | some (.request args) => each (args.map fun e => discarded (m.eager O mode fuel reader flush e))
  | some (.remote inputs) =>
      each (inputs.map fun input =>
        discarded (m.eager O mode fuel reader flush (.call input [])))
  | _ => return ()

def flush : Nat → Step Page Unit
  | 0 => fail .endless
  | n + 1 => do
      match O.wakes (← look).log with
      | none => return ()
      | some id =>
          change (Page.record (.woke id))
          m.effect O mode fuel reader (flush n) id
          flush n

/-- What the declaration of a binding evaluates on the spot, and the value of its cell. -/
def worth (id : Nat) : Step Page Value :=
  let flush := m.flush O mode fuel (some id) fuel
  match m.decls[id]? with
  | some (.source remembered init) => do
      let starting ← m.eager O mode fuel (some id) flush init
      return if remembered then (O.stored id).getD starting else starting
  | some (.stepping start) => m.eager O mode fuel (some id) flush start
  | some (.request _) => do
      m.effect O mode fuel (some id) flush id
      return O.resting id
  | some (.remote inputs) => do
      -- the array of the getters is built before the effect calls them
      each (inputs.map (m.readBinding mode (some id)))
      m.effect O mode fuel (some id) flush id
      return O.resting id
  | _ => return O.resting id

def initialise (id : Nat) : Step Page Unit := do
  let v ← m.worth O mode fuel id
  change (Page.declare id v)

def mount : Step Page Unit :=
  let host := m.host O mode none (m.flush O mode fuel none fuel)
  discarded (inScope (fun _ => none)
    (host.block m.program (m.program.evaluate host fuel) m.main))

def load : Page :=
  ((do
    each (m.bindings.map (m.initialise O mode fuel))
    m.mount O mode fuel : Step Page Unit).run (Page.blank O.undefined_)).2

def place (id : Nat) : Nat ×ₗ Nat :=
  match m.decls[id]? with
  | some (.request _) => toLex (1, id)
  | some (.remote _) => toLex (2, m.endpoints.idxOf id)
  | _ => toLex (0, id)

def Orderly : Event → Prop
  | .read (some reader) id => m.place id < m.place reader
  | _ => True

end Module

end Load

end Startup
end Zdeceptron
