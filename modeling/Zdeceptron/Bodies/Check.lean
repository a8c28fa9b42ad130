import Zdeceptron.Bodies.Syntax
import Zdeceptron.Types.MostGeneral

/-!
# The checker's walk over a body

`checkFunctionBody` walks the statements of a function or a release against its result
type, and `settle` solves at the end of the program what could not be solved where it was
written.

The inference of an expression is a parameter, `Inference`: it may do to the checker what
`Later` allows.
-/

namespace Zdeceptron
namespace Bodies

open Types

section Checkers

inductive Report
  | mismatch (mismatch : Mismatch)
  | notTotal
  | doGivesNothing
  | notAChoice
  | armShape
  | missingArm
  | pipelineSource
  | notDetermined

/-- An arm of a deferred `when`: its name and the types of its binders. -/
structure PendingArm where
  name : String
  binders : List Ty

inductive Obligation
  | when (scrutinee : Ty) (arms : List PendingArm)
  | other (id : Nat)

structure Checker where
  solver : Solver
  locals : Nat → Option Ty
  pending : List Obligation
  errors : List Report

/-- A type whose `when` takes every value of the type: the arms name all variants. -/
def Matched (choices : Choices) (σ : Nat → Ty) (t : Ty) (arms : List String) : Prop :=
  ∃ choice, choiceOf choices (t.subst σ) = some choice ∧ ∀ name ∈ choice.names, name ∈ arms

/-- What holds of every checker.  A type that is not plain comes with a report. -/
structure Checker.WellFormed (c : Checker) : Prop where
  solver : c.solver.WellFormed
  plain : c.errors = [] → c.solver.Plain
  locals : ∀ {id : Nat} {t : Ty}, c.locals id = some t → c.solver.Scopes t
  pending : ∀ {t : Ty} {arms : List PendingArm}, .when t arms ∈ c.pending →
    (c.solver.Scopes t ∧ (c.errors = [] → t.isPlain = true)) ∧
      ∀ arm ∈ arms, ∀ binder ∈ arm.binders,
        c.solver.Scopes binder ∧ (c.errors = [] → binder ≠ .unknown → binder.isPlain = true)

/-- A later state of a checker: bindings and reports stay, and a `when` that is no longer
pending has been matched. -/
structure Later (choices : Choices) (c c' : Checker) : Prop where
  wellFormed : c'.WellFormed
  grows : c.solver.Grows c'.solver
  errors : c'.errors = [] → c.errors = []
  pending : ∀ {t : Ty} {arms : List PendingArm}, .when t arms ∈ c.pending →
    .when t arms ∈ c'.pending ∨ ∀ {σ : Nat → Ty}, c'.errors = [] →
      Ty.terms.Solves c'.solver.binds σ → Matched choices σ t (arms.map PendingArm.name)

/-- The part of the checker that is not about statements: the declared choices, and the
inference of expressions and calls.

`typeOf` is the type that is inferred for an expression, in terms of the variables of the
solver.  A choice's fields have written types. -/
structure Inference (Expr Effect : Type) where
  choices : Choices
  choices_plain : ∀ {name : String} {choice : Choice}, choices.lookup name = some choice →
    ∀ variant ∈ choice.variants, ∀ field ∈ variant.fields,
      field.isPlain = true ∧ field.vars = []
  typeOf : Expr → Ty
  expr : Expr → Checker → Option Checker
  expr_later : ∀ {e : Expr} {c c' : Checker}, c.WellFormed → expr e c = some c' →
    Later choices c c' ∧ c'.solver.Scopes (typeOf e) ∧
      (c'.errors = [] → (typeOf e).isPlain = true)
  callType : Effect → Ty
  call : Effect → Checker → Option Checker
  call_later : ∀ {e : Effect} {c c' : Checker}, c.WellFormed → call e c = some c' →
    Later choices c c'
  mutation : Effect → Checker → Option Checker
  mutation_later : ∀ {e : Effect} {c c' : Checker}, c.WellFormed → mutation e c = some c' →
    Later choices c c'
  attempt : Nat → Checker → Option (Bool × Checker)
  attempt_later : ∀ {id : Nat} {c c' : Checker} {solved : Bool}, c.WellFormed →
    attempt id c = some (solved, c') → Later choices c c'

end Checkers

/-- A step of the checker, or `none` where the source does not return. -/
abbrev Check := StateT Checker Option

section Steps

def coded (report : Report) : Check Unit := fun c =>
  some ((), { c with errors := c.errors ++ [report] })

def codedIf (wrong : Bool) (report : Report) : Check Unit :=
  if wrong then coded report else pure ()

def bindLocal (id : Nat) (t : Ty) : Check Unit := fun c =>
  some ((), { c with locals := Function.update c.locals id (some t) })

def fresh : Check Ty := fun c =>
  match c.solver.fresh with
  | some (solver, t) => some (t, { c with solver := solver })
  | none => none

def zonk (t : Ty) : Check Ty := fun c => (c.solver.zonk t).map (fun t => (t, c))

def expect (found want : Ty) : Check Unit := fun c =>
  match c.solver.unify found want with
  | some (solver, .ok ()) => some ((), { c with solver := solver })
  | some (solver, .error mismatch) =>
      some ((), { c with solver := solver, errors := c.errors ++ [.mismatch mismatch] })
  | none => none

def defer (obligation : Obligation) : Check Unit := fun c =>
  some ((), { c with pending := c.pending ++ [obligation] })

end Steps

section Whens

variable {Expr Effect : Type} (I : Inference Expr Effect)

def expr (e : Expr) : Check Ty := fun c => (I.expr e c).map (fun c => (I.typeOf e, c))

def call (e : Effect) : Check Unit := fun c => (I.call e c).map (fun c => ((), c))

def mutation (e : Effect) : Check Unit := fun c => (I.mutation e c).map (fun c => ((), c))

def choiceShape : List String → Check (Option Ty)
  | [] => pure none
  | name :: names =>
      if name = "Some" ∨ name = "None" then do return some (.option (← fresh))
      else if name = "Loading" ∨ name = "Ready" ∨ name = "Failed" then
        do return some (.remote (← fresh))
      else if name ∈ failureCodes then pure (some .code)
      else match I.choices.find? (fun choice => (choice.2.variant name).isSome) with
        | some (owner, _) => pure (some (.named owner))
        | none => choiceShape names

/-- The type of the scrutinee of a `when`, as far as it is known. -/
def takenApart (found : Ty) (names : List String) : Check Ty := do
  if isSettled (← zonk found) then zonk found
  else match ← choiceShape I names with
    | some shape => do
        expect found shape
        zonk found
    | none => zonk found

def bindFresh : List Nat → Check (List Ty)
  | [] => pure []
  | id :: ids => do
      let t ← fresh
      bindLocal id t
      return t :: (← bindFresh ids)

def bindFields : List Ty → List Nat → Check (List Ty)
  | _, [] => pure []
  | fields, id :: ids => do
      bindLocal id (fields.headD .unknown)
      return .unknown :: (← bindFields fields.tail ids)

def expectFields : List Ty → List Ty → Check Unit
  | _, [] => pure ()
  | fields, .unknown :: binders => expectFields fields.tail binders
  | fields, binder :: binders => do
      expect (fields.headD .unknown) binder
      expectFields fields.tail binders

/-- Check arms against a choice, given the variants that are already matched. -/
def matchEach (choice : Choice) : List String → List PendingArm → Check (List String)
  | matched, [] => pure matched
  | matched, arm :: arms =>
      match choice.variant arm.name with
      | none => do
          coded .armShape
          matchEach choice matched arms
      | some variant => do
          codedIf (variant.name ∈ matched) .armShape
          codedIf (arm.binders.length ≠ variant.fields.length) .armShape
          expectFields variant.fields arm.binders
          matchEach choice (variant.name :: matched) arms

def matchArms (choice : Choice) (arms : List PendingArm) : Check Bool := do
  let matched ← matchEach choice [] arms
  let exhaustive := choice.names.all (fun name => name ∈ matched)
  codedIf (!exhaustive) .missingArm
  return exhaustive

end Whens

section Bodies

variable {Expr Effect : Type} (I : Inference Expr Effect)

structure Flow where
  alwaysGives : Bool
  pipeline : Option Ty
  folded : Bool

def Flow.default : Flow := ⟨false, none, false⟩

/-- Bind a clause's name to the element the pipeline carries, or report that there is no
pipeline. -/
def pipelineBinder (var : Nat) (element : Option Ty) (flow : Flow) : Check (Bool × Flow) :=
  match element with
  | some item => do
      bindLocal var item
      return (true, flow)
  | none => do
      bindLocal var .unknown
      coded .pipelineSource
      return (false, { flow with pipeline := some .unknown })

def clause (flow : Flow) (element : Option Ty) :
    Pipeline Expr → Check (Flow × Option Ty)
  | .source e => do
      let source ← expr I e
      let item ← fresh
      expect source (.list item)
      return ({ flow with folded := false, pipeline := some (.list item) }, some item)
  | .keep var cond => do
      let (bound, flow) ← pipelineBinder var element flow
      let found ← expr I cond
      if bound then do
        expect found .truth
        return (flow, element)
      else return (flow, element)
  | .sort var key => do
      let (_, flow) ← pipelineBinder var element flow
      let _ ← expr I key
      return (flow, element)
  | .mapEach var mapped => do
      let (bound, flow) ← pipelineBinder var element flow
      let found ← expr I mapped
      if bound then return ({ flow with pipeline := some (.list found) }, some found)
      else return (flow, element)
  | .fold item total starting step => do
      let seed ← expr I starting
      bindLocal total seed
      let (bound, flow) ← pipelineBinder item element flow
      let stepped ← expr I step
      if bound then do
        expect stepped seed
        return ({ flow with folded := true, pipeline := some seed }, none)
      else return (flow, element)
  | .takeFirst count => do
      let found ← expr I count
      expect found .whole
      return (flow, element)

/-- A clause after a `fold each` has nothing to walk. -/
def pipeline (flow : Flow) (element : Option Ty) (c : Pipeline Expr) :
    Check (Flow × Option Ty) :=
  if flow.folded && !c.isSource then do
    coded .pipelineSource
    clause I { flow with folded := false } (some .unknown) c
  else clause I flow element c

def bindEach : List (Nat × Expr) → Check Unit
  | [] => pure ()
  | binding :: bindings => do
      bindLocal binding.1 (← expr I binding.2)
      bindEach bindings

mutual

def stmt (result : Ty) (flow : Flow) (element : Option Ty) :
    Stmt Expr Effect → Check (Flow × Option Ty)
  | .pipeline c => pipeline I flow element c
  | .mutation e => do
      mutation I e
      return (flow, element)
  | .bind bindings => do
      bindEach I bindings
      return (flow, element)
  | .give e => do
      expect (← expr I e) result
      return ({ flow with alwaysGives := true }, element)
  | .when scrutinee as => do
      let found ← expr I scrutinee
      let resolved ← takenApart I found (as.map Arm.name)
      match choiceOf I.choices resolved with
      | none =>
          if isSettled resolved then do
            coded .notAChoice
            let _ ← arms result (fun _ ids => bindFields [] ids) as
            return (flow, element)
          else do
            -- only a call site knows what the scrutinee holds
            let (gives, heads) ← arms result (fun _ ids => bindFresh ids) as
            defer (.when found heads)
            return ({ flow with alwaysGives := flow.alwaysGives || gives }, element)
      | some choice => do
          let (gives, heads) ← arms result (fun name ids =>
            bindFields (((choice.variant name).map Variant.fields).getD []) ids) as
          let exhaustive ← matchArms choice heads
          return ({ flow with
            alwaysGives := flow.alwaysGives || (!exhaustive || gives) }, element)
  | .each var iter body => do
      let sequence ← expr I iter
      let item ← fresh
      expect sequence (.list item)
      bindLocal var item
      -- a list may be empty, so a loop guarantees nothing
      let _ ← block result .default none body
      return (flow, element)
  | .ifThen cond then_ none => do
      expect (← expr I cond) .truth
      let _ ← block result .default none then_
      return (flow, element)
  | .ifThen cond then_ (some otherwise) => do
      expect (← expr I cond) .truth
      let ⟨thenGives, _, _⟩ ← block result .default none then_
      let ⟨otherwiseGives, _, _⟩ ← block result .default none otherwise
      return ({ flow with
        alwaysGives := flow.alwaysGives || (thenGives && otherwiseGives) }, element)
  | .perform e => do
      call I e
      match I.callType e with
      | .nothing => return (flow, element)
      | .unknown => return (flow, element)
      | _ => do
          coded .doGivesNothing
          return (flow, element)

def block (result : Ty) (flow : Flow) (element : Option Ty) : Block Expr Effect → Check Flow
  | [] => pure flow
  | s :: stmts => do
      let (flow, element) ← stmt result flow element s
      block result flow element stmts

/-- The arms of a `when`: whether every one gives, and their heads. -/
def arms (result : Ty) (bindArm : String → List Nat → Check (List Ty)) :
    List (Arm Expr Effect) → Check (Bool × List PendingArm)
  | [] => pure (true, [])
  | .mk name ids body :: rest => do
      let binders ← bindArm name ids
      let gives ← armBody result body
      let (restGive, heads) ← arms result bindArm rest
      return (gives && restGive, ⟨name, binders⟩ :: heads)

def armBody (result : Ty) : ArmBody Expr Effect → Check Bool
  | .show_ e => do
      expect (← expr I e) result
      return true
  | .block stmts => do
      let flow ← block result .default none stmts
      return flow.alwaysGives

end

def checkFunctionBody (result : Ty) (body : Block Expr Effect) : Check Unit := do
  let flow ← block I result .default none body
  match flow.pipeline with
  | some collection => expect collection result
  | none => codedIf (!flow.alwaysGives) .notTotal

end Bodies

section Settling

variable {Expr Effect : Type} (I : Inference Expr Effect)

def tryWhen (t : Ty) (heads : List PendingArm) : Check Bool := do
  let resolved ← zonk t
  if isSettled resolved then
    match choiceOf I.choices resolved with
    | some choice => do
        let _ ← matchArms choice heads
        return true
    | none => do
        coded .notAChoice
        return true
  else return false

def tryObligation : Obligation → Check Bool
  | .when t heads => tryWhen I t heads
  | .other id => I.attempt id

def tryEach : List Obligation → Check (List Obligation)
  | [] => pure []
  | obligation :: obligations => do
      let solved ← tryObligation I obligation
      let still ← tryEach obligations
      return if solved then still else obligation :: still

def Checker.drainPending (c : Checker) : Option (Unit × Checker) := do
  let (still, c') ← tryEach I c.pending { c with pending := [] }
  if still.length = c.pending.length then some ((), { c' with pending := still })
  else ({ c' with pending := still } : Checker) |>.drainPending
partial_fixpoint

def defaultUnconstrained : Check Unit := fun c =>
  some ((), { c with solver := c.solver.defaultUnconstrained })

def reportUnsolved : Check Unit := fun c =>
  some ((), { c with
    pending := [], errors := c.errors ++ c.pending.map (fun _ => .notDetermined) })

def settle : Check Unit := do
  Checker.drainPending I
  defaultUnconstrained
  Checker.drainPending I
  reportUnsolved

end Settling

end Bodies
end Zdeceptron
