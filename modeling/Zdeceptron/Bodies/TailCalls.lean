import Zdeceptron.Bodies.Comparison
import Zdeceptron.Bodies.Meaning
import Zdeceptron.Bodies.TailGroups

/-!
# Tail calls as jumps and bounces

A function that gives the result of calling itself is emitted as a loop, `$tail`, and the
functions of a cycle as steps that `$bounce` drives.
-/

namespace Zdeceptron
namespace Bodies

open Engine Step

namespace Program

section Emission

variable {Op Verb : Type} (program : Program Op Verb) (present : Nat → Bool)

def bounceGroup (id : Nat) : Option (List Nat) :=
  (program.groupOf id).filter (fun group => group.all present)

/-- The body is in `$step$name`, and the function hands it to the trampoline. -/
def stepped (id : Nat) : Bool := (program.bounceGroup present id).isSome

def ordersArguments (e : HirExpr Op) : Bool :=
  match callOf e with
  | some (callee, args) => (program.argumentsOf callee args).isSome
  | none => false

def tailOf (id : Nat) (body : FunctionBody Op Verb) : TailCalls (HirExpr Op) where
  jumps e := givesASelfCall id body && (isSelfCall id e && program.ordersArguments e)
  bounces e :=
    match program.bounceGroup present id, calledDef e with
    | some group, some callee => group.contains callee && program.ordersArguments e
    | _, _ => false

structure Emitted (Op Verb : Type) where
  params : List Param
  /-- The statements are inside `$tail: while (true)`. -/
  looped : Bool
  script : List (Js (HirExpr Op) (Action Op Verb))

def emitFunction (id : Nat) : Option (Emitted Op Verb) :=
  match program.bodyOf id with
  | none => none
  | some (params, body) =>
      (emitBody (program.tailOf present id body) body).map (fun script =>
        ⟨params, givesASelfCall id body, script⟩)

def Compiles : Prop :=
  ∀ id, (program.bodyOf id).isSome = true → (program.emitFunction present id).isSome = true

end Emission

section Running

variable {σ Op Verb : Type} (program : Program Op Verb) (present : Nat → Bool)
  (host : Host σ Op Verb)

inductive Returned
  | value (v : Value)
  | bounce (callee : Nat) (args : List Value)

inductive Turn
  | returned (v : Value)
  | bounced (callee : Nat) (args : List Value)
  /-- `continue $tail`, with the parameters as they are now. -/
  | again (locals : Locals)
  | fell

def kept (params : List Param) (locals : Locals) : Locals := fun id =>
  if id ∈ params.map Param.id then locals id else none

/-- The arguments of a call in tail position, in the order of the parameters. -/
def tailArguments (call : Nat → List Value → Step σ Value) (e : HirExpr Op) :
    Step (Scope σ) (List Value) :=
  match callOf e with
  | some (callee, args) =>
      match program.argumentsOf callee args with
      | some es => inOrder (es.map (host.value program call))
      | none => fail .threw
  | none => fail .threw

/-- What leaves a turn does: a jump evaluates every argument, and only then assigns the
parameters. -/
def finish (params : List Param) (call : Nat → List Value → Step σ Value) :
    Engine.Outcome (HirExpr Op) → Step (Scope σ) Turn
  | .normal => return .fell
  | .broke => return .fell
  | .returned v => return .returned v
  | .jumped e => do
      let args ← program.tailArguments host call e
      return .again (kept params (bound params args (← look).locals))
  | .bounced e => do
      let args ← program.tailArguments host call e
      return .bounced ((calledDef e).getD 0) args

def activation {Expr Effect α : Type} {en : Engine Expr Effect}
    (finish : Engine.Outcome Expr → Step en.State α)
    (js : Step (Engine.Frame en) (Engine.Outcome Expr)) :
    Step en.State α := fun state =>
  match js.run ⟨state, fun _ => none⟩ with
  | (.ok outcome, f) => (finish outcome).run f.state
  | (.error fault, f) => (.error fault, f.state)

def turn (f : Emitted Op Verb) (call : Nat → List Value → Step σ Value) :
    Step (Scope σ) Turn :=
  @activation _ _ _ (host.engine program call) (program.finish host f.params call)
    (Engine.executeBlock f.script)

/-- A call of a function by its name, where `run` runs what it is emitted as. -/
def callBy (run : Bool → Nat → Locals → Step σ Returned) (id : Nat) (args : List Value) :
    Step σ Returned :=
  match program.bodyOf id with
  | none => do return .value (← host.call id args)
  | some (params, _) => run (program.stepped present id) id (bound params args fun _ => none)

/-- The value of a call inside an expression; a `$Bounce` is no value an expression could go on
with. -/
def unwrapped (step : Step σ Returned) : Step σ Value := do
  match ← step with
  | .value v => return v
  | .bounce _ _ => fail .threw

/-- The statements of a function, turn after turn.  Where `wrapped`, the function is a step that
`$bounce` drives, which goes on with the step it is handed. -/
def enter : Nat → Bool → Nat → Locals → Step σ Returned
  | 0, _, _, _ => fail .endless
  | fuel + 1, wrapped, id, locals =>
      match program.emitFunction present id with
      | none => fail .threw
      | some f => do
          let call := fun callee args =>
            unwrapped (program.callBy present host (enter fuel) callee args)
          match ← inScope locals (program.turn host f call) with
          | .returned v => return .value v
          | .again locals' => enter fuel wrapped id locals'
          | .fell =>
              if f.looped then enter fuel wrapped id locals else return .value host.undefined_
          | .bounced callee args =>
              if wrapped then
                match program.bodyOf callee with
                | some (params, _) =>
                    if program.stepped present callee then
                      enter fuel true callee (bound params args fun _ => none)
                    else fail .threw
                | none => fail .threw
              else return .bounce callee args

def callEmitted (fuel id : Nat) (args : List Value) : Step σ Returned :=
  program.callBy present host (program.enter present host fuel) id args

end Running

end Program

end Bodies
end Zdeceptron
