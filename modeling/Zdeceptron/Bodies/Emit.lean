import Zdeceptron.Bodies.Syntax

/-!
# The JavaScript of a body

The emitter writes each statement on its own and a run of consecutive pipeline clauses as
one accumulator, `$pN`, which it returns.  It refuses a run that does not start with
`from`.
-/

namespace Zdeceptron
namespace Bodies

section Script

mutual

inductive Js (Expr Effect : Type)
  | const (id : Nat) (value : Expr)
  | effect (call : Effect)
  | ifElse (cond : Expr) (then_ : List (Js Expr Effect))
      (otherwise : Option (List (Js Expr Effect)))
  | forOf (var : Nat) (iter : Expr) (body : List (Js Expr Effect))
  /-- `const $wN = scrutinee` and the `switch` on its tag. -/
  | switch (w : Nat) (scrutinee : Expr) (cases : List (Case Expr Effect))
  | letAccumulator (p : Nat) (source : Expr)
  | filter (p var : Nat) (cond : Expr)
  | map (p var : Nat) (mapped : Expr)
  /-- `const $kN = (var) => key` and the sort of the accumulator by it. -/
  | sort (p k var : Nat) (key : Expr)
  | reduce (p total item : Nat) (step seed : Expr)
  | slice (p : Nat) (count : Expr)
  /-- `return $pN`, which the source map marks with the clauses of the run. -/
  | returnAccumulator (p : Nat) (run : List (Pipeline Expr))
  | give (value : Expr)
  /-- The parameters take the call's arguments, then `continue $tail`. -/
  | jump (call : Expr)
  /-- The trampoline is handed the call. -/
  | bounce (call : Expr)
  | break_

/-- A `case`, which starts with the binders taken from the fields. -/
inductive Case (Expr Effect : Type)
  | mk (label : String) (binders : List Nat) (body : List (Js Expr Effect))

end

inductive Temporary
  | p (number : Nat)
  | k (number : Nat)
  | w (number : Nat)
deriving DecidableEq

def Temporary.number : Temporary → Nat
  | p number => number
  | k number => number
  | w number => number

variable {Expr Effect : Type}

def declared : Js Expr Effect → List Temporary
  | .switch w _ _ => [.w w]
  | .letAccumulator p _ => [.p p]
  | .sort _ k _ _ => [.k k]
  | _ => []

def declaresOnce (js : List (Js Expr Effect)) : Bool := decide (js.flatMap declared).Nodup

mutual

def Js.loads : Js Expr Effect → Bool
  | .ifElse _ then_ none => declaresOnce then_ && eachLoads then_
  | .ifElse _ then_ (some otherwise) =>
      (declaresOnce then_ && eachLoads then_) && (declaresOnce otherwise && eachLoads otherwise)
  | .forOf _ _ body => declaresOnce body && eachLoads body
  | .switch _ _ cases => casesLoad cases
  | _ => true

def eachLoads : List (Js Expr Effect) → Bool
  | [] => true
  | s :: js => s.loads && eachLoads js

def casesLoad : List (Case Expr Effect) → Bool
  | [] => true
  | .mk _ _ body :: cases => (declaresOnce body && eachLoads body) && casesLoad cases

end

def blockLoads (js : List (Js Expr Effect)) : Bool := declaresOnce js && eachLoads js

end Script

/-- Emission counts temporaries; `none` is a body that is refused. -/
abbrev Emit := StateT Nat Option

section Emission

variable {Expr Effect : Type}

def temporary : Emit Nat := fun n => some (n, n + 1)

def refuse {α : Type} : Emit α := fun _ => none

/-- The calls that are emitted as a jump to the top of the function, and those that are
handed to the trampoline. -/
structure TailCalls (Expr : Type) where
  jumps : Expr → Bool
  bounces : Expr → Bool

variable (tail : TailCalls Expr)

def give (e : Expr) : Js Expr Effect :=
  if tail.jumps e then .jump e
  else if tail.bounces e then .bounce e
  else .give e

def emitClause (p : Nat) : Pipeline Expr → Emit (Js Expr Effect)
  | .source e => pure (.letAccumulator p e)
  | .keep var cond => pure (.filter p var cond)
  | .mapEach var mapped => pure (.map p var mapped)
  | .sort var key => do return .sort p (← temporary) var key
  | .fold item total starting step => pure (.reduce p total item step starting)
  | .takeFirst count => pure (.slice p count)

def emitClauses (p : Nat) : List (Pipeline Expr) → Emit (List (Js Expr Effect))
  | [] => pure []
  | c :: run => do
      let js ← emitClause p c
      return js :: (← emitClauses p run)

def startsWithSource : List (Pipeline Expr) → Bool
  | [] => false
  | c :: _ => c.isSource

def emitRun (run : List (Pipeline Expr)) : Emit (List (Js Expr Effect)) := do
  let p ← temporary
  if startsWithSource run then do
    let js ← emitClauses p run
    return js ++ [.returnAccumulator p run]
  else refuse

def flush (run : List (Pipeline Expr)) : Emit (List (Js Expr Effect)) :=
  if run.isEmpty then pure [] else emitRun run

mutual

def emitStmt : Stmt Expr Effect → Emit (List (Js Expr Effect))
  | .pipeline _ => refuse
  | .mutation e => pure [.effect e]
  | .bind bindings => pure (bindings.map (fun binding => .const binding.1 binding.2))
  | .give e => pure [give tail e]
  | .when scrutinee as => do
      let w ← temporary
      return [.switch w scrutinee (← emitArms as)]
  | .each var iter body => do return [.forOf var iter (← emitBlock [] body)]
  | .ifThen cond then_ none => do return [.ifElse cond (← emitBlock [] then_) none]
  | .ifThen cond then_ (some otherwise) => do
      let js ← emitBlock [] then_
      return [.ifElse cond js (some (← emitBlock [] otherwise))]
  | .perform e => pure [.effect e]

/-- A block, of which the clauses of `run` have been read. -/
def emitBlock (run : List (Pipeline Expr)) : Block Expr Effect → Emit (List (Js Expr Effect))
  | [] => flush run
  | .pipeline c :: stmts => emitBlock (run ++ [c]) stmts
  | s :: stmts => do
      let before ← flush run
      let js ← emitStmt s
      let after ← emitBlock [] stmts
      return before ++ (js ++ after)

def emitArms : List (Arm Expr Effect) → Emit (List (Case Expr Effect))
  | [] => pure []
  | .mk name ids body :: rest => do
      let js ← emitArmBody body
      return .mk name ids js :: (← emitArms rest)

def emitArmBody : ArmBody Expr Effect → Emit (List (Js Expr Effect))
  | .show_ e => pure [give tail e]
  | .block stmts => do
      -- without the `break`, the next arm's body would run as well
      let js ← emitBlock [] stmts
      return js ++ [.break_]

end

def emitBody (body : Block Expr Effect) : Option (List (Js Expr Effect)) :=
  (emitBlock tail [] body 0).map Prod.fst

end Emission

end Bodies
end Zdeceptron
