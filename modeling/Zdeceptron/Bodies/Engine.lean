import Zdeceptron.Bodies.Execute

/-!
# Statements whose expressions may fail

An expression may throw, or call for ever; a `Step` says which, and in what state.  The
statements have two meanings over it: that of the source, where a run of clauses hands its
value on from clause to clause and at its end leaves the body, and that of the script,
which keeps the value in an accumulator.

A call in tail position is left to whoever runs the script: `Outcome.jumped`,
`Outcome.bounced`.
-/

namespace Zdeceptron
namespace Bodies

section Steps

inductive Fault
  | threw
  | endless
deriving DecidableEq

/-- An evaluation over a state: a value or a fault, and the state after it. -/
def Step (σ α : Type) := σ → Except Fault α × σ

variable {σ α β : Type}

namespace Step

def run (step : Step σ α) (s : σ) : Except Fault α × σ := step s

instance : Monad (Step σ) where
  pure a := fun s => (.ok a, s)
  bind step next := fun s =>
    match step s with
    | (.ok a, s') => (next a).run s'
    | (.error fault, s') => (.error fault, s')

def change (f : σ → σ) : Step σ Unit := fun s => (.ok (), f s)

def look : Step σ σ := fun s => (.ok s, s)

def fail (fault : Fault) : Step σ α := fun s => (.error fault, s)

theorem ext {step step' : Step σ α} (h : ∀ s, step.run s = step'.run s) : step = step' :=
  funext h

@[simp] theorem run_pure (a : α) (s : σ) : (pure a : Step σ α).run s = (.ok a, s) := rfl

@[simp] theorem run_change (f : σ → σ) (s : σ) : (change f).run s = (.ok (), f s) := rfl

@[simp] theorem run_look (s : σ) : (look : Step σ σ).run s = (.ok s, s) := rfl

theorem run_bind (step : Step σ α) (next : α → Step σ β) (s : σ) :
    (step >>= next).run s =
      match step.run s with
      | (.ok a, s') => (next a).run s'
      | (.error fault, s') => (.error fault, s') := rfl

instance : LawfulMonad (Step σ) := LawfulMonad.mk' (Step σ)
  (fun step => ext fun s => by
    change (step >>= pure).run s = _
    rw [run_bind]
    rcases step.run s with ⟨_ | a, s'⟩ <;> rfl)
  (fun _ _ => rfl)
  (fun step next next' => ext fun s => by
    rw [run_bind, run_bind, run_bind]
    rcases step.run s with ⟨_ | a, s'⟩ <;> rfl)

end Step

end Steps

structure Engine (Expr Effect : Type) where
  State : Type
  value : Expr → Step State Value
  effect : Effect → Step State Unit
  assign : Nat → Value → State → State
  truthy : Value → Bool
  less : Value → Value → Bool

namespace Engine

open Step

variable {Expr Effect : Type} (en : Engine Expr Effect)

section Lists

def keepEach (var : Nat) (cond : Expr) : List Value → Step en.State (List Value)
  | [] => pure []
  | v :: vs => do
      change (en.assign var v)
      let kept ← en.value cond
      let rest ← keepEach var cond vs
      return if en.truthy kept then v :: rest else rest

def mapEach (var : Nat) (mapped : Expr) : List Value → Step en.State (List Value)
  | [] => pure []
  | v :: vs => do
      change (en.assign var v)
      let w ← en.value mapped
      return w :: (← mapEach var mapped vs)

def foldEach (total item : Nat) (step : Expr) : Value → List Value → Step en.State Value
  | acc, [] => pure acc
  | acc, v :: vs => do
      change (en.assign total acc)
      change (en.assign item v)
      foldEach total item step (← en.value step) vs

def sorted (items keys : List Value) : List Value :=
  ((items.zip keys).mergeSort (fun a b => !en.less b.2 a.2)).map Prod.fst

def onItems (c : Pipeline Expr) (items : List Value) : Step en.State Value :=
  match c with
  | .source e => en.value e
  | .keep var cond => return .list (← en.keepEach var cond items)
  | .sort var key => return .list (en.sorted items (← en.mapEach var key items))
  | .mapEach var mapped => return .list (← en.mapEach var mapped items)
  | .fold item total starting step => do
      en.foldEach total item step (← en.value starting) items
  | .takeFirst count => return .list (sliced items (← en.value count))

def bindEach : List (Nat × Expr) → Step en.State Unit
  | [] => pure ()
  | (id, e) :: bindings => do
      let v ← en.value e
      change (en.assign id v)
      bindEach bindings

def assignEach : List Nat → List Value → en.State → en.State
  | id :: ids, v :: vs, s => assignEach ids vs (en.assign id v s)
  | _, _, s => s

end Lists

section Source

inductive Ending
  | fell
  | gave (v : Value)

/-- The next clause of a run, which carries the value of the clause before it. -/
def clause (c : Pipeline Expr) (carried : Option Value) : Step en.State Value :=
  match c, carried with
  | .source e, _ => en.value e
  | c, some (.list items) => en.onItems c items
  | _, _ => fail .threw

/-- `each var in items`, around a body. -/
def loop (var : Nat) (body : Step en.State Ending) : List Value → Step en.State Ending
  | [] => pure .fell
  | v :: vs => do
      change (en.assign var v)
      match ← body with
      | .fell => loop var body vs
      | .gave w => return .gave w

mutual

def stmt : Stmt Expr Effect → Step en.State Ending
  -- `block` takes a clause with the rest of its run
  | .pipeline _ => pure .fell
  | .mutation e => do
      en.effect e
      return .fell
  | .bind bindings => do
      en.bindEach bindings
      return .fell
  | .give e => return .gave (← en.value e)
  | .when scrutinee as => do
      match ← en.value scrutinee with
      | .variant tag fields => arms tag fields as
      | _ => return .fell
  | .each var iter body => do
      match ← en.value iter with
      | .list items => en.loop var (block none body) items
      | _ => fail .threw
  | .ifThen cond then_ none => do
      if en.truthy (← en.value cond) then block none then_ else return .fell
  | .ifThen cond then_ (some otherwise) => do
      if en.truthy (← en.value cond) then block none then_ else block none otherwise
  | .perform e => do
      en.effect e
      return .fell

/-- A block; `carried` is the value of the run that the block continues.  A run that ends
gives its value. -/
def block (carried : Option Value) : Block Expr Effect → Step en.State Ending
  | [] => return (carried.elim .fell .gave)
  | .pipeline c :: stmts => do block (some (← en.clause c carried)) stmts
  | s :: stmts =>
      match carried with
      | some v => return .gave v
      | none => do
          match ← stmt s with
          | .fell => block none stmts
          | .gave v => return .gave v

def arms (tag : String) (fields : List Value) : List (Arm Expr Effect) → Step en.State Ending
  | [] => return .fell
  | .mk name ids body :: rest =>
      if name == tag then do
        change (en.assignEach ids fields)
        armBody body
      else arms tag fields rest

def armBody : ArmBody Expr Effect → Step en.State Ending
  | .show_ e => return .gave (← en.value e)
  | .block stmts => block none stmts

end

variable {en}

def followed (src src' : Step en.State Ending) : Step en.State Ending := do
  match ← src with
  | .fell => src'
  | .gave v => return .gave v

variable {s : Stmt Expr Effect}

theorem block_some (v : Value) (hs : ∀ c, s ≠ .pipeline c)
    (stmts : Block Expr Effect) : en.block (some v) (s :: stmts) = pure (.gave v) := by
  cases s with
  | pipeline c => exact absurd rfl (hs c)
  | _ => rfl

theorem block_none (hs : ∀ c, s ≠ .pipeline c) (stmts : Block Expr Effect) :
    en.block none (s :: stmts) = followed (en.stmt s) (en.block none stmts) := by
  cases s with
  | pipeline c => exact absurd rfl (hs c)
  | _ => rfl

end Source

section Script

/-- How a statement of the script ends.  A call in tail position is not made here. -/
inductive Outcome (Expr : Type)
  | normal
  | broke
  | returned (v : Value)
  | jumped (call : Expr)
  | bounced (call : Expr)

/-- The state of the evaluation, and the accumulators `$pN`. -/
structure Frame where
  state : en.State
  accumulator : Nat → Option Value

variable {en}

def lift {α : Type} (step : Step en.State α) : Step (Frame en) α := fun f =>
  ((step.run f.state).1, { f with state := (step.run f.state).2 })

theorem run_lift {α : Type} (step : Step en.State α) (f : Frame en) :
    (lift step).run f = ((step.run f.state).1, { f with state := (step.run f.state).2 }) := rfl

def Frame.store (f : Frame en) (p : Nat) (v : Value) : Frame en :=
  { f with accumulator := Function.update f.accumulator p (some v) }

def stored (p : Nat) (step : Step en.State Value) : Step (Frame en) (Outcome Expr) := do
  let v ← lift step
  change (fun f => f.store p v)
  return .normal

/-- A method of an array: what it makes of the array goes into the accumulator. -/
def method (p : Nat) (step : List Value → Step en.State Value) :
    Option Value → Step (Frame en) (Outcome Expr)
  | some (.list items) => stored p (step items)
  | _ => fail .threw

def refill (p : Nat) (step : List Value → Step en.State Value) :
    Step (Frame en) (Outcome Expr) := do method p step ((← look).accumulator p)

/-- `for (const var of items)`, around a body. -/
def forEach (var : Nat) (body : Step (Frame en) (Outcome Expr)) :
    List Value → Step (Frame en) (Outcome Expr)
  | [] => return .normal
  | v :: vs => do
      lift (change (en.assign var v))
      match ← body with
      | .normal => forEach var body vs
      | .broke => return .normal
      | other => return other

mutual

def execute : Js Expr Effect → Step (Frame en) (Outcome Expr)
  | .const id e => do
      let v ← lift (en.value e)
      lift (change (en.assign id v))
      return .normal
  | .effect e => do
      lift (en.effect e)
      return .normal
  | .ifElse cond then_ none => do
      if en.truthy (← lift (en.value cond)) then executeBlock then_ else return .normal
  | .ifElse cond then_ (some otherwise) => do
      if en.truthy (← lift (en.value cond)) then executeBlock then_ else executeBlock otherwise
  | .forOf var iter body => do
      match ← lift (en.value iter) with
      | .list items => forEach var (executeBlock body) items
      | _ => fail .threw
  | .switch _ scrutinee cases => do
      match ← lift (en.value scrutinee) with
      | .variant tag fields => executeCases tag fields false cases
      -- no label is `undefined`
      | _ => return .normal
  | .letAccumulator p source => stored p (en.value source)
  | .filter p var cond => refill p (en.onItems (.keep var cond))
  | .map p var mapped => refill p (en.onItems (.mapEach var mapped))
  | .sort p _ var key => refill p (en.onItems (.sort var key))
  | .reduce p total item step seed => refill p (en.onItems (.fold item total seed step))
  | .slice p count => refill p (en.onItems (.takeFirst count))
  | .returnAccumulator p _ => do
      match (← look).accumulator p with
      | some v => return .returned v
      | none => fail .threw
  | .give e => return .returned (← lift (en.value e))
  | .jump call => return .jumped call
  | .bounce call => return .bounced call
  | .break_ => return .broke

def executeBlock : List (Js Expr Effect) → Step (Frame en) (Outcome Expr)
  | [] => return .normal
  | s :: js => do
      match ← execute s with
      | .normal => executeBlock js
      | other => return other

/-- The cases of a `switch` from the first one with the label on, up to a `break`. -/
def executeCases (tag : String) (fields : List Value) (entered : Bool) :
    List (Case Expr Effect) → Step (Frame en) (Outcome Expr)
  | [] => return .normal
  | .mk label binders body :: cases =>
      if entered || label == tag then do
        lift (change (en.assignEach binders fields))
        match ← executeBlock body with
        | .normal => executeCases tag fields true cases
        | .broke => return .normal
        | other => return other
      else executeCases tag fields false cases

end

end Script

end Engine

end Bodies
end Zdeceptron
