import Zdeceptron.Bodies.Emit

/-!
# Executing the emitted statements

What an expression evaluates to is a parameter, `Evaluator`; the statements branch, loop
and return on it.
-/

namespace Zdeceptron
namespace Bodies

open Types

section Values

/-- A value, as far as a statement looks into it.  `other` is any value of a type no
statement takes apart: the values of the type are told apart by a number. -/
inductive Value
  | truth (b : Bool)
  | whole (n : Int)
  | list (items : List Value)
  | variant (tag : String) (fields : List Value)
  | other (t : Ty) (datum : Nat)

def isOther (choices : Choices) : Ty → Bool
  | .truth => false
  | .whole => false
  | .list _ => false
  | .var _ => false
  | .unknown => false
  | .nothing => false
  | t => (choiceOf choices t).isNone

inductive HasType (choices : Choices) : Value → Ty → Prop
  | truth (b : Bool) : HasType choices (.truth b) .truth
  | whole (n : Int) : HasType choices (.whole n) .whole
  | list {items : List Value} {item : Ty} : (∀ v ∈ items, HasType choices v item) →
      HasType choices (.list items) (.list item)
  | variant {t : Ty} {choice : Choice} {variant : Variant} {fields : List Value} :
      choiceOf choices t = some choice → variant ∈ choice.variants →
      fields.length = variant.fields.length →
      (∀ pair ∈ fields.zip variant.fields, HasType choices pair.1 pair.2) →
      HasType choices (.variant variant.name fields) t
  | other {t : Ty} {datum : Nat} : isOther choices t = true →
      HasType choices (.other t datum) t

end Values

/-- What the expressions of a body evaluate to, in a state that the evaluation and the
binding of names may change. -/
structure Evaluator (Expr Effect : Type) where
  State : Type
  value : Expr → State → Value × State
  effect : Effect → State → State
  assign : Nat → Value → State → State
  truthy : Value → Bool
  truthy_truth : ∀ b : Bool, truthy (.truth b) = b
  less : Value → Value → Bool

section Execution

inductive Origin (Expr : Type)
  | value (e : Expr)
  | run (run : List (Pipeline Expr))

inductive Outcome (Expr : Type)
  | normal
  | broke
  | returned (origin : Origin Expr) (v : Value)
  | threw

variable {Expr Effect : Type} (ev : Evaluator Expr Effect)

/-- The state of the evaluation, and the accumulators `$pN`. -/
structure Frame where
  state : ev.State
  accumulator : Nat → Option Value

variable {ev}

namespace Frame

def evaluate (f : Frame ev) (e : Expr) : Value × Frame ev :=
  ((ev.value e f.state).1, { f with state := (ev.value e f.state).2 })

def assign (f : Frame ev) (id : Nat) (v : Value) : Frame ev :=
  { f with state := ev.assign id v f.state }

def assignEach (f : Frame ev) : List Nat → List Value → Frame ev
  | id :: ids, v :: vs => (f.assign id v).assignEach ids vs
  | _, _ => f

def store (f : Frame ev) (p : Nat) (v : Value) : Frame ev :=
  { f with accumulator := Function.update f.accumulator p (some v) }

def items (f : Frame ev) (p : Nat) : Option (List Value) :=
  match f.accumulator p with
  | some (.list items) => some items
  | _ => none

end Frame

def filterEach (var : Nat) (cond : Expr) : List Value → Frame ev → List Value × Frame ev
  | [], f => ([], f)
  | v :: vs, f =>
      let (kept, f) := (f.assign var v).evaluate cond
      let (rest, f) := filterEach var cond vs f
      (if ev.truthy kept then v :: rest else rest, f)

def mapEach (var : Nat) (mapped : Expr) : List Value → Frame ev → List Value × Frame ev
  | [], f => ([], f)
  | v :: vs, f =>
      let (w, f) := (f.assign var v).evaluate mapped
      let (rest, f) := mapEach var mapped vs f
      (w :: rest, f)

def reduceEach (total item : Nat) (step : Expr) :
    Value → List Value → Frame ev → Value × Frame ev
  | acc, [], f => (acc, f)
  | acc, v :: vs, f =>
      let (acc, f) := ((f.assign total acc).assign item v).evaluate step
      reduceEach total item step acc vs f

def sorted (ev : Evaluator Expr Effect) (items keys : List Value) : List Value :=
  ((items.zip keys).mergeSort (fun a b => !ev.less b.2 a.2)).map Prod.fst

/-- `slice(0, count)`; a count below zero counts from the end. -/
def sliced (items : List Value) : Value → List Value
  | .whole n => if 0 ≤ n then items.take n.toNat else items.take (items.length + n).toNat
  | _ => []

/-- `for (const var of items)`, around a body. -/
def loop (var : Nat) (body : Frame ev → Outcome Expr × Frame ev) :
    List Value → Frame ev → Outcome Expr × Frame ev
  | [], f => (.normal, f)
  | v :: vs, f =>
      match body (f.assign var v) with
      | (.normal, f) => loop var body vs f
      | (.broke, f) => (.normal, f)
      | other => other

mutual

def execute : Js Expr Effect → Frame ev → Outcome Expr × Frame ev
  | .const id e, f =>
      let (v, f) := f.evaluate e
      (.normal, f.assign id v)
  | .effect e, f => (.normal, { f with state := ev.effect e f.state })
  | .ifElse cond then_ none, f =>
      let (v, f) := f.evaluate cond
      if ev.truthy v then executeBlock then_ f else (.normal, f)
  | .ifElse cond then_ (some otherwise), f =>
      let (v, f) := f.evaluate cond
      if ev.truthy v then executeBlock then_ f else executeBlock otherwise f
  | .forOf var iter body, f =>
      let (v, f) := f.evaluate iter
      match v with
      | .list items => loop var (executeBlock body) items f
      | _ => (.threw, f)
  | .switch _ scrutinee cases, f =>
      let (v, f) := f.evaluate scrutinee
      match v with
      | .variant tag fields => executeCases tag fields false cases f
      -- no label is `undefined`
      | _ => (.normal, f)
  | .letAccumulator p source, f =>
      let (v, f) := f.evaluate source
      (.normal, f.store p v)
  | .filter p var cond, f =>
      match f.items p with
      | some items =>
          let (kept, f) := filterEach var cond items f
          (.normal, f.store p (.list kept))
      | none => (.threw, f)
  | .map p var mapped, f =>
      match f.items p with
      | some items =>
          let (items, f) := mapEach var mapped items f
          (.normal, f.store p (.list items))
      | none => (.threw, f)
  | .sort p _ var key, f =>
      match f.items p with
      | some items =>
          let (keys, f) := mapEach var key items f
          (.normal, f.store p (.list (sorted ev items keys)))
      | none => (.threw, f)
  | .reduce p total item step seed, f =>
      match f.items p with
      | some items =>
          let (v, f) := f.evaluate seed
          let (v, f) := reduceEach total item step v items f
          (.normal, f.store p v)
      | none => (.threw, f)
  | .slice p count, f =>
      match f.items p with
      | some items =>
          let (v, f) := f.evaluate count
          (.normal, f.store p (.list (sliced items v)))
      | none => (.threw, f)
  | .returnAccumulator p run, f =>
      match f.accumulator p with
      | some v => (.returned (.run run) v, f)
      | none => (.threw, f)
  | .give e, f => (.returned (.value e) (f.evaluate e).1, (f.evaluate e).2)
  -- the next turn of the loop, or the trampoline, computes the value of the call
  | .jump e, f => (.returned (.value e) (f.evaluate e).1, (f.evaluate e).2)
  | .bounce e, f => (.returned (.value e) (f.evaluate e).1, (f.evaluate e).2)
  | .break_, f => (.broke, f)

def executeBlock : List (Js Expr Effect) → Frame ev → Outcome Expr × Frame ev
  | [], f => (.normal, f)
  | s :: js, f =>
      match execute s f with
      | (.normal, f) => executeBlock js f
      | other => other

/-- The cases of a `switch` from the first one with the label on, up to a `break`. -/
def executeCases (tag : String) (fields : List Value) (entered : Bool) :
    List (Case Expr Effect) → Frame ev → Outcome Expr × Frame ev
  | [], f => (.normal, f)
  | .mk label binders body :: cases, f =>
      if entered || label == tag then
        match executeBlock body (f.assignEach binders fields) with
        | (.normal, f) => executeCases tag fields true cases f
        | (.broke, f) => (.normal, f)
        | other => other
      else executeCases tag fields false cases f

end

def run (js : List (Js Expr Effect)) (state : ev.State) : Outcome Expr :=
  (executeBlock js ⟨state, fun _ => none⟩).1

end Execution

end Bodies
end Zdeceptron
