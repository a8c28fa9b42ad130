import Zdeceptron.Bodies.Engine

/-!
# Functions that call one another

The expressions of a body with the calls inside them, and what a call hands back when every
call is an ordinary one.  What an operator makes of its operands and what a declaration
without a body does are parameters, `Host`.
-/

namespace Zdeceptron
namespace Bodies

section Arguments

variable {α β : Type}

inductive Arg (α : Type)
  | positional (value : α)
  | named (name : String) (value : α)

def Arg.map (f : α → β) : Arg α → Arg β
  | positional value => positional (f value)
  | named name value => named name (f value)

def Arg.value : Arg α → α
  | positional value => value
  | named _ value => value

/-- The arguments go into the slots of the parameters; a later one replaces an earlier one. -/
def fillSlots (params : List String) :
    List (Arg α) → Nat → List (Option α) → Option (List (Option α))
  | [], _, ordered => some ordered
  | .positional value :: args, nextPositional, ordered =>
      if ordered.length ≤ nextPositional then none
      else fillSlots params args (nextPositional + 1) (ordered.set nextPositional (some value))
  | .named name value :: args, nextPositional, ordered =>
      match params.idxOf? name with
      | some index => fillSlots params args nextPositional (ordered.set index (some value))
      | none => none

def allFilled : List (Option α) → Option (List α)
  | [] => some []
  | none :: _ => none
  | some value :: ordered => (allFilled ordered).map (value :: ·)

def orderedArguments (params : List String) (args : List (Arg α)) : Option (List α) :=
  (fillSlots params args 0 (List.replicate params.length none)).bind allFilled

theorem fillSlots_map (f : α → β) (params : List String) (args : List (Arg α)) (n : Nat)
    (ordered : List (Option α)) :
    fillSlots params (args.map (Arg.map f)) n (ordered.map (Option.map f)) =
      (fillSlots params args n ordered).map (List.map (Option.map f)) := by
  induction args generalizing n ordered with
  | nil => rfl
  | cons arg args ih =>
      cases arg with
      | positional value =>
          simp only [List.map_cons, Arg.map, fillSlots, List.length_map]
          split_ifs
          · rfl
          · rw [← ih, List.map_set, Option.map_some]
      | named name value =>
          simp only [List.map_cons, Arg.map, fillSlots]
          cases params.idxOf? name with
          | none => rfl
          | some index => rw [← ih, List.map_set, Option.map_some]

theorem allFilled_map (f : α → β) (ordered : List (Option α)) :
    allFilled (ordered.map (Option.map f)) = (allFilled ordered).map (List.map f) := by
  induction ordered with
  | nil => rfl
  | cons slot ordered ih =>
      cases slot with
      | none => rfl
      | some value =>
          simp only [List.map_cons, Option.map_some, allFilled, ih, Option.map_map]
          rfl

theorem orderedArguments_map (f : α → β) (params : List String) (args : List (Arg α)) :
    orderedArguments params (args.map (Arg.map f)) =
      (orderedArguments params args).map (List.map f) := by
  unfold orderedArguments
  have hslots := fillSlots_map f params args 0 (List.replicate params.length none)
  rw [List.map_replicate, Option.map_none] at hslots
  rw [hslots]
  cases fillSlots params args 0 (List.replicate params.length none) with
  | none => rfl
  | some ordered => exact allFilled_map f ordered

variable {params : List String} {args : List (Arg α)}

theorem fillSlots_length {n : Nat}
    {ordered filled : List (Option α)} (h : fillSlots params args n ordered = some filled) :
    filled.length = ordered.length := by
  induction args generalizing n ordered with
  | nil =>
      cases h
      rfl
  | cons arg args ih =>
      cases arg with
      | positional value =>
          rw [fillSlots] at h
          split_ifs at h
          rw [ih h, List.length_set]
      | named name value =>
          rw [fillSlots] at h
          split at h
          · rw [ih h, List.length_set]
          · cases h

theorem allFilled_length {ordered : List (Option α)} {values : List α}
    (h : allFilled ordered = some values) : values.length = ordered.length := by
  induction ordered generalizing values with
  | nil =>
      cases h
      rfl
  | cons slot ordered ih =>
      cases slot with
      | none => cases h
      | some value =>
          obtain ⟨rest, hrest, rfl⟩ := Option.map_eq_some_iff.mp h
          rw [List.length_cons, List.length_cons, ih hrest]

theorem orderedArguments_length {values : List α}
    (h : orderedArguments params args = some values) : values.length = params.length := by
  obtain ⟨filled, hfilled, hvalues⟩ := Option.bind_eq_some_iff.mp h
  rw [allFilled_length hvalues, fillSlots_length hfilled, List.length_replicate]

end Arguments

section Expressions

/-- An expression.  `Op` are the operators that evaluate all of their operands first:
literals, reads, arithmetic, collections, records and choices. -/
inductive HirExpr (Op : Type)
  | local_ (id : Nat)
  | operator (op : Op) (operands : List (HirExpr Op))
  | conditional (condition value otherwise : HirExpr Op)
  | and (lhs rhs : HirExpr Op)
  | or (lhs rhs : HirExpr Op)
  | mapInside (var : Nat) (tag : String) (source to_ : HirExpr Op)
  | call (callee : Nat) (args : List (Arg (HirExpr Op)))
  | ofCall (callee : Nat) (operand : HirExpr Op)

/-- What a statement runs for its effect: the call of a `do`, or a mutation. -/
inductive Action (Op Verb : Type)
  | perform (call : HirExpr Op)
  | mutation (verb : Verb) (operands : List (HirExpr Op))

abbrev FunctionBody (Op Verb : Type) := Block (HirExpr Op) (Action Op Verb)

variable {Op Verb : Type}

/-- The definition an expression calls and the arguments, if the expression is a call and
nothing wrapped around it. -/
def callOf : HirExpr Op → Option (Nat × List (Arg (HirExpr Op)))
  | .call callee args => some (callee, args)
  | .ofCall callee operand => some (callee, [.positional operand])
  | _ => none

def calledDef (e : HirExpr Op) : Option Nat := (callOf e).map Prod.fst

end Expressions

section Programs

structure Param where
  id : Nat
  name : String

inductive DefKind (Op Verb : Type)
  | function (params : List Param) (body : FunctionBody Op Verb)
  | release (params : List Param) (body : FunctionBody Op Verb)
  | foreign (params : List String)
  | record (fields : List String)
  | other

abbrev Program (Op Verb : Type) := List (DefKind Op Verb)

namespace Program

variable {Op Verb : Type} (program : Program Op Verb)

def bodyOf (id : Nat) : Option (List Param × FunctionBody Op Verb) :=
  match program[id]? with
  | some (.function params body) => some (params, body)
  | some (.release params body) => some (params, body)
  | _ => none

def paramNames (id : Nat) : List String :=
  match program[id]? with
  | some (.function params _) => params.map Param.name
  | some (.release params _) => params.map Param.name
  | some (.foreign params) => params
  | some (.record fields) => fields
  | _ => []

/-- Whether a definition can be called with arguments of this kind: a record is built by
naming its fields. -/
def takes {α : Type} (id : Nat) (args : List (Arg α)) : Bool :=
  match program[id]? with
  | some (.record _) => args.all (fun arg => match arg with
      | .positional _ => false
      | .named _ _ => true)
  | some .other => false
  | none => false
  | _ => true

/-- The arguments of a call of `id`, in the order of its declaration. -/
def argumentsOf {α : Type} (id : Nat) (args : List (Arg α)) : Option (List α) :=
  if program.takes id args then orderedArguments (program.paramNames id) args else none

theorem argumentsOf_map {α β : Type} (f : α → β) (id : Nat) (args : List (Arg α)) :
    program.argumentsOf id (args.map (Arg.map f)) =
      (program.argumentsOf id args).map (List.map f) := by
  have htakes : program.takes id (args.map (Arg.map f)) = program.takes id args := by
    unfold takes
    split
    · rw [List.all_map]
      exact congrArg args.all (funext fun arg => by cases arg <;> rfl)
    all_goals rfl
  unfold argumentsOf
  rw [htakes]
  split_ifs
  · exact orderedArguments_map f _ args
  · rfl

end Program

end Programs

section Evaluation

open Engine Step

/-- What is outside the bodies: operators, mutations, and the definitions without a body.
`undefined_` is handed back by a body that falls off its end. -/
structure Host (σ Op Verb : Type) where
  operator : Op → List Value → Step σ Value
  mutate : Verb → List Value → Step σ Unit
  call : Nat → List Value → Step σ Value
  truthy : Value → Bool
  less : Value → Value → Bool
  undefined_ : Value

abbrev Locals := Nat → Option Value

structure Scope (σ : Type) where
  locals : Locals
  state : σ

variable {σ Op Verb α β : Type}

def outside (step : Step σ α) : Step (Scope σ) α := fun scope =>
  ((step.run scope.state).1, { scope with state := (step.run scope.state).2 })

theorem run_outside (step : Step σ α) (scope : Scope σ) :
    (outside step).run scope =
      ((step.run scope.state).1, { scope with state := (step.run scope.state).2 }) := rfl

def inScope (locals : Locals) (step : Step (Scope σ) α) : Step σ α := fun s =>
  ((step.run ⟨locals, s⟩).1, (step.run ⟨locals, s⟩).2.state)

theorem run_inScope (locals : Locals) (step : Step (Scope σ) α) (s : σ) :
    (inScope locals step).run s = ((step.run ⟨locals, s⟩).1, (step.run ⟨locals, s⟩).2.state) := rfl

def Scope.assign (id : Nat) (v : Value) (scope : Scope σ) : Scope σ :=
  { scope with locals := Function.update scope.locals id (some v) }

def readLocal (id : Nat) : Step (Scope σ) Value := do
  match (← look).locals id with
  | some v => return v
  | none => fail .threw

theorem run_readLocal (id : Nat) (s : Scope σ) :
    (readLocal id).run s = ((s.locals id).elim (.error .threw) .ok, s) := by
  unfold readLocal
  rw [run_bind, run_look]
  cases hlocal : s.locals id with
  | none =>
      simp only [hlocal]
      rfl
  | some v =>
      simp only [hlocal]
      rfl

def inOrder : List (Step σ α) → Step σ (List α)
  | [] => return []
  | step :: steps => do
      let a ← step
      return a :: (← inOrder steps)

def applied (call : List Value → Step σ Value) :
    Option (List (Step (Scope σ) Value)) → Step (Scope σ) Value
  | some args => do outside (call (← inOrder args))
  | none => fail .threw

namespace Host

variable (host : Host σ Op Verb) (program : Program Op Verb)
  (call : Nat → List Value → Step σ Value)

mutual

/-- The value of an expression, where `call` answers the calls. -/
def value : HirExpr Op → Step (Scope σ) Value
  | .local_ id => readLocal id
  | .operator op operands => do outside (host.operator op (← values operands))
  | .conditional condition then_ otherwise => do
      if host.truthy (← value condition) then value then_ else value otherwise
  | .and lhs rhs => do
      let v ← value lhs
      if host.truthy v then value rhs else return v
  | .or lhs rhs => do
      let v ← value lhs
      if host.truthy v then return v else value rhs
  | .mapInside var tag source to_ => do
      match ← value source with
      | .variant name (payload :: fields) =>
          if name == tag then do
            change (Scope.assign var payload)
            return .variant tag [← value to_]
          else return .variant name (payload :: fields)
      | other => return other
  | .call callee args => applied (call callee) (program.argumentsOf callee (argumentValues args))
  | .ofCall callee operand =>
      applied (call callee) (program.argumentsOf callee [.positional (value operand)])

def values : List (HirExpr Op) → Step (Scope σ) (List Value)
  | [] => return []
  | e :: es => do
      let v ← value e
      return v :: (← values es)

def argumentValues : List (Arg (HirExpr Op)) → List (Arg (Step (Scope σ) Value))
  | [] => []
  | .positional e :: args => .positional (value e) :: argumentValues args
  | .named name e :: args => .named name (value e) :: argumentValues args

end

def action : Action Op Verb → Step (Scope σ) Unit
  | .perform e => do
      let _ ← host.value program call e
      return ()
  | .mutation verb operands => do
      outside (host.mutate verb (← host.values program call operands))

def engine : Engine (HirExpr Op) (Action Op Verb) where
  State := Scope σ
  value := host.value program call
  effect := host.action program call
  assign := Scope.assign
  truthy := host.truthy
  less := host.less

def block (body : FunctionBody Op Verb) : Step (Scope σ) Ending :=
  (host.engine program call).block none body

theorem argumentValues_eq (args : List (Arg (HirExpr Op))) :
    host.argumentValues program call args = args.map (Arg.map (host.value program call)) := by
  induction args with
  | nil => rw [argumentValues, List.map_nil]
  | cons arg args ih =>
      cases arg with
      | positional _ | named _ _ => rw [argumentValues, ih, List.map_cons, Arg.map]

theorem value_call {e : HirExpr Op} {callee : Nat} {args : List (Arg (HirExpr Op))}
    (h : callOf e = some (callee, args)) :
    host.value program call e = applied (call callee)
      ((program.argumentsOf callee args).map (List.map (host.value program call))) := by
  rw [← program.argumentsOf_map]
  cases e with
  | call callee' args' =>
      cases h
      rw [value, argumentValues_eq]
  | ofCall callee' operand =>
      cases h
      rw [value]
      rfl
  | _ => cases h

end Host

namespace Program

variable (program : Program Op Verb) (host : Host σ Op Verb)

def bound : List Param → List Value → Locals → Locals
  | param :: params, v :: args, locals =>
      bound params args (Function.update locals param.id (some v))
  | _, _, locals => locals

/-- What a call hands back when the body ends; `fallen` answers for a body that falls off its
end. -/
def handedBack (fallen : Nat → Step σ Value) (id : Nat) : Ending → Step σ Value
  | .gave v => return v
  | .fell => fallen id

/-- A call, with `fuel` for the calls nested in one another: every call runs the body of what
it names. -/
def evaluateWith (fallen : Nat → Step σ Value) (fuel id : Nat) (args : List Value) :
    Step σ Value :=
  match program.bodyOf id with
  | none => host.call id args
  | some (params, body) =>
      match fuel with
      | 0 => fail .endless
      | fuel + 1 => do
          let ending ← inScope (bound params args fun _ => none)
            (host.block program (evaluateWith fallen fuel) body)
          handedBack fallen id ending

section Equations

variable {program : Program Op Verb} {host : Host σ Op Verb} {fallen : Nat → Step σ Value}
  {id : Nat} {args : List Value} {params : List Param} {body : FunctionBody Op Verb}

theorem evaluateWith_none (h : program.bodyOf id = none) (fuel : Nat) :
    program.evaluateWith host fallen fuel id args = host.call id args := by
  unfold evaluateWith
  rw [h]

theorem evaluateWith_zero (h : program.bodyOf id = some (params, body)) :
    program.evaluateWith host fallen 0 id args = fail .endless := by
  unfold evaluateWith
  rw [h]

theorem evaluateWith_succ (h : program.bodyOf id = some (params, body)) (fuel : Nat) :
    program.evaluateWith host fallen (fuel + 1) id args = inScope (bound params args fun _ => none)
          (host.block program (program.evaluateWith host fallen fuel) body) >>=
        handedBack fallen id := by
  rw [evaluateWith, h]

end Equations

def evaluate (fuel id : Nat) (args : List Value) : Step σ Value :=
  program.evaluateWith host (fun _ => return host.undefined_) fuel id args

end Program

end Evaluation

end Bodies
end Zdeceptron
