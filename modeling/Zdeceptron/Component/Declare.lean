import Zdeceptron.Types.Ty
import Zdeceptron.Wire.Value

/-!
# Declarations of client state in their two places

A `state` line stands at the top level or in a component.  At the top level the resolver
makes a `Signal` of it and `emit_declaration` prints it; in a component the resolver makes
a `LocalSignal`, the instance copies it, and `locals` prints it.  Both print a call that
makes the cell: a `Construct`.

The expressions of a program are a parameter: the names an expression mentions, the types
it has and the value it takes.
-/

namespace Zdeceptron
namespace Component

open Types
open Wire (Value)

section Declarations

inductive Clock
  | interval (ms : Float)
  | frame
  | delay (ms : Float)

namespace Clock

def value_type : Clock → Ty → Bool
  | interval _, .decimal => true
  | frame, .decimal => true
  | delay _, .truth => true
  | _, _ => false

end Clock

/-- The clause that gives a `client` declaration its value. -/
inductive Init (Expr : Type)
  | starting (e : Expr)
  | derived (e : Expr)
  | clock (spec : Clock)
  | stepping (clock : Clock) (start step : Expr)

def Init.Stepping {Expr : Type} : Init Expr → Prop
  | .stepping _ _ _ => True
  | _ => False

structure StateDecl (Expr : Type) where
  name : String
  ty : Ty
  init : Init Expr

/-- A place where the program writes the declaration: a statement of a handler with the
value it leaves, or an input element bound to it both ways. -/
inductive Use (Expr : Type)
  | statement (value : Expr)
  | element

/-- What is asked of an expression: the names it mentions, whether it has a type, and its
value where the names have theirs. -/
structure Expressions (Expr : Type) where
  names : Expr → List String
  has_type : Expr → Ty → Bool
  value : (String → Value) → Expr → Value

/-- The value a cell rests at: one the program writes, or the one a clock implies. -/
inductive Rest (Expr : Type)
  | written (e : Expr)
  | resting (clock : Clock)

structure Signal (Expr : Type) where
  ty : Ty
  is_source : Bool
  clock : Option Clock
  step : Option Expr
  init : Rest Expr

structure LocalSignal (Expr : Type) where
  ty : Ty
  is_source : Bool
  clock : Option Clock
  step : Option Expr
  init : Rest Expr

end Declarations

variable {Expr : Type} (X : Expressions Expr)

section Resolve

def expr (scope : List String) (e : Expr) : Option Expr :=
  if (X.names e).all (fun name => decide (name ∈ scope)) then some e else none

theorem expr_eq_some {scope : List String} {e e' : Expr} :
    expr X scope e = some e' ↔ (∀ name ∈ X.names e, name ∈ scope) ∧ e = e' := by
  rw [expr]
  split_ifs with h
  · simpa using fun _ => h
  · simp only [false_iff, not_and]
    intro hscope
    exact absurd (by simpa using hscope) h

theorem expr_outer {name : String} {outer : List String} {e e' : Expr}
    (hresolved : expr X (name :: outer) e = some e') (hname : name ∉ X.names e) :
    expr X outer e = some e' := by
  obtain ⟨hscope, he⟩ := (expr_eq_some X).mp hresolved
  refine (expr_eq_some X).mpr ⟨fun other hother => ?_, he⟩
  rcases List.mem_cons.mp (hscope other hother) with hself | houter
  · exact absurd (hself ▸ hother) hname
  · exact houter

def signal (outer : List String) (state : StateDecl Expr) : Option (Signal Expr) :=
  let scope := state.name :: outer
  match state.init with
  | .starting e => do
      let init ← expr X scope e
      some ⟨state.ty, true, none, none, .written init⟩
  | .derived e => do
      let init ← expr X scope e
      some ⟨state.ty, false, none, none, .written init⟩
  | .clock spec => some ⟨state.ty, false, some spec, none, .resting spec⟩
  | .stepping spec start step => do
      let init ← expr X scope start
      let stepped ← expr X scope step
      some ⟨state.ty, true, some spec, some stepped, .written init⟩

def component_state (outer : List String) (state : StateDecl Expr) :
    Option (LocalSignal Expr) :=
  match state.init with
  | .starting e => do
      let init ← expr X outer e
      some ⟨state.ty, true, none, none, .written init⟩
  | .derived e => do
      let init ← expr X outer e
      some ⟨state.ty, false, none, none, .written init⟩
  | .clock spec => some ⟨state.ty, false, some spec, none, .resting spec⟩
  | .stepping spec start step => do
      let stepped ← expr X outer step
      let init ← expr X outer start
      some ⟨state.ty, true, some spec, some stepped, .written init⟩

def local_signal (state : LocalSignal Expr) : LocalSignal Expr :=
  { state with step := none }

end Resolve

section Check

inductive NotWritable
  | derived
  | clock (clock : Clock)

def NotWritable.of : Bool → Option Clock → Bool → Option NotWritable
  | _, some _, true => none
  | _, some spec, false => some (.clock spec)
  | false, none, _ => some .derived
  | true, none, _ => none

def Rest.has_type (ty : Ty) : Rest Expr → Bool
  | .written e => X.has_type e ty
  | .resting clock => clock.value_type ty

def Rest.mentions (name : String) : Rest Expr → Bool
  | .written e => decide (name ∈ X.names e)
  | .resting _ => false

/-- No signal is defined in terms of itself; a step is a write and defines nothing. -/
def derivation_cycle_check (name : String) (s : Signal Expr) : Bool :=
  !s.init.mentions X name

/-- A plain clock fixes the type of its cell, any other cell has that of its value and
of its step. -/
def check_signal_body (s : Signal Expr) : Bool :=
  match s.clock, s.step with
  | some clock, none => clock.value_type s.ty && s.init.has_type X s.ty
  | _, none => s.init.has_type X s.ty
  | _, some step => s.init.has_type X s.ty && X.has_type step s.ty

/-- The check of an instance's state, which looks at its clock and its value. -/
def check_local (s : LocalSignal Expr) : Bool :=
  match s.clock with
  | some clock => clock.value_type s.ty && s.init.has_type X s.ty
  | none => s.init.has_type X s.ty

/-- A statement that writes the declaration: its value resolves and has the type. -/
def check_statement (scope : List String) (ty : Ty) (value : Expr) : Bool :=
  (expr X scope value).isSome && X.has_type value ty

/-- A write of a top-level declaration: a statement or an input element, of a cell that
accepts writes. -/
def check_use (scope : List String) (s : Signal Expr) : Use Expr → Bool
  | .statement value =>
      (NotWritable.of s.is_source s.clock s.step.isSome).isNone &&
        check_statement X scope s.ty value
  | .element => (NotWritable.of s.is_source s.clock s.step.isSome).isNone

/-- A write of an instance's state; an input element is given a top-level declaration. -/
def check_local_use (scope : List String) (s : LocalSignal Expr) : Use Expr → Bool
  | .statement value =>
      (NotWritable.of s.is_source s.clock s.step.isSome).isNone &&
        check_statement X scope s.ty value
  | .element => false

end Check

section Emit

inductive Construct (Expr : Type)
  | signal (value : Rest Expr)
  | derived (body : Rest Expr)
  | everyMs (ms : Float)
  | everyFrame
  | afterMs (ms : Float)
  | steppingMs (ms : Float) (start : Rest Expr) (step : Expr)
  | steppingFrame (start : Rest Expr) (step : Expr)

/-- The `const` a declaration becomes: its call, and whether a setter is bound. -/
structure Emitted (Expr : Type) where
  construct : Construct Expr
  setter : Bool

def clock_call : Clock → Construct Expr
  | .interval every => .everyMs every
  | .frame => .everyFrame
  | .delay delay => .afterMs delay

def stepping_call (clock : Clock) (start : Rest Expr) (step : Expr) : Construct Expr :=
  match clock with
  | .interval every => .steppingMs every start step
  | .frame => .steppingFrame start step
  | .delay _ => .steppingFrame start step

/-- A top-level declaration; `setter` says that something writes it. -/
def emit_declaration (setter : Bool) (s : Signal Expr) : Emitted Expr :=
  match s.clock with
  | some clock =>
      match s.step with
      | some step => ⟨stepping_call clock s.init step, setter⟩
      | none => ⟨clock_call clock, false⟩
  | none =>
      if s.is_source then ⟨.signal s.init, setter⟩ else ⟨.derived s.init, false⟩

def locals (setter : Bool) (s : LocalSignal Expr) : Emitted Expr :=
  match s.clock with
  | some clock => ⟨clock_call clock, false⟩
  | none =>
      if s.is_source then ⟨.signal s.init, setter⟩ else ⟨.derived s.init, false⟩

/-- What a declaration becomes at the top level, if the program is accepted. -/
def top_level (outer : List String) (state : StateDecl Expr) (uses : List (Use Expr)) :
    Option (Emitted Expr) := do
  let s ← signal X outer state
  if derivation_cycle_check X state.name s && check_signal_body X s &&
      uses.all (check_use X (state.name :: outer) s) then
    some (emit_declaration (!uses.isEmpty) s)
  else none

variable {state : StateDecl Expr} {uses : List (Use Expr)} {emitted : Emitted Expr}
  {outer : List String}

theorem top_level_eq_some :
    top_level X outer state uses = some emitted ↔
      ∃ s, signal X outer state = some s ∧ derivation_cycle_check X state.name s = true ∧
        check_signal_body X s = true ∧ uses.all (check_use X (state.name :: outer) s) = true ∧
        emit_declaration (!uses.isEmpty) s = emitted := by
  rw [top_level]
  simp only [Option.bind_eq_bind, Option.bind_eq_some_iff]
  refine exists_congr fun s => and_congr_right fun _ => ?_
  split_ifs with hchecks
  · simp only [Bool.and_eq_true] at hchecks
    obtain ⟨⟨hcycle, hbody⟩, huses⟩ := hchecks
    simp [hcycle, hbody, huses]
  · simp only [Bool.and_eq_true, not_and] at hchecks
    simp only [false_iff]
    rintro ⟨hcycle, hbody, huses, -⟩
    exact hchecks ⟨hcycle, hbody⟩ huses

/-- What a declaration becomes in a component with one instance, if the program is
accepted. -/
def instantiated (outer : List String) (state : StateDecl Expr) (uses : List (Use Expr)) :
    Option (Emitted Expr) := do
  let declared ← component_state X outer state
  let s := local_signal declared
  if check_local X s && uses.all (check_local_use X (state.name :: outer) s) then
    some (locals (!uses.isEmpty) s)
  else none

theorem instantiated_eq_some :
    instantiated X outer state uses = some emitted ↔
      ∃ s, component_state X outer state = some s ∧ check_local X (local_signal s) = true ∧
        uses.all (check_local_use X (state.name :: outer) (local_signal s)) = true ∧
        locals (!uses.isEmpty) (local_signal s) = emitted := by
  rw [instantiated]
  simp only [Option.bind_eq_bind, Option.bind_eq_some_iff]
  refine exists_congr fun s => and_congr_right fun _ => ?_
  split_ifs with hchecks
  · obtain ⟨hbody, huses⟩ := Bool.and_eq_true_iff.mp hchecks
    simp [hbody, huses]
  · simp only [false_iff]
    rintro ⟨hbody, huses, -⟩
    exact hchecks (Bool.and_eq_true_iff.mpr ⟨hbody, huses⟩)

end Emit

end Component
end Zdeceptron
