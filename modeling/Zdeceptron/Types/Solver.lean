import Zdeceptron.Types.Ty

/-!
# The substitution and unification engine

A growable substitution over unification variables, an occurs check and structural
unification.  `Unknown` unifies with anything and records nothing, `Nothing` with
nothing, and a variable carries a constraint.

A function gives `none` where the source does not return: an index that is out of bounds,
or a recursion that does not end.
-/

namespace Zdeceptron
namespace Types

inductive Mismatch
  | shape
  | constraint (needed : Constraint) (found : Ty)
  | infinite

structure Solver where
  bindings : List (Option Ty)
  constraints : List Constraint

namespace Solver

abbrev Result := Option (Solver × Except Mismatch Unit)

def new : Solver := ⟨[], []⟩

def freshConstrained (s : Solver) (constraint : Constraint) : Option (Solver × Ty) :=
  if s.bindings.length < 2 ^ 32 then
    some (⟨s.bindings ++ [none], s.constraints ++ [constraint]⟩, .var s.bindings.length)
  else none

def fresh (s : Solver) : Option (Solver × Ty) := s.freshConstrained .any

def shallow (s : Solver) : Ty → Option Ty
  | .var id =>
      match s.bindings[id]? with
      | none => none
      | some none => some (.var id)
      | some (some bound) => s |>.shallow bound
  | t => some t
partial_fixpoint

mutual

def zonk (s : Solver) (ty : Ty) : Option Ty := do
  match ← s.shallow ty with
  | .list inner => return .list (← s |>.zonk inner)
  | .option inner => return .option (← s |>.zonk inner)
  | .remote inner => return .remote (← s |>.zonk inner)
  | .map key value => return .map (← s |>.zonk key) (← s |>.zonk value)
  | .pair first second => return .pair (← s |>.zonk first) (← s |>.zonk second)
  | .function params result => return .function (← s |>.zonkAll params) (← s |>.zonk result)
  | settled => return settled
partial_fixpoint

def zonkAll (s : Solver) (params : List Ty) : Option (List Ty) :=
  match params with
  | [] => some []
  | param :: params => do return (← s |>.zonk param) :: (← s |>.zonkAll params)
partial_fixpoint

end

def require (s : Solver) (ty : Ty) (constraint : Constraint) : Result := do
  match ← s.shallow ty with
  | .unknown => return (s, .ok ())
  | .var id =>
      match (← s.constraints[id]?).meet constraint with
      | some narrowed =>
          return ({ s with constraints := s.constraints.set id narrowed }, .ok ())
      | none => return (s, .error (.constraint constraint (.var id)))
  | concrete =>
      if constraint.admits concrete then return (s, .ok ())
      else return (s, .error (.constraint constraint concrete))

mutual

def occurs (s : Solver) (id : Nat) (ty : Ty) : Option Bool := do
  match ← s.shallow ty with
  | .var other => return decide (other = id)
  | .list inner => s |>.occurs id inner
  | .option inner => s |>.occurs id inner
  | .remote inner => s |>.occurs id inner
  | .map key value => if ← s |>.occurs id key then return true else s |>.occurs id value
  | .pair first second => if ← s |>.occurs id first then return true else s |>.occurs id second
  | .function params result =>
      if ← s |>.occursAny id params then return true else s |>.occurs id result
  | _ => return false
partial_fixpoint

def occursAny (s : Solver) (id : Nat) (params : List Ty) : Option Bool :=
  match params with
  | [] => some false
  | param :: params => do
      if ← s |>.occurs id param then return true else s |>.occursAny id params
partial_fixpoint

end

def bind (s : Solver) (id : Nat) (concrete : Ty) : Result := do
  if ← s.occurs id concrete then return (s, .error .infinite)
  else
    let constraint ← s.constraints[id]?
    if constraint.admits concrete then
      return ({ s with bindings := s.bindings.set id (some concrete) }, .ok ())
    else return (s, .error (.constraint constraint concrete))

/-- Bind one variable to another, which takes the meet of their constraints. -/
def merge (s : Solver) (a b : Nat) : Result := do
  let needed ← s.constraints[a]?
  match needed.meet (← s.constraints[b]?) with
  | some narrowed =>
      return (⟨s.bindings.set a (some (.var b)), s.constraints.set b narrowed⟩, .ok ())
  | none => return (s, .error (.constraint needed (.var b)))

mutual

def unify (s : Solver) (left right : Ty) : Result := do
  match ← s.shallow left, ← s.shallow right with
  -- already reported
  | .unknown, _ => return (s, .ok ())
  | _, .unknown => return (s, .ok ())
  -- no value, so no position where two of them meet
  | .nothing, _ => return (s, .error .shape)
  | _, .nothing => return (s, .error .shape)
  | .var a, .var b => if a = b then return (s, .ok ()) else s.merge a b
  | .var id, concrete => s.bind id concrete
  | concrete, .var id => s.bind id concrete
  | .text, .text => return (s, .ok ())
  | .markup, .markup => return (s, .ok ())
  | .whole, .whole => return (s, .ok ())
  | .decimal, .decimal => return (s, .ok ())
  | .truth, .truth => return (s, .ok ())
  | .handle, .handle => return (s, .ok ())
  | .error, .error => return (s, .ok ())
  | .code, .code => return (s, .ok ())
  | .event a, .event b => if a = b then return (s, .ok ()) else return (s, .error .shape)
  | .named a, .named b => if a = b then return (s, .ok ()) else return (s, .error .shape)
  | .list a, .list b => s |>.unify a b
  | .option a, .option b => s |>.unify a b
  | .remote a, .remote b => s |>.unify a b
  | .map ak av, .map bk bv => do
      match ← s |>.unify ak bk with
      | (s, .ok _) => s |>.unify av bv
      | (s, .error mismatch) => return (s, .error mismatch)
  | .pair ak av, .pair bk bv => do
      match ← s |>.unify ak bk with
      | (s, .ok _) => s |>.unify av bv
      | (s, .error mismatch) => return (s, .error mismatch)
  | .function ap ar, .function bp br =>
      if ap.length = bp.length then do
        match ← s |>.unifyEach ap bp with
        | (s, .ok _) => s |>.unify ar br
        | (s, .error mismatch) => return (s, .error mismatch)
      else return (s, .error .shape)
  | _, _ => return (s, .error .shape)
partial_fixpoint

def unifyEach (s : Solver) (lefts rights : List Ty) : Result :=
  match lefts, rights with
  | left :: lefts, right :: rights => do
      match ← s |>.unify left right with
      | (s, .ok _) => s |>.unifyEach lefts rights
      | (s, .error mismatch) => return (s, .error mismatch)
  | _, _ => some (s, .ok ())
partial_fixpoint

end

def defaultOne (s : Solver) (id : Nat) : Solver :=
  match s.bindings[id]?, s.constraints[id]? with
  | some none, some constraint =>
      match constraint.defaultType with
      | some default => { s with bindings := s.bindings.set id (some default) }
      | none => s
  | _, _ => s

/-- Replace every variable still carrying a constraint with a default by that default. -/
def defaultUnconstrained (s : Solver) : Solver :=
  (List.range s.bindings.length).foldl defaultOne s

end Solver

end Types
end Zdeceptron
