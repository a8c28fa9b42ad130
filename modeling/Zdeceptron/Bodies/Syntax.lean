import Zdeceptron.Types.Resolved

/-!
# The statements of a body, and the choices a `when` takes apart

`Expr` are the expressions whose value a statement uses, `Effect` what is run for its
effect alone: the call of a `do`, a mutation.
-/

namespace Zdeceptron
namespace Bodies

open Types

section Statements

inductive Pipeline (Expr : Type)
  | source (expr : Expr)
  | keep (var : Nat) (cond : Expr)
  | sort (var : Nat) (key : Expr)
  | mapEach (var : Nat) (mapped : Expr)
  | fold (item total : Nat) (starting step : Expr)
  | takeFirst (count : Expr)

namespace Pipeline

variable {Expr : Type}

def isSource : Pipeline Expr → Bool
  | source _ => true
  | _ => false

end Pipeline

mutual

inductive Stmt (Expr Effect : Type)
  | pipeline (clause : Pipeline Expr)
  | mutation (mutation : Effect)
  | bind (bindings : List (Nat × Expr))
  | give (expr : Expr)
  | when (scrutinee : Expr) (arms : List (Arm Expr Effect))
  | each (var : Nat) (iter : Expr) (body : List (Stmt Expr Effect))
  | ifThen (cond : Expr) (then_ : List (Stmt Expr Effect))
      (otherwise : Option (List (Stmt Expr Effect)))
  | perform (call : Effect)

inductive Arm (Expr Effect : Type)
  | mk (name : String) (bindings : List Nat) (body : ArmBody Expr Effect)

inductive ArmBody (Expr Effect : Type)
  | show_ (expr : Expr)
  | block (stmts : List (Stmt Expr Effect))

end

abbrev Block (Expr Effect : Type) := List (Stmt Expr Effect)

namespace Arm

variable {Expr Effect : Type}

def name : Arm Expr Effect → String
  | mk name _ _ => name

end Arm

end Statements

section Choices

structure Variant where
  name : String
  fields : List Ty

structure Choice where
  variants : List Variant

abbrev Choices := List (String × Choice)

def Choice.variant (choice : Choice) (name : String) : Option Variant :=
  choice.variants.find? (fun variant => variant.name == name)

def Choice.names (choice : Choice) : List String := choice.variants.map Variant.name

def failureCodes : List String := ["Unreachable", "Timeout", "Rejected"]

def builtinChoiceOf : Ty → Option Choice
  | .remote inner => some ⟨[⟨"Loading", []⟩, ⟨"Ready", [inner]⟩, ⟨"Failed", [.error]⟩]⟩
  | .option inner => some ⟨[⟨"Some", [inner]⟩, ⟨"None", []⟩]⟩
  | .code => some ⟨failureCodes.map (fun spelling => ⟨spelling, []⟩)⟩
  | _ => none

/-- The choice that a `when` on a value of this type takes apart. -/
def choiceOf (choices : Choices) : Ty → Option Choice
  | .named name => choices.lookup name
  | t => builtinChoiceOf t

theorem choiceOf_subst (choices : Choices) (σ : Nat → Ty) {t : Ty} {choice : Choice}
    (h : choiceOf choices t = some choice) :
    ∃ choice', choiceOf choices (t.subst σ) = some choice' ∧ choice'.names = choice.names := by
  cases t with
  | remote _ | option _ | code =>
      cases h
      exact ⟨_, rfl, rfl⟩
  | named name => exact ⟨choice, h, rfl⟩
  | _ => cases h

end Choices

section Settled

mutual

def isSettled : Ty → Bool
  | .var _ => false
  | .unknown => false
  | .list inner => isSettled inner
  | .option inner => isSettled inner
  | .remote inner => isSettled inner
  | .map key value => isSettled key && isSettled value
  | .pair first second => isSettled first && isSettled second
  | .function params result => allSettled params && isSettled result
  | _ => true

def allSettled : List Ty → Bool
  | [] => true
  | t :: ts => isSettled t && allSettled ts

end

end Settled

end Bodies
end Zdeceptron
