import Zdeceptron.Bodies.Check
import Zdeceptron.Bodies.Emit

/-!
# Well-typed bodies

What the statements of a body need of the types of their expressions, under an assignment
`σ` of types to the solver's variables.
-/

namespace Zdeceptron
namespace Bodies

open Types

variable {Expr Effect : Type} (I : Inference Expr Effect) (σ : Nat → Ty) (result : Ty)

def Inference.type (e : Expr) : Ty := (I.typeOf e).subst σ

section Runs

def clauseType (t : Ty) : Pipeline Expr → Ty
  | .source e => I.type σ e
  | .keep _ _ => t
  | .sort _ _ => t
  | .mapEach _ mapped => .list (I.type σ mapped)
  | .fold _ _ starting _ => I.type σ starting
  | .takeFirst _ => t

def runType (run : List (Pipeline Expr)) : Ty := run.foldl (clauseType I σ) .unknown

def ClauseTyped (t : Ty) : Pipeline Expr → Prop
  | .source e => ∃ item, I.type σ e = .list item
  | .keep _ cond => (∃ item, t = .list item) ∧ I.type σ cond = .truth
  | .sort _ _ => ∃ item, t = .list item
  | .mapEach _ _ => ∃ item, t = .list item
  | .fold _ _ starting step => (∃ item, t = .list item) ∧ I.type σ step = I.type σ starting
  | .takeFirst count => (∃ item, t = .list item) ∧ I.type σ count = .whole

def ClausesTyped : Ty → List (Pipeline Expr) → Prop
  | _, [] => True
  | t, c :: run => ClauseTyped I σ t c ∧ ClausesTyped (clauseType I σ t c) run

def RunTyped (run : List (Pipeline Expr)) : Prop :=
  startsWithSource run = true → ClausesTyped I σ .unknown run

variable {I σ}

theorem ClausesTyped.append {t : Ty} {run : List (Pipeline Expr)} {c : Pipeline Expr}
    (h : ClausesTyped I σ t run) (hc : ClauseTyped I σ (run.foldl (clauseType I σ) t) c) :
    ClausesTyped I σ t (run ++ [c]) := by
  induction run generalizing t with
  | nil => exact ⟨hc, trivial⟩
  | cons first run ih => exact ⟨h.1, ih h.2 hc⟩

theorem runType_append (run : List (Pipeline Expr)) (c : Pipeline Expr) :
    runType I σ (run ++ [c]) = clauseType I σ (runType I σ run) c := by
  unfold runType
  rw [List.foldl_append]
  rfl

end Runs

section Bodies

mutual

def StmtTyped : Stmt Expr Effect → Prop
  | .give e => I.type σ e = result
  | .when scrutinee as => Matched I.choices σ (I.typeOf scrutinee) (as.map Arm.name) ∧
      ArmsTyped as
  | .each _ iter body => (∃ item, I.type σ iter = .list item) ∧ BlockTyped [] body
  | .ifThen cond then_ none => I.type σ cond = .truth ∧ BlockTyped [] then_
  | .ifThen cond then_ (some otherwise) =>
      I.type σ cond = .truth ∧ BlockTyped [] then_ ∧ BlockTyped [] otherwise
  | _ => True

/-- A block, of which the clauses of `run` have been read. -/
def BlockTyped (run : List (Pipeline Expr)) : Block Expr Effect → Prop
  | [] => RunTyped I σ run
  | .pipeline c :: stmts => BlockTyped (run ++ [c]) stmts
  | s :: stmts => RunTyped I σ run ∧ StmtTyped s ∧ BlockTyped [] stmts

def ArmsTyped : List (Arm Expr Effect) → Prop
  | [] => True
  | .mk _ _ body :: rest => ArmBodyTyped body ∧ ArmsTyped rest

def ArmBodyTyped : ArmBody Expr Effect → Prop
  | .show_ e => I.type σ e = result
  | .block stmts => BlockTyped [] stmts

end

mutual

def stmtReturns : Stmt Expr Effect → Bool
  | .pipeline _ => true
  | .give _ => true
  | .when _ as => armsReturn as
  | .ifThen _ then_ (some otherwise) => blockReturns then_ && blockReturns otherwise
  | _ => false

def blockReturns : Block Expr Effect → Bool
  | [] => false
  | s :: stmts => stmtReturns s || blockReturns stmts

def armsReturn : List (Arm Expr Effect) → Bool
  | [] => true
  | .mk _ _ body :: rest => armBodyReturns body && armsReturn rest

def armBodyReturns : ArmBody Expr Effect → Bool
  | .show_ _ => true
  | .block stmts => blockReturns stmts

end

/-- The latest run, while the clauses of `run` have been read after those of `last`. -/
def latest (last : Option (List (Pipeline Expr))) :
    List (Pipeline Expr) → Option (List (Pipeline Expr))
  | [] => last
  | run => some run

def lastRun (last : Option (List (Pipeline Expr))) (run : List (Pipeline Expr)) :
    Block Expr Effect → Option (List (Pipeline Expr))
  | [] => latest last run
  | .pipeline c :: stmts => lastRun last (run ++ [c]) stmts
  | _ :: stmts => lastRun (latest last run) [] stmts

end Bodies

end Bodies
end Zdeceptron
