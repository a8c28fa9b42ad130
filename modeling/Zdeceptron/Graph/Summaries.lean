import Zdeceptron.Graph.SideBySide
import Zdeceptron.Library.Rounds

/-!
# Summaries of the functions

A function is walked in every context it is a member of, its parameters standing for
themselves.  The summaries are solved in rounds, each in place, until a round changes none.
-/

namespace Zdeceptron
namespace Graph

open Library

section Solving

def paramLabel (index : Nat) : SymLabel :=
  ⟨.dep index .shape, .dep index .value, .dep index .failure⟩

def bindParams : Nat → List LocalId → (LocalId → SymLabel) → LocalId → SymLabel
  | _, [], locals => locals
  | index, param :: params, locals =>
      bindParams (index + 1) params (Function.update locals param (paramLabel index))

/-- What the parameters of a function are bound to; every other local is public. -/
def startLocals (function : Function) : LocalId → SymLabel :=
  bindParams 0 function.params Walk.new.locals

def Pass.solve (p : Pass) (function : Function) : Summary :=
  let walk := ((p.block function.body).run { Walk.new with locals := startLocals function }).2
  ⟨walk.result ⊔ walk.acc, walk.obligations⟩

abbrev Key := DefId × Ctx

abbrev Summaries := Key → Summary

/-- The pass over a function in one context, calls reading the summaries of that context. -/
def passOf (hir : Hir) (split : TierSplit) (σ : Summaries) (key : Key) : Pass where
  hir := hir
  split := split
  ctx := key.2
  owner := key.1
  callee := fun d => σ (d, key.2)

def solveFunction (hir : Hir) (split : TierSplit) (σ : Summaries) (key : Key) : Summary :=
  match hir.kind key.1 with
  | some (.function function) => (passOf hir split σ key).solve function
  | _ => .empty

def isFunction (hir : Hir) (id : DefId) : Bool :=
  match hir.kind id with
  | some (.function _) => true
  | _ => false

def functionKeys (hir : Hir) (split : TierSplit) : List Key :=
  (split.splitter.contexts.filter (fun key => isFunction hir key.1)).dedup

def obligationsEqual (before after : Summary) : Bool :=
  before.obligations.entries.all (fun entry =>
    match after.obligations.lookup entry.1 with
    | some right =>
        entry.2.found = right.found ∧ entry.2.pc = right.pc ∧ entry.2.required = right.required
    | none => false)

def sameSummary (before after : Summary) : Bool :=
  before.result = after.result ∧
    before.obligations.entries.length = after.obligations.entries.length ∧
      obligationsEqual before after

/-- The rounds of the analysis, over the keys in some order, in a program of `exprs`
expressions. -/
def summarise (hir : Hir) (split : TierSplit) (exprs : Nat) (order : List Key) :
    Outcome Summaries :=
  rounds (solveFunction hir split) sameSummary order (8 * (order.length + 1) * (exprs + 1))
    (fun _ => .empty)

end Solving

end Graph
end Zdeceptron
