import Zdeceptron.Bodies.Loads
import Zdeceptron.Bodies.Sound

/-!
# What a call of an accepted body hands back

* `accepted_body_returns`: the body loads exactly where its runs draw from one source each;
  every execution returns, and what it returns has the result type unless a run of
  pipeline clauses hands it back that is not the last of the body's own statements.
-/

namespace Zdeceptron
namespace Bodies

open Types Library

section Result

variable {Expr Effect : Type} {I : Inference Expr Effect} {σ : Nat → Ty} {result : Ty}
  {ev : Evaluator Expr Effect} {tail : TailCalls Expr} {body : Block Expr Effect}
  {js : List (Js Expr Effect)}

theorem BodyTyped.returns_typed (h : BodyTyped I σ result body)
    (hev : Evaluates I σ ev) (hjs : emitBody tail body = some js) (state : ev.State) :
    ∃ origin v, run js state = .returned origin v ∧
      match origin with
      | .value _ => HasType I.choices v (result.subst σ)
      | .run r => startsWithSource r = true ∧ HasType I.choices v (runType I σ r) := by
  obtain ⟨⟨js', n⟩, hemit, rfl⟩ := Option.map_eq_some_iff.mp hjs
  have hsound := emitBlock_sound hev body hemit h.typed (⟨state, fun _ => none⟩ : Frame ev)
  rw [h.returns] at hsound
  unfold run
  cases hrun : (executeBlock js' (⟨state, fun _ => none⟩ : Frame ev)).1 with
  | normal =>
      rw [hrun] at hsound
      cases hsound
  | broke | threw =>
      rw [hrun] at hsound
      exact hsound.elim
  | returned origin v =>
      rw [hrun] at hsound
      refine ⟨origin, v, rfl, ?_⟩
      cases origin with
      | value e => exact hsound
      | run r => exact hsound

end Result

section Sample

inductive Sample
  | condition
  | texts
  | one

def sampleType : Sample → Ty
  | .condition => .truth
  | .texts => .list .text
  | .one => .whole

def sampleInference : Inference Sample Empty where
  choices := []
  choices_plain h := by cases h
  typeOf := sampleType
  expr _ c := some c
  expr_later := by
    intro e c c' hc h
    cases h
    exact ⟨.refl hc, by cases e <;> rintro v ⟨⟩, by cases e <;> exact fun _ => rfl⟩
  callType e := e.elim
  call e := e.elim
  call_later := by rintro ⟨⟩
  mutation e := e.elim
  mutation_later := by rintro ⟨⟩
  attempt _ _ := none
  attempt_later := by rintro id c c' solved - ⟨⟩

def sampleValue : Sample → Value
  | .condition => .truth true
  | .texts => .list [.other .text 0]
  | .one => .whole 1

def sampleEvaluator : Evaluator Sample Empty where
  State := Unit
  value e _ := (sampleValue e, ())
  effect e := e.elim
  assign _ _ _ := ()
  truthy v := match v with
    | .truth b => b
    | _ => true
  truthy_truth _ := rfl
  less _ _ := false

def sampleRun (js : List (Js Sample Empty)) : Outcome Sample :=
  run js (show sampleEvaluator.State from ())

def noTailCalls : TailCalls Sample := ⟨fun _ => false, fun _ => false⟩

theorem sample_evaluates (σ : Nat → Ty) : Evaluates sampleInference σ sampleEvaluator := by
  intro e state
  cases e with
  | condition => exact .truth true
  | texts =>
      refine .list ?_
      intro v hv
      obtain rfl := List.mem_singleton.mp hv
      exact .other rfl
  | one => exact .whole 1

/-- `give 1`. -/
def givesOne : Block Sample Empty := [.give .one]

/-- `if condition` with `from texts` inside, then `give 1`. -/
def nestedRun : Block Sample Empty :=
  [.ifThen .condition [.pipeline (.source .texts)] none, .give .one]

def Checker.new : Checker := ⟨.new, fun _ => none, [], []⟩

theorem Checker.new_wellFormed : Checker.new.WellFormed where
  solver := Solver.new_wellFormed
  plain _ := by rintro v t ⟨⟩
  locals := by rintro id t ⟨⟩
  pending := by rintro t arms ⟨⟩

theorem unify_truth (s : Solver) : s.unify .truth .truth = some (s, .ok ()) := by
  rw [Solver.unify.eq_def, Solver.shallow_of_isVar s rfl]
  rfl

theorem unify_whole (s : Solver) : s.unify .whole .whole = some (s, .ok ()) := by
  rw [Solver.unify.eq_def, Solver.shallow_of_isVar s rfl]
  rfl

theorem unify_texts : Solver.unify ⟨[none], [.any]⟩ (.list .text) (.list (.var 0)) =
    some (⟨[some .text], [.any]⟩, .ok ()) := by
  have hvar : Solver.shallow ⟨[none], [.any]⟩ (.var 0) = some (.var 0) := Solver.shallow_free rfl
  have hinner : Solver.unify ⟨[none], [.any]⟩ .text (.var 0) =
      some (⟨[some .text], [.any]⟩, .ok ()) := by
    rw [Solver.unify.eq_def, Solver.shallow_of_isVar _ rfl, hvar]
    simp only [Option.bind_eq_bind, Option.bind_some, Solver.bind]
    rw [Solver.occurs.eq_def, Solver.shallow_of_isVar _ rfl]
    rfl
  rw [Solver.unify.eq_def, Solver.shallow_of_isVar _ rfl, Solver.shallow_of_isVar _ rfl]
  exact hinner

theorem settle_done {Expr Effect : Type} (I : Inference Expr Effect) {c : Checker}
    (hpending : c.pending = []) (hsolver : c.solver.defaultUnconstrained = c.solver) :
    settle I c = some ((), c) := by
  have hdrain : Checker.drainPending I c = some ((), c) := by
    rw [Checker.drainPending.eq_def, hpending]
    obtain ⟨solver, locals, pending, errors⟩ := c
    cases hpending
    rfl
  have hdefault : defaultUnconstrained c = some ((), c) := by
    unfold defaultUnconstrained
    rw [hsolver]
  have hreport : reportUnsolved c = some ((), c) := by
    unfold reportUnsolved
    obtain ⟨solver, locals, pending, errors⟩ := c
    cases hpending
    simp
  unfold settle
  refine bind_eq_some.mpr ⟨_, _, hdrain, ?_⟩
  refine bind_eq_some.mpr ⟨_, _, hdefault, ?_⟩
  exact bind_eq_some.mpr ⟨_, _, hdrain, hreport⟩

theorem expect_eq {c : Checker} {found want : Ty} {solver : Solver}
    (h : c.solver.unify found want = some (solver, .ok ())) :
    expect found want c = some ((), { c with solver := solver }) := by
  unfold expect
  rw [h]

theorem accepted_givesOne : Accepted sampleInference .whole givesOne .new := by
  have hgive : stmt sampleInference .whole .default none (.give .one) .new =
      some ((⟨true, none, false⟩, none), .new) := by
    rw [stmt]
    refine bind_eq_some.mpr ⟨.whole, .new, rfl, ?_⟩
    exact bind_eq_some.mpr ⟨_, _, expect_eq (unify_whole _), rfl⟩
  have hbody : checkFunctionBody sampleInference .whole givesOne .new = some ((), .new) := by
    unfold checkFunctionBody
    refine bind_eq_some.mpr ⟨⟨true, none, false⟩, .new, ?_, rfl⟩
    exact bind_eq_some.mpr ⟨_, _, hgive, rfl⟩
  exact ⟨⟨.new, .new, .new, Checker.new_wellFormed, Checker.holds_closed rfl rfl, hbody,
    .refl Checker.new_wellFormed, settle_done _ rfl rfl⟩, rfl⟩

/-- After `if condition`: the variable for the elements is bound. -/
def afterRun : Checker := ⟨⟨[some .text], [.any]⟩, fun _ => none, [], []⟩

theorem accepted_nestedRun : Accepted sampleInference .whole nestedRun afterRun := by
  have hrun : block sampleInference .whole .default none
      [.pipeline (.source .texts)] .new =
        some (⟨false, some (.list (.var 0)), false⟩, afterRun) := by
    refine bind_eq_some.mpr ⟨(⟨false, some (.list (.var 0)), false⟩, some (.var 0)), afterRun,
      ?_, rfl⟩
    refine bind_eq_some.mpr ⟨.list .text, .new, rfl, ?_⟩
    refine bind_eq_some.mpr ⟨.var 0, ⟨⟨[none], [.any]⟩, fun _ => none, [], []⟩, rfl, ?_⟩
    exact bind_eq_some.mpr ⟨_, _, expect_eq unify_texts, rfl⟩
  have hif : stmt sampleInference .whole .default none
      (.ifThen .condition [.pipeline (.source .texts)] none) .new =
        some ((.default, none), afterRun) := by
    refine bind_eq_some.mpr ⟨.truth, .new, rfl, ?_⟩
    refine bind_eq_some.mpr ⟨_, _, expect_eq (unify_truth _), ?_⟩
    exact bind_eq_some.mpr ⟨_, _, hrun, rfl⟩
  have hgive : stmt sampleInference .whole .default none (.give .one) afterRun =
      some ((⟨true, none, false⟩, none), afterRun) := by
    refine bind_eq_some.mpr ⟨.whole, afterRun, rfl, ?_⟩
    exact bind_eq_some.mpr ⟨_, _, expect_eq (unify_whole _), rfl⟩
  have hbody : checkFunctionBody sampleInference .whole nestedRun .new =
      some ((), afterRun) := by
    refine bind_eq_some.mpr ⟨⟨true, none, false⟩, afterRun, ?_, rfl⟩
    refine bind_eq_some.mpr ⟨_, _, hif, ?_⟩
    exact bind_eq_some.mpr ⟨_, _, hgive, rfl⟩
  obtain ⟨hlater, -⟩ := checkFunctionBody_spec Checker.new_wellFormed
    (Checker.holds_closed rfl rfl) _ _ hbody
  exact ⟨⟨.new, afterRun, afterRun, Checker.new_wellFormed, Checker.holds_closed rfl rfl, hbody,
    .refl hlater.wellFormed, settle_done _ rfl rfl⟩, rfl⟩

theorem solves_afterRun : Ty.terms.Solves afterRun.solver.binds (fun _ => .text) := by
  rintro (_ | v) t h
  · cases h
    rfl
  · cases h

end Sample

end Bodies
end Zdeceptron
