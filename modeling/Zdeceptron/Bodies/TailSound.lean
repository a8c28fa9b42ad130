import Zdeceptron.Bodies.TailCalls

/-!
# Jumps and bounces come to what the calls come to

* `tail_calls_preserve_meaning`: a call comes to what ordinary evaluation comes to.
-/

namespace Zdeceptron
namespace Bodies

open Engine Step

namespace Program

variable {σ Op Verb : Type} {program : Program Op Verb} {present : Nat → Bool}
  {host : Host σ Op Verb}

section Groups

theorem stepped_of_bounces {id callee : Nat} {body : FunctionBody Op Verb} {e : HirExpr Op}
    (h : (program.tailOf present id body).bounces e = true) (hcallee : calledDef e = some callee) :
    program.stepped present id = true ∧ program.stepped present callee = true := by
  unfold tailOf at h
  dsimp only at h
  rw [hcallee] at h
  cases hgroup : program.bounceGroup present id with
  | none =>
      rw [hgroup] at h
      cases h
  | some group =>
      rw [hgroup] at h
      dsimp only at h
      rw [Bool.and_eq_true, List.contains_iff_mem] at h
      obtain ⟨hown, hpresent⟩ := Option.filter_eq_some_iff.mp hgroup
      obtain ⟨group', hgroup', hsame⟩ := groupOf_member hown h.1
      have hpresent' : group'.all present = true := by
        rw [List.all_eq_true] at hpresent ⊢
        exact fun member hmember => hpresent member ((hsame member).mp hmember)
      refine ⟨?_, ?_⟩
      · unfold stepped
        rw [hgroup]
        rfl
      · unfold stepped bounceGroup
        rw [hgroup', Option.filter_some, if_pos hpresent']
        rfl

theorem callOf_of_ordersArguments {e : HirExpr Op} (h : program.ordersArguments e = true) :
    ∃ callee args es, callOf e = some (callee, args) ∧ calledDef e = some callee ∧
      program.argumentsOf callee args = some es := by
  unfold ordersArguments at h
  cases hcall : callOf e with
  | none =>
      rw [hcall] at h
      cases h
  | some call =>
      rw [hcall] at h
      obtain ⟨es, hes⟩ := Option.isSome_iff_exists.mp h
      exact ⟨call.1, call.2, es, rfl, by rw [calledDef, hcall]; rfl, hes⟩

end Groups

section Scripts

variable {id : Nat} {params : List Param} {body : FunctionBody Op Verb}

theorem emitFunction_eq (hcompiles : program.Compiles present)
    (hbody : program.bodyOf id = some (params, body)) :
    ∃ script n, emitBlock (program.tailOf present id body) [] body 0 = some (script, n) ∧
      program.emitFunction present id = some ⟨params, givesASelfCall id body, script⟩ := by
  have hsome := hcompiles id (by rw [hbody]; rfl)
  unfold emitFunction at hsome ⊢
  rw [hbody] at hsome ⊢
  dsimp only at hsome ⊢
  unfold emitBody at hsome ⊢
  cases hemit : emitBlock (program.tailOf present id body) [] body 0 with
  | none =>
      rw [hemit] at hsome
      cases hsome
  | some emitted => exact ⟨emitted.1, emitted.2, rfl, rfl⟩

variable {call : Nat → List Value → Step σ Value}

theorem value_tail {e : HirExpr Op} {callee : Nat}
    (horders : program.ordersArguments e = true) (hcallee : calledDef e = some callee) :
    host.value program call e =
      program.tailArguments host call e >>= fun args => outside (call callee args) := by
  obtain ⟨callee', args, es, hcall, hcalled, hes⟩ := callOf_of_ordersArguments horders
  obtain rfl := Option.some.inj (hcallee.symm.trans hcalled)
  rw [Host.value_call host program call hcall, hes]
  unfold tailArguments
  rw [hcall]
  dsimp only
  rw [hes]
  rfl

variable {args : List Value}

theorem bound_of_not_mem {locals : Locals} {x : Nat}
    (hx : x ∉ params.map Param.id) : bound params args locals x = locals x := by
  induction params generalizing args locals with
  | nil => rfl
  | cons param params ih =>
      rw [List.map_cons, List.mem_cons, not_or] at hx
      cases args with
      | nil => rfl
      | cons v args =>
          rw [bound, ih hx.2]
          exact Function.update_of_ne hx.1 _ _

theorem bound_of_mem (h : args.length = params.length) {x : Nat}
    (hx : x ∈ params.map Param.id) (locals locals' : Locals) :
    bound params args locals x = bound params args locals' x := by
  induction params generalizing args locals locals' with
  | nil => cases hx
  | cons param params ih =>
      cases args with
      | nil => cases h
      | cons v args =>
          rw [bound, bound]
          by_cases hlater : x ∈ params.map Param.id
          · exact ih (Nat.succ.inj h) hlater _ _
          · obtain rfl := (List.mem_cons.mp hx).resolve_right hlater
            rw [bound_of_not_mem hlater, bound_of_not_mem hlater, Function.update_self,
              Function.update_self]

theorem kept_bound (h : args.length = params.length) (locals : Locals) :
    kept params (bound params args locals) = bound params args fun _ => none := by
  funext x
  unfold kept
  split_ifs with hx
  · exact bound_of_mem h hx _ _
  · rw [bound_of_not_mem hx]

theorem length_inOrder {α : Type} {steps : List (Step σ α)} {s s' : σ} {values : List α}
    (h : (inOrder steps).run s = (.ok values, s')) : values.length = steps.length := by
  induction steps generalizing s values with
  | nil =>
      cases h
      rfl
  | cons step steps ih =>
      rw [inOrder, run_bind] at h
      rcases hstep : step.run s with ⟨_ | a, s₁⟩
      · rw [hstep] at h
        cases h
      · rw [hstep] at h
        dsimp only at h
        rw [run_bind] at h
        rcases hrest : (inOrder steps).run s₁ with ⟨_ | rest, s₂⟩
        · rw [hrest] at h
          cases h
        · rw [hrest] at h
          cases h
          rw [List.length_cons, List.length_cons, ih hrest]

theorem paramNames_length (hbody : program.bodyOf id = some (params, body)) :
    (program.paramNames id).length = params.length := by
  unfold bodyOf at hbody
  unfold paramNames
  split at hbody
  · cases hbody
    rename_i h
    rw [h, List.length_map]
  · cases hbody
    rename_i h
    rw [h, List.length_map]
  · cases hbody

theorem length_tailArguments {e : HirExpr Op}
    (hself : calledDef e = some id) (hbody : program.bodyOf id = some (params, body))
    {scope scope' : Scope σ}
    (h : (program.tailArguments host call e).run scope = (.ok args, scope')) :
    args.length = params.length := by
  unfold tailArguments at h
  cases hcall : callOf e with
  | none =>
      rw [hcall] at h
      cases h
  | some named =>
      rw [hcall] at h
      dsimp only at h
      have hid : named.1 = id := by
        rw [calledDef, hcall] at hself
        exact Option.some.inj hself
      cases hes : program.argumentsOf named.1 named.2 with
      | none =>
          rw [hes] at h
          cases h
      | some es =>
          rw [hes] at h
          rw [length_inOrder h, List.length_map]
          unfold argumentsOf at hes
          split_ifs at hes
          rw [orderedArguments_length hes, hid, paramNames_length hbody]

end Scripts

section Turns

variable {id : Nat} {params : List Param} {body : FunctionBody Op Verb}
  {run : Bool → Nat → Locals → Step σ Returned}

theorem isFunction_of_stepped (h : program.stepped present id = true) :
    ∃ params body, program.bodyOf id = some (params, body) := by
  obtain ⟨group, hgroup⟩ := Option.isSome_iff_exists.mp h
  obtain ⟨hown, -⟩ := Option.filter_eq_some_iff.mp hgroup
  unfold groupOf at hown
  split_ifs at hown with hfunction
  rw [Bool.and_eq_true] at hfunction
  obtain ⟨params, body, hbody⟩ := isFunction_iff.mp hfunction.1
  refine ⟨params, body, ?_⟩
  unfold bodyOf
  rw [hbody]

variable (program present host run)

/-- The calls of a script whose functions are run by `run`. -/
def callsBy (callee : Nat) (args : List Value) : Step σ Value :=
  unwrapped (program.callBy present host run callee args)

def settledTurn (id : Nat) : Turn → Step σ Ending
  | .returned v => return .gave v
  | .bounced callee args => do
      return .gave (← program.callsBy present host run callee args)
  | .again locals => do return .gave (← unwrapped (run (program.stepped present id) id locals))
  | .fell => return .fell

variable {program present host run}

theorem callsBy_eq (hbody : program.bodyOf id = some (params, body)) (args : List Value) :
    program.callsBy present host run id args =
      unwrapped (run (program.stepped present id) id (bound params args fun _ => none)) := by
  unfold callsBy callBy
  rw [hbody]

variable {call : Nat → List Value → Step σ Value} {e : HirExpr Op} {callee : Nat}

theorem inScope_settled
    (horders : program.ordersArguments e = true) (hcallee : calledDef e = some callee)
    (locals : Locals) :
    inScope locals (host.value program call e >>= fun v => pure (Ending.gave v)) =
      inScope locals (program.tailArguments host call e) >>= fun args =>
        call callee args >>= fun v => pure (Ending.gave v) := by
  refine Step.ext fun s => ?_
  rw [value_tail horders hcallee, run_inScope, run_bind, run_bind, run_bind, run_inScope]
  rcases (program.tailArguments host call e).run ⟨locals, s⟩ with ⟨_ | args, scope⟩
  · rfl
  · dsimp only
    rw [run_outside, run_bind]
    rcases (call callee args).run scope.state with ⟨_ | v, s'⟩ <;> rfl

theorem inScope_finish_jumped
    (hself : calledDef e = some id) (hbody : program.bodyOf id = some (params, body))
    (locals : Locals) :
    inScope locals (program.finish host params call (.jumped e)) =
      inScope locals (program.tailArguments host call e) >>= fun args =>
        pure (.again (bound params args fun _ => none)) := by
  refine Step.ext fun s => ?_
  rw [finish, run_inScope, run_bind, run_bind, run_inScope]
  rcases hargs : (program.tailArguments host call e).run ⟨locals, s⟩ with ⟨_ | args, scope⟩
  · rfl
  · dsimp only
    rw [run_bind, run_look]
    dsimp only
    rw [kept_bound (length_tailArguments hself hbody hargs)]
    rfl

theorem inScope_finish_bounced
    (hcallee : calledDef e = some callee) (locals : Locals) :
    inScope locals (program.finish host params call (.bounced e)) =
      inScope locals (program.tailArguments host call e) >>= fun args =>
        pure (.bounced callee args) := by
  refine Step.ext fun s => ?_
  rw [finish, hcallee, run_inScope, run_bind, run_bind, run_inScope]
  rcases (program.tailArguments host call e).run ⟨locals, s⟩ with ⟨_ | args, scope⟩ <;> rfl

theorem bounces_eq (h : (program.tailOf present id body).bounces e = true) :
    program.ordersArguments e = true ∧ ∃ callee, calledDef e = some callee := by
  unfold tailOf at h
  dsimp only at h
  split at h
  · rw [Bool.and_eq_true] at h
    exact ⟨h.2, _, ‹calledDef e = some _›⟩
  · cases h

section Activations

variable {Expr Effect α : Type} {en : Engine Expr Effect}
  {finish : Engine.Outcome Expr → Step en.State α}
  {js : Step (Engine.Frame en) (Engine.Outcome Expr)} {state : en.State} {f : Engine.Frame en}

theorem run_activation (finish : Engine.Outcome Expr → Step en.State α)
    (js : Step (Engine.Frame en) (Engine.Outcome Expr)) (state : en.State) :
    (activation finish js).run state =
      match js.run ⟨state, fun _ => none⟩ with
      | (.ok outcome, f) => (finish outcome).run f.state
      | (.error fault, f) => (.error fault, f.state) := rfl

theorem activation_ok {outcome : Engine.Outcome Expr}
    (h : js.run ⟨state, fun _ => none⟩ = (.ok outcome, f)) :
    (activation finish js).run state = (finish outcome).run f.state := by
  rw [run_activation, h]

theorem activation_error {fault : Fault} (h : js.run ⟨state, fun _ => none⟩ = (.error fault, f)) :
    (activation finish js).run state = (.error fault, f.state) := by
  rw [run_activation, h]

end Activations

variable (host run) in
theorem settle_finish (hbody : program.bodyOf id = some (params, body))
    {outcome : Engine.Outcome (HirExpr Op)}
    (h : outcome.Leaves (program.tailOf present id body)) (locals : Locals) :
    inScope locals (@settle _ _ (host.engine program (program.callsBy present host run)) outcome) =
      inScope locals (program.finish host params (program.callsBy present host run) outcome) >>=
        program.settledTurn present host run id := by
  cases outcome with
  | normal => rfl
  | broke => rfl
  | returned v => rfl
  | jumped e =>
      have hjumps : (givesASelfCall id body &&
          (isSelfCall id e && program.ordersArguments e)) = true := h
      rw [Bool.and_eq_true, Bool.and_eq_true] at hjumps
      have hself : calledDef e = some id := eq_of_beq hjumps.2.1
      refine (inScope_settled hjumps.2.2 hself locals).trans ?_
      rw [inScope_finish_jumped hself hbody, bind_assoc]
      refine congrArg _ (funext fun args => ?_)
      rw [callsBy_eq hbody]
      rfl
  | bounced e =>
      obtain ⟨horders, callee, hcallee⟩ := bounces_eq h
      refine (inScope_settled horders hcallee locals).trans ?_
      rw [inScope_finish_bounced hcallee, bind_assoc]
      rfl

variable {script : List (Js (HirExpr Op) (Action Op Verb))} {n : Nat}

variable (host params) in
theorem block_run (call : Nat → List Value → Step σ Value)
    (hemit : emitBlock (program.tailOf present id body) [] body 0 = some (script, n))
    (scope : Scope σ) :
    (∃ fault state, (host.block program call body).run scope = (.error fault, state) ∧
        ∀ looped, (program.turn host ⟨params, looped, script⟩ call).run scope =
          (.error fault, state)) ∨ ∃ (outcome : Engine.Outcome (HirExpr Op)) (state : Scope σ),
        outcome.Leaves (program.tailOf present id body) ∧ (host.block program call body).run scope =
          (@settle _ _ (host.engine program call) outcome).run state ∧
        ∀ looped, (program.turn host ⟨params, looped, script⟩ call).run scope =
          (program.finish host params call outcome).run state := by
  have hmeans : Means (program.tailOf present id body) (Engine.executeBlock script)
      ((host.engine program call).block none body) := emitBlock_means body hemit
  have hsame := hmeans.same ⟨scope, fun _ => none⟩
  unfold after at hsame
  cases hrun : (Engine.executeBlock script).run
      (⟨scope, fun _ => none⟩ : Engine.Frame (host.engine program call)) with
  | mk result f =>
      rw [hrun] at hsame
      cases result with
      | error fault =>
          exact .inl ⟨fault, f.state, hsame.symm, fun _ => activation_error hrun⟩
      | ok outcome =>
          exact .inr ⟨outcome, f.state, hmeans.leaves _ _ _ hrun, hsame.symm,
            fun _ => activation_ok hrun⟩

theorem block_eq_turn (hbody : program.bodyOf id = some (params, body))
    (hemit : emitBlock (program.tailOf present id body) [] body 0 = some (script, n))
    (looped : Bool) (locals : Locals) :
    inScope locals (host.block program (program.callsBy present host run) body) =
      inScope locals (program.turn host ⟨params, looped, script⟩
          (program.callsBy present host run)) >>= program.settledTurn present host run id := by
  refine Step.ext fun s => ?_
  rw [run_inScope, run_bind, run_inScope]
  rcases block_run host params _ hemit ⟨locals, s⟩ with
    ⟨fault, state, hblock, hturn⟩ | ⟨outcome, state, hleaves, hblock, hturn⟩
  · rw [hblock, hturn]
  · rw [hblock, hturn]
    exact congrFun (settle_finish host run hbody hleaves state.locals)
      state.state

theorem turn_bounced
    (hemit : emitBlock (program.tailOf present id body) [] body 0 = some (script, n))
    {looped : Bool} {locals : Locals} {s s' : σ} {args : List Value}
    (h : (inScope locals (program.turn host ⟨params, looped, script⟩ call)).run s =
      (.ok (.bounced callee args), s')) :
    program.stepped present id = true ∧ program.stepped present callee = true := by
  rw [run_inScope] at h
  rcases block_run host params call hemit ⟨locals, s⟩ with
    ⟨fault, state, -, hturn⟩ | ⟨outcome, state, hleaves, -, hturn⟩
  · rw [hturn] at h
    cases h
  · rw [hturn] at h
    cases outcome with
    | normal | broke | returned v => cases h
    | jumped e =>
        rw [finish, run_bind] at h
        rcases hargs : (program.tailArguments host call e).run state with ⟨_ | args', scope⟩ <;>
          rw [hargs] at h <;> cases h
    | bounced e =>
        obtain ⟨-, callee', hcallee⟩ := bounces_eq hleaves
        rw [finish, hcallee, run_bind] at h
        rcases hargs : (program.tailArguments host call e).run state with ⟨_ | args', scope⟩
        · rw [hargs] at h
          cases h
        · rw [hargs] at h
          cases h
          exact stepped_of_bounces hleaves hcallee

end Turns

section Runs

variable {α β : Type}

theorem bind_congr_run {step : Step σ α} {next next' : α → Step σ β}
    (h : ∀ s a s', step.run s = (.ok a, s') → next a = next' a) :
    step >>= next = step >>= next' := by
  refine Step.ext fun s => ?_
  rw [run_bind, run_bind]
  rcases hstep : step.run s with ⟨_ | a, s'⟩
  · rfl
  · dsimp only
    rw [h s a s' hstep]

/-- A run that hands back no `$Bounce`. -/
def Valued (step : Step σ Returned) : Prop :=
  ∀ s r s', step.run s = (.ok r, s') → ∃ v, r = .value v

theorem Valued.unwrapped_bind {step : Step σ Returned} (h : Valued step) :
    (unwrapped step >>= fun v => pure (Returned.value v)) = step := by
  have hstep : step = step >>= pure := (bind_pure step).symm
  conv_rhs => rw [hstep]
  unfold unwrapped
  rw [bind_assoc]
  refine bind_congr_run fun s r s' hr => ?_
  obtain ⟨v, rfl⟩ := h s r s' hr
  rfl

theorem valued_bind {step : Step σ α} {next : α → Step σ Returned} (h : ∀ a, Valued (next a)) :
    Valued (step >>= next) := by
  intro s r s' hr
  rw [run_bind] at hr
  rcases hstep : step.run s with ⟨_ | a, s₁⟩
  · rw [hstep] at hr
    cases hr
  · rw [hstep] at hr
    exact h a s₁ r s' hr

theorem valued_value (v : Value) : Valued (pure (.value v) : Step σ Returned) := by
  intro s r s' hr
  cases hr
  exact ⟨v, rfl⟩

variable (program present host)

/-- What a function does when its body has ended: the loop goes round again. -/
def resumed (fuel id : Nat) (looped : Bool) (locals : Locals) : Ending → Step σ Returned
  | .gave v => return .value v
  | .fell =>
      if looped then program.enter present host fuel (program.stepped present id) id locals
      else return .value host.undefined_

variable {program present host} {fuel id : Nat} {params : List Param}
  {body : FunctionBody Op Verb}

theorem enter_eq (hcompiles : program.Compiles present) (hvalued : ∀ id locals,
      Valued (program.enter present host fuel (program.stepped present id) id locals))
    (hbody : program.bodyOf id = some (params, body)) (locals : Locals) :
    program.enter present host (fuel + 1) (program.stepped present id) id locals =
      inScope locals (host.block program
          (program.callsBy present host (program.enter present host fuel)) body) >>=
        program.resumed present host fuel id (givesASelfCall id body) locals := by
  obtain ⟨script, n, hemit, hfunction⟩ := emitFunction_eq hcompiles hbody
  rw [block_eq_turn hbody hemit (givesASelfCall id body), bind_assoc, enter, hfunction]
  refine bind_congr_run fun s turn s' hturn => ?_
  cases turn with
  | returned v => rfl
  | fell => rfl
  | again locals' =>
      have hagain := (hvalued id locals').unwrapped_bind
      rw [settledTurn, bind_assoc]
      exact hagain.symm
  | bounced callee args =>
      obtain ⟨hstepped, hcallee⟩ := turn_bounced hemit hturn
      obtain ⟨params', body', hbody'⟩ := isFunction_of_stepped hcallee
      have hbounced := (hvalued callee (bound params' args fun _ => none)).unwrapped_bind
      rw [hcallee] at hbounced
      rw [settledTurn, callsBy_eq hbody', bind_assoc, hcallee]
      dsimp only
      rw [hstepped, hbody']
      dsimp only
      rw [if_pos rfl, if_pos hcallee]
      exact hbounced.symm

theorem enter_valued (hcompiles : program.Compiles present) (fuel id : Nat) (locals : Locals) :
    Valued (program.enter present host fuel (program.stepped present id) id locals) := by
  induction fuel generalizing id locals with
  | zero =>
      intro s r s' h
      cases h
  | succ fuel ih =>
      cases hbody : program.bodyOf id with
      | none =>
          intro s r s' h
          rw [enter, emitFunction, hbody] at h
          cases h
      | some function =>
          rw [enter_eq hcompiles ih hbody]
          refine valued_bind fun ending => ?_
          cases ending with
          | gave v => exact valued_value v
          | fell =>
              unfold resumed
              dsimp only
              split_ifs
              · exact ih id locals
              · exact valued_value _

theorem callEmitted_valued (hcompiles : program.Compiles present) (fuel id : Nat)
    (args : List Value) : Valued (program.callEmitted present host fuel id args) := by
  unfold callEmitted callBy
  split
  · exact valued_bind valued_value
  · exact enter_valued hcompiles fuel id _

end Runs

end Program

end Bodies
end Zdeceptron
