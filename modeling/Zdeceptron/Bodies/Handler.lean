import Zdeceptron.Bodies.Meaning
import Zdeceptron.Bodies.Result

/-!
# A handler is a transaction

The durable writes of a handler are recorded in `$tx` where they are written, and the whole
batch is sent by one `$atomic` at the end of the script.  A body that gives a value, or an
expression that throws, leaves the script before that.

* `handler_sends_iff`: the batch is sent exactly when the body is not left early.
-/

namespace Zdeceptron
namespace Bodies

open Types Library

section Recording

/-- A durable write, as a command the browser asks the server for: its endpoint, its
right-hand side and the indices of its place. -/
structure Durable (Expr : Type) where
  name : String
  value : Expr
  indices : List Expr

inductive HandlerEffect (Expr Local : Type)
  | durable (mutation : Durable Expr)
  | other (e : Local)

/-- An entry of `$tx`. -/
structure Command where
  name : String
  args : List Value

variable {Expr Local : Type} (en : Engine Expr Local)

def Engine.evaluateEach : List Expr → Step en.State (List Value)
  | [] => return []
  | e :: es => do
      let v ← en.value e
      return v :: (← evaluateEach es)

def Engine.beside {α : Type} (step : Step en.State α) : Step (en.State × List Command) α :=
  fun s => ((step.run s.1).1, ((step.run s.1).2, s.2))

/-- An engine with a record of the durable writes.  Of the source, they are the writes
executed so far; of the script, the entries pushed to `$tx`, which no expression can name. -/
def Engine.recording : Engine Expr (HandlerEffect Expr Local) where
  State := en.State × List Command
  value e := en.beside (en.value e)
  effect
    | .durable m => do
        let args ← en.beside (en.evaluateEach (m.value :: m.indices))
        Step.change (fun s => (s.1, s.2 ++ [⟨m.name, args⟩]))
    | .other e => en.beside (en.effect e)
  assign id v s := (en.assign id v s.1, s.2)
  truthy := en.truthy
  less := en.less

end Recording

section Scripts

variable {Expr Local : Type}

mutual

def stmtCommands : Stmt Expr (HandlerEffect Expr Local) → Nat
  | .mutation (.durable _) => 1
  | .when _ as => armsCommands as
  | .each _ _ body => blockCommands body
  | .ifThen _ then_ none => blockCommands then_
  | .ifThen _ then_ (some otherwise) => blockCommands then_ + blockCommands otherwise
  | _ => 0

def blockCommands : Block Expr (HandlerEffect Expr Local) → Nat
  | [] => 0
  | s :: stmts => stmtCommands s + blockCommands stmts

def armsCommands : List (Arm Expr (HandlerEffect Expr Local)) → Nat
  | [] => 0
  | .mk _ _ body :: rest => armBodyCommands body + armsCommands rest

def armBodyCommands : ArmBody Expr (HandlerEffect Expr Local) → Nat
  | .show_ _ => 0
  | .block stmts => blockCommands stmts

end

def handlerTail : TailCalls Expr := ⟨fun _ => false, fun _ => false⟩

/-- The script of a handler; a transacted one has `const $tx = [];` before its body and
`await $atomic($tx);` after it. -/
structure HandlerScript (Expr Local : Type) where
  transacted : Bool
  body : List (Js Expr (HandlerEffect Expr Local))

def handlerSource (body : Block Expr (HandlerEffect Expr Local)) :
    Option (HandlerScript Expr Local) :=
  (emitBody handlerTail body).map (fun js => ⟨decide (0 < blockCommands body), js⟩)

/-- A run of the script's body, with an empty `$tx`. -/
def HandlerScript.run (script : HandlerScript Expr Local) (en : Engine Expr Local)
    (state : en.State) : Except Fault (Engine.Outcome Expr) × Engine.Frame en.recording :=
  (Engine.executeBlock script.body).run ⟨(state, []), fun _ => none⟩

/-- The entries of `$tx` at the end of a run. -/
def HandlerScript.recorded (script : HandlerScript Expr Local) (en : Engine Expr Local)
    (state : en.State) : List Command :=
  (script.run en state).2.state.2

/-- The batches handed to `$atomic`: one, unless the body is left before its end. -/
def HandlerScript.sent (script : HandlerScript Expr Local) (en : Engine Expr Local)
    (state : en.State) : List (List Command) :=
  match script.run en state with
  | (.ok .normal, f) => if script.transacted then [f.state.2] else []
  | _ => []

def HandlerScript.Ends (script : HandlerScript Expr Local) (en : Engine Expr Local)
    (state : en.State) : Prop :=
  (script.run en state).1 ≠ .error .endless

/-- What the source does on a path: how the body ends, and the durable writes it executes. -/
def handle (en : Engine Expr Local) (body : Block Expr (HandlerEffect Expr Local))
    (state : en.State) : Except Fault Engine.Ending × (en.State × List Command) :=
  (en.recording.block none body).run (state, [])

def executed (en : Engine Expr Local) (body : Block Expr (HandlerEffect Expr Local))
    (state : en.State) : List Command :=
  (handle en body state).2.2

/-- The body is left before its end: it gives a value, or an expression throws. -/
def LeavesEarly (en : Engine Expr Local) (body : Block Expr (HandlerEffect Expr Local))
    (state : en.State) : Prop :=
  (∃ v, (handle en body state).1 = .ok (.gave v)) ∨ (handle en body state).1 = .error .threw

def HandlerScript.SendsOnce (script : HandlerScript Expr Local) (en : Engine Expr Local)
    (body : Block Expr (HandlerEffect Expr Local)) (state : en.State) : Prop :=
  script.Ends en state →
    script.recorded en state = executed en body state ∧
      script.sent en state = [executed en body state]

def HandlerScript.LosesNothing (script : HandlerScript Expr Local) (en : Engine Expr Local)
    (body : Block Expr (HandlerEffect Expr Local)) (state : en.State) : Prop :=
  script.Ends en state → (script.sent en state).flatten = executed en body state

end Scripts

section Sending

variable {Expr Local : Type}
variable {body : Block Expr (HandlerEffect Expr Local)} {script : HandlerScript Expr Local}

theorem HandlerScript.ended (en : Engine Expr Local)
    (hscript : handlerSource body = some script) (state : en.State) :
    script.transacted = decide (0 < blockCommands body) ∧
      ((∃ f, script.run en state = (.ok .normal, f) ∧ handle en body state = (.ok .fell, f.state)) ∨
        (∃ v f, script.run en state = (.ok (.returned v), f) ∧
          handle en body state = (.ok (.gave v), f.state)) ∨
        ∃ fault f, script.run en state = (.error fault, f) ∧
          handle en body state = (.error fault, f.state)) := by
  obtain ⟨js, hjs, rfl⟩ := Option.map_eq_some_iff.mp hscript
  obtain ⟨⟨_, n⟩, hemit, rfl⟩ := Option.map_eq_some_iff.mp hjs
  refine ⟨rfl, ?_⟩
  have hmeans : Engine.Means handlerTail (Engine.executeBlock _) (en.recording.block none body) :=
    Engine.emitBlock_means body hemit
  have hsame := hmeans.same (⟨(state, []), fun _ => none⟩ : Engine.Frame en.recording)
  unfold Engine.after at hsame
  cases hrun : (Engine.executeBlock _).run
      (⟨(state, []), fun _ => none⟩ : Engine.Frame en.recording) with
  | mk result f =>
      rw [hrun] at hsame
      cases result with
      | error fault => exact .inr (.inr ⟨fault, f, hrun, hsame.symm⟩)
      | ok outcome =>
          have hleaves := hmeans.leaves _ outcome f hrun
          cases outcome with
          | normal => exact .inl ⟨f, hrun, hsame.symm⟩
          | returned v => exact .inr (.inl ⟨v, f, hrun, hsame.symm⟩)
          | broke => exact hleaves.elim
          | jumped call => cases hleaves
          | bounced call => cases hleaves

/-- A handler with durable writes sends the writes of the path in one batch exactly on the
paths that do not leave the body early.  On a path that does it sends nothing, so that it loses
nothing exactly if the path executed no durable write. -/
theorem handler_sends_iff (en : Engine Expr Local)
    (body : Block Expr (HandlerEffect Expr Local)) (script : HandlerScript Expr Local)
    (hscript : handlerSource body = some script) (hdurable : 0 < blockCommands body)
    (state : en.State) :
    (script.SendsOnce en body state ↔ ¬ LeavesEarly en body state) ∧
      (script.LosesNothing en body state ↔
        (LeavesEarly en body state → executed en body state = [])) := by
  unfold HandlerScript.SendsOnce HandlerScript.LosesNothing HandlerScript.Ends LeavesEarly
    executed HandlerScript.recorded HandlerScript.sent
  obtain ⟨htransacted, hended⟩ := HandlerScript.ended en hscript state
  rw [htransacted, decide_eq_true hdurable]
  rcases hended with ⟨f, hrun, hhandle⟩ | ⟨v, f, hrun, hhandle⟩ | ⟨fault, f, hrun, hhandle⟩
  · rw [hrun, hhandle]
    simp
  · rw [hrun, hhandle]
    simp [eq_comm]
  · rw [hrun, hhandle]
    cases fault <;> simp [eq_comm]

end Sending

section Sample

/-- Durable writes are counted, and the text of the sample expressions is not looked at. -/
def sampleEngine : Engine Sample Empty where
  State := Unit
  value e := pure (sampleValue e)
  effect e := e.elim
  assign _ _ _ := ()
  truthy v := match v with
    | .truth b => b
    | _ => true
  less _ _ := false

/-- `set votes to 1`. -/
def setsVotes : Stmt Sample (HandlerEffect Sample Empty) :=
  .mutation (.durable ⟨"votes.set", .one, []⟩)

/-- `set votes to 1`, then `give 1`. -/
def setsAndGives : Block Sample (HandlerEffect Sample Empty) := [setsVotes, .give .one]

theorem handler_sends_iff_kept :
    ∃ script, handlerSource [setsVotes] = some script ∧
      (script.SendsOnce sampleEngine [setsVotes] () ↔
        ¬ LeavesEarly sampleEngine [setsVotes] ()) :=
  ⟨_, rfl, (handler_sends_iff sampleEngine [setsVotes] _ rfl (by decide) ()).1⟩

/-- The checker's walk over a handler: what its `give` gives may be of any type. -/
def checkHandlerBody {Expr Effect : Type} (I : Inference Expr Effect)
    (body : Block Expr Effect) : Check Unit := do
  let _ ← block I .unknown .default none body

def HandlerAccepted {Expr Effect : Type} (I : Inference Expr Effect)
    (body : Block Expr Effect) : Prop :=
  ∃ c final, checkHandlerBody I body .new = some ((), c) ∧ settle I c = some ((), final) ∧
    final.errors = []

def handlerInference : Inference Sample (HandlerEffect Sample Empty) where
  choices := []
  choices_plain := sampleInference.choices_plain
  typeOf := sampleType
  expr _ c := some c
  expr_later := sampleInference.expr_later
  callType _ := .nothing
  call _ c := some c
  call_later := by
    rintro e c c' hc ⟨⟩
    exact .refl hc
  mutation _ c := some c
  mutation_later := by
    rintro e c c' hc ⟨⟩
    exact .refl hc
  attempt _ _ := none
  attempt_later := @Inference.attempt_later Sample Empty sampleInference

theorem unify_unknown (s : Solver) : s.unify .whole .unknown = some (s, .ok ()) := by
  rw [Solver.unify.eq_def, Solver.shallow_of_isVar s rfl, Solver.shallow_of_isVar s rfl]
  rfl

theorem accepted_setsAndGives : HandlerAccepted handlerInference setsAndGives := by
  have hset : stmt handlerInference .unknown .default none setsVotes .new =
      some ((.default, none), .new) := by
    rw [setsVotes, stmt]
    exact bind_eq_some.mpr ⟨(), .new, rfl, rfl⟩
  have hgive : stmt handlerInference .unknown .default none (.give .one) .new =
      some ((⟨true, none, false⟩, none), .new) := by
    rw [stmt]
    refine bind_eq_some.mpr ⟨.whole, .new, rfl, ?_⟩
    exact bind_eq_some.mpr ⟨_, _, expect_eq (unify_unknown _), rfl⟩
  refine ⟨.new, .new, ?_, settle_done _ rfl rfl, rfl⟩
  refine bind_eq_some.mpr ⟨⟨true, none, false⟩, .new, ?_, rfl⟩
  refine bind_eq_some.mpr ⟨_, _, hset, ?_⟩
  exact bind_eq_some.mpr ⟨_, _, hgive, rfl⟩

/-- A handler that gives a value after a durable write is accepted, and loses the write. -/
theorem give_loses_write :
    HandlerAccepted handlerInference setsAndGives ∧ 0 < blockCommands setsAndGives ∧
      ∃ script, handlerSource setsAndGives = some script ∧
        script.Ends sampleEngine () ∧
        script.recorded sampleEngine () = [⟨"votes.set", [.whole 1]⟩] ∧
        executed sampleEngine setsAndGives () = [⟨"votes.set", [.whole 1]⟩] ∧
        script.sent sampleEngine () = [] := by
  refine ⟨accepted_setsAndGives, by decide, _, rfl, ?_, rfl, rfl, rfl⟩
  rintro ⟨⟩

end Sample

end Bodies
end Zdeceptron
