import Zdeceptron.Bodies.TailSound

/-!
# Tail-call elimination preserves meaning

The language has no value for a body that falls off its end, which the checker refuses; a loop
would go round again there.  `Watched` keeps note of it.

* `tail_calls_preserve_meaning`: values, divergence, `$Bounce` and the cycles.
-/

namespace Zdeceptron
namespace Bodies

open Engine Step Relation

section Watching

variable {σ Op Verb : Type}

structure Watched (σ : Type) where
  state : σ
  fell : Bool

def unwatched {α : Type} (step : Step σ α) : Step (Watched σ) α := fun w =>
  ((step.run w.state).1, { w with state := (step.run w.state).2 })

def Watched.mark (w : Watched σ) : Watched σ := { w with fell := true }

def Host.watched (host : Host σ Op Verb) : Host (Watched σ) Op Verb where
  operator op vs := unwatched (host.operator op vs)
  mutate verb vs := unwatched (host.mutate verb vs)
  call id vs := unwatched (host.call id vs)
  truthy := host.truthy
  less := host.less
  undefined_ := host.undefined_

namespace Program

variable (program : Program Op Verb) (host : Host σ Op Verb)

def loops (id : Nat) : Bool :=
  match program.bodyOf id with
  | some (_, body) => givesASelfCall id body
  | none => false

def noted (id : Nat) : Step (Watched σ) Value := do
  if program.loops id then change Watched.mark
  return host.undefined_

def watch (fuel id : Nat) (args : List Value) : Step (Watched σ) Value :=
  program.evaluateWith host.watched (program.noted host) fuel id args

/-- In the ordinary evaluation of a call, the body of a function that is emitted as a loop
falls off its end. -/
def FallsOff (id : Nat) (args : List Value) (s : σ) : Prop :=
  ∃ fuel, ((program.watch host fuel id args).run ⟨s, false⟩).2.fell = true

end Program

end Watching

section Comparisons

variable {σ : Type}

def sameUnwatched (σ : Type) : Comparison (Watched σ) σ where
  Rel x y := ∀ w, y.run w.state = ((x.run w).1, (x.run w).2.state)
  pure _ _ := rfl
  fail _ _ := rfl
  bind {α β x y f g} h h' w := by
    rw [run_bind, run_bind, h w]
    rcases x.run w with ⟨_ | a, w'⟩
    · rfl
    · exact h' a w'

def sameUnlessNoted (σ : Type) : Comparison (Watched σ) σ where
  Rel x y := ∀ w, (w.fell = true → (x.run w).2.fell = true) ∧
    ((x.run w).2.fell = false → y.run w.state = ((x.run w).1, (x.run w).2.state))
  pure _ _ := ⟨fun h => h, fun _ => rfl⟩
  fail _ _ := ⟨fun h => h, fun _ => rfl⟩
  bind {α β x y f g} h h' w := by
    obtain ⟨hstays, hsame⟩ := h w
    rw [run_bind, run_bind]
    rcases hx : x.run w with ⟨_ | a, w'⟩
    · rw [hx] at hstays hsame
      refine ⟨hstays, fun hfell => ?_⟩
      rw [hsame hfell]
    · rw [hx] at hstays hsame
      obtain ⟨hstays', hsame'⟩ := h' a w'
      refine ⟨fun hfell => hstays' (hstays hfell), fun hfell => ?_⟩
      have hbefore : w'.fell = false := by
        cases hw' : w'.fell with
        | false => rfl
        | true => exact absurd ((hstays' hw').symm.trans hfell) (by decide)
      rw [hsame hbefore]
      exact hsame' hfell

end Comparisons

namespace Program

variable {σ τ Op Verb : Type} {program : Program Op Verb} {present : Nat → Bool}
  {host : Host σ Op Verb}

section Evaluations

theorem evaluateWith_agrees {C : Comparison σ τ} {host' : Host τ Op Verb}
    {fallen : Nat → Step σ Value} {fallen' : Nat → Step τ Value} (h : Host.Agrees C host host')
    (hfallen : ∀ id, C.Rel (fallen id) (fallen' id)) (fuel id : Nat) (args : List Value) :
    C.Rel (program.evaluateWith host fallen fuel id args)
      (program.evaluateWith host' fallen' fuel id args) := by
  induction fuel generalizing id args with
  | zero =>
      cases hbody : program.bodyOf id with
      | none =>
          rw [evaluateWith_none hbody, evaluateWith_none hbody]
          exact h.call id args
      | some function =>
          rw [evaluateWith_zero hbody, evaluateWith_zero hbody]
          exact C.fail _
  | succ fuel ih =>
      cases hbody : program.bodyOf id with
      | none =>
          rw [evaluateWith_none hbody, evaluateWith_none hbody]
          exact h.call id args
      | some function =>
          rw [evaluateWith_succ hbody, evaluateWith_succ hbody]
          have hblock := block_agrees (Host.engine_agrees program h ih) none function.2
          refine C.bind (Comparison.inScope _ hblock) (fun ending => ?_)
          cases ending with
          | gave v => exact C.pure v
          | fell => exact hfallen id

theorem watched_agrees (C : Comparison (Watched σ) σ)
    (h : ∀ {α : Type} (step : Step σ α), C.Rel (unwatched step) step) :
    Host.Agrees C host.watched host where
  operator _ _ := h _
  mutate _ _ := h _
  call _ _ := h _
  truthy := rfl
  less := rfl
  undefined_ := rfl

theorem evaluate_run (fuel id : Nat) (args : List Value) (w : Watched σ) :
    (program.evaluate host fuel id args).run w.state = (((program.watch host fuel id args).run w).1,
        ((program.watch host fuel id args).run w).2.state) := by
  refine evaluateWith_agrees (C := sameUnwatched σ)
    (watched_agrees _ (fun step w => rfl)) (fun id => ?_) fuel id args w
  unfold noted
  split_ifs
  · exact fun _ => rfl
  · exact fun _ => rfl

end Evaluations

section Emitted

variable {id : Nat}

theorem noted_run (h : program.loops id = true) (w : Watched σ) :
    ((program.noted host id).run w).2.fell = true := by
  unfold noted
  rw [if_pos h]
  rfl

theorem noted_unlooped (h : program.loops id = false) :
    program.noted host id = pure host.undefined_ := by
  unfold noted
  rw [h]
  rfl

variable {args : List Value}

theorem unwrapped_none {fuel id : Nat} (h : program.bodyOf id = none) :
    unwrapped (program.callEmitted present host fuel id args) = host.call id args := by
  unfold callEmitted callBy
  rw [h]
  unfold unwrapped
  rw [bind_assoc]
  exact bind_pure _

theorem unwrapped_some {fuel id : Nat} {params : List Param}
    {body : FunctionBody Op Verb} (h : program.bodyOf id = some (params, body)) :
    unwrapped (program.callEmitted present host fuel id args) =
      unwrapped (program.enter present host fuel (program.stepped present id) id
        (bound params args fun _ => none)) := by
  unfold callEmitted callBy
  rw [h]

theorem callEmitted_agrees (hcompiles : program.Compiles present) (fuel id : Nat)
    (args : List Value) :
    (sameUnlessNoted σ).Rel (program.watch host fuel id args)
      (unwrapped (program.callEmitted present host fuel id args)) := by
  have hhost : Host.Agrees (sameUnlessNoted σ) host.watched host :=
    watched_agrees _ (fun step w => ⟨fun h => h, fun _ => rfl⟩)
  unfold watch
  induction fuel generalizing id args with
  | zero =>
      cases hbody : program.bodyOf id with
      | none =>
          rw [evaluateWith_none hbody, unwrapped_none hbody]
          exact hhost.call id args
      | some function =>
          rw [evaluateWith_zero hbody, unwrapped_some hbody]
          exact (sameUnlessNoted σ).fail _
  | succ fuel ih =>
      cases hbody : program.bodyOf id with
      | none =>
          rw [evaluateWith_none hbody, unwrapped_none hbody]
          exact hhost.call id args
      | some function =>
          have hlooped : givesASelfCall id function.2 = program.loops id := by
            unfold loops
            rw [hbody]
          have hblock :=
            block_agrees (Host.engine_agrees program hhost ih) none function.2
          rw [evaluateWith_succ hbody, unwrapped_some hbody, unwrapped,
            enter_eq hcompiles (fun id locals => enter_valued hcompiles fuel id locals) hbody,
            bind_assoc, hlooped]
          refine (sameUnlessNoted σ).bind (Comparison.inScope _ hblock) (fun ending => ?_)
          cases ending with
          | gave v => exact (sameUnlessNoted σ).pure v
          | fell =>
              rw [handedBack, resumed]
              cases hloops : program.loops id with
              | false =>
                  rw [noted_unlooped hloops, if_neg Bool.false_ne_true]
                  exact (sameUnlessNoted σ).pure _
              | true =>
                  intro w
                  have hnoted : ((program.noted host id).run w).2.fell = true := noted_run hloops w
                  exact ⟨fun _ => hnoted, fun h => absurd (hnoted.symm.trans h) (by decide)⟩

theorem callEmitted_eq (hcompiles : program.Compiles present)
    {s : σ} (h : ¬ program.FallsOff host id args s) (fuel : Nat) :
    (unwrapped (program.callEmitted present host fuel id args)).run s =
      (program.evaluate host fuel id args).run s := by
  have hfell : ((program.watch host fuel id args).run ⟨s, false⟩).2.fell = false := by
    cases hw : ((program.watch host fuel id args).run ⟨s, false⟩).2.fell with
    | false => rfl
    | true => exact absurd ⟨fuel, hw⟩ h
  rw [((callEmitted_agrees hcompiles fuel id args) ⟨s, false⟩).2 hfell]
  exact (evaluate_run fuel id args ⟨s, false⟩).symm

end Emitted

end Program

section Meaning

variable {σ α : Type}

/-- With enough fuel, a call comes to a value or to an error that is thrown. -/
def ComesTo (call : Nat → Step σ α) (s : σ) (result : Except Fault α) (s' : σ) : Prop :=
  result ≠ .error .endless ∧ ∃ fuel, (call fuel).run s = (result, s')

def Diverges (call : Nat → Step σ α) (s : σ) : Prop :=
  ∀ fuel, ((call fuel).run s).1 = .error .endless

theorem unwrapped_run {step : Step σ Program.Returned} (h : Program.Valued step) (s : σ) :
    step.run s = (((Program.unwrapped step).run s).1.map .value,
      ((Program.unwrapped step).run s).2) := by
  have hstep : (Program.unwrapped step >>= fun v => pure (.value v)).run s = step.run s := by
    rw [h.unwrapped_bind]
  rw [← hstep, run_bind]
  rcases (Program.unwrapped step).run s with ⟨_ | v, s'⟩ <;> rfl

theorem map_value_injective {result result' : Except Fault Value}
    (h : result.map Program.Returned.value = result'.map .value) : result = result' := by
  cases result <;> cases result' <;> cases h <;> rfl

end Meaning

/-- A call of an emitted function comes to the value, or to the error, that ordinary recursive
evaluation of the bodies comes to, in the same state, and diverges exactly when that diverges,
unless the body of a function that is emitted as a loop falls off its end in it.  No call hands
back a `$Bounce`.  Two functions are in one group exactly when each is reached from the other
through tail calls. -/
theorem tail_calls_preserve_meaning {σ Op Verb : Type} (program : Program Op Verb)
    (present : Nat → Bool) (host : Host σ Op Verb) (hcompiles : program.Compiles present) :
    (∀ id args s, ¬ program.FallsOff host id args s →
      (∀ result s',
        ComesTo (fun fuel => program.callEmitted present host fuel id args) s
            (result.map .value) s' ↔
          ComesTo (fun fuel => program.evaluate host fuel id args) s result s') ∧
        (Diverges (fun fuel => program.callEmitted present host fuel id args) s ↔
          Diverges (fun fuel => program.evaluate host fuel id args) s)) ∧
      (∀ fuel id args s returned s',
        (program.callEmitted present host fuel id args).run s = (.ok returned, s') →
          ∃ v, returned = .value v) ∧
      ∀ id other, other ≠ id →
        ((∃ group, program.groupOf id = some group ∧ other ∈ group) ↔
          TransGen program.GivesCallOf id other ∧ TransGen program.GivesCallOf other id) := by
  refine ⟨fun id args s h => ?_, ?_, fun id other hne => Program.mem_groupOf hne⟩
  · have hrun : ∀ fuel, (program.callEmitted present host fuel id args).run s =
        (((program.evaluate host fuel id args).run s).1.map .value,
          ((program.evaluate host fuel id args).run s).2) := by
      intro fuel
      rw [unwrapped_run (Program.callEmitted_valued hcompiles fuel id args) s,
        Program.callEmitted_eq hcompiles h]
    refine ⟨fun result s' => ?_, ?_⟩
    · unfold ComesTo
      refine and_congr ?_ (exists_congr fun fuel => ?_)
      · cases result with
        | ok v => exact ⟨fun _ => (by rintro ⟨⟩), fun _ => (by rintro ⟨⟩)⟩
        | error fault => exact not_congr ⟨fun h => (by cases h; rfl), fun h => (by cases h; rfl)⟩
      · rw [hrun, Prod.ext_iff, Prod.ext_iff]
        exact and_congr_left fun _ =>
          ⟨map_value_injective, fun h => congrArg (Except.map Program.Returned.value) h⟩
    · unfold Diverges
      refine forall_congr' fun fuel => ?_
      dsimp only
      rw [hrun]
      rcases ((program.evaluate host fuel id args).run s).1 with fault | v
      · exact ⟨fun h => (by cases h; rfl), fun h => (by cases h; rfl)⟩
      · exact ⟨fun h => (by cases h), fun h => (by cases h)⟩
  · exact fun fuel id args s returned s' h =>
      Program.callEmitted_valued hcompiles fuel id args s returned s' h

section Ends

variable {Expr Effect : Type} {en : Engine Expr Effect}

/-- Whether the last statement of a block is a `give`. -/
def endsGiving : Block Expr Effect → Bool
  | [] => false
  | [.give _] => true
  | _ :: stmts => endsGiving stmts

theorem block_gives {stmts : Block Expr Effect} (h : endsGiving stmts = true)
    (carried : Option Value) (s s' : en.State) :
    (en.block carried stmts).run s ≠ (.ok .fell, s') := by
  induction stmts generalizing carried s with
  | nil => cases h
  | cons first stmts ih =>
      by_cases hfirst : ∀ c, first ≠ .pipeline c
      · cases carried with
        | some v =>
            rw [block_some v hfirst]
            rintro ⟨⟩
        | none =>
            rw [block_none hfirst, followed, run_bind]
            rcases hstmt : (en.stmt first).run s with ⟨_ | ending, s₁⟩
            · rintro ⟨⟩
            · cases ending with
              | gave v => rintro ⟨⟩
              | fell =>
                  cases stmts with
                  | cons second stmts =>
                      have hlater : endsGiving (second :: stmts) = true := by
                        rwa [endsGiving] at h
                        rintro e - ⟨⟩
                      exact ih hlater none s₁
                  | nil =>
                      cases first with
                      | give e =>
                          rw [stmt, run_bind] at hstmt
                          rcases hvalue : (en.value e).run s with ⟨_ | v, s₂⟩ <;>
                            rw [hvalue] at hstmt <;> cases hstmt
                      | _ => cases h
      · obtain ⟨c, hc⟩ := not_forall.mp hfirst
        obtain rfl := not_not.mp hc
        have hlater : endsGiving stmts = true := by
          rwa [endsGiving] at h
          rintro e ⟨⟩
        rw [block, run_bind]
        rcases (en.clause c carried).run s with ⟨_ | v, s₁⟩
        · rintro ⟨⟩
        · exact ih hlater (some v) s₁

end Ends

section Unnoted

variable {σ Op Verb : Type} {program : Program Op Verb} {host : Host σ Op Verb}

def neverNoted (σ : Type) : Comparison (Watched σ) σ where
  Rel x _ := ∀ w, (x.run w).2.fell = w.fell
  pure _ _ := rfl
  fail _ _ := rfl
  bind {α β x y f g} h h' w := by
    have hx := h w
    rw [run_bind]
    rcases hrun : x.run w with ⟨_ | a, w'⟩
    · rw [hrun] at hx
      exact hx
    · rw [hrun] at hx
      exact (h' a w').trans hx

theorem not_fallsOff (h : ∀ id params body, program.bodyOf id = some (params, body) →
      givesASelfCall id body = true → endsGiving body = true)
    (id : Nat) (args : List Value) (s : σ) : ¬ program.FallsOff host id args s := by
  have hhost : Host.Agrees (neverNoted σ) host.watched host :=
    Program.watched_agrees _ (fun step w => rfl)
  have hnever : ∀ fuel id args, (neverNoted σ).Rel (program.watch host fuel id args)
      (program.evaluate host fuel id args) := by
    intro fuel
    unfold Program.watch
    induction fuel with
    | zero =>
        intro id args w
        cases hbody : program.bodyOf id with
        | none =>
            rw [Program.evaluateWith_none hbody]
            rfl
        | some function =>
            rw [Program.evaluateWith_zero hbody]
            rfl
    | succ fuel ih =>
        intro id args w
        cases hbody : program.bodyOf id with
        | none =>
            rw [Program.evaluateWith_none hbody]
            rfl
        | some function =>
            have hblock :=
              block_agrees (Host.engine_agrees program hhost ih) none function.2
            have hscope := Comparison.inScope
              (Program.bound function.1 args fun _ => none) hblock w
            rw [Program.evaluateWith_succ hbody, run_bind]
            change ((inScope _ (host.watched.block program _ function.2)).run w).2.fell = _
              at hscope
            cases hrun : (inScope (Program.bound function.1 args fun _ => none)
                (host.watched.block program (program.evaluateWith host.watched
                  (program.noted host) fuel) function.2)).run w with
            | mk result w' =>
                rw [hrun] at hscope
                cases result with
                | error fault => exact hscope
                | ok ending =>
                    cases ending with
                    | gave v => exact hscope
                    | fell =>
                        have hloops : program.loops id = givesASelfCall id function.2 := by
                          unfold Program.loops
                          rw [hbody]
                        cases hlooped : program.loops id with
                        | false =>
                            change ((program.noted host id).run w').2.fell = _
                            rw [Program.noted_unlooped hlooped]
                            exact hscope
                        | true =>
                            have hends := h id _ _ hbody (hloops.symm.trans hlooped)
                            rw [run_inScope] at hrun
                            have hfell := congrArg Prod.fst hrun
                            exact (@block_gives _ _ (host.watched.engine program _) _ hends none
                              _ _ (Prod.ext hfell rfl)).elim
  rintro ⟨fuel, hfell⟩
  exact Bool.false_ne_true ((hnever fuel id args ⟨s, false⟩).symm.trans hfell)

end Unnoted

section Sample

/-- The operators of the sample: whether a number is zero, the number before it, a truth. -/
inductive Parity
  | isZero
  | before
  | truth (b : Bool)

def parityOperator : Parity → List Value → Step Unit Value
  | .isZero, [.whole n] => return .truth (n == 0)
  | .before, [.whole n] => return .whole (n - 1)
  | .truth b, _ => return .truth b
  | _, _ => fail .threw

def parityHost : Host Unit Parity Empty where
  operator := parityOperator
  mutate verb _ := verb.elim
  call _ _ := fail .threw
  truthy v := match v with
    | .truth b => b
    | _ => true
  less _ _ := false
  undefined_ := .truth false

/-- `if n is 0` then `give atZero`, and otherwise `give callee with n is n - 1`. -/
def countsDown (n callee : Nat) (atZero : Bool) : FunctionBody Parity Empty :=
  [.ifThen (.operator .isZero [.local_ n]) [.give (.operator (.truth atZero) [])] none,
    .give (.call callee [.named "n" (.operator .before [.local_ n])])]

/-- `even` and `odd`, each in terms of the other, and a function that calls itself. -/
def parity : Program Parity Empty :=
  [.function [⟨0, "n"⟩] (countsDown 0 1 true), .function [⟨1, "n"⟩] (countsDown 1 0 false),
    .function [⟨2, "n"⟩] (countsDown 2 2 true)]

theorem parity_bodyOf {id : Nat} {params : List Param} {body : FunctionBody Parity Empty}
    (h : parity.bodyOf id = some (params, body)) : endsGiving body = true := by
  match id, h with
  | 0, h | 1, h | 2, h =>
      cases h
      rfl
  | _ + 3, h => cases h

theorem parity_compiles : parity.Compiles (fun _ => true) := by
  intro id h
  match id, h with
  | 0, _ | 1, _ | 2, _ => rfl
  | _ + 3, h => cases h

/-- One is odd, by a cycle of two functions; and the loop ends at zero. -/
theorem tail_calls_preserve_parity :
    ComesTo (fun fuel => parity.callEmitted (fun _ => true) parityHost fuel 0 [.whole 1]) ()
        (.ok (.value (.truth false))) () ∧
      ComesTo (fun fuel => parity.callEmitted (fun _ => true) parityHost fuel 2 [.whole 1]) ()
        (.ok (.value (.truth true))) () ∧
      TransGen parity.GivesCallOf 0 1 := by
  have hmeaning := tail_calls_preserve_meaning parity (fun _ => true) parityHost parity_compiles
  have hends : ∀ id args s, ¬ parity.FallsOff parityHost id args s :=
    not_fallsOff (fun id params body hbody _ => parity_bodyOf hbody)
  refine ⟨?_, ?_, ?_⟩
  · exact ((hmeaning.1 0 _ () (hends _ _ _)).1 (.ok (.truth false)) ()).mpr
      ⟨by rintro ⟨⟩, 2, rfl⟩
  · exact ((hmeaning.1 2 _ () (hends _ _ _)).1 (.ok (.truth true)) ()).mpr
      ⟨by rintro ⟨⟩, 2, rfl⟩
  · exact ((hmeaning.2.2 0 1 (by decide)).mp ⟨[0, 1], by decide, by decide⟩).1

end Sample

end Bodies
end Zdeceptron
