import Zdeceptron.Bodies.Touches

/-!
# Comparing two evaluations of a body

A way to compare evaluations that sequences keep is kept by whatever is made of them: the
expressions of a body, its clauses and its statements do nothing but evaluate one thing after
another.
-/

namespace Zdeceptron
namespace Bodies

open Engine Step

structure Comparison (σ τ : Type) where
  Rel : {α : Type} → Step σ α → Step τ α → Prop
  pure : ∀ {α : Type} (a : α), Rel (pure a) (pure a)
  fail : ∀ {α : Type} (fault : Fault), Rel (fail fault : Step σ α) (fail fault)
  bind : ∀ {α β : Type} {x : Step σ α} {y : Step τ α} {f : α → Step σ β} {g : α → Step τ β},
    Rel x y → (∀ a, Rel (f a) (g a)) → Rel (x >>= f) (y >>= g)

section Statements

variable {Expr Effect : Type} {en en' : Engine Expr Effect}
  {C : Comparison en.State en'.State}

/-- Engines that agree on the expressions that do not read and the effects that do not. -/
structure Engine.AgreesUnless (C : Comparison en.State en'.State) (reads : Expr → Bool)
    (does : Effect → Bool) : Prop where
  value : ∀ e, reads e = false → C.Rel (en.value e) (en'.value e)
  effect : ∀ e, does e = false → C.Rel (en.effect e) (en'.effect e)
  assign : ∀ id v, C.Rel (change (en.assign id v)) (change (en'.assign id v))
  truthy : en.truthy = en'.truthy
  less : en.less = en'.less

abbrev Engine.Agrees (C : Comparison en.State en'.State) : Prop :=
  AgreesUnless C (fun _ => false) (fun _ => false)

namespace Engine

variable {reads : Expr → Bool} {does : Effect → Bool}

theorem keepEach_agrees (h : AgreesUnless C reads does) (var : Nat) {cond : Expr}
    (hcond : reads cond = false) (items : List Value) :
    C.Rel (en.keepEach var cond items) (en'.keepEach var cond items) := by
  induction items with
  | nil => exact C.pure _
  | cons v vs ih =>
      refine C.bind (h.assign var v) (fun _ => C.bind (h.value cond hcond) (fun kept => ?_))
      rw [h.truthy]
      exact C.bind ih (fun rest => C.pure _)

theorem mapEach_agrees (h : AgreesUnless C reads does) (var : Nat) {mapped : Expr}
    (hmapped : reads mapped = false) (items : List Value) :
    C.Rel (en.mapEach var mapped items) (en'.mapEach var mapped items) := by
  induction items with
  | nil => exact C.pure _
  | cons v vs ih =>
      exact C.bind (h.assign var v) (fun _ => C.bind (h.value mapped hmapped)
        (fun w => C.bind ih (fun rest => C.pure _)))

theorem foldEach_agrees (h : AgreesUnless C reads does) (total item : Nat) {step : Expr}
    (hstep : reads step = false) (acc : Value) (items : List Value) :
    C.Rel (en.foldEach total item step acc items) (en'.foldEach total item step acc items) := by
  induction items generalizing acc with
  | nil => exact C.pure _
  | cons v vs ih =>
      exact C.bind (h.assign total acc) (fun _ => C.bind (h.assign item v)
        (fun _ => C.bind (h.value step hstep) ih))

theorem onItems_agrees (h : AgreesUnless C reads does) {c : Pipeline Expr}
    (hc : c.exprs.any reads = false) (items : List Value) :
    C.Rel (en.onItems c items) (en'.onItems c items) := by
  have hexprs : ∀ e ∈ c.exprs, reads e = false := fun e he => by
    simpa using List.any_eq_false.mp hc e he
  cases c with
  | source e => exact h.value e (hexprs e List.mem_cons_self)
  | keep var cond =>
      exact C.bind (keepEach_agrees h var (hexprs cond List.mem_cons_self) items)
        (fun _ => C.pure _)
  | sort var key =>
      have hkey := hexprs key List.mem_cons_self
      refine C.bind (mapEach_agrees h var hkey items) (fun keys => ?_)
      unfold sorted
      rw [h.less]
      exact C.pure _
  | mapEach var mapped =>
      exact C.bind (mapEach_agrees h var (hexprs mapped List.mem_cons_self) items)
        (fun _ => C.pure _)
  | fold item total starting step =>
      have hstarting := hexprs starting List.mem_cons_self
      have hstep := hexprs step (List.mem_cons_of_mem _ List.mem_cons_self)
      exact C.bind (h.value starting hstarting)
        (fun acc => foldEach_agrees h total item hstep acc items)
  | takeFirst count =>
      exact C.bind (h.value count (hexprs count List.mem_cons_self)) (fun _ => C.pure _)

theorem bindEach_agrees (h : AgreesUnless C reads does) {bindings : List (Nat × Expr)}
    (hbindings : bindings.any (fun binding => reads binding.2) = false) :
    C.Rel (en.bindEach bindings) (en'.bindEach bindings) := by
  induction bindings with
  | nil => exact C.pure _
  | cons binding bindings ih =>
      rw [List.any_cons, Bool.or_eq_false_iff] at hbindings
      exact C.bind (h.value binding.2 hbindings.1)
        (fun v => C.bind (h.assign binding.1 v) (fun _ => ih hbindings.2))

theorem assignEach_agrees (h : AgreesUnless C reads does) (ids : List Nat) (vs : List Value) :
    C.Rel (change (en.assignEach ids vs)) (change (en'.assignEach ids vs)) := by
  induction ids generalizing vs with
  | nil => exact C.pure ()
  | cons id ids ih =>
      cases vs with
      | nil => exact C.pure ()
      | cons v vs => exact C.bind (h.assign id v) (fun _ => ih vs)

theorem clause_agrees (h : AgreesUnless C reads does) {c : Pipeline Expr}
    (hc : c.exprs.any reads = false) (carried : Option Value) :
    C.Rel (en.clause c carried) (en'.clause c carried) := by
  unfold clause
  split
  · exact h.value _ (by simpa [Pipeline.exprs] using hc)
  · exact onItems_agrees h hc _
  · exact C.fail _

theorem loop_agrees (h : AgreesUnless C reads does) (var : Nat) {body : Step en.State Ending}
    {body' : Step en'.State Ending} (hbody : C.Rel body body') (items : List Value) :
    C.Rel (en.loop var body items) (en'.loop var body' items) := by
  induction items with
  | nil => exact C.pure _
  | cons v vs ih =>
      refine C.bind (h.assign var v) (fun _ => C.bind hbody (fun ending => ?_))
      cases ending with
      | fell => exact ih
      | gave w => exact C.pure _

mutual

theorem stmt_agrees (h : AgreesUnless C reads does) (s : Stmt Expr Effect)
    (hs : stmtTouches reads does s = false) : C.Rel (en.stmt s) (en'.stmt s) := by
  match s with
  | .pipeline _ => exact C.pure _
  | .mutation e => exact C.bind (h.effect e hs) (fun _ => C.pure _)
  | .bind bindings => exact C.bind (bindEach_agrees h hs) (fun _ => C.pure _)
  | .give e => exact C.bind (h.value e hs) (fun _ => C.pure _)
  | .when scrutinee as =>
      rw [stmtTouches, Bool.or_eq_false_iff] at hs
      rw [stmt, stmt]
      refine C.bind (h.value scrutinee hs.1) (fun v => ?_)
      cases v with
      | variant tag fields => exact arms_agrees h tag fields as hs.2
      | _ => exact C.pure _
  | .each var iter body =>
      rw [stmtTouches, Bool.or_eq_false_iff] at hs
      rw [stmt, stmt]
      refine C.bind (h.value iter hs.1) (fun v => ?_)
      cases v with
      | list items => exact loop_agrees h var (block_agrees_of h none body hs.2) items
      | _ => exact C.fail _
  | .ifThen cond then_ none =>
      rw [stmtTouches, Bool.or_eq_false_iff] at hs
      rw [stmt, stmt, h.truthy]
      refine C.bind (h.value cond hs.1) (fun v => ?_)
      split_ifs
      · exact block_agrees_of h none then_ hs.2
      · exact C.pure _
  | .ifThen cond then_ (some otherwise) =>
      rw [stmtTouches, Bool.or_eq_false_iff, Bool.or_eq_false_iff] at hs
      rw [stmt, stmt, h.truthy]
      refine C.bind (h.value cond hs.1.1) (fun v => ?_)
      split_ifs
      · exact block_agrees_of h none then_ hs.1.2
      · exact block_agrees_of h none otherwise hs.2
  | .perform e => exact C.bind (h.effect e hs) (fun _ => C.pure _)

theorem block_agrees_of (h : AgreesUnless C reads does) (carried : Option Value)
    (stmts : Block Expr Effect) (hstmts : blockTouches reads does stmts = false) :
    C.Rel (en.block carried stmts) (en'.block carried stmts) := by
  match stmts with
  | [] => exact C.pure _
  | s :: stmts =>
      rw [blockTouches, Bool.or_eq_false_iff] at hstmts
      by_cases hs : ∀ c, s ≠ .pipeline c
      · cases carried with
        | some v =>
            rw [block_some v hs, block_some v hs]
            exact C.pure _
        | none =>
            rw [block_none hs, block_none hs]
            refine C.bind (stmt_agrees h s hstmts.1) (fun ending => ?_)
            cases ending with
            | fell => exact block_agrees_of h none stmts hstmts.2
            | gave v => exact C.pure _
      · obtain ⟨c, hc⟩ := not_forall.mp hs
        obtain rfl := not_not.mp hc
        rw [block, block]
        exact C.bind (clause_agrees h hstmts.1 carried)
          (fun v => block_agrees_of h (some v) stmts hstmts.2)

theorem arms_agrees (h : AgreesUnless C reads does) (tag : String) (fields : List Value)
    (as : List (Arm Expr Effect)) (has : armsTouch reads does as = false) :
    C.Rel (en.arms tag fields as) (en'.arms tag fields as) := by
  match as with
  | [] => exact C.pure _
  | .mk name ids body :: rest =>
      rw [armsTouch, Bool.or_eq_false_iff] at has
      rw [arms, arms]
      split_ifs
      · exact C.bind (assignEach_agrees h ids fields)
          (fun _ => armBody_agrees h body has.1)
      · exact arms_agrees h tag fields rest has.2

theorem armBody_agrees (h : AgreesUnless C reads does) (body : ArmBody Expr Effect)
    (hbody : armBodyTouches reads does body = false) :
    C.Rel (en.armBody body) (en'.armBody body) := by
  match body with
  | .show_ e => exact C.bind (h.value e hbody) (fun _ => C.pure _)
  | .block stmts => exact block_agrees_of h none stmts hbody

end

theorem block_agrees (h : Agrees C) (carried : Option Value) (stmts : Block Expr Effect) :
    C.Rel (en.block carried stmts) (en'.block carried stmts) :=
  block_agrees_of h carried stmts (blockTouches_nothing stmts)

end Engine

end Statements

section Scopes

variable {σ τ Op Verb α β : Type}

def opened (locals : Locals) (step : Step (Scope σ) α) : Step σ (α × Locals) := fun s =>
  match step.run ⟨locals, s⟩ with
  | (.ok a, scope) => (.ok (a, scope.locals), scope.state)
  | (.error fault, scope) => (.error fault, scope.state)

variable (locals : Locals)

theorem opened_run (step : Step (Scope σ) α) (s : σ) :
    (opened locals step).run s =
      match step.run ⟨locals, s⟩ with
      | (.ok a, scope) => (.ok (a, scope.locals), scope.state)
      | (.error fault, scope) => (.error fault, scope.state) := rfl

theorem opened_pure (a : α) :
    opened locals (pure a : Step (Scope σ) α) = pure (a, locals) := rfl

theorem opened_fail (fault : Fault) :
    opened locals (fail fault : Step (Scope σ) α) = fail fault := rfl

theorem opened_bind (step : Step (Scope σ) α) (next : α → Step (Scope σ) β) :
    opened locals (step >>= next) =
      opened locals step >>= fun opening => opened opening.2 (next opening.1) := by
  refine Step.ext fun s => ?_
  rw [opened_run, run_bind, run_bind, opened_run]
  rcases step.run ⟨locals, s⟩ with ⟨_ | a, scope⟩ <;> rfl

theorem opened_outside (step : Step σ α) :
    opened locals (outside step) = step >>= fun a => pure (a, locals) := by
  refine Step.ext fun s => ?_
  rw [opened_run, run_bind, run_outside]
  rcases step.run s with ⟨_ | a, s'⟩ <;> rfl

theorem inScope_eq (step : Step (Scope σ) α) :
    inScope locals step = opened locals step >>= fun opening => pure opening.1 := by
  refine Step.ext fun s => ?_
  rw [run_bind, opened_run, run_inScope]
  rcases step.run ⟨locals, s⟩ with ⟨_ | a, scope⟩ <;> rfl

namespace Comparison

variable (C : Comparison σ τ)

/-- Evaluations in a scope are compared from the same locals on, and end with the same. -/
def within : Comparison (Scope σ) (Scope τ) where
  Rel x y := ∀ locals, C.Rel (opened locals x) (opened locals y)
  pure a locals := by
    rw [opened_pure, opened_pure]
    exact C.pure _
  fail fault locals := by
    rw [opened_fail, opened_fail]
    exact C.fail fault
  bind h h' locals := by
    rw [opened_bind, opened_bind]
    exact C.bind (h locals) (fun opening => h' opening.1 opening.2)

variable {C} {x : Step σ α} {y : Step τ α}

theorem inScope (locals : Locals) {x : Step (Scope σ) α} {y : Step (Scope τ) α}
    (h : C.within.Rel x y) : C.Rel (inScope locals x) (Bodies.inScope locals y) := by
  rw [inScope_eq, inScope_eq]
  exact C.bind (h locals) (fun _ => C.pure _)

theorem outside (h : C.Rel x y) : C.within.Rel (outside x) (Bodies.outside y) := by
  intro locals
  rw [opened_outside, opened_outside]
  exact C.bind h (fun _ => C.pure _)

theorem assign (id : Nat) (v : Value) :
    C.within.Rel (change (Scope.assign id v)) (change (Scope.assign id v)) := fun locals =>
  C.pure ((), Function.update locals id (some v))

theorem readLocal (id : Nat) : C.within.Rel (readLocal id) (Bodies.readLocal id) := by
  intro locals
  have hread : ∀ υ : Type, opened locals (Bodies.readLocal id : Step (Scope υ) Value) =
      (locals id).elim (Step.fail .threw) (fun v => Pure.pure (v, locals)) := by
    intro υ
    refine Step.ext fun s => ?_
    rw [opened_run, run_readLocal]
    dsimp only
    cases locals id <;> rfl
  rw [hread, hread]
  cases locals id with
  | none => exact C.fail _
  | some v => exact C.pure _

end Comparison

/-- A comparison in scopes, over one outside of them, that holds of the locals which do not
count. -/
structure Comparison.OnScopes (C : Comparison σ τ) (D : Comparison (Scope σ) (Scope τ))
    (counts : Nat → Bool) : Prop where
  readLocal : ∀ id, counts id = false → D.Rel (Bodies.readLocal id) (Bodies.readLocal id)
  assign : ∀ id v, D.Rel (change (Scope.assign id v)) (change (Scope.assign id v))
  outside : ∀ {α : Type} {x : Step σ α} {y : Step τ α},
    C.Rel x y → D.Rel (Bodies.outside x) (Bodies.outside y)

namespace Comparison

theorem within_onScopes (C : Comparison σ τ) (counts : Nat → Bool) :
    C.OnScopes C.within counts where
  readLocal id _ := readLocal id
  assign := assign
  outside := outside

theorem inOrder (D : Comparison (Scope σ) (Scope τ)) {steps : List (Step (Scope σ) α)}
    {steps' : List (Step (Scope τ) α)} (h : List.Forall₂ D.Rel steps steps') :
    D.Rel (inOrder steps) (Bodies.inOrder steps') := by
  induction h with
  | nil => exact D.pure _
  | cons hstep _ ih =>
      exact D.bind hstep (fun a => D.bind ih (fun rest => D.pure _))

end Comparison

section Membership

variable {args : List (Arg α)}

theorem mem_of_fillSlots {params : List String} {n : Nat}
    {ordered filled : List (Option α)} (h : fillSlots params args n ordered = some filled)
    {a : α} (ha : some a ∈ filled) : some a ∈ ordered ∨ a ∈ args.map Arg.value := by
  induction args generalizing n ordered with
  | nil =>
      cases h
      exact .inl ha
  | cons arg args ih =>
      rw [List.map_cons, List.mem_cons]
      cases arg with
      | positional value =>
          rw [fillSlots] at h
          split_ifs at h
          rcases ih h with hmem | hmem
          · rcases List.mem_or_eq_of_mem_set hmem with hmem | heq
            · exact .inl hmem
            · exact .inr (.inl (Option.some.inj heq))
          · exact .inr (.inr hmem)
      | named name value =>
          rw [fillSlots] at h
          split at h
          · rcases ih h with hmem | hmem
            · rcases List.mem_or_eq_of_mem_set hmem with hmem | heq
              · exact .inl hmem
              · exact .inr (.inl (Option.some.inj heq))
            · exact .inr (.inr hmem)
          · cases h

theorem mem_of_allFilled {ordered : List (Option α)} {values : List α}
    (h : allFilled ordered = some values) {a : α} (ha : a ∈ values) : some a ∈ ordered := by
  induction ordered generalizing values with
  | nil =>
      cases h
      cases ha
  | cons slot ordered ih =>
      cases slot with
      | none => cases h
      | some value =>
          obtain ⟨rest, hrest, rfl⟩ := Option.map_eq_some_iff.mp h
          rcases List.mem_cons.mp ha with rfl | ha
          · exact List.mem_cons_self
          · exact List.mem_cons_of_mem _ (ih hrest ha)

theorem Program.mem_of_argumentsOf {program : Program Op Verb} {id : Nat}
    {values : List α} (h : program.argumentsOf id args = some values)
    {a : α} (ha : a ∈ values) : a ∈ args.map Arg.value := by
  unfold Program.argumentsOf at h
  split_ifs at h
  obtain ⟨filled, hfilled, hvalues⟩ := Option.bind_eq_some_iff.mp h
  rcases mem_of_fillSlots hfilled (mem_of_allFilled hvalues ha) with hmem | hmem
  · cases (List.mem_replicate.mp hmem).2
  · exact hmem

end Membership

structure Host.Agrees (C : Comparison σ τ) (host : Host σ Op Verb) (host' : Host τ Op Verb) :
    Prop where
  operator : ∀ op vs, C.Rel (host.operator op vs) (host'.operator op vs)
  mutate : ∀ verb vs, C.Rel (host.mutate verb vs) (host'.mutate verb vs)
  call : ∀ id vs, C.Rel (host.call id vs) (host'.call id vs)
  truthy : host.truthy = host'.truthy
  less : host.less = host'.less
  undefined_ : host.undefined_ = host'.undefined_

/-- Hosts, and answers to the calls, that agree on what does not count. -/
structure Host.AgreesUnless (marks : Marks Op) (C : Comparison σ τ)
    (D : Comparison (Scope σ) (Scope τ)) (host : Host σ Op Verb) (host' : Host τ Op Verb)
    (call : Nat → List Value → Step σ Value) (call' : Nat → List Value → Step τ Value) :
    Prop where
  scopes : C.OnScopes D marks.local_
  operator : ∀ op, marks.operator op = false →
    ∀ vs, C.Rel (host.operator op vs) (host'.operator op vs)
  mutate : ∀ verb vs, C.Rel (host.mutate verb vs) (host'.mutate verb vs)
  call : ∀ id, marks.callee id = false → ∀ vs, C.Rel (call id vs) (call' id vs)
  truthy : host.truthy = host'.truthy
  less : host.less = host'.less

namespace Host

variable {marks : Marks Op} {C : Comparison σ τ} {D : Comparison (Scope σ) (Scope τ)}
  {host : Host σ Op Verb} {host' : Host τ Op Verb} {program : Program Op Verb}
  {call : Nat → List Value → Step σ Value} {call' : Nat → List Value → Step τ Value}

theorem call_agrees (h : Host.AgreesUnless marks C D host host' call call') {e : HirExpr Op}
    {callee : Nat} {args : List (Arg (HirExpr Op))} (he : callOf e = some (callee, args))
    (hcallee : marks.callee callee = false) (hargs : ∀ a ∈ args.map Arg.value,
      D.Rel (host.value program call a) (host'.value program call' a)) :
    D.Rel (host.value program call e) (host'.value program call' e) := by
  rw [value_call host program call he, value_call host' program call' he]
  cases hordered : program.argumentsOf callee args with
  | none => exact D.fail _
  | some es =>
      have hes : ∀ a ∈ es, D.Rel (host.value program call a)
          (host'.value program call' a) := fun a ha =>
        hargs a (Program.mem_of_argumentsOf hordered ha)
      refine D.bind (Comparison.inOrder D ?_)
        (fun vs => h.scopes.outside (h.call callee hcallee vs))
      rw [List.forall₂_map_left_iff, List.forall₂_map_right_iff, List.forall₂_same]
      exact hes

mutual

theorem value_agrees_of (h : Host.AgreesUnless marks C D host host' call call') (e : HirExpr Op)
    (he : e.touches marks = false) :
    D.Rel (host.value program call e) (host'.value program call' e) := by
  match e with
  | .local_ id =>
      rw [value, value]
      exact h.scopes.readLocal id he
  | .operator op operands =>
      rw [HirExpr.touches, Bool.or_eq_false_iff] at he
      rw [value, value]
      exact D.bind (values_agree_of h operands he.2)
        (fun vs => h.scopes.outside (h.operator op he.1 vs))
  | .conditional condition then_ otherwise =>
      rw [HirExpr.touches, Bool.or_eq_false_iff, Bool.or_eq_false_iff] at he
      rw [value, value, h.truthy]
      refine D.bind (value_agrees_of h condition he.1.1) (fun v => ?_)
      split_ifs
      · exact value_agrees_of h then_ he.1.2
      · exact value_agrees_of h otherwise he.2
  | .and lhs rhs | .or lhs rhs =>
      rw [HirExpr.touches, Bool.or_eq_false_iff] at he
      rw [value, value, h.truthy]
      refine D.bind (value_agrees_of h lhs he.1) (fun v => ?_)
      split_ifs <;> first | exact value_agrees_of h rhs he.2 | exact D.pure _
  | .mapInside var tag source to_ =>
      rw [HirExpr.touches, Bool.or_eq_false_iff] at he
      rw [value, value]
      refine D.bind (value_agrees_of h source he.1) (fun v => ?_)
      split
      · split_ifs
        · exact D.bind (h.scopes.assign var _)
            (fun _ => D.bind (value_agrees_of h to_ he.2) (fun _ => D.pure _))
        · exact D.pure _
      · exact D.pure _
  | .call callee args =>
      rw [HirExpr.touches, Bool.or_eq_false_iff] at he
      exact call_agrees h rfl he.1 (arguments_agree_of h args he.2)
  | .ofCall callee operand =>
      rw [HirExpr.touches, Bool.or_eq_false_iff] at he
      refine call_agrees h rfl he.1 ?_
      intro a ha
      rw [List.mem_singleton.mp ha]
      exact value_agrees_of h operand he.2

theorem values_agree_of (h : Host.AgreesUnless marks C D host host' call call')
    (es : List (HirExpr Op)) (hes : exprsTouch marks es = false) :
    D.Rel (host.values program call es) (host'.values program call' es) := by
  match es with
  | [] => exact D.pure _
  | e :: es =>
      rw [exprsTouch, Bool.or_eq_false_iff] at hes
      rw [values, values]
      exact D.bind (value_agrees_of h e hes.1)
        (fun v => D.bind (values_agree_of h es hes.2) (fun vs => D.pure _))

theorem arguments_agree_of (h : Host.AgreesUnless marks C D host host' call call')
    (args : List (Arg (HirExpr Op))) (hargs : argsTouch marks args = false) :
    ∀ a ∈ args.map Arg.value, D.Rel (host.value program call a) (host'.value program call' a) := by
  match args with
  | [] =>
      intro a ha
      cases ha
  | .positional e :: args =>
      rw [argsTouch, Bool.or_eq_false_iff] at hargs
      intro a ha
      rcases List.mem_cons.mp ha with hfirst | ha
      · rw [hfirst]
        exact value_agrees_of h e hargs.1
      · exact arguments_agree_of h args hargs.2 a ha
  | .named name e :: args =>
      rw [argsTouch, Bool.or_eq_false_iff] at hargs
      intro a ha
      rcases List.mem_cons.mp ha with hfirst | ha
      · rw [hfirst]
        exact value_agrees_of h e hargs.1
      · exact arguments_agree_of h args hargs.2 a ha

end

theorem action_agrees_of (h : Host.AgreesUnless marks C D host host' call call')
    (a : Action Op Verb) (ha : a.touches marks = false) :
    D.Rel (host.action program call a) (host'.action program call' a) := by
  cases a with
  | perform e => exact D.bind (value_agrees_of h e ha) (fun _ => D.pure _)
  | mutation verb operands =>
      exact D.bind (values_agree_of h operands ha)
        (fun vs => h.scopes.outside (h.mutate verb vs))

variable (program) in
theorem engine_agrees_of (h : Host.AgreesUnless marks C D host host' call call') :
    @Engine.AgreesUnless _ _ (host.engine program call) (host'.engine program call') D
      (HirExpr.touches marks) (Action.touches marks) where
  value := value_agrees_of h
  effect := action_agrees_of h
  assign := h.scopes.assign
  truthy := h.truthy
  less := h.less

variable (program) in
theorem engine_agrees (h : Host.Agrees C host host')
    (hcall : ∀ id vs, C.Rel (call id vs) (call' id vs)) :
    @Engine.Agrees _ _ (host.engine program call) (host'.engine program call') C.within := by
  have hunless : Host.AgreesUnless Marks.nothing C C.within host host' call call' :=
    { scopes := C.within_onScopes _
      operator := fun op _ => h.operator op
      mutate := h.mutate
      call := fun id _ => hcall id
      truthy := h.truthy
      less := h.less }
  refine ⟨fun e _ => ?_, fun a _ => ?_, Comparison.assign, h.truthy, h.less⟩
  · exact value_agrees_of hunless e e.touches_nothing
  · exact action_agrees_of hunless a a.touches_nothing

end Host

end Scopes

end Bodies
end Zdeceptron
