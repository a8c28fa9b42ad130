import Zdeceptron.Bodies.Engine
import Zdeceptron.Library.Advances

/-!
# The script of a body means what the body does
-/

namespace Zdeceptron
namespace Bodies
namespace Engine

open Step

variable {Expr Effect : Type} {en : Engine Expr Effect}

section Means

def settle : Outcome Expr → Step en.State Ending
  | .normal => return .fell
  | .broke => return .fell
  | .returned v => return .gave v
  | .jumped call => return .gave (← en.value call)
  | .bounced call => return .gave (← en.value call)

def after (js : Step (Frame en) (Outcome Expr)) (f : Frame en) : Except Fault Ending × en.State :=
  match js.run f with
  | (.ok outcome, f') => (settle outcome).run f'.state
  | (.error fault, f') => (.error fault, f'.state)

/-- How a statement may end: it breaks out of nothing, and the calls it leaves are those in
tail position. -/
def Outcome.Leaves (tail : TailCalls Expr) : Outcome Expr → Prop
  | .normal => True
  | .broke => False
  | .returned _ => True
  | .jumped call => tail.jumps call = true
  | .bounced call => tail.bounces call = true

structure Means (tail : TailCalls Expr) (js : Step (Frame en) (Outcome Expr))
    (src : Step en.State Ending) : Prop where
  same : ∀ f, after js f = src.run f.state
  leaves : ∀ f outcome f', js.run f = (.ok outcome, f') → outcome.Leaves tail

variable {tail : TailCalls Expr}
variable {js js' : Step (Frame en) (Outcome Expr)} {src src' : Step en.State Ending}

theorem means_pure {outcome : Outcome Expr} (h : outcome.Leaves tail) :
    Means tail (pure outcome : Step (Frame en) (Outcome Expr)) (settle outcome) where
  same _ := rfl
  leaves f outcome' f' h' := by
    cases h'
    exact h

theorem Means.lift_bind {α : Type} {step : Step en.State α}
    {js : α → Step (Frame en) (Outcome Expr)} {src : α → Step en.State Ending}
    (h : ∀ a, Means tail (js a) (src a)) : Means tail (lift step >>= js) (step >>= src) where
  same f := by
    unfold after
    rw [run_bind, run_bind, run_lift]
    rcases step.run f.state with ⟨_ | a, s⟩
    · rfl
    · exact (h a).same { f with state := s }
  leaves f outcome f' h' := by
    rw [run_bind, run_lift] at h'
    rcases hs : step.run f.state with ⟨_ | a, s⟩ <;> rw [hs] at h'
    · cases h'
    · exact (h a).leaves _ _ _ h'

def seq (js js' : Step (Frame en) (Outcome Expr)) : Step (Frame en) (Outcome Expr) := do
  match ← js with
  | .normal => js'
  | other => return other

theorem followed_call (call : Expr) (src : Step en.State Ending) :
    followed (do return .gave (← en.value call)) src = do return .gave (← en.value call) := by
  unfold followed
  simp only [bind_assoc, pure_bind]

theorem Means.seq (h : Means tail js src) (h' : Means tail js' src') :
    Means tail (seq js js') (followed src src') where
  same f := by
    have hsame := h.same f
    unfold after Engine.seq followed at *
    rw [run_bind, run_bind]
    cases hjs : js.run f with
    | mk result f' =>
        rw [hjs] at hsame
        rw [← hsame]
        cases result with
        | error fault => rfl
        | ok outcome =>
            cases outcome with
            | normal => exact h'.same f'
            | broke => exact (h.leaves f _ f' hjs).elim
            | returned v => rfl
            | jumped call | bounced call => exact (congrFun (followed_call call src') f'.state).symm
  leaves f outcome f' h'' := by
    unfold Engine.seq at h''
    rw [run_bind] at h''
    cases hjs : js.run f with
    | mk result f₁ =>
        rw [hjs] at h''
        cases result with
        | error fault => cases h''
        | ok first =>
            have hfirst := h.leaves f first f₁ hjs
            cases first with
            | normal => exact h'.leaves _ _ _ h''
            | broke => exact hfirst.elim
            | returned v | jumped call | bounced call =>
                cases h''
                exact hfirst

/-- One script inside a loop or a `switch`, and what follows unless it breaks out. -/
def guarded (js js' : Step (Frame en) (Outcome Expr)) : Step (Frame en) (Outcome Expr) := do
  match ← js with
  | .normal => js'
  | .broke => return .normal
  | other => return other

theorem Means.guarded (h : Means tail js src) (h' : Means tail js' src') :
    Means tail (guarded js js') (followed src src') := by
  have hseq : Engine.guarded js js' = Engine.seq js js' := by
    refine Step.ext fun f => ?_
    unfold Engine.guarded Engine.seq
    rw [run_bind, run_bind]
    cases hjs : js.run f with
    | mk result f' =>
        cases result with
        | error fault => rfl
        | ok outcome =>
            cases outcome with
            | broke => exact (h.leaves f _ f' hjs).elim
            | normal | returned v | jumped call | bounced call => rfl
  rw [hseq]
  exact h.seq h'

theorem Means.loop (h : Means tail js src) (var : Nat) (items : List Value) :
    Means tail (forEach var js items) (en.loop var src items) := by
  induction items with
  | nil => exact means_pure trivial
  | cons v vs ih => exact Means.lift_bind (fun _ => h.guarded ih)

/-- The body of an arm does what the source does, and goes on to no other arm. -/
structure ArmMeans (tail : TailCalls Expr) (js : Step (Frame en) (Outcome Expr))
    (src : Step en.State Ending) : Prop where
  same : ∀ f, after js f = src.run f.state
  leaves : ∀ f outcome f', js.run f = (.ok outcome, f') →
    outcome = .broke ∨ outcome ≠ .normal ∧ outcome.Leaves tail

theorem ArmMeans.guarded (h : ArmMeans tail js src) : Means tail (guarded js js') src where
  same f := by
    rw [← h.same f]
    unfold after Engine.guarded
    rw [run_bind]
    cases hjs : js.run f with
    | mk result f' =>
        cases result with
        | error fault => rfl
        | ok outcome =>
            rcases h.leaves f outcome f' hjs with rfl | ⟨hnormal, -⟩
            · rfl
            · cases outcome with
              | normal => exact absurd rfl hnormal
              | broke | returned v | jumped call | bounced call => rfl
  leaves f outcome f' h' := by
    unfold Engine.guarded at h'
    rw [run_bind] at h'
    cases hjs : js.run f with
    | mk result f₁ =>
        rw [hjs] at h'
        cases result with
        | error fault => cases h'
        | ok first =>
            rcases h.leaves f first f₁ hjs with rfl | ⟨hnormal, hfirst⟩
            · cases h'
              trivial
            · cases first with
              | normal => exact absurd rfl hnormal
              | broke => exact hfirst.elim
              | returned v | jumped call | bounced call =>
                  cases h'
                  exact hfirst

theorem executeBlock_cons (s : Js Expr Effect) (js : List (Js Expr Effect)) :
    (executeBlock (s :: js) : Step (Frame en) (Outcome Expr)) =
      seq (execute s) (executeBlock js) := rfl

theorem seq_assoc (js js' js'' : Step (Frame en) (Outcome Expr)) :
    seq (seq js js') js'' = seq js (seq js' js'') := by
  refine Step.ext fun f => ?_
  unfold Engine.seq
  rw [run_bind, run_bind, run_bind]
  cases js.run f with
  | mk result f' =>
      cases result with
      | error fault => rfl
      | ok outcome => cases outcome <;> rfl

theorem executeBlock_append (js js' : List (Js Expr Effect)) :
    (executeBlock (js ++ js') : Step (Frame en) (Outcome Expr)) =
      seq (executeBlock js) (executeBlock js') := by
  induction js with
  | nil => rfl
  | cons s js ih => rw [List.cons_append, executeBlock_cons, executeBlock_cons, ih, seq_assoc]

theorem executeBlock_singleton (s : Js Expr Effect) :
    (executeBlock [s] : Step (Frame en) (Outcome Expr)) = execute s := by
  refine Step.ext fun f => ?_
  rw [executeBlock_cons]
  unfold Engine.seq
  rw [run_bind]
  cases (execute s).run f with
  | mk result f' =>
      cases result with
      | error fault => rfl
      | ok outcome => cases outcome <;> rfl

theorem Means.break_ {js : List (Js Expr Effect)} (h : Means tail (executeBlock js) src) :
    ArmMeans tail (executeBlock (js ++ [.break_])) src := by
  rw [executeBlock_append]
  refine ⟨fun f => ?_, fun f outcome f' h' => ?_⟩
  · rw [← h.same f]
    unfold after Engine.seq
    rw [run_bind]
    cases hjs : (executeBlock js).run f with
    | mk result f' =>
        cases result with
        | error fault => rfl
        | ok outcome => cases outcome <;> rfl
  · unfold Engine.seq at h'
    rw [run_bind] at h'
    cases hjs : (executeBlock js).run f with
    | mk result f₁ =>
        rw [hjs] at h'
        cases result with
        | error fault => cases h'
        | ok first =>
            have hfirst := h.leaves f first f₁ hjs
            cases first with
            | normal =>
                cases h'
                exact .inl rfl
            | broke => exact hfirst.elim
            | returned v | jumped call | bounced call =>
                cases h'
                exact .inr ⟨by rintro ⟨⟩, hfirst⟩

end Means

section Runs

variable {p n n' : Nat} {c : Pipeline Expr}

def clauses (v : Value) : List (Pipeline Expr) → Step en.State Value
  | [] => return v
  | c :: run => do clauses (← en.clause c (some v)) run

theorem block_clauses (v : Value) (run : List (Pipeline Expr)) (stmts : Block Expr Effect) :
    en.block (some v) (run.map .pipeline ++ stmts) =
      clauses v run >>= fun w => en.block (some w) stmts := by
  induction run generalizing v with
  | nil => rfl
  | cons c run ih =>
      rw [List.map_cons, List.cons_append, block, clauses, bind_assoc]
      exact congrArg _ (funext ih)

/-- A script that leaves the value of an evaluation in an accumulator. -/
def Stores (js : Step (Frame en) (Outcome Expr)) (p : Nat) (f : Frame en)
    (step : Step en.State Value) : Prop :=
  ∃ f', js.run f = ((step.run f.state).1.map (fun _ => .normal), f') ∧
    f'.state = (step.run f.state).2 ∧
      ∀ v, (step.run f.state).1 = .ok v → f'.accumulator p = some v

theorem stores_stored (p : Nat) (f : Frame en) (step : Step en.State Value) :
    Stores (stored p step : Step (Frame en) (Outcome Expr)) p f step := by
  unfold Stores stored
  rw [run_bind, run_lift]
  rcases step.run f.state with ⟨fault | v, s⟩
  · exact ⟨_, rfl, rfl, by rintro v ⟨⟩⟩
  · refine ⟨_, rfl, rfl, ?_⟩
    rintro w ⟨⟩
    exact Function.update_self _ _ _

variable {f : Frame en} {carried : Option Value}

theorem stores_refill (h : f.accumulator p = carried) (hc : ∀ e, c ≠ .source e) :
    Stores (refill p (en.onItems c) : Step (Frame en) (Outcome Expr)) p f
      (en.clause c carried) := by
  have hrefill : (refill p (en.onItems c) : Step (Frame en) (Outcome Expr)).run f =
      (method p (en.onItems c) carried).run f := by
    unfold refill
    rw [run_bind, run_look, ← h]
  unfold Stores
  rw [hrefill]
  match carried with
  | some (.list items) =>
      have hclause : en.clause c (some (.list items)) = en.onItems c items := by
        cases c with
        | source e => exact absurd rfl (hc e)
        | _ => rfl
      rw [hclause]
      exact stores_stored p f _
  | none | some (.truth b) | some (.whole k) | some (.variant tag fields)
  | some (.other t datum) =>
      have hclause : ∀ v, (∀ items, v ≠ some (.list items)) → en.clause c v = fail .threw := by
        intro v hv
        unfold clause
        split
        · exact absurd rfl (hc _)
        · exact absurd rfl (hv _)
        · rfl
      rw [hclause _ (by rintro items ⟨⟩)]
      exact ⟨f, rfl, rfl, by rintro v ⟨⟩⟩

theorem emitClause_means {s : Js Expr Effect} (h : emitClause p c n = some (s, n'))
    (hf : f.accumulator p = carried) :
    Stores (execute s) p f (en.clause c carried) := by
  cases c with
  | source e =>
      cases h
      exact stores_stored p f _
  | sort var key =>
      rw [emitClause] at h
      obtain ⟨k, n₁, -, h⟩ := Library.bind_eq_some.mp h
      cases h
      exact stores_refill hf (by rintro e ⟨⟩)
  | keep var cond | mapEach var mapped | fold item total starting step | takeFirst count =>
      cases h
      exact stores_refill hf (by rintro e ⟨⟩)

variable {step : Step en.State Value}

theorem Stores.seq {js js' : Step (Frame en) (Outcome Expr)}
    {next : Value → Step en.State Value} (h : Stores js p f step)
    (h' : ∀ v f', f'.accumulator p = some v → Stores js' p f' (next v)) :
    Stores (seq js js') p f (step >>= next) := by
  obtain ⟨f₁, hrun, hstate, hstored⟩ := h
  unfold Stores Engine.seq
  rw [run_bind, run_bind, hrun]
  rcases hstep : step.run f.state with ⟨fault | v, s⟩
  · rw [hstep] at hstate
    exact ⟨f₁, rfl, hstate, by rintro w ⟨⟩⟩
  · rw [hstep] at hstate hstored
    obtain ⟨f₂, hrun₂, hstate₂, hstored₂⟩ := h' v f₁ (hstored v rfl)
    rw [hstate] at hrun₂ hstate₂ hstored₂
    exact ⟨f₂, hrun₂, hstate₂, hstored₂⟩

variable {run : List (Pipeline Expr)} {js : List (Js Expr Effect)}

theorem emitClauses_means (h : emitClauses p run n = some (js, n')) {v : Value}
    (hf : f.accumulator p = some v) : Stores (executeBlock js) p f (clauses v run) := by
  induction run generalizing n js v f with
  | nil =>
      cases h
      exact ⟨f, rfl, rfl, by rintro w ⟨⟩; exact hf⟩
  | cons c run ih =>
      rw [emitClauses] at h
      obtain ⟨s, n₁, hs, h⟩ := Library.bind_eq_some.mp h
      obtain ⟨rest, n₂, hrest, h⟩ := Library.bind_eq_some.mp h
      cases h
      exact (emitClause_means hs hf).seq (fun w f' hf' => ih hrest hf')

theorem Stores.returned (h : Stores (executeBlock js) p f step) (run : List (Pipeline Expr)) :
    ∃ f', f'.state = (step.run f.state).2 ∧
      (executeBlock (js ++ [.returnAccumulator p run])).run f =
        ((step.run f.state).1.map Outcome.returned, f') := by
  obtain ⟨f₁, hrun, hstate, hstored⟩ := h
  refine ⟨f₁, hstate, ?_⟩
  rw [executeBlock_append, executeBlock_singleton]
  unfold Engine.seq
  rw [run_bind, hrun]
  rcases hstep : step.run f.state with ⟨fault | v, s⟩
  · rfl
  · rw [hstep] at hstored
    simp only [Except.map, execute]
    rw [run_bind, run_look]
    simp only [hstored v rfl]
    rfl

theorem startsWithSource_iff :
    startsWithSource run = true ↔ ∃ e rest, run = .source e :: rest := by
  constructor
  · intro h
    match run, h with
    | .source e :: rest, _ => exact ⟨e, rest, rfl⟩
  · rintro ⟨e, rest, rfl⟩
    rfl

theorem emitRun_eq (h : emitRun run n = some (js, n')) :
    ∃ p n₁ e rest body, run = .source e :: rest ∧ emitClauses p rest n₁ = some (body, n') ∧
      js = .letAccumulator p e :: (body ++ [.returnAccumulator p run]) := by
  unfold emitRun at h
  obtain ⟨p, n₁, -, h⟩ := Library.bind_eq_some.mp h
  split_ifs at h with hstarts
  · obtain ⟨all, n₂, hall, h⟩ := Library.bind_eq_some.mp h
    cases h
    obtain ⟨e, rest, rfl⟩ := startsWithSource_iff.mp hstarts
    rw [emitClauses] at hall
    obtain ⟨first, n₃, hfirst, hall⟩ := Library.bind_eq_some.mp hall
    obtain ⟨body, n₄, hbody, hrest⟩ := Library.bind_eq_some.mp hall
    cases hfirst
    cases hrest
    exact ⟨p, n₁, e, rest, body, rfl, hbody, rfl⟩
  · cases h

theorem emitRun_means (h : emitRun run n = some (js, n')) {stmts : Block Expr Effect}
    (hstmts : ∀ v, en.block (some v) stmts = pure (.gave v)) (f : Frame en) :
    after (executeBlock js) f = (en.block none (run.map .pipeline ++ stmts)).run f.state ∧
      ∀ f' outcome, (executeBlock js).run f = (.ok outcome, f') → ∃ v, outcome = .returned v := by
  obtain ⟨p, n₁, e, rest, body, hrun, hbody, rfl⟩ := emitRun_eq h
  have hsource : en.block none (run.map .pipeline ++ stmts) =
      (en.value e >>= fun v => clauses v rest) >>= fun w => pure (.gave w) := by
    rw [hrun, List.map_cons, List.cons_append, block, bind_assoc]
    refine congrArg _ (funext fun v => ?_)
    rw [block_clauses]
    exact congrArg _ (funext hstmts)
  have hstores : Stores (executeBlock (.letAccumulator p e :: body)) p f
      (en.value e >>= fun v => clauses v rest) :=
    (stores_stored p f (en.value e)).seq (fun v f' hf' => emitClauses_means hbody hf')
  obtain ⟨f', hstate, hreturned⟩ := hstores.returned run
  rw [List.cons_append] at hreturned
  rw [hsource]
  unfold after
  rw [run_bind, hreturned]
  rcases hvalue : (en.value e >>= fun v => clauses v rest).run f.state with ⟨fault | v, s⟩
  · rw [hvalue] at hstate
    exact ⟨congrArg (Prod.mk _) hstate, by rintro f'' outcome ⟨⟩⟩
  · rw [hvalue] at hstate
    refine ⟨?_, by rintro f'' outcome ⟨⟩; exact ⟨v, rfl⟩⟩
    change (Except.ok (Ending.gave v), f'.state) = _
    rw [hstate]
    rfl

end Runs

section Statements

variable {tail : TailCalls Expr}

theorem means_bindings (bindings : List (Nat × Expr)) :
    Means tail (executeBlock (bindings.map
        (fun binding => (.const binding.1 binding.2 : Js Expr Effect))))
      (do en.bindEach bindings; return .fell) := by
  induction bindings with
  | nil => exact means_pure trivial
  | cons binding bindings ih =>
      have hconst : Means tail (execute (.const binding.1 binding.2 : Js Expr Effect))
          (do
            let v ← en.value binding.2
            change (en.assign binding.1 v)
            return .fell) :=
        .lift_bind (fun v => .lift_bind (fun _ => means_pure trivial))
      have hseq := hconst.seq ih
      have hsource : followed (do
            let v ← en.value binding.2
            change (en.assign binding.1 v)
            return .fell) (do en.bindEach bindings; return .fell) =
          (do en.bindEach (binding :: bindings); return Ending.fell) := by
        rw [bindEach]
        simp only [followed, bind_assoc, pure_bind]
      rw [← hsource]
      exact hseq

theorem means_fail (fault : Fault) :
    Means tail (fail fault : Step (Frame en) (Outcome Expr)) (fail fault) :=
  ⟨fun _ => rfl, by rintro f outcome f' ⟨⟩⟩

theorem means_give (e : Expr) :
    Means tail (execute (give tail e : Js Expr Effect)) (do return .gave (← en.value e)) := by
  unfold give
  split_ifs with hjumps hbounces
  · have hjump : (Outcome.jumped e).Leaves tail := hjumps
    exact means_pure hjump
  · have hbounce : (Outcome.bounced e).Leaves tail := hbounces
    exact means_pure hbounce
  · exact .lift_bind (fun v => means_pure trivial)

theorem give_not_normal (e : Expr) {f f' : Frame en} {outcome : Outcome Expr}
    (h : (execute (give tail e : Js Expr Effect)).run f = (.ok outcome, f')) :
    outcome ≠ .normal := by
  unfold give at h
  split_ifs at h
  · cases h
    rintro ⟨⟩
  · cases h
    rintro ⟨⟩
  · simp only [execute] at h
    rw [run_bind, run_lift] at h
    rcases hv : (en.value e).run f.state with ⟨fault | v, s⟩ <;> rw [hv] at h <;> cases h
    rintro ⟨⟩

theorem flush_means {run : List (Pipeline Expr)} {n n' : Nat} {js js' : List (Js Expr Effect)}
    (h : flush run n = some (js, n')) {stmts : Block Expr Effect}
    (hstmts : ∀ v, en.block (some v) stmts = pure (.gave v))
    (hmeans : Means tail (executeBlock js') (en.block none stmts)) :
    Means tail (executeBlock (js ++ js')) (en.block none (run.map .pipeline ++ stmts)) := by
  unfold flush at h
  split_ifs at h with hrun
  · cases h
    rw [List.isEmpty_iff.mp hrun]
    exact hmeans
  · have hreturned := emitRun_means h hstmts
    rw [executeBlock_append]
    have hseq : ∀ f, (seq (executeBlock js) (executeBlock js')).run f =
        (executeBlock js : Step (Frame en) (Outcome Expr)).run f := by
      intro f
      unfold seq
      rw [run_bind]
      rcases hf : (executeBlock js).run f with ⟨fault | outcome, f'⟩
      · rfl
      · obtain ⟨v, rfl⟩ := (hreturned f).2 f' outcome hf
        rfl
    refine ⟨fun f => ?_, fun f outcome f' h' => ?_⟩
    · rw [← (hreturned f).1]
      unfold after
      rw [hseq]
    · rw [hseq] at h'
      obtain ⟨v, rfl⟩ := (hreturned f).2 f' outcome h'
      trivial

mutual

theorem emitStmt_means (s : Stmt Expr Effect) (hs : ∀ c, s ≠ .pipeline c) {n n' : Nat}
    {js : List (Js Expr Effect)} (hjs : emitStmt tail s n = some (js, n')) :
    Means tail (executeBlock js) (en.stmt s) := by
  match s with
  | .pipeline c => exact absurd rfl (hs c)
  | .mutation e =>
      cases hjs
      rw [executeBlock_singleton]
      exact .lift_bind (fun _ => means_pure trivial)
  | .bind bindings =>
      cases hjs
      exact means_bindings bindings
  | .give e =>
      cases hjs
      rw [executeBlock_singleton]
      exact means_give e
  | .perform e =>
      cases hjs
      rw [executeBlock_singleton]
      exact .lift_bind (fun _ => means_pure trivial)
  | .each var iter body =>
      rw [emitStmt] at hjs
      obtain ⟨inner, n₁, hinner, hjs⟩ := Library.bind_eq_some.mp hjs
      cases hjs
      rw [executeBlock_singleton]
      refine .lift_bind (fun v => ?_)
      cases v with
      | list items => exact (emitBlock_means body hinner).loop var items
      | truth b | whole k | variant tag fields | other t => exact means_fail .threw
  | .ifThen cond then_ none =>
      rw [emitStmt] at hjs
      obtain ⟨inner, n₁, hinner, hjs⟩ := Library.bind_eq_some.mp hjs
      cases hjs
      rw [executeBlock_singleton]
      refine .lift_bind (fun v => ?_)
      split_ifs
      · exact emitBlock_means then_ hinner
      · exact means_pure trivial
  | .ifThen cond then_ (some otherwise) =>
      rw [emitStmt] at hjs
      obtain ⟨inner₁, n₁, hinner₁, hjs⟩ := Library.bind_eq_some.mp hjs
      obtain ⟨inner₂, n₂, hinner₂, hjs⟩ := Library.bind_eq_some.mp hjs
      cases hjs
      rw [executeBlock_singleton]
      refine .lift_bind (fun v => ?_)
      split_ifs
      · exact emitBlock_means then_ hinner₁
      · exact emitBlock_means otherwise hinner₂
  | .when scrutinee as =>
      rw [emitStmt] at hjs
      obtain ⟨w, n₁, -, hjs⟩ := Library.bind_eq_some.mp hjs
      obtain ⟨cases_, n₂, hcases, hjs⟩ := Library.bind_eq_some.mp hjs
      cases hjs
      rw [executeBlock_singleton]
      refine .lift_bind (fun v => ?_)
      cases v with
      | variant tag fields => exact emitArms_means as hcases tag fields
      | truth b | whole k | list items | other t => exact means_pure trivial

theorem emitBlock_means {run : List (Pipeline Expr)} (stmts : Block Expr Effect) {n n' : Nat}
    {js : List (Js Expr Effect)} (hjs : emitBlock tail run stmts n = some (js, n')) :
    Means tail (executeBlock js) (en.block none (run.map .pipeline ++ stmts)) := by
  match stmts with
  | [] =>
      rw [emitBlock] at hjs
      have hend : Means tail (executeBlock []) (en.block none ([] : Block Expr Effect)) :=
        means_pure trivial
      have hmeans := flush_means hjs (fun _ => rfl) hend
      rwa [List.append_nil] at hmeans
  | s :: stmts =>
      by_cases hs : ∀ c, s ≠ .pipeline c
      · rw [emitBlock] at hjs
        · obtain ⟨before, n₁, hbefore, hjs⟩ := Library.bind_eq_some.mp hjs
          obtain ⟨own, n₂, hown, hjs⟩ := Library.bind_eq_some.mp hjs
          obtain ⟨rest, n₃, hrest, hjs⟩ := Library.bind_eq_some.mp hjs
          cases hjs
          refine flush_means hbefore (fun v => block_some v hs stmts) ?_
          rw [executeBlock_append, block_none hs]
          exact (emitStmt_means s hs hown).seq (emitBlock_means stmts hrest)
        · exact hs
      · obtain ⟨c, hc⟩ := not_forall.mp hs
        obtain rfl := not_not.mp hc
        rw [emitBlock] at hjs
        have hmeans := emitBlock_means stmts hjs
        rwa [List.map_append, List.append_assoc] at hmeans

theorem emitArms_means (as : List (Arm Expr Effect)) {n n' : Nat}
    {cases_ : List (Case Expr Effect)} (hjs : emitArms tail as n = some (cases_, n'))
    (tag : String) (fields : List Value) :
    Means tail (executeCases tag fields false cases_) (en.arms tag fields as) := by
  match as with
  | [] =>
      cases hjs
      exact means_pure trivial
  | .mk name ids body :: rest =>
      rw [emitArms] at hjs
      obtain ⟨js, n₁, hbody, hjs⟩ := Library.bind_eq_some.mp hjs
      obtain ⟨others, n₂, hothers, hjs⟩ := Library.bind_eq_some.mp hjs
      cases hjs
      rw [executeCases, arms, Bool.false_or]
      split_ifs
      · exact .lift_bind (fun _ => (emitArmBody_means body hbody).guarded)
      · exact emitArms_means rest hothers tag fields

theorem emitArmBody_means (body : ArmBody Expr Effect) {n n' : Nat}
    {js : List (Js Expr Effect)} (hjs : emitArmBody tail body n = some (js, n')) :
    ArmMeans tail (executeBlock js) (en.armBody body) := by
  match body with
  | .show_ e =>
      cases hjs
      rw [executeBlock_singleton]
      exact ⟨(means_give e).same, fun f outcome f' h =>
        .inr ⟨give_not_normal e h, (means_give e).leaves f outcome f' h⟩⟩
  | .block stmts =>
      rw [emitArmBody] at hjs
      obtain ⟨inner, n₁, hinner, hjs⟩ := Library.bind_eq_some.mp hjs
      cases hjs
      exact (emitBlock_means stmts hinner).break_

end

end Statements

end Engine
end Bodies
end Zdeceptron
