import Zdeceptron.Bodies.Accepted
import Zdeceptron.Bodies.Execute

/-!
# What the emitted statements hand back

The expressions of a well-typed body evaluate to values of their types (`Evaluates`).
-/

namespace Zdeceptron
namespace Bodies

open Types Library

variable {Expr Effect : Type} {I : Inference Expr Effect} {σ : Nat → Ty} {result : Ty}
  {ev : Evaluator Expr Effect} {tail : TailCalls Expr}

def Evaluates (I : Inference Expr Effect) (σ : Nat → Ty) (ev : Evaluator Expr Effect) : Prop :=
  ∀ e state, HasType I.choices (ev.value e state).1 (I.type σ e)

section Values

variable {choices : Choices} {v : Value} {item : Ty}

theorem HasType.exists_whole (h : HasType choices v .whole) : ∃ n, v = .whole n := by
  cases h with
  | whole n => exact ⟨n, rfl⟩
  | variant hchoice => cases hchoice
  | other hother => cases hother

theorem HasType.exists_list (h : HasType choices v (.list item)) :
    ∃ items, v = .list items ∧ ∀ w ∈ items, HasType choices w item := by
  cases h with
  | list hitems => exact ⟨_, rfl, hitems⟩
  | variant hchoice => cases hchoice
  | other hother => cases hother

theorem HasType.exists_variant {t : Ty} {choice : Choice} (h : HasType choices v t)
    (hchoice : choiceOf choices t = some choice) :
    ∃ tag fields, v = .variant tag fields ∧ tag ∈ choice.names := by
  cases h with
  | truth b => cases hchoice
  | whole n => cases hchoice
  | list hitems => cases hchoice
  | variant hchoice' hmem =>
      rw [hchoice] at hchoice'
      cases hchoice'
      exact ⟨_, _, rfl, List.mem_map_of_mem hmem⟩
  | other hother =>
      exfalso
      revert hother
      cases t with
      | var _ | unknown | nothing | truth | whole | list _ => cases hchoice
      | _ => simp [isOther, hchoice]

end Values

section Clauses

variable {items : List Value} {f : Frame ev}

theorem Frame.evaluate_type (hev : Evaluates I σ ev) (f : Frame ev) (e : Expr) :
    HasType I.choices (f.evaluate e).1 (I.type σ e) := hev e f.state

@[simp] theorem Frame.store_accumulator (f : Frame ev) (p : Nat) (v : Value) :
    (f.store p v).accumulator p = some v := Function.update_self _ _ _

theorem Frame.items_eq {p : Nat} (h : f.accumulator p = some (.list items)) :
    f.items p = some items := by
  unfold Frame.items
  rw [h]

variable {w : Value}

theorem mem_filterEach {var : Nat} {cond : Expr}
    (h : w ∈ (filterEach var cond items f).1) : w ∈ items := by
  induction items generalizing f with
  | nil => cases h
  | cons v items ih =>
      rw [filterEach] at h
      dsimp only at h
      split_ifs at h
      · rcases List.mem_cons.mp h with rfl | h
        · exact List.mem_cons_self
        · exact List.mem_cons_of_mem _ (ih h)
      · exact List.mem_cons_of_mem _ (ih h)

theorem mapEach_type (hev : Evaluates I σ ev) {var : Nat} {mapped : Expr}
    (h : w ∈ (mapEach var mapped items f).1) : HasType I.choices w (I.type σ mapped) := by
  induction items generalizing f with
  | nil => cases h
  | cons v items ih =>
      rw [mapEach] at h
      dsimp only at h
      rcases List.mem_cons.mp h with rfl | h
      · exact Frame.evaluate_type hev _ mapped
      · exact ih h

theorem reduceEach_type (hev : Evaluates I σ ev) {total item : Nat} {step : Expr} {acc : Value}
    (h : HasType I.choices acc (I.type σ step)) :
    HasType I.choices (reduceEach total item step acc items f).1 (I.type σ step) := by
  induction items generalizing acc f with
  | nil => exact h
  | cons v items ih =>
      rw [reduceEach]
      exact ih (Frame.evaluate_type hev _ step)

theorem mem_sorted {keys : List Value} (h : w ∈ sorted ev items keys) :
    w ∈ items := by
  unfold sorted at h
  obtain ⟨pair, hpair, rfl⟩ := List.mem_map.mp h
  rw [List.mem_mergeSort] at hpair
  exact (List.of_mem_zip hpair).1

theorem mem_sliced {count w : Value} (h : w ∈ sliced items count) : w ∈ items := by
  unfold sliced at h
  split at h
  · split_ifs at h
    · exact List.mem_of_mem_take h
    · exact List.mem_of_mem_take h
  · cases h

def Holds (I : Inference Expr Effect) (f : Frame ev) (p : Nat) (t : Ty) : Prop :=
  ∃ v, f.accumulator p = some v ∧ HasType I.choices v t

theorem Holds.exists_items {p : Nat} {item : Ty} (h : Holds I f p (.list item)) :
    ∃ items, f.items p = some items ∧ ∀ w ∈ items, HasType I.choices w item := by
  obtain ⟨v, hv, htype⟩ := h
  obtain ⟨items, rfl, hitems⟩ := htype.exists_list
  exact ⟨items, Frame.items_eq hv, hitems⟩

theorem emitClause_sound (hev : Evaluates I σ ev) {p n n' : Nat} {cl : Pipeline Expr}
    {js : Js Expr Effect} {t : Ty} (hjs : emitClause p cl n = some (js, n'))
    (htyped : ClauseTyped I σ t cl) (h : cl.isSource = true ∨ Holds I f p t) :
    ∃ f', execute js f = (.normal, f') ∧ Holds I f' p (clauseType I σ t cl) := by
  have hstored : ∀ (f : Frame ev) {v : Value} {t : Ty}, HasType I.choices v t →
      Holds I (f.store p v) p t :=
    fun f v t hv => ⟨v, f.store_accumulator p v, hv⟩
  cases cl with
  | source e =>
      cases hjs
      exact ⟨_, rfl, hstored _ (Frame.evaluate_type hev f e)⟩
  | keep var cond =>
      cases hjs
      obtain ⟨⟨item, rfl⟩, -⟩ := htyped
      obtain ⟨items, hitems, htypes⟩ := (h.resolve_left (by rintro ⟨⟩)).exists_items
      rw [execute, hitems]
      exact ⟨_, rfl, hstored _ (.list (fun w hw => htypes w (mem_filterEach hw)))⟩
  | sort var key =>
      cases hjs
      obtain ⟨item, rfl⟩ := htyped
      obtain ⟨items, hitems, htypes⟩ := (h.resolve_left (by rintro ⟨⟩)).exists_items
      rw [execute, hitems]
      exact ⟨_, rfl, hstored _ (.list (fun w hw => htypes w (mem_sorted hw)))⟩
  | mapEach var mapped =>
      cases hjs
      obtain ⟨item, rfl⟩ := htyped
      obtain ⟨items, hitems, -⟩ := (h.resolve_left (by rintro ⟨⟩)).exists_items
      rw [execute, hitems]
      exact ⟨_, rfl, hstored _ (.list (fun w hw => mapEach_type hev hw))⟩
  | fold item total starting step =>
      cases hjs
      obtain ⟨⟨item', rfl⟩, hstep⟩ := htyped
      obtain ⟨items, hitems, -⟩ := (h.resolve_left (by rintro ⟨⟩)).exists_items
      rw [execute, hitems]
      refine ⟨_, rfl, hstored _ ?_⟩
      show HasType I.choices _ (I.type σ starting)
      rw [← hstep]
      refine reduceEach_type hev ?_
      rw [hstep]
      exact Frame.evaluate_type hev f starting
  | takeFirst count =>
      cases hjs
      obtain ⟨⟨item, rfl⟩, -⟩ := htyped
      obtain ⟨items, hitems, htypes⟩ := (h.resolve_left (by rintro ⟨⟩)).exists_items
      rw [execute, hitems]
      exact ⟨_, rfl, hstored _ (.list (fun w hw => htypes w (mem_sliced hw)))⟩

theorem emitClauses_sound (hev : Evaluates I σ ev) {p n n' : Nat} {run : List (Pipeline Expr)}
    {js : List (Js Expr Effect)} {t : Ty} (hjs : emitClauses p run n = some (js, n'))
    (htyped : ClausesTyped I σ t run) (h : startsWithSource run = true ∨ Holds I f p t)
    (rest : List (Js Expr Effect)) :
    ∃ f', executeBlock (js ++ rest) f = executeBlock rest f' ∧
      (run ≠ [] ∨ Holds I f p t → Holds I f' p (run.foldl (clauseType I σ) t)) := by
  induction run generalizing f n t js with
  | nil =>
      cases hjs
      exact ⟨f, rfl, fun h => h.resolve_left (fun hne => hne rfl)⟩
  | cons cl run ih =>
      rw [emitClauses] at hjs
      obtain ⟨first, n₁, hfirst, hjs⟩ := bind_eq_some.mp hjs
      obtain ⟨others, n₂, hothers, hjs⟩ := bind_eq_some.mp hjs
      cases hjs
      obtain ⟨f₁, hf₁, hholds⟩ := emitClause_sound hev hfirst htyped.1 h
      obtain ⟨f₂, hf₂, hholds'⟩ := ih hothers htyped.2 (.inr hholds)
      refine ⟨f₂, ?_, fun _ => hholds' (.inr hholds)⟩
      rw [List.cons_append, executeBlock, hf₁]
      exact hf₂

end Clauses

section Statements

def Outcome.Sound (I : Inference Expr Effect) (σ : Nat → Ty) (result : Ty) (returns : Bool) :
    Outcome Expr → Prop
  | .normal => returns = false
  | .broke => False
  | .returned (.value _) v => HasType I.choices v result
  | .returned (.run r) v => startsWithSource r = true ∧ HasType I.choices v (runType I σ r)
  | .threw => False

theorem executeBlock_append (js js' : List (Js Expr Effect)) (f : Frame ev) :
    executeBlock (js ++ js') f =
      match executeBlock js f with
      | (.normal, f) => executeBlock js' f
      | other => other := by
  induction js generalizing f with
  | nil => rfl
  | cons s js ih =>
      rw [List.cons_append, executeBlock, executeBlock]
      split
      · exact ih _
      · rename_i hne
        split
        · rename_i heq
          exact absurd heq (hne _)
        · rfl

theorem executeBlock_singleton (s : Js Expr Effect) (f : Frame ev) :
    executeBlock [s] f = execute s f := by
  rw [executeBlock]
  split
  · rename_i heq
    rw [executeBlock, heq]
  · rfl

variable {returns returns' : Bool}

theorem Outcome.Sound.append {js js' : List (Js Expr Effect)} {f : Frame ev}
    (h : Outcome.Sound I σ result returns (executeBlock js f).1)
    (h' : ∀ f' : Frame ev, Outcome.Sound I σ result returns' (executeBlock js' f').1) :
    Outcome.Sound I σ result (returns || returns') (executeBlock (js ++ js') f).1 := by
  rw [executeBlock_append]
  cases hf : executeBlock js f with
  | mk outcome f₁ =>
      rw [hf] at h
      cases outcome with
      | normal =>
          obtain rfl : returns = false := h
          exact h' f₁
      | broke => exact h
      | returned origin v =>
          cases origin with
          | value e => exact h
          | run r => exact h
      | threw => exact h

variable {outcome : Outcome Expr}

theorem Outcome.Sound.weaken
    (h : Outcome.Sound I σ result returns outcome) (hle : returns' = true → returns = true) :
    Outcome.Sound I σ result returns' outcome := by
  cases outcome with
  | normal =>
      obtain rfl : returns = false := h
      exact Bool.eq_false_iff.mpr (fun h' => Bool.false_ne_true (hle h'))
  | broke => exact h
  | returned origin v =>
      cases origin with
      | value e => exact h
      | run r => exact h
  | threw => exact h

variable {js : List (Js Expr Effect)} {run : List (Pipeline Expr)}

theorem emitRun_sound (hev : Evaluates I σ ev) {n n' : Nat} (hjs : emitRun run n = some (js, n'))
    (htyped : RunTyped I σ run) (f : Frame ev) :
    Outcome.Sound I σ result true (executeBlock js f).1 := by
  rw [emitRun] at hjs
  obtain ⟨p, n₁, -, hjs⟩ := bind_eq_some.mp hjs
  split_ifs at hjs with hstarts
  · obtain ⟨clauses, n₂, hclauses, hjs⟩ := bind_eq_some.mp hjs
    cases hjs
    obtain ⟨f', hf', hholds⟩ := emitClauses_sound hev hclauses (htyped hstarts) (f := f)
      (.inl hstarts) [.returnAccumulator p run]
    have hne : run ≠ [] := by
      rintro rfl
      cases hstarts
    obtain ⟨v, hv, htype⟩ := hholds (.inl hne)
    rw [hf', executeBlock_singleton, execute, hv]
    exact ⟨hstarts, htype⟩
  · cases hjs

theorem flush_sound (hev : Evaluates I σ ev) {n n' : Nat} (hjs : flush run n = some (js, n'))
    (htyped : RunTyped I σ run) (f : Frame ev) :
    Outcome.Sound I σ result (!run.isEmpty) (executeBlock js f).1 := by
  rw [flush] at hjs
  split_ifs at hjs with hempty
  · cases hjs
    rw [hempty]
    rfl
  · rw [Bool.not_eq_true] at hempty
    rw [hempty]
    exact emitRun_sound hev hjs htyped f

theorem give_sound (hev : Evaluates I σ ev) {e : Expr} (htyped : I.type σ e = result)
    (f : Frame ev) :
    Outcome.Sound I σ result true (executeBlock [(give tail e : Js Expr Effect)] f).1 := by
  rw [executeBlock_singleton]
  have hvalue : HasType I.choices (f.evaluate e).1 result := htyped ▸ Frame.evaluate_type hev f e
  unfold give
  split_ifs
  · exact hvalue
  · exact hvalue
  · exact hvalue

theorem constants_sound (bindings : List (Nat × Expr)) (f : Frame ev) :
    Outcome.Sound I σ result false (executeBlock
      (bindings.map (fun binding => (.const binding.1 binding.2 : Js Expr Effect))) f).1 := by
  induction bindings generalizing f with
  | nil => rfl
  | cons binding bindings ih =>
      rw [List.map_cons, executeBlock, execute]
      exact ih _

theorem loop_sound {var : Nat} {body : Frame ev → Outcome Expr × Frame ev} {returns : Bool}
    (hbody : ∀ f, Outcome.Sound I σ result returns (body f).1) (items : List Value)
    (f : Frame ev) : Outcome.Sound I σ result false (loop var body items f).1 := by
  induction items generalizing f with
  | nil => rfl
  | cons v items ih =>
      have hone := hbody (f.assign var v)
      rw [loop]
      cases hf : body (f.assign var v) with
      | mk outcome f₁ =>
          rw [hf] at hone
          cases outcome with
          | normal => exact ih f₁
          | broke => rfl
          | returned origin v =>
              cases origin with
              | value e => exact hone
              | run r => exact hone
          | threw => exact hone

def Outcome.ArmSound (I : Inference Expr Effect) (σ : Nat → Ty) (result : Ty) (returns : Bool)
    (outcome : Outcome Expr) : Prop :=
  (outcome = .broke ∧ returns = false) ∨
    (Outcome.Sound I σ result returns outcome ∧ outcome ≠ .normal)

theorem Outcome.ArmSound.of_returns
    (h : Outcome.Sound I σ result true outcome) : Outcome.ArmSound I σ result true outcome := by
  refine .inr ⟨h, ?_⟩
  rintro rfl
  cases h

theorem Outcome.Sound.break_ {f : Frame ev} {returns : Bool}
    (h : Outcome.Sound I σ result returns (executeBlock js f).1) :
    Outcome.ArmSound I σ result returns (executeBlock (js ++ [.break_]) f).1 := by
  rw [executeBlock_append]
  cases hf : executeBlock js f with
  | mk outcome f₁ =>
      rw [hf] at h
      cases outcome with
      | normal =>
          dsimp only
          rw [executeBlock_singleton]
          exact .inl ⟨rfl, h⟩
      | broke => exact h.elim
      | returned origin v => exact .inr ⟨h, by rintro ⟨⟩⟩
      | threw => exact h.elim

mutual

theorem emitStmt_sound (hev : Evaluates I σ ev) (s : Stmt Expr Effect) {n n' : Nat}
    {js : List (Js Expr Effect)} (hjs : emitStmt tail s n = some (js, n'))
    (htyped : StmtTyped I σ result s) (f : Frame ev) :
    Outcome.Sound I σ result (stmtReturns s) (executeBlock js f).1 := by
  match s with
  | .pipeline cl => cases hjs
  | .mutation e =>
      cases hjs
      rfl
  | .bind bindings =>
      cases hjs
      exact constants_sound bindings f
  | .give e =>
      cases hjs
      exact give_sound hev htyped f
  | .perform e =>
      cases hjs
      rfl
  | .each var iter body =>
      rw [emitStmt] at hjs
      obtain ⟨inner, n₁, hinner, hjs⟩ := bind_eq_some.mp hjs
      cases hjs
      rw [StmtTyped] at htyped
      obtain ⟨⟨item, hitem⟩, hbody⟩ := htyped
      have hvalue := Frame.evaluate_type hev f iter
      rw [hitem] at hvalue
      obtain ⟨items, hitems, -⟩ := hvalue.exists_list
      rw [executeBlock_singleton, execute]
      dsimp only
      rw [hitems]
      exact loop_sound (fun f => emitBlock_sound hev body hinner hbody f) items _
  | .ifThen cond then_ none =>
      rw [emitStmt] at hjs
      obtain ⟨inner, n₁, hinner, hjs⟩ := bind_eq_some.mp hjs
      cases hjs
      rw [StmtTyped] at htyped
      have hsound := emitBlock_sound hev then_ hinner htyped.2 (f.evaluate cond).2
      rw [executeBlock_singleton, execute]
      dsimp only
      split_ifs
      · exact hsound.weaken (by rintro ⟨⟩)
      · rfl
  | .ifThen cond then_ (some otherwise) =>
      rw [emitStmt] at hjs
      obtain ⟨inner₁, n₁, hinner₁, hjs⟩ := bind_eq_some.mp hjs
      obtain ⟨inner₂, n₂, hinner₂, hjs⟩ := bind_eq_some.mp hjs
      cases hjs
      rw [StmtTyped] at htyped
      obtain ⟨-, hthen, hotherwise⟩ := htyped
      have hsound₁ := emitBlock_sound hev then_ hinner₁ hthen (f.evaluate cond).2
      have hsound₂ := emitBlock_sound hev otherwise hinner₂ hotherwise (f.evaluate cond).2
      rw [executeBlock_singleton, execute, stmtReturns]
      dsimp only
      split_ifs
      · exact hsound₁.weaken (fun h => (Bool.and_eq_true_iff.mp h).1)
      · exact hsound₂.weaken (fun h => (Bool.and_eq_true_iff.mp h).2)
  | .when scrutinee as =>
      rw [emitStmt] at hjs
      obtain ⟨w, n₁, -, hjs⟩ := bind_eq_some.mp hjs
      obtain ⟨cases_, n₂, hcases, hjs⟩ := bind_eq_some.mp hjs
      cases hjs
      rw [StmtTyped] at htyped
      obtain ⟨⟨choice, hchoice, hnames⟩, harms⟩ := htyped
      obtain ⟨tag, fields, hvalue, htag⟩ :=
        (Frame.evaluate_type hev f scrutinee).exists_variant hchoice
      rw [executeBlock_singleton, execute]
      dsimp only
      rw [hvalue]
      exact emitArms_sound hev as hcases harms (hnames tag htag) _

theorem emitBlock_sound (hev : Evaluates I σ ev) (stmts : Block Expr Effect) {n n' : Nat}
    {run : List (Pipeline Expr)} {js : List (Js Expr Effect)}
    (hjs : emitBlock tail run stmts n = some (js, n'))
    (htyped : BlockTyped I σ result run stmts) (f : Frame ev) :
    Outcome.Sound I σ result (!run.isEmpty || blockReturns stmts) (executeBlock js f).1 := by
  match stmts with
  | [] =>
      rw [emitBlock] at hjs
      exact (flush_sound hev hjs htyped f).weaken (by simp [blockReturns])
  | s :: stmts =>
      by_cases hs : ∀ cl, s ≠ .pipeline cl
      · rw [emitBlock] at hjs
        · obtain ⟨before, n₁, hbefore, hjs⟩ := bind_eq_some.mp hjs
          obtain ⟨own, n₂, hown, hjs⟩ := bind_eq_some.mp hjs
          obtain ⟨after_, n₃, hafter, hjs⟩ := bind_eq_some.mp hjs
          cases hjs
          rw [BlockTyped] at htyped
          · obtain ⟨hrun, hstmt, hrest⟩ := htyped
            rw [blockReturns]
            refine (flush_sound hev hbefore hrun f).append ?_
            intro f₁
            refine (emitStmt_sound hev s hown hstmt f₁).append ?_
            intro f₂
            exact emitBlock_sound hev stmts hafter hrest f₂
          · exact hs
        · exact hs
      · obtain ⟨cl, hcl⟩ := not_forall.mp hs
        obtain rfl := not_not.mp hcl
        rw [emitBlock] at hjs
        rw [BlockTyped] at htyped
        exact (emitBlock_sound hev stmts hjs htyped f).weaken (by simp)

theorem emitArms_sound (hev : Evaluates I σ ev) (as : List (Arm Expr Effect)) {n n' : Nat}
    {cases_ : List (Case Expr Effect)} (hjs : emitArms tail as n = some (cases_, n'))
    (htyped : ArmsTyped I σ result as) {tag : String} (htag : tag ∈ as.map Arm.name)
    {fields : List Value} (f : Frame ev) :
    Outcome.Sound I σ result (armsReturn as) (executeCases tag fields false cases_ f).1 := by
  match as with
  | [] => cases htag
  | .mk name ids body :: rest =>
      rw [emitArms] at hjs
      obtain ⟨js, n₁, hbody, hjs⟩ := bind_eq_some.mp hjs
      obtain ⟨others, n₂, hothers, hjs⟩ := bind_eq_some.mp hjs
      cases hjs
      rw [ArmsTyped] at htyped
      rw [executeCases, armsReturn]
      by_cases hname : name = tag
      · have harm := emitArmBody_sound hev body hbody htyped.1 (f.assignEach ids fields)
        rw [if_pos (by simp [hname])]
        cases hf : executeBlock js (f.assignEach ids fields) with
        | mk outcome f₁ =>
            rw [hf] at harm
            rcases harm with ⟨rfl, hreturns⟩ | ⟨hsound, hne⟩
            · rw [hreturns]
              rfl
            · have hsound := hsound.weaken
                (fun h : (armBodyReturns body && armsReturn rest) = true =>
                  (Bool.and_eq_true_iff.mp h).1)
              cases outcome with
              | normal => exact absurd rfl hne
              | broke => exact hsound.elim
              | returned origin v => exact hsound
              | threw => exact hsound
      · rw [if_neg (by simp [hname])]
        have hrest : tag ∈ rest.map Arm.name :=
          (List.mem_cons.mp htag).resolve_left (fun h => hname h.symm)
        exact (emitArms_sound hev rest hothers htyped.2 hrest f).weaken
          (fun h => (Bool.and_eq_true_iff.mp h).2)

theorem emitArmBody_sound (hev : Evaluates I σ ev) (body : ArmBody Expr Effect) {n n' : Nat}
    {js : List (Js Expr Effect)} (hjs : emitArmBody tail body n = some (js, n'))
    (htyped : ArmBodyTyped I σ result body) (f : Frame ev) :
    Outcome.ArmSound I σ result (armBodyReturns body) (executeBlock js f).1 := by
  match body with
  | .show_ e =>
      cases hjs
      exact .of_returns (give_sound hev htyped f)
  | .block stmts =>
      rw [emitArmBody] at hjs
      obtain ⟨inner, n₁, hinner, hjs⟩ := bind_eq_some.mp hjs
      cases hjs
      exact (emitBlock_sound hev stmts hinner htyped f).break_

end

end Statements

end Bodies
end Zdeceptron
