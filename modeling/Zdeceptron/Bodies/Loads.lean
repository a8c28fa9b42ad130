import Zdeceptron.Bodies.Typed
import Zdeceptron.Library.Advances

/-!
# Emitted bodies that load

Temporaries are numbered in the order they are emitted, so a block declares one twice only
where a run of pipeline clauses draws from two sources.
-/

namespace Zdeceptron
namespace Bodies

open Library

variable {Expr Effect : Type} {tail : TailCalls Expr}

section Draws

def runDraws (run : List (Pipeline Expr)) : Bool := decide (run.countP Pipeline.isSource ≤ 1)

mutual

def stmtDraws : Stmt Expr Effect → Bool
  | .when _ as => armsDraw as
  | .each _ _ body => blockDraws [] body
  | .ifThen _ then_ none => blockDraws [] then_
  | .ifThen _ then_ (some otherwise) => blockDraws [] then_ && blockDraws [] otherwise
  | _ => true

def blockDraws (run : List (Pipeline Expr)) : Block Expr Effect → Bool
  | [] => runDraws run
  | .pipeline c :: stmts => blockDraws (run ++ [c]) stmts
  | s :: stmts => runDraws run && (stmtDraws s && blockDraws [] stmts)

def armsDraw : List (Arm Expr Effect) → Bool
  | [] => true
  | .mk _ _ body :: rest => armBodyDraws body && armsDraw rest

def armBodyDraws : ArmBody Expr Effect → Bool
  | .show_ _ => true
  | .block stmts => blockDraws [] stmts

end

end Draws

section Numbered

def declaredBy (js : List (Js Expr Effect)) : List Temporary := js.flatMap declared

/-- Statements whose temporaries have numbers from `n` up to `n'`. -/
structure Numbered (n n' : Nat) (js : List (Js Expr Effect)) : Prop where
  le : n ≤ n'
  within : ∀ t ∈ declaredBy js, n ≤ t.number ∧ t.number < n'

variable {n n' n'' : Nat} {js js' : List (Js Expr Effect)}

theorem declaredBy_append (js js' : List (Js Expr Effect)) :
    declaredBy (js ++ js') = declaredBy js ++ declaredBy js' := List.flatMap_append

theorem Numbered.append (h : Numbered n n' js) (h' : Numbered n' n'' js') :
    Numbered n n'' (js ++ js') := by
  refine ⟨h.le.trans h'.le, ?_⟩
  intro t ht
  rw [declaredBy_append] at ht
  have hle := h.le
  have hle' := h'.le
  rcases List.mem_append.mp ht with ht | ht
  · have hin := h.within t ht
    omega
  · have hin := h'.within t ht
    omega

theorem Numbered.nodup_append (h : Numbered n n' js) (h' : Numbered n' n'' js') :
    (declaredBy (js ++ js')).Nodup ↔ (declaredBy js).Nodup ∧ (declaredBy js').Nodup := by
  rw [declaredBy_append, List.nodup_append]
  constructor
  · rintro ⟨hjs, hjs', -⟩
    exact ⟨hjs, hjs'⟩
  · rintro ⟨hjs, hjs'⟩
    refine ⟨hjs, hjs', ?_⟩
    rintro t ht _ ht' rfl
    have hin := h.within t ht
    have hin' := h'.within t ht'
    omega

theorem Numbered.none (h : n ≤ n') (hnone : declaredBy js = []) : Numbered n n' js :=
  ⟨h, by rw [hnone]; rintro t ⟨⟩⟩

theorem eachLoads_append (js js' : List (Js Expr Effect)) :
    eachLoads (js ++ js') = (eachLoads js && eachLoads js') := by
  induction js with
  | nil => rfl
  | cons s js ih => rw [List.cons_append, eachLoads, eachLoads, ih, Bool.and_assoc]

end Numbered

section Runs

variable {n n' p : Nat} {run : List (Pipeline Expr)} {js : List (Js Expr Effect)}

theorem emitClause_declared {c : Pipeline Expr} {s : Js Expr Effect}
    (h : emitClause p c n = some (s, n')) :
    n ≤ n' ∧ s.loads = true ∧ ((c.isSource = true ∧ declared s = [.p p]) ∨
      (c.isSource = false ∧ (declared s = [] ∨ (declared s = [.k n] ∧ n' = n + 1)))) := by
  cases c with
  | source e =>
      cases h
      exact ⟨le_rfl, rfl, .inl ⟨rfl, rfl⟩⟩
  | sort var key =>
      cases h
      exact ⟨Nat.le_succ _, rfl, .inr ⟨rfl, .inr ⟨rfl, rfl⟩⟩⟩
  | _ =>
      cases h
      exact ⟨le_rfl, rfl, .inr ⟨rfl, .inl rfl⟩⟩

theorem emitClauses_declared (h : emitClauses p run n = some (js, n')) :
    n ≤ n' ∧ eachLoads js = true ∧
      (∀ t ∈ declaredBy js, t = .p p ∨ (n ≤ t.number ∧ t.number < n' ∧ ∃ k, t = .k k)) ∧
      (declaredBy js).count (.p p) = run.countP Pipeline.isSource ∧
      ((declaredBy js).Nodup ↔ run.countP Pipeline.isSource ≤ 1) := by
  induction run generalizing n js with
  | nil =>
      cases h
      exact ⟨le_rfl, rfl, by rintro t ⟨⟩, rfl, by simp [declaredBy]⟩
  | cons c run ih =>
      rw [emitClauses] at h
      obtain ⟨s, n₁, hs, h⟩ := bind_eq_some.mp h
      obtain ⟨rest, n₂, hrest, h⟩ := bind_eq_some.mp h
      cases h
      obtain ⟨hle, hloads, hown⟩ := emitClause_declared hs
      obtain ⟨hle', hloads', hwithin, hcount, hnodup⟩ := ih hrest
      have hdeclared : declaredBy (s :: rest) = declared s ++ declaredBy rest := rfl
      have hwithin' : ∀ t ∈ declaredBy rest,
          t = .p p ∨ (n ≤ t.number ∧ t.number < n' ∧ ∃ k, t = .k k) := by
        intro t ht
        rcases hwithin t ht with rfl | ⟨hlow, hhigh, hk⟩
        · exact .inl rfl
        · exact .inr ⟨hle.trans hlow, hhigh, hk⟩
      refine ⟨hle.trans hle', by rw [eachLoads, hloads, hloads']; rfl, ?_⟩
      rw [hdeclared]
      rcases hown with ⟨hsource, hown⟩ | ⟨hsource, hown | ⟨hown, rfl⟩⟩
      · rw [hown, List.countP_cons_of_pos hsource]
        refine ⟨?_, by simp [hcount], ?_⟩
        · intro t ht
          rcases List.mem_cons.mp ht with rfl | ht
          · exact .inl rfl
          · exact hwithin' t ht
        · rw [List.singleton_append, List.nodup_cons, hnodup, ← List.count_eq_zero, hcount]
          omega
      · rw [hown, List.countP_cons_of_neg (by simp [hsource])]
        exact ⟨hwithin', hcount, hnodup⟩
      · rw [hown, List.countP_cons_of_neg (by simp [hsource])]
        have hfresh : Temporary.k n ∉ declaredBy rest := by
          intro hmem
          rcases hwithin _ hmem with heq | ⟨hlow, -, -⟩
          · cases heq
          · exact absurd hlow (Nat.not_succ_le_self n)
        refine ⟨?_, by simp [hcount], ?_⟩
        · intro t ht
          rcases List.mem_cons.mp ht with rfl | ht
          · exact .inr ⟨le_rfl, hle', n, rfl⟩
          · exact hwithin' t ht
        · rw [List.singleton_append, List.nodup_cons, hnodup]
          exact and_iff_right hfresh

theorem flush_declared (h : flush run n = some (js, n')) :
    Numbered n n' js ∧ eachLoads js = true ∧ ((declaredBy js).Nodup ↔ runDraws run = true) := by
  rw [flush] at h
  split_ifs at h with hempty
  · cases h
    obtain rfl := List.isEmpty_iff.mp hempty
    exact ⟨.none le_rfl rfl, rfl, by simp [declaredBy, runDraws]⟩
  · rw [emitRun] at h
    obtain ⟨p, n₁, hp, h⟩ := bind_eq_some.mp h
    cases hp
    split_ifs at h
    · obtain ⟨clauses, n₂, hclauses, h⟩ := bind_eq_some.mp h
      cases h
      obtain ⟨hle, hloads, hwithin, -, hnodup⟩ := emitClauses_declared hclauses
      have hdeclared : declaredBy (clauses ++ [.returnAccumulator n run]) = declaredBy clauses := by
        rw [declaredBy_append]
        exact List.append_nil _
      refine ⟨⟨by omega, ?_⟩, ?_, ?_⟩
      · intro t ht
        rw [hdeclared] at ht
        rcases hwithin t ht with rfl | ⟨hlow, hhigh, -⟩
        · exact ⟨le_rfl, hle⟩
        · omega
      · rw [eachLoads_append, hloads]
        rfl
      · rw [hdeclared, hnodup, runDraws, decide_eq_true_iff]
    · cases h

end Runs

section Bodies

structure Declares (n n' : Nat) (js : List (Js Expr Effect)) (draws : Bool) : Prop where
  numbered : Numbered n n' js
  nodup : (declaredBy js).Nodup
  loads : eachLoads js = draws

variable {js : List (Js Expr Effect)}

theorem Declares.none {n n' : Nat} {draws : Bool} (h : n ≤ n')
    (hnone : declaredBy js = []) (hloads : eachLoads js = draws) : Declares n n' js draws :=
  ⟨.none h hnone, by rw [hnone]; exact List.nodup_nil, hloads⟩

theorem blockLoads_eq (js : List (Js Expr Effect)) :
    blockLoads js = (decide (declaredBy js).Nodup && eachLoads js) := rfl

theorem eachLoads_singleton (s : Js Expr Effect) : eachLoads [s] = s.loads := by
  rw [eachLoads, eachLoads, Bool.and_true]

theorem constants_declare (bindings : List (Nat × Expr)) :
    declaredBy (bindings.map (fun binding => (.const binding.1 binding.2 : Js Expr Effect))) = [] ∧
      eachLoads (bindings.map (fun binding => (.const binding.1 binding.2 : Js Expr Effect)))
        = true := by
  induction bindings with
  | nil => exact ⟨rfl, rfl⟩
  | cons binding bindings ih => exact ⟨ih.1, ih.2⟩

theorem give_declares (e : Expr) :
    declaredBy [(give tail e : Js Expr Effect)] = [] ∧
      eachLoads [(give tail e : Js Expr Effect)] = true := by
  unfold give
  split_ifs
  · exact ⟨rfl, rfl⟩
  · exact ⟨rfl, rfl⟩
  · exact ⟨rfl, rfl⟩

mutual

theorem emitStmt_declares (s : Stmt Expr Effect) {n n' : Nat} {js : List (Js Expr Effect)}
    (h : emitStmt tail s n = some (js, n')) : Declares n n' js (stmtDraws s) := by
  match s with
  | .pipeline c => cases h
  | .mutation e =>
      cases h
      exact .none le_rfl rfl rfl
  | .bind bindings =>
      cases h
      exact .none le_rfl (constants_declare bindings).1 (constants_declare bindings).2
  | .give e =>
      cases h
      exact .none le_rfl (give_declares e).1 (give_declares e).2
  | .perform e =>
      cases h
      exact .none le_rfl rfl rfl
  | .each var iter body =>
      rw [emitStmt] at h
      obtain ⟨inner, n₁, hinner, h⟩ := bind_eq_some.mp h
      cases h
      obtain ⟨hle, hloads⟩ := emitBlock_declares body hinner
      refine .none hle.le rfl ?_
      rw [eachLoads_singleton, Js.loads, stmtDraws]
      exact hloads
  | .ifThen cond then_ none =>
      rw [emitStmt] at h
      obtain ⟨inner, n₁, hinner, h⟩ := bind_eq_some.mp h
      cases h
      obtain ⟨hle, hloads⟩ := emitBlock_declares then_ hinner
      refine .none hle.le rfl ?_
      rw [eachLoads_singleton, Js.loads, stmtDraws]
      exact hloads
  | .ifThen cond then_ (some otherwise) =>
      rw [emitStmt] at h
      obtain ⟨inner₁, n₁, hinner₁, h⟩ := bind_eq_some.mp h
      obtain ⟨inner₂, n₂, hinner₂, h⟩ := bind_eq_some.mp h
      cases h
      obtain ⟨hle₁, hloads₁⟩ := emitBlock_declares then_ hinner₁
      obtain ⟨hle₂, hloads₂⟩ := emitBlock_declares otherwise hinner₂
      refine .none (hle₁.le.trans hle₂.le) rfl ?_
      rw [eachLoads_singleton, Js.loads, stmtDraws, ← hloads₁, ← hloads₂]
      rfl
  | .when scrutinee as =>
      rw [emitStmt] at h
      obtain ⟨w, n₁, hw, h⟩ := bind_eq_some.mp h
      cases hw
      obtain ⟨cases_, n₂, hcases, h⟩ := bind_eq_some.mp h
      cases h
      obtain ⟨hle, hloads⟩ := emitArms_declares as hcases
      refine ⟨⟨by omega, ?_⟩, List.nodup_singleton _, ?_⟩
      · intro t ht
        obtain rfl := List.mem_singleton.mp ht
        exact ⟨le_rfl, hle⟩
      · rw [eachLoads_singleton, Js.loads, stmtDraws]
        exact hloads

theorem emitBlock_declares (stmts : Block Expr Effect) {n n' : Nat}
    {run : List (Pipeline Expr)} {js : List (Js Expr Effect)}
    (h : emitBlock tail run stmts n = some (js, n')) :
    Numbered n n' js ∧ blockLoads js = blockDraws run stmts := by
  match stmts with
  | [] =>
      rw [emitBlock] at h
      obtain ⟨hnumbered, hloads, hnodup⟩ := flush_declared h
      refine ⟨hnumbered, ?_⟩
      rw [blockLoads_eq, hloads, Bool.and_true, blockDraws, Bool.eq_iff_iff, decide_eq_true_iff]
      exact hnodup
  | s :: stmts =>
      by_cases hs : ∀ c, s ≠ .pipeline c
      · rw [emitBlock] at h
        · obtain ⟨before, n₁, hbefore, h⟩ := bind_eq_some.mp h
          obtain ⟨own, n₂, hown, h⟩ := bind_eq_some.mp h
          obtain ⟨after_, n₃, hafter, h⟩ := bind_eq_some.mp h
          cases h
          obtain ⟨hnumbered₁, hloads₁, hnodup₁⟩ := flush_declared hbefore
          obtain ⟨hnumbered₂, hnodup₂, hloads₂⟩ := emitStmt_declares s hown
          obtain ⟨hnumbered₃, hloads₃⟩ := emitBlock_declares stmts hafter
          have hrest := hnumbered₂.append hnumbered₃
          refine ⟨hnumbered₁.append hrest, ?_⟩
          rw [blockDraws]
          · rw [← hloads₃, ← hloads₂, blockLoads_eq, blockLoads_eq, eachLoads_append,
              eachLoads_append, hloads₁, Bool.true_and, Bool.eq_iff_iff]
            simp only [Bool.and_eq_true, decide_eq_true_iff,
              hnumbered₁.nodup_append hrest, hnumbered₂.nodup_append hnumbered₃, hnodup₁]
            tauto
          · exact hs
        · exact hs
      · obtain ⟨c, hc⟩ := not_forall.mp hs
        obtain rfl := not_not.mp hc
        rw [emitBlock] at h
        rw [blockDraws]
        exact emitBlock_declares stmts h

theorem emitArms_declares (as : List (Arm Expr Effect)) {n n' : Nat}
    {cases_ : List (Case Expr Effect)} (h : emitArms tail as n = some (cases_, n')) :
    n ≤ n' ∧ casesLoad cases_ = armsDraw as := by
  match as with
  | [] =>
      cases h
      exact ⟨le_rfl, rfl⟩
  | .mk name ids body :: rest =>
      rw [emitArms] at h
      obtain ⟨js, n₁, hbody, h⟩ := bind_eq_some.mp h
      obtain ⟨others, n₂, hothers, h⟩ := bind_eq_some.mp h
      cases h
      obtain ⟨hle₁, hloads₁⟩ := emitArmBody_declares body hbody
      obtain ⟨hle₂, hloads₂⟩ := emitArms_declares rest hothers
      refine ⟨hle₁.trans hle₂, ?_⟩
      rw [casesLoad, armsDraw, ← hloads₁, ← hloads₂]
      rfl

theorem emitArmBody_declares (body : ArmBody Expr Effect) {n n' : Nat}
    {js : List (Js Expr Effect)} (h : emitArmBody tail body n = some (js, n')) :
    n ≤ n' ∧ blockLoads js = armBodyDraws body := by
  match body with
  | .show_ e =>
      cases h
      refine ⟨le_rfl, ?_⟩
      rw [blockLoads_eq, (give_declares e).1, (give_declares e).2]
      rfl
  | .block stmts =>
      rw [emitArmBody] at h
      obtain ⟨inner, n₁, hinner, h⟩ := bind_eq_some.mp h
      cases h
      obtain ⟨hnumbered, hloads⟩ := emitBlock_declares stmts hinner
      refine ⟨hnumbered.le, ?_⟩
      have hdeclared : declaredBy (inner ++ [.break_]) = declaredBy inner := by
        rw [declaredBy_append]
        exact List.append_nil _
      rw [blockLoads_eq, hdeclared, eachLoads_append, armBodyDraws, ← hloads, blockLoads_eq]
      exact congrArg _ (Bool.and_true _)

end

theorem blockLoads_iff {body : Block Expr Effect}
    (h : emitBody tail body = some js) : blockLoads js = blockDraws [] body := by
  obtain ⟨⟨js', n⟩, hjs, rfl⟩ := Option.map_eq_some_iff.mp h
  exact (emitBlock_declares body hjs).2

end Bodies

end Bodies
end Zdeceptron
