import Mathlib.Algebra.Ring.Nat
import Zdeceptron.Instantiate.Quiet

/-!
# What a walk without errors did

A walk that ends without errors had none anywhere, so each node became what its kind becomes.
-/

namespace Zdeceptron
namespace Instantiate

open Bodies (Arg)

variable {Op Head : Type}

section Relations

/-- One step for each of a list, each from where the one before ended. -/
inductive Chained {α β : Type} (R : α → Pass Op Head → β → Pass Op Head → Prop) :
    List α → Pass Op Head → List β → Pass Op Head → Prop
  | nil (s : Pass Op Head) : Chained R [] s [] s
  | cons {a : α} {as : List α} {b : β} {bs : List β} {s s' s'' : Pass Op Head} :
      R a s b s' → Chained R as s' bs s'' → Chained R (a :: as) s (b :: bs) s''

variable (hir : Hir Op Head) (room : Nat) (runs : Runs Op Head)

/-- What became of an element that is no component, and of one that is. -/
inductive WalksElement : HirElement Op Head → Pass Op Head → List (HirNode Op Head) →
    Pass Op Head → Prop
  | element {name : String} {res : Res} {args args' : List (Arg (HirExpr Op))}
      {children : List (HirNode Op Head)} {span : Span} {s s₁ : Pass Op Head} :
      component_of hir res = none → Quiet s s₁ → (runs children s₁).2.errors = [] →
      WalksElement (.mk name res args children span) s
        [.element (.mk name res args' (runs children s₁).1 span)] (runs children s₁).2
  | call {element : HirElement Op Head} {id : Nat} {component : Component Op Head}
      {params : Nat → Option (HirExpr Op)} {locals : List (LocalSignal Op Head)}
      {s s₁ s₂ : Pass Op Head} :
      component_of hir element.res = some (id, component) → s.expansions < INSTANCE_BUDGET →
      Quiet { s with expansions := s.expansions + 1 } s₁ →
      (runs element.children s₁).2.errors = [] →
      Quiet ((runs element.children s₁).2.inside id params (runs element.children s₁).1) s₂ →
      (runs component.body s₂).2.errors = [] → locals.isEmpty = component.states.isEmpty →
      WalksElement element s
        (if locals.isEmpty then (runs component.body s₂).1
          else [.scope locals (runs component.body s₂).1 element.span])
        { (runs component.body s₂).2 with
          frame := (runs element.children s₁).2.frame
          stack := (runs element.children s₁).2.stack }

inductive WalksArm : HirNodeArm Op Head → Pass Op Head → HirNodeArm Op Head →
    Pass Op Head → Prop
  | show_ {pattern : String} {bindings bindings' : List Nat} {element : HirElement Op Head}
      {shown : List (HirNode Op Head)} {s s₁ s' : Pass Op Head} :
      Quiet s s₁ → WalksElement hir runs element s₁ shown s' → Keeps room s s' →
      WalksArm (.show_ pattern bindings element) s (shownArm pattern bindings' shown) s'
  | nodes {pattern : String} {bindings bindings' : List Nat} {ns : List (HirNode Op Head)}
      {s s₁ : Pass Op Head} :
      Quiet s s₁ → (runs ns s₁).2.errors = [] → Keeps room s (runs ns s₁).2 →
      WalksArm (.nodes pattern bindings ns) s (.nodes pattern bindings' (runs ns s₁).1)
        (runs ns s₁).2

inductive Walks : HirNode Op Head → Pass Op Head → List (HirNode Op Head) → Pass Op Head → Prop
  | element {element : HirElement Op Head} {out : List (HirNode Op Head)} {s s' : Pass Op Head} :
      WalksElement hir runs element s out s' → Walks (.element element) s out s'
  | each {var var' : Nat} {iter iter' : HirExpr Op} {body : List (HirNode Op Head)} {span : Span}
      {s s₁ : Pass Op Head} :
      Quiet s s₁ → (runs body s₁).2.errors = [] →
      Walks (.each var iter body span) s [.each var' iter' (runs body s₁).1 span] (runs body s₁).2
  | when {scrutinee scrutinee' : HirExpr Op} {arms arms' : List (HirNodeArm Op Head)}
      {span : Span} {s s₁ s' : Pass Op Head} :
      Quiet s s₁ → Chained (WalksArm hir room runs) arms s₁ arms' s' →
      Walks (.when scrutinee arms span) s [.when scrutinee' arms' span] s'
  | ifThen {cond cond' : HirExpr Op} {then_ : List (HirNode Op Head)} {span : Span}
      {s s₁ : Pass Op Head} :
      Quiet s s₁ → (runs then_ s₁).2.errors = [] →
      Walks (.ifThen cond then_ none span) s [.ifThen cond' (runs then_ s₁).1 none span]
        (runs then_ s₁).2
  | ifElse {cond cond' : HirExpr Op} {then_ otherwise : List (HirNode Op Head)} {span : Span}
      {s s₁ : Pass Op Head} :
      Quiet s s₁ → (runs then_ s₁).2.errors = [] →
      (runs otherwise (runs then_ s₁).2).2.errors = [] →
      Walks (.ifThen cond then_ (some otherwise) span) s
        [.ifThen cond' (runs then_ s₁).1 (some (runs otherwise (runs then_ s₁).2).1) span]
        (runs otherwise (runs then_ s₁).2).2
  | handler {event : String} {payload payload' : Option Nat} {body body' : List (HirStmt Op)}
      {span : Span} {s s₁ : Pass Op Head} :
      Quiet s s₁ →
      Walks (.handler event payload body span) s [.handler event payload' body' span] s₁
  | children {span : Span} {s : Pass Op Head} : Walks (.children span) s s.frame.children s
  | scope {locals locals' : List (LocalSignal Op Head)} {body : List (HirNode Op Head)}
      {span : Span} {s s₁ : Pass Op Head} :
      Quiet s s₁ → (runs body s₁).2.errors = [] →
      Walks (.scope locals body span) s [.scope locals' (runs body s₁).1 span] (runs body s₁).2

end Relations

section Chains

variable {α β : Type} {R : α → Pass Op Head → β → Pass Op Head → Prop}
  {P : Pass Op Head → Prop}

variable {s s' : Pass Op Head} {as : List α} {bs : List β}

theorem Chained.mem (h : Chained R as s bs s')
    (hkeeps : ∀ {a s b s'}, P s → R a s b s' → P s') (hs : P s) {a : α} (ha : a ∈ as) :
    ∃ s₁ b s₂, P s₁ ∧ R a s₁ b s₂ := by
  induction h with
  | nil s => cases ha
  | cons hone _ ih =>
      rcases List.mem_cons.mp ha with rfl | ha
      · exact ⟨_, _, _, hs, hone⟩
      · exact ih (hkeeps hs hone) ha

theorem Chained.mem_out
    (h : Chained R as s bs s') (hkeeps : ∀ {a s b s'}, P s → R a s b s' → P s') (hs : P s) {b : β}
    (hb : b ∈ bs) : ∃ a s₁ s₂, P s₁ ∧ R a s₁ b s₂ := by
  induction h with
  | nil s => cases hb
  | cons hone _ ih =>
      rcases List.mem_cons.mp hb with rfl | hb
      · exact ⟨_, _, _, hs, hone⟩
      · exact ih (hkeeps hs hone) hb

theorem Chained.forall₂ {Q : α → β → Prop}
    (h : Chained R as s bs s') (hkeeps : ∀ {a s b s'}, P s → R a s b s' → P s')
    (hone : ∀ {a s b s'}, P s → R a s b s' → Q a b) (hs : P s) : List.Forall₂ Q as bs := by
  induction h with
  | nil s => exact List.Forall₂.nil
  | cons hr _ ih => exact List.Forall₂.cons (hone hs hr) (ih (hkeeps hs hr))

theorem Chained.sum (count : Pass Op Head → Nat) {v : α → Nat} {w : β → Nat}
    (h : Chained R as s bs s') (hkeeps : ∀ {a s b s'}, P s → R a s b s' → P s')
    (hone : ∀ {a s b s'}, P s → R a s b s' → w b + count s ≤ v a + count s') (hs : P s) :
    (bs.map w).sum + count s ≤ (as.map v).sum + count s' := by
  induction h with
  | nil s => simp
  | cons hr _ ih =>
      have hhead := hone hs hr
      have htail := ih (hkeeps hs hr)
      simp only [List.map_cons, List.sum_cons]
      omega

end Chains

section Inversion

variable {hir : Hir Op Head} {runs : Runs Op Head} {room : Nat}

theorem errors_nil {s s' : Pass Op Head} (h : s.errors <+: s'.errors) (hs : s'.errors = []) :
    s.errors = [] := by
  rwa [hs, List.prefix_nil] at h

theorem Quiet.told {s s' : Pass Op Head} (h : Quiet s s') (ht : Told s) : Told s' :=
  (h.keeps : Keeps 0 s s').told ht

theorem eachOf_chained {α β : Type} {f : α → Step Op Head β}
    {R : α → Pass Op Head → β → Pass Op Head → Prop}
    (hkeeps : ∀ a s, Keeps room s (f a s).2)
    (hone : ∀ a s, Told s → (f a s).2.errors = [] → R a s (f a s).1 (f a s).2) :
    ∀ (as : List α) (s : Pass Op Head), Told s → (eachOf f as s).2.errors = [] →
      Chained R as s (eachOf f as s).1 (eachOf f as s).2
  | [], s, _, _ => Chained.nil s
  | a :: as, s, htold, hok => by
      have hrest : Keeps room (f a s).2 _ := eachOf_keeps (fun b (_ : b ∈ as) => hkeeps b) _
      exact Chained.cons (hone a s htold (errors_nil hrest.errors hok))
        (eachOf_chained hkeeps hone as _ ((hkeeps a s).told htold) hok)

theorem eachOf_length {α β : Type} {f : α → Step Op Head β} : ∀ (as : List α) (s : Pass Op Head),
    (eachOf f as s).1.length = as.length
  | [], _ => rfl
  | a :: as, s => by simp [eachOf, eachOf_length as]

variable {component : Component Op Head} {s : Pass Op Head} {name : String}

theorem bindArgument_failed {b : Binding Op}
    {a : Arg (HirExpr Op)} (h : b.failed = true → s.errors ≠ [])
    (hfailed : (bindArgument name component b a s).1.failed = true) :
    (bindArgument name component b a s).2.errors ≠ [] := by
  cases a with
  | positional e =>
      simp only [bindArgument] at hfailed ⊢
      cases hparam : component.params[b.positional]? with
      | none => simp [Pass.report]
      | some param =>
          simp only [hparam] at hfailed
          exact errors_ne_nil (expr_quiet e s).errors (h hfailed)
  | named written e =>
      simp only [bindArgument] at hfailed ⊢
      cases hparam : component.params.find? fun param => s.localName param == written with
      | none => simp [Pass.report]
      | some param =>
          simp only [hparam] at hfailed ⊢
          split_ifs at hfailed ⊢
          · simp [Pass.report]
          · exact errors_ne_nil (expr_quiet e s).errors (h hfailed)

theorem bindArguments_failed :
    ∀ {args : List (Arg (HirExpr Op))} {b : Binding Op} {s : Pass Op Head},
      (b.failed = true → s.errors ≠ []) →
      (bindArguments name component args b s).1.failed = true →
      (bindArguments name component args b s).2.errors ≠ []
  | [], _, _, h, hfailed => h hfailed
  | a :: args, b, s, h, hfailed => by
      rw [bindArguments] at hfailed ⊢
      exact bindArguments_failed (fun hb => bindArgument_failed h hb) hfailed

theorem bind_arguments_none {args : List (Arg (HirExpr Op))}
    (h : (bind_arguments name component args s).1 = none) :
    (bind_arguments name component args s).2.errors ≠ [] := by
  unfold bind_arguments at h ⊢
  simp only [] at h ⊢
  split_ifs at h ⊢ with hmissing hfailed
  · exact bindArguments_failed (by simp) hfailed
  · simp [Pass.report]

variable {element : HirElement Op Head}

theorem splice_walks (hruns : RunsKeep room runs) {id : Nat}
    {params : Nat → Option (HirExpr Op)} {s s₁ : Pass Op Head}
    (hres : component_of hir element.res = some (id, component))
    (hbudget : s.expansions < INSTANCE_BUDGET)
    (hquiet : Quiet { s with expansions := s.expansions + 1 } s₁)
    (hok : (splice hir runs id component element params s₁).2.errors = []) :
    WalksElement hir runs element s (splice hir runs id component element params s₁).1
      (splice hir runs id component element params s₁).2 := by
  simp only [splice] at hok ⊢
  by_cases htakes : (!(runs element.children s₁).1.isEmpty && !component.takesChildren) = true
  · rw [if_pos htakes] at hok
    simp [Pass.report] at hok
  rw [if_neg htakes] at hok ⊢
  have hlocals := local_signals_quiet component.states
    ((runs element.children s₁).2.inside id params (runs element.children s₁).1)
  have hempty : (copyBody runs id component params (runs element.children s₁).1
      (runs element.children s₁).2).1.1.isEmpty = component.states.isEmpty := by
    rw [Bool.eq_iff_iff, List.isEmpty_iff_length_eq_zero, List.isEmpty_iff_length_eq_zero]
    exact (eachOf_length component.states _).congr_left
  have hcall := fun hbody => WalksElement.call hres hbudget hquiet
    (errors_nil (hlocals.errors.trans (hruns component.body _).errors) hbody) hlocals hbody hempty
  by_cases hnone : (copyBody runs id component params (runs element.children s₁).1
      (runs element.children s₁).2).1.1.isEmpty = true
  · rw [if_pos hnone] at hok hcall ⊢
    exact hcall hok
  · rw [if_neg hnone] at hok hcall ⊢
    exact hcall hok

theorem expand_walks (hruns : RunsKeep room runs) {id : Nat} (htold : Told s)
    (hres : component_of hir element.res = some (id, component))
    (hok : (expand hir runs id component element s).2.errors = []) :
    WalksElement hir runs element s (expand hir runs id component element s).1
      (expand hir runs id component element s).2 := by
  unfold expand at hok ⊢
  by_cases hstack : s.stack.contains id = true
  · rw [if_pos hstack] at hok
    simp [Pass.report] at hok
  rw [if_neg hstack] at hok ⊢
  simp only [] at hok ⊢
  by_cases hbudget : INSTANCE_BUDGET < s.expansions + 1
  · rw [if_pos hbudget] at hok
    split_ifs at hok with hfirst
    · simp [Pass.report] at hok
    · exact absurd hok (htold.budget (by omega))
  rw [if_neg hbudget] at hok ⊢
  cases hparams : (bind_arguments (hir.name id) component element.args
      { s with expansions := s.expansions + 1 }).1 with
  | none =>
      -- a call that binds nothing is told of
      simp only [hparams] at hok
      exact absurd hok (bind_arguments_none hparams)
  | some params =>
      simp only [hparams] at hok
      exact splice_walks hruns hres (by omega) (bind_arguments_quiet _ _ _ _) hok

theorem elementNode_walks (hruns : RunsKeep room runs) (element : HirElement Op Head)
    (htold : Told s) (hok : (elementNode hir runs element s).2.errors = []) :
    WalksElement hir runs element s (elementNode hir runs element s).1
      (elementNode hir runs element s).2 := by
  obtain ⟨name, res, args, children, span⟩ := element
  unfold elementNode at hok ⊢
  simp only [] at hok ⊢
  cases hres : component_of hir res with
  | some call =>
      simp only [hres] at hok
      exact expand_walks hruns htold hres hok
  | none =>
      simp only [hres] at hok
      exact WalksElement.element hres (args_quiet args s) hok

theorem nodeArm_walks (hruns : RunsKeep room runs) (arm : HirNodeArm Op Head) (s : Pass Op Head)
    (htold : Told s) (hok : (nodeArm hir runs arm s).2.errors = []) :
    WalksArm hir room runs arm s (nodeArm hir runs arm s).1 (nodeArm hir runs arm s).2 := by
  have hkeeps : Keeps room s (nodeArm hir runs arm s).2 := nodeArm_keeps hruns arm s
  cases arm with
  | show_ pattern bindings element =>
      have hquiet := rebinds_quiet bindings s
      exact WalksArm.show_ hquiet
        (elementNode_walks hruns element (hquiet.told htold) hok) hkeeps
  | nodes pattern bindings ns => exact WalksArm.nodes (rebinds_quiet bindings s) hok hkeeps

theorem node_walks (hruns : RunsKeep room runs) (n : HirNode Op Head) (s : Pass Op Head)
    (htold : Told s) (hok : (node hir runs n s).2.errors = []) :
    Walks hir room runs n s (node hir runs n s).1 (node hir runs n s).2 := by
  cases n with
  | element element => exact Walks.element (elementNode_walks hruns element htold hok)
  | each var iter body span =>
      exact Walks.each ((expr_quiet iter s).trans (rebind_quiet var _)) hok
  | when scrutinee arms span =>
      have hquiet := expr_quiet scrutinee s
      exact Walks.when hquiet (eachOf_chained (fun arm => nodeArm_keeps hruns arm)
        (nodeArm_walks hruns) arms _ (hquiet.told htold) hok)
  | ifThen cond then_ otherwise span =>
      cases otherwise with
      | none => exact Walks.ifThen (expr_quiet cond s) hok
      | some otherwise =>
          exact Walks.ifElse (expr_quiet cond s)
            (errors_nil (hruns otherwise _).errors hok) hok
  | handler event payload body span =>
      exact Walks.handler ((optionally_quiet rebind_quiet payload s).trans (block_quiet body _))
  | children span => exact Walks.children
  | scope locals body span => exact Walks.scope (local_signals_quiet locals s) hok

theorem nodes_walks {ns : List (HirNode Op Head)} (hfits : Fits room s)
    (htold : Told s) (hok : (nodes hir room ns s).2.errors = []) :
    ∃ room' outs s', room = room' + 1 ∧ s.depth < MAX_NODE_DEPTH ∧
      Chained (fun n s out s' => Walks hir room' (nodes hir room') n s out s' ∧
        Keeps room' s s') ns { s with depth := s.depth + 1 } outs s' ∧
      nodes hir room ns s = (outs.flatten, { s' with depth := s'.depth - 1 }) := by
  cases room with
  | zero =>
      unfold Fits at hfits
      omega
  | succ room =>
      unfold nodes at hok ⊢
      by_cases hdepth : MAX_NODE_DEPTH ≤ s.depth
      · rw [if_pos hdepth] at hok
        unfold reportDepth at hok
        split_ifs at hok with hreported
        · exact absurd hok (htold.depth hreported)
        · simp [Pass.report] at hok
      rw [if_neg hdepth] at hok ⊢
      refine ⟨room, _, _, rfl, by omega, ?_, rfl⟩
      exact eachOf_chained (fun n => node_keeps (nodes_keeps room) n)
        (fun n s htold hok => ⟨node_walks (nodes_keeps room) n s htold hok,
          node_keeps (nodes_keeps room) n s⟩) ns _ ⟨htold.depth, htold.budget⟩ hok

end Inversion

end Instantiate
end Zdeceptron
