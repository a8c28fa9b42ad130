import Zdeceptron.Bodies.Walked

/-!
# Bodies that are accepted
-/

namespace Zdeceptron
namespace Bodies

open Types Library

variable {Expr Effect : Type} {I : Inference Expr Effect} {c c' : Checker}

section Clauses

variable {run : List (Pipeline Expr)} {last : Option (List (Pipeline Expr))} {flow : Flow}
  {element : Option Ty}

theorem Later.report (h : Later I.choices c c') (herr : c.errors ≠ []) : c'.errors ≠ [] :=
  fun herr' => herr (h.errors herr')

theorem Checker.holds_unknown (herr : c.errors ≠ []) : c.Holds .unknown :=
  ⟨by rintro v ⟨⟩, fun h => absurd h herr⟩

theorem Carries.unbound (h : Carries I c run last flow element) (hlater : Later I.choices c c')
    (herr : c'.errors ≠ []) (cl : Pipeline Expr) :
    Carries I c' (run ++ [cl]) last { flow with pipeline := some .unknown } element := by
  refine .of_report herr ?_ (fun t ht => (h.elementHolds t ht).later hlater)
  rintro t ⟨⟩
  exact Checker.holds_unknown herr

theorem clause_spec (hc : c.WellFormed) (h : Carries I c run last flow element)
    {cl : Pipeline Expr} (hfolded : cl.isSource = false → flow.folded = false) :
    Advances (Later I.choices) (clause I flow element cl) c (fun out c' =>
      Carries I c' (run ++ [cl]) last out.1 out.2 ∧ out.1.alwaysGives = flow.alwaysGives) := by
  cases cl with
  | source e =>
      refine (expr_spec hc e).bind ?_
      rintro _ c₁ hlater₁ ⟨rfl, he⟩
      refine (fresh_spec hlater₁.wellFormed).bind ?_
      intro item c₂ hlater₂ hitem
      refine (expect_spec hlater₂.wellFormed (he.later hlater₂) hitem.list).bind ?_
      intro _ c₃ hlater₃ htype
      have hlater := (hlater₁.trans hlater₂).trans hlater₃
      exact .pure (.refl hlater₃.wellFormed)
        ⟨h.source hlater (hitem.later hlater₃) (fun hσ => htype hσ) _, rfl⟩
  | keep var cond =>
      refine (pipelineBinder_spec hc var h.elementHolds).bind ?_
      rintro ⟨bound, flow₁⟩ c₁ hlater₁ hbound
      refine (expr_spec hlater₁.wellFormed cond).bind ?_
      rintro _ c₂ hlater₂ ⟨rfl, hcond⟩
      rcases hbound with ⟨heq, -⟩ | ⟨heq, herr⟩
      · cases heq
        refine (expect_spec hlater₂.wellFormed hcond (Checker.holds_closed rfl rfl)).bind ?_
        intro _ c₃ hlater₃ htype
        have hlater := (hlater₁.trans hlater₂).trans hlater₃
        refine .pure (.refl hlater₃.wellFormed) ⟨?_, rfl⟩
        refine h.extend hlater rfl (hfolded rfl) (fun t ht => (h.flowHolds t ht).later hlater)
          (fun t ht => (h.elementHolds t ht).later hlater) ?_
        intro σ item p hσ hitem hrun hp hptype
        exact ⟨⟨⟨_, hrun⟩, htype hσ⟩, ⟨p, hp, hptype⟩, fun _ => ⟨item, hitem, hrun⟩⟩
      · cases heq
        have hlater := hlater₁.trans hlater₂
        exact .pure (.refl hlater₂.wellFormed) ⟨h.unbound hlater (hlater₂.report herr) _, rfl⟩
  | sort var key =>
      refine (pipelineBinder_spec hc var h.elementHolds).bind ?_
      rintro ⟨bound, flow₁⟩ c₁ hlater₁ hbound
      refine (expr_spec hlater₁.wellFormed key).bind ?_
      rintro _ c₂ hlater₂ ⟨rfl, -⟩
      have hlater := hlater₁.trans hlater₂
      rcases hbound with ⟨heq, -⟩ | ⟨heq, herr⟩
      · cases heq
        refine .pure (.refl hlater₂.wellFormed) ⟨?_, rfl⟩
        refine h.extend hlater rfl (hfolded rfl) (fun t ht => (h.flowHolds t ht).later hlater)
          (fun t ht => (h.elementHolds t ht).later hlater) ?_
        intro σ item p hσ hitem hrun hp hptype
        exact ⟨⟨_, hrun⟩, ⟨p, hp, hptype⟩, fun _ => ⟨item, hitem, hrun⟩⟩
      · cases heq
        exact .pure (.refl hlater₂.wellFormed) ⟨h.unbound hlater (hlater₂.report herr) _, rfl⟩
  | mapEach var mapped =>
      refine (pipelineBinder_spec hc var h.elementHolds).bind ?_
      rintro ⟨bound, flow₁⟩ c₁ hlater₁ hbound
      refine (expr_spec hlater₁.wellFormed mapped).bind ?_
      rintro _ c₂ hlater₂ ⟨rfl, hmapped⟩
      have hlater := hlater₁.trans hlater₂
      rcases hbound with ⟨heq, -⟩ | ⟨heq, herr⟩
      · cases heq
        refine .pure (.refl hlater₂.wellFormed) ⟨?_, rfl⟩
        refine h.extend hlater rfl (hfolded rfl) ?_ ?_ ?_
        · rintro t ⟨⟩
          exact hmapped.list
        · rintro t ⟨⟩
          exact hmapped
        · intro σ item p _ _ hrun _ _
          exact ⟨⟨_, hrun⟩, ⟨_, rfl, rfl⟩, fun _ => ⟨_, rfl, rfl⟩⟩
      · cases heq
        exact .pure (.refl hlater₂.wellFormed) ⟨h.unbound hlater (hlater₂.report herr) _, rfl⟩
  | fold item total starting step =>
      refine (expr_spec hc starting).bind ?_
      rintro _ c₁ hlater₁ ⟨rfl, hseed⟩
      refine (bindLocal_spec hlater₁.wellFormed total hseed.inScope).bind ?_
      intro _ c₂ hlater₂ _
      have hlater := hlater₁.trans hlater₂
      refine (pipelineBinder_spec hlater₂.wellFormed item
        (fun t ht => (h.elementHolds t ht).later hlater)).bind ?_
      rintro ⟨bound, flow₁⟩ c₃ hlater₃ hbound
      refine (expr_spec hlater₃.wellFormed step).bind ?_
      rintro _ c₄ hlater₄ ⟨rfl, hstep⟩
      have hlater := (hlater.trans hlater₃).trans hlater₄
      rcases hbound with ⟨heq, -⟩ | ⟨heq, herr⟩
      · cases heq
        have hseed := ((hseed.later hlater₂).later hlater₃).later hlater₄
        refine (expect_spec hlater₄.wellFormed hstep hseed).bind ?_
        intro _ c₅ hlater₅ htype
        refine .pure (.refl hlater₅.wellFormed) ⟨?_, rfl⟩
        refine h.extend (hlater.trans hlater₅) rfl (hfolded rfl) ?_ (by rintro t ⟨⟩) ?_
        · rintro t ⟨⟩
          exact hseed.later hlater₅
        · intro σ item p hσ _ hrun _ _
          refine ⟨⟨⟨_, hrun⟩, htype hσ⟩, ⟨_, rfl, rfl⟩, ?_⟩
          rintro ⟨⟩
      · cases heq
        exact .pure (.refl hlater₄.wellFormed) ⟨h.unbound hlater (hlater₄.report herr) _, rfl⟩
  | takeFirst count =>
      refine (expr_spec hc count).bind ?_
      rintro _ c₁ hlater₁ ⟨rfl, hcount⟩
      refine (expect_spec hlater₁.wellFormed hcount (Checker.holds_closed rfl rfl)).bind ?_
      intro _ c₂ hlater₂ htype
      have hlater := hlater₁.trans hlater₂
      refine .pure (.refl hlater₂.wellFormed) ⟨?_, rfl⟩
      refine h.extend hlater rfl (hfolded rfl) (fun t ht => (h.flowHolds t ht).later hlater)
        (fun t ht => (h.elementHolds t ht).later hlater) ?_
      intro σ item p hσ hitem hrun hp hptype
      exact ⟨⟨⟨_, hrun⟩, htype hσ⟩, ⟨p, hp, hptype⟩, fun _ => ⟨item, hitem, hrun⟩⟩

theorem pipeline_spec (hc : c.WellFormed) (h : Carries I c run last flow element)
    (cl : Pipeline Expr) :
    Advances (Later I.choices) (pipeline I flow element cl) c (fun out c' =>
      Carries I c' (run ++ [cl]) last out.1 out.2 ∧ out.1.alwaysGives = flow.alwaysGives) := by
  unfold pipeline
  split_ifs with hfolded
  · refine (coded_spec hc .pipelineSource).bind ?_
    intro _ c₁ hlater₁ herr
    have h₁ : Carries I c₁ run last { flow with folded := false } (some .unknown) := by
      refine .of_report herr (fun t ht => (h.flowHolds t ht).later hlater₁) ?_
      rintro t ⟨⟩
      exact Checker.holds_unknown herr
    exact clause_spec hlater₁.wellFormed h₁ (fun _ => rfl)
  · refine clause_spec hc h ?_
    intro hcl
    simpa [hcl] using hfolded

theorem bindEach_spec (hc : c.WellFormed) (bindings : List (Nat × Expr)) :
    Advances (Later I.choices) (bindEach I bindings) c (fun _ _ => True) := by
  induction bindings generalizing c with
  | nil => exact .pure (.refl hc) trivial
  | cons binding bindings ih =>
      refine (expr_spec hc binding.2).bind ?_
      rintro _ c₁ hlater₁ ⟨rfl, ht⟩
      refine (bindLocal_spec hlater₁.wellFormed binding.1 ht.inScope).bind ?_
      intro _ c₂ hlater₂ _
      exact ih hlater₂.wellFormed

end Clauses

section Statements

def Stmt.Walked (I : Inference Expr Effect) (result : Ty) (s : Stmt Expr Effect) (flow : Flow)
    (element : Option Ty) (out : Flow × Option Ty) (c : Checker) : Prop :=
  ∃ gives, out = ({ flow with alwaysGives := gives }, element) ∧
    ∀ {σ : Nat → Ty}, Completed I.choices σ c → StmtTyped I σ (result.subst σ) s ∧
      (gives = true → flow.alwaysGives = true ∨ stmtReturns s = true)

/-- What a block has left behind, after the clauses of `run`. -/
structure BlockWalked (I : Inference Expr Effect) (result : Ty) (stmts : Block Expr Effect)
    (last : Option (List (Pipeline Expr))) (run : List (Pipeline Expr)) (flow flow' : Flow)
    (c : Checker) : Prop where
  flowHolds : ∀ t, flow'.pipeline = some t → c.Holds t
  typed : ∀ {σ : Nat → Ty}, Completed I.choices σ c → BlockTyped I σ (result.subst σ) run stmts
  gives : ∀ {σ : Nat → Ty}, Completed I.choices σ c → flow'.alwaysGives = true →
    flow.alwaysGives = true ∨ blockReturns stmts = true
  pipeline : flow'.pipeline ≠ none → flow.pipeline ≠ none ∨ blockReturns stmts = true
  lastTyped : ∀ {σ : Nat → Ty}, Completed I.choices σ c → ∀ r, lastRun last run stmts = some r →
    startsWithSource r = true → ∃ p, flow'.pipeline = some p ∧ p.subst σ = runType I σ r

/-- What the arms of a `when` have left behind. -/
structure ArmsWalked (I : Inference Expr Effect) (result : Ty) (as : List (Arm Expr Effect))
    (out : Bool × List PendingArm) (c : Checker) : Prop where
  names : out.2.map PendingArm.name = as.map Arm.name
  typed : ∀ {σ : Nat → Ty}, Completed I.choices σ c → ArmsTyped I σ (result.subst σ) as
  gives : ∀ {σ : Nat → Ty}, Completed I.choices σ c → out.1 = true → armsReturn as = true

variable {result : Ty}

mutual

theorem stmt_spec (s : Stmt Expr Effect) (hs : ∀ cl, s ≠ .pipeline cl) {c : Checker}
    (hc : c.WellFormed) (hresult : c.Holds result) (flow : Flow) (element : Option Ty) :
    Advances (Later I.choices) (stmt I result flow element s) c
      (fun out c' => s.Walked I result flow element out c') := by
  cases s with
  | pipeline cl => exact absurd rfl (hs cl)
  | mutation e =>
      rw [stmt]
      refine (mutation_spec hc e).bind ?_
      intro _ c₁ hlater₁ _
      exact .pure (.refl hlater₁.wellFormed) ⟨_, rfl, fun _ => ⟨trivial, .inl⟩⟩
  | bind bindings =>
      rw [stmt]
      refine (bindEach_spec hc bindings).bind ?_
      intro _ c₁ hlater₁ _
      exact .pure (.refl hlater₁.wellFormed) ⟨_, rfl, fun _ => ⟨trivial, .inl⟩⟩
  | give e =>
      rw [stmt]
      refine (expr_spec hc e).bind ?_
      rintro _ c₁ hlater₁ ⟨rfl, he⟩
      refine (expect_spec hlater₁.wellFormed he (hresult.later hlater₁)).bind ?_
      intro _ c₂ hlater₂ htype
      refine .pure (.refl hlater₂.wellFormed) ⟨_, rfl, ?_⟩
      exact fun hσ => ⟨htype hσ, fun _ => .inr rfl⟩
  | perform e =>
      rw [stmt]
      refine (call_spec hc e).bind ?_
      intro _ c₁ hlater₁ _
      have hdone : ∀ {c' : Checker}, c'.WellFormed → Advances (Later I.choices)
          (pure (flow, element)) c' (fun out c'' => Stmt.Walked I result (.perform e) flow element
            out c'') :=
        fun hc' => .pure (.refl hc') ⟨_, rfl, fun _ => ⟨trivial, .inl⟩⟩
      split
      · exact hdone hlater₁.wellFormed
      · exact hdone hlater₁.wellFormed
      · refine (coded_spec hlater₁.wellFormed .doGivesNothing).bind ?_
        intro _ c₂ hlater₂ _
        exact hdone hlater₂.wellFormed
  | each var iter body =>
      rw [stmt]
      refine (expr_spec hc iter).bind ?_
      rintro _ c₁ hlater₁ ⟨rfl, hiter⟩
      refine (fresh_spec hlater₁.wellFormed).bind ?_
      intro item c₂ hlater₂ hitem
      refine (expect_spec hlater₂.wellFormed (hiter.later hlater₂) hitem.list).bind ?_
      intro _ c₃ hlater₃ htype
      refine (bindLocal_spec hlater₃.wellFormed var (hitem.later hlater₃).inScope).bind ?_
      intro _ c₄ hlater₄ _
      have hlater := ((hlater₁.trans hlater₂).trans hlater₃).trans hlater₄
      refine (block_spec body hlater₄.wellFormed (hresult.later hlater) .start).bind ?_
      intro flow' c₅ hlater₅ hbody
      refine .pure (.refl hlater₅.wellFormed) ⟨_, rfl, ?_⟩
      intro σ hσ
      refine ⟨?_, .inl⟩
      rw [StmtTyped]
      have hσ₃ := (hσ.of_later hlater₅).of_later hlater₄
      exact ⟨⟨_, htype hσ₃⟩, hbody.typed hσ⟩
  | ifThen cond then_ otherwise =>
      cases otherwise with
      | none =>
          rw [stmt]
          refine (expr_spec hc cond).bind ?_
          rintro _ c₁ hlater₁ ⟨rfl, hcond⟩
          refine (expect_spec hlater₁.wellFormed hcond (Checker.holds_closed rfl rfl)).bind ?_
          intro _ c₂ hlater₂ htype
          have hlater := hlater₁.trans hlater₂
          refine (block_spec then_ hlater₂.wellFormed (hresult.later hlater) .start).bind ?_
          intro flow' c₃ hlater₃ hthen
          refine .pure (.refl hlater₃.wellFormed) ⟨_, rfl, ?_⟩
          intro σ hσ
          refine ⟨?_, .inl⟩
          rw [StmtTyped]
          exact ⟨htype (hσ.of_later hlater₃), hthen.typed hσ⟩
      | some otherwise =>
          rw [stmt]
          refine (expr_spec hc cond).bind ?_
          rintro _ c₁ hlater₁ ⟨rfl, hcond⟩
          refine (expect_spec hlater₁.wellFormed hcond (Checker.holds_closed rfl rfl)).bind ?_
          intro _ c₂ hlater₂ htype
          have hlater := hlater₁.trans hlater₂
          refine (block_spec then_ hlater₂.wellFormed (hresult.later hlater) .start).bind ?_
          intro flow₁ c₃ hlater₃ hthen
          have hlater := hlater.trans hlater₃
          refine (block_spec otherwise hlater₃.wellFormed (hresult.later hlater) .start).bind ?_
          intro flow₂ c₄ hlater₄ hotherwise
          refine .pure (.refl hlater₄.wellFormed) ⟨_, rfl, ?_⟩
          intro σ hσ
          have hσ₃ := hσ.of_later hlater₄
          rw [StmtTyped]
          refine ⟨⟨htype (hσ₃.of_later hlater₃), hthen.typed hσ₃, hotherwise.typed hσ⟩, ?_⟩
          intro hgives
          rcases Bool.or_eq_true_iff.mp hgives with hgives | hgives
          · exact .inl hgives
          · obtain ⟨hgives₁, hgives₂⟩ := Bool.and_eq_true_iff.mp hgives
            refine .inr ?_
            rw [stmtReturns]
            rcases hthen.gives hσ₃ hgives₁ with ⟨⟨⟩⟩ | hthen
            rcases hotherwise.gives hσ hgives₂ with ⟨⟨⟩⟩ | hotherwise
            exact Bool.and_eq_true_iff.mpr ⟨hthen, hotherwise⟩
  | when scrutinee as =>
      rw [stmt]
      refine (expr_spec hc scrutinee).bind ?_
      rintro _ c₁ hlater₁ ⟨rfl, hfound⟩
      refine (takenApart_spec hlater₁.wellFormed hfound _).bind ?_
      intro resolved c₂ hlater₂ ⟨hresolved, hsame⟩
      have hlater := hlater₁.trans hlater₂
      split
      · split_ifs
        · refine (coded_spec hlater₂.wellFormed .notAChoice).bind ?_
          intro _ c₃ hlater₃ herr
          have hlater := hlater.trans hlater₃
          have hbinders : ∀ (name : String) (ids : List Nat) {c' : Checker},
              Later I.choices c₃ c' → Advances (Later I.choices) (bindFields [] ids) c'
                (fun binders _ => ∀ binder ∈ binders, binder = .unknown) :=
            fun name ids c' hlater' =>
              bindFields_spec hlater'.wellFormed (by rintro f ⟨⟩) ids
          refine (arms_spec as hlater₃.wellFormed (hresult.later hlater)
            (P := fun _ binder => binder = .unknown) (fun h _ => h) hbinders).bind ?_
          intro out c₄ hlater₄ _
          refine .pure (.refl hlater₄.wellFormed) ⟨_, rfl, ?_⟩
          intro σ hσ
          exact absurd hσ.errors (hlater₄.report herr)
        · have hbinders : ∀ (name : String) (ids : List Nat) {c' : Checker},
              Later I.choices c₂ c' → Advances (Later I.choices) (bindFresh ids) c'
                (fun binders c'' => ∀ binder ∈ binders, c''.Holds binder) :=
            fun name ids c' hlater' => bindFresh_spec hlater'.wellFormed ids
          refine (arms_spec as hlater₂.wellFormed (hresult.later hlater)
            (fun h hlater => h.later hlater) hbinders).bind ?_
          rintro ⟨gives, heads⟩ c₃ hlater₃ ⟨hwalked, hheads⟩
          refine (defer_spec hlater₃.wellFormed ((hfound.later hlater₂).later hlater₃)
            hheads).bind ?_
          intro _ c₄ hlater₄ hmatched
          refine .pure (.refl hlater₄.wellFormed) ⟨_, rfl, ?_⟩
          intro σ hσ
          have hσ₃ := hσ.of_later hlater₄
          rw [StmtTyped, stmtReturns]
          refine ⟨⟨?_, hwalked.typed hσ₃⟩, ?_⟩
          · rw [← hwalked.names]
            exact hmatched hσ
          · intro hgives
            exact (Bool.or_eq_true_iff.mp hgives).imp_right (hwalked.gives hσ₃)
      · rename_i choice hchoice
        have hfields := holds_fields hresolved hchoice
        have hvariant : ∀ (name : String), ∀ field ∈
            ((choice.variant name).map Variant.fields).getD [], c₂.Holds field := by
          intro name field hfield
          cases hv : choice.variant name with
          | none =>
              rw [hv] at hfield
              cases hfield
          | some variant =>
              rw [hv] at hfield
              exact hfields variant (List.mem_of_find?_eq_some hv) field hfield
        have hbinders : ∀ (name : String) (ids : List Nat) {c' : Checker},
            Later I.choices c₂ c' → Advances (Later I.choices)
              (bindFields (((choice.variant name).map Variant.fields).getD []) ids) c'
              (fun binders _ => ∀ binder ∈ binders, binder = .unknown) := by
          intro name ids c' hlater'
          exact bindFields_spec hlater'.wellFormed
            (fun field hfield => (hvariant name field hfield).later hlater') ids
        refine (arms_spec as hlater₂.wellFormed (hresult.later hlater)
          (P := fun _ binder => binder = .unknown) (fun h _ => h) hbinders).bind ?_
        rintro ⟨gives, heads⟩ c₃ hlater₃ ⟨hwalked, hheads⟩
        refine (matchArms_spec hlater₃.wellFormed
          (fun variant hv field hf => (hfields variant hv field hf).later hlater₃) ?_).bind ?_
        · intro arm harm binder hbinder
          rw [hheads arm harm binder hbinder]
          exact ⟨by rintro v ⟨⟩, fun _ hne => absurd rfl hne⟩
        · intro exhaustive c₄ hlater₄ hmatched
          refine .pure (.refl hlater₄.wellFormed) ⟨_, rfl, ?_⟩
          intro σ hσ
          have hσ₃ := hσ.of_later hlater₄
          obtain ⟨hexhaustive, hnames⟩ := hmatched hσ.errors
          rw [StmtTyped, stmtReturns]
          refine ⟨⟨?_, hwalked.typed hσ₃⟩, ?_⟩
          · obtain ⟨choice', hchoice', hsub⟩ := choiceOf_subst I.choices σ hchoice
            rw [hsame (hσ₃.of_later hlater₃).solves] at hchoice'
            refine ⟨choice', hchoice', ?_⟩
            intro name hname
            rw [← hwalked.names]
            exact hnames name (hsub ▸ hname)
          · intro hgives
            simp only [hexhaustive, Bool.not_true, Bool.false_or] at hgives
            exact (Bool.or_eq_true_iff.mp hgives).imp_right (hwalked.gives hσ₃)

theorem block_spec (stmts : Block Expr Effect) {c : Checker} (hc : c.WellFormed)
    (hresult : c.Holds result) {run : List (Pipeline Expr)}
    {last : Option (List (Pipeline Expr))} {flow : Flow} {element : Option Ty}
    (h : Carries I c run last flow element) :
    Advances (Later I.choices) (block I result flow element stmts) c
      (fun flow' c' => BlockWalked I result stmts last run flow flow' c') := by
  match stmts with
  | [] =>
      rw [block]
      refine .pure (.refl hc) ⟨h.flowHolds, ?_, fun _ => .inl, .inl, ?_⟩
      · intro σ hσ
        rw [BlockTyped]
        exact h.runTyped hσ
      · intro σ hσ r hr hstarts
        exact (h.typed hσ r hr hstarts).2
  | s :: stmts =>
      by_cases hs : ∀ cl, s ≠ .pipeline cl
      · rw [block]
        refine (stmt_spec s hs hc hresult flow element).bind ?_
        rintro _ c₁ hlater₁ ⟨gives, rfl, hstmt⟩
        refine (block_spec stmts hlater₁.wellFormed (hresult.later hlater₁)
          (h.close hlater₁ gives)).imp ?_
        intro flow' c' hlater' hwalked
        refine ⟨hwalked.flowHolds, ?_, ?_, ?_, ?_⟩
        · intro σ hσ
          have hσ₁ := hσ.of_later hlater'
          rw [BlockTyped]
          · exact ⟨h.runTyped (hσ₁.of_later hlater₁), (hstmt hσ₁).1, hwalked.typed hσ⟩
          · exact hs
        · intro σ hσ hgives
          rw [blockReturns, Bool.or_eq_true_iff]
          rcases hwalked.gives hσ hgives with hgives | hreturns
          · exact ((hstmt (hσ.of_later hlater')).2 hgives).imp_right .inl
          · exact .inr (.inr hreturns)
        · intro hne
          rw [blockReturns, Bool.or_eq_true_iff]
          exact (hwalked.pipeline hne).imp_right .inr
        · intro σ hσ r hr
          rw [lastRun] at hr
          · exact hwalked.lastTyped hσ r hr
          · exact hs
      · obtain ⟨cl, hcl⟩ := not_forall.mp hs
        obtain rfl := not_not.mp hcl
        rw [block, stmt]
        refine (pipeline_spec hc h cl).bind ?_
        rintro ⟨flow₁, element₁⟩ c₁ hlater₁ ⟨hcarries, hgives⟩
        refine (block_spec stmts hlater₁.wellFormed (hresult.later hlater₁) hcarries).imp ?_
        intro flow' c' _ hwalked
        have hreturns : blockReturns (.pipeline cl :: stmts) = true := by
          rw [blockReturns, stmtReturns]
          rfl
        refine ⟨hwalked.flowHolds, ?_, fun _ _ => .inr hreturns, fun _ => .inr hreturns, ?_⟩
        · intro σ hσ
          rw [BlockTyped]
          exact hwalked.typed hσ
        · intro σ hσ r hr
          rw [lastRun] at hr
          exact hwalked.lastTyped hσ r hr

theorem arms_spec (as : List (Arm Expr Effect)) {c : Checker} (hc : c.WellFormed)
    (hresult : c.Holds result) {bindArm : String → List Nat → Check (List Ty)}
    {P : Checker → Ty → Prop}
    (hP : ∀ {c₁ c₂ : Checker} {t : Ty}, P c₁ t → Later I.choices c₁ c₂ → P c₂ t)
    (hbind : ∀ (name : String) (ids : List Nat) {c' : Checker}, Later I.choices c c' →
      Advances (Later I.choices) (bindArm name ids) c' (fun binders c'' =>
        ∀ binder ∈ binders, P c'' binder)) :
    Advances (Later I.choices) (arms I result bindArm as) c (fun out c' =>
      ArmsWalked I result as out c' ∧ ∀ arm ∈ out.2, ∀ binder ∈ arm.binders, P c' binder) := by
  match as with
  | [] =>
      rw [arms]
      refine .pure (.refl hc) ⟨⟨rfl, fun _ => trivial, fun _ _ => rfl⟩, by rintro arm ⟨⟩⟩
  | .mk name ids body :: rest =>
      rw [arms]
      refine (hbind name ids (.refl hc)).bind ?_
      intro binders c₁ hlater₁ hbinders
      refine (armBody_spec body hlater₁.wellFormed (hresult.later hlater₁)).bind ?_
      intro gives c₂ hlater₂ hbody
      have hlater := hlater₁.trans hlater₂
      refine (arms_spec rest hlater₂.wellFormed (hresult.later hlater) (P := P) hP
        (fun name ids _ hlater' => hbind name ids (hlater.trans hlater'))).bind ?_
      rintro ⟨restGive, heads⟩ c₃ hlater₃ ⟨hrest, hheads⟩
      refine .pure (.refl hlater₃.wellFormed) ⟨⟨?_, ?_, ?_⟩, ?_⟩
      · exact congrArg (name :: ·) hrest.names
      · intro σ hσ
        rw [ArmsTyped]
        exact ⟨(hbody (hσ.of_later hlater₃)).1, hrest.typed hσ⟩
      · intro σ hσ hgives
        obtain ⟨hgives, hrestGive⟩ := Bool.and_eq_true_iff.mp hgives
        rw [armsReturn, Bool.and_eq_true_iff]
        exact ⟨(hbody (hσ.of_later hlater₃)).2 hgives, hrest.gives hσ hrestGive⟩
      · intro arm harm binder hbinder
        rcases List.mem_cons.mp harm with rfl | harm
        · exact hP (hP (hbinders binder hbinder) hlater₂) hlater₃
        · exact hheads arm harm binder hbinder

theorem armBody_spec (body : ArmBody Expr Effect) {c : Checker} (hc : c.WellFormed)
    (hresult : c.Holds result) :
    Advances (Later I.choices) (armBody I result body) c (fun gives c' =>
      ∀ {σ : Nat → Ty}, Completed I.choices σ c' →
        ArmBodyTyped I σ (result.subst σ) body ∧ (gives = true → armBodyReturns body = true)) := by
  match body with
  | .show_ e =>
      rw [armBody]
      refine (expr_spec hc e).bind ?_
      rintro _ c₁ hlater₁ ⟨rfl, he⟩
      refine (expect_spec hlater₁.wellFormed he (hresult.later hlater₁)).bind ?_
      intro _ c₂ hlater₂ htype
      refine .pure (.refl hlater₂.wellFormed) ?_
      intro σ hσ
      rw [ArmBodyTyped]
      exact ⟨htype hσ, fun _ => rfl⟩
  | .block stmts =>
      rw [armBody]
      refine (block_spec stmts hc hresult .start).bind ?_
      intro flow c₁ hlater₁ hwalked
      refine .pure (.refl hlater₁.wellFormed) ?_
      intro σ hσ
      rw [ArmBodyTyped, armBodyReturns]
      refine ⟨hwalked.typed hσ, ?_⟩
      intro hgives
      rcases hwalked.gives hσ hgives with ⟨⟨⟩⟩ | hreturns
      exact hreturns

end

end Statements

section Settling

/-- A pending `when` is over the checker's types. -/
def Checker.Owes (c : Checker) (t : Ty) (arms : List PendingArm) : Prop :=
  c.Holds t ∧ ∀ arm ∈ arms, ∀ binder ∈ arm.binders, c.Binds binder

variable {arms : List PendingArm}

theorem Checker.WellFormed.owes (hc : c.WellFormed) {t : Ty}
    (h : .when t arms ∈ c.pending) : c.Owes t arms :=
  ⟨⟨(hc.pending h).1.1, (hc.pending h).1.2⟩, (hc.pending h).2⟩

theorem Checker.Owes.later {t : Ty} {arms : List PendingArm} (h : c.Owes t arms)
    (hlater : Later I.choices c c') : c'.Owes t arms :=
  ⟨h.1.later hlater, fun arm harm b hb => (h.2 arm harm b hb).later hlater⟩

theorem Checker.Owes.setPending {t : Ty} (h : c.Owes t arms)
    (pending : List Obligation) : Checker.Owes { c with pending := pending } t arms :=
  ⟨⟨h.1.inScope, h.1.plain⟩, h.2⟩

theorem tryWhen_spec (hc : c.WellFormed) {t : Ty} {heads : List PendingArm} (h : c.Owes t heads) :
    Advances (Later I.choices) (tryWhen I t heads) c (fun solved c' => solved = true →
      ∀ {σ : Nat → Ty}, c'.errors = [] → Ty.terms.Solves c'.solver.binds σ →
        Matched I.choices σ t (heads.map PendingArm.name)) := by
  unfold tryWhen
  refine (zonk_spec hc h.1).bind ?_
  rintro resolved _ hlater₁ ⟨rfl, hresolved, hsame⟩
  split_ifs
  · split
    · rename_i choice hchoice
      refine (matchArms_spec hc (holds_fields hresolved hchoice) h.2).bind ?_
      intro exhaustive c₂ hlater₂ hmatched
      refine .pure (.refl hlater₂.wellFormed) ?_
      intro _ σ herr hσ
      obtain ⟨choice', hchoice', hnames⟩ := choiceOf_subst I.choices σ hchoice
      rw [hsame (hσ.of_extends (fun _ _ => hlater₂.grows.binds))] at hchoice'
      exact ⟨choice', hchoice', fun name hname => (hmatched herr).2 name (hnames ▸ hname)⟩
    · refine (coded_spec hc .notAChoice).bind ?_
      intro _ c₂ hlater₂ herr
      refine .pure (.refl hlater₂.wellFormed) ?_
      exact fun _ _ herr' => absurd herr' herr
  · exact .pure (.refl hc) (by rintro ⟨⟩)

theorem tryEach_spec (hc : c.WellFormed) {obligations : List Obligation}
    (h : ∀ {t : Ty} {arms : List PendingArm}, .when t arms ∈ obligations → c.Owes t arms) :
    Advances (Later I.choices) (tryEach I obligations) c (fun still c' =>
      still ⊆ obligations ∧ ∀ {t : Ty} {arms : List PendingArm}, .when t arms ∈ obligations →
        .when t arms ∈ still ∨ ∀ {σ : Nat → Ty}, c'.errors = [] →
          Ty.terms.Solves c'.solver.binds σ →
            Matched I.choices σ t (arms.map PendingArm.name)) := by
  induction obligations generalizing c with
  | nil => exact .pure (.refl hc) ⟨List.Subset.refl _, by rintro t arms ⟨⟩⟩
  | cons obligation obligations ih =>
      have htry : Advances (Later I.choices) (tryObligation I obligation) c (fun solved c' =>
          ∀ {t : Ty} {arms : List PendingArm}, .when t arms = obligation → solved = true →
            ∀ {σ : Nat → Ty}, c'.errors = [] → Ty.terms.Solves c'.solver.binds σ →
              Matched I.choices σ t (arms.map PendingArm.name)) := by
        cases obligation with
        | when t arms =>
            refine (tryWhen_spec hc (h List.mem_cons_self)).imp ?_
            rintro solved c' - hmatched t arms ⟨⟩
            exact hmatched
        | other id =>
            intro solved c' hattempt
            exact ⟨I.attempt_later hc hattempt, by rintro t arms ⟨⟩⟩
      refine htry.bind ?_
      intro solved c₁ hlater₁ hsolved
      refine (ih hlater₁.wellFormed
        (fun hmem => (h (List.mem_cons_of_mem _ hmem)).later hlater₁)).bind ?_
      intro still c₂ hlater₂ ⟨hsub, hrest⟩
      refine .pure (.refl hlater₂.wellFormed) ⟨?_, ?_⟩
      · cases solved with
        | true => exact List.Subset.trans hsub (List.subset_cons_self _ _)
        | false => exact List.cons_subset_cons _ hsub
      · intro t arms hmem
        rcases List.mem_cons.mp hmem with heq | hmem
        · cases solved with
          | true =>
              refine .inr ?_
              intro σ herr hσ
              exact hsolved heq rfl (hlater₂.errors herr)
                (hσ.of_extends (fun _ _ => hlater₂.grows.binds))
          | false => exact .inl (heq ▸ List.mem_cons_self)
        · refine (hrest hmem).imp_left ?_
          intro hstill
          cases solved with
          | true => exact hstill
          | false => exact List.mem_cons_of_mem _ hstill

theorem round_later (hc : c.WellFormed) {still : List Obligation}
    (h : tryEach I c.pending { c with pending := [] } = some (still, c')) :
    Later I.choices c { c' with pending := still } := by
  have hstart : Checker.WellFormed { c with pending := [] } :=
    ⟨hc.solver, hc.plain, hc.locals, by rintro t arms ⟨⟩⟩
  obtain ⟨hlater, hsub, hmatched⟩ := tryEach_spec hstart (fun hmem => (hc.owes hmem).setPending []) _ _ h
  refine ⟨⟨hlater.wellFormed.solver, hlater.wellFormed.plain, hlater.wellFormed.locals, ?_⟩,
    hlater.grows, hlater.errors, hmatched⟩
  intro t arms hmem
  have howes := ((hc.owes (hsub hmem)).setPending []).later hlater
  exact ⟨⟨howes.1.inScope, howes.1.plain⟩, howes.2⟩

theorem drainPending_spec (hc : c.WellFormed) :
    Advances (Later I.choices) (Checker.drainPending I) c (fun _ _ => True) := by
  suffices hall : ∀ (c : Checker) (out : Unit × Checker), Checker.drainPending I c = some out →
      c.WellFormed → Later I.choices c out.2 from
    fun _ _ h => ⟨hall c _ h hc, trivial⟩
  refine Checker.drainPending.partial_correctness I _ ?_
  intro drain ih c out h hc
  obtain ⟨⟨still, c'⟩, hround, h⟩ := Option.bind_eq_some_iff.mp h
  have hlater := round_later hc hround
  dsimp only at h
  split_ifs at h
  · cases h
    exact hlater
  · exact hlater.trans (ih _ _ h hlater.wellFormed)

theorem defaultUnconstrained_spec (hc : c.WellFormed) :
    Advances (Later I.choices) defaultUnconstrained c (fun _ _ => True) := by
  intro u c' h
  cases h
  obtain ⟨hgrows, hplain⟩ := Solver.defaultUnconstrained_spec hc.solver
  exact ⟨hc.step hgrows (fun h => h) (fun herr => hplain (hc.plain herr)), trivial⟩

theorem reportUnsolved_spec (hc : c.WellFormed) :
    Advances (Later I.choices) reportUnsolved c (fun _ c' => c'.pending = []) := by
  intro u c' h
  cases h
  have herrors : c.errors ++ c.pending.map (fun _ => Report.notDetermined) = [] →
      c.errors = [] ∧ c.pending = [] := by
    intro herr
    obtain ⟨herr, hpending⟩ := List.append_eq_nil_iff.mp herr
    exact ⟨herr, List.map_eq_nil_iff.mp hpending⟩
  refine ⟨⟨⟨hc.solver, fun herr => hc.plain (herrors herr).1, hc.locals, by rintro t arms ⟨⟩⟩,
    .refl hc.solver, fun herr => (herrors herr).1, ?_⟩, rfl⟩
  intro t arms hmem
  refine .inr ?_
  intro σ herr _
  rw [(herrors herr).2] at hmem
  cases hmem

theorem settle_spec (hc : c.WellFormed) :
    Advances (Later I.choices) (settle I) c (fun _ c' => c'.pending = []) := by
  refine (drainPending_spec hc).bind ?_
  intro _ c₁ hlater₁ _
  refine (defaultUnconstrained_spec hlater₁.wellFormed).bind ?_
  intro _ c₂ hlater₂ _
  refine (drainPending_spec hlater₂.wellFormed).bind ?_
  intro _ c₃ hlater₃ _
  exact reportUnsolved_spec hlater₃.wellFormed

end Settling

section Accepted

/-- A program without a report, in which the body has been checked against a result
type. -/
structure Accepted (I : Inference Expr Effect) (result : Ty) (body : Block Expr Effect)
    (final : Checker) : Prop where
  /-- Before the body, after it, and after the rest of the program. -/
  checked : ∃ before after_ rest : Checker, before.WellFormed ∧ before.Holds result ∧
    checkFunctionBody I result body before = some ((), after_) ∧
    Later I.choices after_ rest ∧ settle I rest = some ((), final)
  errors : final.errors = []

variable {result : Ty} {body : Block Expr Effect} {final : Checker} {σ : Nat → Ty}

structure BodyTyped (I : Inference Expr Effect) (σ : Nat → Ty) (result : Ty)
    (body : Block Expr Effect) : Prop where
  typed : BlockTyped I σ (result.subst σ) [] body
  returns : blockReturns body = true
  lastTyped : ∀ r, lastRun none [] body = some r → startsWithSource r = true →
    runType I σ r = result.subst σ

theorem checkFunctionBody_spec (hc : c.WellFormed) (hresult : c.Holds result) :
    Advances (Later I.choices) (checkFunctionBody I result body) c (fun _ c' =>
      ∀ {σ : Nat → Ty}, Completed I.choices σ c' → BodyTyped I σ result body) := by
  refine (block_spec body hc hresult .start).bind ?_
  intro flow c₁ hlater₁ hwalked
  split
  · rename_i collection hcollection
    refine (expect_spec hlater₁.wellFormed (hwalked.flowHolds _ hcollection)
      (hresult.later hlater₁)).imp ?_
    intro _ c₂ hlater₂ htype σ hσ
    have hσ₁ := hσ.of_later hlater₂
    refine ⟨hwalked.typed hσ₁, ?_, ?_⟩
    · rcases hwalked.pipeline (by simp [hcollection]) with hne | hreturns
      · exact absurd rfl hne
      · exact hreturns
    · intro r hr hstarts
      obtain ⟨p, hp, hptype⟩ := hwalked.lastTyped hσ₁ r hr hstarts
      rw [hcollection] at hp
      cases hp
      exact hptype.symm.trans (htype hσ)
  · rename_i hnone
    refine (codedIf_spec hlater₁.wellFormed _ .notTotal).imp ?_
    intro _ c₂ hlater₂ hgives σ hσ
    have hσ₁ := hσ.of_later hlater₂
    refine ⟨hwalked.typed hσ₁, ?_, ?_⟩
    · rcases hwalked.gives hσ₁ (by simpa using hgives hσ.errors) with ⟨⟨⟩⟩ | hreturns
      exact hreturns
    · intro r hr hstarts
      obtain ⟨p, hp, -⟩ := hwalked.lastTyped hσ₁ r hr hstarts
      rw [hnone] at hp
      cases hp

theorem Accepted.typed (h : Accepted I result body final)
    (hσ : Ty.terms.Solves final.solver.binds σ) : BodyTyped I σ result body := by
  obtain ⟨before, after_, rest, hbefore, hresult, hcheck, hrest, hsettle⟩ := h.checked
  obtain ⟨-, htyped⟩ := checkFunctionBody_spec hbefore hresult _ _ hcheck
  obtain ⟨hfinal, hpending⟩ := settle_spec hrest.wellFormed _ _ hsettle
  have hcompleted : Completed I.choices σ final := by
    refine ⟨h.errors, hσ, ?_⟩
    intro t arms hmem
    rw [hpending] at hmem
    cases hmem
  exact htyped (hcompleted.of_later (hrest.trans hfinal))

end Accepted

end Bodies
end Zdeceptron
