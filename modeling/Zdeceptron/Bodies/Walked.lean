import Zdeceptron.Bodies.Steps
import Zdeceptron.Bodies.Typed

/-!
# What the walk over a body has found out

Every statement the checker has walked is well typed, under every assignment that solves
the final solver of a program without a report.
-/

namespace Zdeceptron
namespace Bodies

open Types Library

variable {Expr Effect : Type} {I : Inference Expr Effect} {c : Checker}

section Choices

theorem holds_fields {t : Ty} {choice : Choice} (ht : c.Holds t)
    (h : choiceOf I.choices t = some choice) :
    ∀ variant ∈ choice.variants, ∀ field ∈ variant.fields, c.Holds field := by
  have hbuiltin : ∀ {inner : Ty}, (∀ child ∈ t.children, child = inner) → inner ∈ t.children →
      t.isVar = false → c.Holds inner := by
    intro inner _ hmem _
    exact ⟨ht.inScope.child hmem, fun herr => Ty.isPlain_child (ht.plain herr) hmem⟩
  cases t with
  | named name =>
      intro variant hvariant field hfield
      obtain ⟨hplain, hvars⟩ := I.choices_plain h variant hvariant field hfield
      exact Checker.holds_closed hplain hvars
  | remote inner =>
      cases h
      have hinner : c.Holds inner := hbuiltin (by simp [Ty.children]) (by simp [Ty.children]) rfl
      have herror : c.Holds .error := Checker.holds_closed rfl rfl
      simp only [List.mem_cons, List.not_mem_nil, or_false]
      rintro variant (rfl | rfl | rfl) field hfield
      · cases hfield
      · obtain rfl := List.mem_singleton.mp hfield
        exact hinner
      · obtain rfl := List.mem_singleton.mp hfield
        exact herror
  | option inner =>
      cases h
      have hinner : c.Holds inner := hbuiltin (by simp [Ty.children]) (by simp [Ty.children]) rfl
      simp only [List.mem_cons, List.not_mem_nil, or_false]
      rintro variant (rfl | rfl) field hfield
      · obtain rfl := List.mem_singleton.mp hfield
        exact hinner
      · cases hfield
  | code =>
      cases h
      intro variant hvariant field hfield
      obtain ⟨spelling, -, rfl⟩ := List.mem_map.mp hvariant
      cases hfield
  | _ => cases h

end Choices

section Whens

theorem expr_spec (hc : c.WellFormed) (e : Expr) :
    Advances (Later I.choices) (expr I e) c (fun t c' => t = I.typeOf e ∧ c'.Holds t) := by
  intro t c' h
  unfold expr at h
  obtain ⟨c'', hexpr, heq⟩ := Option.map_eq_some_iff.mp h
  cases heq
  obtain ⟨hlater, hscope, hplain⟩ := I.expr_later hc hexpr
  exact ⟨hlater, rfl, hscope, hplain⟩

theorem call_spec (hc : c.WellFormed) (e : Effect) :
    Advances (Later I.choices) (call I e) c (fun _ _ => True) := by
  intro u c' h
  obtain ⟨c'', hcall, heq⟩ := Option.map_eq_some_iff.mp h
  cases heq
  exact ⟨I.call_later hc hcall, trivial⟩

theorem mutation_spec (hc : c.WellFormed) (e : Effect) :
    Advances (Later I.choices) (mutation I e) c (fun _ _ => True) := by
  intro u c' h
  obtain ⟨c'', hmutation, heq⟩ := Option.map_eq_some_iff.mp h
  cases heq
  exact ⟨I.mutation_later hc hmutation, trivial⟩

theorem choiceShape_spec (hc : c.WellFormed) (names : List String) :
    Advances (Later I.choices) (choiceShape I names) c (fun shape c' =>
      ∀ t, shape = some t → c'.Holds t) := by
  induction names with
  | nil => exact .pure (.refl hc) (by rintro t ⟨⟩)
  | cons name names ih =>
      rw [choiceShape]
      split_ifs
      · refine (fresh_spec hc).bind ?_
        intro payload c' hlater hpayload
        refine .pure (.refl hlater.wellFormed) ?_
        rintro t ⟨⟩
        exact ⟨hpayload.inScope, hpayload.plain⟩
      · refine (fresh_spec hc).bind ?_
        intro payload c' hlater hpayload
        refine .pure (.refl hlater.wellFormed) ?_
        rintro t ⟨⟩
        exact ⟨hpayload.inScope, hpayload.plain⟩
      · refine .pure (.refl hc) ?_
        rintro t ⟨⟩
        exact Checker.holds_closed rfl rfl
      · split
        · refine .pure (.refl hc) ?_
          rintro t ⟨⟩
          exact Checker.holds_closed rfl rfl
        · exact ih

theorem takenApart_spec (hc : c.WellFormed) {found : Ty} (hfound : c.Holds found)
    (names : List String) :
    Advances (Later I.choices) (takenApart I found names) c (fun resolved c' =>
      c'.Holds resolved ∧ ∀ {σ : Nat → Ty}, Ty.terms.Solves c'.solver.binds σ →
        resolved.subst σ = found.subst σ) := by
  unfold takenApart
  have hzonk : ∀ {c' : Checker}, Later I.choices c c' →
      Advances (Later I.choices) (zonk found) c' (fun resolved c'' => c''.Holds resolved ∧
        ∀ {σ : Nat → Ty}, Ty.terms.Solves c''.solver.binds σ →
          resolved.subst σ = found.subst σ) := by
    intro c' hlater
    exact (zonk_spec hlater.wellFormed (hfound.later hlater)).imp (fun _ h => h.2)
  refine (zonk_spec hc hfound).bind ?_
  intro t c₁ hlater₁ _
  split_ifs
  · exact hzonk hlater₁
  · refine (choiceShape_spec hlater₁.wellFormed names).bind ?_
    intro shape c₂ hlater₂ hshape
    cases shape with
    | none => exact hzonk (hlater₁.trans hlater₂)
    | some shape =>
        have hfound₂ := (hfound.later hlater₁).later hlater₂
        refine (expect_spec hlater₂.wellFormed hfound₂ (hshape shape rfl)).bind ?_
        intro _ c₃ hlater₃ _
        exact hzonk ((hlater₁.trans hlater₂).trans hlater₃)

theorem bindFresh_spec (hc : c.WellFormed) (ids : List Nat) :
    Advances (Later I.choices) (bindFresh ids) c (fun binders c' =>
      ∀ binder ∈ binders, c'.Holds binder) := by
  induction ids generalizing c with
  | nil => exact .pure (.refl hc) (by rintro binder ⟨⟩)
  | cons id ids ih =>
      refine (fresh_spec hc).bind ?_
      intro t c₁ hlater₁ ht
      refine (bindLocal_spec hlater₁.wellFormed id ht.inScope).bind ?_
      intro _ c₂ hlater₂ _
      refine (ih hlater₂.wellFormed).bind ?_
      intro binders c₃ hlater₃ hbinders
      refine .pure (.refl hlater₃.wellFormed) ?_
      intro binder hmem
      rcases List.mem_cons.mp hmem with rfl | hmem
      · exact (ht.later hlater₂).later hlater₃
      · exact hbinders binder hmem

theorem bindFields_spec (hc : c.WellFormed) {fields : List Ty}
    (hfields : ∀ field ∈ fields, c.Holds field) (ids : List Nat) :
    Advances (Later I.choices) (bindFields fields ids) c (fun binders _ =>
      ∀ binder ∈ binders, binder = .unknown) := by
  induction ids generalizing c fields with
  | nil =>
      rw [bindFields]
      exact .pure (.refl hc) (by rintro binder ⟨⟩)
  | cons id ids ih =>
      rw [bindFields]
      have hfield : c.solver.Scopes (fields.headD .unknown) := by
        cases fields with
        | nil => rintro v ⟨⟩
        | cons field fields => exact (hfields field List.mem_cons_self).inScope
      refine (bindLocal_spec hc id hfield).bind ?_
      intro _ c₁ hlater₁ _
      refine (ih hlater₁.wellFormed ?_).bind ?_
      · intro field hmem
        exact (hfields field (List.mem_of_mem_tail hmem)).later hlater₁
      · intro binders c₂ hlater₂ hbinders
        refine .pure (.refl hlater₂.wellFormed) ?_
        intro binder hmem
        rcases List.mem_cons.mp hmem with rfl | hmem
        · rfl
        · exact hbinders binder hmem

/-- A binder of a pending arm: known to be `Unknown`, or a type of the checker. -/
def Checker.Binds (c : Checker) (binder : Ty) : Prop :=
  c.solver.Scopes binder ∧ (c.errors = [] → binder ≠ .unknown → binder.isPlain = true)

theorem Checker.Binds.later {c' : Checker} {binder : Ty} (h : c.Binds binder)
    (hlater : Later I.choices c c') : c'.Binds binder :=
  ⟨hlater.inScope h.1, fun herr => h.2 (hlater.errors herr)⟩

theorem expectFields_spec (hc : c.WellFormed) {fields binders : List Ty}
    (hfields : ∀ field ∈ fields, c.Holds field) (hbinders : ∀ binder ∈ binders, c.Binds binder)
    (hlength : c.errors = [] → binders.length = fields.length) :
    Advances (Later I.choices) (expectFields fields binders) c (fun _ _ => True) := by
  induction binders generalizing c fields with
  | nil =>
      unfold expectFields
      exact .pure (.refl hc) trivial
  | cons binder binders ih =>
      have hrest : ∀ {c' : Checker}, Later I.choices c c' →
          Advances (Later I.choices) (expectFields fields.tail binders) c' (fun _ _ => True) := by
        intro c' hlater
        refine ih hlater.wellFormed ?_ ?_ ?_
        · exact fun field hmem => (hfields field (List.mem_of_mem_tail hmem)).later hlater
        · exact fun b hmem => (hbinders b (List.mem_cons_of_mem _ hmem)).later hlater
        · intro herr
          have hlen := hlength (hlater.errors herr)
          rw [List.length_cons] at hlen
          rw [List.length_tail]
          omega
      have hfield : c.Holds (fields.headD .unknown) := by
        cases fields with
        | nil =>
            refine ⟨by rintro v ⟨⟩, ?_⟩
            intro herr
            cases hlength herr
        | cons field fields => exact hfields field List.mem_cons_self
      have hbinder := hbinders binder List.mem_cons_self
      by_cases hunknown : binder = .unknown
      · subst hunknown
        rw [expectFields]
        exact hrest (.refl hc)
      · rw [expectFields]
        · refine (expect_spec hc hfield ⟨hbinder.1, fun herr => hbinder.2 herr hunknown⟩).bind ?_
          intro _ c₁ hlater₁ _
          exact hrest hlater₁
        · exact hunknown

variable {heads : List PendingArm}

theorem matchEach_spec (hc : c.WellFormed) {choice : Choice}
    (hfields : ∀ variant ∈ choice.variants, ∀ field ∈ variant.fields, c.Holds field)
    (hheads : ∀ arm ∈ heads, ∀ binder ∈ arm.binders, c.Binds binder) (matched : List String) :
    Advances (Later I.choices) (matchEach choice matched heads) c (fun all _ =>
      ∀ name ∈ all, name ∈ matched ∨ name ∈ heads.map PendingArm.name) := by
  induction heads generalizing c matched with
  | nil =>
      rw [matchEach]
      exact .pure (.refl hc) (fun name hname => .inl hname)
  | cons arm heads ih =>
      have hrest : ∀ {c' : Checker} (matched : List String), Later I.choices c c' →
          Advances (Later I.choices) (matchEach choice matched heads) c' (fun all _ =>
            ∀ name ∈ all, name ∈ matched ∨ name ∈ heads.map PendingArm.name) := by
        intro c' matched hlater
        refine ih hlater.wellFormed ?_ ?_ matched
        · intro variant hvariant field hfield
          exact (hfields variant hvariant field hfield).later hlater
        · intro arm' harm binder hbinder
          exact (hheads arm' (List.mem_cons_of_mem _ harm) binder hbinder).later hlater
      rw [matchEach]
      split
      · refine (coded_spec hc .armShape).bind ?_
        intro _ c₁ hlater₁ _
        refine (hrest matched hlater₁).imp ?_
        intro all _ _ hall name hname
        rcases hall name hname with hmem | hmem
        · exact .inl hmem
        · exact .inr (List.mem_cons_of_mem _ hmem)
      · rename_i variant hvariant
        unfold Choice.variant at hvariant
        have hmem := List.mem_of_find?_eq_some hvariant
        have hname : variant.name = arm.name := by simpa using List.find?_some hvariant
        refine (codedIf_spec hc _ .armShape).bind ?_
        intro _ c₁ hlater₁ _
        refine (codedIf_spec hlater₁.wellFormed _ .armShape).bind ?_
        intro _ c₂ hlater₂ hlength
        have hlater := hlater₁.trans hlater₂
        refine (expectFields_spec hlater₂.wellFormed ?_ ?_ ?_).bind ?_
        · exact fun field hfield => (hfields variant hmem field hfield).later hlater
        · exact fun b hb => (hheads arm List.mem_cons_self b hb).later hlater
        · intro herr
          simpa using hlength herr
        · intro _ c₃ hlater₃ _
          refine (hrest _ (hlater.trans hlater₃)).imp ?_
          intro all _ _ hall name hin
          rcases hall name hin with hin | hin
          · rcases List.mem_cons.mp hin with rfl | hin
            · exact .inr (by rw [hname]; exact List.mem_cons_self)
            · exact .inl hin
          · exact .inr (List.mem_cons_of_mem _ hin)

theorem matchArms_spec (hc : c.WellFormed) {choice : Choice}
    (hfields : ∀ variant ∈ choice.variants, ∀ field ∈ variant.fields, c.Holds field)
    (hheads : ∀ arm ∈ heads, ∀ binder ∈ arm.binders, c.Binds binder) :
    Advances (Later I.choices) (matchArms choice heads) c (fun exhaustive c' =>
      c'.errors = [] → exhaustive = true ∧
        ∀ name ∈ choice.names, name ∈ heads.map PendingArm.name) := by
  refine (matchEach_spec hc hfields hheads []).bind ?_
  intro matched c₁ hlater₁ hmatched
  refine (codedIf_spec hlater₁.wellFormed _ .missingArm).bind ?_
  intro _ c₂ hlater₂ hexhaustive
  refine .pure (.refl hlater₂.wellFormed) ?_
  intro herr
  have hall : (choice.names.all fun name => decide (name ∈ matched)) = true := by
    simpa using hexhaustive herr
  refine ⟨hall, ?_⟩
  intro name hname
  have hin := of_decide_eq_true (List.all_eq_true.mp hall name hname)
  rcases hmatched name hin with hmem | hmem
  · cases hmem
  · exact hmem

end Whens

section Runs

variable {run : List (Pipeline Expr)} {last : Option (List (Pipeline Expr))} {flow flow' : Flow}
  {element element' : Option Ty} {c' : Checker}

theorem startsWithSource_append {cl : Pipeline Expr} (hcl : cl.isSource = false)
    (h : startsWithSource (run ++ [cl]) = true) : startsWithSource run = true := by
  cases run with
  | nil => exact absurd h (by simp [startsWithSource, hcl])
  | cons first run => exact h

theorem latest_append (cl : Pipeline Expr) : latest last (run ++ [cl]) = some (run ++ [cl]) := by
  cases run <;> rfl

theorem latest_of_starts (h : startsWithSource run = true) : latest last run = some run := by
  cases run with
  | nil => cases h
  | cons first run => rfl

/-- What the checker knows of a run after some of its clauses: the latest run is well typed
and its type is the one in the flow, and a run that has not folded carries elements. -/
structure Carries (I : Inference Expr Effect) (c : Checker) (run : List (Pipeline Expr))
    (last : Option (List (Pipeline Expr))) (flow : Flow) (element : Option Ty) : Prop where
  flowHolds : ∀ t, flow.pipeline = some t → c.Holds t
  elementHolds : ∀ t, element = some t → c.Holds t
  typed : ∀ {σ : Nat → Ty}, Completed I.choices σ c → ∀ r, latest last run = some r →
    startsWithSource r = true → ClausesTyped I σ .unknown r ∧
      ∃ p, flow.pipeline = some p ∧ p.subst σ = runType I σ r
  elements : ∀ {σ : Nat → Ty}, Completed I.choices σ c → startsWithSource run = true →
    flow.folded = false → ∃ item, element = some item ∧ runType I σ run = .list (item.subst σ)

theorem Carries.start : Carries I c [] none .default none where
  flowHolds := by rintro t ⟨⟩
  elementHolds := by rintro t ⟨⟩
  typed := by rintro σ - r ⟨⟩
  elements := by rintro σ - ⟨⟩

theorem Carries.of_report (herr : c.errors ≠ []) (hpipeline : ∀ t, flow.pipeline = some t → c.Holds t)
    (helement : ∀ t, element = some t → c.Holds t) : Carries I c run last flow element where
  flowHolds := hpipeline
  elementHolds := helement
  typed hσ := absurd hσ.errors herr
  elements hσ := absurd hσ.errors herr

theorem Carries.close (h : Carries I c run last flow element) (hlater : Later I.choices c c')
    (g : Bool) :
    Carries I c' [] (latest last run) { flow with alwaysGives := g } element where
  flowHolds t ht := (h.flowHolds t ht).later hlater
  elementHolds t ht := (h.elementHolds t ht).later hlater
  typed hσ := h.typed (hσ.of_later hlater)
  elements := by rintro σ - ⟨⟩

theorem Carries.runTyped (h : Carries I c run last flow element) {σ : Nat → Ty}
    (hσ : Completed I.choices σ c) : RunTyped I σ run :=
  fun hstarts => (h.typed hσ run (latest_of_starts hstarts) hstarts).1

theorem Carries.extend (h : Carries I c run last flow element) (hlater : Later I.choices c c')
    {cl : Pipeline Expr} (hcl : cl.isSource = false) (hfolded : flow.folded = false)
    (hpipeline : ∀ t, flow'.pipeline = some t → c'.Holds t)
    (helement : ∀ t, element' = some t → c'.Holds t)
    (hclause : ∀ {σ : Nat → Ty} {item p : Ty}, Completed I.choices σ c' → element = some item →
      runType I σ run = .list (item.subst σ) → flow.pipeline = some p →
      p.subst σ = runType I σ run → ClauseTyped I σ (runType I σ run) cl ∧
        (∃ p', flow'.pipeline = some p' ∧ p'.subst σ = clauseType I σ (runType I σ run) cl) ∧
        (flow'.folded = false → ∃ item', element' = some item' ∧
          clauseType I σ (runType I σ run) cl = .list (item'.subst σ))) :
    Carries I c' (run ++ [cl]) last flow' element' := by
  have hall : ∀ {σ : Nat → Ty}, Completed I.choices σ c' →
      startsWithSource (run ++ [cl]) = true → ClausesTyped I σ .unknown (run ++ [cl]) ∧
        (∃ p, flow'.pipeline = some p ∧ p.subst σ = runType I σ (run ++ [cl])) ∧
        (flow'.folded = false → ∃ item, element' = some item ∧
          runType I σ (run ++ [cl]) = .list (item.subst σ)) := by
    intro σ hσ hstarts
    have hstarts := startsWithSource_append hcl hstarts
    have hσ' := hσ.of_later hlater
    obtain ⟨htyped, p, hp, hptype⟩ := h.typed hσ' run (latest_of_starts hstarts) hstarts
    obtain ⟨item, hitem, hitemtype⟩ := h.elements hσ' hstarts hfolded
    obtain ⟨hc, hp', hitem'⟩ := hclause hσ hitem hitemtype hp hptype
    rw [runType_append]
    exact ⟨htyped.append hc, hp', hitem'⟩
  refine ⟨hpipeline, helement, ?_, fun hσ hstarts => (hall hσ hstarts).2.2⟩
  intro σ hσ r hr hstarts
  rw [latest_append] at hr
  cases hr
  exact ⟨(hall hσ hstarts).1, (hall hσ hstarts).2.1⟩

theorem Carries.source (h : Carries I c run last flow element) (hlater : Later I.choices c c')
    {e : Expr} {item : Ty} (hitem : c'.Holds item)
    (htype : ∀ {σ : Nat → Ty}, Completed I.choices σ c' →
      I.type σ e = .list (item.subst σ)) (g : Bool) :
    Carries I c' (run ++ [.source e]) last ⟨g, some (.list item), false⟩ (some item) := by
  have hrun : ∀ {σ : Nat → Ty}, Completed I.choices σ c' →
      runType I σ (run ++ [.source e]) = .list (item.subst σ) := by
    intro σ hσ
    rw [runType_append]
    exact htype hσ
  refine ⟨?_, ?_, ?_, fun hσ _ _ => ⟨item, rfl, hrun hσ⟩⟩
  · rintro t ⟨⟩
    exact hitem.list
  · rintro t ⟨⟩
    exact hitem
  · intro σ hσ r hr hstarts
    rw [latest_append] at hr
    cases hr
    refine ⟨?_, .list item, rfl, (hrun hσ).symm⟩
    refine ClausesTyped.append ?_ ⟨_, htype hσ⟩
    cases run with
    | nil => exact trivial
    | cons first run => exact (h.typed (hσ.of_later hlater) _ rfl hstarts).1

theorem pipelineBinder_spec (hc : c.WellFormed) (var : Nat)
    (helement : ∀ t, element = some t → c.Holds t) :
    Advances (Later I.choices) (pipelineBinder var element flow) c (fun out c' =>
      (out = (true, flow) ∧ ∃ item, element = some item) ∨
        (out = (false, { flow with pipeline := some .unknown }) ∧ c'.errors ≠ [])) := by
  cases element with
  | some item =>
      refine (bindLocal_spec hc var (helement item rfl).inScope).bind ?_
      intro _ c₁ hlater₁ _
      exact .pure (.refl hlater₁.wellFormed) (.inl ⟨rfl, item, rfl⟩)
  | none =>
      refine (bindLocal_spec hc var (by rintro v ⟨⟩)).bind ?_
      intro _ c₁ hlater₁ _
      refine (coded_spec hlater₁.wellFormed .pipelineSource).bind ?_
      intro _ c₂ hlater₂ herr
      exact .pure (.refl hlater₂.wellFormed) (.inr ⟨rfl, herr⟩)

end Runs

end Bodies
end Zdeceptron
