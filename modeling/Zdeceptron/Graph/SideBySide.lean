import Zdeceptron.Graph.Related

/-!
# Bodies walked side by side

The rules of the walk, over one body and two tables of summaries: `expr_related` for its
expressions, `block_related` for its statements, `nodes_related` for a view.
-/

namespace Zdeceptron
namespace Graph

open Library

section Scopes

/-- An expression that reads the locals `L` and calls the functions `C` alone. -/
structure Scoped (hir : Hir) (L : LocalId → Prop) (C : DefId → Prop) (e : Expr) : Prop where
  locals : ∀ id local_, Expr.Within (.ref id (.local_ local_)) e → L local_
  callees : ∀ d, .call d ∈ exprSites hir e → C d

variable {hir : Hir} {L : LocalId → Prop} {C : DefId → Prop}

theorem Scoped.child {c e : Expr} (h : Scoped hir L C e) (hc : c ∈ e.children) :
    Scoped hir L C c where
  locals id local_ hin := h.locals id local_ (.child hc hin)
  callees d hd := h.callees d (mem_exprSites.mpr (.inr ⟨c, hc, hd⟩))

theorem Scoped.own {e : Expr} (h : Scoped hir L C e) {d : DefId} (hd : .call d ∈ ownSites hir e) :
    C d :=
  h.callees d (mem_exprSites.mpr (.inl hd))

theorem Expr.induct_children {P : Expr → Prop} (h : ∀ e : Expr, (∀ c ∈ e.children, P c) → P e)
    (e : Expr) : P e :=
  h e (fun c _ => Expr.induct_children h c)
termination_by sizeOf e
decreasing_by exact sizeOf_children (by assumption)

end Scopes

namespace Pass

/-- The same walk, over another table of summaries. -/
def reading (p : Pass) (callee : DefId → Summary) : Pass := { p with callee := callee }

@[simp] theorem reading_hir (p : Pass) (callee : DefId → Summary) :
    (p.reading callee).hir = p.hir := rfl

@[simp] theorem reading_split (p : Pass) (callee : DefId → Summary) :
    (p.reading callee).split = p.split := rfl

@[simp] theorem reading_ctx (p : Pass) (callee : DefId → Summary) :
    (p.reading callee).ctx = p.ctx := rfl

@[simp] theorem reading_owner (p : Pass) (callee : DefId → Summary) :
    (p.reading callee).owner = p.owner := rfl

@[simp] theorem reading_callee (p : Pass) (callee : DefId → Summary) :
    (p.reading callee).callee = callee := rfl

variable {p : Pass} {callee : DefId → Summary} {T : Prop} {R : Sym → Sym → Prop}
  {I : ObligationId → Prop} {L : LocalId → Prop} {C : DefId → Prop}

section Lists

variable {α : Type}

theorem exprs_eq_map (p : Pass) (items : List Expr) : p.exprs items = items.map p.expr := by
  induction items with
  | nil => rfl
  | cons item items ih => rw [exprs, ih, List.map_cons]

theorem entries_eq_map (p : Pass) (entries : List (Expr × Expr)) :
    p.entries_ entries = (entries.flatMap (fun entry => [entry.1, entry.2])).map p.expr := by
  induction entries with
  | nil => rfl
  | cons entry entries ih =>
      rw [entries_, ih, List.flatMap_cons]
      rfl

theorem args_eq_map (p : Pass) (args : List (Arg Expr)) :
    p.args_ args = args.map (Arg.map p.expr) := by
  induction args with
  | nil => rfl
  | cons arg args ih =>
      rw [args_, ih, List.map_cons]
      rfl

theorem map_value_map {β : Type} (f : α → β) (args : List (Arg α)) :
    (args.map (Arg.map f)).map Arg.value = (args.map Arg.value).map f := by
  rw [List.map_map, List.map_map]
  rfl

theorem map_id_map {β : Type} (f : α → β) (args : List (Arg α)) :
    (args.map (Arg.map f)).map Arg.id = args.map Arg.id := by
  rw [List.map_map]
  rfl

theorem related_each {f f' : α → WalkM SymLabel} {items : List α}
    (h : ∀ item ∈ items, Related (WalkRel p.hir T R I L) (LabelRel R) (f item) (f' item)) :
    Related (WalkRel p.hir T R I L) (List.Forall₂ (LabelRel R)) (each (items.map f))
      (each (items.map f')) := by
  induction items with
  | nil => exact .of_pure .nil
  | cons item items ih =>
      rw [List.forall_mem_cons] at h
      refine h.1.bind (fun label label' hlabel => ?_)
      refine (ih h.2).bind (fun labels labels' hlabels => ?_)
      exact .of_pure (.cons hlabel hlabels)

end Lists

section Rules

theorem exists_remoteFailure (p : Pass) (endpoint : RootId) :
    ∃ secrecy, p.remoteFailure endpoint = .ofFloor secrecy := by
  unfold remoteFailure
  dsimp only
  split
  · exact ⟨.secret, rfl⟩
  · exact ⟨.public_, rfl⟩

theorem related_read (hR : Logical R) (signal : DefId) (id : ExprId) :
    Related (WalkRel p.hir T R I L) (LabelRel R) (p.read signal id)
      ((p.reading callee).read signal id) := by
  unfold read
  simp only [reading_hir, reading_split, reading_ctx]
  split
  · rename_i endpoint _
    obtain ⟨secrecy, hfailure⟩ := p.exists_remoteFailure endpoint
    have hfailure' : (p.reading callee).remoteFailure endpoint = .ofFloor secrecy := hfailure
    refine Related.of_get.bind (fun w w' hw => ?_)
    rw [hw.urlArgument, hfailure, hfailure']
    refine Related.bind (related_oblige hR (hR.ofFloor _) hw.pc) (fun _ _ _ => ?_)
    exact .of_pure ⟨hR.bot, hR.bot, hR.ofFloor _⟩
  · exact .of_pure (hR.declared _)

theorem related_refLabel (hR : Logical R) {id : ExprId} {res : Res}
    (h : Scoped p.hir L C (.ref id res)) :
    Related (WalkRel p.hir T R I L) (LabelRel R) (p.refLabel id res)
      ((p.reading callee).refLabel id res) := by
  cases res with
  | local_ local_ =>
      refine Related.of_get.bind (fun w w' hw => .of_pure ?_)
      exact hw.locals local_ (h.locals id local_ .self)
  | def_ d =>
      simp only [refLabel, reading_hir]
      split
      · exact related_read hR d id
      · exact .of_pure hR.bottom
  | _ => exact .of_pure hR.bottom

theorem related_obligeArguments (hR : Logical R) (foreign : DefId) (slots : List (Option Nat))
    (ids : List ExprId) {labels labels' : List SymLabel}
    (h : List.Forall₂ (LabelRel R) labels labels') :
    Related (WalkRel p.hir T R I L) (fun _ _ => True) (p.obligeArguments foreign slots ids labels)
      ((p.reading callee).obligeArguments foreign slots ids labels') := by
  induction h generalizing slots ids with
  | nil =>
      match slots, ids with
      | [], _ => exact .of_pure trivial
      | none :: _, [] => exact .of_pure trivial
      | none :: _, _ :: _ => exact .of_pure trivial
      | some _ :: _, [] => exact .of_pure trivial
      | some _ :: _, _ :: _ => exact .of_pure trivial
  | cons hlabel _ ih =>
      match slots, ids with
      | [], _ => exact .of_pure trivial
      | none :: _, [] => exact .of_pure trivial
      | some _ :: _, [] => exact .of_pure trivial
      | none :: slots, _ :: ids => exact ih slots ids
      | some _ :: slots, _ :: ids =>
          refine Related.of_get.bind (fun w w' hw => ?_)
          exact (related_oblige hR hlabel.value hw.pc).bind (fun _ _ _ => ih slots ids)

section Calls

variable {args : List (Arg Expr)}
  (h : ∀ arg ∈ args.map Arg.value, Related (WalkRel p.hir T R I L) (LabelRel R) (p.expr arg)
    ((p.reading callee).expr arg))
include h

theorem related_constructed (hR : Logical R) :
    Related (WalkRel p.hir T R I L) (LabelRel R) (constructed (args.map (Arg.map p.expr)))
      (constructed (args.map (Arg.map (p.reading callee).expr))) := by
  unfold constructed
  rw [map_value_map, map_value_map]
  exact (related_each h).bind (fun _ _ hlabels => .of_pure (.triple (hR.joinValues hlabels)))

theorem related_foreign (hR : Logical R) (d : DefId) (declared : Foreign) :
    Related (WalkRel p.hir T R I L) (LabelRel R) (p.foreign d declared (args.map (Arg.map p.expr)))
      ((p.reading callee).foreign d declared (args.map (Arg.map (p.reading callee).expr))) := by
  unfold foreign
  rw [map_value_map, map_value_map, map_id_map, map_id_map, foreignSlots_map, foreignSlots_map]
  refine (related_each h).bind (fun labels labels' hlabels => ?_)
  exact (related_runIf _ (related_obligeArguments hR d _ _ hlabels)).bind
    (fun _ _ _ => .of_pure (.triple (hR.joinValues hlabels)))

theorem related_callFunction (hR : Logical R) (hI : ∀ id, I id → Rising R) {d : DefId}
    (hd : SummaryRel p.hir T R I (p.callee d) (callee d)) (function : Function) :
    Related (WalkRel p.hir T R I L) (LabelRel R)
      (p.callFunction d function (args.map (Arg.map p.expr)))
      ((p.reading callee).callFunction d function
        (args.map (Arg.map (p.reading callee).expr))) := by
  unfold callFunction
  simp only [orderArgs_map, List.map_map, reading_hir, reading_callee]
  refine (related_each ?_).bind (fun labels labels' hlabels => ?_)
  · intro slot hslot
    cases slot with
    | none => exact .of_pure hR.bottom
    | some value => exact h value (mem_orderArgs hslot)
  · refine (related_propagate hR hI hd hlabels).bind (fun _ _ _ => ?_)
    exact .of_pure (hd.result hlabels)

theorem related_call (hR : Logical R) (hI : ∀ id, I id → Rising R) {res : Res}
    (hC : ∀ d function, res = .def_ d → p.hir.kind d = some (.function function) →
      SummaryRel p.hir T R I (p.callee d) (callee d)) :
    Related (WalkRel p.hir T R I L) (LabelRel R) (p.call res (args.map (Arg.map p.expr)))
      ((p.reading callee).call res (args.map (Arg.map (p.reading callee).expr))) := by
  cases res with
  | def_ d =>
      simp only [call, reading_hir]
      cases hkind : p.hir.kind d with
      | none => exact related_constructed h hR
      | some kind =>
          cases kind with
          | foreign declared => exact related_foreign h hR d declared
          | function function =>
              exact related_callFunction h hR hI (hC d function rfl hkind) function
          | _ => exact related_constructed h hR
  | _ => exact related_constructed h hR

end Calls

theorem related_outbound (hR : Logical R) (hI : ∀ id, I id → Rising R) {args : List (Arg Expr)}
    (h : ∀ arg ∈ args.map Arg.value, Related (WalkRel p.hir T R I L) (LabelRel R) (p.expr arg)
      ((p.reading callee).expr arg)) :
    Related (WalkRel p.hir T R I L) (fun _ _ => True) (p.outbound (args.map (Arg.map p.expr)))
      ((p.reading callee).outbound (args.map (Arg.map (p.reading callee).expr))) := by
  induction args with
  | nil => exact .of_pure trivial
  | cons arg args ih =>
      rw [List.map_cons, List.forall_mem_cons] at h
      refine Related.of_get.bind (fun w w' hw => ?_)
      rw [hw.urlArgument]
      refine (related_setUrl _).bind (fun _ _ _ => ?_)
      refine h.1.bind (fun found found' hfound => ?_)
      refine (related_setUrl _).bind (fun _ _ _ => ?_)
      refine (related_requireAt hR hI _ _ hfound.value _).bind (fun _ _ _ => ?_)
      exact ih h.2

theorem expr_related (hR : Logical R) (hI : ∀ id, I id → Rising R)
    (hC : ∀ d, C d → SummaryRel p.hir T R I (p.callee d) (callee d)) (e : Expr)
    (he : Scoped p.hir L C e) :
    Related (WalkRel p.hir T R I L) (LabelRel R) (p.expr e) ((p.reading callee).expr e) := by
  induction e using Expr.induct_children with
  | h e ih =>
      have ih : ∀ c ∈ e.children, Related (WalkRel p.hir T R I L) (LabelRel R) (p.expr c)
          ((p.reading callee).expr c) := fun c hc => ih c hc (he.child hc)
      cases e with
      | number _ | text _ | truth _ | empty | address | media _ | scroll => exact .of_pure hR.bottom
      | environment _ => exact .of_pure (hR.declared _)
      | ref id res => exact related_refLabel hR he
      | outbound destination args =>
          rw [expr, expr, args_eq_map, args_eq_map]
          exact (related_outbound hR hI ih).bind (fun _ _ _ => .of_pure hR.bottom)
      | build _ argument =>
          refine (ih argument (by simp [Expr.children])).bind (fun inner inner' hinner => ?_)
          exact .of_pure (.triple hinner.value)
      | conditional condition value otherwise =>
          refine (ih condition (by simp [Expr.children])).bind (fun asked asked' hasked => ?_)
          refine (ih value (by simp [Expr.children])).bind (fun taken taken' htaken => ?_)
          refine (ih otherwise (by simp [Expr.children])).bind (fun other other' hother => ?_)
          exact .of_pure (.triple (hR.sup (hR.sup hasked.value htaken.value) hother.value))
      | list items =>
          rw [expr, expr, exprs_eq_map, exprs_eq_map]
          exact (related_each ih).bind
            (fun _ _ hlabels => .of_pure (.triple (hR.joinValues hlabels)))
      | map entries =>
          rw [expr, expr, entries_eq_map, entries_eq_map]
          exact (related_each ih).bind
            (fun _ _ hlabels => .of_pure (.triple (hR.joinValues hlabels)))
      | call res args =>
          rw [expr, expr, args_eq_map, args_eq_map]
          refine related_call ih hR hI (fun d function hres hkind => hC d (he.own ?_))
          subst hres
          simp [ownSites, callSites, hkind]
      | ofCall res id operand =>
          have hoperand : ∀ arg ∈ [(⟨none, id, operand⟩ : Arg Expr)].map Arg.value,
              Related (WalkRel p.hir T R I L) (LabelRel R) (p.expr arg)
                ((p.reading callee).expr arg) := ih
          refine related_call hoperand hR hI (fun d function hres hkind => hC d (he.own ?_))
          subst hres
          simp [ownSites, ofCallSites, hkind]
      | operator _ operand | unary _ operand =>
          refine (ih operand (by simp [Expr.children])).bind (fun inner inner' hinner => ?_)
          exact .of_pure ⟨hinner.value, hinner.value, hinner.failure⟩
      | binary _ lhs rhs =>
          refine (ih lhs (by simp [Expr.children])).bind (fun left left' hleft => ?_)
          refine (ih rhs (by simp [Expr.children])).bind (fun right right' hright => ?_)
          exact .of_pure (.triple (hR.sup hleft.value hright.value))
      | field base name =>
          refine Related.of_get.bind (fun w w' hw => ?_)
          have hbinder : isFailureBinder w' base = isFailureBinder w base := by
            unfold isFailureBinder
            rw [hw.failureBinders]
          rw [hbinder]
          split
          · exact .of_pure hR.bottom
          · refine (ih base (by simp [Expr.children])).bind (fun inner inner' hinner => ?_)
            exact .of_pure (.triple hinner.value)
      | index base key =>
          refine (ih base (by simp [Expr.children])).bind (fun container container' hc => ?_)
          refine (ih key (by simp [Expr.children])).bind (fun index index' hindex => ?_)
          exact .of_pure (.triple (hR.sup (hR.sup hc.shape hc.value) hindex.value))
      | append item list =>
          refine (ih item (by simp [Expr.children])).bind (fun element element' helement => ?_)
          refine (ih list (by simp [Expr.children])).bind (fun rest rest' hrest => ?_)
          exact .of_pure (.triple (hR.sup (hR.sup helement.value hrest.shape) hrest.value))
      | insert key value table =>
          refine (ih key (by simp [Expr.children])).bind (fun k k' hk => ?_)
          refine (ih value (by simp [Expr.children])).bind (fun v v' hv => ?_)
          refine (ih table (by simp [Expr.children])).bind (fun rest rest' hrest => ?_)
          exact .of_pure (.triple
            (hR.sup (hR.sup (hR.sup hk.value hv.value) hrest.shape) hrest.value))
      | mapInside var source mapped =>
          refine (ih source (by simp [Expr.children])).bind (fun container container' hc => ?_)
          refine (related_bindLocal var (.triple hc.value)).bind (fun _ _ _ => ?_)
          refine (ih mapped (by simp [Expr.children])).bind (fun inner inner' hinner => ?_)
          refine Related.of_get.bind (fun w w' hw => .of_pure (hR.settle (hR.joinAll ?_ hw.pc)))
          exact ⟨hR.sup hinner.value hc.shape, hinner.value, hR.sup hinner.value hc.failure⟩

end Rules

section Statements

variable (hR : Logical R) (hI : ∀ id, I id → Rising R)
  (hC : ∀ d, C d → SummaryRel p.hir T R I (p.callee d) (callee d))

theorem related_returns (hR : Logical R) {value value' : SymLabel} (h : LabelRel R value value') :
    Related (WalkRel p.hir T R I L) (fun _ _ => True) (returns value) (returns value') :=
  .of_modify (fun _ _ hw =>
    { hw with result := hR.label_sup hw.result (hR.joinAll h hw.pc) })

theorem related_closeRun (hR : Logical R) :
    Related (WalkRel p.hir T R I L) (fun _ _ => True) closeRun closeRun :=
  Related.of_get.bind (fun _ _ hw => related_returns hR hw.acc)

theorem related_bindElement (var : LocalId) :
    Related (WalkRel p.hir T R I L) (fun _ _ => True) (bindElement var) (bindElement var) :=
  Related.of_get.bind (fun _ _ hw => related_bindLocal var (.triple hw.acc.value))

theorem related_joinShape (hR : Logical R) {label label' : SymLabel} (h : LabelRel R label label') :
    Related (WalkRel p.hir T R I L) (fun _ _ => True) (joinShape label) (joinShape label') := by
  refine .of_modify (fun w w' hw => { hw with acc := hR.settle ⟨?_, hw.acc.value, hw.acc.failure⟩ })
  exact hR.sup (hR.sup hw.acc.shape h.value) hw.pc

include hR hI hC

theorem gives_related {e : Expr} (he : Scoped p.hir L C e) :
    Related (WalkRel p.hir T R I L) (fun _ _ => True) (p.gives e) ((p.reading callee).gives e) :=
  (expr_related hR hI hC e he).bind (fun _ _ hvalue => related_returns hR hvalue)

theorem pipeline_related {clause : Pipeline} (h : ∀ e ∈ pipelineExprs clause, Scoped p.hir L C e) :
    Related (WalkRel p.hir T R I L) (fun _ _ => True) (p.pipeline clause)
      ((p.reading callee).pipeline clause) := by
  have hexpr : ∀ e ∈ pipelineExprs clause, Related (WalkRel p.hir T R I L) (LabelRel R) (p.expr e)
      ((p.reading callee).expr e) := fun e he => expr_related hR hI hC e (h e he)
  cases clause with
  | source e =>
      refine (hexpr e (by simp [pipelineExprs])).bind (fun value value' hvalue => ?_)
      exact .of_modify (fun w w' hw =>
        { hw with acc := hR.label_sup hw.acc (hR.joinAll hvalue hw.pc) })
  | keep var cond | sort var cond =>
      refine (related_bindElement var).bind (fun _ _ _ => ?_)
      exact (hexpr cond (by simp [pipelineExprs])).bind (fun _ _ h => related_joinShape hR h)
  | mapEach var mapped =>
      refine (related_bindElement var).bind (fun _ _ _ => ?_)
      refine (hexpr mapped (by simp [pipelineExprs])).bind (fun label label' hlabel => ?_)
      refine .of_modify (fun w w' hw => { hw with acc := ⟨hw.acc.shape, ?_, hw.acc.failure⟩ })
      exact hR.sup (hR.sup hw.acc.value hlabel.value) hw.pc
  | takeFirst count =>
      exact (hexpr count (by simp [pipelineExprs])).bind (fun _ _ h => related_joinShape hR h)
  | fold item total starting step =>
      refine (hexpr starting (by simp [pipelineExprs])).bind (fun seed seed' hseed => ?_)
      refine (related_bindElement item).bind (fun _ _ _ => ?_)
      refine (related_bindLocal total hseed).bind (fun _ _ _ => ?_)
      refine (hexpr step (by simp [pipelineExprs])).bind (fun label label' hlabel => ?_)
      refine .of_modify (fun w w' hw => { hw with acc := .triple ?_ })
      exact hR.sup (hR.sup (hR.sup hw.acc.shape hseed.value) hlabel.value) hw.pc

theorem writtenValue_related {indexes : List Expr}
    (h : ∀ e ∈ indexes, Scoped p.hir L C e) {found found' : Sym} (hfound : R found found') :
    Related (WalkRel p.hir T R I L) R (p.writtenValue found indexes)
      ((p.reading callee).writtenValue found' indexes) := by
  induction indexes generalizing found found' with
  | nil => exact .of_pure hfound
  | cons index indexes ih =>
      rw [List.forall_mem_cons] at h
      refine (expr_related hR hI hC index h.1).bind (fun label label' hlabel => ?_)
      exact ih h.2 (hR.sup hfound hlabel.value)

theorem mutation_related {m : Mutation}
    (h : ∀ e ∈ m.value :: indexesOf m.place.path, Scoped p.hir L C e) :
    Related (WalkRel p.hir T R I L) (fun _ _ => True) (p.mutation m)
      ((p.reading callee).mutation m) := by
  rw [List.forall_mem_cons] at h
  refine (expr_related hR hI hC m.value h.1).bind (fun rhs rhs' hrhs => ?_)
  refine (writtenValue_related hR hI hC h.2 hrhs.value).bind (fun found found' hfound => ?_)
  refine Related.of_get.bind (fun w w' hw => ?_)
  rw [hw.localSignals]
  simp only [reading_hir, reading_owner]
  split
  · exact related_runIf _ (related_oblige hR hfound hw.pc)
  · exact related_runIf _ (related_oblige hR hfound hw.pc)
  · exact .of_pure trivial

theorem effect_related {run : Effect} (h : ∀ e ∈ run.exprs, Scoped p.hir L C e) :
    Related (WalkRel p.hir T R I L) (fun _ _ => True) (p.effect run)
      ((p.reading callee).effect run) := by
  cases run with
  | mutation written => exact mutation_related hR hI hC h
  | call e =>
      exact (expr_related hR hI hC e (h e List.mem_cons_self)).bind
        (fun _ _ _ => .of_pure trivial)

theorem bindings_related {bound : List (LocalId × Expr)}
    (h : ∀ e ∈ bound.map Prod.snd, Scoped p.hir L C e) :
    Related (WalkRel p.hir T R I L) (fun _ _ => True) (p.bindings bound)
      ((p.reading callee).bindings bound) := by
  induction bound with
  | nil => exact .of_pure trivial
  | cons binding bound ih =>
      rw [List.map_cons, List.forall_mem_cons] at h
      refine (expr_related hR hI hC binding.2 h.1).bind (fun label label' hlabel => ?_)
      refine Related.of_get.bind (fun w w' hw => ?_)
      exact (related_bindLocal binding.1 (hR.joinAll hlabel hw.pc)).bind (fun _ _ _ => ih h.2)

/-- What the arms of a `when` leave in the accumulator, if there are any. -/
inductive MergedRel (R : Sym → Sym → Prop) : Option SymLabel → Option SymLabel → Prop
  | none : MergedRel R none none
  | some {s s' : SymLabel} : LabelRel R s s' → MergedRel R (some s) (some s')

variable {merged merged' : Option SymLabel} {acc acc' : SymLabel}

omit hR hI hC in
theorem MergedRel.getD (h : MergedRel R merged merged') (hacc : LabelRel R acc acc') :
    LabelRel R (merged.getD acc) (merged'.getD acc') := by
  cases h with
  | none => exact hacc
  | some h => exact h

omit hI hC in
theorem MergedRel.next (h : MergedRel R merged merged') (hacc : LabelRel R acc acc') :
    MergedRel R (Option.some (mergeArm merged acc)) (Option.some (mergeArm merged' acc')) := by
  cases h with
  | none => exact .some hacc
  | some h => exact .some (hR.label_sup h hacc)

omit hR hI hC in
theorem forall_ifThen_exprs {P : Expr → Prop} {cond : Expr} {then_ : Block}
    {otherwise : Option Block} :
    (∀ e ∈ stmtExprs (.ifThen cond then_ otherwise), P e) ↔ P cond ∧ (∀ e ∈ blockExprs then_, P e) ∧
        ∀ other, otherwise = some other → ∀ e ∈ blockExprs other, P e := by
  cases otherwise <;> simp [stmtExprs, or_imp, forall_and]

/-- The expressions of the body of an arm. -/
def armBodyExprs : Bodies.ArmBody Expr Effect → List Expr
  | .show_ e => [e]
  | .block stmts => blockExprs stmts

omit hR hI hC in
theorem forall_arm_exprs {P : Expr → Prop} {name : String} {binders : List LocalId}
    {body : Bodies.ArmBody Expr Effect} {rest : List Arm} :
    (∀ e ∈ armExprs (.mk name binders body :: rest), P e) ↔
      (∀ e ∈ armBodyExprs body, P e) ∧ ∀ e ∈ armExprs rest, P e := by
  cases body <;> simp [armExprs, armBodyExprs, or_imp, forall_and]

mutual

theorem stmt_related : (s : Stmt) → (∀ e ∈ stmtExprs s, Scoped p.hir L C e) →
    Related (WalkRel p.hir T R I L) (fun _ _ => True) (p.stmt s) ((p.reading callee).stmt s)
  | .pipeline clause, h => pipeline_related hR hI hC h
  | .give e, h => gives_related hR hI hC (h e List.mem_cons_self)
  | .mutation written, h => effect_related hR hI hC h
  | .perform run, h => effect_related hR hI hC h
  | .bind bound, h => bindings_related hR hI hC h
  | .when scrutinee arms_, h => by
      rw [stmtExprs, List.forall_mem_cons] at h
      refine (expr_related hR hI hC scrutinee h.1).bind (fun label label' hlabel => ?_)
      refine Related.of_get.bind (fun w w' hw => ?_)
      refine (related_setPc (hR.sup hw.pc hlabel.shape)).bind (fun _ _ _ => ?_)
      refine (arms_related hlabel hw.acc .none arms_ h.2).bind (fun merged merged' hm => ?_)
      exact (related_setAcc (hm.getD hw.acc)).bind (fun _ _ _ => related_setPc hw.pc)
  | .each var iter body, h => by
      rw [stmtExprs, List.forall_mem_cons] at h
      refine (expr_related hR hI hC iter h.1).bind (fun label label' hlabel => ?_)
      refine Related.of_get.bind (fun w w' hw => ?_)
      refine (related_setPc (hR.sup hw.pc hlabel.shape)).bind (fun _ _ _ => ?_)
      refine (related_bindLocal var (.triple hlabel.value)).bind (fun _ _ _ => ?_)
      refine (block_related body h.2).bind (fun _ _ _ => ?_)
      exact .of_modify (fun after after' hafter =>
        { hafter with acc := hR.label_sup hw.acc hafter.acc, pc := hw.pc })
  | .ifThen cond then_ otherwise, h => by
      obtain ⟨hcond, hthen, hother⟩ := forall_ifThen_exprs.mp h
      refine (expr_related hR hI hC cond hcond).bind (fun label label' hlabel => ?_)
      refine Related.of_get.bind (fun w w' hw => ?_)
      refine (related_setPc (hR.sup hw.pc hlabel.value)).bind (fun _ _ _ => ?_)
      refine (block_related then_ hthen).bind (fun _ _ _ => ?_)
      refine Related.of_get.bind (fun afterThen afterThen' hafterThen => ?_)
      refine (related_setAcc hw.acc).bind (fun _ _ _ => ?_)
      refine (elseBlock_related otherwise hother).bind (fun _ _ _ => ?_)
      exact .of_modify (fun after after' hafter =>
        { hafter with
          acc := hR.label_sup (hR.label_sup hw.acc hafterThen.acc) hafter.acc
          pc := hw.pc })

theorem arms_related {scrutinee scrutinee' before before' : SymLabel}
    (hscrutinee : LabelRel R scrutinee scrutinee') (hbefore : LabelRel R before before')
    {merged merged' : Option SymLabel} (hmerged : MergedRel R merged merged') :
    (arms_ : List Arm) → (∀ e ∈ armExprs arms_, Scoped p.hir L C e) →
      Related (WalkRel p.hir T R I L) (MergedRel R) (p.arms scrutinee before merged arms_)
        ((p.reading callee).arms scrutinee' before' merged' arms_)
  | [], _ => .of_pure hmerged
  | .mk name binders body :: rest, h => by
      obtain ⟨hbody, hrest⟩ := forall_arm_exprs.mp h
      refine (related_enterArm hscrutinee name binders).bind (fun _ _ _ => ?_)
      refine (related_setAcc hbefore).bind (fun _ _ _ => ?_)
      refine (armBody_related body hbody).bind (fun _ _ _ => ?_)
      refine Related.of_get.bind (fun w w' hw => ?_)
      exact arms_related hscrutinee hbefore (hmerged.next hR hw.acc) rest hrest

theorem armBody_related : (body : Bodies.ArmBody Expr Effect) →
    (∀ e ∈ armBodyExprs body, Scoped p.hir L C e) →
      Related (WalkRel p.hir T R I L) (fun _ _ => True) (p.armBody body)
        ((p.reading callee).armBody body)
  | .show_ e, h => gives_related hR hI hC (h e List.mem_cons_self)
  | .block stmts, h => block_related stmts h

theorem elseBlock_related : (otherwise : Option Block) →
    (∀ other, otherwise = some other → ∀ e ∈ blockExprs other, Scoped p.hir L C e) →
      Related (WalkRel p.hir T R I L) (fun _ _ => True) (p.elseBlock otherwise)
        ((p.reading callee).elseBlock otherwise)
  | none, _ => .of_pure trivial
  | some other, h => block_related other (h other rfl)

theorem block_related : (b : Block) → (∀ e ∈ blockExprs b, Scoped p.hir L C e) →
    Related (WalkRel p.hir T R I L) (fun _ _ => True) (p.block b) ((p.reading callee).block b)
  | [], _ => .of_pure trivial
  | first :: rest, h => by
      rw [blockExprs, List.forall_mem_append] at h
      refine (stmt_related first h.1).bind (fun _ _ _ => ?_)
      refine (related_runIf _ (related_closeRun hR)).bind (fun _ _ _ => ?_)
      exact block_related rest h.2

end

end Statements

end Pass

end Graph
end Zdeceptron
