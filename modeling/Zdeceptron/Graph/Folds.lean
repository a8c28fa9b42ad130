import Zdeceptron.Graph.SideBySide

/-!
# The label of a fold

A fold is walked as if its step were taken once.  What its label has to cover is the label of
the step when the total is already worth it.

* `fold_covers_iff`: the steps for which it covers every later step.
-/

namespace Zdeceptron
namespace Graph

open Library

section Frames

namespace Pass

def frame (w : Walk) : SymLabel × Sym := (w.acc, w.pc)

variable (p : Pass)

theorem keeps_obligeAt (id : ObligationId) (o : Obligation) : Keeps frame (obligeAt id o) :=
  .of_modify (fun _ => rfl)

theorem keeps_bindLocal (id : LocalId) (label : SymLabel) : Keeps frame (bindLocal id label) :=
  .of_modify (fun _ => rfl)

theorem keeps_setUrl (url : Option UrlPosition) : Keeps frame (setUrl url) :=
  .of_modify (fun _ => rfl)

theorem keeps_runIf (condition : Bool) {run : WalkM Unit} (h : Keeps frame run) :
    Keeps frame (runIf condition run) := by
  unfold runIf
  split
  · exact h
  · exact .of_pure ()

theorem keeps_read (signal : DefId) (id : ExprId) : Keeps frame (p.read signal id) := by
  unfold read
  dsimp only
  split
  · exact Keeps.of_get.bind (fun _ => (keeps_obligeAt _ _).bind (fun _ => .of_pure _))
  · exact .of_pure _

theorem keeps_refLabel (id : ExprId) (res : Res) : Keeps frame (p.refLabel id res) := by
  cases res with
  | local_ local_ => exact Keeps.of_get.bind (fun _ => .of_pure _)
  | def_ d =>
      simp only [refLabel]
      split
      · exact p.keeps_read d id
      · exact .of_pure _
  | _ => exact .of_pure _

theorem keeps_requireAt (sink : Sink) (site : SinkSite) (value : Sym) (span : Span) :
    Keeps frame (requireAt sink site value span) := by
  refine Keeps.of_get.bind (fun w => ?_)
  split
  · exact .of_pure ()
  · exact keeps_obligeAt _ _

theorem keeps_each {walks : List (WalkM SymLabel)} (h : ∀ walk ∈ walks, Keeps frame walk) :
    Keeps frame (each walks) := by
  induction walks with
  | nil => exact .of_pure []
  | cons walk walks ih =>
      rw [List.forall_mem_cons] at h
      exact h.1.bind (fun _ => (ih h.2).bind (fun _ => .of_pure _))

theorem keeps_obligeArguments (foreign : DefId) (slots : List (Option Nat)) (ids : List ExprId)
    (labels : List SymLabel) : Keeps frame (p.obligeArguments foreign slots ids labels) := by
  fun_induction obligeArguments with
  | case1 slots id ids label labels ih => exact ih
  | case2 index slots id ids label labels ih =>
      exact Keeps.of_get.bind (fun _ => (keeps_obligeAt _ _).bind (fun _ => ih))
  | case3 => exact .of_pure ()

theorem keeps_propagate (labels : List SymLabel)
    (entries : List (Sigma fun _ : ObligationId => Obligation)) :
    Keeps frame (propagate labels entries) := by
  intro w
  rw [run_propagate]
  rfl

variable {args : List (Arg Expr)} (h : ∀ e ∈ args.map Arg.value, Keeps frame (p.expr e))
include h

theorem keeps_args : ∀ walk ∈ (p.args_ args).map Arg.value, Keeps frame walk := by
  rw [args_eq_map, map_value_map]
  intro walk hwalk
  obtain ⟨e, he, rfl⟩ := List.mem_map.mp hwalk
  exact h e he

theorem keeps_outbound : Keeps frame (p.outbound (p.args_ args)) := by
  induction args with
  | nil => exact .of_pure ()
  | cons arg args ih =>
      rw [List.map_cons, List.forall_mem_cons] at h
      refine Keeps.of_get.bind (fun w => (keeps_setUrl _).bind (fun _ => ?_))
      refine h.1.bind (fun found => (keeps_setUrl _).bind (fun _ => ?_))
      exact (keeps_requireAt _ _ _ _).bind (fun _ => ih h.2)

theorem keeps_call (callee : Res) : Keeps frame (p.call callee (p.args_ args)) := by
  have hargs := p.keeps_args h
  have hconstructed : Keeps frame (constructed (p.args_ args)) :=
    (keeps_each hargs).bind (fun _ => .of_pure _)
  unfold call
  split
  · split
    · refine (keeps_each hargs).bind (fun labels => ?_)
      exact (keeps_runIf _ (p.keeps_obligeArguments _ _ _ labels)).bind (fun _ => .of_pure _)
    · refine Keeps.bind (keeps_each (fun walk hwalk => ?_)) (fun labels => ?_)
      · obtain ⟨slot, hslot, rfl⟩ := List.mem_map.mp hwalk
        cases slot with
        | none => exact .of_pure _
        | some value => exact hargs value (mem_orderArgs hslot)
      · exact (keeps_propagate labels _).bind (fun _ => .of_pure _)
    · exact hconstructed
  · exact hconstructed

omit h in
theorem keeps_expr (e : Expr) : Keeps frame (p.expr e) := by
  induction e using Expr.induct_children with
  | h e ih =>
      cases e with
      | ref id res => exact p.keeps_refLabel id res
      | outbound _ args => exact (p.keeps_outbound ih).bind (fun _ => .of_pure _)
      | call callee args => exact p.keeps_call ih callee
      | ofCall callee id operand =>
          have hoperand : ∀ e ∈ [(⟨none, id, operand⟩ : Arg Expr)].map Arg.value,
              Keeps frame (p.expr e) := ih
          exact p.keeps_call hoperand callee
      | list items =>
          rw [expr, exprs_eq_map]
          refine (keeps_each (fun walk hwalk => ?_)).bind (fun _ => .of_pure _)
          obtain ⟨item, hitem, rfl⟩ := List.mem_map.mp hwalk
          exact ih item hitem
      | map entries =>
          rw [expr, entries_eq_map]
          refine (keeps_each (fun walk hwalk => ?_)).bind (fun _ => .of_pure _)
          obtain ⟨entry, hentry, rfl⟩ := List.mem_map.mp hwalk
          exact ih entry hentry
      | build _ argument | operator _ argument | unary _ argument =>
          exact (ih argument (by simp [Expr.children])).bind (fun _ => .of_pure _)
      | conditional first second third | insert first second third =>
          refine (ih first (by simp [Expr.children])).bind (fun _ => ?_)
          refine (ih second (by simp [Expr.children])).bind (fun _ => ?_)
          exact (ih third (by simp [Expr.children])).bind (fun _ => .of_pure _)
      | binary _ first second | index first second | append first second =>
          refine (ih first (by simp [Expr.children])).bind (fun _ => ?_)
          exact (ih second (by simp [Expr.children])).bind (fun _ => .of_pure _)
      | field base name =>
          refine Keeps.of_get.bind (fun w => ?_)
          split
          · exact .of_pure _
          · exact (ih base (by simp [Expr.children])).bind (fun _ => .of_pure _)
      | mapInside var source mapped =>
          refine (ih source (by simp [Expr.children])).bind (fun _ => ?_)
          refine (keeps_bindLocal _ _).bind (fun _ => ?_)
          refine (ih mapped (by simp [Expr.children])).bind (fun _ => ?_)
          exact Keeps.of_get.bind (fun _ => .of_pure _)
      | _ => exact .of_pure _

end Pass

end Frames

section Steps

variable {hir : Hir} {R : Sym → Sym → Prop}

theorem SummaryRel.self (hR : Logical R) (s : Summary) :
    SummaryRel hir False R (fun _ => False) s s where
  result hargs := ⟨hR.instantiate hargs _, hR.instantiate hargs _, hR.instantiate hargs _⟩
  found _ _ := False.elim
  pc _ _ := False.elim
  isSome _ := False.elim
  required := False.elim
  required' := False.elim

namespace Pass

variable (p : Pass)

theorem expr_label_related (hR : Logical R) (hrefl : ∀ s, R s s) (e : Expr) (w : Walk)
    {locals locals' : LocalId → SymLabel} (hlocals : ∀ id, LabelRel R (locals id) (locals' id)) :
    LabelRel R ((p.expr e).run { w with locals := locals }).1
      ((p.expr e).run { w with locals := locals' }).1 := by
  have hstart : WalkRel p.hir False R (fun _ => False) (fun _ => True)
      { w with locals := locals } { w with locals := locals' } :=
    { locals := fun id _ => hlocals id
      localSignals := rfl
      failureBinders := rfl
      pc := hrefl _
      acc := ⟨hrefl _, hrefl _, hrefl _⟩
      result := ⟨hrefl _, hrefl _, hrefl _⟩
      obligations := fun _ => False.elim
      urlArgument := rfl }
  have hcallees : ∀ d, True → SummaryRel p.hir False R (fun _ => False) (p.callee d) (p.callee d) :=
    fun d _ => SummaryRel.self hR (p.callee d)
  have hrelated := @expr_related p p.callee _ _ _ _ _ hR (fun _ => False.elim) hcallees e
    ⟨fun _ _ _ => trivial, fun _ _ => trivial⟩
  exact (hrelated hstart).1

end Pass

/-- The second symbol adds nothing to the first but `room`. -/
def UpTo (room : Sym) (s s' : Sym) : Prop := s' ≤ s ⊔ room

theorem UpTo.logical (room : Sym) : Logical (UpTo room) where
  ofFloor _ := le_sup_left
  sup {s s' t t'} h k := (sup_le_sup h k).trans (sup_sup_sup_comm s room t room ▸ by
    rw [sup_idem])

theorem UpTo.refl (room s : Sym) : UpTo room s s := le_sup_left

theorem logical_le : Logical (· ≤ ·) := ⟨fun _ => le_rfl, sup_le_sup⟩

end Steps

section Folds

namespace Pass

variable (p : Pass) (item total : LocalId) (starting step : Expr)

/-- The walk in front of the step of a fold, its total worth `label`. -/
def atStep (label : SymLabel) : WalkM Unit := do
  let _ ← p.expr starting
  bindElement item
  bindLocal total label

def seedLabel (w : Walk) : SymLabel := ((p.expr starting).run w).1

/-- The label of the step when the total is worth `label`. -/
def stepLabel (w : Walk) (label : SymLabel) : SymLabel :=
  ((p.expr step).run ((p.atStep item total starting label).run w).2).1

def foldRoom (w : Walk) : Sym :=
  w.acc.shape ⊔ (p.seedLabel starting w).value ⊔
    (p.stepLabel item total starting step w (p.seedLabel starting w)).value ⊔ w.pc

theorem pipeline_fold (w : Walk) :
    ((p.pipeline (.fold item total starting step)).run w).2.acc =
      .triple (p.foldRoom item total starting step w) := by
  have hbefore : frame ((p.atStep item total starting (p.seedLabel starting w)).run w).2 =
      frame w := by
    refine Keeps.bind (p.keeps_expr starting) (fun _ => ?_) w
    exact Keeps.bind (Keeps.of_get.bind (fun _ => keeps_bindLocal _ _))
      (fun _ => keeps_bindLocal _ _)
  have hafter := p.keeps_expr step ((p.atStep item total starting (p.seedLabel starting w)).run w).2
  obtain ⟨hacc, hpc⟩ := Prod.mk.inj (hafter.trans hbefore)
  have hrun : ((p.pipeline (.fold item total starting step)).run w).2.acc =
      .triple ((((p.expr step).run ((p.atStep item total starting (p.seedLabel starting w)).run
        w).2).2.acc).shape ⊔ (p.seedLabel starting w).value ⊔
          (p.stepLabel item total starting step w (p.seedLabel starting w)).value ⊔
            ((p.expr step).run ((p.atStep item total starting (p.seedLabel starting w)).run
              w).2).2.pc) := rfl
  rw [hrun, hacc, hpc]
  rfl

variable {p item total starting step}

variable {label label' : SymLabel}

theorem stepLabel_related {R : Sym → Sym → Prop} (hR : Logical R) (hrefl : ∀ s, R s s) (w : Walk)
    (h : LabelRel R label label') :
    LabelRel R (p.stepLabel item total starting step w label)
      (p.stepLabel item total starting step w label') := by
  refine p.expr_label_related hR hrefl step
    ((do let _ ← p.expr starting; bindElement item : WalkM Unit).run w).2 (fun id => ?_)
  by_cases hid : id = total
  · subst hid
    simpa only [Function.update_self] using h
  · simp only [ne_eq, hid, not_false_eq_true, Function.update_of_ne]
    exact ⟨hrefl _, hrefl _, hrefl _⟩

theorem stepLabel_mono (w : Walk) (h : label ≤ label') :
    p.stepLabel item total starting step w label ≤ p.stepLabel item total starting step w label' := by
  have hrel : LabelRel (· ≤ ·) (p.stepLabel item total starting step w label)
      (p.stepLabel item total starting step w label') :=
    stepLabel_related logical_le (fun _ => le_rfl) w ⟨h.1, h.2.1, h.2.2⟩
  exact ⟨hrel.shape, hrel.value, hrel.failure⟩

end Pass

/-- The label a fold leaves covers every later step, exactly when it covers the shape and the
failure that the step has of its own. -/
theorem fold_covers_iff (p : Pass) (item total : LocalId) (starting step : Expr) (w : Walk) :
    (∀ obs, (p.stepLabel item total starting step w
        ((p.pipeline (.fold item total starting step)).run w).2.acc).get obs ≤
          (((p.pipeline (.fold item total starting step)).run w).2.acc).get obs) ↔
      (p.stepLabel item total starting step w ⊥).shape ≤ p.foldRoom item total starting step w ∧
        (p.stepLabel item total starting step w ⊥).failure ≤
          p.foldRoom item total starting step w := by
  rw [p.pipeline_fold]
  have hvalue : (p.stepLabel item total starting step w ⊥).value ≤
      p.foldRoom item total starting step w :=
    (Pass.stepLabel_mono w bot_le).2.1.trans (le_sup_right.trans le_sup_left)
  constructor
  · intro h
    have hown : p.stepLabel item total starting step w ⊥ ≤
        p.stepLabel item total starting step w (.triple (p.foldRoom item total starting step w)) :=
      Pass.stepLabel_mono w bot_le
    exact ⟨hown.1.trans (h .shape), hown.2.2.trans (h .failure)⟩
  · rintro ⟨hshape, hfailure⟩ obs
    have hroom : LabelRel (UpTo (p.foldRoom item total starting step w)) ⊥
        (.triple (p.foldRoom item total starting step w)) :=
      ⟨le_sup_right, le_sup_right, le_sup_right⟩
    have hlater : LabelRel (UpTo (p.foldRoom item total starting step w))
        (p.stepLabel item total starting step w ⊥) (p.stepLabel item total starting step w _) :=
      Pass.stepLabel_related (UpTo.logical _) (UpTo.refl _) w hroom
    cases obs with
    | shape => exact hlater.shape.trans (sup_le hshape le_rfl)
    | value => exact hlater.value.trans (sup_le hvalue le_rfl)
    | failure => exact hlater.failure.trans (sup_le hfailure le_rfl)

/-- `latest` is public, and computed in the endpoint from the secret `ledger`. -/
def masking : Hir where
  defs :=
    [⟨"ledger", (0, 6),
        .signal ⟨true, false, .durable, .number 0, none, false, none, none, false⟩⟩,
      ⟨"latest", (7, 13),
        .signal ⟨false, false, .server, .call (.def_ 2) [⟨none, 0, .ref 0 (.def_ 0)⟩], none, false,
          none, none, false⟩⟩,
      ⟨"masked", (14, 20), .release ⟨[0], [false], [.give (.number 0)]⟩⟩,
      ⟨"last", (21, 25),
        .function ⟨[1],
          [.pipeline (.source (.ref 1 (.local_ 1))),
            .pipeline (.fold 2 3 (.ref 2 (.def_ 1)) (.ref 3 (.def_ 1)))]⟩⟩]
  view := none
  span := fun id => (id, id + 1)
  localName := fun _ => "rows"

def maskingSplit : TierSplit where
  splitter :=
    { Splitter.new with
      roots := Splitter.new.roots ++ [⟨.serverView, .endpoint 1, true⟩]
      members := [(2, 1, .binding), (2, 0, .storeRead), (2, 2, .function), (0, 3, .function)]
      contexts := [(1, .serverView), (0, .serverView), (2, .serverView), (3, .clientView)]
      crossings := fun read =>
        if read = (2, .clientView) ∨ read = (3, .clientView) then some (.remote 2) else none }
  params := fun _ => []
  hoisted := fun _ _ => false

/-- The pass over `last` in the browser. -/
def maskingPass : Pass := ⟨masking, maskingSplit, .clientView, 3, fun _ => .empty⟩

/-- The walk of `last` up to its fold. -/
def beforeFold : Walk :=
  ((maskingPass.pipeline (.source (.ref 1 (.local_ 1)))).run
    { Walk.new with locals := Function.update Walk.new.locals 1 (.triple ⊥) }).2

/-- What fails in the endpoint is a secret, and the fold takes it for public. -/
theorem fold_drops_failure :
    ¬ ∀ (p : Pass) (item total : LocalId) (starting step : Expr) (w : Walk) (obs : Obs),
      (p.stepLabel item total starting step w
        ((p.pipeline (.fold item total starting step)).run w).2.acc).get obs ≤
          (((p.pipeline (.fold item total starting step)).run w).2.acc).get obs := by
  intro h
  have hfailure := h maskingPass 2 3 (.ref 2 (.def_ 1)) (.ref 3 (.def_ 1)) beforeFold .failure
  have hfloor : Secrecy.secret ≤ Secrecy.public_ := hfailure.1
  obtain hsecret | hpublic := hfloor
  · cases hsecret
  · cases hpublic

end Folds

end Graph
end Zdeceptron
