import Zdeceptron.View.Shown

/-!
# A masked value is shown nowhere

* `hidden_of_quiet`: a view that is accepted hides what is masked if no condition, list or
  computed signal leads to it.
-/

namespace Zdeceptron
namespace View

open Bodies Bodies.Step Reactive

section Leads

variable {Verb : Type} (P : Program Verb) (masked : List Nat)

/-- What is computed from a masked signal: the signal, a computed signal or a body that names
what leads to one. -/
inductive Leads : Nat → Prop
  | masked {id : Nat} : id ∈ masked → Leads id
  | computed {id : Nat} {e : HirExpr Op} {T : Nat → Bool} : P.computed id = some e →
      e.touches (mentions T) = true → (∀ g, T g = true → Leads g) → Leads id
  | body {id : Nat} {params : List Param} {body : FunctionBody Op Verb} {T : Nat → Bool} :
      P.defs.bodyOf id = some (params, body) → bodyTouches (mentions T) body = true →
      (∀ g, T g = true → Leads g) → Leads id

open Classical in
/-- What names something that leads to a masked signal, or a local that counts. -/
noncomputable def leading (counts : Nat → Bool) : Marks Op :=
  (mentions fun id => decide (Leads P masked id)).or (binders counts)

end Leads

section Compared

variable (masked : List Nat)

def Off (cells cells' : Cells) : Prop :=
  ∀ cell, (∀ id, cell = .signal id → id ∉ masked) → cells cell = cells' cell

/-- Two evaluations that end alike, where the cells differ in masked signals only. -/
def offMasked : Comparison Cells Cells where
  Rel x y := ∀ s s', Off masked s s' → (x.run s).1 = (y.run s').1 ∧
    Off masked (x.run s).2 (y.run s').2
  pure _ _ _ h := ⟨rfl, h⟩
  fail _ _ _ h := ⟨rfl, h⟩
  bind {α β x y f g} h h' s s' hoff := by
    rw [Step.run_bind, Step.run_bind]
    obtain ⟨hfirst, hnext⟩ := h s s' hoff
    rcases hx : x.run s with ⟨answer, t⟩
    rcases hy : y.run s' with ⟨answer', t'⟩
    rw [hx, hy] at hfirst hnext
    obtain rfl : answer = answer' := hfirst
    cases answer with
    | ok a => exact h' a t t' hnext
    | error fault => exact ⟨rfl, hnext⟩

def offInScope (counts : Nat → Bool) : Comparison (Scope Cells) (Scope Cells) where
  Rel x y := ∀ scope scope', Alike counts scope scope' → Off masked scope.state scope'.state →
    (x.run scope).1 = (y.run scope').1 ∧ Alike counts (x.run scope).2 (y.run scope').2 ∧
      Off masked (x.run scope).2.state (y.run scope').2.state
  pure _ _ _ h hoff := ⟨rfl, h, hoff⟩
  fail _ _ _ h hoff := ⟨rfl, h, hoff⟩
  bind {α β x y f g} h h' scope scope' halike hoff := by
    rw [Step.run_bind, Step.run_bind]
    obtain ⟨hfirst, hnext, hstate⟩ := h scope scope' halike hoff
    rcases hx : x.run scope with ⟨answer, t⟩
    rcases hy : y.run scope' with ⟨answer', t'⟩
    rw [hx, hy] at hfirst hnext hstate
    obtain rfl : answer = answer' := hfirst
    cases answer with
    | ok a => exact h' a t t' hnext hstate
    | error fault => exact ⟨rfl, hnext, hstate⟩

variable {masked}

theorem offInScope_onScopes (counts : Nat → Bool) :
    (offMasked masked).OnScopes (offInScope masked counts) counts where
  readLocal id hid scope scope' halike hoff := by
    rw [run_readLocal, run_readLocal, halike id hid]
    exact ⟨rfl, halike, hoff⟩
  assign id v scope scope' halike hoff := by
    refine ⟨rfl, fun other hother => ?_, hoff⟩
    simp only [Step.run_change, Scope.assign, Function.update_apply]
    split_ifs
    · rfl
    · exact halike other hother
  outside {α x y} h scope scope' halike hoff := by
    rw [run_outside, run_outside]
    obtain ⟨hanswer, hstate⟩ := h scope.state scope'.state hoff
    exact ⟨hanswer, halike, hstate⟩

end Compared

section Evaluated

variable {Verb : Type} (P : Program Verb) (M : Meaning Verb) {masked : List Nat}

theorem ref_of_cell {hir : Reactive.Hir Verb} {op : Op} {id : Nat}
    (h : cell_of hir op = some (.signal id)) : op = .ref id := by
  cases op with
  | ref other =>
      rw [cell_of] at h
      split at h
      · split_ifs at h
        cases h
        rfl
      · cases h
  | _ => cases h

open Classical in
theorem not_leads {counts : Nat → Bool} {id : Nat}
    (h : (leading P masked counts).operator (.ref id) = false) : ¬ Leads P masked id := by
  intro hleads
  simp [leading, Marks.or, mentions, hleads] at h

open Classical in
theorem not_leads_callee {counts : Nat → Bool} {id : Nat}
    (h : (leading P masked counts).callee id = false) : ¬ Leads P masked id := by
  intro hleads
  simp [leading, Marks.or, mentions, hleads] at h

open Classical in
theorem leading_nothing :
    leading P masked (fun _ => false) = mentions fun id => decide (Leads P masked id) := by
  unfold leading Marks.or binders mentions
  congr 1
  · funext op
    cases op <;> simp
  · funext id
    simp

theorem mutate_off (verb : Verb) (vs : List Value) (compute : HirExpr Op → Step Cells Value) :
    (offMasked masked).Rel ((M.hostWith P compute).mutate verb vs)
      ((M.hostWith P compute).mutate verb vs) := by
  intro s s' hoff
  refine ⟨rfl, fun cell hcell => ?_⟩
  simp only [Meaning.hostWith, Step.run_change, Function.update_apply]
  split_ifs with heq
  · have hsame := hoff cell hcell
    rw [heq] at hsame
    rw [hsame]
  · exact hoff cell hcell

def QuietCalls (masked : List Nat) (call : Nat → List Value → Step Cells Value) : Prop :=
  ∀ id, ¬ Leads P masked id → ∀ vs, (offMasked masked).Rel (call id vs) (call id vs)

def QuietCompute (masked : List Nat) (compute : HirExpr Op → Step Cells Value) : Prop :=
  ∀ e, e.touches (leading P masked fun _ => false) = false →
    (offMasked masked).Rel (compute e) (compute e)

variable {P M}

open Classical in
theorem hostWith_agrees {compute : HirExpr Op → Step Cells Value}
    {call : Nat → List Value → Step Cells Value} (hcompute : QuietCompute P masked compute)
    (hcall : QuietCalls P masked call) (counts : Nat → Bool) :
    Host.AgreesUnless (leading P masked counts) (offMasked masked) (offInScope masked counts)
      (M.hostWith P compute) (M.hostWith P compute) call call where
  scopes := by
    have hcounts : (leading P masked counts).local_ = counts := by
      funext id
      simp [leading, Marks.or, mentions, binders]
    rw [hcounts]
    exact offInScope_onScopes counts
  operator op hop vs := by
    have hread : ∀ cell : Cell, (∀ id, cell = .signal id → id ∉ masked) →
        (offMasked masked).Rel (fun cells => (.ok (cells cell), cells))
          (fun cells => (.ok (cells cell), cells)) := fun cell hcell s s' hoff =>
      ⟨congrArg Except.ok (hoff cell hcell), hoff⟩
    simp only [Meaning.hostWith]
    cases hcell : cell_of P.toHir op with
    | none => exact fun s s' hoff => ⟨rfl, hoff⟩
    | some cell =>
        cases cell with
        | signal id =>
            obtain rfl := ref_of_cell hcell
            have hquiet := not_leads P hop
            cases he : P.computed id with
            | some e =>
                simp only [he]
                refine hcompute e (Bool.eq_false_of_not_eq_true fun htouches => hquiet ?_)
                rw [leading_nothing] at htouches
                exact .computed he htouches fun g hg => of_decide_eq_true hg
            | none =>
                simp only [he]
                refine hread (.signal id) ?_
                rintro other ⟨⟩
                exact fun hmem => hquiet (.masked hmem)
        | _ =>
            refine hread _ ?_
            intro id heq
            cases heq
  mutate verb vs := mutate_off P M verb vs compute
  call id hid vs := hcall id (not_leads_callee P hid) vs
  truthy := rfl
  less := rfl

open Classical in
theorem evaluate_quiet {compute : HirExpr Op → Step Cells Value}
    (hcompute : QuietCompute P masked compute) (fuel : Nat) :
    QuietCalls P masked (P.defs.evaluate (M.hostWith P compute) fuel) := by
  induction fuel with
  | zero =>
      intro id hquiet vs
      unfold Bodies.Program.evaluate
      cases hbody : P.defs.bodyOf id with
      | none =>
          rw [Bodies.Program.evaluateWith_none hbody]
          exact fun _ _ hoff => ⟨rfl, hoff⟩
      | some function =>
          obtain ⟨params, body⟩ := function
          rw [Bodies.Program.evaluateWith_zero hbody]
          exact (offMasked masked).fail _
  | succ fuel ih =>
      intro id hquiet vs
      unfold Bodies.Program.evaluate
      cases hbody : P.defs.bodyOf id with
      | none =>
          rw [Bodies.Program.evaluateWith_none hbody]
          exact fun _ _ hoff => ⟨rfl, hoff⟩
      | some function =>
          obtain ⟨params, body⟩ := function
          rw [Bodies.Program.evaluateWith_succ hbody]
          have huntouched : bodyTouches (leading P masked fun _ => false) body = false := by
            refine Bool.eq_false_of_not_eq_true fun htouches => hquiet ?_
            rw [leading_nothing] at htouches
            exact .body hbody htouches fun g hg => of_decide_eq_true hg
          have hblock := Engine.block_agrees_of
            (Host.engine_agrees_of P.defs (hostWith_agrees (M := M) hcompute ih fun _ => false))
            none body huntouched
          refine (offMasked masked).bind (fun s s' hoff => ?_) (fun ending => ?_)
          · rw [run_inScope, run_inScope]
            obtain ⟨hanswer, -, hstate⟩ := hblock ⟨_, s⟩ ⟨_, s'⟩ (fun _ _ => rfl) hoff
            exact ⟨hanswer, hstate⟩
          · cases ending with
            | fell => exact (offMasked masked).pure _
            | gave v => exact (offMasked masked).pure _

theorem host_agrees (fuel depth : Nat) (counts : Nat → Bool) :
    Host.AgreesUnless (leading P masked counts) (offMasked masked) (offInScope masked counts)
      (M.host P fuel depth) (M.host P fuel depth) (P.defs.evaluate (M.host P fuel depth) fuel)
      (P.defs.evaluate (M.host P fuel depth) fuel) := by
  induction depth generalizing counts with
  | zero =>
      have hcompute : QuietCompute P masked fun _ => fail .endless := fun e _ =>
        (offMasked masked).fail _
      exact hostWith_agrees hcompute (evaluate_quiet hcompute fuel) counts
  | succ depth ih =>
      have hcompute : QuietCompute P masked fun e => inScope (fun _ => none)
          ((M.host P fuel depth).value P.defs (P.defs.evaluate (M.host P fuel depth) fuel) e) := by
        intro e he s s' hoff
        rw [run_inScope, run_inScope]
        obtain ⟨hanswer, -, hstate⟩ := Host.value_agrees_of (ih fun _ => false) e he ⟨_, s⟩ ⟨_, s'⟩
          (fun _ _ => rfl) hoff
        exact ⟨hanswer, hstate⟩
      exact hostWith_agrees hcompute (evaluate_quiet hcompute fuel) counts

theorem evaluate_same {counts : Nat → Bool} {e : HirExpr Op}
    (he : e.touches (leading P masked counts) = false) (fuel depth : Nat) {cells cells' : Cells}
    {locals locals' : Locals} (hoff : Off masked cells cells')
    (halike : ∀ id, counts id = false → locals id = locals' id) :
    M.evaluate P fuel depth cells locals e = M.evaluate P fuel depth cells' locals' e :=
  (Host.value_agrees_of (host_agrees fuel depth counts) e he ⟨locals, cells⟩ ⟨locals', cells'⟩
    halike hoff).1

end Evaluated

section Placed

mutual

/-- The expressions of a view that decide what is shown, each with whether `check_masked` looks
at it: the arguments of elements, conditions, lists, and what instances compute. -/
def placed_node : HirNode → List (Bool × HirExpr Op)
  | .element element => placed_element element
  | .each _ iter body => (false, iter) :: placed_nodes body
  | .when scrutinee arms => (false, scrutinee) :: placed_arms arms
  | .ifThen cond then_ none => (false, cond) :: placed_nodes then_
  | .ifThen cond then_ (some otherwise) =>
      (false, cond) :: (placed_nodes then_ ++ placed_nodes otherwise)
  | .handler => []
  | .scope signals body =>
      ((signals.filter fun signal => !signal.is_source).map fun signal => (false, signal.init)) ++
        placed_nodes body

def placed_nodes : List HirNode → List (Bool × HirExpr Op)
  | [] => []
  | node :: nodes => placed_node node ++ placed_nodes nodes

def placed_element : HirElement → List (Bool × HirExpr Op)
  | .mk name isForeign args children =>
      (written name args).map (fun e => (!isForeign, e)) ++
        -- the check does not go into a view of a foreign
        (placed_nodes children).map fun p => (p.1 && !isForeign, p.2)

def placed_arms : List HirNodeArm → List (Bool × HirExpr Op)
  | [] => []
  | .mk _ _ (.show_ element) :: arms => placed_element element ++ placed_arms arms
  | .mk _ _ (.nodes nodes) :: arms => placed_nodes nodes ++ placed_arms arms

end

variable {masked : List Nat} {e : HirExpr Op}

mutual

theorem checked_node : (node : HirNode) → lowered_node masked node = true →
    (true, e) ∈ placed_node node → e.touches (mentions fun id => masked.contains id) = false
  | .element element, h, he => checked_element element h he
  | .each _ _ body, h, he => by
      rcases List.mem_cons.mp he with heq | he
      · cases heq
      · exact checked_nodes body h he
  | .when _ arms, h, he => by
      rcases List.mem_cons.mp he with heq | he
      · cases heq
      · exact checked_arms arms h he
  | .ifThen _ then_ none, h, he => by
      rcases List.mem_cons.mp he with heq | he
      · cases heq
      · exact checked_nodes then_ h he
  | .ifThen _ then_ (some otherwise), h, he => by
      rw [lowered_node, Bool.and_eq_true] at h
      rcases List.mem_cons.mp he with heq | he
      · cases heq
      · rcases List.mem_append.mp he with he | he
        · exact checked_nodes then_ h.1 he
        · exact checked_nodes otherwise h.2 he
  | .handler, _, he => by cases he
  | .scope _ body, h, he => by
      rcases List.mem_append.mp he with he | he
      · simp at he
      · exact checked_nodes body h he

theorem checked_nodes : (nodes : List HirNode) → lowered_nodes masked nodes = true →
    (true, e) ∈ placed_nodes nodes → e.touches (mentions fun id => masked.contains id) = false
  | [], _, he => by cases he
  | node :: nodes, h, he => by
      rw [lowered_nodes, Bool.and_eq_true] at h
      rcases List.mem_append.mp he with he | he
      · exact checked_node node h.1 he
      · exact checked_nodes nodes h.2 he

theorem checked_element : (element : HirElement) → lowered_element masked element = true →
    (true, e) ∈ placed_element element →
      e.touches (mentions fun id => masked.contains id) = false
  | .mk _ true _ children, _, he => by simp [placed_element] at he
  | .mk name false args children, h, he => by
      rw [lowered_element, Bool.and_eq_true] at h
      rcases List.mem_append.mp he with he | he
      · have hchecked := List.all_eq_true.mp h.1 e (by simpa using he)
        simpa using hchecked
      · exact checked_nodes children h.2 (by simpa using he)

theorem checked_arms : (arms : List HirNodeArm) → lowered_arms masked arms = true →
    (true, e) ∈ placed_arms arms → e.touches (mentions fun id => masked.contains id) = false
  | [], _, he => by cases he
  | .mk _ _ (.show_ element) :: arms, h, he => by
      rw [lowered_arms, Bool.and_eq_true] at h
      rcases List.mem_append.mp he with he | he
      · exact checked_element element h.1 he
      · exact checked_arms arms h.2 he
  | .mk _ _ (.nodes nodes) :: arms, h, he => by
      rw [lowered_arms, Bool.and_eq_true] at h
      rcases List.mem_append.mp he with he | he
      · exact checked_nodes nodes h.1 he
      · exact checked_arms arms h.2 he

end

end Placed

section Rendered

variable {Verb : Type} {P : Program Verb} {M : Meaning Verb} {masked : List Nat}
  {counts : Nat → Bool} {page page' : Page}

def LocalsAlike (counts : Nat → Bool) (locals locals' : Locals) : Prop :=
  ∀ id, counts id = false → locals id = locals' id

variable {locals locals' : Locals}

theorem LocalsAlike.update (h : LocalsAlike counts locals locals')
    (id : Nat) {v v' : Option Value} (hv : counts id = false → v = v') :
    LocalsAlike counts (Function.update locals id v) (Function.update locals' id v') := by
  intro other hother
  by_cases heq : other = id
  · subst heq
    simpa using hv hother
  · simpa [heq] using h other hother

theorem LocalsAlike.bindFields (h : LocalsAlike counts locals locals')
    (ids : List Nat) (vs : List Value) :
    LocalsAlike counts (bindFields ids vs locals) (bindFields ids vs locals') := by
  induction ids generalizing vs locals locals' with
  | nil => cases vs <;> exact h
  | cons id ids ih =>
      cases vs with
      | nil => exact h
      | cons v vs => exact ih (h.update id fun _ => rfl) vs

/-- Two states of a page that differ in masked signals, and in the state of instances that
counts. -/
structure PageAlike (masked : List Nat) (counts : Nat → Bool) (page page' : Page) : Prop where
  cells : Off masked page.cells page'.cells
  instances : ∀ path id, counts id = false → page.instances path id = page'.instances path id

variable (hpage : PageAlike masked counts page page') (fuel depth : Nat)

include hpage

theorem LocalsAlike.bindLocals (h : LocalsAlike counts locals locals')
    (path : List Nat) {signals : List LocalSignal}
    (hinit : ∀ signal ∈ signals, signal.is_source = false →
      signal.init.touches (leading P masked counts) = false) :
    LocalsAlike counts (bindLocals P M fuel depth page path signals locals)
      (bindLocals P M fuel depth page' path signals locals') := by
  induction signals generalizing locals locals' with
  | nil => exact h
  | cons signal signals ih =>
      refine ih (h.update signal.id fun hcounts => ?_)
        fun other hother => hinit other (List.mem_cons_of_mem _ hother)
      cases hsource : signal.is_source with
      | true => exact congrArg some (hpage.instances path signal.id hcounts)
      | false =>
          have hsame := evaluate_same (M := M) (hinit signal List.mem_cons_self hsource) fuel depth
            hpage.cells h
          simp [hsame]

theorem evaluate_map_same {es : List (HirExpr Op)} (h : LocalsAlike counts locals locals')
    (hes : ∀ e ∈ es, e.touches (leading P masked counts) = false) :
    es.map (M.evaluate P fuel depth page.cells locals) =
      es.map (M.evaluate P fuel depth page'.cells locals') :=
  List.map_congr_left fun e he => evaluate_same (hes e he) fuel depth hpage.cells h

mutual

theorem shown_node_same : (node : HirNode) → (path : List Nat) → {locals locals' : Locals} →
    LocalsAlike counts locals locals' →
    (∀ p ∈ placed_node node, p.2.touches (leading P masked counts) = false) →
    shownNode P M fuel depth page path locals node =
      shownNode P M fuel depth page' path locals' node
  | .element element, path, _, _, h, hplaced => shown_element_same element path h hplaced
  | .each var iter body, path, _, _, h, hplaced => by
      have hiter := evaluate_same (M := M) (e := iter) (hplaced _ List.mem_cons_self) fuel depth
        hpage.cells h
      have hbody := fun p hp => hplaced p (List.mem_cons_of_mem _ hp)
      rw [shownNode, shownNode, hiter]
      split
      · refine congrArg Shown.rows (List.mapIdx_eq_mapIdx_iff.mpr fun i hi => ?_)
        exact shown_nodes_same body _ (h.update var fun _ => rfl) hbody
      · rfl
      · rfl
  | .when scrutinee arms, path, _, _, h, hplaced => by
      have hscrutinee := evaluate_same (M := M) (e := scrutinee) (hplaced _ List.mem_cons_self) fuel
        depth hpage.cells h
      have harms := fun p hp => hplaced p (List.mem_cons_of_mem _ hp)
      rw [shownNode, shownNode, hscrutinee]
      split
      · exact shown_arms_same arms path _ _ 0 h harms
      · rfl
      · rfl
  | .ifThen cond then_ none, path, _, _, h, hplaced => by
      have hcond := evaluate_same (M := M) (e := cond) (hplaced _ List.mem_cons_self) fuel depth
        hpage.cells h
      have hthen := fun p hp => hplaced p (List.mem_cons_of_mem _ hp)
      rw [shownNode, shownNode, hcond, shown_nodes_same then_ path h hthen]
  | .ifThen cond then_ (some otherwise), path, _, _, h, hplaced => by
      have hcond := evaluate_same (M := M) (e := cond) (hplaced _ List.mem_cons_self) fuel depth
        hpage.cells h
      have hthen := fun p hp =>
        hplaced p (List.mem_cons_of_mem _ (List.mem_append_left _ hp))
      have hotherwise := fun p hp =>
        hplaced p (List.mem_cons_of_mem _ (List.mem_append_right _ hp))
      rw [shownNode, shownNode, hcond, shown_nodes_same then_ path h hthen,
        shown_nodes_same otherwise path h hotherwise]
  | .handler, _, _, _, _, _ => rfl
  | .scope signals body, path, _, _, h, hplaced => by
      have hinit : ∀ signal ∈ signals, signal.is_source = false →
          signal.init.touches (leading P masked counts) = false := by
        intro signal hsignal hsource
        refine hplaced (false, signal.init) (List.mem_append_left _ ?_)
        exact List.mem_map.mpr ⟨signal, List.mem_filter.mpr ⟨hsignal, by simp [hsource]⟩, rfl⟩
      have hbody := fun p hp => hplaced p (List.mem_append_right _ hp)
      exact congrArg Shown.scope (shown_nodes_same body path
        (LocalsAlike.bindLocals hpage fuel depth h path hinit) hbody)

theorem shown_nodes_same : (nodes : List HirNode) → (path : List Nat) →
    {locals locals' : Locals} → LocalsAlike counts locals locals' →
    (∀ p ∈ placed_nodes nodes, p.2.touches (leading P masked counts) = false) →
    shownNodes P M fuel depth page path locals nodes =
      shownNodes P M fuel depth page' path locals' nodes
  | [], _, _, _, _, _ => rfl
  | node :: nodes, path, _, _, h, hplaced => by
      rw [shownNodes, shownNodes,
        shown_node_same node path h fun p hp => hplaced p (List.mem_append_left _ hp),
        shown_nodes_same nodes path h fun p hp => hplaced p (List.mem_append_right _ hp)]

theorem shown_element_same : (element : HirElement) → (path : List Nat) →
    {locals locals' : Locals} → LocalsAlike counts locals locals' →
    (∀ p ∈ placed_element element, p.2.touches (leading P masked counts) = false) →
    shownElement P M fuel depth page path locals element =
      shownElement P M fuel depth page' path locals' element
  | .mk name isForeign args children, path, _, _, h, hplaced => by
      have hargs : ∀ e ∈ written name args, e.touches (leading P masked counts) = false :=
        fun e he => hplaced (!isForeign, e) (List.mem_append_left _ (List.mem_map_of_mem he))
      have hchildren : ∀ p ∈ placed_nodes children,
          p.2.touches (leading P masked counts) = false := fun p hp =>
        hplaced (p.1 && !isForeign, p.2) (List.mem_append_right _ (List.mem_map_of_mem hp))
      rw [shownElement, shownElement, evaluate_map_same hpage fuel depth h hargs,
        shown_nodes_same children path h hchildren]

theorem shown_arms_same : (arms : List HirNodeArm) → (path : List Nat) → (tag : String) →
    (fields : List Value) → (n : Nat) → {locals locals' : Locals} →
    LocalsAlike counts locals locals' →
    (∀ p ∈ placed_arms arms, p.2.touches (leading P masked counts) = false) →
    shownArms P M fuel depth page path locals tag fields n arms =
      shownArms P M fuel depth page' path locals' tag fields n arms
  | [], _, _, _, _, _, _, _, _ => rfl
  | .mk pattern bindings (.show_ element) :: arms, path, tag, fields, n, _, _, h, hplaced => by
      rw [shownArms, shownArms,
        shown_element_same element path (h.bindFields bindings fields)
          fun p hp => hplaced p (List.mem_append_left _ hp),
        shown_arms_same arms path tag fields (n + 1) h
          fun p hp => hplaced p (List.mem_append_right _ hp)]
  | .mk pattern bindings (.nodes nodes) :: arms, path, tag, fields, n, _, _, h, hplaced => by
      rw [shownArms, shownArms,
        shown_nodes_same nodes path (h.bindFields bindings fields)
          fun p hp => hplaced p (List.mem_append_left _ hp),
        shown_arms_same arms path tag fields (n + 1) h
          fun p hp => hplaced p (List.mem_append_right _ hp)]

end

end Rendered

section Quiet

variable {Verb : Type} {P : Program Verb} {view : List HirNode}

open Classical in
/-- What the check does not see: nothing that is shown leads to a masked signal through a
computed signal or a body, nothing outside the arguments of elements names one, and no state of
an instance that a field binds is shown. -/
structure Quiet (P : Program Verb) (view : List HirNode) : Prop where
  arguments : ∀ e, (true, e) ∈ placed_nodes view →
    e.touches (mentions fun id =>
      decide (Leads P (masked_signals view) id ∧ id ∉ masked_signals view)) = false
  others : ∀ e, (false, e) ∈ placed_nodes view →
    e.touches (mentions fun id => decide (Leads P (masked_signals view) id)) = false
  instances : ∀ p ∈ placed_nodes view,
    p.2.touches (binders fun id => (masked_instances view).contains id) = false

theorem mentions_or (S T : Nat → Bool) :
    (mentions S).or (mentions T) = mentions fun id => S id || T id := by
  unfold Marks.or mentions
  congr 1
  funext op
  cases op <;> rfl

open Classical in
theorem untouched_of_quiet (haccepted : accepted view = true) (hquiet : Quiet P view) :
    ∀ p ∈ placed_nodes view, p.2.touches (leading P (masked_signals view)
      fun id => (masked_instances view).contains id) = false := by
  rintro ⟨checked, e⟩ he
  have hlocals := hquiet.instances _ he
  rw [leading, HirExpr.touches_or, hlocals, Bool.or_false]
  cases checked with
  | false => exact hquiet.others e he
  | true =>
      -- what leads to a masked signal is one, or leads there through something else
      have hsplit : (fun id => decide (Leads P (masked_signals view) id)) = fun id =>
          (masked_signals view).contains id ||
            decide (Leads P (masked_signals view) id ∧ id ∉ masked_signals view) := by
        funext id
        by_cases hmem : id ∈ masked_signals view
        · simp [hmem, Leads.masked hmem]
        · simp [hmem]
      rw [hsplit, ← mentions_or, HirExpr.touches_or, hquiet.arguments e he, Bool.or_false]
      exact checked_nodes view haccepted he

/-- A view that is accepted shows nothing that is masked, if no condition, list or foreign view
names a masked signal, nothing leads to one through a computed signal or a body, and no field
binds the state of an instance that is shown. -/
theorem hidden_of_quiet (M : Meaning Verb) (haccepted : accepted view = true)
    (hquiet : Quiet P view) : Hidden P M view := by
  intro fuel depth page page' hdiffer
  refine shown_nodes_same ⟨hdiffer.cells, fun path id hid => ?_⟩ fuel depth view []
    (fun _ _ => rfl) (untouched_of_quiet haccepted hquiet)
  exact hdiffer.instances path id (by simpa using hid)

def echoing : Program Empty where
  defs := [.other, .other]
  signal _ := some .client
  computed id := if id = 1 then some (.operator (.ref 0) []) else none

def echoed : List HirNode :=
  [.element (.mk "PasswordInput" false [.positional (.operator (.ref 0) [])] []),
    .element (.mk "Text" false [.positional (.operator (.ref 1) [])] [])]

def fieldOnly : List HirNode :=
  [.element (.mk "PasswordInput" false [.positional (.operator (.ref 0) [])] []),
    .element (.mk "Text" false [.positional (.operator (.text "hello") [])] [])]

def plain : Meaning Empty where
  operator _ _ := .ok (.truth true)
  call _ _ := .ok (.truth true)
  place verb := verb.elim
  mutate verb := verb.elim
  truthy _ := true
  less _ _ := false
  undefined_ := .truth true

theorem fieldOnly_hidden : Hidden echoing plain fieldOnly := by
  refine hidden_of_quiet plain (by decide) ⟨?_, ?_, ?_⟩
  · intro e he
    obtain rfl : e = .operator (.text "hello") [] := by
      simpa [fieldOnly, placed_nodes, placed_node, placed_element, written, Arg.value] using he
    rfl
  · intro e he
    simp [fieldOnly, placed_nodes, placed_node, placed_element, written, Arg.value] at he
  · intro p hp
    obtain rfl : p = (true, .operator (.text "hello") []) := by
      simpa [fieldOnly, placed_nodes, placed_node, placed_element, written, Arg.value] using hp
    rfl

/-- The password is shown through the computed signal. -/
theorem echoed_shown : accepted echoed = true ∧ ¬ Hidden echoing plain echoed := by
  refine ⟨by decide, fun hidden => ?_⟩
  have hdiffer : Page.DifferIn echoed ⟨fun _ => .truth true, fun _ _ => .truth true⟩
      ⟨fun cell => if cell = .signal 0 then .truth false else .truth true,
        fun _ _ => .truth true⟩ := by
    refine ⟨fun cell hcell => ?_, fun _ _ _ => rfl⟩
    have hne : cell ≠ .signal 0 := fun heq => hcell 0 heq (by decide)
    simp [hne]
  have hsame := hidden 1 1 _ _ hdiffer
  have hvalue : Except.ok (Value.truth true) = Except.ok (ε := Fault) (Value.truth false) := by
    injection hsame with _ hrest
    injection hrest with hshown _
    injection hshown with _ hargs _
    injection hargs with harg _
  cases hvalue

end Quiet

end View
end Zdeceptron
