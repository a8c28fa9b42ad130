import Zdeceptron.Instantiate.Pass

/-!
# What a step of the pass leaves alone

Copying what a node holds changes nothing but the names, the places and the errors, and a walk
of nodes gives the frame, the depth and the stack back.
-/

namespace Zdeceptron
namespace Instantiate

open Bodies (Arg)

variable {Op Head : Type}

section Quiet

/-- The frame is the same one, with other names for its binders perhaps, and nothing else but
names, places and errors is touched. -/
structure Quiet (s s' : Pass Op Head) : Prop where
  copying : s'.frame.copying = s.frame.copying
  params : s'.frame.params = s.frame.params
  children : s'.frame.children = s.frame.children
  stack : s'.stack = s.stack
  depth : s'.depth = s.depth
  reported_depth : s'.reported_depth = s.reported_depth
  expansions : s'.expansions = s.expansions
  overflowed : s'.overflowed = s.overflowed
  errors : s.errors <+: s'.errors

theorem Quiet.refl (s : Pass Op Head) : Quiet s s :=
  ⟨rfl, rfl, rfl, rfl, rfl, rfl, rfl, rfl, List.prefix_refl _⟩

theorem Quiet.trans {s s' s'' : Pass Op Head} (h : Quiet s s') (h' : Quiet s' s'') :
    Quiet s s'' where
  copying := h'.copying.trans h.copying
  params := h'.params.trans h.params
  children := h'.children.trans h.children
  stack := h'.stack.trans h.stack
  depth := h'.depth.trans h.depth
  reported_depth := h'.reported_depth.trans h.reported_depth
  expansions := h'.expansions.trans h.expansions
  overflowed := h'.overflowed.trans h.overflowed
  errors := h.errors.trans h'.errors

theorem Quiet.report {s s' : Pass Op Head} (h : Quiet s s') (message : String) :
    Quiet s (s'.report message) :=
  h.trans ⟨rfl, rfl, rfl, rfl, rfl, rfl, rfl, rfl, List.prefix_append _ _⟩

theorem eachOf_rel {α β : Type} {R : Pass Op Head → Pass Op Head → Prop} (hrefl : ∀ s, R s s)
    (htrans : ∀ {s s' s''}, R s s' → R s' s'' → R s s'') {f : α → Step Op Head β} :
    ∀ {as : List α}, (∀ a ∈ as, ∀ s, R s (f a s).2) → ∀ s, R s (eachOf f as s).2
  | [], _, s => hrefl s
  | a :: as, h, s =>
      htrans (h a (by simp) s)
        (eachOf_rel hrefl htrans (fun b hb => h b (List.mem_cons_of_mem _ hb)) _)

theorem eachOf_quiet {α β : Type} {f : α → Step Op Head β} {as : List α}
    (h : ∀ a ∈ as, ∀ s, Quiet s (f a s).2) (s : Pass Op Head) : Quiet s (eachOf f as s).2 :=
  eachOf_rel Quiet.refl Quiet.trans h s

theorem optionally_quiet {α β : Type} {f : α → Step Op Head β}
    (h : ∀ a s, Quiet s (f a s).2) (a : Option α) (s : Pass Op Head) :
    Quiet s (optionally f a s).2 := by
  cases a with
  | none => exact Quiet.refl s
  | some a => exact h a s

theorem rebind_quiet (id : Nat) (s : Pass Op Head) : Quiet s (rebind id s).2 := by
  unfold rebind
  split_ifs
  · exact ⟨rfl, rfl, rfl, rfl, rfl, rfl, rfl, rfl, List.prefix_refl _⟩
  · exact Quiet.refl s

mutual

theorem expr_quiet : ∀ (e : HirExpr Op) (s : Pass Op Head), Quiet s (expr e s).2
  | .ref res, s => by
      unfold expr
      split_ifs
      · cases res with
        | local_ id =>
            cases hparam : s.frame.params id <;> simpa [hparam] using Quiet.refl s
        | def_ id => exact Quiet.refl s
        | provided name => exact Quiet.refl s
      · exact Quiet.refl s
  | .form op operands, s => by
      unfold expr
      split_ifs
      · exact exprs_quiet operands s
      · exact Quiet.refl s
  | .mapInside var source to_, s => by
      unfold expr
      split_ifs
      · exact ((expr_quiet source s).trans (rebind_quiet var _)).trans (expr_quiet to_ _)
      · exact Quiet.refl s

theorem exprs_quiet : ∀ (es : List (HirExpr Op)) (s : Pass Op Head), Quiet s (exprs es s).2
  | [], s => Quiet.refl s
  | e :: es, s => (expr_quiet e s).trans (exprs_quiet es _)

end

theorem arg_quiet (a : Arg (HirExpr Op)) (s : Pass Op Head) : Quiet s (arg a s).2 := by
  cases a with
  | positional e => exact expr_quiet e s
  | named name e => exact expr_quiet e s

theorem pathSeg_quiet (seg : HirPathSeg Op) (s : Pass Op Head) : Quiet s (pathSeg seg s).2 := by
  cases seg with
  | field name => exact Quiet.refl s
  | index e => exact expr_quiet e s

theorem placeBase_quiet (res : Res) (s : Pass Op Head) : Quiet s (placeBase res s).2 := by
  cases res with
  | local_ id =>
      simp only [placeBase]
      cases hparam : s.frame.params id with
      | none => exact Quiet.refl s
      | some e =>
          cases e with
          | ref res => exact Quiet.refl s
          | form op operands => exact (Quiet.refl s).report _
          | mapInside var source to_ => exact (Quiet.refl s).report _
  | def_ id => exact Quiet.refl s
  | provided name => exact Quiet.refl s

theorem place_quiet (p : HirPlace Op) (s : Pass Op Head) : Quiet s (place p s).2 := by
  have hnew : Quiet (placeBase p.base s).2
      { (placeBase p.base s).2 with places := (placeBase p.base s).2.places + 1 } :=
    ⟨rfl, rfl, rfl, rfl, rfl, rfl, rfl, rfl, List.prefix_refl _⟩
  exact ((placeBase_quiet p.base s).trans hnew).trans
    (eachOf_quiet (fun seg _ => pathSeg_quiet seg) _)

theorem pipeline_quiet (clause : HirPipeline Op) (s : Pass Op Head) :
    Quiet s (pipeline clause s).2 := by
  cases clause with
  | from_ e => exact expr_quiet e s
  | takeFirst e => exact expr_quiet e s
  | keep var cond | sort var cond | mapEach var cond =>
      exact (rebind_quiet var s).trans (expr_quiet cond _)
  | fold item total starting step =>
      exact (((expr_quiet starting s).trans (rebind_quiet total _)).trans
        (rebind_quiet item _)).trans (expr_quiet step _)

theorem mutation_quiet (verb : Verb) (p : HirPlace Op) (value : HirExpr Op) (s : Pass Op Head) :
    Quiet s (mutation verb p value s).2 := by
  cases verb with
  | set => exact (place_quiet p s).trans (expr_quiet value _)
  | _ => exact (expr_quiet value s).trans (place_quiet p _)

theorem binding_quiet (b : Nat × HirExpr Op) (s : Pass Op Head) : Quiet s (binding b s).2 :=
  (expr_quiet b.2 s).trans (rebind_quiet b.1 _)

theorem rebinds_quiet (ids : List Nat) (s : Pass Op Head) : Quiet s (eachOf rebind ids s).2 :=
  eachOf_quiet (fun id _ => rebind_quiet id) s

mutual

theorem stmt_quiet : ∀ (st : HirStmt Op) (s : Pass Op Head), Quiet s (stmt st s).2
  | .give e, s => by simpa [stmt] using expr_quiet e s
  | .pipeline clause, s => by simpa [stmt] using pipeline_quiet clause s
  | .mutation verb p value, s => by simpa [stmt] using mutation_quiet verb p value s
  | .when scrutinee arms, s => by
      simpa [stmt] using (expr_quiet scrutinee s).trans (stmtArms_quiet arms _)
  | .each var iter body, s => by
      simpa [stmt] using ((expr_quiet iter s).trans (rebind_quiet var _)).trans (stmts_quiet body _)
  | .ifThen cond then_ none, s => by
      simpa [stmt] using (expr_quiet cond s).trans (stmts_quiet then_ _)
  | .ifThen cond then_ (some otherwise), s => by
      simpa [stmt] using
        ((expr_quiet cond s).trans (stmts_quiet then_ _)).trans (stmts_quiet otherwise _)
  | .bind bindings, s => by
      simpa [stmt] using eachOf_quiet (fun b (_ : b ∈ bindings) => binding_quiet b) s
  | .do_ call, s => by simpa [stmt] using expr_quiet call s

theorem stmts_quiet : ∀ (ss : List (HirStmt Op)) (s : Pass Op Head), Quiet s (stmts ss s).2
  | [], s => by simpa [stmts] using Quiet.refl s
  | first :: rest, s => by simpa [stmts] using (stmt_quiet first s).trans (stmts_quiet rest _)

theorem stmtArm_quiet : ∀ (arm : HirArm Op) (s : Pass Op Head), Quiet s (stmtArm arm s).2
  | .show_ pattern bindings e, s => by
      simpa [stmtArm] using (rebinds_quiet bindings s).trans (expr_quiet e _)
  | .block pattern bindings body, s => by
      simpa [stmtArm] using (rebinds_quiet bindings s).trans (stmts_quiet body _)

theorem stmtArms_quiet : ∀ (arms : List (HirArm Op)) (s : Pass Op Head),
    Quiet s (stmtArms arms s).2
  | [], s => by simpa [stmtArms] using Quiet.refl s
  | first :: rest, s => by
      simpa [stmtArms] using (stmtArm_quiet first s).trans (stmtArms_quiet rest _)

end

theorem block_quiet (body : List (HirStmt Op)) (s : Pass Op Head) :
    Quiet s (block body s).2 := by
  unfold block
  split_ifs
  · exact stmts_quiet body s
  · exact Quiet.refl s

theorem local_signal_quiet (state : LocalSignal Op Head) (s : Pass Op Head) :
    Quiet s (local_signal state s).2 :=
  (expr_quiet state.init s).trans (rebind_quiet state.local_ _)

theorem local_signals_quiet (states : List (LocalSignal Op Head)) (s : Pass Op Head) :
    Quiet s (eachOf local_signal states s).2 :=
  eachOf_quiet (fun state _ => local_signal_quiet state) s

theorem args_quiet (args : List (Arg (HirExpr Op))) (s : Pass Op Head) :
    Quiet s (eachOf arg args s).2 :=
  eachOf_quiet (fun a _ => arg_quiet a) s

theorem bindArgument_quiet (name : String) (component : Component Op Head) (b : Binding Op)
    (a : Arg (HirExpr Op)) (s : Pass Op Head) :
    Quiet s (bindArgument name component b a s).2 := by
  cases a with
  | positional e =>
      simp only [bindArgument]
      cases hparam : component.params[b.positional]? with
      | none => exact (Quiet.refl s).report _
      | some param => exact expr_quiet e s
  | named written e =>
      simp only [bindArgument]
      cases hparam : component.params.find? fun param => s.localName param == written with
      | none => exact (Quiet.refl s).report _
      | some param =>
          simp only []
          split_ifs
          · exact (expr_quiet e s).report _
          · exact expr_quiet e s

theorem bindArguments_quiet (name : String) (component : Component Op Head) :
    ∀ (args : List (Arg (HirExpr Op))) (b : Binding Op) (s : Pass Op Head),
      Quiet s (bindArguments name component args b s).2
  | [], _, s => Quiet.refl s
  | a :: args, b, s => by
      rw [bindArguments]
      exact (bindArgument_quiet name component b a s).trans
        (bindArguments_quiet name component args _ _)

theorem bind_arguments_quiet (name : String) (component : Component Op Head)
    (args : List (Arg (HirExpr Op))) (s : Pass Op Head) :
    Quiet s (bind_arguments name component args s).2 := by
  unfold bind_arguments
  simp only []
  split_ifs
  · exact bindArguments_quiet name component args _ s
  · exact bindArguments_quiet name component args _ s
  · exact (bindArguments_quiet name component args _ s).report _

end Quiet

section Keeps

variable {room : Nat}

structure Told (s : Pass Op Head) : Prop where
  depth : s.reported_depth = true → s.errors ≠ []
  budget : INSTANCE_BUDGET < s.expansions → s.errors ≠ []

/-- The stack has room for the runs the limit allows. -/
def Fits (room : Nat) (s : Pass Op Head) : Prop :=
  s.depth ≤ MAX_NODE_DEPTH ∧ MAX_NODE_DEPTH < room + s.depth

/-- The frame, the stack and the depth are given back, errors and copies only grow, and the call
stack does not run out if there is room. -/
structure Keeps (room : Nat) (s s' : Pass Op Head) : Prop where
  copying : s'.frame.copying = s.frame.copying
  params : s'.frame.params = s.frame.params
  children : s'.frame.children = s.frame.children
  stack : s'.stack = s.stack
  depth : s'.depth = s.depth
  expansions : s.expansions ≤ s'.expansions
  errors : s.errors <+: s'.errors
  told : Told s → Told s'
  overflowed : Fits room s → s'.overflowed = s.overflowed

variable {s s' : Pass Op Head}

theorem errors_ne_nil (h : s.errors <+: s'.errors) (hs : s.errors ≠ []) :
    s'.errors ≠ [] := by
  rintro heq
  rw [heq, List.prefix_nil] at h
  exact hs h

theorem Quiet.keeps (h : Quiet s s') : Keeps room s s' where
  copying := h.copying
  params := h.params
  children := h.children
  stack := h.stack
  depth := h.depth
  expansions := h.expansions.ge
  errors := h.errors
  told ht := ⟨fun hr => errors_ne_nil h.errors (ht.depth (h.reported_depth ▸ hr)),
    fun hb => errors_ne_nil h.errors (ht.budget (h.expansions ▸ hb))⟩
  overflowed _ := h.overflowed

theorem Keeps.refl (s : Pass Op Head) : Keeps room s s := (Quiet.refl s).keeps

theorem Keeps.trans {s s' s'' : Pass Op Head} (h : Keeps room s s') (h' : Keeps room s' s'') :
    Keeps room s s'' where
  copying := h'.copying.trans h.copying
  params := h'.params.trans h.params
  children := h'.children.trans h.children
  stack := h'.stack.trans h.stack
  depth := h'.depth.trans h.depth
  expansions := h.expansions.trans h'.expansions
  errors := h.errors.trans h'.errors
  told ht := h'.told (h.told ht)
  overflowed hfits := by
    have hfits' : Fits room s' := by
      unfold Fits
      rw [h.depth]
      exact hfits
    rw [h'.overflowed hfits', h.overflowed hfits]

theorem Keeps.report (h : Keeps room s s') (message : String) :
    Keeps room s (s'.report message) :=
  h.trans ((Quiet.refl s').report message).keeps

theorem eachOf_keeps {α β : Type} {f : α → Step Op Head β} {as : List α}
    (h : ∀ a ∈ as, ∀ s, Keeps room s (f a s).2) (s : Pass Op Head) :
    Keeps room s (eachOf f as s).2 :=
  eachOf_rel Keeps.refl Keeps.trans h s

def RunsKeep (room : Nat) (runs : Runs Op Head) : Prop :=
  ∀ ns s, Keeps room s (runs ns s).2

variable {hir : Hir Op Head} {runs : Runs Op Head}

theorem copyBody_keeps (hruns : RunsKeep room runs) (id : Nat) (component : Component Op Head)
    (params : Nat → Option (HirExpr Op)) (children : List (HirNode Op Head))
    (s : Pass Op Head) : Keeps room s (copyBody runs id component params children s).2 := by
  have hinner : Keeps room (s.inside id params children) _ :=
    (local_signals_quiet component.states _).keeps.trans (hruns component.body _)
  exact ⟨rfl, rfl, rfl, rfl, hinner.depth, hinner.expansions, hinner.errors,
    fun ht => ⟨(hinner.told ⟨ht.depth, ht.budget⟩).depth,
      (hinner.told ⟨ht.depth, ht.budget⟩).budget⟩, hinner.overflowed⟩

theorem splice_keeps (hruns : RunsKeep room runs) (id : Nat) (component : Component Op Head)
    (element : HirElement Op Head) (params : Nat → Option (HirExpr Op)) (s : Pass Op Head) :
    Keeps room s (splice hir runs id component element params s).2 := by
  have hchildren := hruns element.children s
  unfold splice
  simp only []
  split_ifs
  · exact hchildren.report _
  · exact hchildren.trans (copyBody_keeps hruns _ _ _ _ _)
  · exact hchildren.trans (copyBody_keeps hruns _ _ _ _ _)

theorem expand_keeps (hruns : RunsKeep room runs) (id : Nat) (component : Component Op Head)
    (element : HirElement Op Head) (s : Pass Op Head) :
    Keeps room s (expand hir runs id component element s).2 := by
  unfold expand
  by_cases hstack : s.stack.contains id = true
  · rw [if_pos hstack]
    exact (Keeps.refl s).report _
  rw [if_neg hstack]
  simp only []
  by_cases hbudget : INSTANCE_BUDGET < s.expansions + 1
  · rw [if_pos hbudget]
    split_ifs with hfirst
    · exact ⟨rfl, rfl, rfl, rfl, rfl, Nat.le_succ _, List.prefix_append _ _,
        fun _ => ⟨fun _ => by simp [Pass.report], fun _ => by simp [Pass.report]⟩, fun _ => rfl⟩
    · exact ⟨rfl, rfl, rfl, rfl, rfl, Nat.le_succ _, List.prefix_refl _,
        fun ht => ⟨ht.depth, fun _ => ht.budget (by omega)⟩, fun _ => rfl⟩
  rw [if_neg hbudget]
  have hcounted : Keeps room s { s with expansions := s.expansions + 1 } :=
    ⟨rfl, rfl, rfl, rfl, rfl, Nat.le_succ _, List.prefix_refl _,
      fun ht => ⟨ht.depth, fun hb => absurd hb hbudget⟩, fun _ => rfl⟩
  have hbound := hcounted.trans
    (bind_arguments_quiet (hir.name id) component element.args _).keeps
  cases hparams : (bind_arguments (hir.name id) component element.args
      { s with expansions := s.expansions + 1 }).1 with
  | none => exact hbound
  | some params => exact hbound.trans (splice_keeps hruns _ _ _ _ _)

theorem elementNode_keeps (hruns : RunsKeep room runs) (element : HirElement Op Head)
    (s : Pass Op Head) : Keeps room s (elementNode hir runs element s).2 := by
  obtain ⟨name, res, args, children, span⟩ := element
  unfold elementNode
  simp only []
  split
  · exact expand_keeps hruns _ _ _ s
  · exact (args_quiet args s).keeps.trans (hruns children _)

theorem nodeArm_keeps (hruns : RunsKeep room runs) (arm : HirNodeArm Op Head)
    (s : Pass Op Head) : Keeps room s (nodeArm hir runs arm s).2 := by
  cases arm with
  | show_ pattern bindings element =>
      exact (rebinds_quiet bindings s).keeps.trans (elementNode_keeps hruns element _)
  | nodes pattern bindings ns =>
      exact (rebinds_quiet bindings s).keeps.trans (hruns ns _)

theorem optionally_keeps (hruns : RunsKeep room runs) (ns : Option (List (HirNode Op Head)))
    (s : Pass Op Head) : Keeps room s (optionally runs ns s).2 := by
  cases ns with
  | none => exact Keeps.refl s
  | some ns => exact hruns ns s

theorem node_keeps (hruns : RunsKeep room runs) (n : HirNode Op Head) (s : Pass Op Head) :
    Keeps room s (node hir runs n s).2 := by
  cases n with
  | element element => exact elementNode_keeps hruns element s
  | each var iter body span =>
      exact ((expr_quiet iter s).trans (rebind_quiet var _)).keeps.trans (hruns body _)
  | when scrutinee arms span =>
      exact (expr_quiet scrutinee s).keeps.trans
        (eachOf_keeps (fun arm _ => nodeArm_keeps hruns arm) _)
  | ifThen cond then_ otherwise span =>
      exact ((expr_quiet cond s).keeps.trans (hruns then_ _)).trans
        (optionally_keeps hruns otherwise _)
  | handler event payload body span =>
      exact ((optionally_quiet rebind_quiet payload s).trans (block_quiet body _)).keeps
  | children span => exact Keeps.refl s
  | scope locals body span => exact (local_signals_quiet locals s).keeps.trans (hruns body _)

theorem reportDepth_keeps (s : Pass Op Head) : Keeps room s (reportDepth s) := by
  unfold reportDepth
  split_ifs with hreported
  · exact Keeps.refl s
  · exact ⟨rfl, rfl, rfl, rfl, rfl, le_rfl, List.prefix_append _ _,
      fun _ => ⟨fun _ => by simp [Pass.report], fun _ => by simp [Pass.report]⟩, fun _ => rfl⟩

theorem nodes_keeps : ∀ room, RunsKeep room (nodes hir room)
  | 0 => fun ns s => ⟨rfl, rfl, rfl, rfl, rfl, le_rfl, List.prefix_refl _,
      fun ht => ⟨ht.depth, ht.budget⟩, fun hfits => by
        unfold Fits at hfits
        omega⟩
  | room + 1 => fun ns s => by
      unfold nodes
      split_ifs with hdepth
      · exact reportDepth_keeps s
      · have hout : Keeps room { s with depth := s.depth + 1 }
            (eachOf (node hir (nodes hir room)) ns { s with depth := s.depth + 1 }).2 :=
          eachOf_keeps (fun n _ => node_keeps (nodes_keeps room) n) _
        refine ⟨hout.copying, hout.params, hout.children, hout.stack, ?_, hout.expansions,
          hout.errors, fun ht => ?_, fun hfits => hout.overflowed ?_⟩
        · simp [hout.depth]
        · obtain ⟨hd, hb⟩ := hout.told ⟨ht.depth, ht.budget⟩
          exact ⟨hd, hb⟩
        · unfold Fits at hfits ⊢
          simp only
          omega

end Keeps

end Instantiate
end Zdeceptron
