import Zdeceptron.Graph.Homes
import Zdeceptron.Graph.LeastSummaries

/-!
# Traced walks

A traced walk solves what it calls again, three calls deep, where another walk reads the
summary.  Once the summaries are solved the two agree, in every context the split has a member
for.
-/

namespace Zdeceptron
namespace Graph

open Library

section Walks

/-- The summary a traced walk reads so many calls deep: solved again, or the one there is. -/
def calleeAt (hir : Hir) (split : TierSplit) (σ : Summaries) (depth : Nat) : Summaries := fun key =>
  if depth < 3 then solveFunction hir split (calleeAt hir split σ (depth + 1)) key else σ key
termination_by 3 - depth

def tableAt (hir : Hir) (split : TierSplit) (σ : Summaries) (tracing : Bool) (depth : Nat) :
    Summaries :=
  if tracing then calleeAt hir split σ depth else σ

def solveAt (hir : Hir) (split : TierSplit) (σ : Summaries) (tracing : Bool) (depth : Nat)
    (key : Key) : Summary :=
  solveFunction hir split (tableAt hir split σ tracing depth) key

def walkAt (hir : Hir) (split : TierSplit) (σ : Summaries) (tracing : Bool) (depth : Nat)
    (key : Key) : Pass :=
  passOf hir split (tableAt hir split σ tracing depth) key

def Pass.beat (p : Pass) : Option Block → WalkM Unit
  | some body => runIf (p.ctx.kind = .trigger) (p.block body)
  | none => pure ()

def Pass.signal (p : Pass) (signal : Signal) : WalkM SymLabel := do
  let value ← p.expr signal.init
  p.beat signal.schedule
  pure value

def Pass.definition (p : Pass) : DefKind → WalkM SymLabel
  | .signal signal => p.signal signal
  | .function function => do
      p.block function.body
      pure ⊥
  | .view nodes => do
      p.nodes nodes
      pure ⊥
  | _ => pure ⊥

end Walks

section Agreement

/-- The identities of the obligations of two walks, with what is found and the counter. -/
def SameObligations (os os' : Obligations) : Prop :=
  ∀ id, (os.lookup id).map (fun o => (o.found, o.pc)) =
    (os'.lookup id).map (fun o => (o.found, o.pc))

structure SameSummary (s s' : Summary) : Prop where
  result : s.result = s'.result
  obligations : SameObligations s.obligations s'.obligations

structure SameWalk (w w' : Walk) : Prop where
  locals : w.locals = w'.locals
  localSignals : w.localSignals = w'.localSignals
  failureBinders : w.failureBinders = w'.failureBinders
  pc : w.pc = w'.pc
  acc : w.acc = w'.acc
  result : w.result = w'.result
  obligations : SameObligations w.obligations w'.obligations

theorem rising_le : Rising (· ≤ ·) := ⟨fun h => h, fun _ => bot_le⟩

theorem logicalLe : Logical (· ≤ ·) := ⟨fun _ => le_rfl, sup_le_sup⟩

abbrev ObligationsLe (hir : Hir) (os os' : Obligations) : Prop :=
  ∀ id, ObligationRel hir False (· ≤ ·) os os' id

theorem SameObligations.of_le (hir : Hir) {os os' : Obligations} (h : ObligationsLe hir os os')
    (h' : ObligationsLe hir os' os) : SameObligations os os' := by
  intro id
  have hfound := le_antisymm (h id).found (h' id).found
  have hpc := le_antisymm (h id).pc (h' id).pc
  have hsome := (h id).isSome
  have hsome' := (h' id).isSome
  unfold foundAt at hfound
  unfold pcAt at hpc
  cases hlookup : os.lookup id with
  | none =>
      cases hlookup' : os'.lookup id with
      | none => rfl
      | some o' => simp [hlookup, hlookup'] at hsome'
  | some o =>
      cases hlookup' : os'.lookup id with
      | none => simp [hlookup, hlookup'] at hsome
      | some o' =>
          rw [hlookup, hlookup'] at hfound hpc
          exact congrArg some (Prod.ext hfound hpc)

theorem SameSummary.of_le {s s' : Summary}
    (h : ∀ id, SummaryLe id s s' ∧ SummaryLe id s' s) : SameSummary s s' where
  result := le_antisymm (h ((0, 0), .write 0)).1.result (h ((0, 0), .write 0)).2.result
  obligations := SameObligations.of_le ⟨[], none, fun _ => (0, 0), fun _ => ""⟩
    (fun id => ⟨(h id).1.found, (h id).1.pc, (h id).1.isSome, False.elim, False.elim⟩)
    (fun id => ⟨(h id).2.found, (h id).2.pc, (h id).2.isSome, False.elim, False.elim⟩)

abbrev WalkLe (hir : Hir) : Walk → Walk → Prop :=
  WalkRel hir False (· ≤ ·) (fun _ => True) (fun _ => True)

theorem LabelRel.le {s s' : SymLabel} (h : LabelRel (· ≤ ·) s s') : s ≤ s' :=
  ⟨h.shape, h.value, h.failure⟩

theorem LabelRel.refl (s : SymLabel) : LabelRel (· ≤ ·) s s := ⟨le_rfl, le_rfl, le_rfl⟩

theorem WalkLe.refl (hir : Hir) (w : Walk) : WalkLe hir w w where
  locals _ _ := LabelRel.refl _
  localSignals := rfl
  failureBinders := rfl
  pc := le_rfl
  acc := LabelRel.refl _
  result := LabelRel.refl _
  obligations _ _ := ⟨le_rfl, le_rfl, fun h => h, False.elim, False.elim⟩
  urlArgument := rfl

theorem SameWalk.of_le {hir : Hir} {w w' : Walk} (h : WalkLe hir w w') (h' : WalkLe hir w' w) :
    SameWalk w w' where
  locals := funext (fun id =>
    le_antisymm (h.locals id trivial).le (h'.locals id trivial).le)
  localSignals := h'.localSignals
  failureBinders := h'.failureBinders
  pc := le_antisymm h.pc h'.pc
  acc := le_antisymm h.acc.le h'.acc.le
  result := le_antisymm h.result.le h'.result.le
  obligations := SameObligations.of_le hir (fun id => h.obligations id trivial)
    (fun id => h'.obligations id trivial)

theorem summaryRel_le {hir : Hir} {s s' : Summary} (h : ∀ id, SummaryLe id s s') :
    SummaryRel hir False (· ≤ ·) (fun _ => True) s s' := by
  have hsym : ∀ {t t' : Sym}, t ≤ t' → ∀ {args args'},
      List.Forall₂ (LabelRel (· ≤ ·)) args args' → t.instantiate args ≤ t'.instantiate args' :=
    fun hle _ _ hargs => (Sym.instantiate_mono hle _).trans (logicalLe.instantiate hargs _)
  have hresult := (h ((0, 0), .write 0)).result
  exact
    { result := fun hargs =>
        ⟨hsym hresult.1 hargs, hsym hresult.2.1 hargs, hsym hresult.2.2 hargs⟩
      found := fun hargs id _ => hsym (h id).found hargs
      pc := fun hargs id _ => hsym (h id).pc hargs
      isSome := fun id _ => (h id).isSome
      required := False.elim
      required' := False.elim }

end Agreement

section Bodies

variable {p : Pass} {callee : DefId → Summary}

theorem definition_related {id : DefId} {kind : DefKind} (hkind : p.hir.kind id = some kind)
    (h : ∀ d, Called p.hir d (walkedExprs p.hir id) →
      ∀ oid, SummaryLe oid (p.callee d) (callee d)) :
    Related (WalkLe p.hir) (LabelRel (· ≤ ·)) (p.definition kind)
      ((p.reading callee).definition kind) := by
  obtain ⟨C, hC, hscoped⟩ : ∃ C : DefId → Prop,
      (∀ d, C d → SummaryRel p.hir False (· ≤ ·) (fun _ => True) (p.callee d) (callee d)) ∧
        ∀ e ∈ walkedExprs p.hir id, Scoped p.hir (fun _ => True) C e :=
    ⟨fun d => Called p.hir d (walkedExprs p.hir id), fun d hd => summaryRel_le (h d hd),
      fun e he => ⟨fun _ _ _ => trivial, fun d hd => ⟨e, he, hd⟩⟩⟩
  unfold walkedExprs at hscoped
  rw [hkind] at hscoped
  cases kind with
  | signal signal =>
      rw [List.forall_mem_cons, List.forall_mem_append] at hscoped
      refine (Pass.expr_related logicalLe (fun _ _ => rising_le) hC signal.init hscoped.1).bind
        (fun value value' hvalue => ?_)
      refine Related.bind (A := fun _ _ => True) ?_ (fun _ _ _ => .of_pure hvalue)
      have hblock := hscoped.2.2
      cases hschedule : signal.schedule with
      | none => exact .of_pure trivial
      | some body =>
          rw [hschedule] at hblock
          exact related_runIf _ (Pass.block_related logicalLe (fun _ _ => rising_le) hC body hblock)
  | function function =>
      exact (Pass.block_related logicalLe (fun _ _ => rising_le) hC function.body hscoped).bind
        (fun _ _ _ => .of_pure (LabelRel.refl _))
  | view nodes =>
      exact (Pass.nodes_related logicalLe (fun _ _ => rising_le) hC nodes hscoped).bind
        (fun _ _ _ => .of_pure (LabelRel.refl _))
  | _ => exact .of_pure (LabelRel.refl _)

theorem solve_le_called {function : Function} (h : ∀ d, Called p.hir d (blockExprs function.body) →
      ∀ id, SummaryLe id (p.callee d) (callee d)) (id : ObligationId) :
    SummaryLe id (p.solve function) ((p.reading callee).solve function) := by
  obtain ⟨hresult, hobligations⟩ := solve_related (C := fun d =>
      Called p.hir d (blockExprs function.body)) (I := fun _ => True) logicalLe
    (fun _ _ => rising_le) (fun d hd => summaryRel_le (h d hd)) (fun e he d hd => ⟨e, he, hd⟩)
    (fun _ _ => LabelRel.refl _)
  exact ⟨hresult.le, (hobligations id trivial).found, (hobligations id trivial).pc,
    (hobligations id trivial).isSome⟩

end Bodies

section Tracing

variable {hir : Hir} {s : TierSplit} {σ : Summaries} {order : List Key} {exprs : Nat}

def Agrees (σ τ : Summaries) (key : Key) : Prop :=
  ∀ id, SummaryLe id (σ key) (τ key) ∧ SummaryLe id (τ key) (σ key)

variable {key : Key}

theorem summarise_off_keys (hend : summarise hir s exprs order = .settled σ)
    (hkey : key ∉ order) : σ key = .empty := by
  refine (rounds_induction (fun σ => σ key = .empty) (fun at_ other hother hat => ?_) rfl hend).1
  refine refresh_apply (P := fun v => v = Summary.empty) hat ?_
  rintro rfl -
  exact absurd hother hkey

theorem calleeAt_not_function (hnot : isFunction hir key.1 = false) (hσ : σ key = .empty)
    (depth : Nat) : calleeAt hir s σ depth key = .empty := by
  rw [calleeAt]
  split
  · unfold solveFunction
    unfold isFunction at hnot
    split
    · rename_i hkind
      rw [hkind] at hnot
      cases hnot
    · rfl
  · exact hσ

theorem not_mem_of_not_function (horder : order.Perm (functionKeys hir s)) {key : Key}
    (hnot : isFunction hir key.1 = false) : key ∉ order := by
  intro hin
  have hyes := functionKeys_functions (horder.mem_iff.mp hin)
  rw [hnot] at hyes
  cases hyes

theorem called_agrees (h : split hir = some s) {order : List Key}
    (horder : order.Perm (functionKeys hir s)) (hend : summarise hir s exprs order = .settled σ)
    {τ : Summaries} (hτ : ∀ key ∈ functionKeys hir s, Agrees τ σ key)
    (hempty : ∀ key, isFunction hir key.1 = false → τ key = .empty) {id : DefId} {root : RootId}
    {form : MemberForm} (hmember : (root, id, form) ∈ s.splitter.members)
    (hwalks : Splitter.walksItsBody hir id root) {d : DefId}
    (hd : Called hir d (walkedExprs hir id)) : Agrees τ σ (d, s.splitter.ctxOf root) := by
  cases hfunction : isFunction hir d with
  | false =>
      intro oid
      rw [hempty (d, _) hfunction,
        summarise_off_keys hend (@not_mem_of_not_function hir s order horder (d, _) hfunction)]
      exact ⟨SummaryLe.refl _ _, SummaryLe.refl _ _⟩
  | true =>
      refine hτ _ (List.mem_dedup.mpr (List.mem_filter.mpr ⟨?_, hfunction⟩))
      exact split_calls h hmember hwalks ((call_mem_sitesOf id).mpr hd)

theorem exists_member (h : split hir = some s) (hkey : key ∈ functionKeys hir s) :
    ∃ root, (root, key.1, Splitter.formOf hir key.1 root) ∈ s.splitter.members ∧
      s.splitter.ctxOf root = key.2 := by
  have hreached := (reached_split h).1
  have hcontext := (List.mem_filter.mp (List.mem_dedup.mp hkey)).1
  obtain ⟨root, hseen, hctx⟩ := (hreached.contexts key.1 key.2).mp hcontext
  exact ⟨root, (hreached.members root key.1 _).mpr ⟨hseen, rfl⟩, hctx⟩

theorem kind_of_isFunction {id : DefId} (h : isFunction hir id) :
    ∃ function, hir.kind id = some (.function function) := by
  unfold isFunction at h
  split at h
  · exact ⟨_, ‹_›⟩
  · cases h

theorem solveFunction_agrees (h : split hir = some s) (horder : order.Perm (functionKeys hir s))
    (hend : summarise hir s exprs order = .settled σ) {τ : Summaries}
    (hτ : ∀ key ∈ functionKeys hir s, Agrees τ σ key)
    (hempty : ∀ key, isFunction hir key.1 = false → τ key = .empty)
    (hkey : key ∈ functionKeys hir s) :
    Agrees (solveFunction hir s τ) (solveFunction hir s σ) key := by
  obtain ⟨root, hmember, hctx⟩ := exists_member h hkey
  obtain ⟨function, hkind⟩ := kind_of_isFunction (functionKeys_functions hkey)
  have hwalks : Splitter.walksItsBody hir key.1 root := by
    unfold Splitter.walksItsBody
    rw [signal_of_kind hkind (fun _ => DefKind.noConfusion)]
  have hcalled : ∀ d, Called hir d (blockExprs function.body) → Agrees τ σ (d, key.2) := by
    intro d hd
    rw [← hctx]
    refine called_agrees h horder hend hτ hempty hmember hwalks ?_
    unfold walkedExprs
    rw [hkind]
    exact hd
  have hsolve : ∀ τ, solveFunction hir s τ key = (passOf hir s τ key).solve function := by
    intro τ
    unfold solveFunction
    rw [hkind]
  intro id
  rw [hsolve, hsolve]
  exact ⟨@solve_le_called (passOf hir s τ key) (fun d => σ (d, key.2)) function
      (fun d hd oid => (hcalled d hd oid).1) id,
    @solve_le_called (passOf hir s σ key) (fun d => τ (d, key.2)) function
      (fun d hd oid => (hcalled d hd oid).2) id⟩

theorem calleeAt_same (h : split hir = some s) (horder : order.Perm (functionKeys hir s))
    (hend : summarise hir s exprs order = .settled σ) (depth : Nat) :
    ∀ key ∈ functionKeys hir s, Agrees (calleeAt hir s σ depth) σ key := by
  induction hleft : 3 - depth generalizing depth with
  | zero =>
      intro key _ id
      rw [calleeAt, if_neg (by omega)]
      exact ⟨SummaryLe.refl _ _, SummaryLe.refl _ _⟩
  | succ left ih =>
      intro key hkey id
      have hnext := ih (depth + 1) (by omega)
      have hsolved := solveFunction_agrees h horder hend hnext (fun other hother =>
        calleeAt_not_function hother
          (summarise_off_keys hend (not_mem_of_not_function horder hother)) _) hkey id
      have hfixed := (leastSolution_summarise hend).fixed key (horder.mem_iff.mpr hkey) id
      rw [calleeAt, if_pos (by omega)]
      exact ⟨hsolved.1.trans hfixed.1, hfixed.2.trans hsolved.2⟩

/-- At solved summaries no label, no identity of an obligation, and nothing found for one
depends on the tracing: not in a function solved at any depth, and not in any walk over a
definition where it is a member. -/
theorem traced_same (hir : Hir) (s : TierSplit) (hplaces : Splitter.WellPlaced hir)
    (h : split hir = some s) (exprs : Nat) (order : List Key) (σ : Summaries)
    (horder : order.Perm (functionKeys hir s))
    (hend : summarise hir s exprs order = .settled σ) (depth : Nat) :
    (∀ key ∈ functionKeys hir s,
      SameSummary (solveAt hir s σ true depth key) (solveAt hir s σ false depth key)) ∧
    ∀ root id form kind, (root, id, form) ∈ s.splitter.members → form ≠ .storeRead →
      hir.kind id = some kind → ∀ w : Walk,
        let key := (id, s.splitter.ctxOf root)
        let traced := ((walkAt hir s σ true depth key).definition kind).run w
        let plain := ((walkAt hir s σ false depth key).definition kind).run w
        traced.1 = plain.1 ∧ SameWalk traced.2 plain.2 := by
  have hempty : ∀ key, isFunction hir key.1 = false → calleeAt hir s σ depth key = .empty :=
    fun key hnot => calleeAt_not_function hnot
      (summarise_off_keys hend (not_mem_of_not_function horder hnot)) depth
  have hsame := calleeAt_same h horder hend depth
  constructor
  · intro key hkey
    exact SameSummary.of_le (solveFunction_agrees h horder hend hsame hempty hkey)
  · intro root id form kind hmember hform hkind w
    have hwalks := walksItsBody_of_member hplaces h hmember hform
    have hagrees := fun d (hd : Called hir d (walkedExprs hir id)) =>
      called_agrees h horder hend hsame hempty hmember hwalks hd
    have hup := @definition_related (walkAt hir s σ true depth (id, s.splitter.ctxOf root))
      (fun d => σ (d, s.splitter.ctxOf root)) id kind hkind (fun d hd oid => (hagrees d hd oid).1)
    have hdown := @definition_related (walkAt hir s σ false depth (id, s.splitter.ctxOf root))
      (fun d => calleeAt hir s σ depth (d, s.splitter.ctxOf root)) id kind hkind
      (fun d hd oid => (hagrees d hd oid).2)
    obtain ⟨hlabel, hstate⟩ := hup (WalkLe.refl hir w)
    obtain ⟨hlabel', hstate'⟩ := hdown (WalkLe.refl hir w)
    exact ⟨le_antisymm hlabel.le hlabel'.le, SameWalk.of_le hstate hstate'⟩

variable {s : Splitter}

theorem Splitter.fixpoint_done (hir : Hir) (h : s.work = []) :
    s.fixpoint hir = some s := by
  rw [Splitter.fixpoint]
  split
  · rfl
  · rename_i hwork
    rw [h] at hwork
    cases hwork

variable {rest : List (DefId × RootId)}

theorem Splitter.fixpoint_skip (hir : Hir) {pair : DefId × RootId}
    (hwork : s.work = pair :: rest) (hseen : pair ∈ s.seen) :
    s.fixpoint hir = Splitter.fixpoint hir { s with work := rest } := by
  rw [Splitter.fixpoint]
  split
  · rename_i hempty
    rw [hwork] at hempty
    cases hempty
  · rename_i hsame
    rw [hwork] at hsame
    cases hsame
    rw [if_pos hseen]

theorem Splitter.fixpoint_visit (hir : Hir) {id : DefId} {root : RootId}
    (hwork : s.work = (id, root) :: rest) (hseen : (id, root) ∉ s.seen) :
    s.fixpoint hir =
      Splitter.fixpoint hir (({ s with work := rest } : Splitter).visit hir id root) := by
  rw [Splitter.fixpoint]
  split
  · rename_i hempty
    rw [hwork] at hempty
    cases hempty
  · rename_i hsame
    rw [hwork] at hsame
    cases hsame
    rw [if_neg hseen]

theorem exists_split_looping : ∃ s, split looping = some s := by
  have hseed : (Splitter.new.seed looping).fixpoint looping = some Splitter.new :=
    Splitter.fixpoint_done looping rfl
  have horphan : Splitter.new.orphanPass looping = Splitter.new.adopt looping 0 := by
    have hids : ((List.range looping.defs.length).filter (fun id =>
        Splitter.new.isOrphan looping id)) = [0] := by decide
    rw [Splitter.orphanPass, hids, Splitter.adoptEach]
    exact Option.bind_fun_some _
  have hadopt : (Splitter.new.adopt looping 0).isSome := by
    unfold Splitter.adopt
    rw [if_neg (by decide), Splitter.fixpoint_visit looping rfl List.not_mem_nil,
      Splitter.fixpoint_skip looping rfl List.mem_cons_self, Splitter.fixpoint_done looping rfl]
    rfl
  obtain ⟨s, hs⟩ := Option.isSome_iff_exists.mp hadopt
  refine ⟨⟨s, s.collectParams, s.hoisted⟩, ?_⟩
  unfold split
  rw [hseed, Option.bind_some, horphan, hs]
  rfl

theorem looping_placed : Splitter.WellPlaced looping where
  scheduled id signal h := by
    match id with
    | 0 => cases h
    | _ + 1 => cases h
  tests id signal h := by
    match id with
    | 0 => cases h
    | _ + 1 => cases h
  view _ h := by cases h

theorem traced_same_looping : ∃ s σ, split looping = some s ∧
    summarise looping s (functionExprs looping) (functionKeys looping s) = .settled σ ∧
    ∀ key ∈ functionKeys looping s, SameSummary (solveAt looping s σ true 0 key)
      (solveAt looping s σ false 0 key) := by
  obtain ⟨s, hs⟩ := exists_split_looping
  obtain ⟨σ, hσ⟩ := @summarise_settled looping s ⟨functionExprs looping, le_rfl⟩
    (functionKeys looping s) (List.nodup_dedup _) (fun _ hkey => functionKeys_functions hkey)
  exact ⟨s, σ, hs, hσ,
    (traced_same looping s looping_placed hs _ _ σ (List.Perm.refl _) hσ 0).1⟩

end Tracing

end Graph
end Zdeceptron
