import Mathlib.Algebra.BigOperators.Ring.List
import Mathlib.Algebra.Order.BigOperators.Group.Finset
import Mathlib.Algebra.Ring.Nat
import Mathlib.Tactic.Ring
import Zdeceptron.Graph.Summaries

/-!
# The summaries are least

Solving a function is monotone in the summaries it reads, identity of obligation by identity,
and the labels of a body name no more parameters than it has expressions.

* `summarise_least`: the rounds end in the least fixpoint, whatever the order.
-/

namespace Zdeceptron
namespace Graph

open Library

section Orders

structure SummaryLe (id : ObligationId) (s s' : Summary) : Prop where
  result : s.result ≤ s'.result
  found : foundAt s.obligations id ≤ foundAt s'.obligations id
  pc : pcAt s.obligations id ≤ pcAt s'.obligations id
  isSome : (s.obligations.lookup id).isSome → (s'.obligations.lookup id).isSome

namespace SummaryLe

variable {id : ObligationId} {s t u : Summary}

theorem refl (id : ObligationId) (s : Summary) : SummaryLe id s s :=
  ⟨le_rfl, le_rfl, le_rfl, fun h => h⟩

theorem trans (h : SummaryLe id s t) (k : SummaryLe id t u) : SummaryLe id s u :=
  ⟨h.result.trans k.result, h.found.trans k.found, h.pc.trans k.pc,
    fun hsome => k.isSome (h.isSome hsome)⟩

theorem empty (id : ObligationId) (s : Summary) : SummaryLe id .empty s where
  result := bot_le
  found := bot_le
  pc := bot_le
  isSome h := by simp [Summary.empty] at h

end SummaryLe

def Summary.size (id : ObligationId) (s : Summary) : Nat :=
  s.result.size + (foundAt s.obligations id).size + (pcAt s.obligations id).size +
    (s.obligations.lookup id).isSome.toNat

variable {id : ObligationId}

variable {s t : Summary}

theorem SummaryLe.sizes_le (h : SummaryLe id s t) :
    s.result.size ≤ t.result.size ∧
      (foundAt s.obligations id).size ≤ (foundAt t.obligations id).size ∧
      (pcAt s.obligations id).size ≤ (pcAt t.obligations id).size ∧
      (s.obligations.lookup id).isSome.toNat ≤ (t.obligations.lookup id).isSome.toNat :=
  ⟨SymLabel.size_le h.result, Sym.size_le h.found, Sym.size_le h.pc, Bool.toNat_le_toNat h.isSome⟩

theorem SummaryLe.size_le (h : SummaryLe id s t) : s.size id ≤ t.size id := by
  have := h.sizes_le
  unfold Summary.size
  omega

theorem SummaryLe.of_size (h : SummaryLe id s t) (hsize : t.size id ≤ s.size id) :
    SummaryLe id t s := by
  obtain ⟨hresult, hfound, hpc, hsome⟩ := h.sizes_le
  unfold Summary.size at hsize
  refine ⟨(SymLabel.eq_of_size_le h.result (by omega)).ge,
    (Sym.eq_of_size_le h.found (by omega)).ge, (Sym.eq_of_size_le h.pc (by omega)).ge, fun ht => ?_⟩
  by_contra hs
  rw [ht, Bool.eq_false_iff.mpr hs] at hsome hsize
  simp only [Bool.toNat_true, Bool.toNat_false] at hsize
  omega

/-- The second symbol is the higher one, and names none but some parameters. -/
def Raises (D : Finset (Nat × Obs)) (s s' : Sym) : Prop := s ≤ s' ∧ s'.deps ⊆ D

variable {D : Finset (Nat × Obs)}

theorem Raises.logical : Logical (Raises D) where
  ofFloor _ := ⟨le_rfl, Finset.empty_subset _⟩
  sup h k := ⟨sup_le_sup h.1 k.1, Finset.union_subset h.2 k.2⟩

theorem Raises.rising : Rising (Raises D) where
  le h := h.1
  bot h := ⟨bot_le, h.2⟩

theorem Sym.instantiate_mono {s s' : Sym} (h : s ≤ s') (args : List SymLabel) :
    s.instantiate args ≤ s'.instantiate args :=
  sup_le_sup ⟨h.1, Finset.Subset.refl _⟩ (Finset.sup_mono h.2)

theorem Raises.instantiate {s s' : Sym} (h : s ≤ s') {args args' : List SymLabel}
    (hargs : List.Forall₂ (LabelRel (Raises D)) args args') :
    Raises D (s.instantiate args) (s'.instantiate args') := by
  have hsame := Raises.logical.instantiate hargs s'
  exact ⟨(Sym.instantiate_mono h args).trans hsame.1, hsame.2⟩

def Summary.Requires (hir : Hir) (s : Summary) : Prop :=
  ∀ id o, s.obligations.lookup id = some o → o.required = requiredOf hir id.2

theorem Summary.requires_empty (hir : Hir) : Summary.empty.Requires hir := by
  intro id o h
  simp [Summary.empty] at h

theorem SummaryLe.related {hir : Hir} {T : Prop} {s s' : Summary}
    (h : SummaryLe id s s') (hs : T → s.Requires hir) (hs' : T → s'.Requires hir) :
    SummaryRel hir T (Raises D) (· = id) s s' where
  result hargs :=
    ⟨Raises.instantiate h.result.1 hargs, Raises.instantiate h.result.2.1 hargs,
      Raises.instantiate h.result.2.2 hargs⟩
  found := by
    rintro args args' hargs _ rfl
    exact Raises.instantiate h.found hargs
  pc := by
    rintro args args' hargs _ rfl
    exact Raises.instantiate h.pc hargs
  isSome := by
    rintro _ rfl
    exact h.isSome
  required ht id _ := hs ht id
  required' ht id _ := hs' ht id

end Orders

section Comparison

variable {hir : Hir} {s s' : Summary}

theorem Summary.length_keys (s : Summary) :
    s.obligations.keys.length = s.obligations.entries.length := List.length_map _

theorem keys_subset_of_same (hlength : s.obligations.entries.length = s'.obligations.entries.length)
    (hequal : obligationsEqual s s' = true) : s'.obligations.keys ⊆ s.obligations.keys := by
  have hsubset : s.obligations.keys ⊆ s'.obligations.keys := by
    intro id hid
    obtain ⟨o, hlookup⟩ := Option.isSome_iff_exists.mp
      (AList.lookup_isSome.mpr (AList.mem_keys.mpr hid))
    have hentry := List.all_eq_true.mp hequal ⟨id, o⟩ (AList.mem_lookup_iff.mp hlookup)
    rw [← AList.mem_keys, ← AList.lookup_isSome]
    dsimp only at hentry
    split at hentry
    · rename_i right hright
      rw [hright]
      rfl
    · cases hentry
  have hperm := (List.subperm_of_subset s.obligations.keys_nodup hsubset).perm_of_length_le (by
    rw [s.length_keys, s'.length_keys, hlength])
  exact hperm.symm.subset

theorem sameSummary_iff (hs : s.Requires hir) (hs' : s'.Requires hir) :
    sameSummary s s' = true ↔ ∀ id, SummaryLe id s s' ∧ SummaryLe id s' s := by
  unfold sameSummary
  rw [decide_eq_true_iff]
  constructor
  · rintro ⟨hresult, hlength, hequal⟩ id
    have hkeys := keys_subset_of_same hlength hequal
    cases hlookup : s.obligations.lookup id with
    | none =>
        have hlookup' : s'.obligations.lookup id = none := by
          rw [AList.lookup_eq_none, AList.mem_keys] at hlookup ⊢
          exact fun hin => hlookup (hkeys hin)
        refine ⟨⟨hresult.le, ?_, ?_, ?_⟩, ⟨hresult.ge, ?_, ?_, ?_⟩⟩
        all_goals simp [foundAt, pcAt, hlookup, hlookup']
    | some o =>
        have hentry := List.all_eq_true.mp hequal ⟨id, o⟩ (AList.mem_lookup_iff.mp hlookup)
        dsimp only at hentry
        split at hentry
        · rename_i o' hlookup'
          obtain ⟨hfound, hpc, -⟩ := of_decide_eq_true hentry
          refine ⟨⟨hresult.le, ?_, ?_, ?_⟩, ⟨hresult.ge, ?_, ?_, ?_⟩⟩
          all_goals simp [foundAt, pcAt, hlookup, hlookup', hfound, hpc]
        · cases hentry
  · intro h
    have hsome : ∀ id, (s.obligations.lookup id).isSome ↔ (s'.obligations.lookup id).isSome :=
      fun id => ⟨(h id).1.isSome, (h id).2.isSome⟩
    refine ⟨?_, ?_, ?_⟩
    · exact le_antisymm (h ((0, 0), .write 0)).1.result (h ((0, 0), .write 0)).2.result
    · rw [← s.length_keys, ← s'.length_keys]
      refine List.Perm.length_eq ((List.perm_ext_iff_of_nodup s.obligations.keys_nodup
        s'.obligations.keys_nodup).mpr (fun id => ?_))
      rw [← AList.mem_keys, ← AList.mem_keys, ← AList.lookup_isSome, ← AList.lookup_isSome]
      exact hsome id
    · refine List.all_eq_true.mpr (fun entry hentry => ?_)
      obtain ⟨id, o⟩ := entry
      have hlookup := AList.mem_lookup_iff.mpr hentry
      obtain ⟨o', hlookup'⟩ := Option.isSome_iff_exists.mp ((hsome id).mp (hlookup ▸ rfl))
      have hfound := le_antisymm (h id).1.found (h id).2.found
      have hpc := le_antisymm (h id).1.pc (h id).2.pc
      rw [foundAt, foundAt, hlookup, hlookup'] at hfound
      rw [pcAt, pcAt, hlookup, hlookup'] at hpc
      dsimp only
      rw [hlookup']
      refine decide_eq_true ⟨hfound, hpc, ?_⟩
      rw [hs id o hlookup, hs' id o' hlookup']

end Comparison

section Bodies

def Expr.nodes (e : Expr) : List Expr := e :: e.children.attach.flatMap (fun c => c.1.nodes)
termination_by sizeOf e
decreasing_by exact sizeOf_children c.2

theorem Expr.Within.mem_nodes {d e : Expr} (h : d.Within e) : d ∈ e.nodes := by
  induction h with
  | self =>
      rw [Expr.nodes]
      exact List.mem_cons_self
  | child hc _ ih =>
      rw [Expr.nodes]
      exact List.mem_cons_of_mem _ (List.mem_flatMap.mpr ⟨⟨_, hc⟩, List.mem_attach _ _, ih⟩)

def bodyNodes (body : Block) : List Expr := (blockExprs body).flatMap Expr.nodes

def Expr.local? : Expr → Option LocalId
  | .ref _ (.local_ local_) => some local_
  | _ => none

def bodyLocals (body : Block) : List LocalId := (bodyNodes body).filterMap Expr.local?

theorem mem_bodyLocals {body : Block} {e : Expr} (he : e ∈ blockExprs body) {id : ExprId}
    {local_ : LocalId} (h : Expr.Within (.ref id (.local_ local_)) e) :
    local_ ∈ bodyLocals body :=
  List.mem_filterMap.mpr ⟨_, List.mem_flatMap.mpr ⟨e, he, h.mem_nodes⟩, rfl⟩

def SymLabel.deps (label : SymLabel) : Finset (Nat × Obs) :=
  label.shape.deps ∪ label.value.deps ∪ label.failure.deps

def bodyDeps (function : Function) : Finset (Nat × Obs) :=
  (bodyLocals function.body).toFinset.biUnion (fun local_ => (startLocals function local_).deps)

theorem bindParams_cases (index : Nat) (params : List LocalId) (locals : LocalId → SymLabel)
    (local_ : LocalId) : bindParams index params locals local_ = locals local_ ∨
      ∃ param, bindParams index params locals local_ = paramLabel param := by
  induction params generalizing index locals with
  | nil => exact .inl rfl
  | cons param params ih =>
      obtain heq | ⟨other, heq⟩ := ih (index + 1) (Function.update locals param (paramLabel index))
      · by_cases hlocal : local_ = param
        · subst hlocal
          rw [Function.update_self] at heq
          exact .inr ⟨index, heq⟩
        · rw [Function.update_of_ne hlocal] at heq
          exact .inl heq
      · exact .inr ⟨other, heq⟩

variable (function : Function)

theorem card_deps_startLocals (local_ : LocalId) :
    (startLocals function local_).deps.card ≤ 3 := by
  obtain heq | ⟨param, heq⟩ := bindParams_cases 0 function.params Walk.new.locals local_
  · rw [startLocals, heq]
    exact Nat.zero_le 3
  · rw [startLocals, heq]
    exact (Finset.card_union_le _ _).trans (Nat.add_le_add_right (Finset.card_union_le _ _) 1)

theorem card_bodyDeps :
    (bodyDeps function).card ≤ 3 * (bodyNodes function.body).length := by
  have hlocals : (bodyLocals function.body).toFinset.card ≤ (bodyNodes function.body).length :=
    (List.toFinset_card_le _).trans (List.length_filterMap_le _ _)
  have hdeps := Finset.card_biUnion_le_card_mul (bodyLocals function.body).toFinset
    (fun local_ => (startLocals function local_).deps) 3
    (fun local_ _ => card_deps_startLocals function local_)
  calc (bodyDeps function).card ≤ (bodyLocals function.body).toFinset.card * 3 := hdeps
    _ ≤ (bodyNodes function.body).length * 3 := Nat.mul_le_mul_right 3 hlocals
    _ = 3 * (bodyNodes function.body).length := Nat.mul_comm _ _

theorem raises_startLocals {local_ : LocalId} (h : local_ ∈ bodyLocals function.body) :
    LabelRel (Raises (bodyDeps function)) (startLocals function local_)
      (startLocals function local_) := by
  have hdeps : (startLocals function local_).deps ⊆ bodyDeps function :=
    Finset.subset_biUnion_of_mem (fun local_ => (startLocals function local_).deps)
      (List.mem_toFinset.mpr h)
  obtain ⟨hshape_value, hfailure⟩ := Finset.union_subset_iff.mp hdeps
  obtain ⟨hshape, hvalue⟩ := Finset.union_subset_iff.mp hshape_value
  exact ⟨⟨le_rfl, hshape⟩, ⟨le_rfl, hvalue⟩, ⟨le_rfl, hfailure⟩⟩

end Bodies

section Steps

variable {p : Pass} {callee : DefId → Summary} {T : Prop} {R : Sym → Sym → Prop}
  {I : ObligationId → Prop} {function : Function}

theorem scoped_body (hir : Hir) (body : Block) {C : DefId → Prop}
    (hC : ∀ e ∈ blockExprs body, ∀ d, .call d ∈ exprSites hir e → C d) :
    ∀ e ∈ blockExprs body, Scoped hir (· ∈ bodyLocals body) C e :=
  fun e he => ⟨fun _ _ h => mem_bodyLocals he h, hC e he⟩

theorem solve_related (hR : Logical R) (hI : ∀ id, I id → Rising R) {C : DefId → Prop}
    (hC : ∀ d, C d → SummaryRel p.hir T R I (p.callee d) (callee d))
    (hbody : ∀ e ∈ blockExprs function.body, ∀ d, .call d ∈ exprSites p.hir e → C d)
    (hlocals : ∀ local_ ∈ bodyLocals function.body,
      LabelRel R (startLocals function local_) (startLocals function local_)) :
    LabelRel R (p.solve function).result ((p.reading callee).solve function).result ∧
      ∀ id, I id → ObligationRel p.hir T R (p.solve function).obligations
        ((p.reading callee).solve function).obligations id := by
  have hstart : WalkRel p.hir T R I (· ∈ bodyLocals function.body)
      { Walk.new with locals := startLocals function }
      { Walk.new with locals := startLocals function } :=
    { locals := hlocals
      localSignals := rfl
      failureBinders := rfl
      pc := hR.bot
      acc := hR.bottom
      result := hR.bottom
      obligations := fun id _ =>
        { found := hR.bot
          pc := hR.bot
          isSome := fun h => h
          required := fun _ _ h => by simp [Walk.new] at h
          required' := fun _ _ h => by simp [Walk.new] at h }
      urlArgument := rfl }
  have hend := (Pass.block_related hR hI hC function.body
    (scoped_body p.hir function.body hbody) hstart).2
  exact ⟨hR.label_sup hend.result hend.acc, hend.obligations⟩

variable {id : ObligationId}

theorem solve_raises (h : ∀ d, SummaryLe id (p.callee d) (callee d))
    (hs : T → ∀ d, (p.callee d).Requires p.hir) (hs' : T → ∀ d, (callee d).Requires p.hir)
    (function : Function) :
    LabelRel (Raises (bodyDeps function)) (p.solve function).result
        ((p.reading callee).solve function).result ∧
      ObligationRel p.hir T (Raises (bodyDeps function)) (p.solve function).obligations
        ((p.reading callee).solve function).obligations id := by
  obtain ⟨hresult, hobligations⟩ := solve_related (C := fun _ => True) (I := (· = id))
    Raises.logical (fun _ _ => Raises.rising)
    (fun d _ => (h d).related (D := bodyDeps function) (fun ht => hs ht d) (fun ht => hs' ht d))
    (fun _ _ _ _ => trivial) (fun _ hlocal => raises_startLocals function hlocal)
  exact ⟨hresult, hobligations id rfl⟩

theorem solve_le (h : ∀ d, SummaryLe id (p.callee d) (callee d)) (function : Function) :
    SummaryLe id (p.solve function) ((p.reading callee).solve function) := by
  obtain ⟨hresult, hobligation⟩ := solve_raises h False.elim False.elim function
  exact ⟨⟨hresult.shape.1, hresult.value.1, hresult.failure.1⟩, hobligation.found.1,
    hobligation.pc.1, hobligation.isSome⟩

theorem size_solve_le (p : Pass) (function : Function) (id : ObligationId) :
    (p.solve function).size id ≤ 6 + 15 * (bodyNodes function.body).length := by
  obtain ⟨hresult, hobligation⟩ :=
    solve_raises (p := p) (fun d => SummaryLe.refl id (p.callee d)) False.elim False.elim function
  have hcard := card_bodyDeps function
  have hshape : (p.solve function).result.shape.size ≤ _ := Sym.size_le_of_subset hresult.shape.2
  have hvalue : (p.solve function).result.value.size ≤ _ := Sym.size_le_of_subset hresult.value.2
  have hfailure : (p.solve function).result.failure.size ≤ _ :=
    Sym.size_le_of_subset hresult.failure.2
  have hfound : (foundAt (p.solve function).obligations id).size ≤ _ :=
    Sym.size_le_of_subset hobligation.found.2
  have hpc : (pcAt (p.solve function).obligations id).size ≤ _ :=
    Sym.size_le_of_subset hobligation.pc.2
  have hsome := Bool.toNat_le ((p.solve function).obligations.lookup id).isSome
  unfold Summary.size SymLabel.size
  omega

theorem solve_requires (h : ∀ d, (p.callee d).Requires p.hir) (function : Function) :
    (p.solve function).Requires p.hir := by
  intro id o hlookup
  obtain ⟨-, hobligation⟩ := solve_raises (T := True) (p := p)
    (fun d => SummaryLe.refl id (p.callee d)) (fun _ => h) (fun _ => h) function
  exact hobligation.required trivial o hlookup

end Steps

section Arenas

def bodyExprs (hir : Hir) (id : DefId) : Nat :=
  match hir.kind id with
  | some (.function function) => (bodyNodes function.body).length
  | _ => 0

def functionExprs (hir : Hir) : Nat := ((List.range hir.defs.length).map (bodyExprs hir)).sum

/-- The arena of a program's expressions, those of the functions' bodies among them. -/
structure Arena (hir : Hir) where
  exprs : Nat
  bodies_le : functionExprs hir ≤ exprs

variable {hir : Hir}

theorem lt_length_of_isFunction {id : DefId} (h : isFunction hir id) : id < hir.defs.length := by
  unfold isFunction Hir.kind at h
  by_contra hge
  rw [List.getElem?_eq_none (not_lt.mp hge)] at h
  cases h

theorem sum_bodyExprs_le {ids : List DefId} (hnodup : ids.Nodup)
    (hfunctions : ∀ id ∈ ids, isFunction hir id) :
    (ids.map (bodyExprs hir)).sum ≤ functionExprs hir := by
  have hsubset : ids ⊆ List.range hir.defs.length := fun id hid =>
    List.mem_range.mpr (lt_length_of_isFunction (hfunctions id hid))
  obtain ⟨sorted, hperm, hsublist⟩ := List.subperm_of_subset hnodup hsubset
  calc (ids.map (bodyExprs hir)).sum = (sorted.map (bodyExprs hir)).sum :=
        (hperm.map _).sum_eq.symm
    _ ≤ functionExprs hir := (hsublist.map _).sum_le_sum (fun _ _ => Nat.zero_le _)

end Arenas

section Rounds

variable {hir : Hir} {split : TierSplit}

/-- A view of the summaries: one context, and the obligations of one identity. -/
abbrev SummaryView := Ctx × ObligationId

def SummaryView.covers (view : SummaryView) (key : Key) : Bool := key.2 = view.1

structure Fits (hir : Hir) (key : Key) (s : Summary) : Prop where
  requires : s.Requires hir
  size_le : ∀ id, s.size id ≤ 6 + 15 * bodyExprs hir key.1

theorem Fits.empty (hir : Hir) (key : Key) : Fits hir key .empty :=
  ⟨Summary.requires_empty hir, fun _ => Nat.zero_le _⟩

theorem solveFunction_le (split : TierSplit) {σ τ : Summaries} {view : SummaryView}
    (h : ∀ key, view.covers key → SummaryLe view.2 (σ key) (τ key)) {key : Key}
    (hkey : view.covers key) :
    SummaryLe view.2 (solveFunction hir split σ key) (solveFunction hir split τ key) := by
  unfold solveFunction
  split
  · exact @solve_le (passOf hir split σ key) (fun d => τ (d, key.2)) _
      (fun d => h (d, key.2) hkey) _
  · exact SummaryLe.refl _ _

variable {σ : Summaries}

theorem solveFunction_fits (split : TierSplit)
    (h : ∀ key, Fits hir key (σ key)) (key : Key) : Fits hir key (solveFunction hir split σ key) := by
  unfold solveFunction
  split
  · rename_i function hkind
    refine ⟨solve_requires (p := passOf hir split σ key) (fun d => (h (d, key.2)).requires) function,
      fun id => ?_⟩
    have hsize := size_solve_le (passOf hir split σ key) function id
    simpa only [bodyExprs, hkind] using hsize
  · exact Fits.empty hir key

theorem viewed_solveFunction (hir : Hir) (split : TierSplit) :
    Viewed (solveFunction hir split) SummaryView.covers (fun view => SummaryLe view.2)
      (fun view => Summary.size view.2) where
  refl view s := SummaryLe.refl view.2 s
  trans h k := h.trans k
  mono h _ hkey := solveFunction_le split h hkey
  size_le h := h.size_le
  le_of_size h hsize := h.of_size hsize

theorem compared_solveFunction (hir : Hir) (split : TierSplit) :
    Compared (solveFunction hir split) SummaryView.covers (fun view => SummaryLe view.2)
      sameSummary (Fits hir) where
  good h key := solveFunction_fits split h key
  same {key s s'} hs hs' := by
    rw [sameSummary_iff hs.requires hs'.requires]
    constructor
    · exact fun h view _ => h view.2
    · exact fun h id => h (key.2, id) (decide_eq_true rfl)

theorem total_summaries_le {keys : List Key} (hnodup : keys.Nodup)
    (hkeys : ∀ key ∈ keys, isFunction hir key.1)
    (hfits : ∀ key, Fits hir key (σ key)) (view : SummaryView) :
    total SummaryView.covers (fun view => Summary.size view.2) keys view σ ≤
      6 * keys.length + 15 * functionExprs hir := by
  have hids : ((keys.filter view.covers).map Prod.fst).Nodup := by
    refine List.Nodup.map_on (fun key hkey other hother heq => Prod.ext heq ?_) (hnodup.filter _)
    have hctx := of_decide_eq_true (List.mem_filter.mp hkey).2
    have hctx' := of_decide_eq_true (List.mem_filter.mp hother).2
    exact hctx.trans hctx'.symm
  have hfunctions : ∀ id ∈ (keys.filter view.covers).map Prod.fst, isFunction hir id := by
    intro id hid
    obtain ⟨key, hkey, rfl⟩ := List.mem_map.mp hid
    exact hkeys key (List.mem_filter.mp hkey).1
  have hsum := sum_bodyExprs_le hids hfunctions
  have hlength := List.length_filter_le view.covers keys
  calc total SummaryView.covers (fun view => Summary.size view.2) keys view σ
      ≤ ((keys.filter view.covers).map (fun key => 6 + 15 * bodyExprs hir key.1)).sum :=
        List.sum_le_sum (fun key _ => (hfits key).size_le view.2)
    _ = 6 * (keys.filter view.covers).length +
          15 * (((keys.filter view.covers).map Prod.fst).map (bodyExprs hir)).sum := by
        rw [List.sum_map_add, List.sum_map_mul_left, List.map_map, List.map_const',
          List.sum_replicate_nat, Nat.mul_comm]
        rfl
    _ ≤ 6 * keys.length + 15 * functionExprs hir := by omega

def SameLabels (σ τ : Summaries) : Prop :=
  ∀ key id, SummaryLe id (σ key) (τ key) ∧ SummaryLe id (τ key) (σ key)

/-- A table that is solved by itself, below every table that is no lower than it solves to. -/
structure LeastSolution (hir : Hir) (split : TierSplit) (keys : List Key) (σ : Summaries) :
    Prop where
  fixed : ∀ key ∈ keys, ∀ id, SummaryLe id (solveFunction hir split σ key) (σ key) ∧
    SummaryLe id (σ key) (solveFunction hir split σ key)
  least : ∀ τ : Summaries,
    (∀ key ∈ keys, ∀ id, SummaryLe id (solveFunction hir split τ key) (τ key)) →
      ∀ key id, SummaryLe id (σ key) (τ key)

theorem LeastSolution.unique {keys keys' : List Key} {σ σ' : Summaries} (hkeys : keys' ⊆ keys)
    (hkeys' : keys ⊆ keys') (h : LeastSolution hir split keys σ)
    (h' : LeastSolution hir split keys' σ') : SameLabels σ σ' := fun key id =>
  ⟨h.least σ' (fun key hkey id => (h'.fixed key (hkeys' hkey) id).1) key id,
    h'.least σ (fun key hkey id => (h.fixed key (hkeys hkey) id).1) key id⟩

theorem rising_empty (hir : Hir) (split : TierSplit) :
    Library.Rising (solveFunction hir split) SummaryView.covers (fun view => SummaryLe view.2)
      (Fits hir) (fun _ => .empty) :=
  ⟨fun key => Fits.empty hir key, fun view _ _ => SummaryLe.empty view.2 _⟩

theorem functionKeys_functions {key : Key} (h : key ∈ functionKeys hir split) :
    isFunction hir key.1 :=
  (List.mem_filter.mp (List.mem_dedup.mp h)).2

theorem summarise_settled (arena : Arena hir) {order : List Key} (hnodup : order.Nodup)
    (hfunctions : ∀ key ∈ order, isFunction hir key.1) :
    ∃ σ, summarise hir split arena.exprs order = .settled σ := by
  have harena := arena.bodies_le
  have hbound : 6 * order.length + 15 * arena.exprs <
      8 * (order.length + 1) * (arena.exprs + 1) ∨ order = [] := by
    cases order with
    | nil => exact .inr rfl
    | cons key order =>
        left
        have hexpand : 8 * ((key :: order).length + 1) * (arena.exprs + 1) =
            8 * (order.length * arena.exprs) + 8 * order.length + 16 * arena.exprs + 16 := by
          rw [List.length_cons]
          ring
        rw [hexpand, List.length_cons]
        omega
  refine rounds_settled (viewed_solveFunction hir split) (compared_solveFunction hir split)
    (fun view τ hτ => total_summaries_le hnodup hfunctions hτ view) (rising_empty hir split)
    (Nat.mul_pos (by omega) (Nat.succ_pos _)) (fun view hopen => ?_)
  obtain hbound | rfl := hbound
  · omega
  · exact absurd (fun key hkey => absurd hkey List.not_mem_nil) hopen

theorem leastSolution_summarise {exprs : Nat} {order : List Key}
    (hend : summarise hir split exprs order = .settled σ) : LeastSolution hir split order σ := by
  obtain ⟨hrising, hclosed⟩ := rounds_fixed (viewed_solveFunction hir split)
    (compared_solveFunction hir split) (rising_empty hir split) hend
  refine ⟨fun key hkey id => ⟨?_, ?_⟩, fun τ hτ key id => ?_⟩
  · exact hclosed (key.2, id) key hkey (decide_eq_true rfl)
  · exact hrising.ascending (key.2, id) key (decide_eq_true rfl)
  · exact rounds_le (viewed_solveFunction hir split) (i := (key.2, id))
      (fun other _ => SummaryLe.empty id (τ other)) (fun other hother _ => hτ other hother id)
      hend key (decide_eq_true rfl)

/-- The analysis comes to rest within its bound, at the least solution, in whatever order
the functions are solved. -/
theorem summarise_least (hir : Hir) (split : TierSplit) (arena : Arena hir) (order : List Key)
    (horder : order.Perm (functionKeys hir split)) :
    ∃ σ, summarise hir split arena.exprs order = .settled σ ∧
      LeastSolution hir split (functionKeys hir split) σ ∧
      ∀ other : List Key, other.Perm (functionKeys hir split) →
        ∃ σ', summarise hir split arena.exprs other = .settled σ' ∧ SameLabels σ σ' := by
  have hrun : ∀ order : List Key, order.Perm (functionKeys hir split) →
      ∃ σ, summarise hir split arena.exprs order = .settled σ ∧
        LeastSolution hir split (functionKeys hir split) σ := by
    intro order horder
    obtain ⟨σ, hσ⟩ := @summarise_settled hir split arena order
      (horder.nodup_iff.mpr (List.nodup_dedup _))
      (fun key hkey => functionKeys_functions (horder.mem_iff.mp hkey))
    have hleast := leastSolution_summarise hσ
    exact ⟨σ, hσ, fun key hkey => hleast.fixed key (horder.mem_iff.mpr hkey),
      fun τ hτ => hleast.least τ (fun key hkey => hτ key (horder.mem_iff.mp hkey))⟩
  obtain ⟨σ, hσ, hleast⟩ := hrun order horder
  refine ⟨σ, hσ, hleast, fun other hother => ?_⟩
  obtain ⟨σ', hσ', hleast'⟩ := hrun other hother
  exact ⟨σ', hσ', hleast.unique (List.Subset.refl _) (List.Subset.refl _) hleast'⟩

def looping : Hir where
  defs :=
    [⟨"loop", (0, 4),
      .function ⟨[0], [.give (.call (.def_ 0) [⟨none, 0, .ref 0 (.local_ 0)⟩])]⟩⟩]
  view := none
  span := fun _ => (5, 9)
  localName := fun _ => "x"

def loopingSplit : TierSplit where
  splitter := { Splitter.new with contexts := [(0, .clientView), (0, .serverView)] }
  params := fun _ => []
  hoisted := fun _ _ => false

theorem summarise_least_looping : ∃ σ,
    summarise looping loopingSplit (functionExprs looping) [(0, .serverView), (0, .clientView)] =
        .settled σ ∧
      LeastSolution looping loopingSplit (functionKeys looping loopingSplit) σ ∧
      ∀ other : List Key, other.Perm (functionKeys looping loopingSplit) →
        ∃ σ', summarise looping loopingSplit (functionExprs looping) other = .settled σ' ∧
          SameLabels σ σ' :=
  summarise_least looping loopingSplit ⟨functionExprs looping, le_rfl⟩
    [(0, .serverView), (0, .clientView)] (by decide)

end Rounds

end Graph
end Zdeceptron
