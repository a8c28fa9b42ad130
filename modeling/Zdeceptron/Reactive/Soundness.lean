import Zdeceptron.Bodies.Comparison
import Zdeceptron.Reactive.Analysis

/-!
# An expression that reads no signal has one value

Two evaluations of one expression from two states of the cells are compared.  The cells are
the signals, what the browser tells, and the environment; what is outside the bodies is a
function of its operands.

* `reads_signal_sound_iff`: what the analysis answers is right, and its functions are the
  least set closed under reading and calling, exactly when no release leads to a reading.
-/

namespace Zdeceptron
namespace Reactive

open Bodies Library

section Cells

inductive Cell
  | signal (id : Nat)
  | media (query : String)
  | scroll
  | environment (name : String)
deriving DecidableEq

abbrev Cells := Cell → Value

/-- What is outside the bodies: an operator or a definition without a body is a function of
its operands; a mutation writes cells. -/
structure Meaning (Verb : Type) where
  operator : Op → List Value → Except Fault Value
  call : Nat → List Value → Except Fault Value
  mutate : Verb → List Value → Cells → Cells
  truthy : Value → Bool
  less : Value → Value → Bool
  undefined_ : Value

variable {Verb : Type} (hir : Hir Verb)

def cell_of : Op → Option Cell
  | .media query => some (.media query)
  | .scroll => some .scroll
  | .environment name => some (.environment name)
  | .ref id =>
      match hir.defs[id]? with
      | some .other => if is_reactive_signal hir id then some (.signal id) else none
      | _ => none
  | _ => none

def Meaning.host (M : Meaning Verb) : Host Cells Op Verb where
  operator op vs :=
    match cell_of hir op with
    | some cell => fun cells => (.ok (cells cell), cells)
    | none => fun cells => (M.operator op vs, cells)
  mutate verb vs := Step.change (M.mutate verb vs)
  call id vs := fun cells => (M.call id vs, cells)
  truthy := M.truthy
  less := M.less
  undefined_ := M.undefined_

/-- The value of an expression, with `fuel` for the calls nested in one another. -/
def Meaning.evaluate (M : Meaning Verb) (fuel : Nat) (e : HirExpr Op) :
    Step (Scope Cells) Value :=
  (M.host hir).value hir.defs (hir.defs.evaluate (M.host hir) fuel) e

end Cells

section Leads

variable {Verb : Type} (hir : Hir Verb)

def cells : Marks Op where
  operator op := (cell_of hir op).isSome
  local_ _ := false
  callee id :=
    match hir.defs[id]? with
    | some .other => is_reactive_signal hir id
    | _ => false

def names (T : Nat → Bool) : Marks Op where
  operator
    | .ref id => (hir.defs.bodyOf id).isSome && T id
    | _ => false
  local_ _ := false
  callee id := (hir.defs.bodyOf id).isSome && T id

def binders (p : Nat → Bool) : Marks Op := ⟨fun _ => false, p, fun _ => false⟩

/-- A function or release leads to a reading: its body reads a cell or calls what leads to
one. -/
inductive Leads : Nat → Prop
  | reads {id params body} : hir.defs.bodyOf id = some (params, body) →
      bodyTouches (cells hir) body = true → Leads id
  | calls {id params body} {T : Nat → Bool} : hir.defs.bodyOf id = some (params, body) →
      bodyTouches (names hir T) body = true → (∀ g, T g = true → Leads g) → Leads id

/-- A set of functions and releases that holds what reads a cell and what calls a member. -/
def Closed (T : Finset Nat) : Prop :=
  ∀ id params body, hir.defs.bodyOf id = some (params, body) →
    (bodyTouches (cells hir) body = true ∨
      bodyTouches (names hir (fun g => decide (g ∈ T))) body = true) → id ∈ T

def is_release (id : Nat) : Prop := ∃ params body, hir.defs[id]? = some (.release params body)

theorem reactive_eq (A : Analysis) :
    reactive hir A = ((cells hir).or (names hir (fun id => decide (id ∈ A.reactive_functions)))).or
        (binders (local_is_reactive A)) := by
  have hcallee : ∀ id, res_is_reactive hir A id =
      ((match hir.defs[id]? with
        | some .other => is_reactive_signal hir id
        | _ => false) ||
        ((hir.defs.bodyOf id).isSome && decide (id ∈ A.reactive_functions))) := by
    intro id
    unfold res_is_reactive Program.bodyOf
    rcases hir.defs[id]? with _ | kind
    · rfl
    · cases kind <;> simp
  have hcell : ∀ id, (cell_of hir (.ref id)).isSome =
      (match hir.defs[id]? with
        | some .other => is_reactive_signal hir id
        | _ => false) := by
    intro id
    rw [cell_of]
    rcases hir.defs[id]? with _ | kind
    · rfl
    · cases kind with
      | other => cases is_reactive_signal hir id <;> simp
      | _ => rfl
  unfold reactive Marks.or cells names binders
  congr 1
  · funext op
    cases op with
    | ref id => simp only [op_reads, hcallee, hcell, Bool.or_false]
    | _ => rfl
  · funext id
    simp only [hcallee, Bool.or_false]

theorem block_reads_signal_scratch (S : Finset Nat) (body : FunctionBody Op Verb) :
    block_reads_signal hir (scratch S) body = (bodyTouches (cells hir) body ||
        bodyTouches (names hir (fun id => decide (id ∈ S))) body) := by
  have hlocals : binders (local_is_reactive (scratch S)) = Marks.nothing := by
    unfold binders Marks.nothing
    congr 1
  unfold block_reads_signal
  rw [reactive_eq, bodyTouches_or, hlocals, bodyTouches_nothing, Bool.or_false, bodyTouches_or]
  rfl

end Leads

section Found

variable {Verb : Type} (hir : Hir Verb)

theorem function_reads_mono {S T : Finset Nat} (h : S ⊆ T) (id : Nat)
    (hreads : function_reads hir S id = true) : function_reads hir T id = true := by
  unfold function_reads at hreads ⊢
  split at hreads
  · rw [block_reads_signal_scratch, Bool.or_eq_true] at hreads ⊢
    refine hreads.imp (fun hcells => hcells) (fun hnames => bodyTouches_mono ?_ hnames)
    refine ⟨fun op hop => ?_, fun _ hlocal => hlocal, fun callee hcallee => ?_⟩
    · cases op with
      | ref callee =>
          simp only [names, Bool.and_eq_true, decide_eq_true_eq] at hop ⊢
          exact ⟨hop.1, h hop.2⟩
      | _ => exact hop
    · simp only [names, Bool.and_eq_true, decide_eq_true_eq] at hcallee ⊢
      exact ⟨hcallee.1, h hcallee.2⟩
  · cases hreads

theorem isLeast_solve : IsLeast
    {T | ClosedUnder (function_reads hir) (List.range hir.defs.length) T}
    (solve_reactive_functions hir) :=
  isLeast_leastClosed (function_reads_mono hir)

variable {id : Nat}

theorem exists_function_of_mem (h : id ∈ solve_reactive_functions hir) :
    ∃ params body, hir.defs[id]? = some (.function params body) := by
  obtain ⟨S, hreads⟩ := exists_admits_of_mem h
  unfold function_reads at hreads
  split at hreads
  · next params body hfunction => exact ⟨params, body, hfunction⟩
  · cases hreads

theorem names_within {T T' : Nat → Bool} (h : ∀ g, T g = true → T' g = true) :
    (names hir T).Within (names hir T') := by
  refine ⟨fun op hop => ?_, fun _ hlocal => hlocal, fun callee hcallee => ?_⟩
  · cases op with
    | ref callee =>
        simp only [names, Bool.and_eq_true] at hop ⊢
        exact ⟨hop.1, h callee hop.2⟩
    | _ => exact hop
  · simp only [names, Bool.and_eq_true] at hcallee ⊢
    exact ⟨hcallee.1, h callee hcallee.2⟩

theorem mem_of_leads {T : Finset Nat} (hT : Closed hir T) (h : Leads hir id) :
    id ∈ T := by
  induction h with
  | reads hbody hcells => exact hT _ _ _ hbody (.inl hcells)
  | calls hbody hnames _ ih =>
      refine hT _ _ _ hbody (.inr (bodyTouches_mono (names_within hir fun g hg => ?_) hnames))
      exact decide_eq_true (ih g hg)

theorem body_of_function {params : List Param} {body : FunctionBody Op Verb}
    (h : hir.defs[id]? = some (.function params body)) :
    hir.defs.bodyOf id = some (params, body) := by
  rw [Program.bodyOf, h]

theorem function_or_release {params : List Param} {body : FunctionBody Op Verb}
    (h : hir.defs.bodyOf id = some (params, body)) :
    hir.defs[id]? = some (.function params body) ∨ hir.defs[id]? = some (.release params body) := by
  unfold Program.bodyOf at h
  split at h
  · next hfunction =>
      cases h
      exact .inl hfunction
  · next hrelease =>
      cases h
      exact .inr hrelease
  · cases h

theorem mem_range_of_function {params : List Param} {body : FunctionBody Op Verb}
    (h : hir.defs[id]? = some (.function params body)) : id ∈ List.range hir.defs.length :=
  List.mem_range.mpr (List.getElem?_eq_some_iff.mp h).1

theorem leads_of_mem (h : id ∈ solve_reactive_functions hir) : Leads hir id := by
  classical
  have hclosed : ClosedUnder (function_reads hir) (List.range hir.defs.length)
      ((Finset.range hir.defs.length).filter (Leads hir)) := by
    intro f hf hreads
    refine Finset.mem_filter.mpr ⟨Finset.mem_range.mpr (List.mem_range.mp hf), ?_⟩
    unfold function_reads at hreads
    split at hreads
    · next params body hfunction =>
        have hbody := body_of_function hir hfunction
        rw [block_reads_signal_scratch, Bool.or_eq_true] at hreads
        rcases hreads with hcells | hnames
        · exact .reads hbody hcells
        · refine .calls hbody hnames fun g hg => ?_
          exact (Finset.mem_filter.mp (of_decide_eq_true hg)).2
    · cases hreads
  exact (Finset.mem_filter.mp ((isLeast_solve hir).2 hclosed h)).2

theorem mem_of_function {params : List Param} {body : FunctionBody Op Verb}
    (hfunction : hir.defs[id]? = some (.function params body))
    (hreads : bodyTouches (cells hir) body = true ∨
      bodyTouches (names hir (fun g => decide (g ∈ solve_reactive_functions hir))) body = true) :
    id ∈ solve_reactive_functions hir := by
  refine (isLeast_solve hir).1 id (mem_range_of_function hir hfunction) ?_
  unfold function_reads
  simp only [hfunction]
  rw [block_reads_signal_scratch, Bool.or_eq_true]
  exact hreads

theorem closed_solve (hreleases : ∀ id, is_release hir id → ¬ Leads hir id) :
    Closed hir (solve_reactive_functions hir) := by
  intro id params body hbody hreads
  rcases function_or_release hir hbody with hfunction | hrelease
  · exact mem_of_function hir hfunction hreads
  · refine absurd ?_ (hreleases id ⟨params, body, hrelease⟩)
    rcases hreads with hcells | hnames
    · exact .reads hbody hcells
    · exact .calls hbody hnames fun g hg => leads_of_mem hir (of_decide_eq_true hg)

theorem isLeast_closed_iff : IsLeast {T | Closed hir T} (solve_reactive_functions hir) ↔
    ∀ id, is_release hir id → ¬ Leads hir id := by
  constructor
  · rintro ⟨hclosed, -⟩ id ⟨params, body, hrelease⟩ hleads
    obtain ⟨params', body', hfunction⟩ :=
      exists_function_of_mem hir (mem_of_leads hir hclosed hleads)
    rw [hrelease] at hfunction
    cases hfunction
  · intro hreleases
    refine ⟨closed_solve hir hreleases, fun T hT => (isLeast_solve hir).2 ?_⟩
    intro id hid hreads
    unfold function_reads at hreads
    split at hreads
    · next params body hfunction =>
        rw [block_reads_signal_scratch, Bool.or_eq_true] at hreads
        exact hT id params body (body_of_function hir hfunction) hreads
    · cases hreads

end Found

section Same

def sameAnswer (σ : Type) : Comparison σ σ where
  Rel x y := ∀ s s', (x.run s).1 = (y.run s').1
  pure _ _ _ := rfl
  fail _ _ _ := rfl
  bind {α β x y f g} h h' s s' := by
    rw [Step.run_bind, Step.run_bind]
    have hfirst := h s s'
    rcases hx : x.run s with ⟨answer, t⟩
    rcases hy : y.run s' with ⟨answer', t'⟩
    rw [hx, hy] at hfirst
    obtain rfl : answer = answer' := hfirst
    cases answer with
    | ok a => exact h' a t t'
    | error fault => rfl

def Alike {σ : Type} (counts : Nat → Bool) (scope scope' : Scope σ) : Prop :=
  ∀ id, counts id = false → scope.locals id = scope'.locals id

/-- Two evaluations that end alike from scopes that are alike, and in such scopes. -/
def sameInScope (σ : Type) (counts : Nat → Bool) : Comparison (Scope σ) (Scope σ) where
  Rel x y := ∀ scope scope', Alike counts scope scope' →
    (x.run scope).1 = (y.run scope').1 ∧ Alike counts (x.run scope).2 (y.run scope').2
  pure _ _ _ h := ⟨rfl, h⟩
  fail _ _ _ h := ⟨rfl, h⟩
  bind {α β x y f g} h h' scope scope' halike := by
    rw [Step.run_bind, Step.run_bind]
    obtain ⟨hfirst, hnext⟩ := h scope scope' halike
    rcases hx : x.run scope with ⟨answer, t⟩
    rcases hy : y.run scope' with ⟨answer', t'⟩
    rw [hx, hy] at hfirst hnext
    obtain rfl : answer = answer' := hfirst
    cases answer with
    | ok a => exact h' a t t' hnext
    | error fault => exact ⟨rfl, hnext⟩

theorem sameInScope_onScopes (σ : Type) (counts : Nat → Bool) :
    (sameAnswer σ).OnScopes (sameInScope σ counts) counts where
  readLocal id hid scope scope' halike := by
    rw [run_readLocal, run_readLocal, halike id hid]
    exact ⟨rfl, halike⟩
  assign id v scope scope' halike := by
    refine ⟨rfl, fun other hother => ?_⟩
    simp only [Step.run_change, Scope.assign, Function.update_apply]
    split_ifs
    · rfl
    · exact halike other hother
  outside {α x y} h scope scope' halike := by
    rw [run_outside, run_outside]
    exact ⟨h scope.state scope'.state, halike⟩

end Same

section Value

variable {Verb : Type} (hir : Hir Verb) (M : Meaning Verb)

def leading (leads counts : Nat → Bool) : Marks Op :=
  ((cells hir).or (names hir leads)).or (binders counts)

theorem operator_same {op : Op} (hop : (cell_of hir op).isSome = false) (vs : List Value) :
    (sameAnswer Cells).Rel ((M.host hir).operator op vs) ((M.host hir).operator op vs) := by
  intro s s'
  have hnone : cell_of hir op = none := by
    simpa using hop
  simp only [Meaning.host, hnone]
  rfl

/-- Calls of what does not lead to a reading end alike; so does what is called without a
body. -/
def QuietCalls (call : Nat → List Value → Step Cells Value) : Prop :=
  ∀ id, ((hir.defs.bodyOf id).isSome = true → ¬ Leads hir id) →
    ∀ vs, (sameAnswer Cells).Rel (call id vs) (call id vs)

open Classical in
theorem agreesUnless_of_quiet {call : Nat → List Value → Step Cells Value}
    (hcall : QuietCalls hir call) (counts : Nat → Bool) :
    Host.AgreesUnless (leading hir (fun id => decide (Leads hir id)) counts) (sameAnswer Cells)
      (sameInScope Cells counts) (M.host hir) (M.host hir) call call where
  scopes := by
    have hcounts : (leading hir (fun id => decide (Leads hir id)) counts).local_ = counts := by
      funext id
      rfl
    rw [hcounts]
    exact sameInScope_onScopes Cells counts
  operator op hop vs := by
    refine operator_same hir M ?_ vs
    unfold leading Marks.or cells at hop
    simp only [Bool.or_eq_false_iff] at hop
    exact hop.1.1
  mutate verb vs _ _ := rfl
  call id hid vs := by
    refine hcall id (fun hbody hleads => ?_) vs
    unfold leading Marks.or names at hid
    simp only [hbody, hleads, decide_true, Bool.and_self, Bool.or_true, Bool.true_or,
      reduceCtorEq] at hid
  truthy := rfl
  less := rfl

open Classical in
theorem body_untouched {id : Nat} {params : List Param} {body : FunctionBody Op Verb}
    (hbody : hir.defs.bodyOf id = some (params, body)) (hquiet : ¬ Leads hir id) :
    bodyTouches (leading hir (fun id => decide (Leads hir id)) (fun _ => false)) body = false := by
  have hlocals : binders (fun _ => false) = Marks.nothing := rfl
  unfold leading
  rw [bodyTouches_or, hlocals, bodyTouches_nothing, Bool.or_false, bodyTouches_or,
    Bool.or_eq_false_iff]
  constructor
  · exact Bool.eq_false_of_not_eq_true fun hcells => hquiet (.reads hbody hcells)
  · refine Bool.eq_false_of_not_eq_true fun hnames => hquiet (.calls hbody hnames ?_)
    exact fun g hg => of_decide_eq_true hg

theorem evaluate_quiet (fuel : Nat) : QuietCalls hir (hir.defs.evaluate (M.host hir) fuel) := by
  induction fuel with
  | zero =>
      intro id hquiet vs
      unfold Program.evaluate
      cases hbody : hir.defs.bodyOf id with
      | none =>
          rw [Program.evaluateWith_none hbody]
          exact fun _ _ => rfl
      | some function =>
          obtain ⟨params, body⟩ := function
          rw [Program.evaluateWith_zero hbody]
          exact fun _ _ => rfl
  | succ fuel ih =>
      intro id hquiet vs
      unfold Program.evaluate
      cases hbody : hir.defs.bodyOf id with
      | none =>
          rw [Program.evaluateWith_none hbody]
          exact fun _ _ => rfl
      | some function =>
          obtain ⟨params, body⟩ := function
          rw [Program.evaluateWith_succ hbody]
          have huntouched := body_untouched hir hbody (hquiet (by rw [hbody]; rfl))
          have hblock := Engine.block_agrees_of
            (Host.engine_agrees_of hir.defs (agreesUnless_of_quiet hir M ih (fun _ => false)))
            none body huntouched
          refine (sameAnswer Cells).bind (fun s s' => ?_) (fun ending => ?_)
          · rw [run_inScope, run_inScope]
            exact (hblock ⟨_, s⟩ ⟨_, s'⟩ (fun _ _ => rfl)).1
          · cases ending with
            | fell => exact (sameAnswer Cells).pure _
            | gave v => exact (sameAnswer Cells).pure _

open Classical in
theorem value_same {counts : Nat → Bool} {e : HirExpr Op}
    (he : e.touches (leading hir (fun id => decide (Leads hir id)) counts) = false)
    (fuel : Nat) {scope scope' : Scope Cells} (halike : Alike counts scope scope') :
    ((M.evaluate hir fuel e).run scope).1 = ((M.evaluate hir fuel e).run scope').1 :=
  (Host.value_agrees_of (agreesUnless_of_quiet hir M (evaluate_quiet hir M fuel) counts) e he
    scope scope' halike).1

end Value

section Sound

variable {Verb : Type} (hir : Hir Verb)

/-- What the analysis of a page answers is right: an expression written on the page, or one
with no binders around it, that reads no signal has one value in any two states of the cells
and for any two values of the binders around it which the address fold has left. -/
def Sound : Prop :=
  ∀ (roots : List Node) (bindings bound : List Nat) (e : HirExpr Op),
    (bound = [] ∨ Nodes.Holds roots bound e) →
    reads_signal hir (rooted hir roots bindings) e = false →
    ∀ (M : Meaning Verb) (fuel : Nat) (locals locals' : Locals) (state state' : Cells),
      (∀ id, id ∉ bound ∨ id ∈ bindings → locals id = locals' id) →
      ((M.evaluate hir fuel e).run ⟨locals, state⟩).1 =
        ((M.evaluate hir fuel e).run ⟨locals', state'⟩).1

open Classical in
theorem sound_of_releases (hreleases : ∀ id, is_release hir id → ¬ Leads hir id) :
    Sound hir := by
  intro roots bindings bound e hplace hreads M fuel locals locals' state state' hlocals
  have halike : Alike (local_is_reactive (rooted hir roots bindings))
      (⟨locals, state⟩ : Scope Cells) ⟨locals', state'⟩ := by
    intro id hid
    refine hlocals id ?_
    by_contra hbound
    obtain ⟨hbound, hfolded⟩ := not_or.mp hbound
    rw [not_not] at hbound
    rcases hplace with rfl | hplace
    · cases hbound
    · rw [local_is_reactive_of_holds hir hplace hbound hfolded] at hid
      cases hid
  refine value_same hir M ?_ fuel halike
  -- what leads to a reading is a function that was found
  unfold reads_signal at hreads
  rw [reactive_eq, HirExpr.touches_or, HirExpr.touches_or] at hreads
  simp only [Bool.or_eq_false_iff] at hreads
  obtain ⟨⟨hcells, hnames⟩, hbinders⟩ := hreads
  unfold leading
  rw [HirExpr.touches_or, HirExpr.touches_or, hcells, hbinders, Bool.or_false,
    Bool.false_or]
  refine Bool.eq_false_of_not_eq_true fun hleads => ?_
  have hwithin : (names hir fun id => decide (Leads hir id)).Within
      (names hir fun id => decide (id ∈ solve_reactive_functions hir)) := by
    refine names_within hir fun g hg => decide_eq_true ?_
    exact mem_of_leads hir (closed_solve hir hreleases) (of_decide_eq_true hg)
  have hfound := HirExpr.touches_mono hwithin hleads
  rw [show (fun id => decide (id ∈ solve_reactive_functions hir)) =
    fun id => decide (id ∈ (rooted hir roots bindings).reactive_functions) from rfl, hnames]
    at hfound
  cases hfound

/-- The answers of the analysis are right, and the functions it finds are the least set closed
under reading a cell and calling a member, exactly when no release leads to a reading. -/
theorem reads_signal_sound_iff :
    (Sound hir ∧ IsLeast {T | Closed hir T} (solve_reactive_functions hir)) ↔
      ∀ id, is_release hir id → ¬ Leads hir id := by
  rw [isLeast_closed_iff]
  exact ⟨fun h => h.2, fun h => ⟨sound_of_releases hir h, h⟩⟩

/-- A release that gives an environment variable, and a function that gives the release. -/
def keyed : Hir Empty where
  defs :=
    [.release [] [.give (.operator (.environment "KEY") [])],
      .function [] [.give (.call 0 [])]]
  signal _ := none

def plain : Meaning Empty where
  operator _ _ := .ok (.truth true)
  call _ _ := .ok (.truth true)
  mutate verb := verb.elim
  truthy _ := true
  less _ _ := false
  undefined_ := .truth true

/-- The function is not found, though what it gives is what the environment says. -/
theorem keyed_reads :
    reads_signal keyed (rooted keyed [] []) (.call 1 []) = false ∧
      ((plain.evaluate keyed 2 (.call 1 [])).run ⟨fun _ => none, fun _ => .truth true⟩).1 ≠
        ((plain.evaluate keyed 2 (.call 1 [])).run
          ⟨fun _ => none, fun _ => .truth false⟩).1 := by
  refine ⟨by decide, fun hsame => ?_⟩
  have htrue : Except.ok (Value.truth true) = Except.ok (ε := Fault) (Value.truth false) := hsame
  cases htrue

end Sound

end Reactive
end Zdeceptron
