import Zdeceptron.Types.Functions

/-!
# Generalised functions

What a function is quantified over once its component is generalised, and at the end of the
run.

* `schemes_hold`: when instances and generalised functions are as they should be.
-/

namespace Zdeceptron
namespace Types

open Library

namespace SchemeChecker

section Closing

variable {c c' : SchemeChecker} {id : Nat} {scheme : Scheme} {done : List (List Nat × Nat)}

/-- A variable free in a scheme that quantifies nothing, a function left out. -/
def FreeInEnvironment (c : SchemeChecker) (id v : Nat) : Prop :=
  ∃ other g, other ≠ id ∧ c.schemes.lookup other = some g ∧ g.quantified = [] ∧
    c.solver.FreeIn v g.ty

/-- When a function is generalised, the variables of its type that are free in what quantifies
nothing are those that are free outside its component. -/
structure Fair (c : SchemeChecker) (ids : List Nat) (id : Nat) : Prop where
  inside : ∀ scheme, c.schemes.lookup id = some scheme → ∀ v, c.solver.FreeIn v scheme.ty →
    ∀ other ∈ ids, other ≠ id → ∀ g, c.schemes.lookup other = some g → g.quantified = [] →
      c.solver.FreeIn v g.ty → ∃ outside ∉ ids, c.FreeInScheme outside v
  outside : ∀ scheme, c.schemes.lookup id = some scheme → ∀ v, c.solver.FreeIn v scheme.ty →
    (∃ other ∉ ids, c.FreeInScheme other v) → c.FreeInEnvironment id v

variable {s : Solver}

theorem mem_freeVars {t : Ty} {out out' : List Nat} (hs : s.WellFormed)
    (ht : s.Scopes t) (h : s.freeVars t out = some out') (v : Nat) :
    v ∈ out' ↔ v ∈ out ∨ s.FreeIn v t := by
  obtain ⟨ρ, hρ⟩ := hs.exists_resolution
  cases h.symm.trans (Solver.freeVars_spec hs hρ ht out)
  rw [Solver.mem_collect, Solver.freeIn_iff hs hρ ht]

theorem nodup_collect {out ids : List Nat} (h : out.Nodup) : (Solver.collect out ids).Nodup := by
  induction ids generalizing out with
  | nil => exact h
  | cons id ids ih =>
      rw [Solver.collect, List.foldl_cons, ← Solver.collect]
      refine ih ?_
      split_ifs with hmem
      · exact h
      · rw [List.nodup_append]
        refine ⟨h, List.nodup_singleton id, ?_⟩
        rintro v hv w hw rfl
        rw [List.mem_singleton] at hw
        subst hw
        exact hmem (List.contains_iff_mem.mpr hv)

theorem nodup_freeVars {t : Ty} {out : List Nat} (hs : s.WellFormed)
    (ht : s.Scopes t) (h : s.freeVars t [] = some out) : out.Nodup := by
  obtain ⟨ρ, hρ⟩ := hs.exists_resolution
  cases h.symm.trans (Solver.freeVars_spec hs hρ ht [])
  exact nodup_collect List.nodup_nil

theorem mem_foldlM_freeVars (hs : s.WellFormed)
    {entries : List (Sigma fun _ : Nat => Scheme)} (hscopes : ∀ e ∈ entries, s.Scopes e.2.ty)
    {out env : List Nat} (h : entries.foldlM (fun env entry =>
      if entry.1 = id ∨ entry.2.quantified ≠ [] then some env
      else s.freeVars entry.2.ty env) out = some env) (v : Nat) :
    v ∈ env ↔ v ∈ out ∨
      ∃ e ∈ entries, e.1 ≠ id ∧ e.2.quantified = [] ∧ s.FreeIn v e.2.ty := by
  induction entries generalizing out with
  | nil =>
      cases h
      simp
  | cons e entries ih =>
      rw [List.forall_mem_cons] at hscopes
      simp only [List.foldlM_cons, Option.bind_eq_bind, Option.bind_eq_some_iff] at h
      obtain ⟨out', hout, h⟩ := h
      rw [ih hscopes.2 h]
      simp only [List.mem_cons, exists_eq_or_imp]
      split_ifs at hout with hskip
      · cases hout
        have hnone : ¬ (e.1 ≠ id ∧ e.2.quantified = [] ∧ s.FreeIn v e.2.ty) := by
          rintro ⟨hid, hmono, -⟩
          exact hskip.elim hid (fun hne => hne hmono)
        rw [or_iff_right hnone]
      · rw [not_or, not_not] at hskip
        rw [mem_freeVars hs hscopes.1 hout, or_assoc]
        simp only [hskip, true_and, ne_eq, not_false_eq_true]

theorem mem_environment (h : c.Inv done) {env : List Nat} (henv : c.environment id = some env)
    (v : Nat) : v ∈ env ↔ c.FreeInEnvironment id v := by
  have hscopes : ∀ e ∈ c.schemes.entries, c.solver.Scopes e.2.ty := by
    rintro ⟨other, g⟩ he
    exact (h.scopes other g (AList.mem_lookup_iff.mpr he)).ty
  rw [mem_foldlM_freeVars h.wellFormed hscopes henv]
  constructor
  · rintro (hnil | ⟨⟨other, g⟩, he, hother, hmono, hfree⟩)
    · exact absurd hnil List.not_mem_nil
    · exact ⟨other, g, hother, AList.mem_lookup_iff.mpr he, hmono, hfree⟩
  · rintro ⟨other, g, hother, hg, hmono, hfree⟩
    exact .inr ⟨⟨other, g⟩, AList.mem_lookup_iff.mp hg, hother, hmono, hfree⟩

theorem map_fst_of_mapM {f : Nat → Option Constraint} {vs : List Nat}
    {quantified : List (Nat × Constraint)}
    (h : vs.mapM (fun v => (f v).map (fun constraint => (v, constraint))) = some quantified) :
    quantified.map Prod.fst = vs := by
  induction vs generalizing quantified with
  | nil =>
      cases h
      rfl
  | cons v vs ih =>
      simp only [List.mapM_cons, Option.bind_eq_bind, Option.bind_eq_some_iff] at h
      obtain ⟨_, hentry, rest, hrest, h⟩ := h
      obtain ⟨constraint, -, rfl⟩ := Option.map_eq_some_iff.mp hentry
      cases h
      rw [List.map_cons, ih hrest]

theorem generalize_spec (h : c.Inv done) (hscheme : c.schemes.lookup id = some scheme)
    (hgeneralize : c.generalize id = some c') :
    ∃ g : Scheme, c' = { c with schemes := c.schemes.insert id g } ∧ g.ty = scheme.ty ∧
      c.solver.ScopesScheme g ∧
      ∀ v, v ∈ g.ids ↔ c.solver.FreeIn v scheme.ty ∧ ¬ c.FreeInEnvironment id v := by
  have hty := (h.scopes id scheme hscheme).ty
  simp only [generalize, hscheme, Option.bind_eq_bind, Option.bind_eq_some_iff] at hgeneralize
  obtain ⟨free, hfree, env, henv, quantified, hquantified, hgeneralize⟩ := hgeneralize
  cases hgeneralize
  have hids : Scheme.ids ⟨quantified, scheme.ty⟩ = free.filter (fun v => !env.contains v) :=
    map_fst_of_mapM hquantified
  have hmem (v : Nat) : v ∈ Scheme.ids ⟨quantified, scheme.ty⟩ ↔
      c.solver.FreeIn v scheme.ty ∧ ¬ c.FreeInEnvironment id v := by
    rw [hids, List.mem_filter, mem_freeVars h.wellFormed hty hfree, ← mem_environment h henv]
    simp
  refine ⟨⟨quantified, scheme.ty⟩, rfl, rfl, ⟨hty, fun v hv => ?_, ?_⟩, hmem⟩
  · exact ((hmem v).mp hv).1.lt h.wellFormed hty
  · rw [hids]
    exact (nodup_freeVars h.wellFormed hty hfree).filter _

/-- The invariant while a component is generalised, with the functions still to be. -/
structure Closes (c : SchemeChecker) (done : List (List Nat × Nat)) (ids todo : List Nat) :
    Prop where
  inv : c.Inv done
  nodup : todo.Nodup
  member : ∀ id ∈ todo, id ∈ ids
  later : ∀ id ∈ todo, ∀ others, (others, id) ∉ done
  monomorphic : ∀ id ∈ todo, ∃ scheme, c.schemes.lookup id = some scheme ∧ scheme.quantified = []
  closed : ∀ other ∈ ids, ∀ g, c.schemes.lookup other = some g → g.quantified ≠ [] →
    (ids, other) ∈ done

variable {ids todo : List Nat} {g : Scheme}

theorem Closes.apart (h : c.Closes done ids todo) (hfair : c.Fair ids id)
    (hscheme : c.schemes.lookup id = some scheme) {v : Nat} (hv : c.solver.FreeIn v scheme.ty)
    (henv : ¬ c.FreeInEnvironment id v) {other : Nat} (hother : other ≠ id)
    (hg : c.schemes.lookup other = some g) (hfree : c.solver.FreeIn v g.ty) : v ∈ g.ids := by
  by_contra hnot
  by_cases hmono : g.quantified = []
  · exact henv ⟨other, g, hother, hg, hmono, hfree⟩
  · refine henv (hfair.outside scheme hscheme v hv ?_)
    by_cases hmem : other ∈ ids
    · exact h.inv.exact ids other g (h.closed other hmem g hg hmono) hg v hfree hnot
    · exact ⟨other, hmem, g, hg, hfree, hnot⟩

theorem Closes.generalize (h : c.Closes done ids (id :: todo)) (hfair : c.Fair ids id)
    (hgeneralize : c.generalize id = some c') : c'.Closes ((ids, id) :: done) ids todo := by
  have hid : id ∈ ids := h.member id List.mem_cons_self
  obtain ⟨scheme, hscheme, hmono⟩ := h.monomorphic id List.mem_cons_self
  obtain ⟨g, rfl, hty, hscopes, hids⟩ := generalize_spec h.inv hscheme hgeneralize
  have hnone {v : Nat} : v ∉ scheme.ids := by
    rw [Scheme.ids, hmono]
    exact List.not_mem_nil
  have hne {others : List Nat} {other : Nat} (hmem : (others, other) ∈ done) : other ≠ id := by
    rintro rfl
    exact h.later other List.mem_cons_self others hmem
  have hold {other : Nat} (hother : other ≠ id) :
      (c.schemes.insert id g).lookup other = c.schemes.lookup other :=
    AList.lookup_insert_ne hother
  have hlift {other v : Nat} (hother : other ≠ id) (hfree : c.FreeInScheme other v) :
      FreeInScheme { c with schemes := c.schemes.insert id g } other v := by
    obtain ⟨g', hg', hrest⟩ := hfree
    exact ⟨g', (hold hother).trans hg', hrest⟩
  have hapart {v other : Nat} {g' : Scheme} (hv : v ∈ g.ids) (hother : other ≠ id)
      (hg' : c.schemes.lookup other = some g') (hfree : c.solver.FreeIn v g'.ty) : v ∈ g'.ids :=
    h.apart hfair hscheme ((hids v).mp hv).1 ((hids v).mp hv).2 hother hg' hfree
  refine ⟨⟨h.inv.wellFormed, ?_, ?_, ?_, ?_, ?_, ?_⟩, (List.nodup_cons.mp h.nodup).2,
    fun id hid => h.member id (List.mem_cons_of_mem _ hid), ?_, ?_, ?_⟩
  · intro other g' hg'
    rcases lookup_insert_cases hg' with ⟨-, rfl⟩ | ⟨-, hg'⟩
    · exact hscopes
    · exact h.inv.scopes other g' hg'
  · rintro q ⟨other, g', hg', hq⟩
    rcases lookup_insert_cases hg' with ⟨-, rfl⟩ | ⟨-, hg'⟩
    · exact ((hids q).mp hq).1.binds h.inv.wellFormed (h.inv.scopes id scheme hscheme).ty
    · exact h.inv.unbound q ⟨other, g', hg', hq⟩
  · rintro q target g'' ⟨other, g', hg', hq⟩ hg'' hfree
    rcases lookup_insert_cases hg' with ⟨-, rfl⟩ | ⟨-, hfrom⟩ <;>
      rcases lookup_insert_cases hg'' with ⟨-, rfl⟩ | ⟨htarget, hto⟩
    · exact hq
    · exact hapart hq htarget hto hfree
    · rw [hty] at hfree
      exact absurd (h.inv.apart q id scheme ⟨other, g', hfrom, hq⟩ hscheme hfree) hnone
    · exact h.inv.apart q target g'' ⟨other, g', hfrom, hq⟩ hto hfree
  · intro others other hmem
    rcases List.mem_cons.mp hmem with heq | hmem
    · cases heq
      exact ⟨g, AList.lookup_insert _⟩
    · obtain ⟨g', hg'⟩ := h.inv.known others other hmem
      exact ⟨g', (hold (hne hmem)).trans hg'⟩
  · intro others other g' hmem hg' q hq
    rcases List.mem_cons.mp hmem with heq | hmem
    · cases heq
      rw [AList.lookup_insert] at hg'
      obtain rfl := Option.some.inj hg'
      rw [hty]
      exact ((hids q).mp hq).1
    · exact h.inv.mentioned others other g' hmem ((hold (hne hmem)).symm.trans hg') q hq
  · intro others other g' hmem hg' v hfree hv
    rcases List.mem_cons.mp hmem with heq | hmem
    · cases heq
      rw [AList.lookup_insert] at hg'
      obtain rfl := Option.some.inj hg'
      rw [hty] at hfree
      -- a variable that is left out is free in what quantifies nothing
      have henv : c.FreeInEnvironment id v := by
        by_contra henv
        exact hv ((hids v).mpr ⟨hfree, henv⟩)
      obtain ⟨other, g', hother, hg', hmono', hfree'⟩ := henv
      by_cases hin : other ∈ ids
      · obtain ⟨outside, hout, houtside⟩ :=
          hfair.inside scheme hscheme v hfree other hin hother g' hg' hmono' hfree'
        exact ⟨outside, hout, hlift (fun heq => hout (heq ▸ hid)) houtside⟩
      · refine ⟨other, hin, hlift hother ⟨g', hg', hfree', ?_⟩⟩
        rw [Scheme.ids, hmono']
        exact List.not_mem_nil
    · have hother := hne hmem
      have hbefore := (hold hother).symm.trans hg'
      obtain ⟨outside, hout, houtside⟩ := h.inv.exact others other g' hmem hbefore v hfree hv
      by_cases heq : outside = id
      · subst heq
        obtain ⟨_, hsame, hfree', -⟩ := houtside
        obtain rfl := Option.some.inj (hscheme.symm.trans hsame)
        refine ⟨outside, hout, g, AList.lookup_insert _, hty ▸ hfree', fun hvg => hv ?_⟩
        exact hapart hvg hother hbefore hfree
      · exact ⟨outside, hout, hlift heq houtside⟩
  · intro other hother others hmem
    rcases List.mem_cons.mp hmem with heq | hmem
    · cases heq
      exact (List.nodup_cons.mp h.nodup).1 hother
    · exact h.later other (List.mem_cons_of_mem _ hother) others hmem
  · intro other hother
    have hne' : other ≠ id := by
      rintro rfl
      exact (List.nodup_cons.mp h.nodup).1 hother
    obtain ⟨g', hg', hmono'⟩ := h.monomorphic other (List.mem_cons_of_mem _ hother)
    exact ⟨g', (hold hne').trans hg', hmono'⟩
  · intro other hother g' hg' hquantified
    rcases lookup_insert_cases hg' with ⟨rfl, -⟩ | ⟨-, hg'⟩
    · exact List.mem_cons_self
    · exact List.mem_cons_of_mem _ (h.closed other hother g' hg' hquantified)

end Closing

section Runs

variable {c c' : SchemeChecker} {component : Component} {ids : List Nat}
  {done : List (List Nat × Nat)}

def functions (component : Component) : List Nat :=
  (component.filter (fun member => member.release.isNone)).map Member.id

theorem Inv.start (h : c.Inv done) : Checks { c with held := [] } done where
  inv := ⟨h.wellFormed, h.scopes, h.unbound, h.apart, h.known, h.mentioned, h.exact⟩
  held _ ht := absurd ht List.not_mem_nil

theorem Checks.enterAll (h : c.Checks done) (hnodup : component.ids.Nodup)
    (hnew : ∀ id ∈ component.ids, c.schemes.lookup id = none)
    (hrun : entering.run c component = some c') :
    c'.Checks done ∧
      (∀ id ∈ component.ids, ∃ g, c'.schemes.lookup id = some g ∧ g.quantified = []) ∧
      ∀ id ∉ component.ids, c'.schemes.lookup id = c.schemes.lookup id := by
  induction component generalizing c with
  | nil =>
      cases hrun
      exact ⟨h, fun id hid => absurd hid List.not_mem_nil, fun _ _ => rfl⟩
  | cons member component ih =>
      rw [Component.ids, List.map_cons, List.nodup_cons] at hnodup
      rw [Component.ids, List.map_cons, List.forall_mem_cons] at hnew
      obtain ⟨c₁, henter, hrest⟩ := entering.run_cons_eq_some.mp hrun
      obtain ⟨h₁, t, hschemes⟩ := h.enter hnew.1 henter
      have hother {id : Nat} (hid : id ≠ member.id) :
          c₁.schemes.lookup id = c.schemes.lookup id := by
        rw [hschemes, AList.lookup_insert_ne hid]
      have hnew' (id : Nat) (hid : id ∈ Component.ids component) : c₁.schemes.lookup id = none := by
        rw [hother, hnew.2 id hid]
        rintro rfl
        exact hnodup.1 hid
      obtain ⟨hchecks, hmono, hsame⟩ := ih h₁ hnodup.2 hnew' hrest
      refine ⟨hchecks, fun id hid => ?_, fun id hid => ?_⟩
      · rcases List.mem_cons.mp hid with rfl | hid
        · refine ⟨.monomorphic t, ?_, rfl⟩
          rw [hsame _ hnodup.1, hschemes, AList.lookup_insert]
        · exact hmono id hid
      · rw [Component.ids, List.map_cons, List.mem_cons, not_or] at hid
        rw [hsame id hid.2, hother hid.1]

variable {moves : List BodyMove}

theorem Checks.bodies (h : c.Checks done)
    (hok : bodies.Meets BodyOk c moves) (hrun : bodies.run c moves = some c') :
    c'.Checks done ∧ c'.schemes = c.schemes := by
  refine SchemeChecker.bodies.run_invariant_of_meets
    (I := fun c' => c'.Checks done ∧ c'.schemes = c.schemes) ?_ ⟨h, rfl⟩ hok hrun
  rintro c₁ move c₂ ⟨hchecks, hschemes⟩ hmove hstep
  obtain ⟨hchecks', hschemes'⟩ := hchecks.body hmove hstep
  exact ⟨hchecks', hschemes'.trans hschemes⟩

def CloseOk (ids : List Nat) (c : SchemeChecker) (member : Member) : Prop :=
  member.release = none → c.Fair ids member.id

theorem lookup_generalize {id other : Nat} (h : c.generalize id = some c') (hother : other ≠ id) :
    c'.schemes.lookup other = c.schemes.lookup other := by
  unfold SchemeChecker.generalize at h
  split at h
  · cases h
    rfl
  · simp only [Option.bind_eq_bind, Option.bind_eq_some_iff] at h
    obtain ⟨_, -, _, -, _, -, h⟩ := h
    cases h
    exact AList.lookup_insert_ne hother

theorem Closes.closeAll (h : c.Closes done ids (functions component))
    (hfair : closing.Meets (CloseOk ids) c component) (hrun : closing.run c component = some c') :
    ∃ done', c'.Inv done' ∧ done ⊆ done' ∧ (∀ id ∈ functions component, (ids, id) ∈ done') ∧
      ∀ id ∉ ids, c'.schemes.lookup id = c.schemes.lookup id := by
  induction component generalizing c done with
  | nil =>
      cases hrun
      exact ⟨done, h.inv, List.Subset.refl _, fun id hid => absurd hid List.not_mem_nil,
        fun _ _ => rfl⟩
  | cons member component ih =>
      obtain ⟨c₁, hclose, hrest⟩ := closing.run_cons_eq_some.mp hrun
      have hfair' := hfair.2 c₁ hclose
      cases hrelease : member.release with
      | some gives =>
          have hfunctions : functions (member :: component) = functions component := by
            simp [functions, hrelease]
          have hsame : c₁ = c := by
            simpa [closing, close, hrelease] using hclose.symm
          subst hsame
          rw [hfunctions] at h ⊢
          exact ih h hfair' hrest
      | none =>
          have hfunctions : functions (member :: component) =
              member.id :: functions component := by
            simp [functions, hrelease]
          have hgeneralize : c.generalize member.id = some c₁ := by
            simpa [closing, close, hrelease] using hclose
          rw [hfunctions] at h ⊢
          have hid : member.id ∈ ids := h.member _ List.mem_cons_self
          obtain ⟨done', hinv, hsub, hall, hsame⟩ :=
            ih (h.generalize (hfair.1 hrelease) hgeneralize) hfair' hrest
          rw [List.cons_subset] at hsub
          refine ⟨done', hinv, hsub.2, List.forall_mem_cons.mpr ⟨hsub.1, hall⟩, fun id hid' => ?_⟩
          rw [hsame id hid', lookup_generalize hgeneralize]
          rintro rfl
          exact hid' hid

/-- What the check of one component meets: instances of schemes without quantified variables
in pairs, and functions generalised under a fair environment. -/
def ComponentOk (c : SchemeChecker) (checked : Component × List BodyMove) : Prop :=
  ∀ entered, entering.run { c with held := [] } checked.1 = some entered →
    bodies.Meets BodyOk entered checked.2 ∧
      ∀ after, bodies.run entered checked.2 = some after → ¬ entered.pending < after.pending →
        closing.Meets (CloseOk checked.1.ids) after checked.1

theorem Inv.checkComponent (h : c.Inv done) (hnodup : component.ids.Nodup)
    (hnew : ∀ id ∈ component.ids, c.schemes.lookup id = none)
    (hok : c.ComponentOk (component, moves))
    (hcheck : c.checkComponent (component, moves) = some c') :
    ∃ done', c'.Inv done' ∧ done ⊆ done' ∧
      (∀ after, c.checkBodies component moves = some (after, false) →
        ∀ id ∈ functions component, (component.ids, id) ∈ done') ∧
      ∀ id ∉ component.ids, c'.schemes.lookup id = c.schemes.lookup id := by
  simp only [SchemeChecker.checkComponent, Option.bind_eq_bind, Option.bind_eq_some_iff] at hcheck
  obtain ⟨⟨after, deferred⟩, hbodies, hcheck⟩ := hcheck
  have hbodies' := hbodies
  simp only [checkBodies, Option.bind_eq_bind, Option.bind_eq_some_iff] at hbodies
  obtain ⟨entered, hentered, _, hafter, hpair⟩ := hbodies
  cases hpair
  obtain ⟨hchecks, hmono, hother⟩ := h.start.enterAll hnodup hnew hentered
  obtain ⟨hbodyOk, hcloseOk⟩ := hok entered hentered
  obtain ⟨hchecks', hschemes⟩ := hchecks.bodies hbodyOk hafter
  have hsame (id : Nat) (hid : id ∉ component.ids) :
      after.schemes.lookup id = c.schemes.lookup id := by
    rw [hschemes]
    exact hother id hid
  by_cases hdeferred : entered.pending < after.pending
  · simp only [hdeferred, decide_true, if_true] at hcheck hbodies'
    cases hcheck
    refine ⟨done, hchecks'.inv, List.Subset.refl _, ?_, hsame⟩
    intro after' hafter'
    cases hbodies'.symm.trans hafter'
  · simp only [hdeferred, decide_false, Bool.false_eq_true, if_false] at hcheck
    have hcloses : after.Closes done component.ids (functions component) := by
      have hsub : functions component ⊆ component.ids :=
        List.map_subset Member.id (List.filter_subset_self _)
      refine ⟨hchecks'.inv, hnodup.sublist (List.filter_sublist.map Member.id), hsub, ?_, ?_, ?_⟩
      · intro id hid others hmem
        obtain ⟨g, hg⟩ := h.known others id hmem
        cases (hnew id (hsub hid)).symm.trans hg
      · intro id hid
        rw [hschemes]
        exact hmono id (hsub hid)
      · intro other hother g hg hquantified
        rw [hschemes] at hg
        obtain ⟨_, hg', hmono'⟩ := hmono other hother
        cases hg.symm.trans hg'
        exact absurd hmono' hquantified
    obtain ⟨done', hinv, hsub, hall, hkept⟩ :=
      hcloses.closeAll (hcloseOk after hafter hdeferred) hcheck
    exact ⟨done', hinv, hsub, fun _ _ => hall, fun id hid => (hkept id hid).trans (hsame id hid)⟩

end Runs

section Declared

variable {c c' : SchemeChecker}

/-- What holds once the signals and the foreigns are declared: a scheme is quantified over all
of its type that is free. -/
structure Declared (c : SchemeChecker) : Prop where
  wellFormed : c.solver.WellFormed
  scopes : ∀ id g, c.schemes.lookup id = some g → c.solver.ScopesScheme g
  unbound : ∀ q, c.Sealed q → c.solver.binds q = none
  all : ∀ id g, c.schemes.lookup id = some g → ∀ v, c.solver.FreeIn v g.ty → v ∈ g.ids

theorem Declared.inv (h : c.Declared) : c.Inv [] where
  wellFormed := h.wellFormed
  scopes := h.scopes
  unbound := h.unbound
  apart _ id g _ hg hfree := h.all id g hg _ hfree
  known _ _ hmem := absurd hmem List.not_mem_nil
  mentioned _ _ _ hmem := absurd hmem List.not_mem_nil
  exact _ _ _ hmem := absurd hmem List.not_mem_nil

theorem declared_new : new.Declared := by
  refine ⟨Solver.new_wellFormed, ?_, ?_, ?_⟩
  · rintro id g ⟨⟩
  · rintro q ⟨id, g, ⟨⟩, -⟩
  · rintro id g ⟨⟩

theorem Declared.insert (h : c.Declared) {s' : Solver} {id : Nat} {g : Scheme}
    (hgrows : c.solver.Grows s') (hbinds : s'.binds = c.solver.binds)
    (hscheme : s'.ScopesScheme g) (hunbound : ∀ q ∈ g.ids, s'.binds q = none)
    (hall : ∀ v, s'.FreeIn v g.ty → v ∈ g.ids) :
    Declared { c with solver := s', schemes := c.schemes.insert id g } := by
  have hspares : Solver.Spares c.Sealed c.solver s' :=
    .of_binds h.wellFormed hgrows hbinds h.unbound
  have hkept := h.inv.spares hspares
  refine ⟨hgrows.wellFormed, ?_, ?_, ?_⟩
  · intro other g' hg'
    rcases lookup_insert_cases hg' with ⟨-, rfl⟩ | ⟨-, hold⟩
    · exact hscheme
    · exact hkept.scopes other g' hold
  · rintro q ⟨other, g', hg', hq⟩
    rcases lookup_insert_cases hg' with ⟨-, rfl⟩ | ⟨-, hold⟩
    · exact hunbound q hq
    · exact hspares.kept q ⟨other, g', hold, hq⟩
  · intro other g' hg' v hfree
    rcases lookup_insert_cases hg' with ⟨-, rfl⟩ | ⟨-, hold⟩
    · exact hall v hfree
    · have hty := (h.scopes other g' hold).ty
      refine h.all other g' hold v ?_
      obtain ⟨u, hu, hv⟩ := (Solver.freeIn_grows_iff h.wellFormed hgrows hty).mp hfree
      have hlt := (hu.lt h.wellFormed hty).trans_le hgrows.length
      have hnone := (congrFun hbinds u).trans (hu.binds h.wellFormed hty)
      rw [Solver.freeIn_var hgrows.wellFormed hlt hnone] at hv
      exact hv ▸ hu

theorem Declared.declare (h : c.Declared) {declaration : Declaration}
    (hdeclare : c.declare declaration = some c') : c'.Declared := by
  cases declaration with
  | signal id ty =>
      cases hdeclare
      have hnone {v : Nat} : v ∉ ty.1.vars := by
        rw [ty.2]
        exact List.not_mem_nil
      have hscope : c.solver.Scopes ty.1 := fun v hv => absurd hv hnone
      refine h.insert (.refl h.wellFormed) rfl
        ⟨hscope, fun v hv => absurd hv List.not_mem_nil, List.nodup_nil⟩
        (fun q hq => absurd hq List.not_mem_nil) (fun v hfree => ?_)
      obtain ⟨ρ, hρ⟩ := h.wellFormed.exists_resolution
      obtain ⟨u, hu, -⟩ :=
        Ty.mem_vars_subst.mp ((Solver.freeIn_iff h.wellFormed hρ hscope).mp hfree)
      exact absurd hu hnone
  | foreign id names ty =>
      simp only [SchemeChecker.declare, Option.bind_eq_bind, Option.bind_eq_some_iff] at hdeclare
      obtain ⟨⟨s', fresh⟩, hfresh, hdeclare⟩ := hdeclare
      cases hdeclare
      obtain ⟨hgrows, hbinds, hlength, rfl⟩ := freshAll_spec h.wellFormed hfresh
      have hids (t : Ty) : Scheme.ids ⟨(((List.range' c.solver.bindings.length names).map
          Ty.var).flatMap Ty.vars).map (fun v => (v, Constraint.any)), t⟩ =
          List.range' c.solver.bindings.length names := by
        rw [Scheme.ids, List.map_map, List.flatMap_map]
        simp [Ty.vars, Function.comp_def]
      have hvars : ∀ v ∈ (ty.1.subst (fun i =>
          ((List.range' c.solver.bindings.length names).map Ty.var).getD i .unknown)).vars,
          v ∈ List.range' c.solver.bindings.length names := by
        intro v hv
        obtain ⟨i, hi, hv⟩ := Ty.mem_vars_subst.mp hv
        have hlt := ty.2 i hi
        simp only [List.getD_eq_getElem?_getD, List.getElem?_map, List.getElem?_range' hlt,
          Option.map_some, Option.getD_some, Ty.vars, List.mem_singleton] at hv
        rw [List.mem_range'_1]
        omega
      have hnew {v : Nat} (hv : v ∈ List.range' c.solver.bindings.length names) :
          v < s'.bindings.length ∧ s'.binds v = none := by
        rw [List.mem_range'_1] at hv
        refine ⟨by omega, ?_⟩
        rw [hbinds, Solver.binds, List.getElem?_eq_none hv.1]
        rfl
      have hscope : s'.Scopes _ := fun v hv => (hnew (hvars v hv)).1
      refine h.insert hgrows hbinds ⟨hscope, ?_, ?_⟩ ?_ ?_
      · exact fun q hq => (hnew (hids _ ▸ hq)).1
      · rw [hids]
        exact List.nodup_range'
      · exact fun q hq => (hnew (hids _ ▸ hq)).2
      · intro v hfree
        obtain ⟨ρ, hρ⟩ := hgrows.wellFormed.exists_resolution
        rw [Solver.freeIn_iff hgrows.wellFormed hρ hscope] at hfree
        obtain ⟨u, hu, hv⟩ := Ty.mem_vars_subst.mp hfree
        rw [hρ.free u (hnew (hvars u hu)).2] at hv
        obtain rfl := List.mem_singleton.mp hv
        rw [hids]
        exact hvars v hu

end Declared

section Whole

variable {c c' : SchemeChecker} {done : List (List Nat × Nat)}

def idsOf (order : List (Component × List BodyMove)) : List Nat :=
  order.flatMap (fun checked => checked.1.ids)

theorem Inv.checkAll (h : c.Inv done) {order : List (Component × List BodyMove)}
    (hnodup : (idsOf order).Nodup) (hnew : ∀ id ∈ idsOf order, c.schemes.lookup id = none)
    (hok : checking.Meets ComponentOk c order) (hrun : checking.run c order = some c') :
    ∃ done', c'.Inv done' ∧ done ⊆ done' ∧
      ∀ pre component moves post before after, order = pre ++ (component, moves) :: post →
        checking.run c pre = some before →
        before.checkBodies component moves = some (after, false) →
        ∀ id ∈ functions component, (component.ids, id) ∈ done' := by
  induction order generalizing c done with
  | nil =>
      cases hrun
      refine ⟨done, h, List.Subset.refl _, ?_⟩
      intro pre component moves post _ _ heq
      simp at heq
  | cons checked order ih =>
      obtain ⟨component, moves⟩ := checked
      rw [idsOf, List.flatMap_cons, ← idsOf] at hnodup hnew
      rw [List.nodup_append] at hnodup
      obtain ⟨c₁, hcheck, hrest⟩ := checking.run_cons_eq_some.mp hrun
      obtain ⟨done₁, hinv, hsub, hdone, hsame⟩ := h.checkComponent hnodup.1
        (fun id hid => hnew id (List.mem_append_left _ hid)) hok.1 hcheck
      have hnew' (id : Nat) (hid : id ∈ idsOf order) : c₁.schemes.lookup id = none := by
        rw [hsame id (fun hmem => hnodup.2.2 id hmem id hid rfl)]
        exact hnew id (List.mem_append_right _ hid)
      obtain ⟨done', hinv', hsub', hall⟩ := ih hinv hnodup.2.1 hnew' (hok.2 c₁ hcheck) hrest
      refine ⟨done', hinv', List.Subset.trans hsub hsub', ?_⟩
      intro pre component' moves' post before after heq hbefore hafter id hid
      cases pre with
      | nil =>
          cases heq
          cases hbefore
          exact hsub' (hdone after hafter id hid)
      | cons first pre =>
          cases heq
          obtain ⟨c₂, hfirst, hbefore⟩ := checking.run_cons_eq_some.mp hbefore
          cases hcheck.symm.trans hfirst
          exact hall pre component' moves' post before after rfl hbefore hafter id hid

/-- A function is quantified over the variables free in its type that are free in no scheme
outside its component. -/
def QuantifiedExactly (c : SchemeChecker) (component : Component) (id : Nat) : Prop :=
  ∃ g, c.schemes.lookup id = some g ∧ ∀ v, v ∈ g.ids ↔
    c.solver.FreeIn v g.ty ∧ ∀ other ∉ component.ids, ¬ c.FreeInScheme other v

theorem Inv.quantifiedExactly (h : c.Inv done) {component : Component} {id : Nat}
    (hmem : (component.ids, id) ∈ done) : c.QuantifiedExactly component id := by
  obtain ⟨g, hg⟩ := h.known _ _ hmem
  refine ⟨g, hg, fun v => ⟨fun hv => ⟨h.mentioned _ _ g hmem hg v hv, ?_⟩, ?_⟩⟩
  · rintro other - ⟨g', hg', hfree, hnot⟩
    exact hnot (h.apart v other g' ⟨id, g, hg, hv⟩ hg' hfree)
  · rintro ⟨hfree, hnone⟩
    by_contra hv
    obtain ⟨other, hother, hout⟩ := h.exact _ _ g hmem hg v hfree hv
    exact hnone other hother hout

end Whole

section Settled

/-- An instance is that of its scheme exactly when there are numbers for the new variables and
no quantified variable occurs in a pair of its type.  Where the instances that bodies take are
such, and no function shares a variable with one of its component that is not generalised yet
(unless it is free outside as well) or with a scheme outside that is quantified over others,
the functions of a component that deferred nothing are quantified over what is free in no
scheme outside. -/
theorem schemes_hold (s : Solver) (equations : List (Ty × Ty)) (scheme : Scheme)
    (declarations : List Declaration) (order : List (Component × List BodyMove))
    (c c' : SchemeChecker) :
    (Solver.Reachable s equations → s.ScopesScheme scheme →
      ((∃ s' t, s.instantiate scheme = some (s', t) ∧ s.Instantiates scheme s' t) ↔
        s.HasRoom scheme ∧ PairFree s scheme)) ∧
    (declaring.run new declarations = some c →
      (idsOf order).Nodup → (∀ id ∈ idsOf order, c.schemes.lookup id = none) →
      checking.Meets ComponentOk c order → checkFunctions c order = some c' →
        ∀ pre component moves post before after, order = pre ++ (component, moves) :: post →
          checkFunctions c pre = some before →
          before.checkBodies component moves = some (after, false) →
            ∀ id ∈ functions component, c'.QuantifiedExactly component id) := by
  constructor
  · intro hreach hscheme
    exact Solver.instantiates_iff hreach.sound.wellFormed hscheme
  · intro hdeclare hnodup hnew hok hrun pre component moves post before
      after heq hbefore hafter id hid
    have hdeclared : c.Declared := declaring.run_invariant
      (fun _ _ _ h hstep => Declared.declare h hstep) declared_new hdeclare
    obtain ⟨done, hinv, -, hall⟩ := hdeclared.inv.checkAll hnodup hnew hok hrun
    exact hinv.quantifiedExactly
      (hall pre component moves post before after heq hbefore hafter id hid)

/-- The type of `function same with x` that gives `x`, before it is generalised. -/
def sameTy : Ty := .function [.var 0] (.var 1)

def sameEntered : SchemeChecker :=
  ⟨⟨[none, none], [.any, .any]⟩, (∅ : AList _).insert 0 (.monomorphic sameTy), [sameTy], 0⟩

def sameChecked : SchemeChecker :=
  { sameEntered with solver := ⟨[some (.var 1), none], [.any, .any]⟩ }

def sameGeneralised : SchemeChecker :=
  { sameChecked with schemes := sameChecked.schemes.insert 0 ⟨[(1, .any)], sameTy⟩ }

def sameOrder : List (Component × List BodyMove) := [([⟨0, 1, none⟩], [.unify (.var 0) (.var 1)])]

theorem same_body : bodies.run sameEntered [.unify (.var 0) (.var 1)] = some sameChecked := by
  have hunify : sameEntered.solver.unify (.var 0) (.var 1) = some (sameChecked.solver, .ok ()) := by
    rw [Solver.unify.eq_def, Solver.shallow_free rfl, Solver.shallow_free rfl]
    rfl
  have hat : sameEntered.AtHand (.var 0) ∧ sameEntered.AtHand (.var 1) := by decide
  have hstep : body sameEntered (.unify (.var 0) (.var 1)) = some sameChecked := by
    simp only [body, hat, and_self, if_true, hunify]
    rfl
  exact bodies.run_cons_eq_some.mpr ⟨_, hstep, rfl⟩

theorem same_freeVars : sameChecked.solver.freeVars sameTy [] = some [1] := by
  have hparam : sameChecked.solver.freeVars (.var 0) [] = some [1] := by
    rw [Solver.freeVars.eq_def, Solver.shallow_bound rfl, Solver.shallow_free rfl]
    rfl
  have hresult : sameChecked.solver.freeVars (.var 1) [1] = some [1] := by
    rw [Solver.freeVars.eq_def, Solver.shallow_free rfl]
    rfl
  have hparams : sameChecked.solver.freeVarsAll [.var 0] [] = some [1] := by
    rw [Solver.freeVarsAll.eq_def]
    simp only [hparam, Option.bind_eq_bind, Option.bind_some]
    rw [Solver.freeVarsAll.eq_def]
  rw [Solver.freeVars.eq_def, sameTy, Solver.shallow_of_isVar _ rfl]
  simp [hparams, hresult]

theorem same_close : closing.run sameChecked [⟨0, 1, none⟩] = some sameGeneralised := by
  have hlookup : sameChecked.schemes.lookup 0 = some (.monomorphic sameTy) := rfl
  have hgeneralize : sameChecked.generalize 0 = some sameGeneralised := by
    simp only [generalize, hlookup, Scheme.monomorphic, same_freeVars]
    rfl
  exact closing.run_cons_eq_some.mpr ⟨_, hgeneralize, rfl⟩

theorem same_fair : sameChecked.Fair [0] 0 := by
  have hlookup {other : Nat} (hother : other ≠ 0) : sameChecked.schemes.lookup other = none := by
    rw [show sameChecked.schemes = (∅ : AList _).insert 0 (.monomorphic sameTy) from rfl,
      AList.lookup_insert_ne hother]
    rfl
  constructor
  · intro scheme hscheme v hfree other hmem hne
    exact absurd (List.mem_singleton.mp hmem) hne
  · rintro scheme hscheme v hfree ⟨other, hmem, g, hg, -⟩
    have hne : other ≠ 0 := fun h => hmem (List.mem_singleton.mpr h)
    cases (hlookup hne).symm.trans hg

theorem same_entered : entering.run { new with held := [] } [⟨0, 1, none⟩] = some sameEntered := rfl

theorem same_checkBodies : new.checkBodies [⟨0, 1, none⟩] [.unify (.var 0) (.var 1)] =
    some (sameChecked, false) := by
  simp only [checkBodies, same_entered, same_body, Option.bind_eq_bind, Option.bind_some]
  rfl

theorem same_checkFunctions : checkFunctions new sameOrder = some sameGeneralised := by
  refine checking.run_cons_eq_some.mpr ⟨_, ?_, rfl⟩
  simp only [checking, checkComponent, same_checkBodies, Option.bind_eq_bind, Option.bind_some]
  exact same_close

def same : Scheme := ⟨[(0, .any)], .function [.var 0] (.var 0)⟩

theorem same_quantified :
    ((∃ s' t, Solver.twoVariables.instantiate same = some (s', t) ∧
      Solver.twoVariables.Instantiates same s' t) ↔
        Solver.twoVariables.HasRoom same ∧ PairFree Solver.twoVariables same) ∧
      sameGeneralised.QuantifiedExactly [⟨0, 1, none⟩] 0 := by
  constructor
  · refine (schemes_hold _ [] same [] [] new new).1 Solver.reachable_twoVariables ⟨?_, ?_, ?_⟩
    · unfold Solver.Scopes
      decide
    · decide
    · decide
  · refine (schemes_hold Solver.twoVariables [] same [] sameOrder new sameGeneralised).2 rfl
      (by decide) (fun _ _ => rfl) ?_ same_checkFunctions [] [⟨0, 1, none⟩]
      [.unify (.var 0) (.var 1)] [] new sameChecked rfl rfl same_checkBodies 0 (by decide)
    refine ⟨?_, fun _ _ => trivial⟩
    intro entered hentered
    cases same_entered.symm.trans hentered
    refine ⟨⟨trivial, fun _ _ => trivial⟩, ?_⟩
    intro after hafter _
    cases same_body.symm.trans hafter
    exact ⟨fun _ => same_fair, fun _ _ => trivial⟩

/-- `function twin with x` that gives `Pair with first is x, second is x`, over one variable. -/
def twin : Scheme := ⟨[(0, .any)], .function [.var 0] (.pair (.var 0) (.var 0))⟩

def twinSolver : Solver := ⟨[none], [.any]⟩

/-- The instance of a function that gives a pair of its parameter keeps the variable of the
function. -/
theorem twin_not_instantiated :
    (∃ s' t, twinSolver.instantiate twin = some (s', t) ∧ s'.FreeIn 0 t) ∧
      ¬ ∃ s' t, twinSolver.instantiate twin = some (s', t) ∧
        twinSolver.Instantiates twin s' t := by
  have hreach : Solver.Reachable twinSolver [] := .fresh .new rfl
  have hs := hreach.sound.wellFormed
  obtain ⟨ρ, hρ⟩ := hs.exists_resolution
  have hty : twinSolver.Scopes twin.ty := by
    unfold Solver.Scopes
    decide
  have hroom : twinSolver.HasRoom twin := by
    unfold Solver.HasRoom
    decide
  obtain ⟨s', t, hgives, hextended, hscope, ht⟩ := Solver.instantiate_spec hs hρ hty hroom
  have hpair : (0 : Nat) ∈ (twin.ty.subst ρ).pairVars := by
    rw [show twin.ty.subst ρ = .function [ρ 0] (.pair (ρ 0) (ρ 0)) from rfl, hρ.free 0 rfl]
    decide
  have hfree : s'.FreeIn 0 t := by
    rw [Solver.freeIn_iff hextended.wellFormed (hextended.binds ▸ hρ) hscope, ht]
    exact Ty.mem_vars_substOutside _ hpair
  refine ⟨⟨s', t, hgives, hfree⟩, ?_⟩
  rintro ⟨s₁, t₁, hgives₁, h⟩
  cases hgives.symm.trans hgives₁
  exact h.gone 0 (by decide) hfree

end Settled

end SchemeChecker

end Types
end Zdeceptron
