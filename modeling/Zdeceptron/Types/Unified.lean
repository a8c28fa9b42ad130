import Mathlib.Data.List.Forall2
import Zdeceptron.Types.Resolved

/-!
# What unification does

`Outcome` says what a step of the unifier leaves behind: a well-formed solver with more
bindings, whose solutions are the old ones under which the equation holds.
-/

namespace Zdeceptron
namespace Types

open Library

namespace Solver

section Outcomes

/-- An assignment that satisfies the bindings and the constraints. -/
structure Satisfies (s : Solver) (σ : Nat → Ty) : Prop where
  solves : Ty.terms.Solves s.binds σ
  admitted : ∀ {v : Nat} {constraint : Constraint}, s.constraints[v]? = some constraint →
    constraint.admits (σ v) = true

/-- The number of variables that are not bound. -/
def freeCount (s : Solver) : Nat := s.bindings.countP Option.isNone

/-- What a step leaves behind, for an equation that `holds` under an assignment. -/
structure Outcome (s : Solver) (clean : Prop) (holds : (Nat → Ty) → Prop) (s' : Solver)
    (result : Except Mismatch Unit) : Prop where
  wellFormed : s'.WellFormed
  length : s'.bindings.length = s.bindings.length
  grows : ∀ {v : Nat} {t : Ty}, s.binds v = some t → s'.binds v = some t
  kept : ∀ {σ : Nat → Ty}, s'.Satisfies σ → s.Satisfies σ
  stays : s.Plain → clean → s'.Plain
  complete : s.Plain → clean → ∀ {σ : Nat → Ty}, s.Satisfies σ → holds σ →
    result = .ok () ∧ s'.Satisfies σ
  sound : s.Plain → clean → result = .ok () → ∀ {σ : Nat → Ty},
    Ty.terms.Solves s'.binds σ → holds σ
  progress : s' = s ∨ s'.freeCount < s.freeCount

variable {s s' : Solver} {clean clean' : Prop} {holds holds' : (Nat → Ty) → Prop}
  {result : Except Mismatch Unit}

theorem Outcome.same (hs : s.WellFormed)
    (hcomplete : s.Plain → clean → ∀ {σ : Nat → Ty}, s.Satisfies σ → holds σ → result = .ok ())
    (hsound : s.Plain → clean → result = .ok () → ∀ {σ : Nat → Ty},
      Ty.terms.Solves s.binds σ → holds σ) : Outcome s clean holds s result where
  wellFormed := hs
  length := rfl
  grows h := h
  kept h := h
  stays h _ := h
  complete hplain h _ hσ hholds := ⟨hcomplete hplain h hσ hholds, hσ⟩
  sound := hsound
  progress := .inl rfl

theorem Outcome.congr (h : Outcome s clean holds s' result)
    (hclean : s.Plain → clean' → clean)
    (hholds : ∀ {σ : Nat → Ty}, Ty.terms.Solves s.binds σ → (holds' σ ↔ holds σ)) :
    Outcome s clean' holds' s' result where
  wellFormed := h.wellFormed
  length := h.length
  grows := h.grows
  kept := h.kept
  stays hs hp := h.stays hs (hclean hs hp)
  complete hs hp _ hσ hold := h.complete hs (hclean hs hp) hσ ((hholds hσ.solves).mp hold)
  sound hs hp hok _ hσ :=
    (hholds (hσ.of_extends (fun _ _ => h.grows))).mpr (h.sound hs (hclean hs hp) hok hσ)
  progress := h.progress

theorem Outcome.stop {mismatch : Mismatch} (h : Outcome s clean holds s' (.error mismatch)) :
    Outcome s (clean ∧ clean') (fun σ => holds σ ∧ holds' σ) s' (.error mismatch) where
  wellFormed := h.wellFormed
  length := h.length
  grows := h.grows
  kept := h.kept
  stays hs hp := h.stays hs hp.1
  complete hs hp _ hσ hold := h.complete hs hp.1 hσ hold.1
  sound _ _ := by rintro ⟨⟩
  progress := h.progress

theorem Outcome.trans {s'' : Solver} (h : Outcome s clean holds s' (.ok ()))
    (h' : Outcome s' clean' holds' s'' result) :
    Outcome s (clean ∧ clean') (fun σ => holds σ ∧ holds' σ) s'' result where
  wellFormed := h'.wellFormed
  length := h'.length.trans h.length
  grows hv := h'.grows (h.grows hv)
  kept hσ := h.kept (h'.kept hσ)
  stays hs hp := h'.stays (h.stays hs hp.1) hp.2
  complete hs hp _ hσ hold :=
    h'.complete (h.stays hs hp.1) hp.2 (h.complete hs hp.1 hσ hold.1).2 hold.2
  sound hs hp hok _ hσ :=
    ⟨h.sound hs hp.1 rfl (hσ.of_extends (fun _ _ => h'.grows)),
      h'.sound (h.stays hs hp.1) hp.2 hok hσ⟩
  progress := by
    rcases h.progress with rfl | hless
    · exact h'.progress
    · rcases h'.progress with rfl | hless'
      · exact .inr hless
      · exact .inr (hless'.trans hless)

end Outcomes

section Binding

variable {s : Solver} {ρ : Nat → Ty} {id : Nat} {t : Ty}

theorem binds_set (h : s.bindings[id]? = some none) (t : Ty) (constraints : List Constraint) :
    binds ⟨s.bindings.set id (some t), constraints⟩ = Function.update s.binds id (some t) := by
  obtain ⟨hlt, -⟩ := List.getElem?_eq_some_iff.mp h
  funext v
  unfold binds
  simp only
  by_cases hv : v = id
  · subst hv
    rw [Function.update_self, List.getElem?_set_self hlt]
    rfl
  · rw [Function.update_of_ne hv, List.getElem?_set_ne (Ne.symm hv)]

theorem freeCount_set (h : s.bindings[id]? = some none) (t : Ty) (constraints : List Constraint) :
    freeCount ⟨s.bindings.set id (some t), constraints⟩ < s.freeCount := by
  obtain ⟨hlt, hnone⟩ := List.getElem?_eq_some_iff.mp h
  have hpos : 0 < s.freeCount := by
    refine List.countP_pos_iff.mpr ⟨none, ?_, rfl⟩
    rw [← hnone]
    exact List.getElem_mem hlt
  have hset : freeCount ⟨s.bindings.set id (some t), constraints⟩ = s.freeCount - 1 + 0 := by
    unfold freeCount
    simp only
    rw [List.countP_set hlt, hnone]
    rfl
  omega

theorem Outcome.bind (hs : s.WellFormed) (hρ : Ty.terms.Resolution s.binds ρ)
    (hfree : s.bindings[id]? = some none) (ht : s.Scopes t)
    (hoccurs : id ∉ (t.subst ρ).vars) {constraints : List Constraint}
    (hlength : constraints.length = s.constraints.length)
    (hnarrowed : ∀ {σ : Nat → Ty}, σ id = t.subst σ →
      ((∀ {v : Nat} {constraint : Constraint}, s.constraints[v]? = some constraint →
          constraint.admits (σ v) = true) ↔
        ∀ {v : Nat} {constraint : Constraint}, constraints[v]? = some constraint →
          constraint.admits (σ v) = true)) :
    Outcome s (t.isPlain = true) (fun σ => σ id = t.subst σ)
      ⟨s.bindings.set id (some t), constraints⟩ (.ok ()) := by
  have hbinds := binds_set hfree t constraints
  have hnone := binds_none_of_getElem? hfree
  have hextends : ∀ {v : Nat} {u : Ty}, s.binds v = some u →
      binds ⟨s.bindings.set id (some t), constraints⟩ v = some u := by
    intro v u hv
    rw [hbinds, Function.update_of_ne]
    · exact hv
    · rintro rfl
      rw [hnone] at hv
      cases hv
  have hcases : ∀ {v : Nat} {u : Ty},
      binds ⟨s.bindings.set id (some t), constraints⟩ v = some u →
        (v = id ∧ u = t) ∨ s.binds v = some u := by
    intro v u hv
    rw [hbinds] at hv
    by_cases hvid : v = id
    · subst hvid
      rw [Function.update_self] at hv
      exact .inl ⟨rfl, (Option.some.inj hv).symm⟩
    · rw [Function.update_of_ne hvid] at hv
      exact .inr hv
  have hsolves : ∀ {σ : Nat → Ty},
      Ty.terms.Solves (binds ⟨s.bindings.set id (some t), constraints⟩) σ ↔
        Ty.terms.Solves s.binds σ ∧ σ id = t.subst σ := by
    intro σ
    constructor
    · intro hσ
      refine ⟨hσ.of_extends (fun _ _ => hextends), hσ id t ?_⟩
      rw [hbinds, Function.update_self]
    · rintro ⟨hσ, hid⟩ v u hv
      rcases hcases hv with ⟨rfl, rfl⟩ | hv
      · exact hid
      · exact hσ v u hv
  refine
    { wellFormed := ?_, length := List.length_set, grows := hextends, kept := ?_,
      stays := ?_, complete := ?_, sound := ?_, progress := .inr (freeCount_set hfree t _) }
  · refine ⟨?_, ?_, ?_⟩
    · show constraints.length = (s.bindings.set id (some t)).length
      rw [List.length_set, hlength, hs.lengths]
    · intro v u hv w hw
      show w < (s.bindings.set id (some t)).length
      rw [List.length_set]
      rcases hcases hv with ⟨-, rfl⟩ | hv
      · exact ht w hw
      · exact hs.inScope hv w hw
    · rw [hbinds]
      exact hs.acyclic.bind hρ hnone hoccurs
  · intro σ hσ
    obtain ⟨hold, hid⟩ := hsolves.mp hσ.solves
    exact ⟨hold, (hnarrowed hid).mpr hσ.admitted⟩
  · intro hplain hplain' v u hv
    rcases hcases hv with ⟨-, rfl⟩ | hv
    · exact hplain'
    · exact hplain hv
  · intro _ _ σ hσ hid
    exact ⟨rfl, hsolves.mpr ⟨hσ.solves, hid⟩, (hnarrowed hid).mp hσ.admitted⟩
  · intro _ _ _ σ hσ
    exact (hsolves.mp hσ).2

theorem sizeOf_subst_lt {σ : Nat → Ty} {t : Ty} {v : Nat} (hvar : t.isVar = false)
    (h : v ∈ t.vars) : sizeOf (σ v) < sizeOf (t.subst σ) := by
  rw [Ty.vars_children hvar, List.mem_flatMap] at h
  obtain ⟨child, hchild, hv⟩ := h
  have hmem : child.subst σ ∈ (t.subst σ).children := by
    rw [Ty.children_subst hvar]
    exact List.mem_map_of_mem hchild
  exact Nat.lt_of_le_of_lt (Ty.sizeOf_subst_le hv) (Ty.sizeOf_child hmem)

theorem admits_subst {t : Ty} (hvar : t.isVar = false) (constraint : Constraint)
    (σ : Nat → Ty) : constraint.admits (t.subst σ) = constraint.admits t := by
  rw [← constraint.admits_shape, Ty.shape_subst hvar, constraint.admits_shape]

theorem WellFormed.exists_constraint (hs : s.WellFormed) (h : s.bindings[id]? = some none) :
    ∃ constraint, s.constraints[id]? = some constraint := by
  obtain ⟨hlt, -⟩ := List.getElem?_eq_some_iff.mp h
  rw [← hs.lengths] at hlt
  exact ⟨_, List.getElem?_eq_getElem hlt⟩

theorem bind_spec (hs : s.WellFormed) (hfree : s.bindings[id]? = some none) (ht : s.Scopes t)
    (hvar : t.isVar = false) :
    ∃ s' result, s.bind id t = some (s', result) ∧
      Outcome s (t.isPlain = true) (fun σ => σ id = t.subst σ) s' result := by
  obtain ⟨ρ, hρ⟩ := hs.exists_resolution
  obtain ⟨constraint, hconstraint⟩ := hs.exists_constraint hfree
  have hoccurs := occurs_spec hs hρ ht id
  by_cases hmem : id ∈ (t.subst ρ).vars
  · refine ⟨s, .error .infinite, ?_, .same hs ?_ (by rintro _ _ ⟨⟩)⟩
    · rw [Solver.bind, hoccurs, decide_eq_true hmem]
      rfl
    · intro _ _ σ hσ hid
      have hlt : sizeOf (σ id) < sizeOf ((t.subst ρ).subst σ) :=
        sizeOf_subst_lt (Ty.isVar_subst hvar ρ) hmem
      have hsame : (t.subst ρ).subst σ = t.subst σ := hσ.solves.subst_resolved hs.acyclic hρ t
      rw [hsame, hid] at hlt
      exact absurd hlt (Nat.lt_irrefl _)
  · cases hadmits : constraint.admits t with
    | false =>
        refine ⟨s, .error (.constraint constraint t), ?_, .same hs ?_ (by rintro _ _ ⟨⟩)⟩
        · rw [Solver.bind, hoccurs, decide_eq_false hmem, hconstraint]
          simp [hadmits]
        · intro _ _ σ hσ hid
          have hadmitted := hσ.admitted hconstraint
          rw [hid, admits_subst hvar, hadmits] at hadmitted
          cases hadmitted
    | true =>
        refine ⟨{ s with bindings := s.bindings.set id (some t) }, .ok (), ?_,
          .bind hs hρ hfree ht hmem rfl (fun _ => Iff.rfl)⟩
        rw [Solver.bind, hoccurs, decide_eq_false hmem, hconstraint]
        simp [hadmits]

theorem merge_spec (hs : s.WellFormed) {a b : Nat} (ha : s.bindings[a]? = some none)
    (hb : s.bindings[b]? = some none) (hab : a ≠ b) :
    ∃ s' result, s.merge a b = some (s', result) ∧
      Outcome s True (fun σ => σ a = σ b) s' result := by
  obtain ⟨ρ, hρ⟩ := hs.exists_resolution
  obtain ⟨needed, hneeded⟩ := hs.exists_constraint ha
  obtain ⟨other, hother⟩ := hs.exists_constraint hb
  obtain ⟨hltb, -⟩ := List.getElem?_eq_some_iff.mp hother
  cases hmeet : needed.meet other with
  | none =>
      refine ⟨s, .error (.constraint needed (.var b)), ?_, .same hs ?_ (by rintro _ _ ⟨⟩)⟩
      · rw [merge, hneeded, hother]
        simp [hmeet]
      · intro _ _ σ hσ hsame
        have hadmits := hσ.admitted hneeded
        rw [hsame] at hadmits
        obtain ⟨narrowed, hnarrowed, -⟩ := Constraint.meet_admits hadmits (hσ.admitted hother)
        rw [hmeet] at hnarrowed
        cases hnarrowed
  | some narrowed =>
      refine ⟨⟨s.bindings.set a (some (.var b)), s.constraints.set b narrowed⟩, .ok (), ?_, ?_⟩
      · rw [merge, hneeded, hother]
        simp [hmeet]
      have hscope : s.Scopes (.var b) := by
        intro v hv
        rw [List.mem_singleton.mp hv]
        exact (List.getElem?_eq_some_iff.mp hb).1
      have hoccurs : a ∉ ((Ty.var b).subst ρ).vars := by
        have hfree : (Ty.var b).subst ρ = .var b := hρ.free b (binds_none_of_getElem? hb)
        rw [hfree]
        exact fun hmem => hab (List.mem_singleton.mp hmem)
      refine (Outcome.bind hs hρ ha hscope hoccurs List.length_set ?_).congr (fun _ _ => rfl)
        (fun _ => Iff.rfl)
      intro σ hsame
      have hsame : σ a = σ b := hsame
      constructor
      · intro hall v constraint hv
        by_cases hvb : b = v
        · subst hvb
          rw [List.getElem?_set_self hltb] at hv
          obtain rfl := Option.some.inj hv
          have hadmits := hall hneeded
          rw [hsame] at hadmits
          obtain ⟨found, hfound, hadmitted⟩ := Constraint.meet_admits hadmits (hall hother)
          rw [hmeet] at hfound
          obtain rfl := Option.some.inj hfound
          exact hadmitted
        · rw [List.getElem?_set_ne hvb] at hv
          exact hall hv
      · intro hall v constraint hv
        by_cases hvb : b = v
        · subst hvb
          obtain rfl := Option.some.inj (hother.symm.trans hv)
          exact (Constraint.admits_of_meet hmeet (hall (List.getElem?_set_self hltb))).2
        · refine hall ?_
          rw [List.getElem?_set_ne hvb]
          exact hv

end Binding

section Structure

theorem unifyEach_nil (s : Solver) : s.unifyEach [] [] = some (s, .ok ()) := by
  rw [unifyEach.eq_def]

theorem unifyEach_cons (s : Solver) (l r : Ty) (ls rs : List Ty) :
    s.unifyEach (l :: ls) (r :: rs) = (do
      match ← s.unify l r with
      | (s, .ok _) => s.unifyEach ls rs
      | (s, .error mismatch) => return (s, .error mismatch)) :=
  unifyEach.eq_def s (l :: ls) (r :: rs)

theorem unifyEach_one (s : Solver) (l r : Ty) : s.unifyEach [l] [r] = s.unify l r := by
  rw [unifyEach_cons]
  cases h : s.unify l r with
  | none => rfl
  | some next =>
      obtain ⟨s', result⟩ := next
      cases result with
      | ok _ => exact unifyEach_nil s'
      | error mismatch => rfl

theorem unifyEach_two (s : Solver) (l l' r r' : Ty) :
    s.unifyEach [l, l'] [r, r'] = (do
      match ← s.unify l r with
      | (s, .ok _) => s.unify l' r'
      | (s, .error mismatch) => return (s, .error mismatch)) := by
  rw [unifyEach_cons]
  simp only [unifyEach_one]

theorem unifyEach_append (s : Solver) {ls rs : List Ty} (h : ls.length = rs.length) (l r : Ty) :
    s.unifyEach (ls ++ [l]) (rs ++ [r]) = (do
      match ← s.unifyEach ls rs with
      | (s, .ok _) => s.unify l r
      | (s, .error mismatch) => return (s, .error mismatch)) := by
  induction ls generalizing s rs with
  | nil =>
      obtain rfl := List.length_eq_zero_iff.mp h.symm
      rw [unifyEach_nil]
      exact unifyEach_one s l r
  | cons first ls ih =>
      cases rs with
      | nil => cases h
      | cons first' rs =>
          rw [List.cons_append, List.cons_append, unifyEach_cons, unifyEach_cons]
          cases s.unify first first' with
          | none => rfl
          | some next =>
              obtain ⟨s', result⟩ := next
              cases result with
              | ok _ => exact ih s' (Nat.succ.inj h)
              | error mismatch => rfl

theorem isVar_shape (t : Ty) : t.shape.isVar = t.isVar := by
  cases t <;> rfl

variable {l r : Ty}

theorem unify_children (s : Solver) (hshape : l.shape = r.shape)
    (hl : l.isVar = false) (hplain : l.shape ≠ .unknown) (hplain' : l.shape ≠ .nothing) :
    s.unify l r = s.unifyEach l.children r.children := by
  have hr : r.isVar = false := by
    rw [← isVar_shape, ← hshape, isVar_shape, hl]
  rw [unify.eq_def, s.shallow_of_isVar hl, s.shallow_of_isVar hr]
  cases l <;> cases r <;> first
    | (cases hshape; done)
    | (cases hl; done)
    | exact (unifyEach_nil s).symm
    | exact (unifyEach_one s _ _).symm
    | exact (unifyEach_two s _ _ _ _).symm
    | exact absurd rfl hplain
    | exact absurd rfl hplain'
    | skip
  -- what is left has a part that is compared
  · exact (if_pos (Ty.event.inj hshape)).trans (unifyEach_nil s).symm
  · exact (if_pos (Ty.named.inj hshape)).trans (unifyEach_nil s).symm
  · rename_i params result params' result'
    have hlength : params.length = params'.length := by
      simpa [Ty.shape] using hshape
    rw [show (Ty.function params result).children = params ++ [result] from rfl,
      show (Ty.function params' result').children = params' ++ [result'] from rfl,
      unifyEach_append s hlength]
    exact if_pos hlength

theorem unify_shapes (s : Solver) (hshape : l.shape ≠ r.shape)
    (hl : l.isVar = false) (hr : r.isVar = false) (hplain : l.shape ≠ .unknown)
    (hplain' : r.shape ≠ .unknown) : s.unify l r = some (s, .error .shape) := by
  rw [unify.eq_def, s.shallow_of_isVar hl, s.shallow_of_isVar hr]
  cases l <;> cases r <;> first
    | rfl
    | exact absurd rfl hshape
    | exact absurd rfl hplain
    | exact absurd rfl hplain'
    | (cases hl; done)
    | (cases hr; done)
    | skip
  case event.event payload payload' =>
    exact if_neg (fun h => hshape (by rw [h]))
  case named.named name name' =>
    exact if_neg (fun h => hshape (by rw [h]))
  case function.function params result params' result' =>
    exact if_neg (fun h => hshape (by simp [Ty.shape, h]))

variable {s : Solver}

/-- The equations of two lists, in order, when each can be unified in the state the ones
before it leave. -/
theorem unifyEach_spec {ls rs : List Ty} (hlength : ls.length = rs.length)
    (step : ∀ (s' : Solver) {l r : Ty}, (s' = s ∨ s'.freeCount < s.freeCount) →
      s'.WellFormed → s'.Scopes l → s'.Scopes r → l ∈ ls → r ∈ rs →
      ∃ s'' result, s'.unify l r = some (s'', result) ∧
        Outcome s' (l.isPlain = true ∧ r.isPlain = true) (fun σ => l.subst σ = r.subst σ) s''
          result)
    {s' : Solver} (hprogress : s' = s ∨ s'.freeCount < s.freeCount) (hs : s'.WellFormed)
    (hl : ∀ l ∈ ls, s'.Scopes l) (hr : ∀ r ∈ rs, s'.Scopes r) :
    ∃ s'' result, s'.unifyEach ls rs = some (s'', result) ∧
      Outcome s' ((∀ l ∈ ls, l.isPlain = true) ∧ ∀ r ∈ rs, r.isPlain = true)
        (fun σ => ls.map (Ty.subst σ) = rs.map (Ty.subst σ)) s'' result := by
  induction ls generalizing rs s' with
  | nil =>
      obtain rfl := List.length_eq_zero_iff.mp hlength.symm
      exact ⟨s', .ok (), unifyEach_nil s', .same hs (fun _ _ _ _ _ => rfl) (fun _ _ _ _ _ => rfl)⟩
  | cons l ls ih =>
      cases rs with
      | nil => cases hlength
      | cons r rs =>
          obtain ⟨s₁, result₁, hunify, hfirst⟩ := step s' hprogress hs (hl l List.mem_cons_self)
            (hr r List.mem_cons_self) List.mem_cons_self List.mem_cons_self
          rw [unifyEach_cons, hunify]
          have hplain : s'.Plain →
              ((∀ t ∈ l :: ls, t.isPlain = true) ∧ ∀ t ∈ r :: rs, t.isPlain = true) →
              (l.isPlain = true ∧ r.isPlain = true) ∧
                (∀ t ∈ ls, t.isPlain = true) ∧ ∀ t ∈ rs, t.isPlain = true := by
            rintro - ⟨hls, hrs⟩
            exact ⟨⟨hls l List.mem_cons_self, hrs r List.mem_cons_self⟩,
              fun t ht => hls t (List.mem_cons_of_mem _ ht),
              fun t ht => hrs t (List.mem_cons_of_mem _ ht)⟩
          have hholds : ∀ {σ : Nat → Ty}, Ty.terms.Solves s'.binds σ →
              ((l :: ls).map (Ty.subst σ) = (r :: rs).map (Ty.subst σ) ↔
                l.subst σ = r.subst σ ∧ ls.map (Ty.subst σ) = rs.map (Ty.subst σ)) := by
            intro σ _
            rw [List.map_cons, List.map_cons, List.cons.injEq]
          cases result₁ with
          | error mismatch =>
              exact ⟨s₁, .error mismatch, rfl, hfirst.stop.congr hplain hholds⟩
          | ok _ =>
              have hscope : ∀ {t : Ty}, s'.Scopes t → s₁.Scopes t := by
                intro t ht v hv
                rw [hfirst.length]
                exact ht v hv
              have hprogress₁ : s₁ = s ∨ s₁.freeCount < s.freeCount := by
                rcases hfirst.progress with rfl | hless
                · exact hprogress
                · rcases hprogress with rfl | hless'
                  · exact .inr hless
                  · exact .inr (hless.trans hless')
              obtain ⟨s'', result, heach, hrest⟩ := ih (Nat.succ.inj hlength)
                (fun s' _ _ hp hs hl hr hml hmr => step s' hp hs hl hr
                  (List.mem_cons_of_mem _ hml) (List.mem_cons_of_mem _ hmr))
                hprogress₁ hfirst.wellFormed
                (fun t ht => hscope (hl t (List.mem_cons_of_mem _ ht)))
                (fun t ht => hscope (hr t (List.mem_cons_of_mem _ ht)))
              exact ⟨s'', result, heach, (hfirst.trans hrest).congr hplain hholds⟩

theorem length_children (h : l.shape = r.shape) :
    l.children.length = r.children.length := by
  cases l <;> cases r <;> first
    | rfl
    | cases h
    | skip
  rename_i params _ params' _
  have hlength : params.length = params'.length := by
    simpa [Ty.shape] using h
  simp [Ty.children, hlength]

theorem eq_unknown {t : Ty} (h : t.shape = .unknown) : t = .unknown := by
  cases t <;> first
    | rfl
    | cases h

theorem eq_nothing {t : Ty} (h : t.shape = .nothing) : t = .nothing := by
  cases t <;> first
    | rfl
    | cases h

theorem unify_not_plain (hs : s.WellFormed) (hl : s.shallow l = some l) (hr : s.shallow r = some r)
    (h : l.shape = .unknown ∨ r.shape = .unknown ∨ l.shape = .nothing ∨ r.shape = .nothing) :
    ∃ result, s.unify l r = some (s, result) ∧
      Outcome s (l.isPlain = true ∧ r.isPlain = true) (fun σ => l.subst σ = r.subst σ) s
        result := by
  have hplain : ∀ {t : Ty}, t.shape = .unknown ∨ t.shape = .nothing → t.isPlain = false := by
    intro t ht
    cases t <;> first
      | rfl
      | (rcases ht with ht | ht <;> cases ht)
  have hfalse : ¬ (l.isPlain = true ∧ r.isPlain = true) := by
    rintro ⟨hlplain, hrplain⟩
    rcases h with h | h | h | h
    · rw [hplain (.inl h)] at hlplain
      cases hlplain
    · rw [hplain (.inl h)] at hrplain
      cases hrplain
    · rw [hplain (.inr h)] at hlplain
      cases hlplain
    · rw [hplain (.inr h)] at hrplain
      cases hrplain
  have hresult : ∃ result, s.unify l r = some (s, result) := by
    rw [unify.eq_def, hl, hr]
    rcases h with h | h | h | h
    · rw [eq_unknown h]
      cases r <;> exact ⟨_, rfl⟩
    · rw [eq_unknown h]
      cases l <;> exact ⟨_, rfl⟩
    · rw [eq_nothing h]
      cases r <;> exact ⟨_, rfl⟩
    · rw [eq_nothing h]
      cases l <;> exact ⟨_, rfl⟩
  obtain ⟨result, hunify⟩ := hresult
  exact ⟨result, hunify, .same hs (fun _ h => absurd h hfalse) (fun _ h => absurd h hfalse)⟩

theorem unify_concrete (hs : s.WellFormed) (hl : s.Scopes l) (hr : s.Scopes r)
    (hlvar : l.isVar = false) (hrvar : r.isVar = false)
    (step : ∀ (s' : Solver) {l' r' : Ty}, (s' = s ∨ s'.freeCount < s.freeCount) →
      s'.WellFormed → s'.Scopes l' → s'.Scopes r' → l' ∈ l.children → r' ∈ r.children →
      ∃ s'' result, s'.unify l' r' = some (s'', result) ∧
        Outcome s' (l'.isPlain = true ∧ r'.isPlain = true) (fun σ => l'.subst σ = r'.subst σ) s''
          result) :
    ∃ s' result, s.unify l r = some (s', result) ∧
      Outcome s (l.isPlain = true ∧ r.isPlain = true) (fun σ => l.subst σ = r.subst σ) s'
        result := by
  by_cases hplain : l.shape = .unknown ∨ r.shape = .unknown ∨ l.shape = .nothing ∨
      r.shape = .nothing
  · obtain ⟨result, hunify, houtcome⟩ := unify_not_plain hs (s.shallow_of_isVar hlvar)
      (s.shallow_of_isVar hrvar) hplain
    exact ⟨s, result, hunify, houtcome⟩
  simp only [not_or] at hplain
  obtain ⟨hlu, hru, hln, -⟩ := hplain
  by_cases hshape : l.shape = r.shape
  · rw [unify_children s hshape hlvar hlu hln]
    obtain ⟨s', result, heach, houtcome⟩ := unifyEach_spec (length_children hshape) step (.inl rfl)
      hs (fun _ => hl.child) (fun _ => hr.child)
    refine ⟨s', result, heach, houtcome.congr ?_ ?_⟩
    · rintro - ⟨hlplain, hrplain⟩
      exact ⟨fun _ => Ty.isPlain_child hlplain, fun _ => Ty.isPlain_child hrplain⟩
    · intro σ _
      rw [← Ty.children_subst hlvar, ← Ty.children_subst hrvar]
      constructor
      · intro hsame
        rw [hsame]
      · refine Ty.ext_children ?_
        rw [Ty.shape_subst hlvar, Ty.shape_subst hrvar, hshape]
  · refine ⟨s, .error .shape, unify_shapes s hshape hlvar hrvar hlu hru,
      .same hs ?_ (by rintro _ _ ⟨⟩)⟩
    intro _ _ σ _ hsame
    refine absurd ?_ hshape
    rw [← Ty.shape_subst hlvar σ, ← Ty.shape_subst hrvar σ, hsame]

theorem unify_follows {l r l' r' : Ty} (hl : s.Follows l l') (hr : s.Follows r r') :
    s.unify l r = s.unify l' r' := by
  rw [unify.eq_def, hl.shallow, hr.shallow]
  conv_rhs => rw [unify.eq_def, hl.settled.shallow, hr.settled.shallow]

theorem unify_free (hs : s.WellFormed) {id : Nat} {t : Ty} (hfree : s.bindings[id]? = some none)
    (ht : s.Scopes t) (hvar : t.isVar = false) :
    (∃ s' result, s.unify (.var id) t = some (s', result) ∧
        Outcome s ((Ty.var id).isPlain = true ∧ t.isPlain = true)
          (fun σ => σ id = t.subst σ) s' result) ∧
      ∃ s' result, s.unify t (.var id) = some (s', result) ∧
        Outcome s (t.isPlain = true ∧ (Ty.var id).isPlain = true)
          (fun σ => t.subst σ = σ id) s' result := by
  have hid := shallow_free hfree
  have hsettled := s.shallow_of_isVar hvar
  by_cases hplain : t.shape = .unknown ∨ t.shape = .nothing
  · constructor
    · obtain ⟨result, hunify, houtcome⟩ := unify_not_plain hs hid hsettled
        (hplain.elim (fun h => .inr (.inl h)) (fun h => .inr (.inr (.inr h))))
      exact ⟨s, result, hunify, houtcome⟩
    · obtain ⟨result, hunify, houtcome⟩ := unify_not_plain hs hsettled hid
        (hplain.elim .inl (fun h => .inr (.inr (.inl h))))
      exact ⟨s, result, hunify, houtcome⟩
  · rw [not_or] at hplain
    have hbind : s.unify (.var id) t = s.bind id t ∧ s.unify t (.var id) = s.bind id t := by
      rw [unify.eq_def, unify.eq_def s t, hid, hsettled]
      cases t <;> first
        | exact ⟨rfl, rfl⟩
        | exact absurd rfl hplain.1
        | exact absurd rfl hplain.2
        | cases hvar
    obtain ⟨s', result, hresult, houtcome⟩ := bind_spec hs hfree ht hvar
    constructor
    · exact ⟨s', result, hbind.1.trans hresult,
        houtcome.congr (fun _ h => h.2) (fun _ => Iff.rfl)⟩
    · exact ⟨s', result, hbind.2.trans hresult, houtcome.congr (fun _ h => h.1) (fun _ => eq_comm)⟩

theorem unify_vars (hs : s.WellFormed) {a b : Nat} (ha : s.bindings[a]? = some none)
    (hb : s.bindings[b]? = some none) :
    ∃ s' result, s.unify (.var a) (.var b) = some (s', result) ∧
      Outcome s True (fun σ => σ a = σ b) s' result := by
  have hunify : s.unify (.var a) (.var b) = if a = b then some (s, .ok ()) else s.merge a b := by
    rw [unify.eq_def, shallow_free ha, shallow_free hb]
    rfl
  rw [hunify]
  by_cases hab : a = b
  · subst hab
    exact ⟨s, .ok (), if_pos rfl, .same hs (fun _ _ _ _ _ => rfl) (fun _ _ _ _ _ => rfl)⟩
  · rw [if_neg hab]
    exact merge_spec hs ha hb hab

theorem unify_spec (hs : s.WellFormed) (hl : s.Scopes l) (hr : s.Scopes r) :
    ∃ s' result, s.unify l r = some (s', result) ∧
      Outcome s (l.isPlain = true ∧ r.isPlain = true) (fun σ => l.subst σ = r.subst σ) s'
        result := by
  -- the number of free variables goes down, or the resolved type gets smaller
  induction hn : s.freeCount using Nat.strong_induction_on generalizing s l r with
  | h n ihfree =>
      subst hn
      obtain ⟨ρ, hρ⟩ := hs.exists_resolution
      induction hk : sizeOf (l.subst ρ) using Nat.strong_induction_on generalizing l r with
      | h k ihsize =>
          subst hk
          obtain ⟨l', hlfollows⟩ := shallow_spec hs hl
          obtain ⟨r', hrfollows⟩ := shallow_spec hs hr
          suffices hsettled : ∃ s' result, s.unify l' r' = some (s', result) ∧
              Outcome s (l'.isPlain = true ∧ r'.isPlain = true)
                (fun σ => l'.subst σ = r'.subst σ) s' result by
            obtain ⟨s', result, hunify, houtcome⟩ := hsettled
            refine ⟨s', result, (unify_follows hlfollows hrfollows).trans hunify,
              houtcome.congr ?_ ?_⟩
            · rintro hplain ⟨hlplain, hrplain⟩
              exact ⟨hlfollows.plain hplain hlplain, hrfollows.plain hplain hrplain⟩
            · intro σ hσ
              rw [hlfollows.same hσ, hrfollows.same hσ]
          cases hlvar : l'.isVar with
          | true =>
              obtain ⟨a, rfl⟩ := Ty.isVar_eq_true hlvar
              cases hrvar : r'.isVar with
              | true =>
                  obtain ⟨b, rfl⟩ := Ty.isVar_eq_true hrvar
                  obtain ⟨s', result, hunify, houtcome⟩ :=
                    unify_vars hs (hlfollows.settled a rfl) (hrfollows.settled b rfl)
                  exact ⟨s', result, hunify,
                    houtcome.congr (fun _ _ => trivial) (fun _ => Iff.rfl)⟩
              | false =>
                  exact (unify_free hs (hlfollows.settled a rfl) hrfollows.inScope hrvar).1
          | false =>
              cases hrvar : r'.isVar with
              | true =>
                  obtain ⟨b, rfl⟩ := Ty.isVar_eq_true hrvar
                  exact (unify_free hs (hrfollows.settled b rfl) hlfollows.inScope hlvar).2
              | false =>
                  refine unify_concrete hs hlfollows.inScope hrfollows.inScope hlvar hrvar ?_
                  intro s' lc rc hprogress hs' hlc hrc hlmem _
                  rcases hprogress with rfl | hless
                  · exact ihsize _ (hlfollows.sizeOf_child hρ hlmem) hlc hrc rfl
                  · exact ihfree _ hless hs' hlc hrc rfl

end Structure

end Solver

end Types
end Zdeceptron
