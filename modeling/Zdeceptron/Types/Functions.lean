import Mathlib.Data.List.AList
import Zdeceptron.Library.Machine
import Zdeceptron.Types.Region

/-!
# The check of functions

Functions are checked a component of the call graph at a time, callees first, and each
component is generalised after its bodies.  A body is what it does to the solver: any moves
on types that are at hand.
-/

namespace Zdeceptron
namespace Types

open Library

section Model

abbrev Written := { t : Ty // t.vars = [] }

structure Member where
  id : Nat
  arity : Nat
  release : Option (Written × Bool)

abbrev Component := List Member

def Component.ids (component : Component) : List Nat := component.map Member.id

/-- A declaration that is no function: a signal, or a foreign.  A name that nothing declares
is a variable of a foreign's type, numbered as first mentioned. -/
inductive Declaration
  | signal (id : Nat) (ty : Written)
  | foreign (id : Nat) (names : Nat) (ty : { t : Ty // ∀ v ∈ t.vars, v < names })

structure SchemeChecker where
  solver : Solver
  schemes : AList (fun _ : Nat => Scheme)
  /-- The types that the bodies of the component have come by. -/
  held : List Ty
  pending : Nat

inductive BodyMove
  | fresh (constraint : Constraint)
  | shallow (ty : Ty)
  | zonk (ty : Ty)
  | instantiate (id : Nat)
  | unify (left right : Ty)
  | require (ty : Ty) (constraint : Constraint)
  | defer

namespace SchemeChecker

def new : SchemeChecker := ⟨.new, ∅, [], 0⟩

def freshAll (s : Solver) : Nat → Option (Solver × List Ty)
  | 0 => some (s, [])
  | n + 1 => do
      let (s, t) ← s.fresh
      let (s, ts) ← freshAll s n
      return (s, t :: ts)

def declare (c : SchemeChecker) : Declaration → Option SchemeChecker
  | .signal id ty => some { c with schemes := c.schemes.insert id (.monomorphic ty) }
  | .foreign id names ty => do
      let (solver, fresh) ← freshAll c.solver names
      let quantified := (fresh.flatMap Ty.vars).map (fun v => (v, Constraint.any))
      let ty := ty.1.subst (fun i => fresh.getD i .unknown)
      return { c with solver := solver, schemes := c.schemes.insert id ⟨quantified, ty⟩ }

def resultType (s : Solver) : Option (Written × Bool) → Option (Solver × Ty)
  | some (gives, limited) => some (s, if limited then .option gives.1 else gives.1)
  | none => s.fresh

def enter (c : SchemeChecker) (member : Member) : Option SchemeChecker := do
  let (solver, params) ← freshAll c.solver member.arity
  let (solver, result) ← resultType solver member.release
  let ty := Ty.function params result
  return { c with
    solver := solver
    schemes := c.schemes.insert member.id (.monomorphic ty)
    held := ty :: c.held }

def AtHand (c : SchemeChecker) (t : Ty) : Prop := ∀ v ∈ t.vars, ∃ u ∈ c.held, v ∈ u.vars

instance (c : SchemeChecker) (t : Ty) : Decidable (c.AtHand t) :=
  inferInstanceAs (Decidable (∀ v ∈ t.vars, ∃ u ∈ c.held, v ∈ u.vars))

def hold (c : SchemeChecker) (t : Ty) : SchemeChecker := { c with held := t :: c.held }

def body (c : SchemeChecker) : BodyMove → Option SchemeChecker
  | .fresh constraint => do
      let (solver, t) ← c.solver.freshConstrained constraint
      return { c with solver := solver, held := t :: c.held }
  | .shallow ty => if c.AtHand ty then (c.solver.shallow ty).map c.hold else none
  | .zonk ty => if c.AtHand ty then (c.solver.zonk ty).map c.hold else none
  | .instantiate id => do
      let scheme ← c.schemes.lookup id
      let (solver, t) ← c.solver.instantiate scheme
      return { c with solver := solver, held := t :: c.held }
  | .unify left right =>
      if c.AtHand left ∧ c.AtHand right then do
        let (solver, _) ← c.solver.unify left right
        return { c with solver := solver }
      else none
  | .require ty constraint =>
      if c.AtHand ty then do
        let (solver, _) ← c.solver.require ty constraint
        return { c with solver := solver }
      else none
  | .defer => some { c with pending := c.pending + 1 }

def environment (c : SchemeChecker) (id : Nat) : Option (List Nat) :=
  c.schemes.entries.foldlM (fun env entry =>
    if entry.1 = id ∨ entry.2.quantified ≠ [] then some env
    else c.solver.freeVars entry.2.ty env) []

def generalize (c : SchemeChecker) (id : Nat) : Option SchemeChecker :=
  match c.schemes.lookup id with
  | none => some c
  | some scheme => do
      let free ← c.solver.freeVars scheme.ty []
      let env ← c.environment id
      let quantified ← (free.filter (fun v => !env.contains v)).mapM
        (fun v => (c.solver.constraints[v]?).map (fun constraint => (v, constraint)))
      return { c with schemes := c.schemes.insert id ⟨quantified, scheme.ty⟩ }

def close (c : SchemeChecker) (member : Member) : Option SchemeChecker :=
  match member.release with
  | some _ => some c
  | none => c.generalize member.id

def declaring : Machine SchemeChecker Declaration := ⟨declare⟩

def entering : Machine SchemeChecker Member := ⟨enter⟩

def bodies : Machine SchemeChecker BodyMove := ⟨body⟩

def closing : Machine SchemeChecker Member := ⟨close⟩

/-- Check the bodies of a component; whether one of them deferred an obligation. -/
def checkBodies (c : SchemeChecker) (component : Component) (moves : List BodyMove) :
    Option (SchemeChecker × Bool) := do
  let entered ← entering.run { c with held := [] } component
  let checked ← bodies.run entered moves
  return (checked, decide (entered.pending < checked.pending))

def checkComponent (c : SchemeChecker) (checked : Component × List BodyMove) :
    Option SchemeChecker := do
  let (c, deferred) ← c.checkBodies checked.1 checked.2
  if deferred then return c else closing.run c checked.1

def checking : Machine SchemeChecker (Component × List BodyMove) := ⟨checkComponent⟩

def checkFunctions (c : SchemeChecker) (order : List (Component × List BodyMove)) :
    Option SchemeChecker := checking.run c order

end SchemeChecker

end Model

namespace SchemeChecker

section Invariant

variable {c c' : SchemeChecker} {s' : Solver} {t : Ty} {v q id other : Nat} {g : Scheme}

def FreeInScheme (c : SchemeChecker) (id v : Nat) : Prop :=
  ∃ g, c.schemes.lookup id = some g ∧ c.solver.FreeIn v g.ty ∧ v ∉ g.ids

def Sealed (c : SchemeChecker) (q : Nat) : Prop :=
  ∃ id g, c.schemes.lookup id = some g ∧ q ∈ g.ids

/-- What is kept: a variable that a scheme is quantified over is not bound, and is free in no
scheme.  A function of a component that has been generalised, `(ids, id)` in `done`, is
quantified over all of its type that is free in no scheme outside. -/
structure Inv (c : SchemeChecker) (done : List (List Nat × Nat)) : Prop where
  wellFormed : c.solver.WellFormed
  scopes : ∀ id g, c.schemes.lookup id = some g → c.solver.ScopesScheme g
  unbound : ∀ q, c.Sealed q → c.solver.binds q = none
  apart : ∀ q id g, c.Sealed q → c.schemes.lookup id = some g → c.solver.FreeIn q g.ty →
    q ∈ g.ids
  known : ∀ ids id, (ids, id) ∈ done → ∃ g, c.schemes.lookup id = some g
  mentioned : ∀ ids id g, (ids, id) ∈ done → c.schemes.lookup id = some g →
    ∀ q ∈ g.ids, c.solver.FreeIn q g.ty
  exact : ∀ ids id g, (ids, id) ∈ done → c.schemes.lookup id = some g →
    ∀ v, c.solver.FreeIn v g.ty → v ∉ g.ids → ∃ other ∉ ids, c.FreeInScheme other v

/-- A type at hand: no variable that a scheme is quantified over is free in it. -/
structure Apart (c : SchemeChecker) (t : Ty) : Prop where
  scopes : c.solver.Scopes t
  free : ∀ q, c.Sealed q → ¬ c.solver.FreeIn q t

variable {done : List (List Nat × Nat)}

theorem Inv.sealed_lt (h : c.Inv done) (hq : c.Sealed q) : q < c.solver.bindings.length := by
  obtain ⟨id, g, hg, hmem⟩ := hq
  exact (h.scopes id g hg).ids q hmem

theorem Inv.spares (h : c.Inv done) (hspares : Solver.Spares c.Sealed c.solver s') :
    Inv { c with solver := s' } done := by
  have hs := h.wellFormed
  have hlength := hspares.grows.length
  refine ⟨hspares.grows.wellFormed, ?_, fun q hq => hspares.kept q hq, ?_, h.known, ?_, ?_⟩
  · intro id g hg
    have hscheme := h.scopes id g hg
    exact ⟨fun v hv => (hscheme.ty v hv).trans_le hlength,
      fun v hv => (hscheme.ids v hv).trans_le hlength, hscheme.nodup⟩
  · intro q id g hq hg hfree
    rcases hspares.freeIn_cases hs (h.scopes id g hg).ty hfree with ⟨-, hold⟩ | ⟨hnot, -⟩
    · exact h.apart q id g hq hg hold
    · exact absurd hq hnot
  · intro ids id g hdone hg q hq
    exact hspares.freeIn hs (h.scopes id g hg).ty ⟨id, g, hg, hq⟩
      (h.mentioned ids id g hdone hg q hq)
  · intro ids id g hdone hg v hfree hv
    rcases hspares.freeIn_cases hs (h.scopes id g hg).ty hfree with
      ⟨hsealed, hold⟩ | ⟨hnot, u, hu, hold, hcomes⟩
    · exact absurd (h.apart v id g hsealed hg hold) hv
    · have hug : u ∉ g.ids := fun hmem => hu ⟨id, g, hg, hmem⟩
      obtain ⟨other, hother, g', hg', hfree', -⟩ := h.exact ids id g hdone hg u hold hug
      refine ⟨other, hother, g', hg', ?_, fun hmem => hnot ⟨other, g', hg', hmem⟩⟩
      exact (Solver.freeIn_grows_iff hs hspares.grows (h.scopes other g' hg').ty).mpr
        ⟨u, hfree', hcomes⟩

theorem Apart.spares (h : c.Apart t) (hspares : Solver.Spares c.Sealed c.solver s') :
    Apart { c with solver := s' } t :=
  ⟨fun v hv => (h.scopes v hv).trans_le hspares.grows.length,
    fun q hq => hspares.apart t h.scopes h.free q hq⟩

end Invariant

section Bodies

variable {c c' : SchemeChecker} {s' : Solver} {t t' : Ty} {q : Nat}
  {done : List (List Nat × Nat)}

/-- The invariant while bodies are checked: what they have come by stays away from what
schemes are quantified over. -/
structure Checks (c : SchemeChecker) (done : List (List Nat × Nat)) : Prop where
  inv : c.Inv done
  held : ∀ t ∈ c.held, c.Apart t

def PairFree (s : Solver) (scheme : Scheme) : Prop := ∀ v ∈ scheme.ids, ¬ s.FreeInPair v scheme.ty

/-- A move that takes an instance takes one of a scheme without quantified variables in
pairs. -/
def BodyOk (c : SchemeChecker) : BodyMove → Prop
  | .instantiate id => ∀ scheme, c.schemes.lookup id = some scheme → PairFree c.solver scheme
  | _ => True

theorem Checks.atHand (h : c.Checks done) (ht : c.AtHand t) : c.Apart t := by
  have hs := h.inv.wellFormed
  obtain ⟨ρ, hρ⟩ := hs.exists_resolution
  have hscope : c.solver.Scopes t := by
    intro v hv
    obtain ⟨u, hu, hvu⟩ := ht v hv
    exact (h.held u hu).scopes v hvu
  refine ⟨hscope, fun q hq hfree => ?_⟩
  obtain ⟨v, hv, hqv⟩ := Ty.mem_vars_subst.mp ((Solver.freeIn_iff hs hρ hscope).mp hfree)
  obtain ⟨u, hu, hvu⟩ := ht v hv
  refine (h.held u hu).free q hq ?_
  rw [Solver.freeIn_iff hs hρ (h.held u hu).scopes]
  exact Ty.mem_vars_subst.mpr ⟨v, hvu, hqv⟩

theorem Apart.same (h : c.Apart t) (hs : c.solver.WellFormed) (hscope : c.solver.Scopes t')
    (hsame : ∀ ρ, Ty.terms.Resolution c.solver.binds ρ → t'.subst ρ = t.subst ρ) :
    c.Apart t' := by
  obtain ⟨ρ, hρ⟩ := hs.exists_resolution
  refine ⟨hscope, fun q hq hfree => h.free q hq ?_⟩
  rw [Solver.freeIn_iff hs hρ hscope, hsame ρ hρ] at hfree
  exact (Solver.freeIn_iff hs hρ h.scopes).mpr hfree

theorem Checks.hold (h : c.Checks done) (ht : c.Apart t) : (c.hold t).Checks done where
  inv := ⟨h.inv.wellFormed, h.inv.scopes, h.inv.unbound, h.inv.apart, h.inv.known,
    h.inv.mentioned, h.inv.exact⟩
  held t' ht' := by
    rcases List.mem_cons.mp ht' with rfl | ht'
    · exact ⟨ht.scopes, ht.free⟩
    · exact ⟨(h.held t' ht').scopes, (h.held t' ht').free⟩

theorem Checks.spares (h : c.Checks done) (hspares : Solver.Spares c.Sealed c.solver s') :
    Checks { c with solver := s' } done :=
  ⟨h.inv.spares hspares, fun t ht => (h.held t ht).spares hspares⟩

theorem Inv.of_binds (h : c.Inv done) (hgrows : c.solver.Grows s')
    (hbinds : s'.binds = c.solver.binds) : Solver.Spares c.Sealed c.solver s' :=
  .of_binds h.wellFormed hgrows hbinds h.unbound

variable {constraint : Constraint}

theorem freshConstrained_eq {s : Solver} (h : s.freshConstrained constraint = some (s', t)) :
    s'.binds = s.binds ∧ s'.bindings.length = s.bindings.length + 1 ∧
      t = .var s.bindings.length := by
  unfold Solver.freshConstrained at h
  split_ifs at h
  cases h
  exact ⟨s.binds_concat constraint, by simp, rfl⟩

theorem require_binds {s : Solver} {result : Except Mismatch Unit}
    (h : s.require t constraint = some (s', result)) : s'.binds = s.binds := by
  simp only [Solver.require, Option.bind_eq_bind, Option.bind_eq_some_iff] at h
  obtain ⟨t', -, h⟩ := h
  split at h
  · cases h
    rfl
  · simp only [Option.bind_eq_some_iff] at h
    obtain ⟨found, -, h⟩ := h
    split at h <;> cases h <;> rfl
  · split_ifs at h <;> cases h <;> rfl

theorem Inv.apart_new (h : c.Inv done) (hgrows : c.solver.Grows s')
    (hbinds : s'.binds = c.solver.binds)
    (hnew : ∀ v ∈ t.vars, c.solver.bindings.length ≤ v ∧ v < s'.bindings.length) :
    Apart { c with solver := s' } t := by
  obtain ⟨ρ, hρ⟩ := hgrows.wellFormed.exists_resolution
  have hscope : s'.Scopes t := fun v hv => (hnew v hv).2
  refine ⟨hscope, fun q hq hfree => ?_⟩
  obtain ⟨v, hv, hqv⟩ :=
    Ty.mem_vars_subst.mp ((Solver.freeIn_iff hgrows.wellFormed hρ hscope).mp hfree)
  have hnone : s'.binds v = none := by
    rw [hbinds, Solver.binds, List.getElem?_eq_none (hnew v hv).1]
    rfl
  rw [hρ.free v hnone] at hqv
  obtain rfl := List.mem_singleton.mp hqv
  exact absurd (h.sealed_lt hq) (Nat.not_lt.mpr (hnew q hv).1)

theorem Inv.instance (h : c.Inv done) {id : Nat} {scheme : Scheme}
    (hscheme : c.schemes.lookup id = some scheme) (hpair : PairFree c.solver scheme)
    (hinstance : c.solver.instantiate scheme = some (s', t)) :
    Solver.Extended c.solver scheme.quantified s' ∧ Apart { c with solver := s' } t := by
  have hs := h.wellFormed
  obtain ⟨ρ, hρ⟩ := hs.exists_resolution
  have hty := (h.scopes id scheme hscheme).ty
  obtain ⟨_, _, hsame, hextended, hscope, ht⟩ :=
    Solver.instantiate_spec hs hρ hty (Solver.hasRoom_of_instantiate hinstance)
  cases hinstance.symm.trans hsame
  refine ⟨hextended, hscope, fun q hq hfree => ?_⟩
  rw [Solver.freeIn_iff hextended.wellFormed (hextended.binds ▸ hρ) hscope] at hfree
  rcases Solver.freeIn_instance hs hρ hty hpair ht hfree with ⟨hle, -⟩ | ⟨hmem, hids⟩
  · exact absurd (h.sealed_lt hq) (Nat.not_lt.mpr hle)
  · exact hids (h.apart q id scheme hq hscheme hmem)

theorem Checks.body (h : c.Checks done) {move : BodyMove} (hok : c.BodyOk move)
    (hmove : c.body move = some c') : c'.Checks done ∧ c'.schemes = c.schemes := by
  have hs := h.inv.wellFormed
  cases move with
  | fresh constraint =>
      simp only [SchemeChecker.body, Option.bind_eq_bind, Option.bind_eq_some_iff] at hmove
      obtain ⟨⟨s', t⟩, hfresh, hmove⟩ := hmove
      cases hmove
      obtain ⟨hbinds, hlength, rfl⟩ := freshConstrained_eq hfresh
      have hgrows := Solver.freshConstrained_grows hs hfresh
      have hnew : Apart { c with solver := s' } (.var c.solver.bindings.length) := by
        refine h.inv.apart_new hgrows hbinds (fun v hv => ?_)
        rw [List.mem_singleton.mp hv]
        omega
      exact ⟨(h.spares (h.inv.of_binds hgrows hbinds)).hold hnew, rfl⟩
  | shallow ty =>
      simp only [SchemeChecker.body] at hmove
      split_ifs at hmove with hat
      obtain ⟨t', hshallow, rfl⟩ := Option.map_eq_some_iff.mp hmove
      have ht := h.atHand hat
      obtain ⟨t'', hfollows⟩ := Solver.shallow_spec hs ht.scopes
      cases hshallow.symm.trans hfollows.shallow
      exact ⟨h.hold (ht.same hs hfollows.inScope (fun ρ hρ => hfollows.same hρ.bound)), rfl⟩
  | zonk ty =>
      simp only [SchemeChecker.body] at hmove
      split_ifs at hmove with hat
      obtain ⟨t', hzonk, rfl⟩ := Option.map_eq_some_iff.mp hmove
      have ht := h.atHand hat
      obtain ⟨ρ, hρ⟩ := hs.exists_resolution
      cases hzonk.symm.trans (Solver.zonk_spec hs hρ ht.scopes)
      refine ⟨h.hold (ht.same hs (ht.scopes.resolved hs hρ) (fun σ hσ => ?_)), rfl⟩
      exact hσ.bound.subst_resolved hs.acyclic hρ ty
  | instantiate id =>
      simp only [SchemeChecker.body, Option.bind_eq_bind, Option.bind_eq_some_iff] at hmove
      obtain ⟨scheme, hscheme, ⟨s', t⟩, hinstance, hmove⟩ := hmove
      cases hmove
      obtain ⟨hextended, ht⟩ := h.inv.instance hscheme (hok scheme hscheme) hinstance
      have hgrows : c.solver.Grows s' :=
        ⟨hextended.wellFormed, by simp [hextended.bindings],
          fun hv => (congrFun hextended.binds _).trans hv⟩
      exact ⟨(h.spares (h.inv.of_binds hgrows hextended.binds)).hold ht, rfl⟩
  | unify left right =>
      simp only [SchemeChecker.body, Option.bind_eq_bind] at hmove
      split_ifs at hmove with hat
      obtain ⟨⟨s', result⟩, hunify, hmove⟩ := Option.bind_eq_some_iff.mp hmove
      cases hmove
      have hl := h.atHand hat.1
      have hr := h.atHand hat.2
      exact ⟨h.spares (Solver.unify_spares hs h.inv.unbound hl.scopes hr.scopes hl.free hr.free
        hunify), rfl⟩
  | require ty constraint =>
      simp only [SchemeChecker.body, Option.bind_eq_bind] at hmove
      split_ifs at hmove with hat
      obtain ⟨⟨s', result⟩, hrequire, hmove⟩ := Option.bind_eq_some_iff.mp hmove
      cases hmove
      have hgrows := Solver.require_grows hs (h.atHand hat).scopes hrequire
      exact ⟨h.spares (h.inv.of_binds hgrows (require_binds hrequire)), rfl⟩
  | defer =>
      cases hmove
      exact ⟨⟨⟨hs, h.inv.scopes, h.inv.unbound, h.inv.apart, h.inv.known, h.inv.mentioned,
        h.inv.exact⟩, fun t ht => ⟨(h.held t ht).scopes, (h.held t ht).free⟩⟩, rfl⟩

end Bodies

section Entering

variable {c c' : SchemeChecker} {s s' : Solver} {ts : List Ty} {t : Ty} {id n : Nat}
  {g g' : Scheme} {done : List (List Nat × Nat)}

variable {schemes : AList (fun _ : Nat => Scheme)}

theorem lookup_insert_cases {other : Nat} (h : (schemes.insert id g).lookup other = some g') :
    (other = id ∧ g' = g) ∨ (other ≠ id ∧ schemes.lookup other = some g') := by
  by_cases hother : other = id
  · subst hother
    rw [AList.lookup_insert] at h
    exact .inl ⟨rfl, (Option.some.inj h).symm⟩
  · rw [AList.lookup_insert_ne hother] at h
    exact .inr ⟨hother, h⟩

theorem lookup_insert_of_some {other : Nat}
    (hnew : schemes.lookup id = none) (h : schemes.lookup other = some g') :
    (schemes.insert id g).lookup other = some g' := by
  rw [AList.lookup_insert_ne, h]
  rintro rfl
  cases hnew.symm.trans h

theorem freshAll_spec (hs : s.WellFormed) (h : freshAll s n = some (s', ts)) :
    s.Grows s' ∧ s'.binds = s.binds ∧ s'.bindings.length = s.bindings.length + n ∧
      ts = (List.range' s.bindings.length n).map Ty.var := by
  induction n generalizing s ts with
  | zero =>
      cases h
      exact ⟨.refl hs, rfl, rfl, rfl⟩
  | succ n ih =>
      simp only [freshAll, Option.bind_eq_bind, Option.bind_eq_some_iff] at h
      obtain ⟨⟨s₁, t⟩, hfresh, ⟨s₂, rest⟩, hrest, h⟩ := h
      cases h
      obtain ⟨hbinds, hlength, rfl⟩ := freshConstrained_eq hfresh
      have hgrows := Solver.freshConstrained_grows hs hfresh
      obtain ⟨hgrows', hbinds', hlength', rfl⟩ := ih hgrows.wellFormed hrest
      refine ⟨hgrows.trans hgrows', hbinds'.trans hbinds, by omega, ?_⟩
      rw [List.range'_succ, hlength]
      rfl

theorem Checks.insert_monomorphic (h : c.Checks done) (ht : c.Apart t)
    (hnew : c.schemes.lookup id = none) :
    Checks { c with
      schemes := c.schemes.insert id (.monomorphic t), held := t :: c.held } done := by
  have hsealed {q : Nat} (hq : Sealed { c with
      schemes := c.schemes.insert id (.monomorphic t), held := t :: c.held } q) : c.Sealed q := by
    obtain ⟨other, g, hg, hmem⟩ := hq
    rcases lookup_insert_cases hg with ⟨-, rfl⟩ | ⟨-, hg⟩
    · exact absurd hmem List.not_mem_nil
    · exact ⟨other, g, hg, hmem⟩
  have hdone {ids : List Nat} {other : Nat} {g : Scheme} (hmem : (ids, other) ∈ done)
      (hg : (c.schemes.insert id (.monomorphic t)).lookup other = some g) :
      c.schemes.lookup other = some g := by
    rcases lookup_insert_cases hg with ⟨rfl, -⟩ | ⟨-, hg⟩
    · obtain ⟨g', hg'⟩ := h.inv.known ids other hmem
      cases hnew.symm.trans hg'
    · exact hg
  refine ⟨⟨h.inv.wellFormed, ?_, fun q hq => h.inv.unbound q (hsealed hq), ?_, ?_, ?_, ?_⟩, ?_⟩
  · intro other g hg
    rcases lookup_insert_cases hg with ⟨-, rfl⟩ | ⟨-, hg⟩
    · exact ⟨ht.scopes, fun v hv => absurd hv List.not_mem_nil, List.nodup_nil⟩
    · exact h.inv.scopes other g hg
  · intro q other g hq hg hfree
    rcases lookup_insert_cases hg with ⟨-, rfl⟩ | ⟨-, hg⟩
    · exact absurd hfree (ht.free q (hsealed hq))
    · exact h.inv.apart q other g (hsealed hq) hg hfree
  · intro ids other hmem
    obtain ⟨g, hg⟩ := h.inv.known ids other hmem
    exact ⟨g, lookup_insert_of_some hnew hg⟩
  · exact fun ids other g hmem hg => h.inv.mentioned ids other g hmem (hdone hmem hg)
  · intro ids other g hmem hg v hfree hv
    obtain ⟨outside, hout, g', hg', hfree'⟩ :=
      h.inv.exact ids other g hmem (hdone hmem hg) v hfree hv
    exact ⟨outside, hout, g', lookup_insert_of_some hnew hg', hfree'⟩
  · intro t' ht'
    rcases List.mem_cons.mp ht' with rfl | ht'
    · exact ⟨ht.scopes, fun q hq => ht.free q (hsealed hq)⟩
    · exact ⟨(h.held t' ht').scopes, fun q hq => (h.held t' ht').free q (hsealed hq)⟩

theorem Checks.enter (h : c.Checks done) {member : Member}
    (hnew : c.schemes.lookup member.id = none) (henter : c.enter member = some c') :
    c'.Checks done ∧ ∃ t, c'.schemes = c.schemes.insert member.id (.monomorphic t) := by
  simp only [SchemeChecker.enter, Option.bind_eq_bind, Option.bind_eq_some_iff] at henter
  obtain ⟨⟨s₁, params⟩, hparams, ⟨s₂, result⟩, hresult, henter⟩ := henter
  cases henter
  obtain ⟨hgrows, hbinds, hlength, rfl⟩ := freshAll_spec h.inv.wellFormed hparams
  have hresult' : s₁.Grows s₂ ∧ s₂.binds = s₁.binds ∧
      ∀ v ∈ result.vars, s₁.bindings.length ≤ v ∧ v < s₂.bindings.length := by
    cases hrelease : member.release with
    | none =>
        rw [hrelease] at hresult
        have hfresh : s₁.freshConstrained .any = some (s₂, result) := hresult
        obtain ⟨hb, hl, rfl⟩ := freshConstrained_eq hfresh
        refine ⟨Solver.freshConstrained_grows hgrows.wellFormed hfresh, hb, fun v hv => ?_⟩
        rw [List.mem_singleton.mp hv]
        omega
    | some gives =>
        obtain ⟨⟨gives, hclosed⟩, limited⟩ := gives
        rw [hrelease] at hresult
        cases hresult
        refine ⟨.refl hgrows.wellFormed, rfl, fun v hv => ?_⟩
        have hvars : (if limited = true then Ty.option gives else gives).vars = [] := by
          split_ifs <;> exact hclosed
        rw [hvars] at hv
        exact absurd hv List.not_mem_nil
  obtain ⟨hgrows', hbinds', hvars⟩ := hresult'
  have hspares := h.inv.of_binds (hgrows.trans hgrows') (hbinds'.trans hbinds)
  refine ⟨(h.spares hspares).insert_monomorphic ?_ hnew, _, rfl⟩
  refine h.inv.apart_new (hgrows.trans hgrows') (hbinds'.trans hbinds) (fun v hv => ?_)
  have hle := hgrows'.length
  rw [Ty.vars, List.mem_append, Ty.varsAll_eq_flatMap] at hv
  rcases hv with hv | hv
  · simp only [List.mem_flatMap, List.mem_map, List.mem_range'_1, exists_exists_and_eq_and, Ty.vars,
      List.mem_singleton] at hv
    obtain ⟨w, hw, rfl⟩ := hv
    omega
  · have := hvars v hv
    omega

end Entering

end SchemeChecker

end Types
end Zdeceptron
