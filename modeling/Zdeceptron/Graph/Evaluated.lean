import Zdeceptron.Graph.Mentions

/-!
# What a definition evaluates

The value of a signal is that of its initialiser; a body is evaluated when it is called.  The
block of a scheduled signal is none of these: it runs on a beat.
-/

namespace Zdeceptron
namespace Graph

open Relation

section Evaluated

variable (hir : Hir)

def definingExprs (id : DefId) : List Expr :=
  match hir.kind id with
  | some (.signal signal) => [signal.init]
  | some (.function function) => blockExprs function.body
  | some (.release release) => blockExprs release.body
  | _ => []

def scheduledExprs (id : DefId) : List Expr :=
  match (hir.signal id).bind Signal.schedule with
  | none => []
  | some body => blockExprs body

def Holds (wanted : Expr → Prop) (exprs : List Expr) : Prop :=
  ∃ top ∈ exprs, ∃ e : Expr, e.Within top ∧ wanted e

def Expr.Reads (t : DefId) (e : Expr) : Prop :=
  ∃ id, e = .ref id (.def_ t) ∧ (hir.signal t).isSome = true

def HasBody (f : DefId) : Prop :=
  (∃ function, hir.kind f = some (.function function)) ∨
    ∃ release, hir.kind f = some (.release release)

/-- A call of a function in either form, or of a release, which has the one form. -/
def Expr.Calls (f : DefId) (e : Expr) : Prop :=
  (∃ args, e = .call (.def_ f) args ∧ HasBody hir f) ∨
    ∃ id operand, e = .ofCall (.def_ f) id operand ∧
      ∃ function, hir.kind f = some (.function function)

def CallsIn (x f : DefId) : Prop := Holds (Expr.Calls hir f) (definingExprs hir x)

/-- The evaluation of a definition reads a signal, directly or through a chain of calls. -/
def EvaluationReads (x t : DefId) : Prop :=
  ∃ y, ReflTransGen (CallsIn hir) x y ∧ Holds (Expr.Reads hir t) (definingExprs hir y)

def Derives (s t : DefId) : Prop := (hir.signal s).isSome = true ∧ EvaluationReads hir s t

/-- The block of a scheduled signal reads a signal, directly or through a chain of calls. -/
def BeatReads (s t : DefId) : Prop :=
  Holds (Expr.Reads hir t) (scheduledExprs hir s) ∨
    ∃ f, Holds (Expr.Calls hir f) (scheduledExprs hir s) ∧ EvaluationReads hir f t

end Evaluated

section Walked

variable {hir : Hir} {id : DefId} {wanted : Expr → Prop} {found : Site → Prop}

/-- Sites that are those of expressions of a kind, and of no written place. -/
structure SitesOf (hir : Hir) (wanted : Expr → Prop) (found : Site → Prop) : Prop where
  own : ∀ e, (∃ site ∈ ownSites hir e, found site) ↔ wanted e
  place : ∀ locals op place, ∀ site ∈ placeSites hir locals op place, ¬ found site

theorem SitesOf.exprs (h : SitesOf hir wanted found) (top : Expr) :
    (∃ site ∈ exprSites hir top, found site) ↔ ∃ e : Expr, e.Within top ∧ wanted e := by
  constructor
  · rintro ⟨site, hsite, hfound⟩
    obtain ⟨e, hwithin, hown⟩ := (mem_exprSites_iff top).mp hsite
    exact ⟨e, hwithin, (h.own e).mp ⟨site, hown, hfound⟩⟩
  · rintro ⟨e, hwithin, hwanted⟩
    obtain ⟨site, hown, hfound⟩ := (h.own e).mpr hwanted
    exact ⟨site, mem_exprSites_of_mem hwithin hown, hfound⟩

theorem SitesOf.block (h : SitesOf hir wanted found) (body : Block) :
    (∃ site ∈ blockSites hir [] body, found site) ↔ Holds wanted (blockExprs body) := by
  constructor
  · rintro ⟨site, hsite, hfound⟩
    rcases (mem_blockSites body).mp hsite with ⟨top, htop, hin⟩ | ⟨m, -, hplace⟩
    · exact ⟨top, htop, (h.exprs top).mp ⟨site, hin, hfound⟩⟩
    · exact absurd hfound (h.place _ _ _ site hplace)
  · rintro ⟨top, htop, hwithin⟩
    obtain ⟨site, hin, hfound⟩ := (h.exprs top).mpr hwithin
    exact ⟨site, (mem_blockSites body).mpr (.inl ⟨top, htop, hin⟩), hfound⟩

def NoView (hir : Hir) (id : DefId) : Prop := ∀ nodes, hir.kind id ≠ some (.view nodes)

theorem mem_initSites (h : SitesOf hir wanted found) (hview : NoView hir id) :
    (∃ site ∈ initSitesOf hir id, found site) ↔
      Holds wanted (definingExprs hir id) ∨ Holds wanted (scheduledExprs hir id) := by
  have hnil : ¬ Holds wanted [] := fun ⟨_, hmem, _⟩ => List.not_mem_nil hmem
  unfold initSitesOf walkBody definingExprs scheduledExprs Hir.signal
  cases hkind : hir.kind id with
  | none => simp [hnil]
  | some kind =>
      cases kind with
      | view nodes => exact absurd hkind (hview nodes)
      | function function => simpa [hnil] using h.block function.body
      | release release => simpa [hnil] using h.block release.body
      | signal signal =>
          have hinit : Holds wanted [signal.init] ↔
              ∃ site ∈ exprSites hir signal.init, found site := by
            rw [h.exprs]
            simp only [Holds, List.mem_singleton, exists_eq_left]
          cases hschedule : signal.schedule with
          | none => simp [hschedule, hinit, hnil]
          | some body =>
              simp only [hschedule, Option.bind_some, hinit, ← h.block body]
              simp only [Bool.false_eq_true, if_false, List.append_nil, List.mem_append,
                or_and_right, exists_or]
      | foreign _ | record | choice | component => simp [hnil]

theorem reads_sites (t : DefId) :
    SitesOf hir (Expr.Reads hir t) (fun site => ∃ id, site = .read t id) := by
  constructor
  · intro e
    constructor
    · rintro ⟨site, hsite, id, rfl⟩
      cases e <;> simp only [ownSites, List.mem_singleton, List.not_mem_nil, reduceCtorEq] at hsite
      case ref id' res =>
        cases res <;> simp only [refSites, List.not_mem_nil] at hsite
        split_ifs at hsite with hsignal
        · cases List.mem_singleton.mp hsite
          exact ⟨_, rfl, hsignal⟩
        · exact absurd hsite List.not_mem_nil
      case call callee args =>
        cases callee <;> simp only [callSites, List.not_mem_nil] at hsite
        split at hsite <;> simp at hsite
      case ofCall callee id' operand =>
        cases callee <;> simp only [ofCallSites, List.not_mem_nil] at hsite
        split at hsite <;> simp at hsite
    · rintro ⟨id, rfl, hsignal⟩
      refine ⟨.read t id, ?_, id, rfl⟩
      simp [ownSites, refSites, hsignal]
  · rintro locals op ⟨place, base, path, span⟩ site hsite ⟨id, rfl⟩
    unfold placeSites at hsite
    cases base <;> simp at hsite
    all_goals split_ifs at hsite <;> simp at hsite

theorem calls_sites (f : DefId) : SitesOf hir (Expr.Calls hir f) (fun site => site = .call f) := by
  constructor
  · intro e
    constructor
    · rintro ⟨site, hsite, rfl⟩
      cases e <;> simp only [ownSites, List.mem_singleton, List.not_mem_nil, reduceCtorEq] at hsite
      case ref id' res =>
        cases res <;> simp only [refSites, List.not_mem_nil] at hsite
        split_ifs at hsite <;> simp at hsite
      case call callee args =>
        cases callee <;> simp only [callSites, List.not_mem_nil] at hsite
        split at hsite <;> simp at hsite
        · subst hsite
          exact .inl ⟨args, rfl, .inl ⟨_, ‹_›⟩⟩
        · subst hsite
          exact .inl ⟨args, rfl, .inr ⟨_, ‹_›⟩⟩
      case ofCall callee id' operand =>
        cases callee <;> simp only [ofCallSites, List.not_mem_nil] at hsite
        split at hsite <;> simp at hsite
        subst hsite
        exact .inr ⟨id', operand, rfl, _, ‹_›⟩
    · rintro (⟨args, rfl, ⟨function, hkind⟩ | ⟨release, hkind⟩⟩ |
        ⟨id, operand, rfl, function, hkind⟩)
      · exact ⟨_, by simp [ownSites, callSites, hkind], rfl⟩
      · exact ⟨_, by simp [ownSites, callSites, hkind], rfl⟩
      · exact ⟨_, by simp [ownSites, ofCallSites, hkind], rfl⟩
  · rintro locals op ⟨place, base, path, span⟩ site hsite rfl
    unfold placeSites at hsite
    cases base <;> simp at hsite
    all_goals split_ifs at hsite <;> simp at hsite

end Walked

end Graph
end Zdeceptron
