import Zdeceptron.Graph.Evaluated
import Zdeceptron.Graph.Order
import Zdeceptron.Library.Worklist

/-!
# The cycle check of the derivations

One node for every signal, and an edge to each signal that is met from it through calls.  The
ordered maps and sets are lists, ascending.

* `cycle_check_iff`: when the check is about the initialisers.
-/

namespace Zdeceptron
namespace Graph

open Library Relation

section Check

/-- What is collected from a signal: the definitions still to be walked, the top first, those
met so far and the signals read. -/
structure Collect where
  frontier : List DefId
  seen : List DefId
  reads : List DefId

def insertId (id : DefId) (ids : List DefId) : List DefId :=
  if id ∈ ids then ids else ids.orderedInsert (· ≤ ·) id

def Collect.site (c : Collect) : Site → Collect
  | .read signal _ => { c with reads := insertId signal c.reads }
  | .call callee =>
      if callee ∈ c.seen then c
      else { c with frontier := callee :: c.frontier, seen := insertId callee c.seen }
  | _ => c

variable (hir : Hir)

def Collect.turn (c : Collect) : Option (Option Collect) :=
  match c.frontier with
  | [] => some none
  | at_ :: frontier =>
      some (some ((initSitesOf hir at_).foldl Collect.site { c with frontier := frontier }))

/-- The signals that are read from a signal on; `none` is a walk that does not end. -/
def readsOf (id : DefId) : Option (List DefId) :=
  (loop (Collect.turn hir) ⟨[id], [id], []⟩).map Collect.reads

def signalIds : List DefId :=
  (List.range hir.defs.length).filter (fun id => (hir.signal id).isSome)

def derivationEdges : Option Edges :=
  (signalIds hir).mapM (fun id => (readsOf hir id).map (fun reads => (id, reads)))

def derivationCycles : Option (List (List DefId)) :=
  (derivationEdges hir).bind stronglyConnected

structure GraphError where
  code : String
  message : String
  span : Span
  notes : List (Span × String)
deriving DecidableEq

def partOfCycle (id : DefId) : Option (Span × String) :=
  (hir.defs[id]?).map (fun d => (d.span, "`" ++ d.name ++ "` is part of the cycle"))

def cycleMessage (names : List String) : String :=
  "these signals are defined in terms of each other, so none of them has a value: " ++
    " → ".intercalate names ++ "."

/-- The error about a cycle; `none` is a panic. -/
def cycleError (cycle : List DefId) : Option GraphError := do
  let names ← cycle.mapM (fun id => (hir.defs[id]?).map Def.name)
  let notes ← cycle.mapM (partOfCycle hir)
  let first ← cycle.head?
  let d ← hir.defs[first]?
  return ⟨"E0320", cycleMessage names, d.span, notes⟩

def derivationCycleCheck : Option (List GraphError × List DefId) := do
  let edges ← derivationEdges hir
  let cycles ← stronglyConnected edges
  let diagnostics ← cycles.mapM (cycleError hir)
  return (diagnostics, topological edges)

end Check

section Collected

variable {hir : Hir} {c : Collect} {sites : List Site}

@[simp] theorem mem_insertId {id other : DefId} {ids : List DefId} :
    other ∈ insertId id ids ↔ other = id ∨ other ∈ ids := by
  unfold insertId
  split_ifs with h
  · constructor
    · exact .inr
    · rintro (rfl | hmem)
      · exact h
      · exact hmem
  · exact List.mem_orderedInsert (· ≤ ·)

def CallsAt (hir : Hir) (x f : DefId) : Prop := .call f ∈ initSitesOf hir x

def ReadsAt (hir : Hir) (x t : DefId) : Prop := ∃ id, .read t id ∈ initSitesOf hir x

structure Added (c : Collect) (sites : List Site) (c' : Collect) : Prop where
  reads : ∀ t, t ∈ c'.reads ↔ t ∈ c.reads ∨ ∃ id, .read t id ∈ sites
  seen : ∀ f, f ∈ c'.seen ↔ f ∈ c.seen ∨ .call f ∈ sites
  frontier : ∀ f, f ∈ c'.frontier ↔ f ∈ c.frontier ∨ f ∉ c.seen ∧ .call f ∈ sites

theorem Added.nil (c : Collect) : Added c [] c := ⟨by simp, by simp, by simp⟩

theorem site_added (c : Collect) (site : Site) : Added c [site] (c.site site) := by
  cases site with
  | read signal id =>
      refine ⟨fun t => ?_, by simp [Collect.site], by simp [Collect.site]⟩
      simp only [Collect.site, mem_insertId, List.mem_singleton, Site.read.injEq]
      constructor
      · rintro (rfl | h)
        · exact .inr ⟨id, rfl, rfl⟩
        · exact .inl h
      · rintro (h | ⟨_, rfl, -⟩)
        · exact .inr h
        · exact .inl rfl
  | call callee =>
      simp only [Collect.site]
      split_ifs with hseen
      · refine ⟨by simp, fun f => ?_, fun f => ?_⟩
        · simp only [List.mem_singleton, Site.call.injEq]
          exact ⟨.inl, Or.rec id (fun h => h ▸ hseen)⟩
        · simp only [List.mem_singleton, Site.call.injEq]
          exact ⟨.inl, Or.rec id (fun h => absurd (h.2 ▸ hseen) h.1)⟩
      · refine ⟨by simp, fun f => ?_, fun f => ?_⟩
        · simp only [mem_insertId, List.mem_singleton, Site.call.injEq]
          exact or_comm
        · rw [List.mem_cons, List.mem_singleton, Site.call.injEq]
          constructor
          · rintro (rfl | h)
            · exact .inr ⟨hseen, rfl⟩
            · exact .inl h
          · rintro (h | ⟨-, rfl⟩)
            · exact .inr h
            · exact .inl rfl
  | _ => exact ⟨by simp [Collect.site], by simp [Collect.site], by simp [Collect.site]⟩

theorem Added.trans {c' c'' : Collect} {rest : List Site} (h : Added c sites c')
    (hrest : Added c' rest c'') : Added c (sites ++ rest) c'' := by
  refine ⟨fun t => ?_, fun f => ?_, fun f => ?_⟩
  · simp only [hrest.reads, h.reads, List.mem_append, exists_or, or_assoc]
  · simp only [hrest.seen, h.seen, List.mem_append, or_assoc]
  · simp only [hrest.frontier, h.frontier, h.seen, List.mem_append]
    tauto

theorem foldl_added (sites : List Site) (c : Collect) :
    Added c sites (sites.foldl Collect.site c) := by
  induction sites generalizing c with
  | nil => exact .nil c
  | cons site sites ih => exact (site_added c site).trans (ih _)

def Collect.left (hir : Hir) (c : Collect) : Nat :=
  (remaining (List.range hir.defs.length) c.seen).length + c.frontier.length

theorem site_left (site : Site) (h : ∀ f, site = .call f → f < hir.defs.length) :
    (c.site site).left hir ≤ c.left hir := by
  cases site with
  | call callee =>
      simp only [Collect.site]
      split_ifs with hseen
      · exact Nat.le_refl _
      · have hsub : c.seen ⊆ insertId callee c.seen := fun f hf => mem_insertId.mpr (.inr hf)
        have hlt := remaining_lt hsub (List.mem_range.mpr (h callee rfl)) hseen
          (mem_insertId.mpr (.inl rfl))
        simp only [Collect.left, List.length_cons]
        omega
  | _ => exact Nat.le_refl _

theorem foldl_left (h : ∀ f, .call f ∈ sites → f < hir.defs.length) (c : Collect) :
    (sites.foldl Collect.site c).left hir ≤ c.left hir := by
  induction sites generalizing c with
  | nil => exact Nat.le_refl _
  | cons site sites ih =>
      have hfirst : (c.site site).left hir ≤ c.left hir :=
        site_left site (fun f hf => h f (hf ▸ List.mem_cons_self))
      exact (ih (fun f hf => h f (List.mem_cons_of_mem _ hf)) _).trans hfirst

theorem lt_of_kind {id : DefId} {kind : DefKind} (h : hir.kind id = some kind) :
    id < hir.defs.length := by
  obtain ⟨d, hd, -⟩ := Option.map_eq_some_iff.mp h
  exact (List.getElem?_eq_some_iff.mp hd).choose

theorem hasBody_of_calls {f : DefId} {exprs : List Expr} (h : Holds (Expr.Calls hir f) exprs) :
    HasBody hir f := by
  obtain ⟨_, -, _, -, ⟨_, _, hkind⟩ | ⟨_, _, _, hkind⟩⟩ := h
  · exact hkind
  · exact .inl hkind

theorem HasBody.exprs {f : DefId} (h : HasBody hir f) :
    NoView hir f ∧ scheduledExprs hir f = [] := by
  obtain ⟨_, hkind⟩ | ⟨_, hkind⟩ := h <;> simp [NoView, scheduledExprs, Hir.signal, hkind]

end Collected

section Reached

variable {hir : Hir} {id : DefId}

/-- What a search keeps: it walks what calls reach, and of what is no longer to be walked it
has met the callees and holds the reads. -/
structure Collecting (hir : Hir) (id : DefId) (c : Collect) : Prop where
  root : id ∈ c.seen
  frontier : c.frontier ⊆ c.seen
  reached : ∀ x ∈ c.seen, ReflTransGen (CallsAt hir) id x
  sound : ∀ t ∈ c.reads, ∃ x, ReflTransGen (CallsAt hir) id x ∧ ReadsAt hir x t
  called : ∀ x ∈ c.seen, x ∉ c.frontier → ∀ f, CallsAt hir x f → f ∈ c.seen
  collected : ∀ x ∈ c.seen, x ∉ c.frontier → ∀ t, ReadsAt hir x t → t ∈ c.reads

theorem Collecting.start (id : DefId) : Collecting hir id ⟨[id], [id], []⟩ := by
  refine ⟨List.mem_singleton_self id, List.Subset.refl _, ?_, ?_, ?_, ?_⟩
  · rintro x hx
    rw [List.mem_singleton.mp hx]
  · intro t ht
    exact absurd ht List.not_mem_nil
  · exact fun x hx hx' => absurd hx hx'
  · exact fun x hx hx' => absurd hx hx'

theorem Collecting.turn {at_ : DefId} {frontier seen reads : List DefId} {c' : Collect}
    (h : Collecting hir id ⟨at_ :: frontier, seen, reads⟩)
    (hadded : Added ⟨frontier, seen, reads⟩ (initSitesOf hir at_) c') : Collecting hir id c' := by
  have hat : ReflTransGen (CallsAt hir) id at_ := h.reached at_ (h.frontier List.mem_cons_self)
  have hfrontier {x : DefId} (hx : x ∈ seen) (hx' : x ∉ c'.frontier) (hne : x ≠ at_) :
      x ∉ at_ :: frontier := by
    rw [List.mem_cons, not_or]
    exact ⟨hne, fun hmem => hx' ((hadded.frontier x).mpr (.inl hmem))⟩
  have hold {x : DefId} (hx : x ∈ c'.seen) (hx' : x ∉ c'.frontier) : x ∈ seen := by
    rcases (hadded.seen x).mp hx with hseen | hcall
    · exact hseen
    · by_contra hseen
      exact hx' ((hadded.frontier x).mpr (.inr ⟨hseen, hcall⟩))
  refine ⟨(hadded.seen id).mpr (.inl h.root), ?_, ?_, ?_, ?_, ?_⟩
  · intro x hx
    rcases (hadded.frontier x).mp hx with hx | ⟨-, hcall⟩
    · exact (hadded.seen x).mpr (.inl (h.frontier (List.mem_cons_of_mem at_ hx)))
    · exact (hadded.seen x).mpr (.inr hcall)
  · intro x hx
    rcases (hadded.seen x).mp hx with hx | hcall
    · exact h.reached x hx
    · exact hat.tail hcall
  · intro t ht
    rcases (hadded.reads t).mp ht with ht | hread
    · exact h.sound t ht
    · exact ⟨at_, hat, hread⟩
  · intro x hx hx' f hf
    by_cases hne : x = at_
    · subst hne
      exact (hadded.seen f).mpr (.inr hf)
    · have hxseen := hold hx hx'
      exact (hadded.seen f).mpr (.inl (h.called x hxseen (hfrontier hxseen hx' hne) f hf))
  · intro x hx hx' t ht
    by_cases hne : x = at_
    · subst hne
      exact (hadded.reads t).mpr (.inr ht)
    · have hxseen := hold hx hx'
      exact (hadded.reads t).mpr (.inl (h.collected x hxseen (hfrontier hxseen hx' hne) t ht))

theorem readsOf_calls (hbound : ∀ x f, ReflTransGen (CallsAt hir) id x → CallsAt hir x f →
      f < hir.defs.length) :
    ∃ reads, readsOf hir id = some reads ∧
      ∀ t, t ∈ reads ↔ ∃ x, ReflTransGen (CallsAt hir) id x ∧ ReadsAt hir x t := by
  have hstep (c : Collect) (h : Collecting hir id c) :
      c.turn hir = some none ∨
        ∃ c', c.turn hir = some (some c') ∧ Collecting hir id c' ∧ c'.left hir < c.left hir := by
    obtain ⟨frontier, seen, reads⟩ := c
    cases frontier with
    | nil => exact .inl rfl
    | cons at_ frontier =>
        refine .inr ⟨_, rfl, h.turn (foldl_added _ _), ?_⟩
        have hat := h.reached at_ (h.frontier List.mem_cons_self)
        have hle := foldl_left (fun f hf => hbound at_ f hat hf) ⟨frontier, seen, reads⟩
        refine Nat.lt_of_le_of_lt hle ?_
        simp [Collect.left]
  obtain ⟨⟨frontier, seen, reads⟩, hloop, h, hdone⟩ := loop_spec hstep (Collecting.start id)
  have hfrontier : frontier = [] := by
    cases frontier with
    | nil => rfl
    | cons at_ frontier => cases hdone
  subst hfrontier
  refine ⟨reads, by rw [readsOf, hloop, Option.map_some], fun t => ⟨h.sound t, ?_⟩⟩
  rintro ⟨x, hx, hread⟩
  refine h.collected x ?_ List.not_mem_nil t hread
  clear hread
  induction hx with
  | refl => exact h.root
  | tail _ hcall ih => exact h.called _ ih List.not_mem_nil _ hcall

end Reached

section Signals

variable {hir : Hir} {s t x f : DefId}

theorem callsAt_iff (hview : NoView hir x) (f : DefId) :
    CallsAt hir x f ↔ CallsIn hir x f ∨ Holds (Expr.Calls hir f) (scheduledExprs hir x) := by
  rw [CallsIn, ← mem_initSites (calls_sites f) hview]
  simp [CallsAt]

theorem readsAt_iff (hview : NoView hir x) (t : DefId) :
    ReadsAt hir x t ↔ Holds (Expr.Reads hir t) (definingExprs hir x) ∨
        Holds (Expr.Reads hir t) (scheduledExprs hir x) := by
  rw [← mem_initSites (reads_sites t) hview]
  constructor
  · rintro ⟨id, h⟩
    exact ⟨_, h, id, rfl⟩
  · rintro ⟨_, h, id, rfl⟩
    exact ⟨id, h⟩

theorem hasBody_of_callsAt (hview : NoView hir x) (h : CallsAt hir x f) : HasBody hir f := by
  rcases (callsAt_iff hview f).mp h with h | h
  · exact hasBody_of_calls h
  · exact hasBody_of_calls h

theorem noView_of_reached (hview : NoView hir s) (h : ReflTransGen (CallsAt hir) s x) :
    NoView hir x := by
  induction h with
  | refl => exact hview
  | tail _ hcall ih => exact (hasBody_of_callsAt ih hcall).exprs.1

theorem not_holds_nil {wanted : Expr → Prop} : ¬ Holds wanted [] := by
  rintro ⟨_, h, -⟩
  exact List.not_mem_nil h

theorem HasBody.reached_iff (h : HasBody hir f) :
    ReflTransGen (CallsAt hir) f x ↔ ReflTransGen (CallsIn hir) f x := by
  have hcalls {y g : DefId} (hy : HasBody hir y) : CallsAt hir y g ↔ CallsIn hir y g := by
    rw [callsAt_iff hy.exprs.1, hy.exprs.2, or_iff_left not_holds_nil]
  constructor
  · intro hreach
    suffices ReflTransGen (CallsIn hir) f x ∧ HasBody hir x from this.1
    induction hreach with
    | refl => exact ⟨.refl, h⟩
    | tail _ hcall ih =>
        have hin := (hcalls ih.2).mp hcall
        exact ⟨ih.1.tail hin, hasBody_of_calls hin⟩
  · intro hreach
    suffices ReflTransGen (CallsAt hir) f x ∧ HasBody hir x from this.1
    induction hreach with
    | refl => exact ⟨.refl, h⟩
    | tail _ hcall ih => exact ⟨ih.1.tail ((hcalls ih.2).mpr hcall), hasBody_of_calls hcall⟩

theorem HasBody.of_reached (h : HasBody hir f) (hreach : ReflTransGen (CallsIn hir) f x) :
    HasBody hir x := by
  induction hreach with
  | refl => exact h
  | tail _ hcall _ => exact hasBody_of_calls hcall

theorem HasBody.reads_iff (h : HasBody hir f) (t : DefId) :
    (∃ x, ReflTransGen (CallsAt hir) f x ∧ ReadsAt hir x t) ↔ EvaluationReads hir f t := by
  refine exists_congr (fun x => ?_)
  rw [h.reached_iff]
  refine and_congr_right (fun hreach => ?_)
  have hx := (h.of_reached hreach).exprs
  rw [readsAt_iff hx.1, hx.2, or_iff_left not_holds_nil]

theorem exists_reached {r : DefId → DefId → Prop} {p : DefId → Prop} :
    (∃ x, ReflTransGen r s x ∧ p x) ↔ p s ∨ ∃ f, r s f ∧ ∃ x, ReflTransGen r f x ∧ p x := by
  constructor
  · rintro ⟨x, hreach, hx⟩
    rcases hreach.cases_head with rfl | ⟨f, hf, hreach⟩
    · exact .inl hx
    · exact .inr ⟨f, hf, x, hreach, hx⟩
  · rintro (hs | ⟨f, hf, x, hreach, hx⟩)
    · exact ⟨s, .refl, hs⟩
    · exact ⟨x, hreach.head hf, hx⟩

theorem noView_of_signal (h : (hir.signal s).isSome = true) : NoView hir s := by
  intro nodes hkind
  simp [Hir.signal, hkind] at h

theorem readsOf_spec (h : (hir.signal s).isSome = true) :
    ∃ reads, readsOf hir s = some reads ∧
      ∀ t, t ∈ reads ↔ EvaluationReads hir s t ∨ BeatReads hir s t := by
  have hview := noView_of_signal h
  have hbound (x f : DefId) (hx : ReflTransGen (CallsAt hir) s x) (hf : CallsAt hir x f) :
      f < hir.defs.length := by
    obtain ⟨_, hkind⟩ | ⟨_, hkind⟩ := hasBody_of_callsAt (noView_of_reached hview hx) hf
    · exact lt_of_kind hkind
    · exact lt_of_kind hkind
  obtain ⟨reads, hreads, hspec⟩ := readsOf_calls hbound
  refine ⟨reads, hreads, fun t => (hspec t).trans ?_⟩
  have hbelow : (∃ f, CallsAt hir s f ∧ ∃ x, ReflTransGen (CallsAt hir) f x ∧ ReadsAt hir x t) ↔
      ∃ f, CallsAt hir s f ∧ EvaluationReads hir f t :=
    exists_congr (fun f => and_congr_right (fun hf => (hasBody_of_callsAt hview hf).reads_iff t))
  rw [exists_reached, hbelow, EvaluationReads, exists_reached, BeatReads, readsAt_iff hview]
  simp only [callsAt_iff hview, or_and_right, exists_or, EvaluationReads]
  exact or_or_or_comm

end Signals

section Edges

variable {hir : Hir} {s t : DefId}

/-- What the initialiser of a signal reads, or the block that its beat runs. -/
def Walks (hir : Hir) (s t : DefId) : Prop :=
  (hir.signal s).isSome = true ∧ (EvaluationReads hir s t ∨ BeatReads hir s t)

theorem mem_signalIds : s ∈ signalIds hir ↔ (hir.signal s).isSome = true := by
  rw [signalIds, List.mem_filter, List.mem_range, and_iff_right_iff_imp]
  intro h
  cases hkind : hir.kind s with
  | none => simp [Hir.signal, hkind] at h
  | some kind => exact lt_of_kind hkind

theorem signal_of_holds {exprs : List Expr} (h : Holds (Expr.Reads hir t) exprs) :
    (hir.signal t).isSome = true := by
  obtain ⟨_, -, _, -, _, -, hsignal⟩ := h
  exact hsignal

theorem Walks.signal (h : Walks hir s t) : (hir.signal t).isSome = true := by
  obtain ⟨-, ⟨_, -, hreads⟩ | hreads | ⟨_, -, _, -, hreads⟩⟩ := h
  · exact signal_of_holds hreads
  · exact signal_of_holds hreads
  · exact signal_of_holds hreads

theorem nodup_signalIds (hir : Hir) : (signalIds hir).Nodup := List.nodup_range.filter _

theorem mapM_some {α β : Type} {g : α → Option β} {h : α → β} {xs : List α}
    (hg : ∀ x ∈ xs, g x = some (h x)) : xs.mapM g = some (xs.map h) := by
  induction xs with
  | nil => rfl
  | cons x xs ih =>
      have hrest := ih (fun y hy => hg y (List.mem_cons_of_mem x hy))
      rw [List.mapM_cons, hg x List.mem_cons_self, hrest]
      rfl

theorem derivationEdges_spec (hir : Hir) :
    ∃ edges, derivationEdges hir = some edges ∧ edges.keys = signalIds hir ∧
      edges.Leads = Walks hir := by
  let entry (id : DefId) : DefId × List DefId := (id, (readsOf hir id).getD [])
  have hentry : ∀ id ∈ signalIds hir,
      (readsOf hir id).map (fun reads => (id, reads)) = some (entry id) := by
    intro id hid
    obtain ⟨reads, hreads, -⟩ := readsOf_spec (mem_signalIds.mp hid)
    simp only [entry, hreads, Option.map_some, Option.getD_some]
  have hkeys : Edges.keys ((signalIds hir).map entry) = signalIds hir := by
    rw [Edges.keys, List.map_map]
    exact List.map_id _
  refine ⟨_, mapM_some hentry, hkeys, funext₂ (fun x y => propext ?_)⟩
  rw [Edges.Leads, ← Search.mem_keys, hkeys, mem_signalIds]
  by_cases hx : (hir.signal x).isSome = true
  · obtain ⟨reads, hreads, hspec⟩ := readsOf_spec hx
    have hneighbours : Edges.neighbours ((signalIds hir).map entry) x = reads := by
      have hnodup : (Edges.keys ((signalIds hir).map entry)).Nodup := by
        rw [hkeys]
        exact nodup_signalIds hir
      have := neighbours_of_mem hnodup (List.mem_map_of_mem (mem_signalIds.mpr hx))
      simpa [entry, hreads] using this
    rw [hneighbours, hspec]
    constructor
    · exact fun h => ⟨hx, h.1⟩
    · exact fun h => ⟨h.2, h.signal⟩
  · have hnone : Edges.get ((signalIds hir).map entry) x = none := by
      rw [← Option.not_isSome_iff_eq_none]
      intro hsome
      rw [← mem_signalIds, ← hkeys] at hx
      exact hx (Search.mem_keys.mpr hsome)
    rw [Edges.neighbours, hnone, Option.getD_none]
    constructor
    · exact fun h => absurd h.1 List.not_mem_nil
    · exact fun h => absurd h.1 hx

end Edges

section Verdict

variable {hir : Hir} {s t : DefId}

def OnCycle (leads : DefId → DefId → Prop) (s t : DefId) : Prop :=
  TransGen leads s t ∧ TransGen leads t s

/-- What the check says is about the initialisers: it reports exactly when one of them needs
its own signal, each time the signals of one component, and else the order has every signal
after those its initialiser reads. -/
structure AboutInitialisers (hir : Hir) (groups : List (List DefId))
    (diagnostics : List GraphError) (order : List DefId) : Prop where
  found : derivationCycles hir = some groups
  diagnosed : groups.mapM (cycleError hir) = some diagnostics
  reported : (∃ d ∈ diagnostics, d.code = "E0320") ↔ ∃ s, TransGen (Derives hir) s s
  components : ∀ group ∈ groups, IsCycle (Derives hir) group
  ordered : (¬ ∃ d ∈ diagnostics, d.code = "E0320") →
    order.Perm (signalIds hir) ∧ ∀ s t, Derives hir s t → order.idxOf t < order.idxOf s

/-- No block of a scheduled signal closes a cycle that the initialisers leave open. -/
def BlocksCloseNone (hir : Hir) : Prop :=
  ∀ s t, (hir.signal s).isSome = true → BeatReads hir s t → ReflTransGen (Walks hir) t s →
    OnCycle (Derives hir) s t

theorem Derives.walks (h : Derives hir s t) : Walks hir s t := ⟨h.1, .inl h.2⟩

theorem BlocksCloseNone.derives (h : BlocksCloseNone hir) (hst : TransGen (Walks hir) s t)
    (hts : ReflTransGen (Walks hir) t s) : TransGen (Derives hir) s t := by
  have hedge {x y : DefId} (hxy : Walks hir x y) (hyx : ReflTransGen (Walks hir) y x) :
      TransGen (Derives hir) x y := by
    rcases hxy with ⟨hx, hreads | hbeat⟩
    · exact .single ⟨hx, hreads⟩
    · exact (h x y hx hbeat hyx).1
  induction hst with
  | single hst => exact hedge hst hts
  | tail hsx hxy ih =>
      have hyx := hts.trans hsx.to_reflTransGen
      exact (ih (hts.head hxy)).trans (hedge hxy hyx)

variable {group : List DefId}

theorem BlocksCloseNone.isCycle (h : BlocksCloseNone hir)
    (hgroup : IsCycle (Walks hir) group) : IsCycle (Derives hir) group := by
  have hreach {v w : DefId} (hvw : ReflTransGen (Walks hir) v w)
      (hwv : ReflTransGen (Walks hir) w v) : ReflTransGen (Derives hir) v w := by
    rcases reflTransGen_iff_eq_or_transGen.mp hvw with rfl | hvw
    · exact .refl
    · exact (h.derives hvw hwv).to_reflTransGen
  refine ⟨hgroup.nodup, ?_, ?_⟩
  · obtain ⟨v, hv, hcycle⟩ := hgroup.cyclic
    exact ⟨v, hv, h.derives hcycle .refl⟩
  · intro v hv w
    rw [hgroup.together v hv w]
    constructor
    · exact fun ⟨hvw, hwv⟩ => ⟨hreach hvw hwv, hreach hwv hvw⟩
    · exact fun ⟨hvw, hwv⟩ =>
        ⟨hvw.lift id (fun _ _ => Derives.walks), hwv.lift id (fun _ _ => Derives.walks)⟩

theorem IsCycle.onCycle {leads : DefId → DefId → Prop}
    (h : IsCycle leads group) (hs : s ∈ group) (ht : t ∈ group) : TransGen leads s t := by
  obtain ⟨v, hv, hcycle⟩ := h.cyclic
  have hsv := ((h.together s hs v).mp hv).1
  have hvt := ((h.together t ht v).mp hv).2
  exact hcycle.trans_right hsv |>.trans_left hvt

theorem exists_mapM {α β : Type} {g : α → Option β} {xs : List α}
    (hg : ∀ x ∈ xs, ∃ y, g x = some y) :
    ∃ ys, xs.mapM g = some ys ∧ ∀ y, y ∈ ys ↔ ∃ x ∈ xs, g x = some y := by
  induction xs with
  | nil => exact ⟨[], rfl, by simp⟩
  | cons x xs ih =>
      obtain ⟨y, hy⟩ := hg x List.mem_cons_self
      obtain ⟨ys, hys, hall⟩ := ih (fun z hz => hg z (List.mem_cons_of_mem x hz))
      refine ⟨y :: ys, ?_, fun z => ?_⟩
      · rw [List.mapM_cons, hy, hys]
        rfl
      · rw [List.mem_cons, hall, eq_comm (a := z)]
        simp only [List.mem_cons, exists_eq_or_imp, hy, Option.some.injEq]

theorem cycleError_spec (h : IsCycle (Walks hir) group) :
    ∃ d, cycleError hir group = some d ∧ d.code = "E0320" := by
  have hdef (id : DefId) (hid : id ∈ group) : ∃ d, hir.defs[id]? = some d := by
    obtain ⟨_, -, hlast⟩ := TransGen.tail'_iff.mp (h.onCycle hid hid)
    have hlt := List.mem_range.mp (List.mem_of_mem_filter (mem_signalIds.mpr hlast.signal))
    exact ⟨_, List.getElem?_eq_getElem hlt⟩
  obtain ⟨names, hnames, -⟩ : ∃ names, group.mapM (fun id => (hir.defs[id]?).map Def.name) =
      some names ∧ _ := exists_mapM (fun id hid => by
    obtain ⟨d, hd⟩ := hdef id hid
    exact ⟨d.name, by rw [hd, Option.map_some]⟩)
  obtain ⟨notes, hnotes, -⟩ : ∃ notes, group.mapM (partOfCycle hir) = some notes ∧ _ :=
    exists_mapM (fun id hid => by
      obtain ⟨d, hd⟩ := hdef id hid
      exact ⟨_, by rw [partOfCycle, hd, Option.map_some]⟩)
  obtain ⟨v, hv, -⟩ := h.cyclic
  obtain ⟨first, rest, rfl⟩ := List.exists_cons_of_ne_nil (List.ne_nil_of_mem hv)
  obtain ⟨d, hd⟩ := hdef first List.mem_cons_self
  refine ⟨⟨"E0320", cycleMessage names, d.span, notes⟩, ?_, rfl⟩
  simp only [cycleError, hnames, hnotes, List.head?_cons, hd, Option.bind_eq_bind,
    Option.bind_some, Option.pure_def]

theorem derivationCycleCheck_spec (hir : Hir) :
    ∃ groups diagnostics order, derivationCycleCheck hir = some (diagnostics, order) ∧
      derivationCycles hir = some groups ∧ groups.mapM (cycleError hir) = some diagnostics ∧
      ((∃ d ∈ diagnostics, d.code = "E0320") ↔ ∃ s, TransGen (Walks hir) s s) ∧
      (∀ group ∈ groups, IsCycle (Walks hir) group) ∧
      (∀ s, TransGen (Walks hir) s s → ∃ group ∈ groups, s ∈ group) ∧
      ((∀ s, ¬ TransGen (Walks hir) s s) →
        order.Perm (signalIds hir) ∧ ∀ s t, Walks hir s t → order.idxOf t < order.idxOf s) := by
  obtain ⟨edges, hedges, hkeys, hleads⟩ := derivationEdges_spec hir
  obtain ⟨groups, hgroups, hcycles, hall, -⟩ := stronglyConnected_spec edges
  rw [hleads] at hcycles hall
  obtain ⟨diagnostics, hdiagnostics, hmem⟩ := exists_mapM (g := cycleError hir)
    (fun group hgroup => (cycleError_spec (hcycles group hgroup)).imp (fun _ h => h.1))
  refine ⟨groups, diagnostics, topological edges, ?_, ?_, hdiagnostics, ?_, hcycles, hall, ?_⟩
  · simp only [derivationCycleCheck, hedges, hgroups, hdiagnostics, Option.bind_eq_bind,
      Option.bind_some, Option.pure_def]
  · rw [derivationCycles, hedges, Option.bind_some, hgroups]
  · constructor
    · rintro ⟨d, hd, -⟩
      obtain ⟨group, hgroup, -⟩ := (hmem d).mp hd
      obtain ⟨v, -, hcycle⟩ := (hcycles group hgroup).cyclic
      exact ⟨v, hcycle⟩
    · rintro ⟨s, hs⟩
      obtain ⟨group, hgroup, -⟩ := hall s hs
      obtain ⟨d, hd, hcode⟩ := cycleError_spec (hcycles group hgroup)
      exact ⟨d, (hmem d).mpr ⟨group, hgroup, hd⟩, hcode⟩
  · intro hacyclic
    have hnodup : edges.keys.Nodup := hkeys ▸ nodup_signalIds hir
    obtain ⟨hperm, hordered⟩ := topological_spec hnodup (hleads ▸ hacyclic)
    refine ⟨hkeys ▸ hperm, fun s t hst => ?_⟩
    have hs : s ∈ topological edges := by
      rw [hperm.mem_iff, hkeys, mem_signalIds]
      exact hst.1
    exact hordered.idxOf_lt (hperm.nodup_iff.mpr hnodup) hs (hleads ▸ hst)

/-- The check is about the initialisers exactly when no block of a scheduled signal closes a
cycle that they leave open. -/
theorem cycle_check_iff (hir : Hir) :
    (∃ groups diagnostics order, derivationCycleCheck hir = some (diagnostics, order) ∧
      AboutInitialisers hir groups diagnostics order) ↔ BlocksCloseNone hir := by
  obtain ⟨groups, diagnostics, order, hcheck, hgroups, hmapM, hreported, hcycles, hall, horder⟩ :=
    derivationCycleCheck_spec hir
  constructor
  · rintro ⟨groups', _, _, _, habout⟩ s t hs hbeat hts
    obtain rfl : groups = groups' := Option.some.inj (hgroups.symm.trans habout.found)
    have hedge : Walks hir s t := ⟨hs, .inr hbeat⟩
    obtain ⟨group, hgroup, hsin⟩ := hall s (TransGen.head' hedge hts)
    have htin : t ∈ group := ((hcycles group hgroup).together s hsin t).mpr ⟨.single hedge, hts⟩
    have hcycle := habout.components group hgroup
    exact ⟨hcycle.onCycle hsin htin, hcycle.onCycle htin hsin⟩
  · intro hclose
    have hsame (s : DefId) : TransGen (Walks hir) s s ↔ TransGen (Derives hir) s s :=
      ⟨fun h => hclose.derives h .refl, fun h => h.lift id (fun _ _ => Derives.walks)⟩
    simp only [hsame] at hreported
    refine ⟨groups, diagnostics, order, hcheck, hgroups, hmapM, hreported, ?_, ?_⟩
    · exact fun group hgroup => hclose.isCycle (hcycles group hgroup)
    · intro hnone
      rw [hreported, not_exists] at hnone
      obtain ⟨hperm, hlt⟩ := horder (fun s h => hnone s ((hsame s).mp h))
      exact ⟨hperm, fun s t hst => hlt s t hst.walks⟩

/-- `state last is durable Whole starting 0`, and a job that keeps its own beat:
`state hourly is server Whole every "1h"` with `set last to hourly` under it. -/
def job : Hir where
  defs :=
    [⟨"last", (0, 40), .signal
      { secret := false, trusted := false, placement := .durable, init := .number 0, step := none,
        clock := false, schedule := none, emits := none, expectation := false }⟩,
     ⟨"hourly", (41, 100), .signal
      { secret := false, trusted := false, placement := .server, init := .number 0, step := none,
        clock := false, emits := none, expectation := false,
        schedule := some
          [.mutation (.mutation ⟨.set, ⟨0, .def_ 0, [], (85, 89)⟩, .ref 0 (.def_ 1)⟩)] }⟩]
  view := none
  span := fun _ => (93, 99)
  localName := fun _ => ""

theorem job_walks : Walks job 1 1 := by
  refine ⟨rfl, .inr (.inl ?_)⟩
  exact ⟨.ref 0 (.def_ 1), List.mem_singleton_self _, _, .self, 0, rfl, rfl⟩

theorem job_derives (s t : DefId) : ¬ Derives job s t := by
  have hdefining (x : DefId) : ∀ e ∈ definingExprs job x, e = .number 0 := by
    match x with
    | 0 => exact fun e he => List.mem_singleton.mp he
    | 1 => exact fun e he => List.mem_singleton.mp he
    | x + 2 => exact fun e he => absurd he List.not_mem_nil
  have hwithin {e : Expr} (he : e.Within (.number 0)) : e = .number 0 := by
    cases he with
    | self => rfl
    | child hc _ => exact absurd hc List.not_mem_nil
  rintro ⟨-, y, -, top, htop, e, he, id, rfl, -⟩
  rw [hdefining y top htop] at he
  cases hwithin he

/-- The check reports the job, whose initialisers read nothing. -/
theorem job_reported :
    (∃ diagnostics order, derivationCycleCheck job = some (diagnostics, order) ∧
      ∃ d ∈ diagnostics, d.code = "E0320") ∧
    ¬ ∃ groups diagnostics order, derivationCycleCheck job = some (diagnostics, order) ∧
      AboutInitialisers job groups diagnostics order := by
  obtain ⟨-, diagnostics, order, hcheck, -, -, hreported, -⟩ := derivationCycleCheck_spec job
  have hcode := hreported.mpr ⟨1, .single job_walks⟩
  refine ⟨⟨diagnostics, order, hcheck, hcode⟩, ?_⟩
  rintro ⟨_, diagnostics', order', hcheck', habout⟩
  cases hcheck.symm.trans hcheck'
  obtain ⟨s, hs⟩ := habout.reported.mp hcode
  obtain ⟨t, hst, -⟩ := TransGen.head'_iff.mp hs
  exact job_derives s t hst

end Verdict

end Graph
end Zdeceptron
