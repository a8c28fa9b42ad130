import Mathlib.Data.List.Infix
import Zdeceptron.Graph.Split

/-!
# What the split has looked at

The worklist only grows while a definition is looked at, and roots are only added.  What is
looked at in a root has its calls looked at in the same root.
-/

namespace Zdeceptron
namespace Graph
namespace Splitter

section Growth

/-- Everything that names a root names one there is. -/
structure Rooted (s : Splitter) : Prop where
  build_lt : build < s.roots.length
  seen : ∀ pair ∈ s.seen, pair.2 < s.roots.length
  work : ∀ pair ∈ s.work, pair.2 < s.roots.length
  endpoints : ∀ entry ∈ s.endpointRoots, entry.2 < s.roots.length

/-- A later state in which no pair has been looked at since. -/
structure Extends (s t : Splitter) : Prop where
  roots : s.roots <+: t.roots
  seen : t.seen = s.seen
  members : t.members = s.members
  contexts : t.contexts = s.contexts
  work : s.work ⊆ t.work
  rooted : s.Rooted → t.Rooted

variable {s t u : Splitter}

theorem Rooted.client_lt (h : s.Rooted) : client < s.roots.length :=
  (Nat.zero_lt_one).trans h.build_lt

namespace Extends

theorem refl (s : Splitter) : Extends s s :=
  ⟨List.prefix_rfl, rfl, rfl, rfl, List.Subset.refl _, fun h => h⟩

theorem trans (h : Extends s t) (k : Extends t u) : Extends s u where
  roots := h.roots.trans k.roots
  seen := k.seen.trans h.seen
  members := k.members.trans h.members
  contexts := k.contexts.trans h.contexts
  work := List.Subset.trans h.work k.work
  rooted hs := k.rooted (h.rooted hs)

theorem length_le (h : Extends s t) : s.roots.length ≤ t.roots.length := h.roots.length_le

theorem ctxOf (h : Extends s t) {root : RootId} (hroot : root < s.roots.length) :
    t.ctxOf root = s.ctxOf root := by
  unfold Splitter.ctxOf
  rw [List.getElem?_eq_getElem (hroot.trans_le h.length_le), List.getElem?_eq_getElem hroot,
    h.roots.getElem hroot]

theorem of_same (hroots : t.roots = s.roots) (hseen : t.seen = s.seen)
    (hmembers : t.members = s.members) (hcontexts : t.contexts = s.contexts)
    (hwork : t.work = s.work) (hendpoints : t.endpointRoots = s.endpointRoots) : Extends s t where
  roots := hroots ▸ List.prefix_rfl
  seen := hseen
  members := hmembers
  contexts := hcontexts
  work := hwork ▸ List.Subset.refl _
  rooted h := by
    constructor
    · rw [hroots]
      exact h.build_lt
    · rw [hroots, hseen]
      exact h.seen
    · rw [hroots, hwork]
      exact h.work
    · rw [hroots, hendpoints]
      exact h.endpoints

end Extends

theorem extends_push {id : DefId} {root : RootId} (h : root < s.roots.length) :
    Extends s (s.push id root) where
  roots := List.prefix_rfl
  seen := rfl
  members := rfl
  contexts := rfl
  work := List.subset_cons_self _ _
  rooted hs :=
    { hs with
      work := fun pair hpair => by
        obtain rfl | hpair := List.mem_cons.mp hpair
        · exact h
        · exact hs.work pair hpair }

theorem extends_readHere {id : DefId} {root : RootId} {signal : DefId}
    (h : root < s.roots.length) : Extends s (s.readHere id root signal) :=
  (@extends_push _ signal _ h).trans (.of_same rfl rfl rfl rfl rfl rfl)

theorem extends_cross (s : Splitter) (expr : ExprId) (ctx : Ctx) (crossing : Crossing) :
    Extends s (s.cross expr ctx crossing) := .of_same rfl rfl rfl rfl rfl rfl

theorem extends_record (s : Splitter) (write : WriteId) (ctx : Ctx) (crossing : MutCrossing) :
    Extends s (s.record write ctx crossing) := .of_same rfl rfl rfl rfl rfl rfl

theorem extends_error (s : Splitter) (code : String) : Extends s (s.error code) :=
  .of_same rfl rfl rfl rfl rfl rfl

theorem extends_errorUnless (s : Splitter) (allowed : Bool) (code : String) :
    Extends s (s.errorUnless allowed code) := by
  unfold errorUnless
  split
  · exact .refl s
  · exact extends_error s code

theorem extends_root {root : Root} (hroots : t.roots = s.roots ++ [root]) (hseen : t.seen = s.seen)
    (hmembers : t.members = s.members) (hcontexts : t.contexts = s.contexts)
    (hwork : t.work = s.work)
    (hendpoints : ∀ entry ∈ t.endpointRoots, entry ∈ s.endpointRoots ∨ entry.2 = s.roots.length) :
    Extends s t where
  roots := hroots ▸ List.prefix_append _ _
  seen := hseen
  members := hmembers
  contexts := hcontexts
  work := hwork ▸ List.Subset.refl _
  rooted h := by
    have hlt : s.roots.length < t.roots.length := by simp [hroots]
    constructor
    · exact h.build_lt.trans hlt
    · rw [hseen]
      exact fun pair hpair => (h.seen pair hpair).trans hlt
    · rw [hwork]
      exact fun pair hpair => (h.work pair hpair).trans hlt
    · intro entry hentry
      obtain hold | hnew := hendpoints entry hentry
      · exact (h.endpoints entry hold).trans hlt
      · exact hnew ▸ hlt

theorem extends_endpointRoot (hs : s.Rooted) (signal : DefId) :
    Extends s (s.endpointRoot signal).1 ∧
      (s.endpointRoot signal).2 < (s.endpointRoot signal).1.roots.length := by
  unfold endpointRoot
  split
  · rename_i root hlookup
    obtain ⟨before, after, heq, -⟩ := List.lookup_eq_some_iff.mp hlookup
    exact ⟨.refl s, hs.endpoints (signal, root) (heq ▸ List.mem_append_right before
      List.mem_cons_self)⟩
  · refine ⟨extends_root rfl rfl rfl rfl rfl (fun entry hentry => ?_), by simp⟩
    obtain rfl | hold := List.mem_cons.mp hentry
    · exact .inr rfl
    · exact .inl hold

theorem extends_triggerRoot (s : Splitter) (signal : DefId) :
    Extends s (s.triggerRoot signal).1 ∧
      (s.triggerRoot signal).2 < (s.triggerRoot signal).1.roots.length :=
  ⟨extends_root rfl rfl rfl rfl rfl (fun _ h => .inl h), by simp [triggerRoot]⟩

theorem extends_commandRoot (s : Splitter) (key : CommandKey) :
    Extends s (s.commandRoot key).1 := by
  unfold commandRoot
  split
  · exact .refl s
  · exact extends_root rfl rfl rfl rfl rfl (fun _ h => .inl h)

end Growth

section Sites

variable {hir : Hir} {s t : Splitter} {id : DefId} {root : RootId} {ctx : Ctx}

theorem extends_read (hs : s.Rooted) (hroot : root < s.roots.length) (signal : DefId)
    (expr : ExprId) : Extends s (s.read hir id root ctx signal expr) := by
  unfold read
  split
  · exact (extends_readHere hroot).trans (extends_cross _ _ _ _)
  · exact (extends_push hs.build_lt).trans (extends_cross _ _ _ _)
  · exact ((extends_push hs.build_lt).trans (extends_readHere hroot)).trans (extends_cross _ _ _ _)
  · obtain ⟨hextends, hlt⟩ := extends_endpointRoot hs signal
    exact (hextends.trans (@extends_push _ signal _ hlt)).trans (.of_same rfl rfl rfl rfl rfl rfl)
  · exact (@extends_push _ signal _ hs.client_lt).trans (.of_same rfl rfl rfl rfl rfl rfl)
  · exact (extends_error _ _).trans (extends_cross _ _ _ _)

theorem extends_write (hroot : root < s.roots.length) (signal : DefId) (op : MutOp)
    (path : List PathKeySeg) (write : WriteId) :
    Extends s (s.write hir id root ctx signal op path write) := by
  unfold Splitter.write
  split
  · exact (extends_readHere hroot).trans (extends_record _ _ _ _)
  · exact extends_record _ _ _ _
  · exact (extends_commandRoot s _).trans (extends_record _ _ _ _)
  · exact (extends_error _ _).trans (extends_record _ _ _ _)

theorem extends_call (hroot : root < s.roots.length) (callee : DefId) :
    Extends s (s.call id root callee) :=
  (@extends_push _ callee _ hroot).trans (.of_same rfl rfl rfl rfl rfl rfl)

theorem extends_site (hs : s.Rooted) (hroot : root < s.roots.length) (site : Site) :
    Extends s (s.site hir id root ctx site) := by
  cases site with
  | call callee => exact extends_call hroot callee
  | read signal expr => exact extends_read hs hroot signal expr
  | write place signal op path => exact extends_write hroot signal op path _
  | bind place signal => exact extends_write hroot signal .set [] _
  | foreignCall callee => exact .refl s
  | notAPlace => exact extends_error s _
  | _ => exact extends_errorUnless s _ _

theorem extends_sites (hs : s.Rooted) (hroot : root < s.roots.length) (sites : List Site) :
    Extends s (s.sites hir id root ctx sites) := by
  induction sites generalizing s with
  | nil => exact .refl s
  | cons site sites ih =>
      have hsite := @extends_site hir s id root ctx hs hroot site
      exact hsite.trans (ih (hsite.rooted hs) (hroot.trans_le hsite.length_le))

theorem call_mem_work (hs : s.Rooted) (hroot : root < s.roots.length) {sites : List Site}
    {callee : DefId} (h : .call callee ∈ sites) :
    (callee, root) ∈ (s.sites hir id root ctx sites).work := by
  induction sites generalizing s with
  | nil => exact absurd h List.not_mem_nil
  | cons site sites ih =>
      have hsite := @extends_site hir s id root ctx hs hroot site
      have hrest := @extends_sites hir _ id root ctx (hsite.rooted hs)
        (hroot.trans_le hsite.length_le) sites
      obtain rfl | h := List.mem_cons.mp h
      · exact hrest.work List.mem_cons_self
      · exact ih (hsite.rooted hs) (hroot.trans_le hsite.length_le) h

end Sites

section Invariant

variable {hir : Hir} {s t : Splitter}

/-- What holds of the worklist whenever a pair is taken from it. -/
structure Reached (hir : Hir) (s : Splitter) : Prop where
  rooted : s.Rooted
  contexts : ∀ id ctx, (id, ctx) ∈ s.contexts ↔ ∃ root, (id, root) ∈ s.seen ∧ s.ctxOf root = ctx
  members : ∀ root id form, (root, id, form) ∈ s.members ↔
    (id, root) ∈ s.seen ∧ form = formOf hir id root
  calls : ∀ id root, (id, root) ∈ s.seen → walksItsBody hir id root →
    ∀ callee, .call callee ∈ sitesOf hir id → (callee, root) ∈ s.seen ∨ (callee, root) ∈ s.work

theorem reached_new : Reached hir new where
  rooted :=
    { build_lt := by decide
      seen := fun _ h => absurd h List.not_mem_nil
      work := fun _ h => absurd h List.not_mem_nil
      endpoints := fun _ h => absurd h List.not_mem_nil }
  contexts id ctx := by simp [new]
  members root id form := by simp [new]
  calls _ _ h := absurd h List.not_mem_nil

theorem Reached.extends (h : Reached hir s) (hst : Extends s t) : Reached hir t where
  rooted := hst.rooted h.rooted
  contexts id ctx := by
    rw [hst.contexts, hst.seen, h.contexts]
    constructor
    · rintro ⟨root, hseen, hctx⟩
      exact ⟨root, hseen, (hst.ctxOf (h.rooted.seen _ hseen)).trans hctx⟩
    · rintro ⟨root, hseen, hctx⟩
      exact ⟨root, hseen, (hst.ctxOf (h.rooted.seen _ hseen)).symm.trans hctx⟩
  members root id form := by
    rw [hst.members, hst.seen]
    exact h.members root id form
  calls id root hseen hwalks callee hcall := by
    rw [hst.seen] at hseen ⊢
    exact (h.calls id root hseen hwalks callee hcall).imp_right (fun hin => hst.work hin)

theorem Reached.skip {id : DefId} {root : RootId} {rest : List (DefId × RootId)}
    (h : Reached hir s) (hwork : s.work = (id, root) :: rest) (hseen : (id, root) ∈ s.seen) :
    Reached hir { s with work := rest } where
  rooted :=
    { h.rooted with
      work := fun pair hpair => h.rooted.work pair (hwork ▸ List.mem_cons_of_mem _ hpair) }
  contexts := h.contexts
  members := h.members
  calls id' root' hin hwalks callee hcall := by
    obtain hseen' | hin' := h.calls id' root' hin hwalks callee hcall
    · exact .inl hseen'
    · rw [hwork] at hin'
      obtain heq | hin' := List.mem_cons.mp hin'
      · exact .inl (heq ▸ hseen)
      · exact .inr hin'

def note (hir : Hir) (s : Splitter) (id : DefId) (root : RootId) (rest : List (DefId × RootId)) :
    Splitter :=
  { s with
    work := rest
    seen := (id, root) :: s.seen
    members := (root, id, formOf hir id root) :: s.members
    contexts := (id, s.ctxOf root) :: s.contexts }

theorem Rooted.note {id : DefId} {root : RootId} {rest : List (DefId × RootId)} (h : s.Rooted)
    (hwork : s.work = (id, root) :: rest) : Rooted (note hir s id root rest) :=
  { h with
    seen := List.forall_mem_cons.mpr ⟨h.work (id, root) (hwork ▸ List.mem_cons_self), h.seen⟩
    work := fun pair hpair => h.work pair (hwork ▸ List.mem_cons_of_mem _ hpair) }

theorem extends_visit {id : DefId} {root : RootId} {rest : List (DefId × RootId)} (h : s.Rooted)
    (hwork : s.work = (id, root) :: rest) :
    Extends (note hir s id root rest) (({ s with work := rest } : Splitter).visit hir id root) := by
  have hrooted : Rooted (note hir s id root rest) := h.note hwork
  unfold Splitter.visit
  dsimp only
  split
  · exact extends_sites hrooted (h.work (id, root) (hwork ▸ List.mem_cons_self)) _
  · exact .refl _

theorem Reached.visit {id : DefId} {root : RootId} {rest : List (DefId × RootId)}
    (h : Reached hir s) (hwork : s.work = (id, root) :: rest) :
    Reached hir (({ s with work := rest } : Splitter).visit hir id root) := by
  have hroot : root < s.roots.length := h.rooted.work (id, root) (hwork ▸ List.mem_cons_self)
  have hrooted : Rooted (note hir s id root rest) := h.rooted.note hwork
  have hextends := @extends_visit hir s id root rest h.rooted hwork
  have hcalls : walksItsBody hir id root → ∀ callee, .call callee ∈ sitesOf hir id →
      (callee, root) ∈ (({ s with work := rest } : Splitter).visit hir id root).work := by
    intro hwalks callee hcall
    unfold Splitter.visit
    dsimp only
    rw [if_pos hwalks]
    exact call_mem_work hrooted hroot hcall
  have hctx : ∀ other, other < s.roots.length →
      (({ s with work := rest } : Splitter).visit hir id root).ctxOf other = s.ctxOf other :=
    fun other hother => hextends.ctxOf hother
  refine Reached.mk (hextends.rooted hrooted) (fun id' ctx' => ?_) (fun root' id' form' => ?_)
    (fun id' root' hin hwalks callee hcall => ?_)
  · rw [hextends.contexts, hextends.seen, note, List.mem_cons, h.contexts]
    constructor
    · rintro (heq | ⟨root', hin, heq⟩)
      · cases heq
        exact ⟨root, List.mem_cons_self, hctx root hroot⟩
      · exact ⟨root', List.mem_cons_of_mem _ hin, (hctx root' (h.rooted.seen _ hin)).trans heq⟩
    · rintro ⟨root', hin, heq⟩
      obtain hnew | hin := List.mem_cons.mp hin
      · cases hnew
        exact .inl (Prod.ext rfl ((hctx root hroot).symm.trans heq).symm)
      · exact .inr ⟨root', hin, (hctx root' (h.rooted.seen _ hin)).symm.trans heq⟩
  · rw [hextends.members, hextends.seen, note, List.mem_cons, List.mem_cons, h.members]
    grind
  · rw [hextends.seen] at hin ⊢
    obtain heq | hin := List.mem_cons.mp hin
    · cases heq
      exact .inr (hcalls hwalks callee hcall)
    · obtain hseen | hwaits := h.calls id' root' hin hwalks callee hcall
      · exact .inl (List.mem_cons_of_mem _ hseen)
      · rw [hwork] at hwaits
        obtain heq | hwaits := List.mem_cons.mp hwaits
        · exact .inl (List.mem_cons.mpr (.inl heq))
        · exact .inr (hextends.work hwaits)

theorem Reached.fixpoint (h : Reached hir s) (hend : s.fixpoint hir = some t) :
    Reached hir t ∧ t.work = [] := by
  refine fixpoint.partial_correctness hir (fun s t => Reached hir s → Reached hir t ∧ t.work = [])
    ?_ s t hend h
  intro run ih s t hrun hs
  split at hrun
  · rename_i hwork
    cases hrun
    exact ⟨hs, hwork⟩
  · rename_i id root rest hwork
    split at hrun
    · rename_i hseen
      exact ih _ t hrun (hs.skip hwork hseen)
    · exact ih _ t hrun (hs.visit hwork)

theorem extends_foldl {α : Type} {f : Splitter → α → Splitter} (items : List α)
    (hf : ∀ s item, s.Rooted → Extends s (f s item)) (hs : s.Rooted) :
    Extends s (items.foldl f s) := by
  induction items generalizing s with
  | nil => exact .refl s
  | cons item items ih => exact (hf s item hs).trans (ih ((hf s item hs).rooted hs))

theorem extends_seedSignal (hs : s.Rooted) (id : DefId) : Extends s (s.seedSignal hir id) := by
  unfold seedSignal
  split
  · exact .refl s
  · rename_i signal _
    have htriggered : ∀ placed, Extends s placed → Extends s (if signal.schedule.isSome then
        (triggerRoot placed id).1.push id (triggerRoot placed id).2 else placed) := by
      intro placed hplaced
      split
      · obtain ⟨htrigger, hlt⟩ := extends_triggerRoot placed id
        exact (hplaced.trans htrigger).trans (extends_push hlt)
      · exact hplaced
    refine htriggered _ ?_
    split
    · exact extends_push hs.build_lt
    · exact extends_push hs.build_lt
    · exact extends_push hs.build_lt
    · exact .refl s

theorem extends_seed (hs : s.Rooted) : Extends s (s.seed hir) := by
  have hsignals : ∀ viewed, Extends s viewed →
      Extends s ((List.range hir.defs.length).foldl (fun s id => s.seedSignal hir id) viewed) :=
    fun viewed hview =>
      hview.trans (extends_foldl _ (fun _ id hs => extends_seedSignal hs id) (hview.rooted hs))
  refine hsignals _ ?_
  split
  · exact extends_push hs.client_lt
  · exact .refl s

theorem Reached.adopt (h : Reached hir s) (hwork : s.work = []) {id : DefId}
    (hend : s.adopt hir id = some t) : Reached hir t ∧ t.work = [] := by
  unfold Splitter.adopt at hend
  split at hend
  · cases hend
    exact ⟨h, hwork⟩
  · have hroot : Extends s { s with
        roots := s.roots ++ [⟨orphanCtx hir id, .orphan id, false⟩] } :=
      extends_root rfl rfl rfl rfl rfl (fun _ h => .inl h)
    have hpushed := (h.extends hroot).extends (@extends_push _ id s.roots.length (by simp))
    exact hpushed.fixpoint hend

theorem Reached.adoptEach {ids : List DefId} (h : Reached hir s) (hwork : s.work = [])
    (hend : s.adoptEach hir ids = some t) : Reached hir t ∧ t.work = [] := by
  induction ids generalizing s with
  | nil =>
      cases hend
      exact ⟨h, hwork⟩
  | cons id ids ih =>
      obtain ⟨adopted, hadopt, hrest⟩ := Option.bind_eq_some_iff.mp hend
      obtain ⟨hreached, hempty⟩ := h.adopt hwork hadopt
      exact ih hreached hempty hrest

end Invariant

end Splitter

theorem reached_split {hir : Hir} {s : TierSplit} (h : split hir = some s) :
    s.splitter.Reached hir ∧ s.splitter.work = [] := by
  obtain ⟨last, hlast, rfl⟩ := Option.map_eq_some_iff.mp h
  obtain ⟨first, hfirst, horphans⟩ := Option.bind_eq_some_iff.mp hlast
  have hnew : Splitter.new.Reached hir := Splitter.reached_new
  have hseed : (Splitter.new.seed hir).Reached hir :=
    hnew.extends (Splitter.extends_seed hnew.rooted)
  obtain ⟨hreached, hempty⟩ := hseed.fixpoint hfirst
  exact hreached.adoptEach hempty horphans

theorem split_calls {hir : Hir} {s : TierSplit} (h : split hir = some s) {id : DefId}
    {root : RootId} {form : MemberForm} (hmember : (root, id, form) ∈ s.splitter.members)
    (hwalks : Splitter.walksItsBody hir id root) {callee : DefId}
    (hcall : .call callee ∈ sitesOf hir id) :
    (callee, s.splitter.ctxOf root) ∈ s.splitter.contexts := by
  obtain ⟨hreached, hempty⟩ := reached_split h
  obtain ⟨hseen, -⟩ := (hreached.members root id form).mp hmember
  refine (hreached.contexts callee _).mpr ⟨root, ?_, rfl⟩
  obtain hin | hin := hreached.calls id root hseen hwalks callee hcall
  · exact hin
  · rw [hempty] at hin
    exact absurd hin List.not_mem_nil

end Graph
end Zdeceptron
