import Zdeceptron.Graph.CallSites

/-!
# Where static values are computed

A static value is read through the build host, so the build is the one root it is a member of.
-/

namespace Zdeceptron
namespace Graph
namespace Splitter

variable {hir : Hir} {s t : Splitter} {id : DefId} {root : RootId}

/-- What parsing and resolution leave: a beat belongs to a server value, a test is static, and
the view is no signal. -/
structure WellPlaced (hir : Hir) : Prop where
  scheduled : ∀ id signal, hir.signal id = some signal → signal.schedule.isSome →
    signal.placement = .server
  tests : ∀ id signal, hir.signal id = some signal → signal.expectation →
    signal.placement = .static
  view : ∀ view, hir.view = some view → hir.signal view = none

structure Homed (hir : Hir) (s : Splitter) : Prop where
  regions : ∀ (root : RootId), root ≠ build → (s.ctxOf root).region ≠ .static
  seen : ∀ pair ∈ s.seen, hir.placement pair.1 = .static → pair.2 = build
  work : ∀ pair ∈ s.work, hir.placement pair.1 = .static → pair.2 = build

section Steps

theorem Homed.of_same (h : Homed hir s) (hroots : t.roots = s.roots) (hseen : t.seen = s.seen)
    (hwork : t.work = s.work) : Homed hir t where
  regions root hroot := by
    unfold ctxOf
    rw [hroots]
    exact h.regions root hroot
  seen := hseen ▸ h.seen
  work := hwork ▸ h.work

theorem Homed.push (h : Homed hir s) (hid : hir.placement id = .static → root = build) :
    Homed hir (s.push id root) where
  regions := h.regions
  seen := h.seen
  work := List.forall_mem_cons.mpr ⟨hid, h.work⟩

theorem Homed.addRoot {added : Root} (h : Homed hir s) (hroots : t.roots = s.roots ++ [added])
    (hregion : added.ctx.region ≠ .static) (hseen : t.seen = s.seen) (hwork : t.work = s.work) :
    Homed hir t where
  regions root hroot := by
    have hold := h.regions root hroot
    unfold ctxOf at hold ⊢
    rw [hroots]
    obtain hlt | heq | hgt := Nat.lt_trichotomy root s.roots.length
    · rwa [List.getElem?_append_left hlt]
    · subst heq
      simpa using hregion
    · rw [List.getElem?_eq_none (by simp; omega)]
      exact Region.noConfusion
  seen := hseen ▸ h.seen
  work := hwork ▸ h.work

theorem Homed.readHere (h : Homed hir s) (id : DefId) {signal : DefId}
    (hsignal : hir.placement signal = .static → root = build) :
    Homed hir (s.readHere id root signal) :=
  (h.push hsignal).of_same rfl rfl rfl

theorem Homed.endpointRoot (h : Homed hir s) (signal : DefId) :
    Homed hir (s.endpointRoot signal).1 := by
  unfold Splitter.endpointRoot
  split
  · exact h
  · exact h.addRoot rfl Region.noConfusion rfl rfl

theorem Homed.commandRoot (h : Homed hir s) (key : CommandKey) :
    Homed hir (s.commandRoot key).1 := by
  unfold Splitter.commandRoot
  split
  · exact h
  · exact h.addRoot rfl Region.noConfusion rfl rfl

theorem Homed.errorUnless (h : Homed hir s) (allowed : Bool) (code : String) :
    Homed hir (s.errorUnless allowed code) := by
  unfold Splitter.errorUnless
  split
  · exact h
  · exact h.of_same rfl rfl rfl

theorem classify_static (ctx : Ctx) :
    (classify ctx .static = .direct ∧ ctx.region = .static) ∨ classify ctx .static = .inline := by
  obtain ⟨region, kind⟩ := ctx
  cases region <;> cases kind <;> simp [classify]

theorem Homed.read (h : Homed hir s) (signal : DefId) (expr : ExprId) :
    Homed hir (s.read hir id root (s.ctxOf root) signal expr) := by
  have hother : ∀ {crossing}, classify (s.ctxOf root) (hir.placement signal) = crossing →
      crossing ≠ .direct → crossing ≠ .inline → hir.placement signal ≠ .static := by
    rintro crossing hclass hdirect hinline hstatic
    rw [hstatic] at hclass
    obtain ⟨heq, -⟩ | heq := classify_static (s.ctxOf root)
    · exact hdirect (hclass.symm.trans heq)
    · exact hinline (hclass.symm.trans heq)
  unfold Splitter.read
  split
  · rename_i hclass
    refine (h.readHere id (fun hstatic => ?_)).of_same rfl rfl rfl
    rw [hstatic] at hclass
    obtain ⟨-, hregion⟩ | heq := classify_static (s.ctxOf root)
    · by_contra hroot
      exact h.regions root hroot hregion
    · rw [heq] at hclass
      cases hclass
  · exact (h.push (fun _ => rfl)).of_same rfl rfl rfl
  · rename_i hclass
    have hnot := hother hclass Crossing.noConfusion Crossing.noConfusion
    exact ((h.push (fun _ => rfl)).readHere id (fun hstatic => absurd hstatic hnot)).of_same rfl rfl rfl
  · rename_i hclass
    have hnot := hother hclass Crossing.noConfusion Crossing.noConfusion
    exact ((h.endpointRoot signal).push (fun hstatic => absurd hstatic hnot)).of_same rfl rfl rfl
  · rename_i hclass
    have hnot := hother hclass Crossing.noConfusion Crossing.noConfusion
    exact (h.push (fun hstatic => absurd hstatic hnot)).of_same rfl rfl rfl
  · exact h.of_same rfl rfl rfl

theorem Homed.write (h : Homed hir s) (signal : DefId) (op : MutOp) (path : List PathKeySeg)
    (write : WriteId) : Homed hir (s.write hir id root (s.ctxOf root) signal op path write) := by
  unfold Splitter.write
  split
  · rename_i hclass
    refine (h.readHere id (fun hstatic => ?_)).of_same rfl rfl rfl
    rw [hstatic] at hclass
    obtain ⟨region, kind⟩ := s.ctxOf root
    cases region <;> simp [classifyWrite] at hclass
  · exact h.of_same rfl rfl rfl
  · exact (h.commandRoot _).of_same rfl rfl rfl
  · exact h.of_same rfl rfl rfl

theorem placement_of_signal (h : hir.signal id = none) : hir.placement id ≠ .static := by
  unfold Hir.placement
  rw [h]
  exact SignalPlacement.noConfusion

theorem Homed.site (h : Homed hir s) {site : Site}
    (hcalls : ∀ d, site = .call d → hir.signal d = none) :
    Homed hir (s.site hir id root (s.ctxOf root) site) := by
  cases site with
  | call callee =>
      have hnot := placement_of_signal (hcalls callee rfl)
      exact (h.push (fun hstatic => absurd hstatic hnot)).of_same rfl rfl rfl
  | read signal expr => exact h.read signal expr
  | write place signal op path => exact h.write signal op path _
  | bind place signal => exact h.write signal .set [] _
  | foreignCall callee => exact h
  | notAPlace => exact h.of_same rfl rfl rfl
  | _ => exact h.errorUnless _ _

theorem Homed.sites (h : Homed hir s) (hs : s.Rooted) (hroot : root < s.roots.length)
    {sites : List Site} (hcalls : ∀ d, .call d ∈ sites → hir.signal d = none) :
    Homed hir (s.sites hir id root (s.ctxOf root) sites) := by
  induction sites generalizing s with
  | nil => exact h
  | cons site sites ih =>
      have hsite := @extends_site hir s id root (s.ctxOf root) hs hroot site
      have hnext := ih (h.site (fun d heq => hcalls d (heq ▸ List.mem_cons_self)))
        (hsite.rooted hs) (hroot.trans_le hsite.length_le)
        (fun d hd => hcalls d (List.mem_cons_of_mem _ hd))
      rw [hsite.ctxOf hroot] at hnext
      exact hnext

end Steps

section Runs

theorem Homed.visit {rest : List (DefId × RootId)} (h : Homed hir s) (hreached : Reached hir s)
    (hwork : s.work = (id, root) :: rest) :
    Homed hir (({ s with work := rest } : Splitter).visit hir id root) := by
  have hpair := h.work (id, root) (hwork ▸ List.mem_cons_self)
  have hnoted : Homed hir (note hir s id root rest) :=
    { regions := h.regions
      seen := List.forall_mem_cons.mpr ⟨hpair, h.seen⟩
      work := fun pair hin => h.work pair (hwork ▸ List.mem_cons_of_mem _ hin) }
  unfold Splitter.visit
  dsimp only
  split
  · exact hnoted.sites (hreached.rooted.note hwork)
      (hreached.rooted.work (id, root) (hwork ▸ List.mem_cons_self))
      (fun d hd => signal_of_call_mem hd)
  · exact hnoted

theorem Homed.fixpoint (h : Homed hir s) (hreached : Reached hir s)
    (hend : s.fixpoint hir = some t) :
    Homed hir t ∧ ∀ pair, pair ∈ s.seen ∨ pair ∈ s.work → pair ∈ t.seen := by
  refine fixpoint.partial_correctness hir (fun s t => Homed hir s → Reached hir s → Homed hir t ∧
    ∀ pair, pair ∈ s.seen ∨ pair ∈ s.work → pair ∈ t.seen) ?_ s t hend h hreached
  intro run ih s t hrun hs hreached
  split at hrun
  · rename_i hwork
    cases hrun
    refine ⟨hs, fun pair hpair => hpair.resolve_right (fun hin => ?_)⟩
    rw [hwork] at hin
    exact List.not_mem_nil hin
  · rename_i id root rest hwork
    split at hrun
    · rename_i hseen
      have hskip : Homed hir { s with work := rest } :=
        { hs with
          work := fun pair hin => hs.work pair (hwork ▸ List.mem_cons_of_mem _ hin) }
      obtain ⟨hhomed, hcovered⟩ := ih _ t hrun hskip (hreached.skip hwork hseen)
      refine ⟨hhomed, fun pair hpair => ?_⟩
      obtain hin | hin := hpair
      · exact hcovered pair (.inl hin)
      · rw [hwork] at hin
        obtain rfl | hin := List.mem_cons.mp hin
        · exact hcovered _ (.inl hseen)
        · exact hcovered pair (.inr hin)
    · obtain ⟨hhomed, hcovered⟩ := ih _ t hrun (hs.visit hreached hwork) (hreached.visit hwork)
      refine ⟨hhomed, fun pair hpair => ?_⟩
      have hextends := @extends_visit hir s id root rest hreached.rooted hwork
      have hseen : (id, root) :: s.seen =
          (({ s with work := rest } : Splitter).visit hir id root).seen := hextends.seen.symm
      have hworks : rest ⊆ (({ s with work := rest } : Splitter).visit hir id root).work :=
        hextends.work
      obtain hin | hin := hpair
      · exact hcovered pair (.inl (hseen ▸ List.mem_cons_of_mem _ hin))
      · rw [hwork] at hin
        obtain rfl | hin := List.mem_cons.mp hin
        · exact hcovered _ (.inl (hseen ▸ List.mem_cons_self))
        · exact hcovered pair (.inr (hworks hin))

theorem Homed.seedSignal (h : Homed hir s) (hplaces : WellPlaced hir) (id : DefId) :
    Homed hir (s.seedSignal hir id) := by
  unfold Splitter.seedSignal
  split
  · exact h
  · rename_i signal hsignal
    have htriggered : ∀ placed, Homed hir placed → Homed hir (if signal.schedule.isSome then
        (triggerRoot placed id).1.push id (triggerRoot placed id).2 else placed) := by
      intro placed hplaced
      split
      · rename_i hschedule
        have htrigger : Homed hir (triggerRoot placed id).1 :=
          hplaced.addRoot rfl Region.noConfusion rfl rfl
        refine htrigger.push (fun hstatic => ?_)
        unfold Hir.placement at hstatic
        rw [hsignal] at hstatic
        simp only [hplaces.scheduled id signal hsignal hschedule, placementOf] at hstatic
        cases hstatic
      · exact hplaced
    refine htriggered _ ?_
    split
    · exact h.push (fun _ => rfl)
    · exact h.push (fun _ => rfl)
    · exact h.push (fun _ => rfl)
    · exact h

theorem mem_work_seedSignal (hstatic : hir.placement id = .static) (s : Splitter) :
    (id, build) ∈ (s.seedSignal hir id).work := by
  unfold Hir.placement at hstatic
  unfold Splitter.seedSignal
  cases hsignal : hir.signal id with
  | none =>
      rw [hsignal] at hstatic
      cases hstatic
  | some signal =>
      rw [hsignal] at hstatic
      simp only at hstatic
      simp only [hstatic]
      split
      · exact List.mem_cons_of_mem _ List.mem_cons_self
      · exact List.mem_cons_self

theorem Homed.seed (h : Homed hir s) (hplaces : WellPlaced hir) (hs : s.Rooted) :
    Homed hir (s.seed hir) ∧
      ∀ id, hir.placement id = .static → (id, build) ∈ (s.seed hir).work := by
  have hfold : ∀ (ids : List DefId) {s : Splitter}, Homed hir s → s.Rooted →
      Homed hir (ids.foldl (fun s id => s.seedSignal hir id) s) ∧
        ∀ id ∈ ids, hir.placement id = .static →
          (id, build) ∈ (ids.foldl (fun s id => s.seedSignal hir id) s).work := by
    intro ids
    induction ids with
    | nil => exact fun h _ => ⟨h, fun _ hin => absurd hin List.not_mem_nil⟩
    | cons first ids ih =>
        intro s h hs
        have hrooted := (@extends_seedSignal hir s hs first).rooted hs
        obtain ⟨hhomed, hcovered⟩ := ih (h.seedSignal hplaces first) hrooted
        refine ⟨hhomed, fun id hid hstatic => ?_⟩
        obtain rfl | hid := List.mem_cons.mp hid
        · have hrest := extends_foldl ids (fun s id (hs : s.Rooted) =>
            @extends_seedSignal hir s hs id) hrooted
          exact hrest.work (mem_work_seedSignal hstatic s)
        · exact hcovered id hid hstatic
  have hviewed : ∀ viewed, Homed hir viewed → viewed.Rooted →
      Homed hir ((List.range hir.defs.length).foldl (fun s id => s.seedSignal hir id) viewed) ∧
        ∀ id, hir.placement id = .static → (id, build) ∈
          ((List.range hir.defs.length).foldl (fun s id => s.seedSignal hir id) viewed).work := by
    intro viewed h hs
    obtain ⟨hhomed, hcovered⟩ := hfold (List.range hir.defs.length) h hs
    refine ⟨hhomed, fun id hstatic => hcovered id (List.mem_range.mpr ?_) hstatic⟩
    by_contra hge
    unfold Hir.placement Hir.signal Hir.kind at hstatic
    rw [List.getElem?_eq_none (not_lt.mp hge)] at hstatic
    cases hstatic
  unfold Splitter.seed
  split
  · rename_i view hkind
    have hnot := placement_of_signal (hplaces.view view hkind)
    exact hviewed _ (h.push (fun hstatic => absurd hstatic hnot))
      ((extends_push hs.client_lt).rooted hs)
  · exact hviewed s h hs

theorem Homed.adopt (h : Homed hir s) (hreached : Reached hir s)
    (hcovered : ∀ id, hir.placement id = .static → (id, build) ∈ s.seen)
    (hend : s.adopt hir id = some t) : Homed hir t ∧ s.seen ⊆ t.seen := by
  unfold Splitter.adopt at hend
  split at hend
  · cases hend
    exact ⟨h, List.Subset.refl _⟩
  · rename_i hnew
    have hnot : hir.placement id ≠ .static := fun hstatic =>
      hnew (List.any_eq_true.mpr ⟨_, hcovered id hstatic, decide_eq_true rfl⟩)
    have hregion : (orphanCtx hir id).region ≠ .static := by
      unfold Hir.placement at hnot
      unfold orphanCtx
      split
      · rename_i signal hsignal
        rw [hsignal] at hnot
        cases hplaced : placementOf signal.placement with
        | static => exact absurd hplaced hnot
        | _ => exact Region.noConfusion
      · exact Region.noConfusion
    have hadopted : Homed hir ({ s with
        roots := s.roots ++ [⟨orphanCtx hir id, .orphan id, false⟩] } : Splitter) :=
      h.addRoot rfl hregion rfl rfl
    have hroot : Extends s { s with
        roots := s.roots ++ [⟨orphanCtx hir id, .orphan id, false⟩] } :=
      extends_root rfl rfl rfl rfl rfl (fun _ h => .inl h)
    have hpushed := (hreached.extends hroot).extends (@extends_push _ id s.roots.length (by simp))
    obtain ⟨hhomed, hseen⟩ :=
      (hadopted.push (fun hstatic => absurd hstatic hnot)).fixpoint hpushed hend
    exact ⟨hhomed, fun pair hpair => hseen pair (.inl hpair)⟩

theorem Homed.adoptEach {ids : List DefId} (h : Homed hir s) (hreached : Reached hir s)
    (hwork : s.work = []) (hcovered : ∀ id, hir.placement id = .static → (id, build) ∈ s.seen)
    (hend : s.adoptEach hir ids = some t) : Homed hir t := by
  induction ids generalizing s with
  | nil =>
      cases hend
      exact h
  | cons id ids ih =>
      obtain ⟨adopted, hadopt, hrest⟩ := Option.bind_eq_some_iff.mp hend
      obtain ⟨hhomed, hseen⟩ := h.adopt hreached hcovered hadopt
      obtain ⟨hreached, hempty⟩ := hreached.adopt hwork hadopt
      exact ih hhomed hreached hempty (fun id hstatic => hseen (hcovered id hstatic)) hrest

end Runs

end Splitter

theorem split_static {hir : Hir} {s : TierSplit} (hplaces : Splitter.WellPlaced hir)
    (h : split hir = some s) {id : DefId} {root : RootId} {form : MemberForm}
    (hmember : (root, id, form) ∈ s.splitter.members) (hstatic : hir.placement id = .static) :
    root = build := by
  have hreached := (reached_split h).1
  obtain ⟨hseen, -⟩ := (hreached.members root id form).mp hmember
  obtain ⟨last, hlast, rfl⟩ := Option.map_eq_some_iff.mp h
  obtain ⟨first, hfirst, horphans⟩ := Option.bind_eq_some_iff.mp hlast
  have hnew : Splitter.new.Reached hir := Splitter.reached_new
  have hhome : Splitter.new.Homed hir :=
    { regions := by
        intro root hroot
        match root with
        | 0 => exact Region.noConfusion
        | 1 => exact absurd rfl hroot
        | _ + 2 => exact Region.noConfusion
      seen := fun _ h => absurd h List.not_mem_nil
      work := fun _ h => absurd h List.not_mem_nil }
  obtain ⟨hseeded, hwork⟩ := hhome.seed hplaces hnew.rooted
  have hseed : (Splitter.new.seed hir).Reached hir :=
    hnew.extends (Splitter.extends_seed hnew.rooted)
  obtain ⟨hreached', hempty⟩ := hseed.fixpoint hfirst
  obtain ⟨hfirst', hcovered⟩ := hseeded.fixpoint hseed hfirst
  have hend := hfirst'.adoptEach hreached' hempty
    (fun id hstatic => hcovered (id, build) (.inr (hwork id hstatic))) horphans
  exact hend.seen (id, root) hseen hstatic

theorem walksItsBody_of_member {hir : Hir} {s : TierSplit} (hplaces : Splitter.WellPlaced hir)
    (h : split hir = some s) {id : DefId} {root : RootId} {form : MemberForm}
    (hmember : (root, id, form) ∈ s.splitter.members) (hform : form ≠ .storeRead) :
    Splitter.walksItsBody hir id root := by
  obtain ⟨-, hformOf⟩ := ((reached_split h).1.members root id form).mp hmember
  have hstatic := split_static hplaces h hmember
  unfold Splitter.formOf at hformOf
  unfold Hir.placement at hstatic
  unfold Splitter.walksItsBody
  cases hsignal : hir.signal id with
  | none => rfl
  | some signal =>
      have hkind : hir.kind id = some (.signal signal) := by
        unfold Hir.signal at hsignal
        split at hsignal
        · rename_i other hkind
          cases hsignal
          exact hkind
        · cases hsignal
      rw [hsignal] at hstatic
      rw [hkind] at hformOf
      have htests := hplaces.tests id signal hsignal
      cases hplaced : placementOf signal.placement with
      | static => simpa [hplaced] using hstatic hplaced
      | client => simp [hplaced]
      | server => simp [hplaced]
      | remembered => simp [hplaced]
      | durable =>
          have hnot : signal.expectation = false := by
            by_contra htest
            rw [htests (Bool.not_eq_false _ ▸ htest)] at hplaced
            cases hplaced
          simp only [hplaced, hnot, Bool.false_eq_true, if_false] at hformOf ⊢
          by_contra hroot
          simp only [decide_eq_true_eq] at hroot
          rw [if_neg hroot] at hformOf
          exact hform hformOf
      | durablePerVisitor =>
          cases hplacement : signal.placement <;> rw [hplacement] at hplaced <;> cases hplaced
end Graph
end Zdeceptron
