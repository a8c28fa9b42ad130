import Mathlib.Tactic.Basic
import Zdeceptron.Graph.Flow
import Zdeceptron.Graph.Mentions
import Zdeceptron.Library.Related

/-!
# Two walks of one body

Two walks that start from related labels and read related summaries leave related labels and
related obligations, for every relation of symbols that joins respect.
-/

namespace Zdeceptron
namespace Graph

open Library

section Relations

variable {R : Sym → Sym → Prop}

structure Logical (R : Sym → Sym → Prop) : Prop where
  ofFloor : ∀ secrecy, R (.ofFloor secrecy) (.ofFloor secrecy)
  sup : ∀ {s s' t t'}, R s s' → R t t' → R (s ⊔ t) (s' ⊔ t')

structure Rising (R : Sym → Sym → Prop) : Prop where
  le : ∀ {s s'}, R s s' → s ≤ s'
  bot : ∀ {s s'}, R s s' → R ⊥ s'

structure LabelRel (R : Sym → Sym → Prop) (s s' : SymLabel) : Prop where
  shape : R s.shape s'.shape
  value : R s.value s'.value
  failure : R s.failure s'.failure

theorem LabelRel.get {s s' : SymLabel} (h : LabelRel R s s') : ∀ obs, R (s.get obs) (s'.get obs)
  | .shape => h.shape
  | .value => h.value
  | .failure => h.failure

theorem LabelRel.triple {s s' : Sym} (h : R s s') : LabelRel R (.triple s) (.triple s') :=
  ⟨h, h, h⟩

namespace Logical

variable (hR : Logical R)
include hR

theorem bot : R ⊥ ⊥ := hR.ofFloor .public_

theorem bottom : LabelRel R .bottom .bottom := ⟨hR.bot, hR.bot, hR.bot⟩

theorem declared (label : Label) : LabelRel R (.declared label) (.declared label) :=
  ⟨hR.ofFloor _, hR.ofFloor _, hR.ofFloor _⟩

theorem label_sup {s s' t t' : SymLabel} (h : LabelRel R s s') (k : LabelRel R t t') :
    LabelRel R (s ⊔ t) (s' ⊔ t') :=
  ⟨hR.sup h.shape k.shape, hR.sup h.value k.value, hR.sup h.failure k.failure⟩

theorem joinAll {s s' : SymLabel} {pc pc' : Sym} (h : LabelRel R s s') (hpc : R pc pc') :
    LabelRel R (s.joinAll pc) (s'.joinAll pc') :=
  ⟨hR.sup h.shape hpc, hR.sup h.value hpc, hR.sup h.failure hpc⟩

theorem settle {s s' : SymLabel} (h : LabelRel R s s') : LabelRel R s.settle s'.settle :=
  ⟨h.shape, hR.sup h.value h.shape, h.failure⟩

theorem joinValues {s s' : List SymLabel} (h : List.Forall₂ (LabelRel R) s s') :
    R (Pass.joinValues s) (Pass.joinValues s') := by
  induction h with
  | nil => exact hR.bot
  | cons h _ ih => exact hR.sup h.value ih

variable {args args' : List SymLabel}

theorem argumentAt (h : List.Forall₂ (LabelRel R) args args')
    (dep : Nat × Obs) : R (argumentAt args dep) (argumentAt args' dep) := by
  obtain ⟨index, obs⟩ := dep
  unfold Graph.argumentAt
  induction h generalizing index with
  | nil => exact hR.ofFloor .secret
  | cons h _ ih =>
      cases index with
      | zero => exact h.get obs
      | succ index => exact ih index

theorem instantiate (h : List.Forall₂ (LabelRel R) args args')
    (s : Sym) : R (s.instantiate args) (s.instantiate args') := by
  refine hR.sup (hR.ofFloor _) ?_
  induction s.deps using Finset.induction_on with
  | empty => exact hR.bot
  | insert dep deps _ ih =>
      rw [Finset.sup_insert, Finset.sup_insert]
      exact hR.sup (hR.argumentAt h dep) ih

end Logical

end Relations

section Obligations

def foundAt (obligations : Obligations) (id : ObligationId) : Sym :=
  ((obligations.lookup id).map Obligation.found).getD ⊥

def pcAt (obligations : Obligations) (id : ObligationId) : Sym :=
  ((obligations.lookup id).map Obligation.pc).getD ⊥

def requiredOf (hir : Hir) : ObligationKind → Secrecy
  | .write d => (hir.declared d).value
  | _ => .public_

variable {os : Obligations} {id other : ObligationId} {o : Obligation}

theorem lookup_obligeIn_ne (h : other ≠ id) :
    (obligeIn os id o).lookup other = os.lookup other := by
  unfold obligeIn
  split
  · exact AList.lookup_insert_ne h
  · exact AList.lookup_insert_ne h

theorem foundAt_obligeIn_ne (h : other ≠ id) :
    foundAt (obligeIn os id o) other = foundAt os other := by
  rw [foundAt, lookup_obligeIn_ne h, foundAt]

theorem pcAt_obligeIn_ne (h : other ≠ id) :
    pcAt (obligeIn os id o) other = pcAt os other := by
  rw [pcAt, lookup_obligeIn_ne h, pcAt]

theorem foundAt_obligeIn : foundAt (obligeIn os id o) id = foundAt os id ⊔ o.found := by
  unfold obligeIn foundAt
  cases h : os.lookup id with
  | none => simp
  | some existing => simp

theorem pcAt_obligeIn : pcAt (obligeIn os id o) id = pcAt os id ⊔ o.pc := by
  unfold obligeIn pcAt
  cases h : os.lookup id with
  | none => simp
  | some existing => simp

theorem isSome_obligeIn : ((obligeIn os id o).lookup id).isSome := by
  unfold obligeIn
  split <;> simp

theorem required_obligeIn {required : Secrecy} (ho : o.required = required)
    (h : ∀ e, os.lookup id = some e → e.required = required) {e : Obligation}
    (he : (obligeIn os id o).lookup id = some e) : e.required = required := by
  unfold obligeIn at he
  cases hlookup : os.lookup id with
  | none =>
      rw [hlookup, AList.lookup_insert] at he
      cases he
      exact ho
  | some existing =>
      rw [hlookup, AList.lookup_insert] at he
      cases he
      exact h existing hlookup

end Obligations

section Walks

variable (hir : Hir) (T : Prop) (R : Sym → Sym → Prop)

/-- The obligations of one identity on both sides.  With `T`, each requires what its kind
says. -/
structure ObligationRel (os os' : Obligations) (id : ObligationId) : Prop where
  found : R (foundAt os id) (foundAt os' id)
  pc : R (pcAt os id) (pcAt os' id)
  isSome : (os.lookup id).isSome → (os'.lookup id).isSome
  required : T → ∀ o, os.lookup id = some o → o.required = requiredOf hir id.2
  required' : T → ∀ o, os'.lookup id = some o → o.required = requiredOf hir id.2

/-- Two walks of a body that reads the locals `L`, as far as the obligations `I` go. -/
structure WalkRel (I : ObligationId → Prop) (L : LocalId → Prop) (w w' : Walk) : Prop where
  locals : ∀ id, L id → LabelRel R (w.locals id) (w'.locals id)
  localSignals : w'.localSignals = w.localSignals
  failureBinders : w'.failureBinders = w.failureBinders
  pc : R w.pc w'.pc
  acc : LabelRel R w.acc w'.acc
  result : LabelRel R w.result w'.result
  obligations : ∀ id, I id → ObligationRel hir T R w.obligations w'.obligations id
  urlArgument : w'.urlArgument = w.urlArgument

/-- Two summaries that are related wherever they are put for related arguments. -/
structure SummaryRel (I : ObligationId → Prop) (s s' : Summary) : Prop where
  result : ∀ {args args'}, List.Forall₂ (LabelRel R) args args' →
    LabelRel R (s.result.instantiate args) (s'.result.instantiate args')
  found : ∀ {args args'}, List.Forall₂ (LabelRel R) args args' → ∀ id, I id →
    R ((foundAt s.obligations id).instantiate args) ((foundAt s'.obligations id).instantiate args')
  pc : ∀ {args args'}, List.Forall₂ (LabelRel R) args args' → ∀ id, I id →
    R ((pcAt s.obligations id).instantiate args) ((pcAt s'.obligations id).instantiate args')
  isSome : ∀ id, I id → (s.obligations.lookup id).isSome → (s'.obligations.lookup id).isSome
  required : T → ∀ id, I id → ∀ o, s.obligations.lookup id = some o →
    o.required = requiredOf hir id.2
  required' : T → ∀ id, I id → ∀ o, s'.obligations.lookup id = some o →
    o.required = requiredOf hir id.2

end Walks

section Steps

variable {hir : Hir} {T : Prop} {R : Sym → Sym → Prop} {I : ObligationId → Prop} {L : LocalId → Prop}
  {w w' : Walk} {os os' : Obligations} {id other : ObligationId} {o o' : Obligation}

theorem ObligationRel.of_lookup {ps ps' : Obligations} (h : ObligationRel hir T R os os' id)
    (hos : ps.lookup id = os.lookup id) (hos' : ps'.lookup id = os'.lookup id) :
    ObligationRel hir T R ps ps' id where
  found := by
    rw [foundAt, foundAt, hos, hos']
    exact h.found
  pc := by
    rw [pcAt, pcAt, hos, hos']
    exact h.pc
  isSome := by
    rw [hos, hos']
    exact h.isSome
  required := by
    rw [hos]
    exact h.required
  required' := by
    rw [hos']
    exact h.required'

theorem ObligationRel.obligeIn (hR : Logical R) (h : ObligationRel hir T R os os' other)
    (hfound : R o.found o'.found) (hpc : R o.pc o'.pc)
    (ho : T → o.required = requiredOf hir id.2) (ho' : T → o'.required = requiredOf hir id.2) :
    ObligationRel hir T R (obligeIn os id o) (obligeIn os' id o') other := by
  by_cases heq : other = id
  · subst heq
    refine ⟨?_, ?_, fun _ => isSome_obligeIn,
      fun ht _ => required_obligeIn (ho ht) (h.required ht),
      fun ht _ => required_obligeIn (ho' ht) (h.required' ht)⟩
    · rw [foundAt_obligeIn, foundAt_obligeIn]
      exact hR.sup h.found hfound
    · rw [pcAt_obligeIn, pcAt_obligeIn]
      exact hR.sup h.pc hpc
  · refine ⟨?_, ?_, ?_, ?_, ?_⟩
    · rw [foundAt_obligeIn_ne heq, foundAt_obligeIn_ne heq]
      exact h.found
    · rw [pcAt_obligeIn_ne heq, pcAt_obligeIn_ne heq]
      exact h.pc
    · rw [lookup_obligeIn_ne heq, lookup_obligeIn_ne heq]
      exact h.isSome
    · rw [lookup_obligeIn_ne heq]
      exact h.required
    · rw [lookup_obligeIn_ne heq]
      exact h.required'

theorem ObligationRel.obligeIn_right (hR : Logical R) (h : ObligationRel hir T R os os' other)
    (hfound : R ⊥ o'.found) (hpc : R ⊥ o'.pc) (ho' : T → o'.required = requiredOf hir id.2) :
    ObligationRel hir T R os (Graph.obligeIn os' id o') other := by
  by_cases heq : other = id
  · subst heq
    refine ⟨?_, ?_, fun _ => isSome_obligeIn, h.required,
      fun ht _ => required_obligeIn (ho' ht) (h.required' ht)⟩
    · rw [foundAt_obligeIn, ← sup_bot_eq (foundAt os other)]
      exact hR.sup h.found hfound
    · rw [pcAt_obligeIn, ← sup_bot_eq (pcAt os other)]
      exact hR.sup h.pc hpc
  · refine ⟨?_, ?_, ?_, h.required, ?_⟩
    · rw [foundAt_obligeIn_ne heq]
      exact h.found
    · rw [pcAt_obligeIn_ne heq]
      exact h.pc
    · rw [lookup_obligeIn_ne heq]
      exact h.isSome
    · rw [lookup_obligeIn_ne heq]
      exact h.required'

theorem related_runIf (condition : Bool) {run run' : WalkM Unit}
    (h : Related (WalkRel hir T R I L) (fun _ _ => True) run run') :
    Related (WalkRel hir T R I L) (fun _ _ => True) (runIf condition run)
      (runIf condition run') := by
  unfold runIf
  split
  · exact h
  · exact .of_pure trivial

variable {label label' : SymLabel}

theorem related_bindLocal (local_ : LocalId) (h : LabelRel R label label') :
    Related (WalkRel hir T R I L) (fun _ _ => True) (bindLocal local_ label)
      (bindLocal local_ label') := by
  refine .of_modify (fun w w' hw => { hw with locals := fun id hid => ?_ })
  by_cases heq : id = local_
  · subst heq
    simpa only [Function.update_self] using h
  · simpa only [ne_eq, heq, not_false_eq_true, Function.update_of_ne] using hw.locals id hid

theorem related_setPc {pc pc' : Sym} (h : R pc pc') :
    Related (WalkRel hir T R I L) (fun _ _ => True) (setPc pc) (setPc pc') :=
  .of_modify (fun _ _ hw => { hw with pc := h })

theorem related_setAcc {acc acc' : SymLabel} (h : LabelRel R acc acc') :
    Related (WalkRel hir T R I L) (fun _ _ => True) (setAcc acc) (setAcc acc') :=
  .of_modify (fun _ _ hw => { hw with acc := h })

theorem related_setUrl (url : Option UrlPosition) :
    Related (WalkRel hir T R I L) (fun _ _ => True) (setUrl url) (setUrl url) :=
  .of_modify (fun _ _ hw => { hw with urlArgument := rfl })

theorem related_oblige (hR : Logical R) {kind : ObligationKind} {site : Span} {found found' pc pc' : Sym}
    (hfound : R found found') (hpc : R pc pc') :
    Related (WalkRel hir T R I L) (fun _ _ => True)
      (oblige ⟨kind, requiredOf hir kind, found, pc, site⟩)
      (oblige ⟨kind, requiredOf hir kind, found', pc', site⟩) :=
  .of_modify (fun _ _ hw =>
    { hw with
      obligations := fun id hid => (hw.obligations id hid).obligeIn hR hfound hpc (fun _ => rfl)
        (fun _ => rfl) })

theorem related_bindAll (h : LabelRel R label label') (binders : List LocalId) :
    Related (WalkRel hir T R I L) (fun _ _ => True) (bindAll label binders)
      (bindAll label' binders) := by
  induction binders with
  | nil => exact .of_pure trivial
  | cons binder binders ih => exact (related_bindLocal binder h).bind (fun _ _ _ => ih)

theorem related_noteBinders (isFailureArm : Bool) (binders : List LocalId) :
    Related (WalkRel hir T R I L) (fun _ _ => True) (noteBinders isFailureArm binders)
      (noteBinders isFailureArm binders) := by
  refine .of_modify (fun w w' hw => ?_)
  split
  · exact { hw with failureBinders := congrArg (binders ++ ·) hw.failureBinders }
  · exact hw

theorem related_enterArm (h : LabelRel R label label') (name : String) (binders : List LocalId) :
    Related (WalkRel hir T R I L) (fun _ _ => True) (Pass.enterArm label name binders)
      (Pass.enterArm label' name binders) := by
  refine (related_bindAll (LabelRel.triple ?_) binders).bind
    (fun _ _ _ => related_noteBinders _ binders)
  split
  · exact h.failure
  · exact h.value

theorem related_requireAt (hR : Logical R) (hI : ∀ id, I id → Rising R) (sink : Sink) (site : SinkSite)
    {value value' : Sym} (h : R value value') (span : Span) :
    Related (WalkRel hir T R I L) (fun _ _ => True) (Pass.requireAt sink site value span)
      (Pass.requireAt sink site value' span) := by
  refine Related.of_get.bind (fun w w' hw => ?_)
  split_ifs with hclear hclear' hclear'
  · exact .of_pure trivial
  · refine fun v v' hv => ⟨trivial, { hv with obligations := fun id hid => ?_ }⟩
    exact (hv.obligations id hid).obligeIn_right hR ((hI id hid).bot h) ((hI id hid).bot hw.pc)
      (fun _ => rfl)
  · refine fun v v' hv => ⟨trivial, { hv with obligations := fun id hid => ?_ }⟩
    have hvalue := (hI id hid).le h
    have hpc := (hI id hid).le hw.pc
    refine absurd ⟨?_, ?_⟩ hclear
    · exact le_bot_iff.mp ((sup_le_sup hvalue.1 hpc.1).trans (le_of_eq hclear'.1))
    · exact Finset.subset_empty.mp (hclear'.2 ▸ hvalue.2)
  · exact related_oblige hR h hw.pc

end Steps

section Calls

variable {hir : Hir} {T : Prop} {R : Sym → Sym → Prop} {I : ObligationId → Prop} {L : LocalId → Prop}

def propagateIn (labels : List SymLabel) (pc : Sym) (os : Obligations) :
    List (Sigma fun _ : ObligationId => Obligation) → Obligations
  | [] => os
  | ⟨id, o⟩ :: entries =>
      propagateIn labels pc
        (obligeIn os id { o.instantiate labels with pc := (o.instantiate labels).pc ⊔ pc }) entries

theorem run_propagate (labels : List SymLabel)
    (entries : List (Sigma fun _ : ObligationId => Obligation)) (w : Walk) :
    (Pass.propagate labels entries).run w =
      ((), { w with obligations := propagateIn labels w.pc w.obligations entries }) := by
  induction entries generalizing w with
  | nil => rfl
  | cons entry entries ih => exact ih _

variable {labels : List SymLabel} {pc : Sym} {os : Obligations} {id : ObligationId}
  {entries : List (Sigma fun _ : ObligationId => Obligation)}

theorem lookup_propagateIn_of_none (h : entries.dlookup id = none) :
    (propagateIn labels pc os entries).lookup id = os.lookup id := by
  induction entries generalizing os with
  | nil => rfl
  | cons entry entries ih =>
      obtain ⟨other, o⟩ := entry
      have hne : id ≠ other := by
        rintro rfl
        simp at h
      rw [List.dlookup_cons_ne _ _ hne] at h
      rw [propagateIn, ih h, lookup_obligeIn_ne hne]

theorem lookup_propagateIn_of_some (labels : List SymLabel) (pc : Sym) (os : Obligations)
    (hnodup : entries.NodupKeys) {o : Obligation} (h : entries.dlookup id = some o) :
    (propagateIn labels pc os entries).lookup id =
      (obligeIn os id { o.instantiate labels with pc := (o.instantiate labels).pc ⊔ pc }).lookup id := by
  induction entries generalizing os with
  | nil => simp at h
  | cons entry entries ih =>
      obtain ⟨other, p⟩ := entry
      obtain ⟨hnew, hnodup⟩ := List.nodupKeys_cons.mp hnodup
      by_cases heq : id = other
      · subst heq
        rw [List.dlookup_cons_eq] at h
        cases h
        rw [propagateIn, lookup_propagateIn_of_none (List.dlookup_eq_none.mpr hnew)]
      · rw [List.dlookup_cons_ne _ _ heq] at h
        rw [propagateIn, ih _ hnodup h]
        have hsame : (obligeIn os other
            { p.instantiate labels with pc := (p.instantiate labels).pc ⊔ pc }).lookup id =
              os.lookup id := lookup_obligeIn_ne heq
        unfold obligeIn
        unfold obligeIn at hsame
        rw [hsame]
        split <;> simp

theorem related_propagate (hR : Logical R) (hI : ∀ id, I id → Rising R) {s s' : Summary}
    (hs : SummaryRel hir T R I s s') {labels labels' : List SymLabel}
    (h : List.Forall₂ (LabelRel R) labels labels') :
    Related (WalkRel hir T R I L) (fun _ _ => True) (Pass.propagate labels s.obligations.entries)
      (Pass.propagate labels' s'.obligations.entries) := by
  intro w w' hw
  rw [run_propagate, run_propagate]
  refine ⟨trivial, { hw with obligations := fun id hid => ?_ }⟩
  have hos := hw.obligations id hid
  have hfound := hs.found h id hid
  have hpc := hs.pc h id hid
  have hsome := hs.isSome id hid
  have hreq := fun ht => hs.required ht id hid
  have hreq' := fun ht => hs.required' ht id hid
  unfold foundAt at hfound
  unfold pcAt at hpc
  cases hlookup : s.obligations.lookup id with
  | none =>
      rw [hlookup] at hfound hpc
      have hleft : (propagateIn labels w.pc w.obligations s.obligations.entries).lookup id =
          w.obligations.lookup id := lookup_propagateIn_of_none hlookup
      cases hlookup' : s'.obligations.lookup id with
      | none =>
          have hright : (propagateIn labels' w'.pc w'.obligations s'.obligations.entries).lookup
              id = w'.obligations.lookup id := lookup_propagateIn_of_none hlookup'
          exact hos.of_lookup hleft hright
      | some o' =>
          rw [hlookup'] at hfound hpc
          have hright := lookup_propagateIn_of_some labels' w'.pc w'.obligations
            s'.obligations.nodupKeys hlookup'
          refine ObligationRel.of_lookup ?_ hleft hright
          refine hos.obligeIn_right hR hfound ?_ (fun ht => hreq' ht o' hlookup')
          exact sup_bot_eq (⊥ : Sym) ▸ hR.sup hpc ((hI id hid).bot hw.pc)
  | some o =>
      rw [hlookup] at hfound hpc
      have hleft := lookup_propagateIn_of_some labels w.pc w.obligations
        s.obligations.nodupKeys hlookup
      obtain ⟨o', hlookup'⟩ := Option.isSome_iff_exists.mp (hsome (hlookup ▸ rfl))
      rw [hlookup'] at hfound hpc
      have hright := lookup_propagateIn_of_some labels' w'.pc w'.obligations
        s'.obligations.nodupKeys hlookup'
      refine ObligationRel.of_lookup ?_ hleft hright
      exact hos.obligeIn hR hfound (hR.sup hpc hw.pc) (fun ht => hreq ht o hlookup)
        (fun ht => hreq' ht o' hlookup')

end Calls

section Arguments

variable {α β : Type} {names : List String}

def Arg.map (f : α → β) (arg : Arg α) : Arg β := ⟨arg.name, arg.id, f arg.value⟩

theorem placeArg_map (f : α → β) (slots : List (Option α) × Nat) (arg : Arg α) :
    placeArg names (slots.1.map (Option.map f), slots.2) (arg.map f) =
      ((placeArg names slots arg).1.map (Option.map f), (placeArg names slots arg).2) := by
  obtain ⟨name, id, value⟩ := arg
  cases name with
  | none =>
      simp only [placeArg, Arg.map, List.length_map]
      split <;> simp
  | some name =>
      simp only [placeArg, Arg.map]
      split <;> simp

theorem orderArgs_map (f : α → β) (args : List (Arg α)) :
    orderArgs names (args.map (Arg.map f)) = (orderArgs names args).map (Option.map f) := by
  have hstep : ∀ slots : List (Option α) × Nat,
      (args.map (Arg.map f)).foldl (placeArg names) (slots.1.map (Option.map f), slots.2) =
        ((args.foldl (placeArg names) slots).1.map (Option.map f),
          (args.foldl (placeArg names) slots).2) := by
    induction args with
    | nil => exact fun _ => rfl
    | cons arg args ih =>
        intro slots
        rw [List.map_cons, List.foldl_cons, List.foldl_cons, placeArg_map, ih]
  have := congrArg Prod.fst (hstep (List.replicate names.length none, 0))
  simpa only [orderArgs, List.map_replicate, Option.map_none] using this

variable {slots : List (Option α) × Nat} {value : α}

theorem mem_placeArg {arg : Arg α} (h : some value ∈ (placeArg names slots arg).1) :
    some value ∈ slots.1 ∨ value = arg.value := by
  have hset : ∀ index, some value ∈ slots.1.set index (some arg.value) →
      some value ∈ slots.1 ∨ value = arg.value := by
    intro index hin
    obtain hin | heq := List.mem_or_eq_of_mem_set hin
    · exact .inl hin
    · exact .inr (Option.some.inj heq)
  unfold placeArg at h
  split at h
  · split at h
    · exact hset _ h
    · exact .inl h
  · split at h
    · exact hset _ h
    · exact .inl h

variable {args : List (Arg α)}

theorem mem_foldl_placeArg (h : some value ∈ (args.foldl (placeArg names) slots).1) :
    some value ∈ slots.1 ∨ value ∈ args.map Arg.value := by
  induction args generalizing slots with
  | nil => exact .inl h
  | cons arg args ih =>
      rw [List.map_cons, List.mem_cons]
      obtain hin | hin := ih h
      · exact (mem_placeArg hin).imp_right .inl
      · exact .inr (.inr hin)

theorem mem_orderArgs (h : some value ∈ orderArgs names args) :
    value ∈ args.map Arg.value := by
  obtain hin | hin := mem_foldl_placeArg h
  · exact absurd (List.eq_of_mem_replicate hin) (Option.some_ne_none value)
  · exact hin

theorem foreignSlots_map (f : α → β) (next : Nat) (args : List (Arg α)) :
    foreignSlots names next (args.map (Arg.map f)) = foreignSlots names next args := by
  induction args generalizing next with
  | nil => rfl
  | cons arg args ih =>
      obtain ⟨name, id, value⟩ := arg
      cases name with
      | none =>
          simp only [List.map_cons, Arg.map, foreignSlots]
          split <;> exact congrArg _ (ih _)
      | some name => exact congrArg _ (ih _)

end Arguments

end Graph
end Zdeceptron
