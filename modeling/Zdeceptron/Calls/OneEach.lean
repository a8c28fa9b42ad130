import Zdeceptron.Calls.Uses

/-!
# One argument, one parameter

Where a use is accepted, every parameter has an argument, and what is emitted for it is what
its type was compared with.  What is emitted is the last argument written for the parameter.

* `one_each_iff`: every argument is received exactly if no parameter is given twice.
-/

namespace Zdeceptron
namespace Calls

open Bodies (Arg Param fillSlots allFilled orderedArguments orderedArguments_map allFilled_map)

variable {α β : Type}

section Accepted

variable {names : List String} {args : List (Arg α)}

theorem ordered_of_given {ps : List (Nat × α)} {es : List α} (hgiven : given names 0 args = some ps)
    (hslots : place ps (List.replicate names.length none) = es.map some) :
    orderedArguments names args = some es := by
  unfold orderedArguments
  rw [fillSlots_eq names args 0 _ (by simp), hgiven]
  exact allFilled_eq_some.mpr hslots

variable {name : String} {w : Wording}

theorem matching_given {m : Matching α} (hlength : m.slots.length = names.length)
    (h : (args.foldl (Matching.take w name names) m).reports = []) :
    m.reports = [] ∧ ∃ ps, given names m.next args = some ps ∧
      (args.foldl (Matching.take w name names) m).slots = place ps m.slots := by
  induction args generalizing m with
  | nil => exact ⟨h, [], rfl, rfl⟩
  | cons arg args ih =>
      rw [List.foldl_cons] at h ⊢
      cases arg with
      | positional expr =>
          by_cases hnext : m.slots.length ≤ m.next
          · rw [Matching.take, if_pos hnext] at h
            have hreports := (ih (m := m.report _ _) hlength h).1
            simp [Matching.report] at hreports
          · rw [Matching.take, if_neg hnext] at h ⊢
            obtain ⟨hreports, ps, hgiven, hslots⟩ := ih (by simpa using hlength) h
            refine ⟨hreports, (m.next, expr) :: ps, ?_, hslots⟩
            rw [given, if_neg (by omega), hgiven]
            rfl
      | named written expr =>
          rw [Matching.take] at h ⊢
          cases hindex : names.idxOf? written with
          | none =>
              rw [hindex] at h
              have hreports := (ih (m := m.report _ _) hlength h).1
              simp [Matching.report] at hreports
          | some index =>
              rw [hindex] at h
              obtain ⟨hreports, ps, hgiven, hslots⟩ := ih (by simpa using hlength) h
              refine ⟨hreports, (index, expr) :: ps, ?_, hslots⟩
              simp only [given, hindex, hgiven]
              rfl

variable {expect : Nat → α → Bool}

theorem filled_of_judge {index : Nat} {slots : List (Option α)}
    (hlength : slots.length = names.length) (h : judge w expect name names index slots = []) :
    ∃ es : List α, slots = es.map some := by
  induction slots generalizing names index with
  | nil => exact ⟨[], rfl⟩
  | cons slot slots ih =>
      cases names with
      | nil => simp at hlength
      | cons param names =>
          rw [judge, List.append_eq_nil_iff] at h
          obtain ⟨es, rfl⟩ := ih (by simpa using hlength) h.2
          cases slot with
          | none => simp [judgeSlot] at h
          | some expr => exact ⟨expr :: es, rfl⟩

theorem matched_passes (h : (matched w expect name names args).2 = []) :
    ∃ es, orderedArguments names args = some es ∧
      (matched w expect name names args).1 = es.map some := by
  have hstart : (Matching.start names : Matching α).slots.length = names.length := by
    simp [Matching.start]
  unfold matched at h ⊢
  obtain ⟨hreports, hjudge⟩ := List.append_eq_nil_iff.mp h
  obtain ⟨-, ps, hgiven, hslots⟩ := matching_given hstart hreports
  obtain ⟨es, hes⟩ := filled_of_judge (by rw [hslots, length_place, hstart]) hjudge
  refine ⟨es, ordered_of_given hgiven ?_, hes⟩
  rw [← hes, hslots]
  rfl

end Accepted

section Records

variable {names : List String} {args : List (Arg α)}

variable {slots filled : List (Option α)}

theorem fillSlots_of_fillFields (next : Nat) (h : fillFields names args slots = some filled) :
    fillSlots names args next slots = some filled := by
  induction args generalizing slots with
  | nil => exact h
  | cons arg args ih =>
      cases arg with
      | positional value => cases h
      | named name value =>
          rw [fillFields] at h
          rw [fillSlots]
          cases hindex : names.idxOf? name with
          | none =>
              rw [hindex] at h
              cases h
          | some index =>
              rw [hindex] at h
              exact ih h

theorem ordered_of_byDeclaration {es : List α}
    (h : Emitter.by_declaration_order names args = some es) :
    orderedArguments names args = some es := by
  obtain ⟨filled, hfilled, hes⟩ := Option.bind_eq_some_iff.mp h
  unfold orderedArguments
  rw [fillSlots_of_fillFields 0 hfilled]
  exact hes

theorem fillFields_map (f : α → β) (names : List String) (args : List (Arg α))
    (slots : List (Option α)) :
    fillFields names (args.map (Arg.map f)) (slots.map (Option.map f)) =
      (fillFields names args slots).map (List.map (Option.map f)) := by
  induction args generalizing slots with
  | nil => rfl
  | cons arg args ih =>
      cases arg with
      | positional value => rfl
      | named name value =>
          simp only [List.map_cons, Arg.map, fillFields]
          cases names.idxOf? name with
          | none => rfl
          | some index => rw [← ih, List.map_set, Option.map_some]

variable {expect : Nat → α → Bool}

theorem construct_fills {owner : String} {m : Matching α}
    (h : (args.foldl (Construct.take expect owner names) m).reports = []) :
    m.reports = [] ∧ fillFields names args m.slots =
      some (args.foldl (Construct.take expect owner names) m).slots := by
  induction args generalizing m with
  | nil => exact ⟨h, rfl⟩
  | cons arg args ih =>
      rw [List.foldl_cons] at h ⊢
      cases arg with
      | positional expr =>
          obtain ⟨hreports, -⟩ := ih h
          simp [Construct.take, Matching.report] at hreports
      | named name expr =>
          rw [Construct.take] at h ⊢
          rw [fillFields]
          cases hindex : names.idxOf? name with
          | none =>
              rw [hindex] at h
              have hreports := (ih (m := m.report _ _) h).1
              simp [Matching.report] at hreports
          | some index =>
              rw [hindex] at h
              obtain ⟨hreports, hfill⟩ := ih h
              simp only [List.append_eq_nil_iff] at hreports
              exact ⟨hreports.1.1, hfill⟩

theorem filled_of_missing {slots : List (Option α)}
    (hlength : slots.length = names.length) (h : missing names slots = []) :
    ∃ es : List α, slots = es.map some := by
  induction slots generalizing names with
  | nil => exact ⟨[], rfl⟩
  | cons slot slots ih =>
      cases names with
      | nil => simp at hlength
      | cons name names =>
          cases slot with
          | none => simp [missing] at h
          | some value =>
              have hmissing : missing names slots = [] := by simpa [missing] using h
              obtain ⟨es, rfl⟩ := ih (by simpa using hlength) hmissing
              exact ⟨value :: es, rfl⟩

theorem fillFields_length (h : fillFields names args slots = some filled) :
    filled.length = slots.length :=
  Bodies.fillSlots_length (fillSlots_of_fillFields 0 h)

theorem construct_passes {owner : String} (h : (Checker.construct expect owner names args).2 = []) :
    ∃ es, Emitter.by_declaration_order names args = some es ∧
      (Checker.construct expect owner names args).1 = es.map some := by
  unfold Checker.construct at h ⊢
  dsimp only at h ⊢
  split at h
  · next hmissing =>
    obtain ⟨-, hfill⟩ := construct_fills h
    obtain ⟨es, hes⟩ := filled_of_missing
      ((fillFields_length hfill).trans (by simp [Matching.start])) hmissing
    refine ⟨es, ?_, hes⟩
    unfold Emitter.by_declaration_order
    have hstart : fillFields names args (List.replicate names.length none) = some (es.map some) :=
      hfill.trans (congrArg some hes)
    rw [hstart]
    exact allFilled_eq_some.mpr rfl
  · simp at h

end Records

section Components

theorem find_param (params : List Param) (written : String) :
    params.find? (fun param => param.name == written) =
      ((params.map Param.name).idxOf? written).bind fun index => params[index]? := by
  induction params with
  | nil => rfl
  | cons param params ih =>
      rw [List.map_cons, List.idxOf?_cons, List.find?_cons]
      by_cases hname : param.name = written
      · simp [hname]
      · simp only [beq_eq_false_iff_ne.mpr hname, Bool.false_eq_true, if_false, ih]
        cases (params.map Param.name).idxOf? written <;> simp

variable {component : Component}

def Binding.at_ (b : Binding α) (component : Component) (index : Nat) : Option α :=
  component.params[index]?.bind fun param => b.bound param.id

variable {b : Binding α}

theorem insert_at {index : Nat} {param : Param} {value : α}
    (h : component.params[index]? = some param) (other : Nat) :
    (b.insert param value).at_ component other =
      if index = other then some value else b.at_ component other := by
  unfold Binding.at_ Binding.insert
  by_cases hother : index = other
  · subst hother
    simp [h]
  · rw [if_neg hother]
    cases hparam : component.params[other]? with
    | none => rfl
    | some param' =>
        have hne : param'.id ≠ param.id := by
          intro heq
          obtain ⟨hlt, -⟩ := List.getElem?_eq_some_iff.mp h
          have hids : (component.params.map Param.id)[index]? =
              (component.params.map Param.id)[other]? := by simp [h, hparam, heq]
          exact hother ((List.getElem?_inj (by simpa using hlt) component.distinct).mp hids)
        simp [Function.update_of_ne hne]

variable {args : List (Arg α)} {name : String}

theorem binding_given (h : (args.foldl (Binding.take name component) b).failed = false) :
    b.failed = false ∧ ∃ ps, given component.names b.positional args = some ps ∧
      ∀ index, (args.foldl (Binding.take name component) b).at_ component index =
        (lastGiven index ps).or (b.at_ component index) := by
  induction args generalizing b with
  | nil => exact ⟨h, [], rfl, fun index => (Option.none_or).symm⟩
  | cons arg args ih =>
      rw [List.foldl_cons] at h ⊢
      -- a value that is inserted counts unless a later one does
      have hinsert : ∀ {index : Nat} {param : Param} {value : α} {b' : Binding α} {ps},
          component.params[index]? = some param → b'.bound = (b.insert param value).bound →
          (∀ i, (args.foldl (Binding.take name component) b').at_ component i =
            (lastGiven i ps).or (b'.at_ component i)) →
          ∀ i, (args.foldl (Binding.take name component) b').at_ component i =
            (lastGiven i ((index, value) :: ps)).or (b.at_ component i) := by
        intro index param value b' ps hparam hbound hlast i
        have hat : b'.at_ component i = (b.insert param value).at_ component i := by
          simp only [Binding.at_, hbound]
        rw [hlast i, hat, insert_at hparam, lastGiven]
        split_ifs with hi
        · cases lastGiven i ps <;> rfl
        · cases lastGiven i ps <;> rfl
      cases arg with
      | positional value =>
          rw [Binding.take] at h ⊢
          cases hparam : component.params[b.positional]? with
          | none =>
              rw [hparam] at h
              have hfailed := (ih (b := b.fail _ _) h).1
              simp [Binding.fail] at hfailed
          | some param =>
              rw [hparam] at h
              obtain ⟨hfailed, ps, hgiven, hlast⟩ := ih h
              refine ⟨hfailed, (b.positional, value) :: ps, ?_, hinsert hparam rfl hlast⟩
              have hlt : b.positional < component.names.length := by
                simpa [Component.names] using (List.getElem?_eq_some_iff.mp hparam).1
              rw [given, if_neg (by omega), hgiven]
              rfl
      | named written value =>
          rw [Binding.take, find_param] at h ⊢
          cases hindex : (component.params.map Param.name).idxOf? written with
          | none =>
              rw [hindex] at h
              have hfailed := (ih (b := b.fail _ _) h).1
              simp [Binding.fail] at hfailed
          | some index =>
              obtain ⟨hlt, -⟩ := List.idxOf?_eq_some_iff.mp hindex
              obtain ⟨param, hparam⟩ : ∃ param, component.params[index]? = some param :=
                ⟨_, List.getElem?_eq_getElem (by simpa using hlt)⟩
              rw [hindex] at h
              rw [Option.bind_some, hparam] at h ⊢
              dsimp only at h ⊢
              split_ifs at h ⊢ with htwice
              · have hfailed := (ih (b := (b.insert _ value).fail _ _) h).1
                simp [Binding.fail] at hfailed
              · obtain ⟨hfailed, ps, hgiven, hlast⟩ := ih h
                refine ⟨hfailed, (index, value) :: ps, ?_, hinsert hparam rfl hlast⟩
                have hnamed : component.names.idxOf? written = some index := hindex
                simp only [given, hnamed]
                exact congrArg (Option.map _) hgiven

theorem failed_of_reports (hb : b.reports = [] → b.failed = false)
    (h : (args.foldl (Binding.take name component) b).reports = []) :
    (args.foldl (Binding.take name component) b).failed = false := by
  induction args generalizing b with
  | nil => exact hb h
  | cons arg args ih =>
      have hfail : ∀ (b : Binding α) message argument,
          (b.fail message argument).reports = [] → (b.fail message argument).failed = false := by
        intro b message argument hreports
        simp [Binding.fail] at hreports
      refine ih ?_ h
      cases arg with
      | positional value =>
          rw [Binding.take]
          split
          · exact hfail _ _ _
          · exact hb
      | named written value =>
          rw [Binding.take]
          split
          · exact hfail _ _ _
          · split_ifs
            · exact hfail _ _ _
            · exact hb

def Report.map (f : α → β) (report : Report α) : Report β :=
  ⟨report.message, report.argument.map f⟩

def Binding.map (f : α → β) (b : Binding α) : Binding β :=
  ⟨fun id => (b.bound id).map f, b.positional, b.reports.map (Report.map f), b.failed⟩

theorem Binding.map_fail (f : α → β) (b : Binding α) (message : String) (argument : Option α) :
    (b.fail message argument).map f = (b.map f).fail message (argument.map f) := by
  simp [Binding.fail, Binding.map, Report.map]

theorem Binding.map_insert (f : α → β) (b : Binding α) (param : Param) (value : α) :
    (b.insert param value).map f = (b.map f).insert param (f value) := by
  have hbound : (fun id => (Function.update b.bound param.id (some value) id).map f) =
      Function.update (fun id => (b.bound id).map f) param.id (some (f value)) := by
    funext id
    by_cases hid : id = param.id
    · subst hid
      simp
    · simp [hid]
  simp [Binding.insert, Binding.map, hbound]

theorem Binding.map_take (f : α → β) (name : String) (b : Binding α) (arg : Arg α) :
    (Binding.take name component b arg).map f =
      Binding.take name component (b.map f) (arg.map f) := by
  cases arg with
  | positional value =>
      have hpositional : (b.map f).positional = b.positional := rfl
      rw [Arg.map, Binding.take, Binding.take, hpositional]
      cases component.params[b.positional]? with
      | none => exact Binding.map_fail f b _ _
      | some param =>
          have hinsert := Binding.map_insert f b param value
          simp only [Binding.map, Binding.insert] at hinsert ⊢
          simp only [Binding.mk.injEq] at hinsert ⊢
          simp [hinsert]
  | named written value =>
      rw [Arg.map, Binding.take, Binding.take]
      cases component.params.find? (fun param => param.name == written) with
      | none => exact Binding.map_fail f b _ _
      | some param =>
          have hbound : ((b.map f).bound param.id).isSome = (b.bound param.id).isSome :=
            Option.isSome_map
          dsimp only
          rw [hbound]
          split_ifs
          · rw [Binding.map_fail, Binding.map_insert]
            rfl
          · exact Binding.map_insert f b param value

theorem Binding.map_foldl (f : α → β) (name : String) (args : List (Arg α)) (b : Binding α) :
    (args.foldl (Binding.take name component) b).map f =
      (args.map (Arg.map f)).foldl (Binding.take name component) (b.map f) := by
  induction args generalizing b with
  | nil => rfl
  | cons arg args ih =>
      rw [List.foldl_cons, List.map_cons, List.foldl_cons, ih, Binding.map_take]

def allBound (name : String) (component : Component) (args : List (Arg α)) : Binding α :=
  args.foldl (Binding.take name component) Binding.start

theorem bound_eq (name : String) (component : Component) (args : List (Arg α)) :
    (Instantiate.bind_arguments name component args).1 =
      if (allBound name component args).failed = false ∧
          ∀ param ∈ component.params, ((allBound name component args).bound param.id).isSome then
        some (allBound name component args).bound
      else none := by
  have habsent : ((component.params.filter fun param =>
      ((allBound name component args).bound param.id).isNone).map Param.name = []) ↔
        ∀ param ∈ component.params,
          ((allBound name component args).bound param.id).isSome := by
    simp [Option.isSome_iff_ne_none]
  unfold Instantiate.bind_arguments
  dsimp only
  rw [← allBound]
  by_cases hall : ∀ param ∈ component.params,
      ((allBound name component args).bound param.id).isSome
  · rw [if_pos (habsent.mpr hall)]
    cases (allBound name component args).failed with
    | true => simp
    | false => rw [if_neg Bool.false_ne_true, if_pos ⟨rfl, hall⟩]
  · have hfailed : ¬ ((allBound name component args).failed = false ∧ ∀ param ∈ component.params,
        ((allBound name component args).bound param.id).isSome) := fun h => hall h.2
    rw [if_neg (fun h => hall (habsent.mp h)), if_neg hfailed]
    exact if_pos rfl

theorem bind_arguments_map (f : α → β) (name : String) (component : Component)
    (args : List (Arg α)) :
    (Instantiate.bind_arguments name component (args.map (Arg.map f))).1 =
      (Instantiate.bind_arguments name component args).1.map fun bound id => (bound id).map f := by
  have hbound : allBound name component (args.map (Arg.map f)) =
      (allBound name component args).map f := (Binding.map_foldl f name args Binding.start).symm
  rw [bound_eq, bound_eq, hbound]
  simp only [Binding.map, Option.isSome_map]
  split_ifs <;> rfl

theorem bind_arguments_given {bound : Nat → Option α}
    (h : (Instantiate.bind_arguments name component args).1 = some bound) :
    ∃ ps, given component.names 0 args = some ps ∧ ∀ index,
      (component.params[index]?.bind fun param => bound param.id) = lastGiven index ps := by
  rw [bound_eq] at h
  split_ifs at h with hbound
  cases h
  obtain ⟨-, ps, hgiven, hlast⟩ := binding_given hbound.1
  refine ⟨ps, hgiven, fun index => ?_⟩
  have hindex := hlast index
  have hstart : (Binding.start : Binding α).at_ component index = none := by
    unfold Binding.at_ Binding.start
    cases component.params[index]? <;> rfl
  rwa [hstart, Option.or_none] at hindex

theorem bind_arguments_passes (h : (Instantiate.bind_arguments name component args).2 = []) :
    ∃ (bound : Nat → Option α) (es : List α),
      (Instantiate.bind_arguments name component args).1 = some bound ∧
      component.params.map (fun param => bound param.id) = es.map some := by
  have hreports : (allBound name component args).reports = [] ∧
      ∀ param ∈ component.params, ((allBound name component args).bound param.id).isSome := by
    unfold Instantiate.bind_arguments at h
    dsimp only at h
    rw [← allBound] at h
    split_ifs at h with habsent
    · exact ⟨h, by simpa [Option.isSome_iff_ne_none] using habsent⟩
    · simp [Binding.fail] at h
  have hfailed : (allBound name component args).failed = false :=
    failed_of_reports (b := Binding.start) (fun _ => rfl) hreports.1
  refine ⟨(allBound name component args).bound, ?_⟩
  rw [bound_eq, if_pos ⟨hfailed, hreports.2⟩]
  have hall : ∀ params : List Param,
      (∀ param ∈ params, ((allBound name component args).bound param.id).isSome) →
      ∃ es : List α, params.map (fun param => (allBound name component args).bound param.id) =
        es.map some := by
    intro params
    induction params with
    | nil => exact fun _ => ⟨[], rfl⟩
    | cons param params ih =>
        intro hparams
        obtain ⟨es, hes⟩ := ih fun p hp => hparams p (List.mem_cons_of_mem _ hp)
        obtain ⟨value, hvalue⟩ := Option.isSome_iff_exists.mp (hparams param List.mem_cons_self)
        exact ⟨value :: es, by simp [hvalue, hes]⟩
  obtain ⟨es, hes⟩ := hall component.params hreports.2
  exact ⟨es, rfl, hes⟩

end Components

section Uses

namespace Use

variable {use : Use}

theorem passes_of_accepted {expect : Nat → α → Bool} {args : List (Arg α)}
    (h : use.reports expect args = []) :
    ∃ es, use.passed args = some es ∧ use.compared expect args = es.map some := by
  cases use with
  | call name params => exact matched_passes h
  | element name params => exact matched_passes h
  | record name fields => exact construct_passes h
  | component name declared =>
      obtain ⟨bound, es, hbound, hes⟩ := bind_arguments_passes h
      refine ⟨es, ?_, ?_⟩
      · rw [passed, hbound, Option.bind_some, hes]
        exact allFilled_eq_some.mpr rfl
      · rw [compared, hbound]
        exact hes

theorem passed_map (use : Use) (f : α → β) (args : List (Arg α)) :
    use.passed (args.map (Arg.map f)) = (use.passed args).map (List.map f) := by
  cases use with
  | call name params => exact orderedArguments_map f params args
  | element name params => exact orderedArguments_map f params args
  | record name fields =>
      rw [passed, passed, Emitter.by_declaration_order, Emitter.by_declaration_order]
      have hfields := fillFields_map f fields args (List.replicate fields.length none)
      rw [List.map_replicate, Option.map_none] at hfields
      rw [hfields]
      cases fillFields fields args (List.replicate fields.length none) with
      | none => rfl
      | some slots => exact allFilled_map f slots
  | component name declared =>
      rw [passed, passed, bind_arguments_map]
      cases (Instantiate.bind_arguments name declared args).1 with
      | none => rfl
      | some bound =>
          rw [Option.map_some, Option.bind_some, Option.bind_some, ← allFilled_map, List.map_map]
          rfl

variable {names : List String}

theorem ordered_last {args : List (Arg α)} {es : List α}
    (h : orderedArguments names args = some es) :
    ∃ ps, given names 0 args = some ps ∧ es.length = names.length ∧
      ∀ index < names.length, es[index]? = lastGiven index ps := by
  unfold orderedArguments at h
  rw [fillSlots_eq names args 0 _ (by simp)] at h
  obtain ⟨slots, hslots, hes⟩ := Option.bind_eq_some_iff.mp h
  obtain ⟨ps, hgiven, rfl⟩ := Option.map_eq_some_iff.mp hslots
  rw [allFilled_eq_some] at hes
  have hlength := congrArg List.length hes
  rw [length_place, List.length_replicate, List.length_map] at hlength
  refine ⟨ps, hgiven, hlength.symm, fun index hindex => ?_⟩
  have hslot := getElem?_place_none ps hindex
  rw [hes, List.getElem?_map] at hslot
  cases hget : es[index]? with
  | none =>
      rw [hget] at hslot
      cases hslot
  | some value =>
      rw [hget] at hslot
      exact Option.some.inj hslot

theorem passed_last {args : List (Arg α)} {es : List α} (h : use.passed args = some es) :
    ∃ ps, given use.params 0 args = some ps ∧ es.length = use.params.length ∧
      ∀ index < use.params.length, es[index]? = lastGiven index ps := by
  cases use with
  | call name params => exact ordered_last h
  | element name params => exact ordered_last h
  | record name fields => exact ordered_last (ordered_of_byDeclaration h)
  | component name declared =>
      obtain ⟨bound, hbound, hes⟩ := Option.bind_eq_some_iff.mp h
      obtain ⟨ps, hgiven, hlast⟩ := bind_arguments_given hbound
      rw [allFilled_eq_some] at hes
      have hlength : es.length = declared.names.length := by
        have hlength := congrArg List.length hes
        simpa [Component.names] using hlength.symm
      refine ⟨ps, hgiven, hlength, fun index _ => ?_⟩
      have hget := congrArg (fun slots => slots[index]?.join) hes
      simp only [List.getElem?_map] at hget
      rw [← hlast index]
      cases hparam : declared.params[index]? with
      | none =>
          rw [hparam] at hget
          cases hvalue : es[index]? with
          | none => rfl
          | some value => simp [hvalue] at hget
      | some param =>
          rw [hparam] at hget
          cases hvalue : es[index]? with
          | none => simpa [hvalue] using hget.symm
          | some value => simpa [hvalue] using hget.symm

theorem numbered_values (args : List (Arg α)) :
    (numbered args).map Arg.value = args.mapIdx fun i arg => (i, arg.value) := by
  refine List.ext_getElem? fun i => ?_
  rw [numbered, List.getElem?_map, List.getElem?_mapIdx, List.getElem?_mapIdx]
  cases args[i]? with
  | none => rfl
  | some arg => cases arg <;> rfl

theorem numbered_map (args : List (Arg α)) :
    (numbered args).map (Arg.map Prod.snd) = args := by
  refine List.ext_getElem? fun i => ?_
  rw [numbered, List.getElem?_map, List.getElem?_mapIdx]
  cases args[i]? with
  | none => rfl
  | some arg => cases arg <;> rfl

variable {ps : List (Nat × Nat × α)}

theorem given_positions {args : List (Arg α)} (h : given names 0 (numbered args) = some ps) :
    ps.map (fun p => p.2.1) = List.range args.length := by
  have hvalues := congrArg (List.map Prod.fst) (given_values h)
  rw [numbered_values, List.map_map] at hvalues
  refine hvalues.trans (List.ext_getElem (by simp) fun i _ _ => ?_)
  simp

theorem eq_of_position {n : Nat}
    (hpositions : ps.map (fun p => p.2.1) = List.range n) {p q : Nat × Nat × α} (hp : p ∈ ps)
    (hq : q ∈ ps) (h : p.2.1 = q.2.1) : p = q := by
  have hnodup : (ps.map fun p => p.2.1).Nodup := hpositions ▸ List.nodup_range
  exact List.inj_on_of_nodup_map hnodup hp hq h

section Received

variable {args : List (Arg α)} {ps : List (Nat × Nat × α)}

theorem receives_iff {es : List (Nat × α)} (hes : use.passed (numbered args) = some es)
    (hlength : es.length = use.params.length)
    (hlast : ∀ index < use.params.length, es[index]? = lastGiven index ps) {param i : Nat} :
    use.Receives args param i ↔
      param < use.params.length ∧ ∃ value, lastGiven param ps = some (i, value) := by
  constructor
  · rintro ⟨es', hes', hget⟩
    obtain rfl := Option.some.inj (hes.symm.trans hes')
    obtain ⟨⟨j, value⟩, hvalue, hj⟩ := Option.map_eq_some_iff.mp hget
    have hparam : param < use.params.length := by
      rw [← hlength]
      exact (List.getElem?_eq_some_iff.mp hvalue).1
    refine ⟨hparam, value, ?_⟩
    rw [← hlast param hparam, hvalue, ← hj]
  · rintro ⟨hparam, value, hvalue⟩
    refine ⟨es, hes, ?_⟩
    rw [hlast param hparam, hvalue]
    rfl

theorem received_iff (hlt : ∀ p ∈ ps, p.1 < use.params.length)
    (hpositions : ps.map (fun p => p.2.1) = List.range args.length)
    (hreceives : ∀ {param i}, use.Receives args param i ↔
      param < use.params.length ∧ ∃ value, lastGiven param ps = some (i, value)) :
    (∀ i < args.length, ∃! param, use.Receives args param i) ↔
      ∀ p ∈ ps, lastGiven p.1 ps = some p.2 := by
  have hposition : ∀ p ∈ ps, p.2.1 < args.length := by
    intro p hp
    have hmem : p.2.1 ∈ ps.map fun p => p.2.1 := List.mem_map_of_mem hp
    simpa [hpositions] using hmem
  constructor
  · intro h p hp
    obtain ⟨param, hparam, -⟩ := h p.2.1 (hposition p hp)
    obtain ⟨-, value, hvalue⟩ := hreceives.mp hparam
    have heq := eq_of_position hpositions (mem_of_lastGiven hvalue) hp rfl
    rw [← heq]
    exact hvalue
  · intro h i hi
    obtain ⟨p, hp, rfl⟩ : ∃ p ∈ ps, p.2.1 = i := by
      have hmem : i ∈ ps.map fun p => p.2.1 := by simpa [hpositions] using hi
      simpa using hmem
    refine ⟨p.1, hreceives.mpr ⟨hlt p hp, p.2.2, h p hp⟩, ?_⟩
    intro param hparam
    obtain ⟨-, value, hvalue⟩ := hreceives.mp hparam
    exact congrArg Prod.fst (eq_of_position hpositions (mem_of_lastGiven hvalue) hp rfl)

end Received

/-- In a use that is accepted, parameters and arguments correspond exactly if no parameter is
given twice. -/
theorem one_each_iff (use : Use) (expect : Nat → α → Bool) (args : List (Arg α))
    (h : use.reports expect args = []) :
    use.OneEach expect args ↔ givenOnce use.params args = true := by
  obtain ⟨es, hes, hcompared⟩ := passes_of_accepted h
  have hmapped := use.passed_map Prod.snd (numbered args)
  rw [numbered_map, hes] at hmapped
  obtain ⟨es', hes', -⟩ := Option.map_eq_some_iff.mp hmapped.symm
  obtain ⟨ps, hgiven, hlength, hlast⟩ := passed_last hes'
  have hpositions := given_positions hgiven
  have hreceives : ∀ {param i}, use.Receives args param i ↔
      param < use.params.length ∧ ∃ value, lastGiven param ps = some (i, value) :=
    receives_iff hes' hlength hlast
  have hreceived := received_iff (given_lt hgiven) hpositions hreceives
  -- each value has its own position, so none is lost exactly if the parameters differ
  have hvalues : (ps.map Prod.snd).Nodup := by
    refine List.Nodup.of_map Prod.fst ?_
    rw [List.map_map]
    exact hpositions ▸ List.nodup_range
  have honce : givenOnce use.params args = true ↔ (ps.map Prod.fst).Nodup := by
    have hnumbered := given_map Prod.snd use.params 0 (numbered args)
    rw [numbered_map, hgiven, Option.map_some] at hnumbered
    unfold givenOnce
    rw [hnumbered]
    simp only [List.map_map, decide_eq_true_eq]
    rfl
  rw [honce, ← all_last_iff hvalues, ← hreceived]
  constructor
  · exact OneEach.received
  · intro hall
    refine ⟨fun param hparam => ?_, hall, es, hes, hcompared⟩
    obtain ⟨⟨i, value⟩, hvalue⟩ : ∃ p, es'[param]? = some p :=
      ⟨_, List.getElem?_eq_getElem (hlength.symm ▸ hparam)⟩
    rw [hlast param hparam] at hvalue
    have hi : i < args.length := by
      have hmem : i ∈ ps.map fun p => p.2.1 :=
        List.mem_map_of_mem (f := fun p : Nat × Nat × α => p.2.1) (mem_of_lastGiven hvalue)
      simpa [hpositions] using hmem
    refine ⟨i, ⟨hi, hreceives.mpr ⟨hparam, value, hvalue⟩⟩, ?_⟩
    rintro j ⟨-, hj⟩
    obtain ⟨-, other, hother⟩ := hreceives.mp hj
    rw [hvalue] at hother
    cases hother
    rfl

theorem one_each_two : (Use.call "f" ["a", "b"]).OneEach (fun _ _ => true)
    [.named "b" 2, .positional 1] :=
  (one_each_iff (.call "f" ["a", "b"]) (fun _ _ => true) [.named "b" 2, .positional 1] rfl).mpr
    (by decide +kernel)

/-- `f with 1, a is 2` is accepted for an `f` of one parameter `a`, and the first argument is
received by none. -/
theorem first_argument_lost :
    (Use.call "f" ["a"]).reports (fun _ _ => true) [.positional 1, .named "a" 2] = [] ∧
      ¬ (Use.call "f" ["a"]).OneEach (fun _ _ => true) [.positional 1, .named "a" 2] := by
  refine ⟨rfl, ?_⟩
  intro h
  obtain ⟨param, ⟨es, hes, hget⟩, -⟩ := h.received 0 (by decide)
  cases hes
  cases param with
  | zero => simp at hget
  | succ param => simp at hget

end Use

end Uses

end Calls
end Zdeceptron
