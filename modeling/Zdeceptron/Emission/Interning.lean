import Mathlib.Data.List.Sort
import Mathlib.Data.Prod.Lex
import Mathlib.Data.String.Basic

/-!
# Interned style sets

The declarations of an element are sorted, one is kept for each condition and property, and
elements left with the same set share a class.  What is kept is the least value, where the
cascade takes the last one written.
-/

namespace Zdeceptron
namespace Interning

section Declarations

inductive Condition
  | always
  | hover
  | focus
  | active
  | disabled
  | narrow
  | wide
  | dark
  | motion
  | start
  | mid
  | finish
deriving DecidableEq

@[ext] structure Declaration where
  condition : Condition
  property : String
  value : String
deriving DecidableEq

namespace Declaration

abbrev Same (d e : Declaration) : Prop := d.condition = e.condition ∧ d.property = e.property

def group (d : Declaration) : ℕ ×ₗ String := toLex (d.condition.ctorIdx, d.property)

theorem ctorIdx_injective : Function.Injective Condition.ctorIdx := by
  intro c c' h
  cases c <;> cases c' <;> first | rfl | exact absurd h (by decide)

variable {d e : Declaration}

theorem same_iff : d.Same e ↔ d.group = e.group := by
  constructor
  · rintro ⟨hcondition, hproperty⟩
    unfold group
    rw [hcondition, hproperty]
  · intro h
    exact ⟨ctorIdx_injective (congrArg (fun g => (ofLex g).1) h),
      congrArg (fun g => (ofLex g).2) h⟩

def key (d : Declaration) : (ℕ ×ₗ String) ×ₗ String := toLex (d.group, d.value)

theorem key_injective : Function.Injective key := by
  intro d e h
  obtain ⟨hcondition, hproperty⟩ := same_iff.mpr (congrArg (fun k => (ofLex k).1) h)
  exact Declaration.ext hcondition hproperty (congrArg (fun k => (ofLex k).2) h)

instance : LinearOrder Declaration := LinearOrder.lift' key key_injective

theorem le_iff :
    d ≤ e ↔ d.group < e.group ∨ d.group = e.group ∧ d.value ≤ e.value :=
  Prod.Lex.toLex_le_toLex

theorem le_iff_value_le (h : d.Same e) : d ≤ e ↔ d.value ≤ e.value := by
  rw [le_iff, same_iff.mp h]
  simp

theorem group_le (h : d ≤ e) : d.group ≤ e.group :=
  (le_iff.mp h).elim le_of_lt (fun hsame => hsame.1.le)

theorem Same.of_between {a b c : Declaration} (hab : a ≤ b) (hbc : b ≤ c) (h : c.Same a) :
    b.Same a :=
  same_iff.mpr (((group_le hbc).trans (same_iff.mp h).le).antisymm (group_le hab))

end Declaration

end Declarations

section Classes

open Declaration

/-- What `dedup_by` keeps, after the last declaration it kept if there is one. -/
def dedupAfter (kept : Option Declaration) : List Declaration → List Declaration
  | [] => []
  | d :: rest =>
      if kept.any (fun k => decide (d.Same k)) then dedupAfter kept rest
      else d :: dedupAfter (some d) rest

def canonical (declarations : List Declaration) : List Declaration :=
  dedupAfter none (declarations.mergeSort (fun d e => decide (d ≤ e)))

structure Styles where
  sets : List (List Declaration)

def Styles.intern (styles : Styles) (declarations : List Declaration) : Nat × Styles :=
  match styles.sets.findIdx? (fun set => decide (set = canonical declarations)) with
  | some index => (index, styles)
  | none => (styles.sets.length, ⟨styles.sets ++ [canonical declarations]⟩)

/-- What a `Scene` declares before the program does, with the ratio of its view box if that is
a literal. -/
def sizing (ratio : Option (String × String)) : List Declaration :=
  let size :=
    match ratio with
    | some (width, height) =>
        [("height", "auto"), ("aspect-ratio", width ++ " / " ++ height), ("max-height", "100%")]
    | none => [("height", "100%")]
  ([("display", "block"), ("width", "100%"), ("min-height", "1px")] ++ size).map
    (fun pair => ⟨.always, pair.1, pair.2⟩)

structure Element where
  scene : Option (Option (String × String))
  /-- What its style arguments declare, as written. -/
  clauses : List Declaration

def Element.declarations (element : Element) : List Declaration :=
  match element.scene with
  | some ratio => sizing ratio ++ element.clauses
  | none => element.clauses

/-- The classes of the elements of a page.  An element that declares nothing gets none. -/
def internEach (styles : Styles) : List Element → List (Option Nat) × Styles
  | [] => ([], styles)
  | element :: rest =>
      if element.declarations = [] then
        let (classes, last) := internEach styles rest
        (none :: classes, last)
      else
        let (index, next) := styles.intern element.declarations
        let (classes, last) := internEach next rest
        (some index :: classes, last)

end Classes

section Cascade

/-- The value of a property under a condition: of the declarations for it, the last counts. -/
def written (declarations : List Declaration) (condition : Condition) (property : String) :
    Option String :=
  ((declarations.filter (fun d => d.condition = condition ∧ d.property = property)).getLast?).map
    Declaration.value

def Styles.set (styles : Styles) (name : Option Nat) : List Declaration :=
  (name.bind (fun index => styles.sets[index]?)).getD []

def named (elements : List Element) : List (Element × Option Nat) :=
  elements.zip (internEach ⟨[]⟩ elements).1

def stylesOf (elements : List Element) : Styles := (internEach ⟨[]⟩ elements).2

/-- Elements share a class exactly when the cascade leaves them with the same declarations, and
a class gives each property the value written last. -/
structure Respects (elements : List Element) : Prop where
  shared : ∀ p ∈ named elements, ∀ q ∈ named elements,
    p.2 = q.2 ↔ written p.1.declarations = written q.1.declarations
  last : ∀ p ∈ named elements,
    written ((stylesOf elements).set p.2) = written p.1.declarations

def LastLeast (declarations : List Declaration) : Prop :=
  ∀ condition property value, written declarations condition property = some value →
    ∀ d ∈ declarations, d.condition = condition → d.property = property → value ≤ d.value

variable {ds : List Declaration} {d : Declaration} {condition : Condition} {property value : String}

theorem mem_of_written (h : written ds condition property = some value) :
    ⟨condition, property, value⟩ ∈ ds := by
  obtain ⟨d, hlast, rfl⟩ := Option.map_eq_some_iff.mp h
  obtain ⟨hmem, hd⟩ := List.mem_filter.mp (List.mem_of_getLast? hlast)
  obtain ⟨rfl, rfl⟩ := of_decide_eq_true hd
  exact hmem

theorem exists_written (h : d ∈ ds) : ∃ value, written ds d.condition d.property = some value := by
  have hmem : d ∈ ds.filter (fun e => e.condition = d.condition ∧ e.property = d.property) :=
    List.mem_filter.mpr ⟨h, decide_eq_true ⟨rfl, rfl⟩⟩
  unfold written
  rw [List.getLast?_eq_some_getLast (List.ne_nil_of_mem hmem)]
  exact ⟨_, rfl⟩

theorem eq_nil_of_written (h : written ds = written []) : ds = [] := by
  by_contra hne
  obtain ⟨d, hd⟩ := List.exists_mem_of_ne_nil _ hne
  obtain ⟨value, hvalue⟩ := exists_written hd
  rw [h] at hvalue
  cases hvalue

end Cascade

section Canonical

open Declaration

variable {ds rest : List Declaration} {d : Declaration} {kept : Option Declaration}

theorem mem_dedupAfter (hsorted : rest.Pairwise (· ≤ ·))
    (hkept : ∀ k, kept = some k → ∀ e ∈ rest, k ≤ e) :
    d ∈ dedupAfter kept rest ↔
      d ∈ rest ∧ (∀ k, kept = some k → ¬ d.Same k) ∧ ∀ e ∈ rest, e.Same d → d ≤ e := by
  induction rest generalizing kept with
  | nil => simp [dedupAfter]
  | cons x rest ih =>
      obtain ⟨hx, hsorted⟩ := List.pairwise_cons.mp hsorted
      unfold dedupAfter
      split_ifs with hsame
      · obtain _ | k := kept
        · cases hsame
        have hxk : x.Same k := of_decide_eq_true hsame
        rw [ih hsorted (fun k hk e he => hkept k hk e (List.mem_cons_of_mem _ he)),
          List.mem_cons, List.forall_mem_cons]
        constructor
        · rintro ⟨hd, hnot, hleast⟩
          exact ⟨.inr hd, hnot, fun hxd => absurd ⟨hxd.1.symm.trans hxk.1,
            hxd.2.symm.trans hxk.2⟩ (hnot k rfl), hleast⟩
        · rintro ⟨hd, hnot, -, hleast⟩
          exact ⟨hd.resolve_left (fun heq => hnot k rfl (heq ▸ hxk)), hnot, hleast⟩
      · rw [List.mem_cons, ih hsorted (fun _ hk => Option.some.inj hk ▸ hx), List.mem_cons,
          List.forall_mem_cons]
        constructor
        · rintro (rfl | ⟨hd, hnot, hleast⟩)
          · exact ⟨.inl rfl, fun k hk hdk => hsame (by simp [hk, hdk.1, hdk.2]),
              fun _ => le_rfl, fun e he _ => hx e he⟩
          · have hxd : ¬ d.Same x := hnot x rfl
            refine ⟨.inr hd, fun k hk hdk => ?_, fun h => absurd ⟨h.1.symm, h.2.symm⟩ hxd, hleast⟩
            have hxk := hdk.of_between (hkept k hk x List.mem_cons_self) (hx d hd)
            exact hsame (by simp [hk, hxk.1, hxk.2])
        · rintro ⟨rfl | hd, -, hxd, hleast⟩
          · exact .inl rfl
          · by_cases hdx : d.Same x
            · exact .inl ((hxd ⟨hdx.1.symm, hdx.2.symm⟩).antisymm (hx d hd))
            · exact .inr ⟨hd, fun _ hk => Option.some.inj hk ▸ hdx, hleast⟩

theorem pairwise_dedupAfter (hsorted : rest.Pairwise (· ≤ ·)) :
    (dedupAfter kept rest).Pairwise (· < ·) := by
  induction rest generalizing kept with
  | nil => exact .nil
  | cons x rest ih =>
      obtain ⟨hx, hrest⟩ := List.pairwise_cons.mp hsorted
      unfold dedupAfter
      split_ifs with hsame
      · exact ih hrest
      · refine List.pairwise_cons.mpr ⟨fun e he => ?_, ih hrest⟩
        obtain ⟨hmem, hnot, -⟩ :=
          (mem_dedupAfter hrest (fun _ hk => Option.some.inj hk ▸ hx)).mp he
        exact lt_of_le_of_ne (hx e hmem) (fun heq => hnot x rfl (heq ▸ ⟨rfl, rfl⟩))

theorem sorted_mergeSort (ds : List Declaration) :
    (ds.mergeSort (fun d e => decide (d ≤ e))).Pairwise (· ≤ ·) := by
  have h := @List.pairwise_mergeSort _ (fun d e : Declaration => decide (d ≤ e))
    (fun _ _ _ hab hbc =>
      decide_eq_true ((of_decide_eq_true hab).trans (of_decide_eq_true hbc)))
    (fun d e => by simpa using le_total d e) ds
  exact h.imp of_decide_eq_true

theorem mem_canonical : d ∈ canonical ds ↔ d ∈ ds ∧ ∀ e ∈ ds, e.Same d → d ≤ e := by
  unfold canonical
  rw [mem_dedupAfter (sorted_mergeSort ds) (fun _ hk => absurd hk (Option.some_ne_none _).symm)]
  simp [List.mem_mergeSort]

theorem pairwise_canonical (ds : List Declaration) : (canonical ds).Pairwise (· < ·) :=
  pairwise_dedupAfter (sorted_mergeSort ds)

theorem written_canonical_iff :
    written (canonical ds) = written ds ↔ LastLeast ds := by
  constructor
  · intro h condition property value hlast d hd hcondition hproperty
    rw [← h] at hlast
    obtain ⟨-, hleast⟩ := mem_canonical.mp (mem_of_written hlast)
    exact (le_iff_value_le ⟨hcondition.symm, hproperty.symm⟩).mp
      (hleast d hd ⟨hcondition, hproperty⟩)
  · intro h
    funext condition property
    cases hlast : written ds condition property with
    | none =>
        cases hkept : written (canonical ds) condition property with
        | none => rfl
        | some value =>
            have hmem := (mem_canonical.mp (mem_of_written hkept)).1
            obtain ⟨_, hvalue⟩ := exists_written hmem
            exact absurd (hlast.symm.trans hvalue) (Option.some_ne_none _).symm
    | some value =>
        have hmem := mem_of_written hlast
        have hkept : ⟨condition, property, value⟩ ∈ canonical ds := by
          refine mem_canonical.mpr ⟨hmem, fun e he hsame => ?_⟩
          exact (le_iff_value_le ⟨hsame.1.symm, hsame.2.symm⟩).mpr
            (h _ _ _ hlast e he hsame.1 hsame.2)
        obtain ⟨value', hvalue⟩ := exists_written hkept
        obtain ⟨hmem', hleast⟩ := mem_canonical.mp (mem_of_written hvalue)
        have heq := (hleast _ hmem ⟨rfl, rfl⟩).antisymm
          ((mem_canonical.mp hkept).2 _ hmem' ⟨rfl, rfl⟩)
        exact hvalue.trans (congrArg (fun d => some (Declaration.value d)) heq)

end Canonical

section Run

open Declaration

variable {ds : List Declaration} {styles : Styles}

def Classed (sets : List (List Declaration)) (element : Element) : Option Nat → Prop
  | none => element.declarations = []
  | some index =>
      element.declarations ≠ [] ∧ sets[index]? = some (canonical element.declarations)

theorem intern_spec (ds : List Declaration) (hnodup : styles.sets.Nodup) :
    (styles.intern ds).2.sets[(styles.intern ds).1]? = some (canonical ds) ∧
      styles.sets <+: (styles.intern ds).2.sets ∧ (styles.intern ds).2.sets.Nodup := by
  unfold Styles.intern
  split
  · rename_i index hfound
    obtain ⟨hlt, heq, -⟩ := List.findIdx?_eq_some_iff_getElem.mp hfound
    refine ⟨?_, List.prefix_refl _, hnodup⟩
    rw [List.getElem?_eq_getElem hlt, of_decide_eq_true heq]
  · rename_i hfound
    have hnew : canonical ds ∉ styles.sets := fun hmem =>
      Bool.false_ne_true ((List.findIdx?_eq_none_iff.mp hfound _ hmem).symm.trans
        (decide_eq_true rfl))
    refine ⟨List.getElem?_concat_length, List.prefix_append _ _, ?_⟩
    exact List.nodup_append.mpr ⟨hnodup, List.nodup_singleton _, fun a ha b hb heq =>
      hnew (List.mem_singleton.mp hb ▸ heq ▸ ha)⟩

variable {element : Element}

theorem Classed.mono {sets sets' : List (List Declaration)}
    {name : Option Nat} (h : Classed sets element name) (hsets : sets <+: sets') :
    Classed sets' element name := by
  cases name with
  | none => exact h
  | some index =>
      obtain ⟨rest, rfl⟩ := hsets
      obtain ⟨hlt, -⟩ := List.getElem?_eq_some_iff.mp h.2
      exact ⟨h.1, (List.getElem?_append_left hlt).trans h.2⟩

theorem interned_internEach (elements : List Element) (hnodup : styles.sets.Nodup) :
    List.Forall₂ (Classed (internEach styles elements).2.sets) elements
        (internEach styles elements).1 ∧ styles.sets <+: (internEach styles elements).2.sets ∧
      (internEach styles elements).2.sets.Nodup := by
  induction elements generalizing styles with
  | nil => exact ⟨.nil, List.prefix_refl _, hnodup⟩
  | cons element rest ih =>
      unfold internEach
      split_ifs with hempty
      · obtain ⟨hclassed, hprefix, hlast⟩ := ih hnodup
        exact ⟨.cons hempty hclassed, hprefix, hlast⟩
      · obtain ⟨hset, hgrown, hnext⟩ := intern_spec element.declarations hnodup
        obtain ⟨hclassed, hprefix, hlast⟩ := ih hnext
        have hfirst : Classed (styles.intern element.declarations).2.sets element
            (some (styles.intern element.declarations).1) := ⟨hempty, hset⟩
        exact ⟨.cons (hfirst.mono hprefix) hclassed, hgrown.trans hprefix, hlast⟩

theorem Classed.written_set {name : Option Nat} (h : Classed styles.sets element name) :
    written (styles.set name) = written (canonical element.declarations) := by
  cases name with
  | none =>
      have hempty : element.declarations = [] := h
      have hnil : canonical [] = [] := by simp [canonical, dedupAfter]
      rw [hempty, hnil]
      rfl
  | some index => exact congrArg (fun set => written (Option.getD set [])) h.2

theorem Classed.eq_of_written {first second : Element} {name name' : Option Nat}
    (hnodup : styles.sets.Nodup) (h : Classed styles.sets first name)
    (h' : Classed styles.sets second name')
    (hwritten : written first.declarations = written second.declarations)
    (hset : canonical first.declarations = canonical second.declarations) : name = name' := by
  cases name with
  | none =>
      have hempty : first.declarations = [] := h
      rw [hempty] at hwritten
      cases name' with
      | none => rfl
      | some => exact absurd (eq_nil_of_written hwritten.symm) h'.1
  | some index =>
      obtain ⟨hne, hindex⟩ := h
      cases name' with
      | none =>
          have hempty : second.declarations = [] := h'
          rw [hempty] at hwritten
          exact absurd (eq_nil_of_written hwritten) hne
      | some index' =>
          obtain ⟨hlt, -⟩ := List.getElem?_eq_some_iff.mp hindex
          have heq := hindex.trans ((congrArg some hset).trans h'.2.symm)
          exact congrArg some ((List.getElem?_inj hlt hnodup).mp heq)

theorem canonical_eq_of_written {ds ds' : List Declaration}
    (h : written (canonical ds) = written (canonical ds')) : canonical ds = canonical ds' := by
  have hmem : ∀ {es : List Declaration} {d : Declaration}, d ∈ canonical es ↔
      written (canonical es) d.condition d.property = some d.value := by
    intro es d
    refine ⟨fun hd => ?_, mem_of_written⟩
    obtain ⟨value, hvalue⟩ := exists_written hd
    obtain ⟨hother, hleast⟩ := mem_canonical.mp (mem_of_written hvalue)
    obtain ⟨hd, hd'⟩ := mem_canonical.mp hd
    have heq := (hleast d hd ⟨rfl, rfl⟩).antisymm (hd' _ hother ⟨rfl, rfl⟩)
    exact hvalue.trans (congrArg (fun d => some (Declaration.value d)) heq)
  exact (pairwise_canonical ds).eq_of_mem_iff (pairwise_canonical ds')
    (fun d => by rw [hmem, hmem, h])

theorem interned_stylesOf (elements : List Element) :
    List.Forall₂ (Classed (stylesOf elements).sets) elements (internEach ⟨[]⟩ elements).1 ∧
      (stylesOf elements).sets.Nodup :=
  have h := interned_internEach elements List.nodup_nil
  ⟨h.1, h.2.2⟩

variable {elements : List Element}

theorem classed_named {p : Element × Option Nat}
    (h : p ∈ named elements) : Classed (stylesOf elements).sets p.1 p.2 :=
  (List.forall₂_iff_zip.mp (interned_stylesOf elements).1).2 h

theorem exists_named (h : element ∈ elements) :
    ∃ name, (element, name) ∈ named elements := by
  have hlength := (interned_stylesOf elements).1.length_eq
  have hfirst : (named elements).map Prod.fst = elements := List.map_fst_zip hlength.le
  rw [← hfirst] at h
  obtain ⟨⟨_, name⟩, hmem, rfl⟩ := List.mem_map.mp h
  exact ⟨name, hmem⟩

theorem Respects.lastLeast (h : Respects elements)
    (helement : element ∈ elements) : LastLeast element.declarations := by
  obtain ⟨name, hmem⟩ := exists_named helement
  exact written_canonical_iff.mp ((classed_named hmem).written_set.symm.trans (h.last _ hmem))

/-- Interning respects the cascade exactly when no element writes a value last that is not the
least of those it writes for that condition and property. -/
theorem respects_iff_lastLeast (elements : List Element) :
    Respects elements ↔ ∀ element ∈ elements, LastLeast element.declarations := by
  refine ⟨fun h _ => h.lastLeast, fun h => ?_⟩
  have hlast : ∀ p ∈ named elements, written (canonical p.1.declarations) =
      written p.1.declarations :=
    fun p hp => written_canonical_iff.mpr (h p.1 (List.of_mem_zip hp).1)
  have hset : ∀ p ∈ named elements, written ((stylesOf elements).set p.2) =
      written p.1.declarations :=
    fun p hp => (classed_named hp).written_set.trans (hlast p hp)
  refine ⟨fun p hp q hq => ⟨fun heq => ?_, fun heq => ?_⟩, hset⟩
  · rw [← hset p hp, ← hset q hq, heq]
  · have hnodup := (interned_stylesOf elements).2
    have hcanonical := canonical_eq_of_written ((hlast p hp).trans (heq.trans (hlast q hq).symm))
    exact (classed_named hp).eq_of_written hnodup (classed_named hq) heq hcanonical

theorem own_width_loses : ¬ ∀ elements : List Element, Respects elements := by
  intro h
  have hleast := (h [⟨some none, [⟨.always, "width", "50px"⟩]⟩]).lastLeast
    (List.mem_singleton_self _) .always "width" "50px" (by decide +kernel)
    ⟨.always, "width", "100%"⟩ (by decide +kernel) rfl rfl
  exact absurd hleast (by decide +kernel)

end Run

end Interning
end Zdeceptron
