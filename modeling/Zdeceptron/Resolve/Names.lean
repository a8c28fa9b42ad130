import Zdeceptron.Resolve.Collect

/-!
# What a name refers to

Each position has a lookup of its own.  Most ask what the module can see; a variant is looked up
in the one table of the whole program, and a type of a `foreign` is not looked up at all until
its types are asserted.

* `respects_iff`: when that is so.
-/

namespace Zdeceptron
namespace Resolve

section Lookups

inductive Res
  | local_ (name : String)
  | def_ (index : Nat)
  | variant (choice position : Nat)
  | builtin (name : String)
  | builtinVariant (name : String)
  /-- A type parameter of a `foreign`. -/
  | parameter (name : String)
deriving DecidableEq

inductive Refusal
  | isComponent
  | notImported
  | notCallable
  | isForeign
  | isNotComponent
  | isNotType
  | hides
  | undefined
deriving DecidableEq

def builtinElements : List String :=
  ["Column", "Row", "Main", "Section", "Article", "Aside", "Navigation", "Header", "Footer",
    "Address", "Divider", "Text", "Heading", "Paragraph", "Emphasis", "Strong", "Code",
    "CodeBlock", "Preformatted", "Break", "Quote", "Key", "Time", "Small", "Mark", "Abbreviation",
    "Superscript", "Subscript", "Prose", "List", "NumberedList", "Item", "Terms", "Term",
    "Description", "Table", "HeaderRow", "TableRow", "HeaderCell", "Cell", "Link", "Image",
    "Video", "Audio", "Frame", "Figure", "Caption", "Canvas", "Svg", "Group", "Path", "Circle",
    "Segment", "Scene", "Button", "Form", "Input", "TextArea", "PasswordInput", "NumberInput",
    "DateInput", "FileInput", "Slider", "Select", "Radio", "Checkbox", "Label", "Fieldset",
    "Legend", "Details", "Summary", "Dialog", "Spinner", "Progress", "Meter", "ErrorBar"]

def builtinTypes : List String :=
  ["Text", "Markup", "Whole", "Decimal", "Truth", "Error", "Code", "Handle"]

variable (P : Linked) (table : GlobalTable) (module : Nat)

def Linked.decl (index : Nat) : Option Decl := P.all[index]?.map Prod.snd

def is_component (index : Nat) : Bool := (P.decl index).any Decl.isComponent

def is_view_foreign (index : Nat) : Bool := (P.decl index).any Decl.isViewForeign

def is_foreign (index : Nat) : Bool :=
  match P.decl index with
  | some (.foreign _ _ _ _) => true
  | _ => false

def declares_type (index : Nat) : Bool := (P.decl index).any Decl.declaresType

/-- The top-level meaning of a name: a declaration this module can see, a declared variant, or
one the language provides. -/
def global_name (name : String) : Option Res :=
  match table.lookup_in module name with
  | some index => some (.def_ index)
  | none =>
      match table.variant name with
      | some (choice, position) => some (.variant choice position)
      | none =>
          if name = "Pair" then some (.builtin "Pair")
          else if is_builtin_variant name then some (.builtinVariant name)
          else none

def undefined (name : String) : Except Refusal Res :=
  if table.is_declared_elsewhere module name then .error .notImported else .error .undefined

/-- A name used as a value: a local first, so an inner binding shadows a top-level one. -/
def value_name (scopes : Scopes) (name : String) : Except Refusal Res :=
  if scopes.lookup name then .ok (.local_ name)
  else if (table.lookup_in module name).any (is_component P) then .error .isComponent
  else
    match global_name table module name with
    | some res => .ok res
    | none => undefined table module name

def callee_name (scopes : Scopes) (name : String) : Except Refusal Res :=
  match global_name table module name with
  | some res => .ok res
  | none => if scopes.lookup name then .error .notCallable else undefined table module name

def of_name (scopes : Scopes) (name : String) : Except Refusal Res :=
  match global_name table module name with
  | some res => .ok res
  | none =>
      if table.is_declared_elsewhere module name then .error .notImported
      else if scopes.lookup name then .error .notCallable
      else .error .undefined

def element_name (name : String) : Except Refusal Res :=
  if builtinElements.contains name then .ok (.builtin name)
  else
    match table.lookup_in module name with
    | some index =>
        if is_component P index || is_view_foreign P index then .ok (.def_ index)
        else if is_foreign P index then .error .isForeign
        else .error .isNotComponent
    | none => undefined table module name

def type_name (name : String) : Except Refusal Res :=
  if table.is_declared_elsewhere module name then .error .notImported
  else if builtinTypes.contains name then .ok (.builtin name)
  else
    match table.lookup_in module name with
    | some index => if declares_type P index then .ok (.def_ index) else .error .isNotType
    | none => .error .undefined

/-- A type written in a `foreign`.  Names no declaration of the program has are parameters. -/
def asserted_type (name : String) : Except Refusal Res :=
  if builtinTypes.contains name then .ok (.builtin name)
  else
    match table.lookup name with
    | some index => if declares_type P index then .ok (.def_ index) else .ok (.parameter name)
    | none => .ok (.parameter name)

def pattern_name (name : String) : Except Refusal Res :=
  if is_builtin_variant name then .ok (.builtinVariant name)
  else
    match table.variant name with
    | some (choice, position) => .ok (.variant choice position)
    | none => .error .undefined

/-- A binding may not take a name that already means something, here or in another file. -/
def reject_shadow (scopes : Scopes) (name : String) : Except Refusal Res :=
  if scopes.lookup name || (table.lookup name).isSome || (table.variant name).isSome ||
      is_builtin_variant name then .error .hides
  else .ok (.local_ name)

def resolve (w : Written) : Except Refusal Res :=
  match w.position with
  | .value => value_name P table module w.scopes w.name
  | .callee => callee_name table module w.scopes w.name
  | .accessor => of_name table module w.scopes w.name
  | .element => element_name P table module w.name
  | .type_ => type_name P table module w.name
  | .signature => asserted_type P table w.name
  | .pattern => pattern_name table w.name
  | .binding => reject_shadow table w.scopes w.name

end Lookups

section Respects

/-- The program has a table, and every name it writes refers to something. -/
def Linked.Resolves (P : Linked) (table : GlobalTable) : Prop :=
  collect_linked P = .ok table ∧
    ∀ entry ∈ P.all, ∀ w ∈ entry.2.written, ∃ r, resolve P table entry.1 w = .ok r

/-- What a module may refer to: what it sees, the variants of what it sees, its bindings, and
what the language provides. -/
def Res.AllowedIn (P : Linked) (m : Nat) : Res → Prop
  | .def_ index => P.Sees m index
  | .variant choice _ => P.Sees m choice
  | _ => True

def Linked.Uses (P : Linked) (name : String) : Prop :=
  (∃ entry ∈ P.all, entry.2.name = some name ∨ name ∈ entry.2.variants ∨
    ∃ w ∈ entry.2.written, w.name = name) ∨
  ∃ m import_, P.Imports m import_ ∧ import_.name = name

structure Linked.Unused (P : Linked) (d : Decl) : Prop where
  name : ∃ n, d.name = some n ∧ ¬ P.Uses n
  variants : ∀ v ∈ d.variants, ¬ P.Uses v ∧ is_builtin_variant v = false
  apart : d.variants.Nodup

/-- Where an index goes once a declaration is put in at `k`. -/
def shift (k index : Nat) : Nat := if index < k then index else index + 1

def Res.moved (k : Nat) : Res → Res
  | .def_ index => .def_ (shift k index)
  | .variant choice position => .variant (shift k choice) position
  | r => r

def Linked.adding (P : Linked) (before : List (Nat × Decl)) (added : Nat × Decl)
    (after : List (Nat × Decl)) : Linked :=
  { P with decls := before ++ added :: after }

/-- Every name a module writes refers to what the module may refer to, and a declaration that is
added to another file, with names nobody uses, changes none of it. -/
structure Linked.Respects (P : Linked) (table : GlobalTable) : Prop where
  allowed : ∀ m w, P.Writes m w → ∀ r, resolve P table m w = .ok r → r.AllowedIn P m
  unmoved : ∀ before after m' d, P.decls = before ++ after → P.Unused d →
    ∃ table', collect_linked (P.adding before (m', d) after) = .ok table' ∧
      ∀ m w, m ≠ m' → P.Writes m w →
        resolve (P.adding before (m', d) after) table' m w =
          (resolve P table m w).map (Res.moved (P.prelude.length + before.length))

/-- The name is taken for a variant: it is a pattern, or nothing a module sees comes first. -/
def Linked.AsVariant (P : Linked) (m : Nat) (w : Written) : Prop :=
  w.position = .pattern ∨
    ((w.position = .value ∧ w.scopes.lookup w.name = false ∨ w.position = .callee ∨
        w.position = .accessor) ∧
      ∀ i m' d, DeclaredAt P.all i m' d → d.name = some w.name → ¬ P.Sees m i)

/-- What a module takes for a variant is one of a `choice` or a `route` it sees, and what names
a declared type in a `foreign` names one it sees. -/
structure Linked.NamesItsOwn (P : Linked) : Prop where
  variants : ∀ m w, P.Writes m w → P.AsVariant m w →
    ∀ i m' d, DeclaredAt P.all i m' d → w.name ∈ d.variants → P.Sees m i
  signatures : ∀ m w, P.Writes m w → w.position = .signature → w.name ∉ builtinTypes →
    ∀ i m' d, DeclaredAt P.all i m' d → d.name = some w.name → d.declaresType = true → P.Sees m i

end Respects

section Allowed

variable {P : Linked} {table : GlobalTable} {m : Nat}

variable {n : String}

theorem Tabled.lookup_in_none (ht : Tabled P table) :
    table.lookup_in m n = none ↔
      ∀ i m' d, DeclaredAt P.all i m' d → d.name = some n → ¬ P.Sees m i := by
  rw [Option.eq_none_iff_forall_ne_some]
  constructor
  · intro hnone i m' d hd hname hsees
    exact hnone i ((ht.visible m n i).mpr ⟨⟨m', d, hd, hname⟩, hsees⟩)
  · intro hnot i hi
    obtain ⟨⟨m', d, hd, hname⟩, hsees⟩ := (ht.visible m n i).mp hi
    exact hnot i m' d hd hname hsees

theorem Tabled.sees (ht : Tabled P table) {i : Nat}
    (hi : table.lookup_in m n = some i) : P.Sees m i :=
  ((ht.visible m n i).mp hi).2

variable {i m' : Nat} {d : Decl} {v : String}

theorem Tabled.variant_of_mem (ht : Tabled P table)
    (hd : DeclaredAt P.all i m' d) (hv : v ∈ d.variants) :
    ∃ j, table.variant v = some (i, j) := by
  obtain ⟨j, hj⟩ := List.mem_iff_getElem?.mp hv
  exact ⟨j, (ht.variants v i j).mpr ⟨m', d, hd, hj⟩⟩

theorem Tabled.mem_of_variant (ht : Tabled P table) {i j : Nat}
    (hv : table.variant v = some (i, j)) :
    ∃ m' d, DeclaredAt P.all i m' d ∧ v ∈ d.variants := by
  obtain ⟨m', d, hd, hj⟩ := (ht.variants v i j).mp hv
  exact ⟨m', d, hd, List.mem_of_getElem? hj⟩

theorem builtin_of_variant (ht : collect_linked P = .ok table)
    (hd : DeclaredAt P.all i m' d) (hv : v ∈ d.variants) : is_builtin_variant v = false :=
  (collect_linked_ok.mp ⟨table, ht⟩).separate.provided v
    (List.mem_flatMap.mpr ⟨(m', d), List.mem_of_getElem? hd, hv⟩)

theorem global_name_allowed (ht : Tabled P table) (hvariants : table.lookup_in m n = none →
      ∀ i m' d, DeclaredAt P.all i m' d → n ∈ d.variants → P.Sees m i)
    {r : Res} (hr : global_name table m n = some r) : r.AllowedIn P m := by
  unfold global_name at hr
  cases hi : table.lookup_in m n with
  | some i =>
      obtain rfl : Res.def_ i = r := by simpa [hi] using hr
      exact ht.sees hi
  | none =>
      cases hv : table.variant n with
      | some p =>
          obtain rfl : Res.variant p.1 p.2 = r := by simpa [hi, hv] using hr
          obtain ⟨m', d, hd, hmem⟩ := ht.mem_of_variant hv
          exact hvariants hi p.1 m' d hd hmem
      | none =>
          simp only [hi, hv] at hr
          split_ifs at hr
          · obtain rfl := Option.some.inj hr
            trivial
          · obtain rfl := Option.some.inj hr
            trivial

theorem global_name_variant (hi : table.lookup_in m n = none) {i j : Nat}
    (hv : table.variant n = some (i, j)) : global_name table m n = some (.variant i j) := by
  simp [global_name, hi, hv]

variable {w : Written}

theorem allowed_of_namesItsOwn (h : collect_linked P = .ok table) (hown : P.NamesItsOwn)
    (hw : P.Writes m w) {r : Res} (hr : resolve P table m w = .ok r) : r.AllowedIn P m := by
  have ht := collect_linked_tabled h
  have hvariants := hown.variants m w hw
  unfold resolve at hr
  cases hposition : w.position with
  | value =>
      simp only [hposition, value_name] at hr
      split_ifs at hr with hlocal hcomponent
      · obtain rfl := Except.ok.inj hr
        trivial
      · cases hglobal : global_name table m w.name with
        | none =>
            simp only [hglobal, undefined] at hr
            split_ifs at hr
        | some r' =>
            obtain rfl : r' = r := by simpa [hglobal] using hr
            refine global_name_allowed ht (fun hi => hvariants (Or.inr ⟨Or.inl ⟨hposition, ?_⟩,
              ht.lookup_in_none.mp hi⟩)) hglobal
            simpa using hlocal
  | callee | accessor =>
      simp only [hposition, callee_name, of_name] at hr
      cases hglobal : global_name table m w.name with
      | none =>
          simp only [hglobal, undefined] at hr
          split_ifs at hr
      | some r' =>
          obtain rfl : r' = r := by simpa [hglobal] using hr
          exact global_name_allowed ht (fun hi => hvariants (Or.inr ⟨Or.inr (by simp [hposition]),
            ht.lookup_in_none.mp hi⟩)) hglobal
  | element | type_ =>
      simp only [hposition, element_name, type_name] at hr
      split_ifs at hr
      · obtain rfl := Except.ok.inj hr
        trivial
      · cases hi : table.lookup_in m w.name with
        | none =>
            simp only [hi, undefined] at hr
            first | cases hr | split_ifs at hr
        | some i =>
            simp only [hi] at hr
            split_ifs at hr
            obtain rfl := Except.ok.inj hr
            exact ht.sees hi
  | signature =>
      simp only [hposition, asserted_type] at hr
      split_ifs at hr with hbuiltin
      · obtain rfl := Except.ok.inj hr
        trivial
      · cases hi : table.lookup w.name with
        | none =>
            obtain rfl : Res.parameter w.name = r := by simpa [hi] using hr
            trivial
        | some i =>
            simp only [hi] at hr
            split_ifs at hr with htype
            · obtain rfl := Except.ok.inj hr
              obtain ⟨m', d, hd, hname⟩ := (ht.names _ _).mp hi
              refine hown.signatures m w hw hposition (by simpa using hbuiltin) i m' d hd hname ?_
              simpa [declares_type, Linked.decl, show P.all[i]? = some (m', d) from hd] using htype
            · obtain rfl := Except.ok.inj hr
              trivial
  | pattern =>
      simp only [hposition, pattern_name] at hr
      split_ifs at hr
      · obtain rfl := Except.ok.inj hr
        trivial
      · cases hv : table.variant w.name with
        | none => simp [hv] at hr
        | some p =>
            obtain rfl : Res.variant p.1 p.2 = r := by simpa [hv] using hr
            obtain ⟨m', d, hd, hmem⟩ := ht.mem_of_variant hv
            exact hvariants (Or.inl hposition) p.1 m' d hd hmem
  | binding =>
      simp only [hposition, reject_shadow] at hr
      split_ifs at hr
      obtain rfl := Except.ok.inj hr
      trivial

theorem resolve_asVariant (h : collect_linked P = .ok table)
    (hvariant : P.AsVariant m w) (hd : DeclaredAt P.all i m' d)
    (hmem : w.name ∈ d.variants) : ∃ j, resolve P table m w = .ok (.variant i j) := by
  have ht := collect_linked_tabled h
  obtain ⟨j, hj⟩ := ht.variant_of_mem hd hmem
  refine ⟨j, ?_⟩
  rcases hvariant with hposition | ⟨hposition, hunseen⟩
  · have hbuiltin := builtin_of_variant h hd hmem
    simp [resolve, hposition, pattern_name, hbuiltin, hj]
  · have hi := ht.lookup_in_none.mpr hunseen
    have hglobal := global_name_variant hi hj
    rcases hposition with ⟨hposition, hlocal⟩ | hposition | hposition
    · simp [resolve, hposition, value_name, hlocal, hi, hglobal]
    · simp [resolve, hposition, callee_name, hglobal]
    · simp [resolve, hposition, of_name, hglobal]

theorem resolve_signature (h : collect_linked P = .ok table)
    (hposition : w.position = .signature) (hbuiltin : w.name ∉ builtinTypes)
    (hd : DeclaredAt P.all i m' d) (hname : d.name = some w.name)
    (htype : d.declaresType = true) : resolve P table m w = .ok (.def_ i) := by
  have hi : table.lookup w.name = some i :=
    ((collect_linked_tabled h).names _ _).mpr ⟨m', d, hd, hname⟩
  have hdeclares : declares_type P i = true := by
    simpa [declares_type, Linked.decl, show P.all[i]? = some (m', d) from hd] using htype
  simp [resolve, hposition, asserted_type, hbuiltin, hi, hdeclares]

theorem allowed_iff (h : collect_linked P = .ok table) :
    (∀ m w, P.Writes m w → ∀ r, resolve P table m w = .ok r → r.AllowedIn P m) ↔ P.NamesItsOwn := by
  constructor
  · intro hallowed
    refine ⟨fun m w hw hvariant i m' d hd hmem => ?_,
      fun m w hw hposition hbuiltin i m' d hd hname htype => ?_⟩
    · obtain ⟨j, hj⟩ := resolve_asVariant h hvariant hd hmem
      exact hallowed m w hw _ hj
    · exact hallowed m w hw _ (resolve_signature h hposition hbuiltin hd hname htype)
  · intro hown m w hw r hr
    exact allowed_of_namesItsOwn h hown hw hr

end Allowed

end Resolve
end Zdeceptron
