import Mathlib.Data.List.Induction
import Mathlib.Data.List.Nodup
import Zdeceptron.Resolve.Syntax

/-!
# The table of top-level names

`collect_linked` registers every declaration of a linked program, with what each module can see.
-/

namespace Zdeceptron
namespace Resolve

section Table

def builtinVariants : List String :=
  ["Loading", "Ready", "Failed", "Some", "None", "Unreachable", "Timeout", "Rejected"]

def is_builtin_variant (name : String) : Bool := builtinVariants.contains name

/-- Every top-level name with the index of its declaration, what each module can see, every
variant with its declaration and position, and the view. -/
structure GlobalTable where
  names : String → Option Nat
  visible : Nat → String → Option Nat
  variants : String → Option (Nat × Nat)
  view : Option Nat

namespace GlobalTable

def empty : GlobalTable := ⟨fun _ => none, fun _ _ => none, fun _ => none, none⟩

def lookup (table : GlobalTable) (name : String) : Option Nat := table.names name

def lookup_in (table : GlobalTable) (module : Nat) (name : String) : Option Nat :=
  table.visible module name

def is_declared_elsewhere (table : GlobalTable) (module : Nat) (name : String) : Bool :=
  (table.names name).isSome && (table.lookup_in module name).isNone

def variant (table : GlobalTable) (name : String) : Option (Nat × Nat) := table.variants name

def declares_variant (table : GlobalTable) (name : String) : Bool :=
  (table.variants name).isSome

end GlobalTable

end Table

section Register

structure Collecting where
  table : GlobalTable
  errors : List String

def Collecting.report (s : Collecting) (message : String) : Collecting :=
  { s with errors := s.errors ++ [message] }

def registerVariant (reserved taken : String → String) (index position : Nat) (name : String)
    (s : Collecting) : Collecting :=
  if is_builtin_variant name then s.report (reserved name)
  else if s.table.declares_variant name then s.report (taken name)
  else { s with table := { s.table with
    variants := Function.update s.table.variants name (some (index, position)) } }

def registerVariants (reserved taken : String → String) (index : Nat) :
    Nat → List String → Collecting → Collecting
  | _, [], s => s
  | position, name :: names, s =>
      registerVariants reserved taken index (position + 1) names
        (registerVariant reserved taken index position name s)

def collect_variants (index : Nat) (variants : List String) : Collecting → Collecting :=
  registerVariants
    (fun name => s!"`{name}` is one of the variants the language provides for `Option`, " ++
      s!"`Remote` and `Code`, so a `choice` cannot declare it: a `when` arm named " ++
      s!"`{name}` would mean two things. Rename this variant.")
    (fun name => s!"`{name}` is already a variant of another `choice`. A `when` arm names one " ++
      "variant of one choice, so rename one of them.")
    index 0 variants

def collect_route_variants (index : Nat) (variants : List String) : Collecting → Collecting :=
  registerVariants
    (fun name => s!"`{name}` is one of the variants the language provides for `Option`, " ++
      s!"`Remote` and `Code`, so a `route` cannot declare it: a `when` arm named " ++
      s!"`{name}` would mean two things. Rename this route.")
    (fun name => s!"`{name}` is already a variant of another `choice` or `route`. A `when` arm " ++
      "names one variant of one of them, so rename one.")
    index 0 variants

def registerName (prelude module index : Nat) (name : String) (s : Collecting) : Collecting :=
  match s.table.names name with
  | some earlier =>
      s.report (
        if earlier < prelude then
          s!"`{name}` is the name of a standard-library operation, so this declaration " ++
            "would give one name two meanings. Rename this one."
        else
          s!"`{name}` is already declared. Every top-level name in a program and the " ++
            "files it imports must be unique, because v1 has no aliasing to tell two " ++
            "of them apart (spec §14D.2). Rename one of them.")
  | none =>
      { s with table := { s.table with
        names := Function.update s.table.names name (some index)
        visible := fun m =>
          if index < prelude ∨ m = module then
            Function.update (s.table.visible m) name (some index)
          else s.table.visible m } }

def registerView (index : Nat) (s : Collecting) : Collecting :=
  match s.table.view with
  | some _ =>
      s.report ("A program has one `view`, and this is the second one. Move " ++
        "these nodes into the first `view`.")
  | none => { s with table := { s.table with view := some index } }

def register (prelude : Nat) (s : Collecting) (entry : (Nat × Decl) × Nat) : Collecting :=
  let name := registerName prelude entry.1.1 entry.2
  match entry.1.2 with
  | .state n _ _ => name n s
  | .function n _ _ => name n s
  | .foreign n _ _ _ => name n s
  | .record n _ => name n s
  | .component n _ _ _ _ => name n s
  | .release n _ _ _ => name n s
  | .request n _ => name n s
  | .choice n variants => name n (collect_variants entry.2 (variants.map Prod.fst) s)
  | .route n variants => name n (collect_route_variants entry.2 (variants.map Prod.fst) s)
  | .test _ => s
  | .view _ => registerView entry.2 s

/-- What a `use` names becomes visible in the module that wrote it. -/
def borrow (P : Linked) (module : Nat) (s : Collecting) (import_ : Import) : Collecting :=
  match s.table.names import_.name with
  | none =>
      s.report (s!"`{import_.name}` is not declared in the file this imports from. An import " ++
        "names what it brings in, so check the spelling or add the declaration there.")
  | some index =>
      if P.all[index]?.map Prod.fst ≠ some import_.source then
        s.report (s!"`{import_.name}` is not declared in the file this imports from. It is " ++
          "declared somewhere else in this program, and v1 has no re-export, so import it " ++
          "from where it is written.")
      else
        { s with table := { s.table with
          visible := Function.update s.table.visible module
            (Function.update (s.table.visible module) import_.name (some index)) } }

def registered (prelude : Nat) (entries : List (Nat × Decl)) : Collecting :=
  entries.zipIdx.foldl (register prelude) ⟨GlobalTable.empty, []⟩

def collecting (P : Linked) : Collecting :=
  P.imports.zipIdx.foldl (fun s borrowed => borrowed.1.foldl (borrow P borrowed.2) s)
    (registered P.prelude.length P.all)

def collect_linked (P : Linked) : Except (List String) GlobalTable :=
  if (collecting P).errors.isEmpty then .ok (collecting P).table
  else .error (collecting P).errors

end Register

section Variants

variable {reserved taken : String → String} {index : Nat}

@[simp] theorem Collecting.report_errors (s : Collecting) (message : String) :
    (s.report message).errors ≠ [] := by
  simp [report]

theorem registerVariant_errors {position : Nat} {name : String} {s : Collecting} :
    (registerVariant reserved taken index position name s).errors = [] ↔
      s.errors = [] ∧ is_builtin_variant name = false ∧ s.table.variants name = none := by
  unfold registerVariant GlobalTable.declares_variant
  split_ifs with hbuiltin hdeclared
  · simp [hbuiltin]
  · simp [Option.isSome_iff_ne_none.mp hdeclared]
  · simpa [hbuiltin] using fun _ => hdeclared

theorem registerVariants_rest (reserved taken : String → String) (index : Nat) :
    ∀ (names : List String) (position : Nat) (s : Collecting),
    (registerVariants reserved taken index position names s).table =
      { s.table with
        variants := (registerVariants reserved taken index position names s).table.variants }
  | [], _, _ => rfl
  | name :: names, position, s => by
      have hone : (registerVariant reserved taken index position name s).table =
          { s.table with
            variants := (registerVariant reserved taken index position name s).table.variants } := by
        unfold registerVariant Collecting.report
        split_ifs <;> rfl
      rw [registerVariants, registerVariants_rest reserved taken index names, hone]

theorem registerVariants_errors : ∀ (names : List String) (position : Nat) (s : Collecting),
    (registerVariants reserved taken index position names s).errors = [] ↔
      s.errors = [] ∧ names.Nodup ∧
        ∀ v ∈ names, is_builtin_variant v = false ∧ s.table.variants v = none
  | [], _, s => by simp [registerVariants]
  | name :: names, position, s => by
      rw [registerVariants, registerVariants_errors names, registerVariant_errors]
      constructor
      · rintro ⟨⟨herrors, hbuiltin, hname⟩, hnodup, hfree⟩
        have hrest : ∀ v ∈ names, v ≠ name ∧ is_builtin_variant v = false ∧
            s.table.variants v = none := by
          intro v hv
          obtain ⟨hv', hnone⟩ := hfree v hv
          simp only [registerVariant, GlobalTable.declares_variant, hbuiltin, hname,
            Option.isSome_none, Bool.false_eq_true, if_false, Function.update_apply] at hnone
          split_ifs at hnone with heq
          exact ⟨heq, hv', hnone⟩
        refine ⟨herrors, List.nodup_cons.mpr ⟨fun hmem => (hrest name hmem).1 rfl, hnodup⟩, ?_⟩
        intro v hv
        rcases List.mem_cons.mp hv with rfl | hv
        · exact ⟨hbuiltin, hname⟩
        · exact (hrest v hv).2
      · rintro ⟨herrors, hnodup, hfree⟩
        obtain ⟨hbuiltin, hname⟩ := hfree name (by simp)
        obtain ⟨hnotin, hnodup⟩ := List.nodup_cons.mp hnodup
        refine ⟨⟨herrors, hbuiltin, hname⟩, hnodup, fun v hv => ?_⟩
        have hne : v ≠ name := fun heq => hnotin (heq ▸ hv)
        simpa [registerVariant, GlobalTable.declares_variant, hbuiltin, hname,
          Function.update_apply, hne] using hfree v (List.mem_cons_of_mem _ hv)

theorem registerVariants_variants : ∀ (names : List String) (position : Nat) (s : Collecting),
    (registerVariants reserved taken index position names s).errors = [] → ∀ v p,
      ((registerVariants reserved taken index position names s).table.variants v = some p ↔
        s.table.variants v = some p ∨
          ∃ j, names[j]? = some v ∧ p = (index, position + j))
  | [], _, _, _, _, _ => by simp [registerVariants]
  | name :: names, position, s, hok, v, p => by
      rw [registerVariants] at hok ⊢
      rw [registerVariants_variants names _ _ hok v p]
      have hfirst := ((registerVariants_errors names _ _).mp hok).1
      obtain ⟨-, hbuiltin, hname⟩ := registerVariant_errors.mp hfirst
      simp only [registerVariant, GlobalTable.declares_variant, hbuiltin, hname,
        Option.isSome_none, Bool.false_eq_true, if_false, Function.update_apply]
      constructor
      · rintro (hv | ⟨j, hj, rfl⟩)
        · split_ifs at hv with heq
          · exact Or.inr ⟨0, by simp [heq], by simpa using hv.symm⟩
          · exact Or.inl hv
        · exact Or.inr ⟨j + 1, by simpa using hj, by simp; omega⟩
      · rintro (hv | ⟨j, hj, rfl⟩)
        · have hne : v ≠ name := fun heq => by simp [heq, hname] at hv
          exact Or.inl (by simpa [hne] using hv)
        · cases j with
          | zero =>
              obtain rfl : name = v := by simpa using hj
              simp
          | succ j => exact Or.inr ⟨j, by simpa using hj, by simp; omega⟩

end Variants

section Entries

def DeclaredAt (entries : List (Nat × Decl)) (i m : Nat) (d : Decl) : Prop :=
  entries[i]? = some (m, d)

structure Holds (prelude : Nat) (entries : List (Nat × Decl)) (table : GlobalTable) : Prop where
  names : ∀ n i, table.names n = some i ↔
    ∃ m d, DeclaredAt entries i m d ∧ d.name = some n
  visible : ∀ m n i, table.visible m n = some i ↔
    ∃ m' d, DeclaredAt entries i m' d ∧ d.name = some n ∧ (i < prelude ∨ m = m')
  variants : ∀ v i j, table.variants v = some (i, j) ↔
    ∃ m d, DeclaredAt entries i m d ∧ d.variants[j]? = some v
  view : ∀ i, table.view = some i ↔ ∃ m d, DeclaredAt entries i m d ∧ d.isView = true

/-- No two declarations take one name, no two variants one, and none a provided one. -/
structure Separate (entries : List (Nat × Decl)) : Prop where
  names : (entries.filterMap fun entry => entry.2.name).Nodup
  variants : (entries.flatMap fun entry => entry.2.variants).Nodup
  provided : ∀ v ∈ entries.flatMap fun entry => entry.2.variants, is_builtin_variant v = false
  views : (entries.filter fun entry => entry.2.isView).length ≤ 1

end Entries

section Step

variable {prelude m i : Nat} {s : Collecting}

variable {n : String}

theorem registerName_errors :
    (registerName prelude m i n s).errors = [] ↔ s.errors = [] ∧ s.table.names n = none := by
  unfold registerName
  cases hn : s.table.names n with
  | none => simp
  | some j => simp

theorem registerView_errors :
    (registerView i s).errors = [] ↔ s.errors = [] ∧ s.table.view = none := by
  unfold registerView
  cases hview : s.table.view with
  | none => simp
  | some j => simp

structure Adds (prelude m i : Nat) (d : Decl) (before after : GlobalTable) : Prop where
  names : ∀ n j, after.names n = some j ↔
    before.names n = some j ∨ (d.name = some n ∧ j = i)
  visible : ∀ m' n j, after.visible m' n = some j ↔
    before.visible m' n = some j ∨ (d.name = some n ∧ j = i ∧ (i < prelude ∨ m' = m))
  variants : ∀ v p, after.variants v = some p ↔
    before.variants v = some p ∨ ∃ j, d.variants[j]? = some v ∧ p = (i, j)
  view : ∀ j, after.view = some j ↔ before.view = some j ∨ (d.isView = true ∧ j = i)

theorem registerName_rest (prelude m i : Nat) (s : Collecting) (n : String) :
    (registerName prelude m i n s).table.variants = s.table.variants ∧
      (registerName prelude m i n s).table.view = s.table.view := by
  unfold registerName
  cases s.table.names n <;> simp [Collecting.report]

theorem registerName_names (hfree : s.table.names n = none) (n' : String) (j : Nat) :
    (registerName prelude m i n s).table.names n' = some j ↔
      s.table.names n' = some j ∨ (n = n' ∧ j = i) := by
  unfold registerName
  simp only [hfree, Function.update_apply]
  split_ifs with heq
  · subst heq
    simp [hfree, eq_comm]
  · simp [Ne.symm heq]

theorem registerName_visible (hfree : s.table.names n = none)
    (hseen : ∀ m' n' j, s.table.visible m' n' = some j → s.table.names n' = some j)
    (m' : Nat) (n' : String) (j : Nat) :
    (registerName prelude m i n s).table.visible m' n' = some j ↔
      s.table.visible m' n' = some j ∨ (n = n' ∧ j = i ∧ (i < prelude ∨ m' = m)) := by
  have hunseen : ∀ j, s.table.visible m' n ≠ some j := fun j hj => by
    simpa [hfree] using hseen m' n j hj
  unfold registerName
  simp only [hfree]
  split_ifs with hscope
  · simp only [Function.update_apply]
    split_ifs with heq
    · subst heq
      simp only [hunseen, hscope, false_or, true_and, and_true, Option.some.injEq]
      exact eq_comm
    · simp [Ne.symm heq]
  · simp [hscope]

variable {d : Decl}

theorem register_errors :
    (register prelude s ((m, d), i)).errors = [] ↔ s.errors = [] ∧ d.variants.Nodup ∧
        (∀ v ∈ d.variants, is_builtin_variant v = false ∧ s.table.variants v = none) ∧
        (∀ n, d.name = some n → s.table.names n = none) ∧
        (d.isView = true → s.table.view = none) := by
  cases d with
  | choice n variants =>
      simp only [register, registerName_errors, collect_variants, registerVariants_errors]
      rw [registerVariants_rest]
      simp [Decl.variants, Decl.name, Decl.isView, and_assoc]
  | route n variants =>
      simp only [register, registerName_errors, collect_route_variants, registerVariants_errors]
      rw [registerVariants_rest]
      simp [Decl.variants, Decl.name, Decl.isView, and_assoc]
  | view nodes => simp [register, registerView_errors, Decl.variants, Decl.name, Decl.isView]
  | test e => simp [register, Decl.variants, Decl.name, Decl.isView]
  | _ => simp [register, registerName_errors, Decl.variants, Decl.name, Decl.isView]

theorem registerName_adds (hname : d.name = some n)
    (hvariants : d.variants = []) (hview : d.isView = false) (hfree : s.table.names n = none)
    (hseen : ∀ m' n' j, s.table.visible m' n' = some j → s.table.names n' = some j) :
    Adds prelude m i d s.table (registerName prelude m i n s).table := by
  obtain ⟨hvariants', hview'⟩ := registerName_rest prelude m i s n
  refine ⟨fun n' j => ?_, fun m' n' j => ?_, fun v p => ?_, fun j => ?_⟩
  · simpa [hname] using registerName_names hfree n' j
  · simpa [hname] using registerName_visible hfree hseen m' n' j
  · simp [hvariants', hvariants]
  · simp [hview', hview]

theorem registerVariants_adds {reserved taken : String → String}
    (hname : d.name = some n) (hview : d.isView = false) (hfree : s.table.names n = none)
    (hok : (registerVariants reserved taken i 0 d.variants s).errors = [])
    (hseen : ∀ m' n' j, s.table.visible m' n' = some j → s.table.names n' = some j) :
    Adds prelude m i d s.table
      (registerName prelude m i n (registerVariants reserved taken i 0 d.variants s)).table := by
  have hrest := registerVariants_rest reserved taken i d.variants 0 s
  have hnames : (registerVariants reserved taken i 0 d.variants s).table.names = s.table.names := by
    rw [hrest]
  have hvisible : (registerVariants reserved taken i 0 d.variants s).table.visible =
      s.table.visible := by rw [hrest]
  have hview' : (registerVariants reserved taken i 0 d.variants s).table.view = s.table.view := by
    rw [hrest]
  obtain ⟨hafter, hafterView⟩ := registerName_rest prelude m i
    (registerVariants reserved taken i 0 d.variants s) n
  refine ⟨fun n' j => ?_, fun m' n' j => ?_, fun v p => ?_, fun j => ?_⟩
  · rw [registerName_names (by rw [hnames]; exact hfree), hnames]
    simp [hname]
  · rw [registerName_visible (by rw [hnames]; exact hfree) (by rw [hnames, hvisible]; exact hseen),
      hvisible]
    simp [hname]
  · rw [hafter, registerVariants_variants _ _ _ hok]
    simp
  · simp [hafterView, hview', hview]

theorem register_adds (hok : (register prelude s ((m, d), i)).errors = [])
    (hseen : ∀ m' n j, s.table.visible m' n = some j → s.table.names n = some j) :
    Adds prelude m i d s.table (register prelude s ((m, d), i)).table := by
  obtain ⟨-, -, -, hname, hview⟩ := register_errors.mp hok
  cases d with
  | choice n variants =>
      exact registerVariants_adds (d := .choice n variants) rfl rfl (hname n rfl)
        (registerName_errors.mp hok).1 hseen
  | route n variants =>
      exact registerVariants_adds (d := .route n variants) rfl rfl (hname n rfl)
        (registerName_errors.mp hok).1 hseen
  | view nodes =>
      have hfree := hview rfl
      refine ⟨fun n j => ?_, fun m' n j => ?_, fun v p => ?_, fun j => ?_⟩ <;>
        simp [register, registerView, hfree, Decl.name, Decl.variants, Decl.isView, eq_comm]
  | test e =>
      refine ⟨fun n j => ?_, fun m' n j => ?_, fun v p => ?_, fun j => ?_⟩ <;>
        simp [register, Decl.name, Decl.variants, Decl.isView]
  | state n _ _ | function n _ _ | foreign n _ _ _ | record n _ | component n _ _ _ _
  | release n _ _ _ | request n _ => exact registerName_adds rfl rfl rfl (hname n rfl) hseen

end Step

section Registered

variable {prelude : Nat}

variable {entries : List (Nat × Decl)} {table : GlobalTable}

theorem Holds.seen (h : Holds prelude entries table) {m : Nat} {n : String} {i : Nat}
    (hi : table.visible m n = some i) : table.names n = some i := by
  obtain ⟨m', d, hd, hname, -⟩ := (h.visible m n i).mp hi
  exact (h.names n i).mpr ⟨m', d, hd, hname⟩

variable {d : Decl}

theorem declaredAt_append {entry : Nat × Decl} {i m : Nat} :
    DeclaredAt (entries ++ [entry]) i m d ↔
      DeclaredAt entries i m d ∨ (i = entries.length ∧ entry = (m, d)) := by
  unfold DeclaredAt
  rcases Nat.lt_trichotomy i entries.length with hlt | rfl | hgt
  · have hne : i ≠ entries.length := by omega
    simp [List.getElem?_append_left hlt, hne]
  · simp
  · have hne : i ≠ entries.length := by omega
    rw [List.getElem?_eq_none (by simp; omega), List.getElem?_eq_none (by omega)]
    simp [hne]

theorem registered_append (entries : List (Nat × Decl)) (entry : Nat × Decl) :
    registered prelude (entries ++ [entry]) =
      register prelude (registered prelude entries) (entry, entries.length) := by
  simp [registered, List.zipIdx_append]

theorem exists_declaredAt_append {i m : Nat} {Q : Nat → Decl → Prop} :
    (∃ m' d', DeclaredAt (entries ++ [(m, d)]) i m' d' ∧ Q m' d') ↔
      (∃ m' d', DeclaredAt entries i m' d' ∧ Q m' d') ∨ (Q m d ∧ i = entries.length) := by
  constructor
  · rintro ⟨m', d', hd, hQ⟩
    rcases declaredAt_append.mp hd with hd | ⟨rfl, heq⟩
    · exact Or.inl ⟨m', d', hd, hQ⟩
    · cases heq
      exact Or.inr ⟨hQ, rfl⟩
  · rintro (⟨m', d', hd, hQ⟩ | ⟨hQ, rfl⟩)
    · exact ⟨m', d', declaredAt_append.mpr (Or.inl hd), hQ⟩
    · exact ⟨m, d, declaredAt_append.mpr (Or.inr ⟨rfl, rfl⟩), hQ⟩

theorem Holds.append {before after : GlobalTable} {m : Nat} (h : Holds prelude entries before)
    (hadds : Adds prelude m entries.length d before after) :
    Holds prelude (entries ++ [(m, d)]) after := by
  refine ⟨fun n i => ?_, fun m' n i => ?_, fun v i j => ?_, fun i => ?_⟩
  · rw [hadds.names, h.names, exists_declaredAt_append]
  · rw [hadds.visible, h.visible, exists_declaredAt_append]
    refine or_congr_right ⟨?_, ?_⟩
    · rintro ⟨hname, rfl, hscope⟩
      exact ⟨⟨hname, hscope⟩, rfl⟩
    · rintro ⟨⟨hname, hscope⟩, rfl⟩
      exact ⟨hname, rfl, hscope⟩
  · rw [hadds.variants, h.variants, exists_declaredAt_append]
    refine or_congr_right ⟨?_, fun ⟨hv, hi⟩ => ⟨j, hv, by rw [hi]⟩⟩
    rintro ⟨j', hv, heq⟩
    cases heq
    exact ⟨hv, rfl⟩
  · rw [hadds.view, h.view, exists_declaredAt_append]

theorem Holds.names_eq_none (h : Holds prelude entries table) {n : String} :
    table.names n = none ↔ n ∉ entries.filterMap fun entry => entry.2.name := by
  rw [Option.eq_none_iff_forall_ne_some, List.mem_filterMap]
  constructor
  · rintro hnone ⟨⟨m, d⟩, hmem, hname⟩
    obtain ⟨i, hi⟩ := List.mem_iff_getElem?.mp hmem
    exact hnone i ((h.names n i).mpr ⟨m, d, hi, hname⟩)
  · intro hnot i hi
    obtain ⟨m, d, hd, hname⟩ := (h.names n i).mp hi
    exact hnot ⟨(m, d), List.mem_of_getElem? hd, hname⟩

theorem Holds.variants_eq_none (h : Holds prelude entries table) {v : String} :
    table.variants v = none ↔ v ∉ entries.flatMap fun entry => entry.2.variants := by
  rw [Option.eq_none_iff_forall_ne_some, List.mem_flatMap]
  constructor
  · rintro hnone ⟨⟨m, d⟩, hmem, hv⟩
    obtain ⟨i, hi⟩ := List.mem_iff_getElem?.mp hmem
    obtain ⟨j, hj⟩ := List.mem_iff_getElem?.mp hv
    exact hnone (i, j) ((h.variants v i j).mpr ⟨m, d, hi, hj⟩)
  · rintro hnot ⟨i, j⟩ hij
    obtain ⟨m, d, hd, hv⟩ := (h.variants v i j).mp hij
    exact hnot ⟨(m, d), List.mem_of_getElem? hd, List.mem_of_getElem? hv⟩

theorem Holds.view_eq_none (h : Holds prelude entries table) :
    table.view = none ↔ entries.filter (fun entry => entry.2.isView) = [] := by
  rw [Option.eq_none_iff_forall_ne_some, List.filter_eq_nil_iff]
  constructor
  · rintro hnone ⟨m, d⟩ hmem hview
    obtain ⟨i, hi⟩ := List.mem_iff_getElem?.mp hmem
    exact hnone i ((h.view i).mpr ⟨m, d, hi, hview⟩)
  · intro hnot i hi
    obtain ⟨m, d, hd, hview⟩ := (h.view i).mp hi
    exact hnot (m, d) (List.mem_of_getElem? hd) hview

theorem separate_append {m : Nat} :
    Separate (entries ++ [(m, d)]) ↔ Separate entries ∧ d.variants.Nodup ∧
        (∀ v ∈ d.variants, is_builtin_variant v = false ∧
          v ∉ entries.flatMap fun entry => entry.2.variants) ∧
        (∀ n, d.name = some n → n ∉ entries.filterMap fun entry => entry.2.name) ∧
        (d.isView = true → entries.filter (fun entry => entry.2.isView) = []) := by
  constructor
  · rintro ⟨hnames, hvariants, hprovided, hviews⟩
    simp only [List.filterMap_append, List.flatMap_append, List.filter_append,
      List.nodup_append, List.length_append] at hnames hvariants hprovided hviews
    refine ⟨⟨hnames.1, hvariants.1, fun v hv => hprovided v (by simp [hv]), by omega⟩, ?_, ?_,
      ?_, ?_⟩
    · simpa using hvariants.2.1
    · intro v hv
      refine ⟨hprovided v (by simp [hv]), fun hin => hvariants.2.2 v hin v ?_ rfl⟩
      simpa using hv
    · intro n hn hin
      exact hnames.2.2 n hin n (by simp [hn]) rfl
    · intro hview
      have hlength : (List.filter (fun entry => entry.2.isView) [(m, d)]).length = 1 := by
        simp [hview]
      exact List.length_eq_zero_iff.mp (by omega)
  · rintro ⟨⟨hnames, hvariants, hprovided, hviews⟩, hnodup, hfree, hname, hview⟩
    refine ⟨?_, ?_, ?_, ?_⟩
    · rw [List.filterMap_append, List.nodup_append]
      refine ⟨hnames, ?_, ?_⟩
      · cases hd : d.name <;> simp [hd]
      · rintro n hin n' hn' rfl
        exact hname n (by simpa using hn') hin
    · rw [List.flatMap_append, List.nodup_append]
      refine ⟨hvariants, by simpa using hnodup, ?_⟩
      rintro v hin v' hv' rfl
      exact (hfree v (by simpa using hv')).2 hin
    · intro v hv
      rw [List.flatMap_append, List.mem_append] at hv
      rcases hv with hv | hv
      · exact hprovided v hv
      · exact (hfree v (by simpa using hv)).1
    · rw [List.filter_append, List.length_append]
      cases hd : d.isView with
      | false => simpa [hd] using hviews
      | true => simp [hview hd, hd]

theorem registered_spec (prelude : Nat) (entries : List (Nat × Decl)) :
    ((registered prelude entries).errors = [] ↔ Separate entries) ∧
      (Separate entries → Holds prelude entries (registered prelude entries).table) := by
  induction entries using List.reverseRecOn with
  | nil =>
      have hsep : Separate [] := by constructor <;> simp
      refine ⟨by simp [registered, hsep], fun _ => ?_⟩
      constructor <;> simp [registered, GlobalTable.empty, DeclaredAt]
  | append_singleton entries entry ih =>
      obtain ⟨m, d⟩ := entry
      obtain ⟨herrors, hholds⟩ := ih
      have hiff : (registered prelude (entries ++ [(m, d)])).errors = [] ↔
          Separate (entries ++ [(m, d)]) := by
        rw [registered_append, register_errors, separate_append, herrors]
        constructor
        · rintro ⟨hsep, hnodup, hfree, hname, hview⟩
          have h := hholds hsep
          exact ⟨hsep, hnodup, fun v hv => ⟨(hfree v hv).1, h.variants_eq_none.mp (hfree v hv).2⟩,
            fun n hn => h.names_eq_none.mp (hname n hn),
            fun hd => h.view_eq_none.mp (hview hd)⟩
        · rintro ⟨hsep, hnodup, hfree, hname, hview⟩
          have h := hholds hsep
          exact ⟨hsep, hnodup, fun v hv => ⟨(hfree v hv).1, h.variants_eq_none.mpr (hfree v hv).2⟩,
            fun n hn => h.names_eq_none.mpr (hname n hn),
            fun hd => h.view_eq_none.mpr (hview hd)⟩
      refine ⟨hiff, fun hsep => ?_⟩
      have hok := hiff.mpr hsep
      have h := hholds (separate_append.mp hsep).1
      rw [registered_append] at hok ⊢
      exact h.append (register_adds hok fun m' n j hj => h.seen hj)

end Registered

section Imports

variable {P : Linked}

/-- The module names the import in a `use`. -/
def Linked.Imports (P : Linked) (m : Nat) (import_ : Import) : Prop :=
  ∃ borrowed, P.imports[m]? = some borrowed ∧ import_ ∈ borrowed

def Found (P : Linked) (names : String → Option Nat) (import_ : Import) : Prop :=
  ∃ i, names import_.name = some i ∧ P.all[i]?.map Prod.fst = some import_.source

variable {import_ : Import}

theorem borrow_errors {m : Nat} {s : Collecting} :
    (borrow P m s import_).errors = [] ↔ s.errors = [] ∧ Found P s.table.names import_ := by
  unfold borrow Found
  cases hname : s.table.names import_.name with
  | none => simp
  | some i =>
      simp only [Option.some.injEq, exists_eq_left']
      split_ifs with hsource
      · simp [hsource]
      · simp [not_not.mp hsource]

theorem borrow_rest (P : Linked) (m : Nat) (s : Collecting) (import_ : Import) :
    (borrow P m s import_).table.names = s.table.names ∧
      (borrow P m s import_).table.variants = s.table.variants ∧
      (borrow P m s import_).table.view = s.table.view := by
  unfold borrow Collecting.report
  cases hname : s.table.names import_.name with
  | none => simp
  | some i =>
      simp only []
      split_ifs <;> simp

theorem borrow_visible {m : Nat} {s : Collecting} (hfound : Found P s.table.names import_)
    (hseen : ∀ m' n j, s.table.visible m' n = some j → s.table.names n = some j)
    (m' : Nat) (n : String) (j : Nat) :
    (borrow P m s import_).table.visible m' n = some j ↔ s.table.visible m' n = some j ∨
        (m' = m ∧ import_.name = n ∧ s.table.names n = some j) := by
  obtain ⟨i, hi, hsource⟩ := hfound
  simp only [borrow, hi, hsource, ne_eq, not_true_eq_false, if_false, Function.update_apply]
  by_cases hm : m' = m
  · subst hm
    simp only [if_true, true_and, Function.update_apply]
    split_ifs with hn
    · subst hn
      simp only [true_and, hi, Option.some.injEq]
      constructor
      · exact Or.inr
      · rintro (hj | hj)
        · exact Option.some.inj (hi.symm.trans (hseen _ _ _ hj))
        · exact hj
    · simp [Ne.symm hn]
  · simp [hm]

def Linked.borrowings (P : Linked) : List (Nat × Import) :=
  P.imports.zipIdx.flatMap fun borrowed => borrowed.1.map fun import_ => (borrowed.2, import_)

theorem mem_borrowings {m : Nat} :
    (m, import_) ∈ P.borrowings ↔ P.Imports m import_ := by
  simp only [Linked.borrowings, Linked.Imports, List.mem_flatMap, List.mem_map, Prod.mk.injEq]
  constructor
  · rintro ⟨⟨borrowed, i⟩, hmem, import', hin, rfl, rfl⟩
    exact ⟨borrowed, List.mk_mem_zipIdx_iff_getElem?.mp hmem, hin⟩
  · rintro ⟨borrowed, hm, hin⟩
    exact ⟨(borrowed, m), List.mk_mem_zipIdx_iff_getElem?.mpr hm, import_, hin, rfl, rfl⟩

theorem collecting_eq (P : Linked) :
    collecting P = P.borrowings.foldl (fun s b => borrow P b.1 s b.2)
      (registered P.prelude.length P.all) := by
  simp [collecting, Linked.borrowings, List.foldl_flatMap, List.foldl_map]

variable (list : List (Nat × Import))

theorem borrowed_rest : ∀ s : Collecting,
    (list.foldl (fun s b => borrow P b.1 s b.2) s).table.names = s.table.names ∧
      (list.foldl (fun s b => borrow P b.1 s b.2) s).table.variants = s.table.variants ∧
      (list.foldl (fun s b => borrow P b.1 s b.2) s).table.view = s.table.view := by
  induction list with
  | nil => simp
  | cons b list ih =>
      intro s
      obtain ⟨hnames, hvariants, hview⟩ := borrow_rest P b.1 s b.2
      simpa [hnames, hvariants, hview] using ih (borrow P b.1 s b.2)

theorem borrowed_errors : ∀ s : Collecting,
    (list.foldl (fun s b => borrow P b.1 s b.2) s).errors = [] ↔
      s.errors = [] ∧ ∀ b ∈ list, Found P s.table.names b.2 := by
  induction list with
  | nil => simp
  | cons b list ih =>
      intro s
      rw [List.foldl_cons, ih, borrow_errors, (borrow_rest P b.1 s b.2).1]
      simp [and_assoc]

theorem borrowed_visible : ∀ s : Collecting, (∀ b ∈ list, Found P s.table.names b.2) →
    (∀ m n j, s.table.visible m n = some j → s.table.names n = some j) → ∀ m n j,
      ((list.foldl (fun s b => borrow P b.1 s b.2) s).table.visible m n = some j ↔
        s.table.visible m n = some j ∨
          ∃ import_, (m, import_) ∈ list ∧ import_.name = n ∧ s.table.names n = some j) := by
  induction list with
  | nil => simp
  | cons b list ih =>
      intro s hfound hseen m n j
      have hb := borrow_visible (m := b.1) (hfound b (by simp)) hseen
      have hnames := (borrow_rest P b.1 s b.2).1
      rw [List.foldl_cons, ih (borrow P b.1 s b.2)
        (fun b' hb' => by rw [hnames]; exact hfound b' (List.mem_cons_of_mem _ hb'))
        (fun m' n' j' hj' => by
          rw [hnames]
          rcases (hb m' n' j').mp hj' with hj' | ⟨-, -, hj'⟩
          · exact hseen m' n' j' hj'
          · exact hj'), hb, hnames]
      constructor
      · rintro ((hj | ⟨rfl, rfl, hj⟩) | ⟨import_, hmem, hname⟩)
        · exact Or.inl hj
        · exact Or.inr ⟨b.2, by simp, rfl, hj⟩
        · exact Or.inr ⟨import_, List.mem_cons_of_mem _ hmem, hname⟩
      · rintro (hj | ⟨import_, hmem, hname, hj⟩)
        · exact Or.inl (Or.inl hj)
        · rcases List.mem_cons.mp hmem with rfl | hmem
          · exact Or.inl (Or.inr ⟨rfl, hname, hj⟩)
          · exact Or.inr ⟨import_, hmem, hname, hj⟩

end Imports

section Spec

variable {P : Linked}

/-- The declaration at an index is one of the module's own, one it imports from the file that
declares it, or one of the prelude. -/
def Linked.Sees (P : Linked) (m i : Nat) : Prop :=
  ∃ m' d, DeclaredAt P.all i m' d ∧
    (i < P.prelude.length ∨ m = m' ∨
      ∃ import_, P.Imports m import_ ∧ d.name = some import_.name ∧ import_.source = m')

/-- The names of the program are apart, and its imports name what is there. -/
structure Linked.Collects (P : Linked) : Prop where
  separate : Separate P.all
  found : ∀ m import_, P.Imports m import_ →
    ∃ i d, DeclaredAt P.all i import_.source d ∧ d.name = some import_.name

structure Tabled (P : Linked) (table : GlobalTable) : Prop where
  names : ∀ n i, table.names n = some i ↔
    ∃ m d, DeclaredAt P.all i m d ∧ d.name = some n
  visible : ∀ m n i, table.visible m n = some i ↔
    (∃ m' d, DeclaredAt P.all i m' d ∧ d.name = some n) ∧ P.Sees m i
  variants : ∀ v i j, table.variants v = some (i, j) ↔
    ∃ m d, DeclaredAt P.all i m d ∧ d.variants[j]? = some v

theorem found_iff {names : String → Option Nat} {import_ : Import}
    (hnames : ∀ n i, names n = some i ↔ ∃ m d, DeclaredAt P.all i m d ∧ d.name = some n) :
    Found P names import_ ↔
      ∃ i d, DeclaredAt P.all i import_.source d ∧ d.name = some import_.name := by
  constructor
  · rintro ⟨i, hi, hsource⟩
    obtain ⟨m, d, hd, hname⟩ := (hnames _ _).mp hi
    obtain rfl : m = import_.source := by
      rw [show P.all[i]? = some (m, d) from hd] at hsource
      simpa using hsource
    exact ⟨i, d, hd, hname⟩
  · rintro ⟨i, d, hd, hname⟩
    exact ⟨i, (hnames _ _).mpr ⟨_, d, hd, hname⟩, by rw [hd]; rfl⟩

theorem collect_linked_ok : (∃ table, collect_linked P = .ok table) ↔ P.Collects := by
  have hiff : (∃ table, collect_linked P = .ok table) ↔ (collecting P).errors = [] := by
    unfold collect_linked
    split_ifs with herrors
    · simpa using herrors
    · simpa using herrors
  obtain ⟨herrors, hholds⟩ := registered_spec P.prelude.length P.all
  rw [hiff, collecting_eq, borrowed_errors, herrors]
  constructor
  · rintro ⟨hsep, hfound⟩
    refine ⟨hsep, fun m import_ himport => ?_⟩
    exact (found_iff (hholds hsep).names).mp (hfound (m, import_) (mem_borrowings.mpr himport))
  · rintro ⟨hsep, hfound⟩
    refine ⟨hsep, fun b hb => (found_iff (hholds hsep).names).mpr ?_⟩
    exact hfound b.1 b.2 (mem_borrowings.mp hb)

theorem collect_linked_tabled {table : GlobalTable} (h : collect_linked P = .ok table) :
    Tabled P table := by
  obtain ⟨hsep, hfound⟩ := collect_linked_ok.mp ⟨table, h⟩
  have hholds := (registered_spec P.prelude.length P.all).2 hsep
  have htable : table = (P.borrowings.foldl (fun s b => borrow P b.1 s b.2)
      (registered P.prelude.length P.all)).table := by
    rw [collect_linked, collecting_eq] at h
    split_ifs at h
    exact (Except.ok.inj h).symm
  obtain ⟨hnames, hvariants, -⟩ := borrowed_rest (P := P) P.borrowings
    (registered P.prelude.length P.all)
  refine ⟨fun n i => ?_, fun m n i => ?_, fun v i j => ?_⟩
  · rw [htable, hnames]
    exact hholds.names n i
  · rw [htable, borrowed_visible P.borrowings _ (fun b hb => (found_iff hholds.names).mpr
      (hfound b.1 b.2 (mem_borrowings.mp hb))) (fun m n j hj => hholds.seen hj),
      hholds.visible, hholds.names]
    constructor
    · rintro (⟨m', d, hd, hname, hscope⟩ | ⟨import_, hmem, rfl, m', d, hd, hname⟩)
      · refine ⟨⟨m', d, hd, hname⟩, m', d, hd, ?_⟩
        rcases hscope with hscope | hscope
        · exact Or.inl hscope
        · exact Or.inr (Or.inl hscope)
      · refine ⟨⟨m', d, hd, hname⟩, m', d, hd, Or.inr (Or.inr ⟨import_, ?_, hname, ?_⟩)⟩
        · exact mem_borrowings.mp hmem
        · -- the names are apart, so the one declaration of that name is where the import says
          obtain ⟨i', hi', hsource⟩ := (found_iff hholds.names).mpr
            (hfound m import_ (mem_borrowings.mp hmem))
          have hi : (registered P.prelude.length P.all).table.names import_.name = some i :=
            (hholds.names _ _).mpr ⟨m', d, hd, hname⟩
          obtain rfl : i' = i := Option.some.inj (hi'.symm.trans hi)
          have hm : P.all[i']?.map Prod.fst = some m' := by rw [hd]; rfl
          exact Option.some.inj (hsource.symm.trans hm)
    · rintro ⟨⟨m₁, d₁, hd₁, hname⟩, m', d, hd, hsees⟩
      obtain ⟨rfl, rfl⟩ : m₁ = m' ∧ d₁ = d := by
        simpa using Option.some.inj (hd₁.symm.trans hd)
      rcases hsees with hlt | rfl | ⟨import_, himport, hname', -⟩
      · exact Or.inl ⟨m₁, d₁, hd, hname, Or.inl hlt⟩
      · exact Or.inl ⟨m, d₁, hd, hname, Or.inr rfl⟩
      · refine Or.inr ⟨import_, mem_borrowings.mpr himport, ?_, m₁, d₁, hd, hname⟩
        exact Option.some.inj (hname'.symm.trans hname)
  · rw [htable, hvariants]
    exact hholds.variants v i j

end Spec

end Resolve
end Zdeceptron
