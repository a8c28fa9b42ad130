import Mathlib.Data.Set.Finite.Lattice
import Zdeceptron.Lexer.Raw
import Zdeceptron.Library.Numeral

/-!
# The identifiers a module is emitted with

Every definition and every binder of a program is given a JavaScript identifier nobody else has:
its own name if that is free, or the name with a `$` and a number.  What the program writes is
given a setter as well.
-/

namespace Zdeceptron
namespace Names

abbrev Text := List Char

section Alphabet

structure Alphabet extends Lexer.Identifiers where
  upper : Char → List Char
  letters : ∀ c, c.isAlpha = true → isStart c = true
  alphanumeric : ∀ c, c.isAlphanum = true → isContinue c = true
  noDollar : isContinue '$' = false
  upperContinues : ∀ c, isStart c = true → ∀ d ∈ upper c, isContinue d = true

def Alphabet.IsIdentifier (abc : Alphabet) (name : Text) : Prop :=
  ∃ c rest, name = c :: rest ∧ abc.isStart c = true ∧ ∀ d ∈ rest, abc.isContinue d = true

end Alphabet

section Program

variable (abc : Alphabet)

/-- What a definition is: a view or a component, which has no name of its own, a test, whose
name is prose, a signal, which may need a setter, or something else. -/
inductive Kind
  | unnamed
  | test
  | signal (settable : Bool)
  | other
deriving DecidableEq

structure Def where
  name : Text
  kind : Kind
  isPrelude : Bool
  identifier : kind = .signal true ∨ kind = .signal false ∨ kind = .other →
    abc.IsIdentifier name

/-- A binder.  A component's declaration has binders of its own, which are not emitted. -/
structure Local where
  name : Text
  isPrelude : Bool
  isDeclaration : Bool
  settable : Bool
  identifier : abc.IsIdentifier name

structure Hir where
  defs : List (Def abc)
  locals : List (Local abc)

end Program

section Lists

def reserved : List Text :=
  ["arguments", "await", "break", "case", "catch", "class", "const", "continue", "debugger",
    "default", "delete", "do", "else", "enum", "eval", "export", "extends", "false", "finally",
    "for", "function", "if", "implements", "import", "in", "instanceof", "interface", "let", "new",
    "null", "package", "private", "protected", "public", "return", "static", "super", "switch",
    "this", "throw", "true", "try", "typeof", "var", "void", "while", "with", "yield"].map
    String.toList

/-- Names a program may not take, because the emission already uses them at module scope. -/
def emitted : List Text :=
  ["main", "container", "derived", "effect", "signal", "anchors", "bindAttr", "bindMarkup",
    "bindStyle", "bindText", "markup", "mount", "on", "safeUrl", "template", "variant", "ifInto",
    "whenInto", "adopt", "eachInto", "e"].map String.toList

def initial : List Text := reserved ++ emitted

end Lists

section Fresh

def digits (n : Nat) : Text := Nat.toDigits 10 n

theorem digits_injective : Function.Injective digits := by
  intro n m h
  have hcodes : Library.digitCodes n = Library.digitCodes m := congrArg (List.map Char.toNat) h
  have hvalue := congrArg Library.digitsValue hcodes
  rwa [Library.digitsValue_digitCodes, Library.digitsValue_digitCodes] at hvalue

theorem isDigit_of_mem_digits {n : Nat} {c : Char} (h : c ∈ digits n) : c.isDigit = true :=
  Nat.isDigit_of_mem_toDigits (by omega) (by omega) h

/-- `x$2`, `x$3` and so on. -/
def numbered (candidate : Text) (k : Nat) : Text := candidate ++ '$' :: digits (k + 2)

variable (candidate : Text)

theorem numbered_injective : Function.Injective (numbered candidate) := by
  intro k k' h
  have hdigits := (List.cons.inj (List.append_cancel_left h)).2
  have := digits_injective hdigits
  omega

local instance : LawfulBEq Text := inferInstance

/-- The first form of a candidate nobody has taken: `x`, then `x$`, then `x$2`, `x$3` and so
on.  One more suffix is tried than there are names. -/
def fresh (candidate : Text) (taken : List Text) : Text :=
  if candidate ∉ taken then candidate
  else if candidate ++ ['$'] ∉ taken then candidate ++ ['$']
  else
    (((List.range (taken.length + 1)).map (numbered candidate)).find?
      (fun name => decide (name ∉ taken))).getD candidate

theorem exists_free (taken : List Text) :
    ∃ name ∈ (List.range (taken.length + 1)).map (numbered candidate), name ∉ taken := by
  by_contra h
  have hall : (List.range (taken.length + 1)).map (numbered candidate) ⊆ taken := by
    intro name hname
    by_contra hfree
    exact h ⟨name, hname, hfree⟩
  have hnodup : ((List.range (taken.length + 1)).map (numbered candidate)).Nodup :=
    List.nodup_range.map (numbered_injective candidate)
  have hlength := (List.subperm_of_subset hnodup hall).length_le
  rw [List.length_map, List.length_range] at hlength
  omega

theorem fresh_spec (taken : List Text) :
    fresh candidate taken ∉ taken ∧ ((candidate ∉ taken ∧ fresh candidate taken = candidate) ∨
        ∃ number, fresh candidate taken = candidate ++ '$' :: number ∧
          ∀ c ∈ number, c.isDigit = true) := by
  unfold fresh
  by_cases hcandidate : candidate ∉ taken
  · rw [if_pos hcandidate]
    exact ⟨hcandidate, .inl ⟨hcandidate, rfl⟩⟩
  · rw [if_neg hcandidate]
    by_cases hmarked : candidate ++ ['$'] ∉ taken
    · rw [if_pos hmarked]
      exact ⟨hmarked, .inr ⟨[], rfl, by simp⟩⟩
    · rw [if_neg hmarked]
      obtain ⟨name, hname, hfree⟩ := exists_free candidate taken
      cases hfind : ((List.range (taken.length + 1)).map (numbered candidate)).find?
          (fun name => decide (name ∉ taken)) with
      | none =>
          have := List.find?_eq_none.mp hfind name hname
          exact absurd (decide_eq_true hfree) this
      | some found =>
          have hfound : decide (found ∉ taken) = true :=
            List.find?_some (p := fun name => decide (name ∉ taken)) hfind
          obtain ⟨k, -, hk⟩ := List.mem_map.mp (List.mem_of_find?_eq_some hfind)
          exact ⟨of_decide_eq_true hfound,
            .inr ⟨digits (k + 2), hk.symm, fun c hc => isDigit_of_mem_digits hc⟩⟩

theorem fresh_not_mem (taken : List Text) : fresh candidate taken ∉ taken :=
  (fresh_spec candidate taken).1

end Fresh

section Allocation

variable (abc : Alphabet)

/-- `count` makes `setCount`. -/
def setterOf : Text → Text
  | [] => "set".toList
  | first :: rest => "set".toList ++ abc.upper first ++ rest

/-- The identifiers allocated so far, by what they are for, with every name that is taken. -/
structure Naming where
  taken : List Text
  defs : List (Nat × Text)
  setters : List (Nat × Text)
  locals : List (Nat × Text)
  localSetters : List (Nat × Text)

def Naming.start : Naming := ⟨initial, [], [], [], []⟩

def Naming.identifiers (s : Naming) : List Text :=
  (s.defs ++ s.setters ++ s.locals ++ s.localSetters).map Prod.snd

/-- The name of the `n`th definition if it is a test. -/
def testName (n : Nat) : Text := "$test".toList ++ digits n

def Naming.defName (s : Naming) (d : Def abc) : Text :=
  if d.kind = .test then testName s.defs.length else fresh d.name s.taken

def Naming.nameDef (s : Naming) (id : Nat) (name : Text) : Naming :=
  { s with taken := name :: s.taken, defs := (id, name) :: s.defs }

def Naming.nameSetter (s : Naming) (id : Nat) (name : Text) : Naming :=
  let setter := fresh (setterOf abc name) s.taken
  { s with taken := setter :: s.taken, setters := (id, setter) :: s.setters }

def Naming.nameLocal (s : Naming) (id : Nat) (name : Text) : Naming :=
  { s with taken := name :: s.taken, locals := (id, name) :: s.locals }

def Naming.nameLocalSetter (s : Naming) (id : Nat) (name : Text) : Naming :=
  let setter := fresh (setterOf abc name) s.taken
  { s with taken := setter :: s.taken, localSetters := (id, setter) :: s.localSetters }

def Naming.allocateDef (s : Naming) (d : Def abc × Nat) : Naming :=
  match d.1.kind with
  | .unnamed => s
  | .signal true => (s.nameDef d.2 (s.defName abc d.1)).nameSetter abc d.2 (s.defName abc d.1)
  | _ => s.nameDef d.2 (s.defName abc d.1)

def Naming.allocateLocal (s : Naming) (l : Local abc × Nat) : Naming :=
  if l.1.isDeclaration then s
  else
    let name := fresh l.1.name s.taken
    if l.1.settable then (s.nameLocal l.2 name).nameLocalSetter abc l.2 name
    else s.nameLocal l.2 name

def userFirst {α : Type} (isPrelude : α → Bool) (items : List α) : List (α × Nat) :=
  items.zipIdx.filter (fun item => !isPrelude item.1) ++
    items.zipIdx.filter (fun item => isPrelude item.1)

/-- Allocate one identifier per definition, one setter per definition that is written, and one
per local. -/
def Naming.new (hir : Hir abc) : Naming :=
  (userFirst Local.isPrelude hir.locals).foldl (Naming.allocateLocal abc)
    ((userFirst Def.isPrelude hir.defs).foldl (Naming.allocateDef abc) .start)

def Hir.sources (hir : Hir abc) : List Text :=
  (hir.defs.filter (fun d => d.kind != .unnamed && d.kind != .test)).map Def.name ++
    (hir.locals.filter (fun l => !l.isDeclaration)).map Local.name

end Allocation

section Soundness

variable {abc : Alphabet}

variable (abc) in
/-- A name of the program, marked with `$`s or not. -/
def IsMarked (name : Text) : Prop :=
  ∃ c rest, name = c :: rest ∧ abc.isStart c = true ∧
    ∀ d ∈ rest, abc.isContinue d = true ∨ d = '$'

theorem isStart_dollar : abc.isStart '$' = false := by
  refine Bool.eq_false_iff.mpr fun h => ?_
  have hcontinue := abc.goesOn _ h
  rw [abc.noDollar] at hcontinue
  cases hcontinue

variable {name : Text}

theorem IsMarked.head_ne (h : IsMarked abc name) : name.head? ≠ some '$' := by
  obtain ⟨c, rest, rfl, hc, -⟩ := h
  rintro ⟨⟩
  rw [isStart_dollar] at hc
  cases hc

theorem IsMarked.append {name tail : Text} (h : IsMarked abc name)
    (htail : ∀ d ∈ tail, abc.isContinue d = true ∨ d = '$') : IsMarked abc (name ++ tail) := by
  obtain ⟨c, rest, rfl, hc, hrest⟩ := h
  refine ⟨c, rest ++ tail, rfl, hc, fun d hd => ?_⟩
  rcases List.mem_append.mp hd with hd | hd
  · exact hrest d hd
  · exact htail d hd

theorem Alphabet.IsIdentifier.isMarked (h : abc.IsIdentifier name) :
    IsMarked abc name := by
  obtain ⟨c, rest, rfl, hc, hrest⟩ := h
  exact ⟨c, rest, rfl, hc, fun d hd => .inl (hrest d hd)⟩

theorem isMarked_fresh {candidate : Text} (h : IsMarked abc candidate) (taken : List Text) :
    IsMarked abc (fresh candidate taken) := by
  rcases (fresh_spec candidate taken).2 with ⟨-, heq⟩ | ⟨number, heq, hnumber⟩
  · rwa [heq]
  · rw [heq]
    refine h.append (fun d hd => ?_)
    rcases List.mem_cons.mp hd with rfl | hd
    · exact .inr rfl
    · exact .inl (abc.alphanumeric d (by simp [Char.isAlphanum, hnumber d hd]))

theorem setterOf_eq (h : IsMarked abc name) :
    ∃ tail, setterOf abc name = "set".toList ++ tail ∧
      ∀ d ∈ tail, abc.isContinue d = true ∨ d = '$' := by
  obtain ⟨c, rest, rfl, hc, hrest⟩ := h
  refine ⟨abc.upper c ++ rest, List.append_assoc _ _ _, fun d hd => ?_⟩
  rcases List.mem_append.mp hd with hd | hd
  · exact .inl (abc.upperContinues c hc d hd)
  · exact hrest d hd

theorem isMarked_set : IsMarked abc "set".toList := by
  refine ⟨'s', ['e', 't'], rfl, abc.letters 's' (by decide), fun d hd => .inl ?_⟩
  refine abc.alphanumeric d ?_
  rcases List.mem_cons.mp hd with rfl | hd
  · decide
  · rw [List.mem_singleton.mp hd]
    decide

theorem isMarked_setterOf (h : IsMarked abc name) :
    IsMarked abc (setterOf abc name) := by
  obtain ⟨tail, htail, hcontinues⟩ := setterOf_eq h
  rw [htail]
  exact isMarked_set.append hcontinues

/-- Where an identifier comes from: it is a name of the program as it is, it is marked, or it is
a setter. -/
def Whence (done : Text → Prop) (name : Text) : Prop :=
  done name ∨ '$' ∈ name ∨ "set".toList <+: name

variable (abc) in
/-- What is known of identifiers allocated so far, for the names a program has given that far. -/
structure Sound (done : Text → Prop) (taken ids : List Text) (tests : Nat) : Prop where
  known : ∀ name, name ∈ taken ↔ name ∈ initial ∨ name ∈ ids
  nodup : ids.Nodup
  apart : ∀ name ∈ ids, name ∉ initial
  formed : ∀ name ∈ ids, IsMarked abc name ∨ ∃ n < tests, name = testName n
  whence : ∀ name ∈ ids, Whence done name
  covered : ∀ name, done name → name ∈ taken

theorem Sound.add {done done' : Text → Prop} {taken ids ids' : List Text} {tests tests' : Nat}
    (h : Sound abc done taken ids tests) (hfree : name ∉ taken)
    (hids : ids'.Perm (name :: ids)) (htests : tests ≤ tests')
    (hformed : IsMarked abc name ∨ ∃ n < tests', name = testName n)
    (hwhence : Whence done' name) (hdone : ∀ other, done other → done' other)
    (hcovered : ∀ other, done' other → done other ∨ other ∈ name :: taken) :
    Sound abc done' (name :: taken) ids' tests' := by
  have hnot : name ∉ initial ∧ name ∉ ids := by
    rw [h.known, not_or] at hfree
    exact hfree
  refine ⟨?_, ?_, ?_, ?_, ?_, ?_⟩
  · intro other
    rw [hids.mem_iff, List.mem_cons, List.mem_cons, h.known]
    exact ⟨fun h => by tauto, fun h => by tauto⟩
  · exact hids.nodup_iff.mpr (List.nodup_cons.mpr ⟨hnot.2, h.nodup⟩)
  · intro other hother
    rcases List.mem_cons.mp (hids.mem_iff.mp hother) with rfl | hother
    · exact hnot.1
    · exact h.apart other hother
  · intro other hother
    rcases List.mem_cons.mp (hids.mem_iff.mp hother) with rfl | hother
    · exact hformed
    · refine (h.formed other hother).imp id ?_
      rintro ⟨n, hn, heq⟩
      exact ⟨n, lt_of_lt_of_le hn htests, heq⟩
  · intro other hother
    rcases List.mem_cons.mp (hids.mem_iff.mp hother) with rfl | hother
    · exact hwhence
    · exact (h.whence other hother).imp (hdone other) id
  · intro other hother
    rcases hcovered other hother with hother | hother
    · exact List.mem_cons_of_mem _ (h.covered other hother)
    · exact hother

theorem head_initial : ∀ name ∈ initial, name.head? ≠ some '$' := by
  decide +kernel

theorem Sound.testName_not_mem {done : Text → Prop} {taken ids : List Text} {tests : Nat}
    (h : Sound abc done taken ids tests) : testName tests ∉ taken := by
  rw [h.known]
  rintro (hinitial | hids)
  · exact head_initial _ hinitial rfl
  · rcases h.formed _ hids with hmarked | ⟨n, hn, heq⟩
    · exact hmarked.head_ne rfl
    · have := digits_injective (List.append_cancel_left heq)
      omega

variable (abc) in
def Naming.Sound (s : Naming) (done : Text → Prop) : Prop :=
  Names.Sound abc done s.taken s.identifiers s.defs.length

variable {s : Naming} {done : Text → Prop}

theorem sound_start : Naming.start.Sound abc (fun _ => False) := by
  refine ⟨fun name => ?_, List.nodup_nil, ?_, ?_, ?_, fun _ => False.elim⟩
  · simp [Naming.start, Naming.identifiers]
  all_goals
    intro name hname
    cases hname

theorem whence_fresh (name : Text) (taken : List Text) :
    Whence (fun other => done other ∨ other = name) (fresh name taken) := by
  rcases (fresh_spec name taken).2 with ⟨-, heq⟩ | ⟨number, heq, -⟩
  · exact .inl (.inr heq)
  · rw [heq]
    exact .inr (.inl (List.mem_append_right _ List.mem_cons_self))

theorem covered_fresh {taken : List Text} (name other : Text) (h : done other ∨ other = name) :
    done other ∨ other ∈ fresh name taken :: taken := by
  refine h.imp id ?_
  rintro rfl
  rcases (fresh_spec other taken).2 with ⟨-, heq⟩ | ⟨number, heq, -⟩
  · rw [heq]
    exact List.mem_cons_self
  · by_cases hmem : other ∈ taken
    · exact List.mem_cons_of_mem _ hmem
    · have : fresh other taken = other := if_pos hmem
      rw [this]
      exact List.mem_cons_self

theorem whence_setter (hname : IsMarked abc name) (taken : List Text) :
    Whence done (fresh (setterOf abc name) taken) := by
  obtain ⟨tail, htail, -⟩ := setterOf_eq hname
  rcases (fresh_spec (setterOf abc name) taken).2 with ⟨-, heq⟩ | ⟨number, heq, -⟩
  · rw [heq, htail]
    exact .inr (.inr (List.prefix_append _ _))
  · rw [heq]
    exact .inr (.inl (List.mem_append_right _ List.mem_cons_self))

variable (id : Nat)

theorem perm_nameDef (name : Text) :
    (s.nameDef id name).identifiers.Perm (name :: s.identifiers) := .refl _

theorem perm_nameSetter (name : Text) :
    (s.nameSetter abc id name).identifiers.Perm
      (fresh (setterOf abc name) s.taken :: s.identifiers) := by
  simp only [Naming.identifiers, Naming.nameSetter, List.map_append, List.map_cons,
    List.append_assoc, List.cons_append]
  exact List.perm_middle

theorem perm_nameLocal (name : Text) :
    (s.nameLocal id name).identifiers.Perm (name :: s.identifiers) := by
  simp only [Naming.identifiers, Naming.nameLocal, List.map_append, List.map_cons,
    List.append_assoc, List.cons_append]
  rw [← List.append_assoc, ← List.append_assoc]
  exact List.perm_middle

theorem perm_nameLocalSetter (name : Text) :
    (s.nameLocalSetter abc id name).identifiers.Perm
      (fresh (setterOf abc name) s.taken :: s.identifiers) := by
  simp only [Naming.identifiers, Naming.nameLocalSetter, List.map_append, List.map_cons]
  exact List.perm_middle

theorem Naming.Sound.nameDef (h : s.Sound abc done) (id : Nat) (hname : abc.IsIdentifier name) :
    (s.nameDef id (fresh name s.taken)).Sound abc (fun other => done other ∨ other = name) :=
  h.add (fresh_not_mem name s.taken) (perm_nameDef id _) (Nat.le_succ _)
    (.inl (isMarked_fresh hname.isMarked s.taken)) (whence_fresh name s.taken)
    (fun _ => .inl) (fun other => covered_fresh name other)

theorem Naming.Sound.nameLocal (h : s.Sound abc done) (id : Nat) (hname : abc.IsIdentifier name) :
    (s.nameLocal id (fresh name s.taken)).Sound abc (fun other => done other ∨ other = name) :=
  h.add (fresh_not_mem name s.taken) (perm_nameLocal id _) (Nat.le_refl _)
    (.inl (isMarked_fresh hname.isMarked s.taken)) (whence_fresh name s.taken)
    (fun _ => .inl) (fun other => covered_fresh name other)

theorem Naming.Sound.nameTest (h : s.Sound abc done) (id : Nat) :
    (s.nameDef id (testName s.defs.length)).Sound abc done :=
  h.add h.testName_not_mem (perm_nameDef id _) (Nat.le_succ _)
    (.inr ⟨s.defs.length, Nat.lt_succ_self _, rfl⟩) (.inr (.inl List.mem_cons_self))
    (fun _ hdone => hdone) (fun _ => .inl)

theorem Naming.Sound.nameSetter (h : s.Sound abc done) (id : Nat)
    (hname : IsMarked abc name) : (s.nameSetter abc id name).Sound abc done :=
  h.add (fresh_not_mem _ s.taken) (perm_nameSetter id name) (Nat.le_refl _)
    (.inl (isMarked_fresh (isMarked_setterOf hname) s.taken)) (whence_setter hname s.taken)
    (fun _ hdone => hdone) (fun _ => .inl)

theorem Naming.Sound.nameLocalSetter (h : s.Sound abc done) (id : Nat)
    (hname : IsMarked abc name) : (s.nameLocalSetter abc id name).Sound abc done :=
  h.add (fresh_not_mem _ s.taken) (perm_nameLocalSetter id name) (Nat.le_refl _)
    (.inl (isMarked_fresh (isMarked_setterOf hname) s.taken)) (whence_setter hname s.taken)
    (fun _ hdone => hdone) (fun _ => .inl)

def Def.Gives (d : Def abc) (name : Text) : Prop :=
  d.kind ≠ .unnamed ∧ d.kind ≠ .test ∧ name = d.name

def Local.Gives (l : Local abc) (name : Text) : Prop := l.isDeclaration = false ∧ name = l.name

theorem Naming.Sound.congr {done' : Text → Prop} (h : s.Sound abc done)
    (hdone : ∀ name, done name ↔ done' name) : s.Sound abc done' := by
  have : done = done' := funext fun name => propext (hdone name)
  rwa [← this]

theorem Naming.Sound.allocateDef (h : s.Sound abc done) (d : Def abc × Nat) :
    (s.allocateDef abc d).Sound abc (fun name => done name ∨ d.1.Gives name) := by
  obtain ⟨d, id⟩ := d
  unfold Naming.allocateDef Naming.defName
  cases hkind : d.kind with
  | unnamed => exact h.congr (fun name => by simp [Def.Gives, hkind])
  | test => exact (h.nameTest id).congr (fun name => by simp [Def.Gives, hkind])
  | other =>
      refine (h.nameDef id (d.identifier (.inr (.inr hkind)))).congr (fun name => ?_)
      simp [Def.Gives, hkind]
  | signal settable =>
      cases settable with
      | false =>
          refine (h.nameDef id (d.identifier (.inr (.inl hkind)))).congr (fun name => ?_)
          simp [Def.Gives, hkind]
      | true =>
          have hname := d.identifier (.inl hkind)
          refine ((h.nameDef id hname).nameSetter id (isMarked_fresh hname.isMarked _)).congr
            (fun name => ?_)
          simp [Def.Gives, hkind]

theorem Naming.Sound.allocateLocal (h : s.Sound abc done) (l : Local abc × Nat) :
    (s.allocateLocal abc l).Sound abc (fun name => done name ∨ l.1.Gives name) := by
  obtain ⟨l, id⟩ := l
  unfold Naming.allocateLocal
  dsimp only
  split_ifs with hdeclaration hsettable
  · exact h.congr (fun name => by simp [Local.Gives, hdeclaration])
  · refine ((h.nameLocal id l.identifier).nameLocalSetter id
      (isMarked_fresh l.identifier.isMarked _)).congr (fun name => ?_)
    simp [Local.Gives, hdeclaration]
  · refine (h.nameLocal id l.identifier).congr (fun name => ?_)
    simp [Local.Gives, hdeclaration]

theorem Naming.Sound.pass {α : Type} (step : Naming → α × Nat → Naming) (gives : α → Text → Prop)
    (hstep : ∀ (s : Naming) (done : Text → Prop) (item : α × Nat), s.Sound abc done →
      (step s item).Sound abc (fun name => done name ∨ gives item.1 name))
    (h : s.Sound abc done) (items : List (α × Nat)) :
    (items.foldl step s).Sound abc (fun name => done name ∨ ∃ item ∈ items, gives item.1 name) := by
  induction items generalizing s done with
  | nil => exact h.congr (fun name => by simp)
  | cons item items ih =>
      refine (ih (hstep s done item h)).congr (fun name => ?_)
      simp [or_assoc]

theorem exists_userFirst_iff {α : Type} (isPrelude : α → Bool) (items : List α) (P : α → Prop) :
    (∃ item ∈ userFirst isPrelude items, P item.1) ↔ ∃ a ∈ items, P a := by
  have hmem : ∀ item : α × Nat, item ∈ userFirst isPrelude items ↔ item ∈ items.zipIdx := by
    intro item
    unfold userFirst
    cases hprelude : isPrelude item.1 <;> simp [hprelude]
  have hfst : items.zipIdx.map Prod.fst = items := List.zipIdx_map_fst 0 items
  constructor
  · rintro ⟨item, hitem, hP⟩
    refine ⟨item.1, ?_, hP⟩
    have := List.mem_map_of_mem (f := Prod.fst) ((hmem item).mp hitem)
    rwa [hfst] at this
  · rintro ⟨a, ha, hP⟩
    rw [← hfst] at ha
    obtain ⟨item, hitem, rfl⟩ := List.mem_map.mp ha
    exact ⟨item, (hmem item).mpr hitem, hP⟩

theorem sound_new (hir : Hir abc) :
    (Naming.new abc hir).Sound abc (fun name => name ∈ hir.sources abc) := by
  have hdefs := sound_start.pass (Naming.allocateDef abc) Def.Gives
    (fun s done item h => h.allocateDef item) (userFirst Def.isPrelude hir.defs)
  have hlocals := hdefs.pass (Naming.allocateLocal abc) Local.Gives
    (fun s done item h => h.allocateLocal item) (userFirst Local.isPrelude hir.locals)
  refine hlocals.congr (fun name => ?_)
  rw [exists_userFirst_iff Def.isPrelude hir.defs (fun d => d.Gives name),
    exists_userFirst_iff Local.isPrelude hir.locals (fun l => l.Gives name)]
  simp only [Hir.sources, List.mem_append, List.mem_map, List.mem_filter, Def.Gives, Local.Gives,
    false_or, Bool.and_eq_true, bne_iff_ne, ne_eq, Bool.not_eq_true']
  constructor
  · rintro (⟨d, hd, hunnamed, htest, rfl⟩ | ⟨l, hl, hdeclaration, rfl⟩)
    · exact .inl ⟨d, ⟨hd, hunnamed, htest⟩, rfl⟩
    · exact .inr ⟨l, ⟨hl, hdeclaration⟩, rfl⟩
  · rintro (⟨d, ⟨hd, hunnamed, htest⟩, rfl⟩ | ⟨l, ⟨hl, hdeclaration⟩, rfl⟩)
    · exact .inl ⟨d, hd, hunnamed, htest, rfl⟩
    · exact .inr ⟨l, hl, hdeclaration, rfl⟩

end Soundness

end Names
end Zdeceptron
