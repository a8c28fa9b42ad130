import Mathlib.Data.List.DropRight
import Zdeceptron.Library.TomlText
import Zdeceptron.Store.Value

/-!
# The package mapping of a project

`zd.toml` is read a line at a time: a blank line, a comment, the header of the one table there
is, or a key, an equals sign and a target between quotation marks.
-/

namespace Zdeceptron
namespace Resolve
namespace Packages

open Library Library.TomlText
open Store (isWhitespace)

section Reader

def MANIFEST : String := "zd.toml"

def PACKAGES : Text := ['p', 'a', 'c', 'k', 'a', 'g', 'e', 's']

structure PackagesError where
  line : Nat
  message : String

/-- `str::trim`. -/
def trim (t : Text) : Text := (t.dropWhile isWhitespace).rdropWhile isWhitespace

/-- `str::split_once`. -/
def splitOnce (sep : Char) : Text → Option (Text × Text)
  | [] => none
  | c :: cs => if c = sep then some ([], cs) else (splitOnce sep cs).map fun p => (c :: p.1, p.2)

/-- `str::strip_suffix`. -/
def stripSuffix (c : Char) (t : Text) : Option Text :=
  if t.getLast? = some c then some t.dropLast else none

/-- Every line without its end; after the last line feed there is one only if there is text. -/
def ended : List Text → List Text
  | [] => []
  | [last] => if last = [] then [] else [last]
  | line :: next :: rest => stripReturn line :: ended (next :: rest)

/-- `str::lines`. -/
def lines (text : Text) : List Text := ended (splitLines text)

def refused {α : Type} (line : Nat) (message : String) : Except PackagesError α :=
  .error ⟨line, message⟩

def unquoteKey (key : Text) (line : Nat) : Except PackagesError Text :=
  match key with
  | [] => refused line <|
      s!"`{MANIFEST}` line {line} maps a package with no name. Write the name to the left of " ++
        s!"the `=`, as in `three = \"https://esm.sh/three@0.180.0\"`."
  | c :: quoted =>
      if c = '"' then
        match stripSuffix '"' quoted with
        | some name => .ok name
        | none => refused line <|
            s!"`{MANIFEST}` line {line} opens a quoted package name and never closes it. Write " ++
              s!"`\"@scope/pkg\" = \"https://esm.sh/@scope/pkg@1.0.0\"`."
      else .ok key

def unquoteValue (value : Text) (line : Nat) : Except PackagesError Text :=
  match value with
  | '"' :: rest =>
      match splitOnce '"' rest with
      | none => refused line <|
          s!"`{MANIFEST}` line {line} opens a target and never closes it. Write `three = " ++
            s!"\"https://esm.sh/three@0.180.0\"`."
      | some (target, tail) =>
          let tail := trim tail
          if tail ≠ [] ∧ tail.head? ≠ some '#' then
            refused line <|
              s!"`{MANIFEST}` line {line} carries `{String.ofList tail}` after the target. " ++
                s!"Write one package per line, as in `three = \"https://esm.sh/three@0.180.0\"`."
          else .ok target
  | _ => refused line <|
      s!"`{MANIFEST}` line {line} maps a package to something that is not a quoted module. " ++
        s!"Write `three = \"https://esm.sh/three@0.180.0\"`."

inductive Reading
  | nothing
  | table
  | entry (name target : Text)
  deriving DecidableEq

/-- The body of the loop of `parse`. -/
def readLine (line : Nat) (inPackages : Bool) (raw : Text) : Except PackagesError Reading :=
  let trimmed := trim raw
  match trimmed with
  | [] => .ok .nothing
  | c :: header =>
      if c = '#' then .ok .nothing
      else if c = '[' then
        match stripSuffix ']' header with
        | none => refused line <|
            s!"`{MANIFEST}` line {line} opens a table and never closes it. Write " ++
              s!"`[{String.ofList PACKAGES}]`."
        | some name =>
            let name := trim name
            if name ≠ PACKAGES then
              refused line <|
                s!"`{MANIFEST}` line {line} declares `[{String.ofList name}]`, and this build " ++
                  s!"reads one table. Write `[{String.ofList PACKAGES}]`."
            else .ok .table
      else
        match splitOnce '=' trimmed with
        | none => refused line <|
            s!"`{MANIFEST}` line {line} is neither a table nor a mapping. Write one package per " ++
              s!"line, as in `three = \"https://esm.sh/three@0.180.0\"`."
        | some (key, value) =>
            if inPackages = false then
              refused line <|
                s!"`{MANIFEST}` line {line} maps a package before any table opens. Write " ++
                  s!"`[{String.ofList PACKAGES}]` above it."
            else do
              let name ← unquoteKey (trim key) line
              let target ← unquoteValue (trim value) line
              pure (.entry name target)

/-- A `BTreeMap` from names to targets. -/
abbrev Entries := List (Text × List Text)

/-- `entries.entry(name).or_default().push(target)`. -/
def push (entries : Entries) (name target : Text) : Entries :=
  match entries with
  | [] => [(name, [target])]
  | (n, targets) :: rest =>
      if n = name then (n, targets ++ [target]) :: rest else (n, targets) :: push rest name target

def parseLines (line : Nat) (inPackages : Bool) (entries : Entries) :
    List Text → Except PackagesError Entries
  | [] => .ok entries
  | raw :: rest => do
      match ← readLine line inPackages raw with
      | .nothing => parseLines (line + 1) inPackages entries rest
      | .table => parseLines (line + 1) true entries rest
      | .entry name target => parseLines (line + 1) inPackages (push entries name target) rest

def parse (text : Text) : Except PackagesError Entries := parseLines 1 false [] (lines text)

end Reader

section Trimming

variable {c : Char}

theorem isWhitespace_of_blank (h : c = ' ' ∨ c = '\t') : isWhitespace c = true := by
  rcases h with rfl | rfl <;> simp [isWhitespace]

def trimEnd (t : Text) : Text := t.rdropWhile isWhitespace

theorem trimEnd_append {u v : Text} (hc : isWhitespace c = false) :
    trimEnd (u ++ c :: v) = u ++ c :: trimEnd v := by
  induction v using List.reverseRecOn with
  | nil => simp [trimEnd, List.rdropWhile_concat_neg, hc]
  | append_singleton v d ih =>
      have hshape : u ++ c :: (v ++ [d]) = (u ++ c :: v) ++ [d] := by simp
      by_cases hd : isWhitespace d = true
      · rw [hshape, trimEnd, List.rdropWhile_concat_pos _ _ _ hd, trimEnd,
          List.rdropWhile_concat_pos _ _ _ hd]
        exact ih
      · rw [hshape, trimEnd, List.rdropWhile_concat_neg _ _ _ hd, trimEnd,
          List.rdropWhile_concat_neg _ _ _ hd]
        simp

theorem trimEnd_cons (hc : isWhitespace c = false) (t : Text) :
    trimEnd (c :: t) = c :: trimEnd t :=
  trimEnd_append (u := []) hc

theorem trimEnd_blank {b : Text} (h : IsBlank b) : trimEnd b = [] :=
  List.rdropWhile_eq_nil_iff.mpr fun c hc => isWhitespace_of_blank (h c hc)

theorem trim_blank_append {b : Text} (h : IsBlank b) (t : Text) : trim (b ++ t) = trim t := by
  rw [trim, List.dropWhile_append_of_pos fun c hc => isWhitespace_of_blank (h c hc), trim]

theorem trim_cons (hc : isWhitespace c = false) (t : Text) :
    trim (c :: t) = c :: trimEnd t := by
  rw [trim, List.dropWhile_cons_of_neg (by simp [hc])]
  exact trimEnd_cons hc t

theorem trim_append_blank {t b : Text} (hne : t ≠ [])
    (hhead : ∀ c, t.head? = some c → isWhitespace c = false)
    (hlast : ∀ c, t.getLast? = some c → isWhitespace c = false) (hb : IsBlank b) :
    trim (t ++ b) = t := by
  have hends : trimEnd (t ++ b) = t := by
    obtain rfl | ⟨front, c, rfl⟩ := List.eq_nil_or_concat t
    · exact absurd rfl hne
    · have hc := hlast c (by simp)
      rw [List.concat_eq_append, List.append_assoc, List.singleton_append, trimEnd_append hc,
        trimEnd_blank hb]
  cases t with
  | nil => exact absurd rfl hne
  | cons c t =>
      have hc := hhead c rfl
      rw [List.cons_append, trim_cons hc]
      rw [List.cons_append, trimEnd_cons hc] at hends
      exact hends

variable {t : Text}

theorem mem_trim (hc : isWhitespace c = false) (h : c ∈ t) : c ∈ trim t := by
  obtain ⟨u, v, rfl⟩ := List.append_of_mem h
  have hdrop : ∃ w, (u ++ c :: v).dropWhile isWhitespace = w ++ c :: v := by
    induction u with
    | nil => exact ⟨[], List.dropWhile_cons_of_neg (by simp [hc])⟩
    | cons d u ih =>
        by_cases hd : isWhitespace d = true
        · rw [List.cons_append, List.dropWhile_cons_of_pos hd]
          exact ih (by simp)
        · rw [List.cons_append, List.dropWhile_cons_of_neg hd]
          exact ⟨d :: u, rfl⟩
  obtain ⟨w, hw⟩ := hdrop
  rw [trim, hw]
  change c ∈ trimEnd (w ++ c :: v)
  rw [trimEnd_append hc]
  simp

theorem mem_of_mem_trim (h : c ∈ trim t) : c ∈ t :=
  (List.dropWhile_sublist _).subset ((List.rdropWhile_prefix _ _).subset h)

theorem splitOnce_append {sep : Char} {a : Text} (b : Text) (h : sep ∉ a) :
    splitOnce sep (a ++ sep :: b) = some (a, b) := by
  induction a with
  | nil => simp [splitOnce]
  | cons c a ih =>
      rw [List.mem_cons, not_or] at h
      rw [List.cons_append, splitOnce, if_neg (Ne.symm h.1), ih h.2]
      rfl

theorem splitOnce_inv {sep : Char} {t a b : Text} (h : splitOnce sep t = some (a, b)) :
    sep ∉ a ∧ t = a ++ sep :: b := by
  induction t generalizing a with
  | nil => cases h
  | cons c t ih =>
      rw [splitOnce] at h
      split at h
      case isTrue hc =>
          obtain ⟨rfl, rfl⟩ := Prod.mk.inj (Option.some.inj h)
          exact ⟨List.not_mem_nil, by rw [hc]; rfl⟩
      case isFalse hc =>
          obtain ⟨⟨a', b'⟩, hp, hab⟩ := Option.map_eq_some_iff.mp h
          obtain ⟨rfl, rfl⟩ := Prod.mk.inj hab
          obtain ⟨hmem, rfl⟩ := ih hp
          exact ⟨fun hin => (List.mem_cons.mp hin).elim (fun he => hc he.symm) hmem, rfl⟩

theorem stripSuffix_append (c : Char) (t : Text) : stripSuffix c (t ++ [c]) = some t := by
  simp [stripSuffix]

theorem stripSuffix_inv {t u : Text} (h : stripSuffix c t = some u) : t = u ++ [c] := by
  rw [stripSuffix] at h
  split at h
  case isTrue hlast =>
      rw [← Option.some.inj h]
      exact (List.dropLast_append_getLast? c hlast).symm
  case isFalse => cases h

structure Solid (t : Text) : Prop where
  ne_nil : t ≠ []
  head : ∀ c, t.head? = some c → isWhitespace c = false
  last : ∀ c, t.getLast? = some c → isWhitespace c = false

theorem Solid.trim_append {t b : Text} (h : Solid t) (hb : IsBlank b) : trim (t ++ b) = t :=
  trim_append_blank h.ne_nil h.head h.last hb

theorem Solid.quoted {q : Char} (hq : isWhitespace q = false) (t : Text) :
    Solid (q :: (t ++ [q])) where
  ne_nil := List.cons_ne_nil _ _
  head := by
    intro c hc
    rwa [← Option.some.inj hc]
  last := by
    intro c hc
    rw [← List.cons_append, List.getLast?_concat] at hc
    rwa [← Option.some.inj hc]

theorem Solid.of_forall (hne : t ≠ []) (h : ∀ c ∈ t, isWhitespace c = false) :
    Solid t where
  ne_nil := hne
  head := fun c hc => h c (List.mem_of_head? hc)
  last := fun c hc => h c (List.mem_of_getLast? hc)

end Trimming

section Lines

variable {t : Text}

variable (rest : Text)

theorem splitLines_append (h : '\n' ∉ t) :
    splitLines (t ++ '\n' :: rest) = t :: splitLines rest := by
  induction t with
  | nil => exact splitLines_newline rest
  | cons c t ih =>
      rw [List.mem_cons, not_or] at h
      exact splitLines_cons (Ne.symm h.1) (ih h.2)

theorem splitLines_head (h : '\n' ∉ t) :
    ∃ more others, splitLines (t ++ rest) = (t ++ more) :: others := by
  induction t with
  | nil => exact exists_splitLines rest
  | cons c t ih =>
      rw [List.mem_cons, not_or] at h
      obtain ⟨more, others, hsplit⟩ := ih h.2
      exact ⟨more, others, splitLines_cons (Ne.symm h.1) hsplit⟩

theorem ended_cons {l : Text} {ls : List Text} (h : ls ≠ []) :
    ended (l :: ls) = stripReturn l :: ended ls := by
  cases ls with
  | nil => exact absurd rfl h
  | cons next rest => rfl

theorem lines_append (h : '\n' ∉ t) :
    lines (t ++ '\n' :: rest) = stripReturn t :: lines rest := by
  rw [lines, splitLines_append rest h, ended_cons (splitLines_ne_nil rest), lines]

theorem lines_last (h : '\n' ∉ t) : lines t = if t = [] then [] else [t] := by
  have hsplit : splitLines t = [t] := by
    induction t with
    | nil => rfl
    | cons c t ih =>
        rw [List.mem_cons, not_or] at h
        exact splitLines_cons (Ne.symm h.1) (ih h.2)
  rw [lines, hsplit, ended]

theorem stripReturn_append_of_not_mem (more : Text) (h : '\r' ∉ t) :
    ∃ more', stripReturn (t ++ more) = t ++ more' := by
  obtain rfl | ⟨front, c, rfl⟩ := List.eq_nil_or_concat more
  · exact ⟨[], by rw [List.append_nil, stripReturn_of_not_mem h]⟩
  · rw [List.concat_eq_append, ← List.append_assoc]
    by_cases hc : c = '\r'
    · rw [hc, stripReturn_append]
      exact ⟨front, rfl⟩
    · rw [stripReturn, if_neg (by simpa using hc), List.append_assoc]
      exact ⟨front ++ [c], rfl⟩

theorem lines_head (hne : t ≠ []) (h : ∀ c ∈ t, isPrintable c = true) :
    ∃ more others, lines (t ++ rest) = (t ++ more) :: others := by
  have hline : '\n' ∉ t := fun hmem => (isPrintable_ne (h _ hmem)).1 rfl
  have hreturn : '\r' ∉ t := fun hmem => (isPrintable_ne (h _ hmem)).2 rfl
  obtain ⟨more, others, hsplit⟩ := splitLines_head rest hline
  rw [lines, hsplit]
  cases others with
  | nil => exact ⟨more, [], by rw [ended, if_neg (by simp [hne])]⟩
  | cons next others =>
      obtain ⟨more', hmore⟩ := stripReturn_append_of_not_mem more hreturn
      exact ⟨more', ended (next :: others), by rw [ended, hmore]⟩

theorem lines_newline {t newline : Text} (h : ∀ c ∈ t, isPrintable c = true)
    (hnewline : IsNewline newline) : lines (t ++ (newline ++ rest)) = t :: lines rest := by
  have hline : '\n' ∉ t := fun hmem => (isPrintable_ne (h _ hmem)).1 rfl
  have hreturn : '\r' ∉ t := fun hmem => (isPrintable_ne (h _ hmem)).2 rfl
  rcases hnewline with rfl | rfl
  · rw [List.singleton_append, lines_append rest hline, stripReturn_of_not_mem hreturn]
  · have hshape : t ++ (['\r', '\n'] ++ rest) = (t ++ ['\r']) ++ '\n' :: rest := by simp
    rw [hshape, lines_append rest (by simp [hline]), stripReturn_append]

theorem stripReturn_cases (t : Text) : t = stripReturn t ∨ t = stripReturn t ++ ['\r'] := by
  rw [stripReturn]
  split
  case isTrue h => exact Or.inr (List.dropLast_append_getLast? _ h).symm
  case isFalse => exact Or.inl rfl

theorem text_cases (t : Text) : '\n' ∉ t ∨ ∃ l rest, t = l ++ '\n' :: rest ∧ '\n' ∉ l := by
  by_cases h : '\n' ∈ t
  · obtain ⟨l, rest, ht, hl⟩ := List.eq_append_cons_of_mem h
    exact Or.inr ⟨l, rest, ht, hl⟩
  · exact Or.inl h

end Lines

section Line

variable {line : Nat} {inPackages : Bool}

theorem readLine_nothing {b comment : Text} (hb : IsBlank b) (hcomment : Comment comment) :
    readLine line inPackages (b ++ comment) = .ok .nothing := by
  rw [readLine, trim_blank_append hb]
  cases hcomment with
  | none => rfl
  | some h =>
      rw [trim_cons (by simp [isWhitespace])]
      simp

theorem readLine_table {b rest : Text} {r : Reading} (hb : IsBlank b)
    (h : readLine line inPackages (b ++ '[' :: rest) = .ok r) :
    r = .table ∧ ∃ name, trimEnd rest = name ++ [']'] ∧ trim name = PACKAGES := by
  rw [readLine, trim_blank_append hb, trim_cons (by simp [isWhitespace])] at h
  simp only [reduceIte, Char.reduceEq] at h
  cases hstrip : stripSuffix ']' (trimEnd rest) with
  | none =>
      rw [hstrip] at h
      cases h
  | some name =>
      rw [hstrip] at h
      by_cases hname : trim name = PACKAGES
      · simp only [hname, ne_eq, not_true_eq_false, reduceIte] at h
        exact ⟨(Except.ok.inj h).symm, name, stripSuffix_inv hstrip, hname⟩
      · simp only [hname, ne_eq, not_false_eq_true, reduceIte] at h
        cases h

theorem readLine_table_of {b left right after : Text} (hb : IsBlank b) (hleft : IsBlank left)
    (hright : IsBlank right) (hafter : IsBlank after) :
    readLine line inPackages (b ++ '[' :: (left ++ (PACKAGES ++ (right ++ ']' :: after)))) =
      .ok .table := by
  have hsolid : Solid PACKAGES :=
    Solid.of_forall (by simp [PACKAGES]) (by simp [PACKAGES, isWhitespace])
  have hend : trimEnd (left ++ (PACKAGES ++ (right ++ ']' :: after))) =
      (left ++ (PACKAGES ++ right)) ++ [']'] := by
    have hshape : left ++ (PACKAGES ++ (right ++ ']' :: after)) =
        (left ++ (PACKAGES ++ right)) ++ ']' :: after := by simp
    rw [hshape, trimEnd_append (by simp [isWhitespace]), trimEnd_blank hafter]
  have hname : trim (left ++ (PACKAGES ++ right)) = PACKAGES := by
    rw [trim_blank_append hleft, hsolid.trim_append hright]
  rw [readLine, trim_blank_append hb, trim_cons (by simp [isWhitespace])]
  simp only [reduceIte, Char.reduceEq]
  rw [hend, stripSuffix_append]
  simp [hname]

structure Keyed (key : Text) : Prop extends Solid key where
  comment : key.head? ≠ some '#'
  table : key.head? ≠ some '['
  equals : '=' ∉ key

theorem readLine_entry {b key left rest : Text} (hb : IsBlank b) (hkey : Keyed key)
    (hleft : IsBlank left) :
    readLine line inPackages (b ++ (key ++ (left ++ '=' :: rest))) =
      if inPackages = false then
        refused line <|
          s!"`{MANIFEST}` line {line} maps a package before any table opens. Write " ++
            s!"`[{String.ofList PACKAGES}]` above it."
      else (do
        let name ← unquoteKey key line
        let target ← unquoteValue (trim (trimEnd rest)) line
        pure (.entry name target)) := by
  have hequals : '=' ∉ key ++ left := by
    intro hmem
    rcases List.mem_append.mp hmem with hmem | hmem
    · exact hkey.equals hmem
    · rcases hleft _ hmem with h | h <;> simp at h
  have htrim : trim (b ++ (key ++ (left ++ '=' :: rest))) =
      (key ++ left) ++ '=' :: trimEnd rest := by
    rw [trim_blank_append hb]
    cases key with
    | nil => exact absurd rfl hkey.ne_nil
    | cons c key =>
        have hc := hkey.head c rfl
        have hshape : c :: key ++ (left ++ '=' :: rest) = c :: ((key ++ left) ++ '=' :: rest) := by
          simp
        rw [hshape, trim_cons hc, trimEnd_append (by simp [isWhitespace])]
        rfl
  have hhead : ∀ c, ((key ++ left) ++ '=' :: trimEnd rest).head? = some c →
      c ≠ '#' ∧ c ≠ '[' := by
    intro c hc
    cases key with
    | nil => exact absurd rfl hkey.ne_nil
    | cons d key =>
        rw [← Option.some.inj hc]
        exact ⟨fun h => hkey.comment (by rw [h]; rfl), fun h => hkey.table (by rw [h]; rfl)⟩
  have hsplit := splitOnce_append (trimEnd rest) hequals
  rw [readLine, htrim]
  cases htext : (key ++ left) ++ '=' :: trimEnd rest with
  | nil => simp at htext
  | cons c header =>
      have hc := hhead c (by rw [htext]; rfl)
      rw [htext] at hsplit
      simp only [if_neg hc.1, if_neg hc.2, hsplit, hkey.toSolid.trim_append hleft]

end Line

end Packages
end Resolve
end Zdeceptron
