import Mathlib.Data.List.DropRight
import Zdeceptron.Library.TomlText
import Zdeceptron.Store.Value

/-!
# The URLs an attribute may hold

The build reads the scheme of a URL it can see and the runtime that of one it cannot, each after
the leading white space of its own language.
-/

namespace Zdeceptron
namespace Routes
namespace SafeUrls

open Library.TomlText (Text)
open Store (isWhitespace)

section Filters

def URL_SCHEMES : List Text :=
  [['h', 't', 't', 'p'], ['h', 't', 't', 'p', 's'], ['m', 'a', 'i', 'l', 't', 'o'], ['t', 'e', 'l']]

/-- `String.prototype.toLowerCase`, of which only this is relied on: no character outside ASCII
has a lower case within it, apart from the Kelvin sign. -/
structure LowerCase where
  toLowerCase : Text → Text
  ascii : ∀ t : Text, (∀ c ∈ t, c.toNat < 128) → toLowerCase t = t.map Char.toLower
  other : ∀ t : Text, (∃ c ∈ t, 128 ≤ c.toNat) → ∃ c ∈ toLowerCase t, 128 ≤ c.toNat ∨ c = 'k'

/-- The characters `trimStart` removes: white space and line terminators of ECMAScript. -/
def isEcmaSpace (c : Char) : Bool :=
  let n := c.toNat
  (9 ≤ n && n ≤ 13) || n == 0x20 || n == 0xA0 || n == 0x1680 || (0x2000 ≤ n && n ≤ 0x200A) ||
    n == 0x2028 || n == 0x2029 || n == 0x202F || n == 0x205F || n == 0x3000 || n == 0xFEFF

/-- What stands before the first colon, unless that is inside a path or a query. -/
def schemeOf (trimmed : Text) : Option Text :=
  match trimmed.idxOf? ':' with
  | none => none
  | some colon =>
      let scheme := trimmed.take colon
      if scheme.any (fun c => c == '/' || c == '?' || c == '#') then none else some scheme

def urlScheme (url : Text) : Option Text := schemeOf (url.dropWhile isWhitespace)

def eqIgnoreAsciiCase (a b : Text) : Bool := a.map Char.toLower == b.map Char.toLower

def urlIsSafe (url : Text) : Bool :=
  match urlScheme url with
  | none => true
  | some scheme => URL_SCHEMES.any fun allowed => eqIgnoreAsciiCase scheme allowed

local instance : LawfulBEq Text := inferInstance

def safeUrl (case : LowerCase) (url : Text) : Text :=
  match schemeOf (url.dropWhile isEcmaSpace) with
  | none => url
  | some scheme => if case.toLowerCase scheme ∈ URL_SCHEMES then url else []

end Filters

section Parser

def isC0OrSpace (c : Char) : Bool := c.toNat ≤ 0x20

def isTabOrNewline (c : Char) : Bool := c == '\t' || c == '\n' || c == '\r'

def isSchemeChar (c : Char) : Bool := c.isAlphanum || c == '+' || c == '-' || c == '.'

/-- The scheme state of the URL parser; without a colon there is no scheme. -/
def schemeState (buffer : Text) : Text → Option Text
  | [] => none
  | c :: rest =>
      if isSchemeChar c then schemeState (buffer ++ [c.toLower]) rest
      else if c = ':' then some buffer else none

/-- The scheme the URL parser finds in a URL, if it is not a relative one. -/
def parserScheme (url : Text) : Option Text :=
  match ((url.dropWhile isC0OrSpace).rdropWhile isC0OrSpace).filter (!isTabOrNewline ·) with
  | [] => none
  | c :: rest => if c.isAlpha then schemeState [c.toLower] rest else none

end Parser

section Scheme

def Plain (c : Char) : Prop := c ≠ ':' ∧ c ≠ '/' ∧ c ≠ '?' ∧ c ≠ '#'

theorem schemeOf_append {front : Text} (h : ∀ c ∈ front, Plain c) (t : Text) :
    schemeOf (front ++ t) = (schemeOf t).map (front ++ ·) := by
  induction front with
  | nil => simp
  | cons c front ih =>
      obtain ⟨⟨hcolon, hslash, hquery, hhash⟩, hrest⟩ := List.forall_mem_cons.mp h
      have hstep : schemeOf (c :: (front ++ t)) = (schemeOf (front ++ t)).map (c :: ·) := by
        rw [schemeOf, schemeOf, List.idxOf?_cons, beq_eq_false_iff_ne.mpr hcolon]
        cases (front ++ t).idxOf? ':' with
        | none => rfl
        | some colon =>
            simp only [Bool.false_eq_true, if_false, Option.map_some, List.take_succ_cons,
              List.any_cons, beq_eq_false_iff_ne.mpr hslash, beq_eq_false_iff_ne.mpr hquery,
              beq_eq_false_iff_ne.mpr hhash, Bool.false_or]
            split
            · rfl
            · rfl
      rw [List.cons_append, hstep, ih hrest, Option.map_map]
      rfl

theorem schemeOf_front {front : Text} (h : ∀ c ∈ front, Plain c) (rest : Text) :
    schemeOf (front ++ ':' :: rest) = some front := by
  rw [schemeOf_append h, schemeOf, List.idxOf?_cons]
  simp

theorem schemeOf_split {t scheme : Text} (h : schemeOf t = some scheme) :
    (∀ c ∈ scheme, Plain c) ∧ ∃ rest, t = scheme ++ ':' :: rest := by
  rw [schemeOf] at h
  cases hcolon : t.idxOf? ':' with
  | none => simp [hcolon] at h
  | some colon =>
      obtain ⟨hlt, hat, hbefore⟩ := List.idxOf?_eq_some_iff.mp hcolon
      simp only [hcolon] at h
      split at h
      · cases h
      · rename_i hany
        obtain rfl := Option.some.inj h
        refine ⟨fun c hc => ?_, t.drop (colon + 1), ?_⟩
        · obtain ⟨i, hi, rfl⟩ := List.mem_take_iff_getElem.mp hc
          have hnot := List.any_eq_false.mp (Bool.not_eq_true _ ▸ hany) _ hc
          simp only [Bool.or_eq_true, beq_iff_eq, not_or] at hnot
          exact ⟨by simpa using hbefore i (by omega), hnot.1.1, hnot.1.2, hnot.2⟩
        · conv_lhs => rw [← List.take_append_drop colon t, List.drop_eq_getElem_cons hlt]
          rw [hat]

end Scheme

section Verdicts

def Named (t : Text) : Prop :=
  ∃ spelled rest, t = spelled ++ ':' :: rest ∧ spelled.map Char.toLower ∈ URL_SCHEMES

variable {c : Char}

theorem scheme_letters {scheme : Text} (h : scheme ∈ URL_SCHEMES) (hc : c ∈ scheme) :
    c.toNat < 128 ∧ c ≠ 'k' ∧ Char.toLower c = c ∧ c.isAlpha = true := by
  simp only [URL_SCHEMES, List.mem_cons, List.not_mem_nil, or_false] at h
  rcases h with rfl | rfl | rfl | rfl <;> simp only [List.mem_cons, List.not_mem_nil, or_false] at hc
  · rcases hc with rfl | rfl | rfl | rfl <;> decide
  · rcases hc with rfl | rfl | rfl | rfl | rfl <;> decide
  · rcases hc with rfl | rfl | rfl | rfl | rfl | rfl <;> decide
  · rcases hc with rfl | rfl | rfl <;> decide

theorem isAlpha_of_toLower (h : c.toLower.isAlpha = true) : c.isAlpha = true := by
  by_cases hupper : c.val ≥ 'A'.val ∧ c.val ≤ 'Z'.val
  · exact (Bool.or_eq_true _ _).mpr (Or.inl (decide_eq_true hupper))
  · have hsame : c.toLower = c := dif_neg hupper
    rwa [hsame] at h

theorem spelled_alpha {spelled : Text} (h : spelled.map Char.toLower ∈ URL_SCHEMES)
    (hc : c ∈ spelled) : c.isAlpha = true :=
  isAlpha_of_toLower (scheme_letters h (List.mem_map_of_mem hc)).2.2.2

theorem plain_of_isAlpha (h : c.isAlpha = true) : Plain c := by
  refine ⟨?_, ?_, ?_, ?_⟩ <;> rintro rfl <;> exact absurd h (by decide)

theorem named_iff (t : Text) :
    Named t ↔ ∃ scheme, schemeOf t = some scheme ∧ scheme.map Char.toLower ∈ URL_SCHEMES := by
  constructor
  · rintro ⟨spelled, rest, rfl, hmem⟩
    exact ⟨spelled, schemeOf_front (fun c hc => plain_of_isAlpha (spelled_alpha hmem hc)) rest, hmem⟩
  · rintro ⟨scheme, hscheme, hmem⟩
    obtain ⟨-, rest, rfl⟩ := schemeOf_split hscheme
    exact ⟨scheme, rest, rfl, hmem⟩

theorem LowerCase.mem_iff (case : LowerCase) (t : Text) :
    case.toLowerCase t ∈ URL_SCHEMES ↔ t.map Char.toLower ∈ URL_SCHEMES := by
  by_cases hascii : ∀ c ∈ t, c.toNat < 128
  · rw [case.ascii t hascii]
  · push Not at hascii
    obtain ⟨c, hc, hwide⟩ := hascii
    refine iff_of_false (fun hmem => ?_) fun hmem => ?_
    · obtain ⟨d, hd, hout⟩ := case.other t ⟨c, hc, hwide⟩
      obtain ⟨hlow, hk, -⟩ := scheme_letters hmem hd
      exact hout.elim (by omega) hk
    · have halpha := Library.isAlpha_iff.mp (spelled_alpha hmem hc)
      omega

def Admits (read : Option Text) : Prop :=
  ∀ scheme, read = some scheme → scheme.map Char.toLower ∈ URL_SCHEMES

theorem urlIsSafe_iff (url : Text) :
    urlIsSafe url = true ↔ Admits (schemeOf (url.dropWhile isWhitespace)) := by
  rw [urlIsSafe, urlScheme]
  cases schemeOf (url.dropWhile isWhitespace) with
  | none => simp [Admits]
  | some scheme =>
      simp only [Admits, Option.some.injEq, forall_eq', List.any_eq_true, eqIgnoreAsciiCase,
        beq_iff_eq]
      constructor
      · rintro ⟨allowed, hmem, heq⟩
        rw [heq, List.map_congr_left fun c hc => (scheme_letters hmem hc).2.2.1]
        simpa using hmem
      · intro hmem
        refine ⟨_, hmem, ?_⟩
        rw [List.map_map]
        exact List.map_congr_left fun c hc =>
          (scheme_letters hmem (List.mem_map_of_mem hc)).2.2.1.symm

theorem safeUrl_iff (case : LowerCase) (url : Text) :
    safeUrl case url = url ↔ Admits (schemeOf (url.dropWhile isEcmaSpace)) := by
  rw [safeUrl]
  cases hscheme : schemeOf (url.dropWhile isEcmaSpace) with
  | none => simp [Admits]
  | some scheme =>
      simp only [Admits, Option.some.injEq, forall_eq', case.mem_iff]
      constructor
      · intro h
        by_contra hnot
        rw [if_neg hnot] at h
        obtain ⟨-, rest, hsplit⟩ := schemeOf_split hscheme
        rw [← h] at hsplit
        simp at hsplit
      · intro h
        rw [if_pos h]

end Verdicts

section Agreement

def common (c : Char) : Bool := isWhitespace c && isEcmaSpace c

/-- After the white space of both languages comes the next-line control or the byte order mark,
and after the further white space of the language that strips it an admitted scheme. -/
def Apart (url : Text) : Prop :=
  match url.dropWhile common with
  | [] => False
  | c :: rest =>
      c.toNat = 0x85 ∧ Named (rest.dropWhile isWhitespace) ∨
        c.toNat = 0xFEFF ∧ Named (rest.dropWhile isEcmaSpace)

variable {c : Char}

theorem isWhitespace_eq (hnext : c.toNat ≠ 0x85) (hmark : c.toNat ≠ 0xFEFF) :
    isWhitespace c = isEcmaSpace c := by
  simp only [isWhitespace, isEcmaSpace, beq_eq_false_iff_ne.mpr hnext,
    beq_eq_false_iff_ne.mpr hmark, Bool.or_false]

theorem plain_of_range (hrange : c.toNat ≤ 0x20 ∨ 0x80 ≤ c.toNat) :
    Plain c ∧ c.isAlpha = false ∧ isSchemeChar c = false := by
  have halpha : c.isAlphanum = false := by
    rw [Bool.eq_false_iff, ne_eq, Library.isAlphanum_iff]
    omega
  refine ⟨⟨?_, ?_, ?_, ?_⟩, (Bool.or_eq_false_iff.mp halpha).1, ?_⟩
  · rintro rfl
    simp at hrange
  · rintro rfl
    simp at hrange
  · rintro rfl
    simp at hrange
  · rintro rfl
    simp at hrange
  · simp only [isSchemeChar, halpha, Bool.false_or, Bool.or_eq_false_iff, beq_eq_false_iff_ne]
    refine ⟨⟨?_, ?_⟩, ?_⟩ <;> rintro rfl <;> simp at hrange

theorem plain_of_space (h : isWhitespace c = true ∨ isEcmaSpace c = true) :
    Plain c ∧ c.isAlpha = false ∧ isSchemeChar c = false := by
  refine plain_of_range ?_
  simp only [isWhitespace, isEcmaSpace, Bool.or_eq_true, Bool.and_eq_true, decide_eq_true_eq,
    beq_iff_eq] at h
  omega

theorem verdicts_cons {rest : Text} {space : Char → Bool}
    (hspace : ∀ d, space d = true → isWhitespace d = true ∨ isEcmaSpace d = true)
    (hc : space c = true) :
    (Admits (schemeOf (rest.dropWhile space)) ↔ Admits (schemeOf (c :: rest))) ↔
      ¬ Named (rest.dropWhile space) := by
  have hsplit : c :: rest = (c :: rest.takeWhile space) ++ rest.dropWhile space := by
    rw [List.cons_append, List.takeWhile_append_dropWhile]
  have hplain : ∀ d ∈ c :: rest.takeWhile space, Plain d := by
    intro d hd
    rcases List.mem_cons.mp hd with rfl | hd
    · exact (plain_of_space (hspace d hc)).1
    · exact (plain_of_space (hspace d (List.mem_takeWhile_imp hd))).1
  rw [hsplit, schemeOf_append hplain, named_iff]
  cases schemeOf (rest.dropWhile space) with
  | none => simp [Admits]
  | some scheme =>
      have hlong : ¬ Admits ((some scheme).map ((c :: rest.takeWhile space) ++ ·)) := by
        intro hadmits
        have halpha := spelled_alpha (hadmits _ rfl) (List.mem_cons_self (a := c))
        rw [(plain_of_space (hspace c hc)).2.1] at halpha
        cases halpha
      rw [iff_false_right hlong]
      simp [Admits]

theorem agree_iff (case : LowerCase) (url : Text) :
    (urlIsSafe url = true ↔ safeUrl case url = url) ↔ ¬ Apart url := by
  have hdrop : ∀ space : Char → Bool, (∀ c, common c = true → space c = true) →
      url.dropWhile space = (url.dropWhile common).dropWhile space := by
    intro space hle
    conv_lhs => rw [← List.takeWhile_append_dropWhile (p := common) (l := url)]
    exact List.dropWhile_append_of_pos fun c hc => hle c (List.mem_takeWhile_imp hc)
  rw [urlIsSafe_iff, safeUrl_iff, hdrop isWhitespace fun c hc => (Bool.and_eq_true_iff.mp hc).1,
    hdrop isEcmaSpace fun c hc => (Bool.and_eq_true_iff.mp hc).2, Apart]
  cases hrest : url.dropWhile common with
  | nil => simp
  | cons c rest =>
      have hnot : common c = false := by
        have hhead := List.head_dropWhile_not common (show url.dropWhile common ≠ [] by simp [hrest])
        simpa [hrest] using hhead
      rw [common] at hnot
      by_cases hnext : c.toNat = 0x85
      · have hspace : isWhitespace c = true := by simp [isWhitespace, hnext]
        have hstays : isEcmaSpace c = false := by simpa [hspace] using hnot
        rw [List.dropWhile_cons_of_pos hspace, List.dropWhile_cons_of_neg (by simp [hstays]),
          verdicts_cons (fun _ => Or.inl) hspace]
        simp [hnext]
      · by_cases hmark : c.toNat = 0xFEFF
        · have hspace : isEcmaSpace c = true := by simp [isEcmaSpace, hmark]
          have hstays : isWhitespace c = false := by simpa [hspace] using hnot
          rw [List.dropWhile_cons_of_pos hspace, List.dropWhile_cons_of_neg (by simp [hstays]),
            @iff_comm (Admits _) (Admits _), verdicts_cons (fun _ => Or.inr) hspace]
          simp [hmark]
        · have hsame := isWhitespace_eq hnext hmark
          rw [hsame, Bool.and_self] at hnot
          rw [List.dropWhile_cons_of_neg (by simp [hsame, hnot]),
            List.dropWhile_cons_of_neg (by simp [hnot])]
          simp [hnext, hmark]

end Agreement

section Safety

theorem schemeState_spec {input buffer scheme : Text} (h : schemeState buffer input = some scheme) :
    ∃ spelled rest, input = spelled ++ ':' :: rest ∧ (∀ c ∈ spelled, isSchemeChar c = true) ∧
      scheme = buffer ++ spelled.map Char.toLower := by
  induction input generalizing buffer with
  | nil => cases h
  | cons c input ih =>
      rw [schemeState] at h
      split at h
      · rename_i hc
        obtain ⟨spelled, rest, rfl, hall, rfl⟩ := ih h
        exact ⟨c :: spelled, rest, rfl, List.forall_mem_cons.mpr ⟨hc, hall⟩, by simp⟩
      · split at h
        · rename_i hcolon
          obtain rfl := Option.some.inj h
          exact ⟨[], input, by rw [hcolon]; rfl, by simp, by simp⟩
        · cases h

theorem plain_of_schemeChar {c : Char} (h : isSchemeChar c = true) : Plain c := by
  refine ⟨?_, ?_, ?_, ?_⟩ <;> rintro rfl <;> simp [isSchemeChar] at h

theorem range_of_tab {c : Char} (h : isTabOrNewline c = true) : c.toNat ≤ 0x20 := by
  simp only [isTabOrNewline, Bool.or_eq_true, beq_iff_eq] at h
  rcases h with (rfl | rfl) | rfl <;> decide

theorem filter_untabbed (t : Text) :
    (t.filter (!isTabOrNewline ·)).filter isSchemeChar = t.filter isSchemeChar := by
  rw [List.filter_filter]
  refine List.filter_congr fun c _ => ?_
  cases htab : isTabOrNewline c with
  | false => simp
  | true => simp [(plain_of_range (Or.inl (range_of_tab htab))).2.2]

theorem parserScheme_spec {url scheme : Text} (h : parserScheme url = some scheme) :
    ∃ front rest, url = front ++ ':' :: rest ∧ (∀ c ∈ front, Plain c) ∧
      scheme = (front.filter isSchemeChar).map Char.toLower := by
  rw [parserScheme] at h
  split at h
  · cases h
  · rename_i c input hinput
    split at h
    · rename_i halpha
      obtain ⟨spelled, rest, rfl, hall, rfl⟩ := schemeState_spec h
      rw [← List.cons_append] at hinput
      obtain ⟨front, back, hstrip, hfront, hback⟩ := List.filter_eq_append_iff.mp hinput
      obtain ⟨gap, rest', rfl, hgap, -, -⟩ := List.filter_eq_cons_iff.mp hback
      obtain ⟨trail, htrail⟩ := List.rdropWhile_prefix isC0OrSpace (url.dropWhile isC0OrSpace)
      have hlead : ∀ d ∈ url.takeWhile isC0OrSpace, d.toNat ≤ 0x20 := fun d hd => by
        simpa [isC0OrSpace] using List.mem_takeWhile_imp hd
      have hsmall : ∀ d ∈ gap, d.toNat ≤ 0x20 := fun d hd =>
        range_of_tab (by simpa using hgap d hd)
      have hscheme : ∀ d ∈ c :: spelled, isSchemeChar d = true :=
        List.forall_mem_cons.mpr ⟨by simp [isSchemeChar, Char.isAlphanum, halpha], hall⟩
      refine ⟨url.takeWhile isC0OrSpace ++ (front ++ gap), rest' ++ trail, ?_, ?_, ?_⟩
      · conv_lhs => rw [← List.takeWhile_append_dropWhile (p := isC0OrSpace) (l := url)]
        rw [← htrail, hstrip]
        simp
      · intro d hd
        rcases List.mem_append.mp hd with hd | hd
        · exact (plain_of_range (Or.inl (hlead d hd))).1
        · rcases List.mem_append.mp hd with hd | hd
          · by_cases htab : isTabOrNewline d = true
            · exact (plain_of_range (Or.inl (range_of_tab htab))).1
            · refine plain_of_schemeChar (hscheme d ?_)
              rw [← hfront]
              exact List.mem_filter.mpr ⟨hd, by simpa using htab⟩
          · exact (plain_of_range (Or.inl (hsmall d hd))).1
      · rw [List.filter_append, List.filter_append, ← filter_untabbed front, hfront,
          List.filter_eq_self.mpr hscheme,
          List.filter_eq_nil_iff.mpr fun d hd => by
            simp [(plain_of_range (Or.inl (hlead d hd))).2.2],
          List.filter_eq_nil_iff.mpr fun d hd => by
            simp [(plain_of_range (Or.inl (hsmall d hd))).2.2]]
        simp
    · cases h

theorem parserScheme_admitted {url scheme : Text} (hsafe : urlIsSafe url = true)
    (h : parserScheme url = some scheme) : scheme ∈ URL_SCHEMES := by
  obtain ⟨front, rest, rfl, hplain, rfl⟩ := parserScheme_spec h
  rw [urlIsSafe_iff] at hsafe
  have hsplit := List.takeWhile_append_dropWhile (p := isWhitespace) (l := front ++ ':' :: rest)
  have hblank : ∀ c ∈ (front ++ ':' :: rest).takeWhile isWhitespace, isWhitespace c = true :=
    fun c hc => List.mem_takeWhile_imp hc
  have hread := schemeOf_append
    (fun c hc => (plain_of_space (Or.inl (hblank c hc))).1)
    ((front ++ ':' :: rest).dropWhile isWhitespace)
  rw [hsplit, schemeOf_front hplain, eq_comm, Option.map_eq_some_iff] at hread
  obtain ⟨spelled, hspelled, hfront⟩ := hread
  have hmem := hsafe spelled hspelled
  rw [← hfront, List.filter_append, List.filter_eq_nil_iff.mpr fun c hc => by
    simp [(plain_of_space (Or.inl (hblank c hc))).2.2], List.nil_append,
    List.filter_eq_self.mpr fun c hc => by
      simp [isSchemeChar, Char.isAlphanum, spelled_alpha hmem hc]]
  exact hmem

end Safety

section Filtered

/-- The filters of the build and of the browser agree on a URL, and admit no other scheme. -/
def Filtered (case : LowerCase) (url : Text) : Prop :=
  (urlIsSafe url = true ↔ safeUrl case url = url) ∧
    (urlIsSafe url = true → ∀ scheme, parserScheme url = some scheme → scheme ∈ URL_SCHEMES)

theorem filtered_iff (case : LowerCase) (url : Text) : Filtered case url ↔ ¬ Apart url := by
  refine ⟨fun h => (agree_iff case url).mp h.1, fun h => ⟨(agree_iff case url).mpr h, ?_⟩⟩
  exact fun hsafe scheme hscheme => parserScheme_admitted hsafe hscheme

theorem other_map_toLower (t : Text) (h : ∃ c ∈ t, 128 ≤ c.toNat) :
    ∃ c ∈ t.map Char.toLower, 128 ≤ c.toNat ∨ c = 'k' := by
  obtain ⟨c, hc, hwide⟩ := h
  refine ⟨c, List.mem_map.mpr ⟨c, hc, dif_neg ?_⟩, Or.inl hwide⟩
  rintro ⟨-, hz⟩
  change c.toNat ≤ 90 at hz
  omega

theorem ascii_map_toLower (t : Text) (_ : ∀ c ∈ t, c.toNat < 128) :
    t.map Char.toLower = t.map Char.toLower := rfl

def LowerCase.letters : LowerCase where
  toLowerCase t := t.map Char.toLower
  ascii := ascii_map_toLower
  other := other_map_toLower

theorem not_filtered_next_line : ¬ Filtered .letters ['\u0085', 't', 'e', 'l', ':'] := by
  rintro ⟨hagree, -⟩
  refine (agree_iff _ _).mp hagree (Or.inl ⟨rfl, ['t', 'e', 'l'], [], rfl, ?_⟩)
  simp [URL_SCHEMES]

end Filtered

end SafeUrls
end Routes
end Zdeceptron
