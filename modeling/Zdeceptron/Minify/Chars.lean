import Zdeceptron.Minify.Scan
import Mathlib.Tactic.Common

/-!
# The scanners, character by character

A scan that stays between characters is a walk over the characters of its source.  A step of
the walk takes some characters, keeps all of them or none, and says what kind of thing it
kept.
-/

namespace Zdeceptron
namespace Minify

open Library
open Library.Utf8 (bytes size lead charBytes slice after)

section Ends

/-- The characters of a string literal after its opening quote, and what follows it. -/
def quoted (quote : Char) : List Char → List Char × List Char
  | [] => ([], [])
  | [c] => ([c], [])
  | c :: d :: rest =>
      if c = '\\' then
        (c :: d :: (quoted quote rest).1, (quoted quote rest).2)
      else if c = quote then ([c], d :: rest)
      else
        (c :: (quoted quote (d :: rest)).1, (quoted quote (d :: rest)).2)

/-- The characters of a regular expression after its opening slash, up to its flags. -/
def regexTail (inClass : Bool) : List Char → List Char × List Char
  | [] => ([], [])
  | [c] => ([c], [])
  | c :: d :: rest =>
      if c = '\\' then
        (c :: d :: (regexTail inClass rest).1, (regexTail inClass rest).2)
      else if c = '[' then
        (c :: (regexTail true (d :: rest)).1, (regexTail true (d :: rest)).2)
      else if c = ']' then
        (c :: (regexTail false (d :: rest)).1, (regexTail false (d :: rest)).2)
      else if c = '/' ∧ inClass = false then ([c], d :: rest)
      else
        (c :: (regexTail inClass (d :: rest)).1, (regexTail inClass (d :: rest)).2)

def isFlag (c : Char) : Bool := isAlphabetic (lead c)

def regexText (rest : List Char) : List Char × List Char :=
  let taken := regexTail false rest
  (taken.1 ++ taken.2.takeWhile isFlag, taken.2.dropWhile isFlag)

def blockTail : List Char → List Char × List Char
  | [] => ([], [])
  | [c] => ([c], [])
  | c :: d :: rest =>
      if c = '*' ∧ d = '/' then ([c, d], rest)
      else
        (c :: (blockTail (d :: rest)).1, (blockTail (d :: rest)).2)

theorem quoted_append (quote : Char) (rest : List Char) :
    (quoted quote rest).1 ++ (quoted quote rest).2 = rest := by
  fun_induction quoted quote rest <;> simp_all

theorem regexTail_append (inClass : Bool) (rest : List Char) :
    (regexTail inClass rest).1 ++ (regexTail inClass rest).2 = rest := by
  fun_induction regexTail inClass rest <;> simp_all

theorem regexText_append (rest : List Char) :
    (regexText rest).1 ++ (regexText rest).2 = rest := by
  simp only [regexText, List.append_assoc, List.takeWhile_append_dropWhile]
  exact regexTail_append false rest

theorem blockTail_append (rest : List Char) :
    (blockTail rest).1 ++ (blockTail rest).2 = rest := by
  fun_induction blockTail rest <;> simp_all

end Ends

section Bytes

theorem stringEndFrom_skip {quote byte : Nat} (hslash : byte ≠ '\\'.toNat) (hquote : byte ≠ quote)
    (rest : List Nat) (i : Nat) :
    stringEndFrom quote (byte :: rest) i = stringEndFrom quote rest (i + 1) := by
  cases rest with
  | nil => rfl
  | cons next rest => rw [stringEndFrom, if_neg hslash, if_neg hquote]

theorem stringEndFrom_skips {quote : Nat} {front : List Nat}
    (h : ∀ byte ∈ front, byte ≠ '\\'.toNat ∧ byte ≠ quote) (rest : List Nat) (i : Nat) :
    stringEndFrom quote (front ++ rest) i = stringEndFrom quote rest (i + front.length) := by
  induction front generalizing i with
  | nil => rfl
  | cons byte front ih =>
      obtain ⟨hslash, hquote⟩ := h byte List.mem_cons_self
      rw [List.cons_append, stringEndFrom_skip hslash hquote,
        ih (fun b hb => h b (List.mem_cons_of_mem _ hb)), List.length_cons]
      congr 1
      omega

theorem ne_of_mem_charBytes {c d : Char} (hd : d.toNat < 128) (hne : c ≠ d) {b : Nat}
    (hb : b ∈ charBytes c) : b ≠ d.toNat := by
  rintro rfl
  by_cases hc : c.toNat < 128
  · rw [Utf8.charBytes_ascii hc, List.mem_singleton] at hb
    exact hne (Char.toNat_inj.mp hb).symm
  · have hle := Utf8.le_of_mem_charBytes (Nat.not_lt.mp hc) hb
    omega

variable {c : Char}

theorem charBytes_tail {tail : List Nat} (h : charBytes c = lead c :: tail) {b : Nat}
    (hb : b ∈ tail) : 128 ≤ b := by
  by_cases hc : c.toNat < 128
  · rw [Utf8.charBytes_ascii hc] at h
    cases (List.cons.inj h).2
    cases hb
  · exact Utf8.le_of_mem_charBytes (Nat.not_lt.mp hc) (h ▸ List.mem_cons_of_mem _ hb)

theorem stringEndFrom_char {quote c : Char} (hquote : quote.toNat < 128) (hslash : c ≠ '\\')
    (hne : c ≠ quote) (rest : List Nat) (i : Nat) :
    stringEndFrom quote.toNat (charBytes c ++ rest) i =
      stringEndFrom quote.toNat rest (i + (charBytes c).length) :=
  stringEndFrom_skips (fun _ hb =>
    ⟨ne_of_mem_charBytes (by decide) hslash hb, ne_of_mem_charBytes hquote hne hb⟩) rest i

variable {quote : Char}

theorem stringEndFrom_escape (hquote : quote.toNat < 128) (c : Char) (rest : List Nat) (i : Nat) :
    stringEndFrom quote.toNat ('\\'.toNat :: (charBytes c ++ rest)) i =
      stringEndFrom quote.toNat rest (i + 1 + (charBytes c).length) := by
  obtain ⟨tail, htail⟩ := Utf8.charBytes_eq_cons c
  have hslash : '\\'.toNat < 128 := by decide
  have hskip : ∀ byte ∈ tail, byte ≠ '\\'.toNat ∧ byte ≠ quote.toNat := fun byte hb => by
    have hle := charBytes_tail htail hb
    exact ⟨by omega, by omega⟩
  rw [htail, List.cons_append, stringEndFrom, if_pos rfl, stringEndFrom_skips hskip,
    List.length_cons]
  congr 1
  omega

theorem stringEndFrom_close (quote : Nat) (hslash : quote ≠ '\\'.toNat) (rest : List Nat)
    (i : Nat) : stringEndFrom quote (quote :: rest) i = i + 1 := by
  cases rest with
  | nil => rfl
  | cons next rest => rw [stringEndFrom, if_neg hslash, if_pos rfl]

theorem stringEnd_eq (hquote : quote.toNat < 128) (hslash : quote ≠ '\\')
    (rest : List Char) (i : Nat) :
    stringEndFrom quote.toNat (bytes rest) i = i + size (quoted quote rest).1 := by
  fun_induction quoted quote rest generalizing i with
  | case1 => rfl
  | case2 c =>
      by_cases hc : c = '\\'
      · subst hc
        rfl
      · by_cases hq : c = quote
        · subst hq
          rw [Utf8.bytes_cons, Utf8.charBytes_ascii hquote, Utf8.size_cons,
            Utf8.size_ascii hquote]
          rfl
        · rw [Utf8.bytes_cons, stringEndFrom_char hquote hc hq]
          simp [Utf8.size_cons, stringEndFrom]
  | case3 d rest ih =>
      rw [Utf8.bytes_cons, Utf8.bytes_cons, Utf8.charBytes_ascii (c := '\\') (by decide),
        List.singleton_append, stringEndFrom_escape hquote, ih, Utf8.size_cons, Utf8.size_cons,
        Utf8.size_ascii (c := '\\') (by decide)]
      omega
  | case4 d rest hc =>
      rw [Utf8.bytes_cons, Utf8.charBytes_ascii hquote, List.singleton_append,
        stringEndFrom_close _ (fun h => hslash (Char.toNat_inj.mp h)), Utf8.size_cons,
        Utf8.size_ascii hquote]
      rfl
  | case5 c d rest hc hq ih =>
      rw [Utf8.bytes_cons, stringEndFrom_char hquote hc hq, ih, Utf8.size_cons]
      omega

def Inert (byte : Nat) : Prop :=
  byte ≠ '\\'.toNat ∧ byte ≠ '['.toNat ∧ byte ≠ ']'.toNat ∧ byte ≠ '/'.toNat

theorem Inert.of_high {byte : Nat} (h : 128 ≤ byte) : Inert byte := by
  have hlow : '\\'.toNat < 128 ∧ '['.toNat < 128 ∧ ']'.toNat < 128 ∧ '/'.toNat < 128 := by decide
  exact ⟨by omega, by omega, by omega, by omega⟩

variable {inClass : Bool}

theorem regexBody_skip {byte : Nat}
    (h : Inert byte ∨ (byte = '/'.toNat ∧ inClass = true)) (rest : List Nat) (i : Nat) :
    regexBody inClass (byte :: rest) i = regexBody inClass rest (i + 1) := by
  have hslash : byte ≠ '\\'.toNat := by
    rcases h with h | ⟨rfl, -⟩
    · exact h.1
    · decide
  cases rest with
  | nil => exact if_neg hslash
  | cons next rest =>
      rcases h with h | ⟨rfl, rfl⟩
      · rw [regexBody, if_neg h.1, if_neg h.2.1, if_neg h.2.2.1, if_neg (fun hc => h.2.2.2 hc.1)]
      · rw [regexBody, if_neg (by decide), if_neg (by decide), if_neg (by decide),
          if_neg (by simp)]

theorem regexBody_skips {front : List Nat} (h : ∀ byte ∈ front, Inert byte)
    (rest : List Nat) (i : Nat) :
    regexBody inClass (front ++ rest) i = regexBody inClass rest (i + front.length) := by
  induction front generalizing i with
  | nil => rfl
  | cons byte front ih =>
      rw [List.cons_append, regexBody_skip (.inl (h byte List.mem_cons_self)),
        ih (fun b hb => h b (List.mem_cons_of_mem _ hb)), List.length_cons]
      congr 1
      omega

theorem regexBody_char (hslash : c ≠ '\\') (hopen : c ≠ '[')
    (hclose : c ≠ ']') (hend : ¬(c = '/' ∧ inClass = false)) (rest : List Nat) (i : Nat) :
    regexBody inClass (charBytes c ++ rest) i =
      regexBody inClass rest (i + (charBytes c).length) := by
  by_cases hc : c = '/'
  · subst hc
    have hclass : inClass = true := by simpa using hend
    rw [Utf8.charBytes_ascii (c := '/') (by decide), List.singleton_append,
      regexBody_skip (.inr ⟨rfl, hclass⟩)]
    rfl
  · exact regexBody_skips (fun _ hb =>
      ⟨ne_of_mem_charBytes (by decide) hslash hb, ne_of_mem_charBytes (by decide) hopen hb,
        ne_of_mem_charBytes (by decide) hclose hb, ne_of_mem_charBytes (by decide) hc hb⟩) rest i

variable (inClass : Bool)

theorem regexBody_escape (c : Char) (rest : List Nat) (i : Nat) :
    regexBody inClass ('\\'.toNat :: (charBytes c ++ rest)) i =
      regexBody inClass rest (i + 1 + (charBytes c).length) := by
  obtain ⟨tail, htail⟩ := Utf8.charBytes_eq_cons c
  rw [htail, List.cons_append, regexBody, if_pos rfl,
    regexBody_skips (fun byte hb => Inert.of_high (charBytes_tail htail hb)), List.length_cons]
  congr 1
  omega

theorem bytes_eq_cons (c : Char) (rest : List Char) :
    ∃ tail, bytes (c :: rest) = lead c :: tail := by
  obtain ⟨tail, htail⟩ := Utf8.charBytes_eq_cons c
  exact ⟨tail ++ bytes rest, by rw [Utf8.bytes_cons, htail, List.cons_append]⟩

theorem regexBody_class (hc : c = '[' ∨ c = ']') (d : Char) (rest : List Char) (i : Nat) :
    regexBody inClass (bytes (c :: d :: rest)) i =
      regexBody (decide (c = '[')) (bytes (d :: rest)) (i + 1) := by
  obtain ⟨tail, htail⟩ := bytes_eq_cons d rest
  rw [Utf8.bytes_cons, htail]
  rcases hc with rfl | rfl
  · rfl
  · rfl

theorem regexBody_close (rest : List Nat) (i : Nat) :
    regexBody false ('/'.toNat :: rest) i = i + 1 := by
  cases rest <;> rfl

theorem regexBody_eq (rest : List Char) (i : Nat) :
    regexBody inClass (bytes rest) i = i + size (regexTail inClass rest).1 ∨
      (regexTail inClass rest).2 = [] ∧
        i + size (regexTail inClass rest).1 ≤ regexBody inClass (bytes rest) i := by
  fun_induction regexTail inClass rest generalizing i with
  | case1 => exact .inl rfl
  | case2 inClass c =>
      by_cases hslash : c = '\\'
      · subst hslash
        exact .inr ⟨rfl, Nat.le_succ _⟩
      · left
        by_cases hc : c.toNat < 128
        · have hne : c.toNat ≠ '\\'.toNat := fun h => hslash (Char.toNat_inj.mp h)
          rw [Utf8.bytes_cons, Utf8.charBytes_ascii hc, Utf8.size_cons, Utf8.size_ascii hc]
          exact if_neg hne
        · have hinert : ∀ byte ∈ charBytes c, Inert byte := fun byte hb =>
            Inert.of_high (Utf8.le_of_mem_charBytes (Nat.not_lt.mp hc) hb)
          rw [Utf8.bytes_cons, regexBody_skips hinert, Utf8.size_cons, Utf8.bytes_nil, regexBody]
          rfl
  | case3 inClass d rest ih =>
      rw [Utf8.bytes_cons, Utf8.bytes_cons, Utf8.charBytes_ascii (c := '\\') (by decide),
        List.singleton_append, regexBody_escape, Utf8.size_cons, Utf8.size_cons,
        Utf8.size_ascii (c := '\\') (by decide), ← Nat.add_assoc i, ← Nat.add_assoc (i + 1)]
      exact ih _
  | case4 inClass d rest hslash ih =>
      rw [regexBody_class inClass (.inl rfl), Utf8.size_cons,
        Utf8.size_ascii (c := '[') (by decide), ← Nat.add_assoc i]
      exact ih _
  | case5 inClass d rest hslash hopen ih =>
      rw [regexBody_class inClass (.inr rfl), Utf8.size_cons,
        Utf8.size_ascii (c := ']') (by decide), ← Nat.add_assoc i]
      exact ih _
  | case6 inClass c d rest hslash hopen hclose hend =>
      obtain ⟨rfl, rfl⟩ := hend
      left
      rw [Utf8.bytes_cons, Utf8.charBytes_ascii (c := '/') (by decide), List.singleton_append,
        regexBody_close, Utf8.size_cons, Utf8.size_ascii (c := '/') (by decide)]
      rfl
  | case7 inClass c d rest hslash hopen hclose hend ih =>
      rw [Utf8.bytes_cons, regexBody_char hslash hopen hclose hend, Utf8.size_cons,
        ← Nat.add_assoc i]
      exact ih _

theorem isAlphabetic_uniform : Utf8.Uniform isAlphabetic := by
  refine Utf8.Uniform.of_high (v := false) (fun b hb => ?_)
  simp only [isAlphabetic, Bool.or_eq_false_iff, decide_eq_false_iff_not]
  omega

theorem isWord_uniform : Utf8.Uniform isWord := by
  refine Utf8.Uniform.of_high (v := true) (fun b hb => ?_)
  have hlt : 126 < b := by omega
  simp [isWord, hlt]

theorem size_takeWhile_le (p : Char → Bool) (text : List Char) :
    size (text.takeWhile p) ≤ size text := by
  have hsplit : size (text.takeWhile p ++ text.dropWhile p) = size text := by
    rw [List.takeWhile_append_dropWhile]
  rw [Utf8.size_append] at hsplit
  omega

theorem flags_eq (front rest : List Char) :
    min (size front + (((bytes (front ++ rest)).drop (size front)).takeWhile isAlphabetic).length)
      (size (front ++ rest)) = size front + size (rest.takeWhile isFlag) := by
  have hle := size_takeWhile_le isFlag rest
  rw [Utf8.drop_size, Utf8.takeWhile_bytes isAlphabetic_uniform, Utf8.size_append]
  exact Nat.min_eq_left (Nat.add_le_add_left hle _)

theorem regexEnd_eq (front rest : List Char) (hc : c.toNat < 128) :
    regexEnd (bytes (front ++ c :: rest)) (size front) =
      size front + 1 + size (regexText rest).1 := by
  have hdrop : (bytes (front ++ c :: rest)).drop (size front + 1) = bytes rest := by
    have h := Utf8.drop_size (front ++ [c]) rest
    rwa [List.append_assoc, Utf8.size_append, Utf8.size_cons, Utf8.size_ascii hc] at h
  have hfront : size (front ++ c :: (regexTail false rest).1) =
      size front + 1 + size (regexTail false rest).1 := by
    rw [Utf8.size_append, Utf8.size_cons, Utf8.size_ascii hc, Nat.add_assoc]
  have hsource : front ++ c :: (regexTail false rest).1 ++ (regexTail false rest).2 =
      front ++ c :: rest := by
    rw [List.append_assoc, List.cons_append, regexTail_append]
  have hflags := flags_eq (front ++ c :: (regexTail false rest).1) (regexTail false rest).2
  rw [hsource, hfront] at hflags
  have htext : size (regexText rest).1 =
      size (regexTail false rest).1 + size ((regexTail false rest).2.takeWhile isFlag) :=
    Utf8.size_append _ _
  rw [regexEnd, hdrop, htext, ← Nat.add_assoc]
  rcases regexBody_eq false rest (size front + 1) with hbody | ⟨hnil, hle⟩
  · rw [hbody]
    exact hflags
  · -- a trailing backslash steps past the end, where nothing is left to read
    have hall : size (front ++ c :: rest) = size front + 1 + size (regexTail false rest).1 := by
      rw [← hfront, ← hsource, hnil, List.append_nil]
    have hbeyond : (bytes (front ++ c :: rest)).length ≤ regexBody false (bytes rest)
        (size front + 1) := hall.trans_le hle
    simp only [List.drop_eq_nil_of_le hbeyond, List.takeWhile_nil, List.length_nil, Nat.add_zero,
      Nat.min_eq_right hbeyond, hnil, Utf8.size_nil]
    exact hall

theorem wordEnd_eq (front rest : List Char) :
    wordEnd (front ++ rest) (size front) =
      size front + size (rest.takeWhile (fun c => isWord (lead c))) := by
  rw [wordEnd, Utf8.drop_size, Utf8.takeWhile_bytes isWord_uniform]

theorem stringEnd_bytes (front rest : List Char) (hquote : quote.toNat < 128)
    (hslash : quote ≠ '\\') :
    stringEnd (bytes (front ++ quote :: rest)) (size front) quote.toNat =
      size front + 1 + size (quoted quote rest).1 := by
  have h := Utf8.drop_size (front ++ [quote]) rest
  rw [List.append_assoc, Utf8.size_append, Utf8.size_cons, Utf8.size_ascii hquote] at h
  rw [stringEnd, show (bytes (front ++ quote :: rest)).drop (size front + 1) = bytes rest from h]
  exact stringEnd_eq hquote hslash rest _

end Bytes

section Comments

def line (rest : List Char) : List Char := rest.takeWhile (fun c => decide (c ≠ '\n'))

def afterLine (rest : List Char) : List Char := rest.dropWhile (fun c => decide (c ≠ '\n'))

variable (rest : List Char)

theorem line_append : line rest ++ afterLine rest = rest :=
  List.takeWhile_append_dropWhile

theorem find_newline :
    (match find ['\n'] rest with
      | some offset => offset
      | none => size rest) = size (line rest) := by
  induction rest with
  | nil => rfl
  | cons c rest ih =>
      by_cases hc : c = '\n'
      · subst hc
        rfl
      · have hprefix : ['\n'].isPrefixOf (c :: rest) = false := by
          rw [List.isPrefixOf, beq_false_of_ne (Ne.symm hc), Bool.false_and]
        have hline : line (c :: rest) = c :: line rest :=
          List.takeWhile_cons_of_pos (by simp [hc])
        rw [find, hprefix, if_neg Bool.false_ne_true, hline, Utf8.size_cons, Utf8.size_cons, ← ih]
        cases find ['\n'] rest <;> rfl

theorem lineEnd_eq (front rest : List Char) :
    lineEnd (front ++ rest) (size front) = some (size front + size (line rest)) := by
  have hfind := find_newline rest
  rw [lineEnd, Utf8.after_append, Option.map_some]
  congr 1
  cases hnewline : find ['\n'] rest with
  | none =>
      rw [hnewline] at hfind
      rw [← hfind]
      exact Utf8.size_append front rest
  | some offset =>
      rw [hnewline] at hfind
      rw [← hfind]

theorem find_close :
    (match find ['*', '/'] rest with
      | some offset => offset + 2
      | none => size rest) = size (blockTail rest).1 := by
  fun_induction blockTail rest with
  | case1 => rfl
  | case2 c =>
      have hprefix : ['*', '/'].isPrefixOf [c] = false := by
        simp [List.isPrefixOf]
      rw [find, hprefix]
      rfl
  | case3 c d rest h =>
      obtain ⟨rfl, rfl⟩ := h
      rfl
  | case4 c d rest h ih =>
      have hprefix : ['*', '/'].isPrefixOf (c :: d :: rest) = false := by
        by_contra htrue
        rw [Bool.not_eq_false, List.isPrefixOf_iff_prefix] at htrue
        obtain ⟨tail, htail⟩ := htrue
        cases htail
        exact h ⟨rfl, rfl⟩
      show _ = size (c :: (blockTail (d :: rest)).1)
      rw [find, hprefix, if_neg Bool.false_ne_true, Utf8.size_cons c (d :: rest),
        Utf8.size_cons c (blockTail (d :: rest)).1, ← ih]
      cases find ['*', '/'] (d :: rest) with
      | none => rfl
      | some offset => exact Nat.add_assoc _ _ _

theorem blockEnd_eq (front rest : List Char) {c d : Char} (hc : c.toNat < 128)
    (hd : d.toNat < 128) :
    blockEnd (front ++ c :: d :: rest) (size front) =
      some (size front + 2 + size (blockTail rest).1) := by
  have hsize : size (front ++ [c, d]) = size front + 2 := by
    rw [Utf8.size_append, Utf8.size_cons, Utf8.size_cons, Utf8.size_ascii hc, Utf8.size_ascii hd]
    rfl
  have hafter := Utf8.after_append (front ++ [c, d]) rest
  rw [List.append_assoc, hsize] at hafter
  have hfind := find_close rest
  rw [blockEnd, show after (front ++ c :: d :: rest) (size front + 2) = some rest from hafter,
    Option.map_some, ← hfind]
  congr 1
  cases hclose : find ['*', '/'] rest with
  | none =>
      have hall : size (front ++ [c, d] ++ rest) = size front + 2 + size rest := by
        rw [Utf8.size_append, hsize]
      rw [List.append_assoc] at hall
      exact hall
  | some offset => exact Nat.add_assoc _ _ _

end Comments

section Walk

inductive Kind
  | text
  | pragma
  | division
  | code
  deriving DecidableEq

structure Piece where
  gap : List Char
  kind : Kind
  text : List Char

def Piece.written (piece : Piece) : List Char := piece.gap ++ piece.text

/-- What a scan remembers between two characters; `fresh` until something is written. -/
structure Mode where
  stack : List Frame
  gap : Gap
  previous : Nat
  before : Nat
  word : List Char
  fresh : Bool

structure Step where
  mode : Mode
  taken : List Char
  kept : List Piece
  rest : List Char

def Mode.text (mode : Mode) (c : Char) : List Char → Step
  | [] =>
      if c = '`' then
        ⟨{ mode with stack := mode.stack.tail, previous := '`'.toNat, fresh := false }, [c],
          [⟨[], .text, [c]⟩], []⟩
      else ⟨{ mode with fresh := false }, [c], [⟨[], .text, [c]⟩], []⟩
  | d :: rest =>
      if c = '\\' then
        ⟨{ mode with fresh := false }, [c, d], [⟨[], .text, [c, d]⟩], rest⟩
      else if c = '`' then
        ⟨{ mode with stack := mode.stack.tail, previous := '`'.toNat, fresh := false }, [c],
          [⟨[], .text, [c]⟩], d :: rest⟩
      else if c = '$' ∧ d = '{' then
        ⟨{ mode with
            stack := .substitution 0 :: mode.stack
            before := '$'.toNat
            previous := '{'.toNat
            word := []
            fresh := false }, [c, d], [⟨[], .text, [c, d]⟩], rest⟩
      else ⟨{ mode with fresh := false }, [c], [⟨[], .text, [c]⟩], d :: rest⟩

/-- A comment to the end of its line; `rest` begins with its second slash. -/
def Mode.lineComment (mode : Mode) (c : Char) (rest : List Char) : Step :=
  if rest.tail.head? = some '#' then
    ⟨{ mode with gap := .newline, fresh := false }, c :: line rest,
      [⟨[], .pragma, c :: line rest⟩], afterLine rest⟩
  else ⟨mode, c :: line rest, [], afterLine rest⟩

/-- A block comment; `rest` follows its opening. -/
def Mode.blockComment (mode : Mode) (c d : Char) (rest : List Char) : Step :=
  ⟨{ mode with
      gap := if '\n' ∈ (blockTail rest).1 then .newline else mode.gap.max .space },
    c :: d :: (blockTail rest).1, [], (blockTail rest).2⟩

structure Token where
  kind : Kind
  text : List Char
  rest : List Char
  stack : List Frame
  previous : Nat
  word : List Char

def isWordChar (c : Char) : Bool := isWord (lead c)

def Mode.token (mode : Mode) (c : Char) (rest : List Char) : Token :=
  if c = '"' ∨ c = '\'' then
    ⟨.code, c :: (quoted c rest).1, (quoted c rest).2, mode.stack, c.toNat, []⟩
  else if c = '`' then ⟨.code, [c], rest, .text :: mode.stack, c.toNat, []⟩
  else if c = '/' ∧ startsARegex mode.previous mode.before mode.word = true then
    ⟨.code, c :: (regexText rest).1, (regexText rest).2, mode.stack, c.toNat, []⟩
  else if isWordChar c = true ∧ isDigit (lead c) = false then
    ⟨.code, c :: rest.takeWhile isWordChar, rest.dropWhile isWordChar, mode.stack,
      Utf8.last (c :: rest.takeWhile isWordChar), c :: rest.takeWhile isWordChar⟩
  else
    ⟨if c = '/' then .division else .code, [c], rest, moved (lead c) mode.stack, lead c, []⟩

def Mode.code (mode : Mode) (c : Char) (rest : List Char) : Step :=
  let token := mode.token c rest
  ⟨⟨token.stack, .none, token.previous, mode.previous, token.word, false⟩, token.text,
    [⟨if mode.fresh = true then [] else mode.gap.written, token.kind, token.text⟩], token.rest⟩

/-- A step at the character `c`. -/
def Mode.step (mode : Mode) (c : Char) (rest : List Char) : Step :=
  if mode.stack.head? = some .text then mode.text c rest
  else if c = ' ' ∨ c = '\t' then ⟨{ mode with gap := mode.gap.max .space }, [c], [], rest⟩
  else if c = '\n' ∨ c = '\r' then ⟨{ mode with gap := .newline }, [c], [], rest⟩
  else
    match rest with
    | [] => mode.code c []
    | d :: tail =>
        if c = '/' ∧ d = '/' then mode.lineComment c (d :: tail)
        else if c = '/' ∧ d = '*' then mode.blockComment c d tail
        else mode.code c (d :: tail)

variable (mode : Mode)

theorem Mode.token_append (c : Char) (rest : List Char) :
    (mode.token c rest).text ++ (mode.token c rest).rest = c :: rest := by
  unfold Mode.token
  split_ifs <;> simp [quoted_append, regexText_append]

theorem Mode.step_append (c : Char) (rest : List Char) :
    (mode.step c rest).taken ++ (mode.step c rest).rest = c :: rest := by
  have hcode (mode : Mode) (rest : List Char) :
      (mode.code c rest).taken ++ (mode.code c rest).rest = c :: rest :=
    mode.token_append c rest
  unfold Mode.step
  split_ifs
  · unfold Mode.text
    cases rest <;> dsimp only <;> split_ifs <;> rfl
  · rfl
  · rfl
  · cases rest with
    | nil => exact hcode mode []
    | cons d tail =>
        dsimp only
        split_ifs
        · unfold Mode.lineComment
          split_ifs <;> exact congrArg (c :: ·) (line_append (d :: tail))
        · exact congrArg (fun text => c :: d :: text) (blockTail_append tail)
        · exact hcode mode (d :: tail)

theorem Mode.step_taken_ne_nil (c : Char) (rest : List Char) :
    (mode.step c rest).taken ≠ [] := by
  have hcode (mode : Mode) (rest : List Char) : (mode.code c rest).taken ≠ [] := by
    show (mode.token c rest).text ≠ []
    unfold Mode.token
    split_ifs <;> exact List.cons_ne_nil _ _
  unfold Mode.step
  split_ifs
  · unfold Mode.text
    cases rest <;> dsimp only <;> split_ifs <;> exact List.cons_ne_nil _ _
  · exact List.cons_ne_nil _ _
  · exact List.cons_ne_nil _ _
  · cases rest with
    | nil => exact hcode mode []
    | cons d tail =>
        dsimp only
        split_ifs
        · unfold Mode.lineComment
          split_ifs <;> exact List.cons_ne_nil _ _
        · exact List.cons_ne_nil _ _
        · exact hcode mode (d :: tail)

theorem Mode.step_shorter (c : Char) (rest : List Char) :
    (mode.step c rest).rest.length < rest.length + 1 := by
  have hsplit := congrArg List.length (mode.step_append c rest)
  have hpos := List.length_pos_iff.mpr (mode.step_taken_ne_nil c rest)
  rw [List.length_append, List.length_cons] at hsplit
  omega

def pieces (mode : Mode) : List Char → List Piece
  | [] => []
  | c :: rest => (mode.step c rest).kept ++ pieces (mode.step c rest).mode (mode.step c rest).rest
termination_by text => text.length
decreasing_by exact mode.step_shorter c rest

def written (pieces : List Piece) : List Char := pieces.flatMap Piece.written

end Walk

section Turns

def Mode.scan (mode : Mode) (i : Nat) (out : List Char) : Scan where
  stack := mode.stack
  gap := mode.gap
  previous := mode.previous
  before := mode.before
  word := mode.word
  i := i
  out := out

variable {mode : Mode} {front rest out : List Char} {c : Char}

theorem copy_eq (mode : Mode) (front text back out : List Char) :
    (mode.scan (size front) out).copy (front ++ (text ++ back)) (size front + size text) =
      some (mode.scan (size (front ++ text)) (out ++ text)) := by
  rw [Scan.copy, show (mode.scan (size front) out).i = size front from rfl, Utf8.slice_append,
    Utf8.size_append]
  rfl

variable (front : List Char)

theorem charLen_eq (c : Char) (back : List Char) :
    charLen (front ++ c :: back) (size front) = some (charBytes c).length := by
  rw [charLen, Utf8.after_append]
  rfl

theorem copy_char (mode : Mode) (front : List Char) (c : Char) (back out : List Char) :
    (charLen (front ++ c :: back) (size front)).bind (fun length =>
        (mode.scan (size front) out).copy (front ++ c :: back) (size front + length)) =
      some (mode.scan (size (front ++ [c])) (out ++ [c])) := by
  have h := copy_eq mode front [c] back out
  rw [Utf8.size_cons, Utf8.size_nil, Nat.add_zero] at h
  rw [charLen_eq]
  exact h

theorem byte_iff (c : Char) (rest : List Char) {d : Char}
    (hd : d.toNat < 128) : (bytes (front ++ c :: rest))[size front]? = some d.toNat ↔ c = d := by
  rw [Utf8.bytes_lead, Option.some.injEq]
  exact Utf8.lead_eq_iff hd

variable {c : Char}

theorem next_iff (hc : c.toNat < 128) (rest : List Char) {d : Char} (hd : d.toNat < 128) :
    (bytes (front ++ c :: rest))[size front + 1]? = some d.toNat ↔ rest.head? = some d := by
  cases rest with
  | nil =>
      have h := Utf8.bytes_size (front ++ [c])
      rw [Utf8.size_append, Utf8.size_cons, Utf8.size_ascii hc] at h
      rw [show (bytes (front ++ [c]))[size front + 1]? = none from h]
      simp
  | cons e tail =>
      rw [Utf8.bytes_lead_cons front c e tail hc, Option.some.injEq, List.head?_cons,
        Option.some.injEq]
      exact Utf8.lead_eq_iff hd

theorem next_lt_iff (hc : c.toNat < 128) (rest : List Char) :
    size front + 1 < (bytes (front ++ c :: rest)).length ↔ rest ≠ [] := by
  have hsize : (bytes (front ++ c :: rest)).length = size front + (1 + size rest) := by
    have h := Utf8.size_append front (c :: rest)
    rwa [Utf8.size_cons, Utf8.size_ascii hc] at h
  rw [hsize]
  cases rest with
  | nil => simp
  | cons d tail =>
      have hpos := Utf8.size_pos d tail
      simp only [ne_eq, reduceCtorEq, not_false_eq_true, iff_true]
      omega

theorem copy_two (mode : Mode) (front : List Char) (hc : c.toNat < 128) (d : Char)
    (back out : List Char) :
    (charLen (front ++ c :: d :: back) (size front + 1)).bind (fun length =>
        (mode.scan (size front) out).copy (front ++ c :: d :: back) (size front + 1 + length)) =
      some (mode.scan (size (front ++ [c, d])) (out ++ [c, d])) := by
  have hlen := charLen_eq (front ++ [c]) d back
  rw [List.append_assoc, Utf8.size_append, Utf8.size_cons, Utf8.size_ascii hc] at hlen
  have h := copy_eq mode front [c, d] back out
  rw [Utf8.size_cons, Utf8.size_cons, Utf8.size_ascii hc, Utf8.size_nil, Nat.add_zero,
    ← Nat.add_assoc] at h
  rw [show charLen (front ++ c :: d :: back) (size front + 1) = some (charBytes d).length from hlen]
  exact h

theorem size_snoc (hc : c.toNat < 128) :
    size (front ++ [c]) = size front + 1 := by
  rw [Utf8.size_append, Utf8.size_cons, Utf8.size_ascii hc]
  rfl

theorem size_snoc_two {c d : Char} (hc : c.toNat < 128) (hd : d.toNat < 128) :
    size (front ++ [c, d]) = size front + 2 := by
  rw [Utf8.size_append, Utf8.size_cons, Utf8.size_cons, Utf8.size_ascii hc, Utf8.size_ascii hd]
  rfl

theorem text_eq (mode : Mode) (front : List Char) (c : Char) (rest out : List Char) :
    (mode.scan (size front) out).text (front ++ c :: rest) =
      some ((mode.text c rest).mode.scan (size (front ++ (mode.text c rest).taken))
        (out ++ written (mode.text c rest).kept)) := by
  have hbyte {d : Char} (hd : d.toNat < 128) :
      (bytes (front ++ c :: rest))[(mode.scan (size front) out).i]? = some d.toNat ↔ c = d :=
    byte_iff front c rest hd
  have hlone : (charLen (front ++ c :: rest) (mode.scan (size front) out).i).bind (fun length =>
      (mode.scan (size front) out).copy (front ++ c :: rest)
        ((mode.scan (size front) out).i + length)) = _ :=
    copy_char mode front c rest out
  have hsnoc : '`'.toNat < 128 := by decide
  unfold Scan.text
  simp only [hbyte (d := '\\') (by decide), hbyte (d := '`') (by decide),
    hbyte (d := '$') (by decide)]
  by_cases hslash : c = '\\'
  · subst hslash
    cases rest with
    | nil =>
        have hlast := (next_lt_iff front (c := '\\') (by decide) []).not_left.mpr (by simp)
        rw [if_neg (fun h => hlast h.2), if_neg (by decide), if_neg (by simp), hlone]
        rfl
    | cons d tail =>
        have hmore := (next_lt_iff front (c := '\\') (by decide) (d :: tail)).mpr
          (List.cons_ne_nil _ _)
        rw [if_pos ⟨rfl, hmore⟩]
        exact copy_two mode front (by decide) d tail out
  · rw [if_neg (fun h => hslash h.1)]
    by_cases htick : c = '`'
    · subst htick
      rw [if_pos rfl]
      cases rest <;> simp [Mode.text, Mode.scan, written, Piece.written, size_snoc front hsnoc]
    · rw [if_neg htick]
      cases rest with
      | nil =>
          rw [if_neg, hlone]
          · simp [Mode.text, htick, Mode.scan, written, Piece.written]
          · rintro ⟨rfl, hnext⟩
            have := (next_iff front (c := '$') (by decide) [] (d := '{') (by decide)).mp hnext
            cases this
      | cons d tail =>
          by_cases hsub : c = '$' ∧ d = '{'
          · obtain ⟨rfl, rfl⟩ := hsub
            have hnext := (next_iff front (c := '$') (by decide) ('{' :: tail) (d := '{')
              (by decide)).mpr rfl
            rw [if_pos ⟨rfl, hnext⟩]
            simp [Mode.text, Mode.scan, written, Piece.written,
              size_snoc_two front (c := '$') (d := '{') (by decide) (by decide)]
          · rw [if_neg, hlone]
            · simp [Mode.text, hslash, htick, hsub, Mode.scan, written, Piece.written]
            · rintro ⟨rfl, hnext⟩
              have hhead := (next_iff front (c := '$') (by decide) (d :: tail) (d := '{')
                (by decide)).mp hnext
              exact hsub ⟨rfl, Option.some.inj hhead⟩

theorem lineComment_eq (mode : Mode) (front tail out : List Char) :
    (mode.scan (size front) out).lineComment (front ++ '/' :: '/' :: tail) =
      some ((mode.lineComment '/' ('/' :: tail)).mode.scan
        (size (front ++ (mode.lineComment '/' ('/' :: tail)).taken))
        (out ++ written (mode.lineComment '/' ('/' :: tail)).kept)) := by
  have hline : line ('/' :: '/' :: tail) = '/' :: line ('/' :: tail) := rfl
  have hsplit : '/' :: line ('/' :: tail) ++ afterLine ('/' :: tail) = '/' :: '/' :: tail :=
    congrArg ('/' :: ·) (line_append ('/' :: tail))
  have hcopy := copy_eq mode front ('/' :: line ('/' :: tail)) (afterLine ('/' :: tail)) out
  rw [hsplit] at hcopy
  have hpragma : (bytes (front ++ '/' :: '/' :: tail))[size front + 2]? = some '#'.toNat ↔
      tail.head? = some '#' := by
    have h := next_iff (front ++ ['/']) (c := '/') (by decide) tail (d := '#') (by decide)
    rwa [List.append_assoc, size_snoc front (c := '/') (by decide)] at h
  unfold Scan.lineComment Mode.lineComment
  rw [show (mode.scan (size front) out).i = size front from rfl, lineEnd_eq, Option.bind_some,
    hline, List.tail_cons]
  by_cases hhash : tail.head? = some '#'
  · rw [if_pos (hpragma.mpr hhash), if_pos hhash, hcopy]
    simp [written, Piece.written, Mode.scan]
  · rw [if_neg (fun h => hhash (hpragma.mp h)), if_neg hhash, ← Utf8.size_append]
    simp [written, Mode.scan]

theorem blockComment_eq (mode : Mode) (front tail out : List Char) :
    (mode.scan (size front) out).blockComment (front ++ '/' :: '*' :: tail) =
      some ((mode.blockComment '/' '*' tail).mode.scan
        (size (front ++ (mode.blockComment '/' '*' tail).taken))
        (out ++ written (mode.blockComment '/' '*' tail).kept)) := by
  have hsize : size front + 2 + size (blockTail tail).1 =
      size front + size ('/' :: '*' :: (blockTail tail).1) := by
    rw [Utf8.size_cons, Utf8.size_cons, Utf8.size_ascii (c := '/') (by decide),
      Utf8.size_ascii (c := '*') (by decide)]
    omega
  have hslice := Utf8.slice_append front ('/' :: '*' :: (blockTail tail).1) (blockTail tail).2
  rw [List.cons_append, List.cons_append, blockTail_append] at hslice
  unfold Scan.blockComment Mode.blockComment
  rw [show (mode.scan (size front) out).i = size front from rfl,
    blockEnd_eq front tail (c := '/') (d := '*') (by decide) (by decide), Option.bind_some, hsize,
    hslice, ← Utf8.size_append]
  simp [written, Mode.scan]

theorem code_eq (mode : Mode) (front : List Char) (c : Char) (rest out : List Char)
    (hgap : mode.gap = .none) :
    (mode.scan (size front) out).code (front ++ c :: rest) (lead c) =
      some ((mode.code c rest).mode.scan (size (front ++ (mode.code c rest).taken))
        (out ++ (mode.code c rest).taken)) := by
  have hlead {d : Char} (hd : d.toNat < 128) : lead c = d.toNat ↔ c = d := Utf8.lead_eq_iff hd
  have hquote : c = '"' ∨ c = '\'' → c.toNat < 128 ∧ c ≠ '\\' := by
    rintro (rfl | rfl) <;> decide
  unfold Scan.code
  rw [show (mode.code c rest).taken = (mode.token c rest).text from rfl]
  simp only [hlead (d := '"') (by decide), hlead (d := '\'') (by decide),
    hlead (d := '`') (by decide), hlead (d := '/') (by decide)]
  unfold Mode.code Mode.token
  by_cases hstring : c = '"' ∨ c = '\''
  · obtain ⟨hascii, hslash⟩ := hquote hstring
    have hcopy := copy_eq mode front (c :: (quoted c rest).1) (quoted c rest).2 out
    rw [List.cons_append, quoted_append, Utf8.size_cons, Utf8.size_ascii hascii,
      ← Nat.add_assoc] at hcopy
    rw [if_pos hstring, if_pos hstring, Utf8.lead_ascii hascii,
      show (mode.scan (size front) out).i = size front from rfl,
      stringEnd_bytes front rest hascii hslash, hcopy]
    simp [Mode.scan, hgap]
  · rw [if_neg hstring, if_neg hstring]
    by_cases htick : c = '`'
    · subst htick
      simp [Mode.scan, hgap, size_snoc front (c := '`') (by decide)]
    · rw [if_neg htick, if_neg htick]
      by_cases hregex : c = '/' ∧ startsARegex mode.previous mode.before mode.word = true
      · obtain ⟨rfl, hstarts⟩ := hregex
        have hcopy := copy_eq mode front ('/' :: (regexText rest).1) (regexText rest).2 out
        rw [List.cons_append, regexText_append, Utf8.size_cons,
          Utf8.size_ascii (c := '/') (by decide), ← Nat.add_assoc] at hcopy
        rw [if_pos ⟨rfl, hstarts⟩, if_pos ⟨rfl, hstarts⟩,
          show (mode.scan (size front) out).i = size front from rfl,
          regexEnd_eq front rest (by decide), hcopy]
        simp [Mode.scan, hgap]
      · rw [if_neg (c := c = '/' ∧ startsARegex (mode.scan (size front) out).previous
          (mode.scan (size front) out).before (mode.scan (size front) out).word = true) hregex,
          if_neg hregex]
        by_cases hword : isWordChar c = true ∧ isDigit (lead c) = false
        · have htake : (c :: rest).takeWhile (fun c => isWord (lead c)) =
              c :: rest.takeWhile isWordChar := List.takeWhile_cons_of_pos hword.1
          have hend := wordEnd_eq front (c :: rest)
          have hslice := Utf8.slice_append front (c :: rest.takeWhile isWordChar)
            (rest.dropWhile isWordChar)
          have hlast := Utf8.bytes_last front (List.cons_ne_nil c (rest.takeWhile isWordChar))
            (rest.dropWhile isWordChar)
          rw [List.cons_append, List.takeWhile_append_dropWhile] at hslice hlast
          rw [htake] at hend
          rw [if_pos (c := isWord (lead c) = true ∧ isDigit (lead c) = false) hword, if_pos hword,
            show (mode.scan (size front) out).i = size front from rfl, hend, hslice,
            Option.bind_some, hlast, ← Utf8.size_append]
          simp [Mode.scan, hgap]
        · have hchar := copy_char mode front c rest out
          rw [charLen_eq, Option.bind_some] at hchar
          rw [if_neg (c := isWord (lead c) = true ∧ isDigit (lead c) = false) hword, if_neg hword,
            show (mode.scan (size front) out).i = size front from rfl, charLen_eq,
            Option.bind_some, hchar]
          simp [Mode.scan, hgap]

theorem Mode.token_text_ne_nil (mode : Mode) (c : Char) (rest : List Char) :
    (mode.token c rest).text ≠ [] := by
  unfold Mode.token
  split_ifs <;> exact List.cons_ne_nil _ _

theorem Mode.step_kept (mode : Mode) (c : Char) (rest : List Char) :
    ((mode.step c rest).kept = [] ∧ (mode.step c rest).mode.fresh = mode.fresh) ∨
      ∃ piece, (mode.step c rest).kept = [piece] ∧ piece.text = (mode.step c rest).taken ∧
        piece.text ≠ [] ∧ (mode.step c rest).mode.fresh = false := by
  have hcode (rest : List Char) : ∃ piece, (mode.code c rest).kept = [piece] ∧
      piece.text = (mode.code c rest).taken ∧ piece.text ≠ [] ∧
        (mode.code c rest).mode.fresh = false :=
    ⟨_, rfl, rfl, mode.token_text_ne_nil c rest, rfl⟩
  unfold Mode.step
  split_ifs
  · right
    unfold Mode.text
    cases rest <;> dsimp only <;> split_ifs <;> exact ⟨_, rfl, rfl, List.cons_ne_nil _ _, rfl⟩
  · exact .inl ⟨rfl, rfl⟩
  · exact .inl ⟨rfl, rfl⟩
  · cases rest with
    | nil => exact .inr (hcode [])
    | cons d tail =>
        dsimp only
        split_ifs
        · unfold Mode.lineComment
          split_ifs
          · exact .inr ⟨_, rfl, rfl, List.cons_ne_nil _ _, rfl⟩
          · exact .inl ⟨rfl, rfl⟩
        · exact .inl ⟨rfl, rfl⟩
        · exact .inr (hcode (d :: tail))

variable {out : List Char} {mode : Mode}

theorem Mode.step_fresh (hfresh : mode.fresh = decide (out = [])) (c : Char) (rest : List Char) :
    (mode.step c rest).mode.fresh = decide (out ++ written (mode.step c rest).kept = []) := by
  rcases mode.step_kept c rest with ⟨hkept, hsame⟩ | ⟨piece, hkept, -, hne, hfalse⟩
  · rw [hkept, hsame, hfresh, written, List.flatMap_nil, List.append_nil]
  · rw [hkept, hfalse]
    simp [written, Piece.written, hne]

theorem settled_eq (hfresh : mode.fresh = decide (out = []))
    (front : List Char) (c : Char) (rest : List Char) :
    ((mode.scan (size front) out).settle).code (front ++ c :: rest) (lead c) =
      some ((mode.code c rest).mode.scan (size (front ++ (mode.code c rest).taken))
        (out ++ written (mode.code c rest).kept)) := by
  have h := code_eq { mode with gap := .none } front c rest
    (if out = [] then out else out ++ mode.gap.written) rfl
  have hwritten : (if out = [] then out else out ++ mode.gap.written) ++ (mode.code c rest).taken =
      out ++ written (mode.code c rest).kept := by
    rw [show (mode.code c rest).kept =
      [⟨if mode.fresh = true then [] else mode.gap.written, (mode.token c rest).kind,
        (mode.code c rest).taken⟩] from rfl, hfresh]
    by_cases hout : out = [] <;> simp [hout, written, Piece.written]
  rw [← hwritten]
  exact h

theorem turn_eq (hfresh : mode.fresh = decide (out = []))
    (front : List Char) (c : Char) (rest : List Char) :
    (mode.scan (size front) out).turn (front ++ c :: rest) =
      some (some ((mode.step c rest).mode.scan (size (front ++ (mode.step c rest).taken))
        (out ++ written (mode.step c rest).kept))) := by
  have hlead {d : Char} (hd : d.toNat < 128) : lead c = d.toNat ↔ c = d := Utf8.lead_eq_iff hd
  unfold Scan.turn Mode.step
  rw [show (mode.scan (size front) out).i = size front from rfl, Utf8.bytes_lead]
  simp only [hlead (d := ' ') (by decide), hlead (d := '\t') (by decide),
    hlead (d := '\n') (by decide), hlead (d := '\r') (by decide), hlead (d := '/') (by decide)]
  by_cases htext : mode.stack.head? = some .text
  · rw [if_pos (c := (mode.scan (size front) out).stack.head? = some .text) htext, if_pos htext,
      text_eq]
    rfl
  · rw [if_neg (c := (mode.scan (size front) out).stack.head? = some .text) htext, if_neg htext]
    by_cases hspace : c = ' ' ∨ c = '\t'
    · have hascii : c.toNat < 128 := by rcases hspace with rfl | rfl <;> decide
      rw [if_pos hspace, if_pos hspace, size_snoc front hascii]
      simp [written, Mode.scan]
    · rw [if_neg hspace, if_neg hspace]
      by_cases hbreak : c = '\n' ∨ c = '\r'
      · have hascii : c.toNat < 128 := by rcases hbreak with rfl | rfl <;> decide
        rw [if_pos hbreak, if_pos hbreak, size_snoc front hascii]
        simp [written, Mode.scan]
      · rw [if_neg hbreak, if_neg hbreak]
        have hnext {d : Char} (hd : d.toNat < 128) :
            (c = '/' ∧ (bytes (front ++ c :: rest))[size front + 1]? = some d.toNat) ↔
              c = '/' ∧ rest.head? = some d := by
          refine and_congr_right (fun hc => ?_)
          subst hc
          exact next_iff front (by decide) rest hd
        simp only [hnext (d := '/') (by decide), hnext (d := '*') (by decide)]
        have hcode := settled_eq hfresh front c rest
        cases rest with
        | nil =>
            rw [if_neg (by simp), if_neg (by simp), hcode]
            rfl
        | cons d tail =>
            simp only [List.head?_cons, Option.some.injEq]
            by_cases hline : c = '/' ∧ d = '/'
            · obtain ⟨rfl, rfl⟩ := hline
              rw [if_pos ⟨rfl, rfl⟩, if_pos ⟨rfl, rfl⟩, lineComment_eq]
              rfl
            · rw [if_neg hline, if_neg hline]
              by_cases hblock : c = '/' ∧ d = '*'
              · obtain ⟨rfl, rfl⟩ := hblock
                rw [if_pos ⟨rfl, rfl⟩, if_pos ⟨rfl, rfl⟩, blockComment_eq]
                rfl
              · rw [if_neg hblock, if_neg hblock, hcode]
                rfl

end Turns

section Whole

def Mode.start : Mode := ⟨[], .none, 0, 0, [], true⟩

theorem written_append (front back : List Piece) :
    written (front ++ back) = written front ++ written back := List.flatMap_append

theorem pieces_cons (mode : Mode) (c : Char) (rest : List Char) :
    pieces mode (c :: rest) =
      (mode.step c rest).kept ++ pieces (mode.step c rest).mode (mode.step c rest).rest := by
  rw [pieces]

theorem loop_eq {mode : Mode} {out : List Char} (hfresh : mode.fresh = decide (out = []))
    (front rest : List Char) :
    ∃ final, loop (Scan.turn (front ++ rest)) (mode.scan (size front) out) = some final ∧
      final.out = out ++ written (pieces mode rest) := by
  induction hn : rest.length using Nat.strongRecOn generalizing mode out front rest with
  | ind n ih =>
      cases rest with
      | nil =>
          have hdone : (mode.scan (size front) out).turn (front ++ []) = some none := by
            unfold Scan.turn
            rw [List.append_nil, show (mode.scan (size front) out).i = size front from rfl,
              Utf8.bytes_size]
          refine ⟨_, loop_done hdone, ?_⟩
          rw [pieces, written, List.flatMap_nil, List.append_nil]
          rfl
      | cons c rest =>
          have hturn := turn_eq hfresh front c rest
          have hsplit : front ++ c :: rest =
              (front ++ (mode.step c rest).taken) ++ (mode.step c rest).rest := by
            rw [List.append_assoc, mode.step_append]
          obtain ⟨final, hfinal, hout⟩ := ih _ (by rw [← hn]; exact mode.step_shorter c rest)
            (Mode.step_fresh hfresh c rest) (front ++ (mode.step c rest).taken)
            (mode.step c rest).rest rfl
          refine ⟨final, ?_, ?_⟩
          · rw [loop_next hturn, hsplit]
            exact hfinal
          · rw [hout, pieces_cons, written_append, List.append_assoc]

theorem javascript_eq (source : List Char) :
    javascript source = some (ended (written (pieces Mode.start source))) := by
  obtain ⟨final, hfinal, hout⟩ := @loop_eq Mode.start [] rfl [] source
  have hloop : loop (Scan.turn source) ⟨[], .none, 0, 0, [], 0, []⟩ = some final := hfinal
  rw [javascript, hloop, Option.map_some, hout, List.nil_append]

end Whole

end Minify
end Zdeceptron
