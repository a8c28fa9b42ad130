import Zdeceptron.Lexer.Runs
import Zdeceptron.Lexer.Alike

/-!
# Windows line endings

A text with a carriage return before every line feed is scanned lexeme by lexeme like
the text itself, so it has the same tokens, but for one place: the check of the first
line's indentation.

* `kinds_withReturns_iff`: the tokens.
-/

namespace Zdeceptron
namespace Lexer

open Library

section Scan

variable {identifiers : Identifiers}

variable {p : Char → Bool}

theorem takeWhile_withReturns (hnewline : p '\n' = false)
    (hreturn : p '\r' = false) (cs : List Char) :
    (withReturns cs).takeWhile p = cs.takeWhile p := by
  induction cs with
  | nil => rfl
  | cons c cs ih =>
      by_cases hc : c = '\n'
      · subst hc
        rw [withReturns_newline]
        simp [hnewline, hreturn]
      · rw [withReturns_cons hc, List.takeWhile_cons, List.takeWhile_cons, ih]

theorem dropWhile_withReturns (hnewline : p '\n' = false)
    (hreturn : p '\r' = false) (cs : List Char) :
    (withReturns cs).dropWhile p = withReturns (cs.dropWhile p) := by
  induction cs with
  | nil => rfl
  | cons c cs ih =>
      by_cases hc : c = '\n'
      · subst hc
        rw [withReturns_newline, List.dropWhile_cons_of_neg (by simp [hreturn]),
          List.dropWhile_cons_of_neg (by simp [hnewline]), withReturns_newline]
      · rw [withReturns_cons hc, List.dropWhile_cons, List.dropWhile_cons]
        split
        · exact ih
        · exact (withReturns_cons hc cs).symm

theorem head_withReturns (cs : List Char) :
    (withReturns cs).head? = cs.head?.map (fun c => if c = '\n' then '\r' else c) := by
  cases cs with
  | nil => rfl
  | cons c cs =>
      by_cases hc : c = '\n'
      · subst hc
        rfl
      · rw [withReturns_cons hc]
        simp [hc]

theorem startsFraction_withReturns (cs : List Char) :
    startsFraction (withReturns cs) = startsFraction cs := by
  cases cs with
  | nil => rfl
  | cons c cs =>
      by_cases hc : c = '\n'
      · subst hc
        rfl
      · rw [withReturns_cons hc]
        cases cs with
        | nil => rfl
        | cons d cs =>
            by_cases hd : d = '\n'
            · subst hd
              rw [withReturns_newline]
              by_cases hpoint : c = '.'
              · subst hpoint
                rfl
              · simp [startsFraction, hpoint]
            · rw [withReturns_cons hd]
              by_cases hpoint : c = '.'
              · subst hpoint
                rfl
              · simp [startsFraction, hpoint]

variable {cs : List Char} {c : Char}

theorem not_mem_of_all (h : ∀ d ∈ cs, p d = true) (hc : p c = false) : c ∉ cs := by
  intro hmem
  rw [h c hmem] at hc
  cases hc

theorem head_isDigit (h : ∀ c, cs.head? = some c → c.isDigit = false) :
    ∀ c, (withReturns cs).head? = some c → c.isDigit = false := by
  intro c hc
  rw [head_withReturns] at hc
  obtain ⟨d, hd, rfl⟩ := Option.map_eq_some_iff.mp hc
  split
  · rfl
  · exact h d hd

theorem digits_withReturns (cs : List Char) :
    digits (withReturns cs) = ((digits cs).1, withReturns (digits cs).2) := by
  have hds : ∀ d ∈ cs.takeWhile Char.isDigit, d.isDigit = true :=
    fun d hd => List.mem_takeWhile_imp hd
  have htake : withReturns (cs.takeWhile Char.isDigit) = cs.takeWhile Char.isDigit :=
    withReturns_of_not_mem (not_mem_of_all hds rfl)
  have hsplit : withReturns cs =
      cs.takeWhile Char.isDigit ++ withReturns (cs.dropWhile Char.isDigit) := by
    conv_lhs => rw [← List.takeWhile_append_dropWhile (p := Char.isDigit) (l := cs),
      withReturns_append, htake]
  rcases digits_cases cs with ⟨h, hfraction⟩ | ⟨fs, rest, hpoint, hne, hfs, hrest, h⟩
  · rw [h, hsplit, digits_whole hds (head_isDigit (fun c => head_dropWhile))
      (by rw [startsFraction_withReturns, hfraction])]
  · rw [h, hsplit, hpoint, withReturns_cons (by decide), withReturns_append,
      withReturns_of_not_mem (not_mem_of_all hfs rfl),
      digits_point hds hne hfs (head_isDigit hrest)]

theorem exists_cons_of_withReturns {cs rest : List Char} (hc : c ≠ '\r')
    (h : withReturns cs = c :: rest) : ∃ ds, cs = c :: ds ∧ withReturns ds = rest := by
  cases cs with
  | nil => cases h
  | cons d ds =>
      by_cases hd : d = '\n'
      · subst hd
        exact absurd (List.cons.inj h).1 (Ne.symm hc)
      · rw [withReturns_cons hd] at h
        obtain ⟨rfl, hrest⟩ := List.cons.inj h
        exact ⟨ds, rfl, hrest⟩

theorem fence_prefix_withReturns (cs : List Char) :
    fence <+: withReturns cs ↔ fence <+: cs := by
  constructor
  · rintro ⟨rest, hrest⟩
    obtain ⟨ds, rfl, hds⟩ := exists_cons_of_withReturns (by decide) hrest.symm
    obtain ⟨es, rfl, hes⟩ := exists_cons_of_withReturns (by decide) hds
    obtain ⟨fs, rfl, -⟩ := exists_cons_of_withReturns (by decide) hes
    exact ⟨fs, rfl⟩
  · rintro ⟨rest, rfl⟩
    exact ⟨withReturns rest, rfl⟩

theorem closeBlock_withReturns (cs : List Char) :
    closeBlock (withReturns cs) =
      (closeBlock cs).map (fun p => (withReturns p.1, withReturns p.2)) := by
  induction cs with
  | nil => rfl
  | cons c cs ih =>
      by_cases hfence : fence <+: c :: cs
      · obtain ⟨rest, hrest⟩ := hfence
        rw [← hrest, closeBlock_fence]
        rfl
      · rw [closeBlock_cons hfence]
        have hnot : ¬ fence <+: withReturns (c :: cs) := by
          rwa [fence_prefix_withReturns]
        by_cases hc : c = '\n'
        · subst hc
          rw [withReturns_newline] at hnot ⊢
          have hinner : ¬ fence <+: '\n' :: withReturns cs := by
            rintro ⟨rest, hrest⟩
            cases hrest
          rw [closeBlock_cons hnot, closeBlock_cons hinner, ih, Option.map_map, Option.map_map,
            Option.map_map]
          rfl
        · rw [withReturns_cons hc] at hnot ⊢
          rw [closeBlock_cons hnot, ih, Option.map_map, Option.map_map]
          refine congrArg (fun f => Option.map f (closeBlock cs)) (funext fun p => ?_)
          exact Prod.ext (withReturns_cons hc p.1).symm rfl

theorem dedentBlock_withReturns {body : List Char} (h : '\r' ∉ body) :
    dedentBlock (withReturns body) = dedentBlock body := by
  unfold dedentBlock
  rw [stripped_withReturns h]

/-- What a scan of a text and one of its Windows form have to do with each other: both
find the same body, unless a line break is in it. -/
def BodyAlike (result result' : Option (List Char × List Char)) : Prop :=
  match result with
  | none => result' = none
  | some (body, rest) =>
      ('\n' ∉ body → result' = some (body, withReturns rest)) ∧ ('\n' ∈ body → result' = none)

theorem BodyAlike.cons {result result' : Option (List Char × List Char)}
    (h : BodyAlike result result') {c : Char} (hc : c ≠ '\n') :
    BodyAlike (result.map (fun p => (c :: p.1, p.2))) (result'.map (fun p => (c :: p.1, p.2))) := by
  cases result with
  | none =>
      obtain rfl : result' = none := h
      exact rfl
  | some p =>
      obtain ⟨hfound, hnone⟩ := h
      constructor
      · intro hmem
        rw [List.mem_cons, not_or] at hmem
        rw [hfound hmem.2]
        rfl
      · intro hmem
        rw [hnone ((List.mem_cons.mp hmem).resolve_left (Ne.symm hc))]
        rfl

theorem closeLine_withReturns (escaped : Bool) (cs : List Char) :
    BodyAlike (closeLine escaped cs) (closeLine escaped (withReturns cs)) := by
  induction cs generalizing escaped with
  | nil => cases escaped <;> rfl
  | cons c cs ih =>
      by_cases hc : c = '\n'
      · subst hc
        cases escaped with
        | false => rfl
        | true =>
            rw [withReturns_newline, closeLine, closeLine,
              show closeLine false ('\n' :: withReturns cs) = none from rfl]
            cases closeLine false cs with
            | none => exact rfl
            | some p => exact ⟨fun h => absurd List.mem_cons_self h, fun _ => rfl⟩
      · rw [withReturns_cons hc]
        cases escaped with
        | true =>
            rw [closeLine, closeLine]
            exact (ih false).cons hc
        | false =>
            rw [closeLine, closeLine]
            split
            · exact (ih true).cons hc
            · split
              · exact rfl
              · split
                · exact ⟨fun _ => rfl, fun h => absurd h List.not_mem_nil⟩
                · exact (ih false).cons hc

theorem symbolAt_withReturns (hc : c ≠ '\n') (cs : List Char) :
    symbolAt (c :: withReturns cs) = (symbolAt (c :: cs)).map (fun p => (p.1, withReturns p.2)) := by
  cases h : symbolAt (c :: cs) with
  | none =>
      have hc := symbolAt_isSome c cs
      have hreturns := symbolAt_isSome c (withReturns cs)
      rw [h] at hc
      rw [← hc] at hreturns
      exact Option.isNone_iff_eq_none.mp (Option.isSome_eq_false_iff.mp hreturns)
  | some p =>
      obtain ⟨symbol, rest⟩ := p
      obtain ⟨-, slice, hslice, hat, hfollows⟩ := symbolAt_eq_some h
      have hplain : withReturns slice = slice :=
        withReturns_of_not_mem (fun hmem => newline_ne_symbol hat hmem)
      rw [← withReturns_cons hc, hslice, withReturns_append, hplain]
      refine symbolAt_append hat (fun hshort hhead => hfollows hshort ?_)
      rw [head_withReturns, Option.map_eq_some_iff] at hhead
      obtain ⟨d, hd, heq⟩ := hhead
      split at heq
      · cases heq
      · rw [hd, heq]

def ScanAlike (result result' : Option Lexeme × List Char) : Prop :=
  (result.1 = none ∧ result'.1 = none) ∨
    ∃ lexeme rest, result = (some lexeme, rest) ∧ result' = (some lexeme, withReturns rest)

theorem ScanAlike.of_some {lexeme : Option Lexeme} {rest : List Char} :
    ScanAlike (lexeme, rest) (lexeme, withReturns rest) := by
  cases lexeme with
  | none => exact .inl ⟨rfl, rfl⟩
  | some lexeme => exact .inr ⟨lexeme, rest, rfl, rfl⟩

theorem scan_fence_withReturns (h : '\r' ∉ cs) :
    ScanAlike (scan identifiers '"' ('"' :: '"' :: cs))
      (scan identifiers '"' ('"' :: '"' :: withReturns cs)) := by
  rw [scan_fence, scan_fence, closeBlock_withReturns]
  cases hclose : closeBlock cs with
  | none => exact .inl ⟨rfl, rfl⟩
  | some p =>
      obtain ⟨body, after⟩ := p
      obtain ⟨rfl, -⟩ := closeBlock_eq_some hclose
      have hbody : '\r' ∉ body := fun hmem => h (List.mem_append_left _ hmem)
      rw [Option.map_some]
      simp only [dedentBlock_withReturns hbody]
      exact ScanAlike.of_some

theorem scan_quote_withReturns (h : ∀ behind, cs ≠ '"' :: '"' :: behind) :
    ScanAlike (scan identifiers '"' cs) (scan identifiers '"' (withReturns cs)) := by
  have hreturns : ∀ behind, withReturns cs ≠ '"' :: '"' :: behind := by
    intro behind heq
    obtain ⟨ds, rfl, hds⟩ := exists_cons_of_withReturns (by decide) heq
    obtain ⟨es, rfl, -⟩ := exists_cons_of_withReturns (by decide) hds
    exact h es rfl
  rw [scan_quote h, scan_quote hreturns]
  have halike := closeLine_withReturns false cs
  cases hclose : closeLine false cs with
  | none =>
      rw [hclose] at halike
      rw [show closeLine false (withReturns cs) = none from halike]
      exact .inl ⟨rfl, rfl⟩
  | some p =>
      obtain ⟨body, rest⟩ := p
      rw [hclose] at halike
      by_cases hmem : '\n' ∈ body
      · rw [halike.2 hmem]
        refine .inl ⟨?_, rfl⟩
        obtain ⟨-, hbody⟩ := closeLine_eq_some hclose
        cases hvalue : unescape body with
        | none => simp only [hvalue, Option.map_none]
        | some value => exact absurd hmem (newline_not_mem (hbody rest) hvalue)
      · rw [halike.1 hmem]
        exact ScanAlike.of_some

theorem scan_withReturns (h : '\r' ∉ c :: cs) :
    ∃ d ds, withReturns (c :: cs) = d :: ds ∧
      ScanAlike (scan identifiers c cs) (scan identifiers d ds) := by
  rw [List.mem_cons, not_or] at h
  have hreturn : ¬ c = '\r' := Ne.symm h.1
  by_cases hnewline : c = '\n'
  · subst hnewline
    refine ⟨'\r', '\n' :: withReturns cs, withReturns_newline cs, .inr
      ⟨_, _, rfl, ?_⟩⟩
    show (some (Lexeme.lineStart ((withReturns cs).takeWhile isSpace).length),
      (withReturns cs).dropWhile isSpace) = _
    rw [takeWhile_withReturns rfl rfl, dropWhile_withReturns rfl rfl]
  refine ⟨c, withReturns cs, withReturns_cons hnewline cs, ?_⟩
  by_cases hquote : c = '"'
  · subst hquote
    by_cases hfence : ∃ behind, cs = '"' :: '"' :: behind
    · obtain ⟨behind, rfl⟩ := hfence
      refine scan_fence_withReturns (fun hmem => h.2 ?_)
      exact List.mem_cons_of_mem _ (List.mem_cons_of_mem _ hmem)
    · exact scan_quote_withReturns (fun behind heq => hfence ⟨behind, heq⟩)
  unfold scan
  rw [if_neg hnewline, if_neg hreturn, if_neg hnewline, if_neg hreturn]
  split_ifs with hspace hcomment hdigit hstart
  · rw [dropWhile_withReturns rfl rfl]
    exact ScanAlike.of_some
  · rw [dropWhile_withReturns rfl rfl]
    exact ScanAlike.of_some
  · have hdigits := digits_withReturns (c :: cs)
    rw [withReturns_cons hnewline] at hdigits
    rw [hdigits]
    exact ScanAlike.of_some
  · have hnot : ∀ {d : Char}, separates d = true → identifiers.isContinue d = false := by
      intro d hd
      by_contra hne
      rw [Bool.not_eq_false] at hne
      rw [identifiers.plain d hne] at hd
      cases hd
    rw [takeWhile_withReturns (hnot (by decide)) (hnot (by decide)),
      dropWhile_withReturns (hnot (by decide)) (hnot (by decide))]
    exact ScanAlike.of_some
  · rw [symbolAt_withReturns hnewline]
    cases symbolAt (c :: cs) with
    | none => exact .inl ⟨rfl, rfl⟩
    | some p => exact ScanAlike.of_some

end Scan

section Lexemes

variable {src : List Char}

/-- Where in a text and in its Windows form the same part of them is left. -/
def SameRest (src : List Char) (offset offset' : Nat) : Prop :=
  ∃ rest, rest <:+ src ∧ offset + byteLen rest = byteLen src ∧
    offset' + byteLen (withReturns rest) = byteLen (withReturns src)

variable {rest other : List Char}

theorem byteLen_lt_of_suffix (h : rest <:+ other)
    (hne : rest ≠ other) : byteLen rest < byteLen other := by
  obtain ⟨front, rfl⟩ := h
  have hfront : front ≠ [] := by
    rintro rfl
    exact hne rfl
  have := byteLen_pos hfront
  rw [byteLen_append]
  omega

theorem withReturns_suffix (h : rest <:+ other) :
    withReturns rest <:+ withReturns other := by
  obtain ⟨front, rfl⟩ := h
  exact ⟨withReturns front, (withReturns_append front rest).symm⟩

theorem withReturns_injective {cs ds : List Char} (h : cs <:+ ds)
    (heq : withReturns cs = withReturns ds) : cs = ds := by
  obtain ⟨front, rfl⟩ := h
  rw [withReturns_append] at heq
  have hlength := congrArg List.length heq
  rw [List.length_append] at hlength
  cases front with
  | nil => rfl
  | cons c front =>
      exfalso
      by_cases hc : c = '\n'
      · subst hc
        rw [withReturns_newline, List.length_cons] at hlength
        omega
      · rw [withReturns_cons hc, List.length_cons] at hlength
        omega

theorem sameRest_inj (src : List Char) (a b a' b' : Nat) (ha : SameRest src a a')
    (hb : SameRest src b b') : a = b ↔ a' = b' := by
  obtain ⟨rest, hrest, ha, ha'⟩ := ha
  obtain ⟨other, hother, hb, hb'⟩ := hb
  have hcases : rest = other ∨ (byteLen rest ≠ byteLen other ∧
      byteLen (withReturns rest) ≠ byteLen (withReturns other)) := by
    by_cases hsame : rest = other
    · exact .inl hsame
    refine .inr ?_
    rcases List.suffix_or_suffix_of_suffix hrest hother with h | h
    · have hreturns := byteLen_lt_of_suffix (withReturns_suffix h)
        (fun heq => hsame (withReturns_injective h heq))
      have := byteLen_lt_of_suffix h hsame
      omega
    · have hreturns := byteLen_lt_of_suffix (withReturns_suffix h)
        (fun heq => hsame (withReturns_injective h heq).symm)
      have := byteLen_lt_of_suffix h (Ne.symm hsame)
      omega
  rcases hcases with rfl | ⟨hne, hne'⟩
  · omega
  · omega

theorem withReturns_ne_nil {cs : List Char} (h : cs ≠ []) : withReturns cs ≠ [] := by
  obtain ⟨c, cs, rfl⟩ := List.exists_cons_of_ne_nil h
  by_cases hc : c = '\n'
  · subst hc
    simp [withReturns_newline]
  · simp [withReturns_cons hc]

theorem slice_eq {c : Char} {cs slice rest : List Char} (h : c :: cs = slice ++ rest) :
    (c :: cs).take ((c :: cs).length - rest.length) = slice := by
  rw [h, List.length_append, Nat.add_sub_cancel, List.take_left]

theorem matched_withReturns (identifiers : Identifiers) (h : '\r' ∉ src) :
    ((∃ m ∈ matched identifiers src, m.1 = none) ∧
        ∃ m ∈ matched identifiers (withReturns src), m.1 = none) ∨
      Paired (SameRest src) 0 0 (matched identifiers src)
        (matched identifiers (withReturns src)) := by
  have hgeneral : ∀ fuel fuel' : Nat, ∀ rest : List Char, ∀ offset offset' : Nat, rest <:+ src →
      rest.length ≤ fuel → (withReturns rest).length ≤ fuel' →
      offset + byteLen rest = byteLen src →
      offset' + byteLen (withReturns rest) = byteLen (withReturns src) →
      ((∃ m ∈ matchedWithin identifiers fuel rest, m.1 = none) ∧
          ∃ m ∈ matchedWithin identifiers fuel' (withReturns rest), m.1 = none) ∨
        Paired (SameRest src) offset offset' (matchedWithin identifiers fuel rest)
          (matchedWithin identifiers fuel' (withReturns rest)) := by
    intro fuel
    induction fuel with
    | zero =>
        intro fuel' rest offset offset' hsuffix hfuel hfuel' hoffset hoffset'
        obtain rfl := List.length_eq_zero_iff.mp (Nat.le_zero.mp hfuel)
        refine .inr ?_
        have hstart : SameRest src offset offset' := ⟨[], hsuffix, hoffset, hoffset'⟩
        cases fuel' <;> exact .nil hstart
    | succ fuel ih =>
        intro fuel' rest offset offset' hsuffix hfuel hfuel' hoffset hoffset'
        have hstart : SameRest src offset offset' := ⟨rest, hsuffix, hoffset, hoffset'⟩
        cases rest with
        | nil =>
            refine .inr ?_
            cases fuel' <;> exact .nil hstart
        | cons c cs =>
            have hno : '\r' ∉ c :: cs := fun hmem => h (hsuffix.subset hmem)
            obtain ⟨d, ds, hds, halike⟩ := scan_withReturns hno
            rw [hds] at hfuel' hoffset' ⊢
            rw [List.length_cons] at hfuel'
            obtain ⟨fuel', rfl⟩ : ∃ n, fuel' = n + 1 := ⟨fuel' - 1, by omega⟩
            rw [matchedWithin, matchedWithin]
            rcases halike with ⟨hnone, hnone'⟩ | ⟨lexeme, after, hscan, hscan'⟩
            · exact .inl ⟨⟨_, List.mem_cons_self, hnone⟩, ⟨_, List.mem_cons_self, hnone'⟩⟩
            obtain ⟨slice, hslice, hpiece, -⟩ := piece_of_scan hscan
            have hslice' : d :: ds = withReturns slice ++ withReturns after := by
              rw [← hds, hslice, withReturns_append]
            have hne' : withReturns slice ≠ [] := withReturns_ne_nil hpiece.ne_nil
            rw [hscan, hscan']
            simp only [slice_eq hslice, slice_eq hslice']
            have hpos := List.length_pos_of_ne_nil hpiece.ne_nil
            have hpos' := List.length_pos_of_ne_nil hne'
            have hlength := congrArg List.length hslice
            have hlength' := congrArg List.length hslice'
            have hbytes := congrArg byteLen hslice
            have hbytes' := congrArg byteLen hslice'
            simp only [List.length_append, List.length_cons, byteLen_append] at *
            have hafter : after <:+ src :=
              (hslice ▸ List.suffix_append slice after : after <:+ c :: cs).trans hsuffix
            rcases ih fuel' after (offset + byteLen slice) (offset' + byteLen (withReturns slice))
              hafter (by omega) (by omega) (by omega) (by omega) with ⟨herror, herror'⟩ | hpaired
            · refine .inl ⟨?_, ?_⟩
              · obtain ⟨m, hm, hnone⟩ := herror
                exact ⟨m, List.mem_cons_of_mem _ hm, hnone⟩
              · obtain ⟨m, hm, hnone⟩ := herror'
                exact ⟨m, List.mem_cons_of_mem _ hm, hnone⟩
            · exact .inr (.cons hstart hpaired)
  exact hgeneral src.length (withReturns src).length src 0 0 (List.suffix_refl src)
    (Nat.le_refl _) (Nat.le_refl _) (Nat.zero_add _) (Nat.zero_add _)

end Lexemes

section Runs

theorem skipInner_withReturns (opener : Char) (escaped : Bool) (cs : List Char) :
    skipInner opener escaped (withReturns cs) = withReturns (skipInner opener escaped cs) := by
  induction cs generalizing escaped with
  | nil => rfl
  | cons c cs ih =>
      by_cases hc : c = '\n'
      · subst hc
        have hline : ∀ ds, skipInner opener false ('\n' :: ds) = ds := fun ds => rfl
        have hreturn : '\r' ≠ (if opener = '#' then '\n' else '"') := by
          split <;> decide
        rw [withReturns_newline, skipInner, if_neg (by decide)]
        simp only [hline, hreturn, if_false, show ('\r' : Char) ≠ '\\' by decide, decide_false,
          Bool.and_false, Bool.false_eq_true, ite_self]
        rw [skipInner, if_pos rfl]
      · rw [withReturns_cons hc, skipInner, skipInner, if_neg hc, if_neg hc]
        split
        · exact ih false
        · split
          · exact ih true
          · generalize (if opener = '#' then '\n' else '"') = closes
            split
            · rfl
            · exact ih false

theorem afterBlock_of_not_fence {cs : List Char} (h : ¬ fence <+: cs) : afterBlock cs = none := by
  unfold afterBlock
  split
  · rename_i body
    exact absurd ⟨body, rfl⟩ h
  · rfl

theorem afterBlock_withReturns (cs : List Char) :
    afterBlock (withReturns cs) = (afterBlock cs).map withReturns := by
  by_cases hfence : fence <+: cs
  · obtain ⟨body, rfl⟩ := hfence
    show (closeBlock (withReturns body)).map Prod.snd =
      ((closeBlock body).map Prod.snd).map withReturns
    rw [closeBlock_withReturns, Option.map_map, Option.map_map]
    rfl
  · rw [afterBlock_of_not_fence hfence,
      afterBlock_of_not_fence (fun h => hfence ((fence_prefix_withReturns cs).mp h))]
    rfl

theorem tooLong_withReturns (cs : List Char) (length : Nat) :
    tooLong (withReturns cs) length = tooLong cs length := by
  induction hn : cs.length using Nat.strong_induction_on generalizing cs length with
  | h n ih =>
      subst hn
      cases cs with
      | nil => rfl
      | cons c cs =>
          have hcs := ih cs.length (Nat.lt_succ_self _) cs
          by_cases hc : c = '\n'
          · subst hc
            rw [withReturns_newline, tooLong_separates (by decide) (by decide) (by decide),
              tooLong_separates (by decide) (by decide) (by decide),
              tooLong_separates (by decide) (by decide) (by decide)]
            exact hcs 0 rfl
          · have hafter := afterBlock_withReturns (c :: cs)
            rw [withReturns_cons hc] at hafter ⊢
            rw [tooLong_cons, tooLong_cons, hafter]
            cases hblock : afterBlock (c :: cs) with
            | some after =>
                have := length_afterBlock hblock
                exact ih after.length (by rw [List.length_cons]; omega) after 0 rfl
            | none =>
                simp only [Option.map_none]
                rw [skipInner_withReturns]
                have hskip := length_skipInner c false cs
                rw [ih (skipInner c false cs).length (by rw [List.length_cons]; omega) _ 0 rfl,
                  hcs 0 rfl, hcs (length + 1) rfl]

end Runs

section Tokens

variable {identifiers : Identifiers} {src : List Char}

def BlankFirst (src : List Char) : Prop :=
  ∃ n rest, src = List.replicate (n + 1) ' ' ++ '\n' :: rest

theorem leadingIndentation_withReturns (hblank : ¬ BlankFirst src) :
    leadingIndentation (withReturns src) = leadingIndentation src := by
  unfold leadingIndentation
  rw [takeWhile_withReturns rfl rfl, dropWhile_withReturns rfl rfl]
  by_cases hwidth : (src.takeWhile isSpace).length = 0
  · simp only [hwidth, if_true]
  · simp only [hwidth, if_false]
    cases hrest : src.dropWhile isSpace with
    | nil => rfl
    | cons c rest =>
        have hc : c ≠ '\n' := by
          rintro rfl
          refine hblank ⟨(src.takeWhile isSpace).length - 1, rest, ?_⟩
          rw [Nat.sub_add_cancel (by omega), replicate_takeWhile, ← hrest,
            List.takeWhile_append_dropWhile]
        rw [withReturns_cons hc]

theorem leadingIndentation_blankFirst (hblank : BlankFirst src) :
    (leadingIndentation (withReturns src)).isSome = true := by
  obtain ⟨n, rest, rfl⟩ := hblank
  have hspaces : ∀ c ∈ List.replicate (n + 1) ' ', isSpace c = true := by
    intro c hc
    rw [List.eq_of_mem_replicate hc]
    rfl
  have hplain : withReturns (List.replicate (n + 1) ' ') = List.replicate (n + 1) ' ' :=
    withReturns_of_not_mem (not_mem_of_all hspaces rfl)
  have hstop : ∀ c, ('\r' :: '\n' :: withReturns rest).head? = some c → isSpace c = false := by
    rintro c ⟨⟩
    rfl
  unfold leadingIndentation
  rw [withReturns_append, hplain, withReturns_newline, takeWhile_stop hspaces hstop,
    dropWhile_stop hspaces hstop]
  simp

theorem leadingIndentation_of_blankFirst (hblank : BlankFirst src) :
    leadingIndentation src = none := by
  obtain ⟨n, rest, rfl⟩ := hblank
  have hspaces : ∀ c ∈ List.replicate (n + 1) ' ', isSpace c = true := by
    intro c hc
    rw [List.eq_of_mem_replicate hc]
    rfl
  have hstop : ∀ c, ('\n' :: rest).head? = some c → isSpace c = false := by
    rintro c ⟨⟩
    rfl
  unfold leadingIndentation
  rw [takeWhile_stop hspaces hstop, dropWhile_stop hspaces hstop]
  simp

/-- The runs, the lexemes, the layout and the numbers of a text are all in order. -/
def InOrder (identifiers : Identifiers) (src : List Char) : Prop :=
  overLongRun src = none ∧ ∃ st, layout (tokenizeRaw identifiers src) .initial = .ok st ∧
    exponentLiteral (st.finish ⟨byteLen src, byteLen src⟩) = none

theorem kinds_isSome_iff (hleading : leadingIndentation src = none) :
    (kinds identifiers src).isSome = true ↔ InOrder identifiers src := by
  constructor
  · intro h
    obtain ⟨-, hruns⟩ := kinds_isSome h
    refine ⟨hruns, ?_⟩
    rw [kinds_eq hleading hruns] at h
    revert h
    cases layout (tokenizeRaw identifiers src) .initial with
    | error error => rintro ⟨⟩
    | ok st =>
        intro h
        refine ⟨st, rfl, ?_⟩
        revert h
        simp only
        cases exponentLiteral (st.finish ⟨byteLen src, byteLen src⟩) with
        | none => exact fun _ => rfl
        | some error => rintro ⟨⟩
  · rintro ⟨hruns, st, hlayout, hexponent⟩
    rw [kinds_eq hleading hruns, hlayout]
    simp only
    rw [hexponent]
    rfl

/-- Windows line endings change no token, but a first line of spaces is refused with
them. -/
theorem kinds_withReturns_iff (h : '\r' ∉ src) :
    kinds identifiers (withReturns src) = kinds identifiers src ↔
      ¬ (BlankFirst src ∧ InOrder identifiers src) := by
  by_cases hblank : BlankFirst src
  · have hret : kinds identifiers (withReturns src) = none :=
      kinds_of_leading (leadingIndentation_blankFirst hblank)
    rw [hret, ← kinds_isSome_iff (leadingIndentation_of_blankFirst hblank)]
    cases kinds identifiers src <;> simp [hblank]
  have hsame : kinds identifiers (withReturns src) = kinds identifiers src := by
    have hleading := leadingIndentation_withReturns hblank
    cases hl : leadingIndentation src with
    | some width =>
        have hsrc : kinds identifiers src = none := kinds_of_leading (by rw [hl]; rfl)
        have hret : kinds identifiers (withReturns src) = none :=
          kinds_of_leading (by rw [hleading, hl]; rfl)
        rw [hsrc, hret]
    | none =>
        have hruns := tooLong_withReturns src 0
        rw [← overLongRun_isSome, ← overLongRun_isSome] at hruns
        cases hr : overLongRun src with
        | some run =>
            have hsrc : kinds identifiers src = none := kinds_of_overLong (by rw [hr]; rfl)
            have hret : kinds identifiers (withReturns src) = none :=
              kinds_of_overLong (by rw [hruns, hr]; rfl)
            rw [hsrc, hret]
        | none =>
            rw [hr, Option.isSome_none, Option.isSome_eq_false_iff, Option.isNone_iff_eq_none]
              at hruns
            rcases matched_withReturns identifiers h with
              ⟨herror, herror'⟩ | hpaired
            · rw [kinds_of_error herror, kinds_of_error herror']
            · refine (kinds_eq_of_alike (sameRest_inj src) hl (hleading.trans hl) hr hruns ?_
                ⟨[], List.nil_suffix, rfl, rfl⟩).symm
              refine layout_alike (List.rel_reverse ?_) Layout.Alike.initial
              exact rawFrom_alike hpaired .nil
  simp [hsame, hblank]

theorem kinds_withReturns_view :
    kinds asciiIdentifiers (withReturns "view\n  Text x".toList) =
      kinds asciiIdentifiers "view\n  Text x".toList := by
  refine (kinds_withReturns_iff (by decide)).mpr ?_
  rintro ⟨⟨n, rest, h⟩, -⟩
  cases h

theorem kinds_withReturns_blank :
    ¬ kinds asciiIdentifiers (withReturns "  \nview".toList) =
      kinds asciiIdentifiers "  \nview".toList := by
  decide +kernel

end Tokens

end Lexer
end Zdeceptron
