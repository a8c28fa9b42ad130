import Zdeceptron.Lexer.Runs

/-!
# Names behind an unclosed literal

The scan for long runs and the lexer read on from the same places, until a literal or a
comment ends in one place for the first and in another for the second.  Names longer than
the limit are scanned only behind such a literal or comment.

* `words_short_iff`: the names it scans are short if those behind a stray opener are.
-/

namespace Zdeceptron
namespace Lexer

open Library

section Scan

variable (identifiers : Identifiers)

inductive Reached : List Char → List Char → Prop
  | here (text : List Char) : Reached text text
  | later {c : Char} {cs text : List Char} : Reached (scan identifiers c cs).2 text →
      Reached (c :: cs) text

def nameAt : List Char → Option (List Char)
  | [] => none
  | c :: cs =>
      if c.isDigit then none
      else if identifiers.isStart c || decide (c = '_') then
        some (c :: cs.takeWhile identifiers.isContinue)
      else none

variable {identifiers} {c : Char} {cs src text : List Char}

theorem scan_of_nameAt {word : List Char} (h : nameAt identifiers (c :: cs) = some word) :
    scan identifiers c cs = (some (.word word), cs.dropWhile identifiers.isContinue) := by
  rw [nameAt] at h
  split_ifs at h with hdigit hstart
  cases h
  refine scan_of_piece (.word hstart (by simpa using hdigit) ?_) (fun _ => head_dropWhile) ?_
  · exact fun d hd => List.mem_takeWhile_imp hd
  · rw [List.cons_append, List.takeWhile_append_dropWhile]

theorem scan_name {word : List Char} :
    (scan identifiers c cs).1 = some (.word word) ↔ nameAt identifiers (c :: cs) = some word := by
  constructor
  · intro h
    cases hname : nameAt identifiers (c :: cs) with
    | some other =>
        rw [scan_of_nameAt hname] at h
        cases h
        rfl
    | none =>
        obtain ⟨slice, hslice, hpiece, -⟩ := piece_of_scan (Prod.ext h rfl)
        cases hpiece with
        | word hstart hdigit _ =>
            obtain ⟨rfl, -⟩ := List.cons.inj hslice
            rw [nameAt, hdigit, if_neg Bool.false_ne_true, if_pos hstart] at hname
            cases hname
  · intro h
    rw [scan_of_nameAt h]

theorem scan_plain (hcomment : c ≠ '#') (hquote : c ≠ '"') :
    ∃ slice, c :: cs = slice ++ (scan identifiers c cs).2 ∧ slice ≠ [] ∧
      ∀ d ∈ slice, d ≠ '#' ∧ d ≠ '"' := by
  have hspaces : ∀ cs : List Char, ∀ d ∈ cs.takeWhile isSpace, d ≠ '#' ∧ d ≠ '"' := by
    intro cs d hd
    have hspace : d = ' ' := by simpa [isSpace] using List.mem_takeWhile_imp hd
    rw [hspace]
    decide
  have hnewline : ('\n' ≠ '#' ∧ '\n' ≠ '"') := by decide
  unfold scan
  split_ifs with hline hreturn hspace hdigit hstart
  · refine ⟨c :: cs.takeWhile isSpace, ?_, List.cons_ne_nil _ _, ?_⟩
    · rw [List.cons_append, List.takeWhile_append_dropWhile]
    · exact List.forall_mem_cons.mpr ⟨⟨hcomment, hquote⟩, hspaces cs⟩
  · split
    · rename_i behind
      refine ⟨c :: '\n' :: behind.takeWhile isSpace, ?_, List.cons_ne_nil _ _, ?_⟩
      · rw [List.cons_append, List.cons_append, List.takeWhile_append_dropWhile]
      · exact List.forall_mem_cons.mpr ⟨⟨hcomment, hquote⟩,
          List.forall_mem_cons.mpr ⟨hnewline, hspaces behind⟩⟩
    · exact ⟨[c], rfl, List.cons_ne_nil _ _, by simp [hcomment, hquote]⟩
  · refine ⟨c :: cs.takeWhile isSpace, ?_, List.cons_ne_nil _ _, ?_⟩
    · rw [List.cons_append, List.takeWhile_append_dropWhile]
    · exact List.forall_mem_cons.mpr ⟨⟨hcomment, hquote⟩, hspaces cs⟩
  · have hne : (c :: cs).takeWhile Char.isDigit ≠ [] := by simp [hdigit]
    have hds : ∀ d ∈ (c :: cs).takeWhile Char.isDigit, d ≠ '#' ∧ d ≠ '"' :=
      fun d hd => ne_of_isDigit (List.mem_takeWhile_imp hd)
    have hsplit : (c :: cs).takeWhile Char.isDigit ++ (c :: cs).dropWhile Char.isDigit = c :: cs :=
      List.takeWhile_append_dropWhile
    rcases digits_cases (c :: cs) with
      ⟨hdigits, -⟩ | ⟨fs, rest, hdrop, -, hfs, -, hdigits⟩
    · rw [hdigits]
      exact ⟨_, hsplit.symm, hne, hds⟩
    · rw [hdigits]
      refine ⟨(c :: cs).takeWhile Char.isDigit ++ '.' :: fs, ?_, by simp, ?_⟩
      · rw [List.append_assoc, List.cons_append, ← hdrop, hsplit]
      · intro d hd
        rw [List.mem_append, List.mem_cons] at hd
        rcases hd with hd | rfl | hd
        · exact hds d hd
        · decide
        · exact ne_of_isDigit (hfs d hd)
  · refine ⟨c :: cs.takeWhile identifiers.isContinue, ?_, List.cons_ne_nil _ _, ?_⟩
    · rw [List.cons_append, List.takeWhile_append_dropWhile]
    · refine List.forall_mem_cons.mpr ⟨⟨hcomment, hquote⟩, fun d hd => ?_⟩
      have hplain := identifiers.plain d (List.mem_takeWhile_imp hd)
      exact ⟨ne_of_separates (by decide) hplain, ne_of_separates (by decide) hplain⟩
  · split
    · exact ⟨[c], rfl, List.cons_ne_nil _ _, by simp [hcomment, hquote]⟩
    · rename_i symbol rest hsymbol
      obtain ⟨-, slice, hslice, hat, -⟩ := symbolAt_eq_some hsymbol
      refine ⟨slice, hslice, ?_, fun d hd => ne_of_symbol hat hd⟩
      rintro rfl
      cases hat

end Scan

section Strays

/-- Whether the scan for long runs and the lexer end the text or comment a text starts with
in different places: a block or a line that is not closed, a line that is closed behind an
escaped line break, and a comment that a carriage return alone ends. -/
def strays : List Char → Bool
  | '"' :: '"' :: '"' :: cs => (closeBlock cs).isNone
  | '"' :: cs => (closeLine false cs).all (fun closed => decide ('\n' ∈ closed.1))
  | '#' :: cs =>
      match cs.dropWhile (fun c => !endsComment c) with
      | '\r' :: '\n' :: _ => false
      | '\r' :: _ => true
      | _ => false
  | _ => false

variable {identifiers : Identifiers} {c : Char} {cs src text : List Char} {n : Nat}

theorem exists_tooLong {slice rest : List Char} (hplain : ∀ c ∈ slice, c ≠ '#' ∧ c ≠ '"')
    (h : tooLong (slice ++ rest) n = false) :
    ∃ m, runChars n slice = some m ∧ tooLong rest m = false := by
  rw [tooLong_plain hplain] at h
  cases hrun : runChars n slice with
  | none =>
      rw [hrun] at h
      cases h
  | some m =>
      rw [hrun] at h
      exact ⟨m, rfl, h⟩

theorem tooLong_opener (hopener : c = '#' ∨ c = '"') (hblock : afterBlock (c :: cs) = none)
    (h : tooLong (c :: cs) n = false) : tooLong (skipInner c false cs) 0 = false := by
  have hopens : (decide (c = '#') || decide (c = '"')) = true := by simpa using hopener
  rw [tooLong_cons, hblock] at h
  simpa only [hopens, if_true] using h

theorem tooLong_of_comment (hagree : strays ('#' :: cs) = false)
    (h : tooLong ('#' :: cs) n = false) :
    ∃ m, tooLong (cs.dropWhile (fun c => !endsComment c)) m = false := by
  have hskip := tooLong_opener (.inl rfl) (afterBlock_of_ne (by decide) cs) h
  have hsplit : cs.takeWhile (fun c => !endsComment c) ++
      cs.dropWhile (fun c => !endsComment c) = cs := List.takeWhile_append_dropWhile
  have hplain : ∀ d ∈ cs.takeWhile (fun c => !endsComment c), d ≠ '\n' := by
    rintro d hd rfl
    have := List.mem_takeWhile_imp hd
    revert this
    decide
  refine ⟨0, ?_⟩
  cases hrest : cs.dropWhile (fun c => !endsComment c) with
  | nil => rfl
  | cons d rest =>
      have hd : endsComment d = true := by
        have := head_dropWhile (show (cs.dropWhile (fun c => !endsComment c)).head? = some d by
          rw [hrest]
          rfl)
        simpa using this
      rw [hrest] at hsplit
      rw [endsComment, Bool.or_eq_true, decide_eq_true_eq, decide_eq_true_eq] at hd
      rcases hd with rfl | rfl
      · rw [← hsplit, skipInner_comment hplain] at hskip
        rwa [tooLong_separates (by decide) (by decide) (by decide)]
      · obtain ⟨more, rfl⟩ : ∃ more, rest = '\n' :: more := by
          rw [strays, hrest] at hagree
          split at hagree
          · rename_i more heq
            exact ⟨more, (List.cons.inj heq).2⟩
          · cases hagree
          · rename_i hnot
            exact absurd rfl (hnot rest)
        have hwhole : (cs.takeWhile (fun c => !endsComment c) ++ ['\r']) ++ '\n' :: more = cs := by
          rw [List.append_assoc]
          exact hsplit
        rw [← hwhole, skipInner_comment] at hskip
        · rwa [tooLong_separates (by decide) (by decide) (by decide),
            tooLong_separates (by decide) (by decide) (by decide)]
        · intro d hd
          rcases List.mem_append.mp hd with hd | hd
          · exact hplain d hd
          · rw [List.mem_singleton.mp hd]
            decide

theorem tooLong_of_quote (hagree : strays ('"' :: cs) = false) (h : tooLong ('"' :: cs) n = false) :
    ∃ m, tooLong (scan identifiers '"' cs).2 m = false := by
  refine ⟨0, ?_⟩
  by_cases hfence : ∃ behind, cs = '"' :: '"' :: behind
  · obtain ⟨behind, rfl⟩ := hfence
    rw [strays] at hagree
    obtain ⟨⟨body, after⟩, hclose⟩ := Option.isSome_iff_exists.mp
      (Option.isNone_eq_false_iff.mp hagree)
    have hafter : afterBlock ('"' :: '"' :: '"' :: behind) = some after := by
      rw [afterBlock, hclose]
      rfl
    rw [tooLong_cons, hafter] at h
    rw [scan_fence, hclose]
    exact h
  · have hline : ∀ behind, cs ≠ '"' :: '"' :: behind := fun behind heq => hfence ⟨behind, heq⟩
    have hblock : afterBlock ('"' :: cs) = none := by
      unfold afterBlock
      split
      · rename_i behind heq
        exact absurd (List.cons.inj heq).2 (hline _)
      · rfl
    have hskip := tooLong_opener (.inr rfl) hblock h
    rw [strays.eq_def] at hagree
    split at hagree
    · rename_i behind heq
      exact absurd (List.cons.inj heq).2 (hline _)
    · rename_i heq
      obtain rfl := (List.cons.inj heq).2
      rw [scan_quote hline]
      cases hclose : closeLine false cs with
      | none =>
          rw [hclose] at hagree
          cases hagree
      | some closed =>
          obtain ⟨body, after⟩ := closed
          rw [hclose, Option.all_some, decide_eq_false_iff_not] at hagree
          obtain ⟨rfl, -⟩ := closeLine_eq_some hclose
          rwa [skipInner_closed hclose hagree] at hskip
    · rename_i heq
      cases (List.cons.inj heq).1
    · rename_i hnot _
      exact absurd rfl (hnot cs)

theorem tooLong_step (hagree : strays (c :: cs) = false) (h : tooLong (c :: cs) n = false) :
    ∃ m, tooLong (scan identifiers c cs).2 m = false := by
  by_cases hcomment : c = '#'
  · subst hcomment
    exact tooLong_of_comment hagree h
  by_cases hquote : c = '"'
  · subst hquote
    exact tooLong_of_quote hagree h
  obtain ⟨slice, hslice, -, hplain⟩ := scan_plain hcomment hquote
  rw [hslice] at h
  obtain ⟨m, -, hm⟩ := exists_tooLong hplain h
  exact ⟨m, hm⟩

theorem runChars_length {slice : List Char} (hslice : ∀ c ∈ slice, separates c = false) {m : Nat}
    (h : runChars n slice = some m) : slice = [] ∨ n + slice.length ≤ maxTokenChars := by
  induction slice generalizing n with
  | nil => exact .inl rfl
  | cons c slice ih =>
      rw [runChars, hslice c List.mem_cons_self, if_neg Bool.false_ne_true] at h
      split_ifs at h with hle
      rw [List.length_cons]
      rcases ih (fun d hd => hslice d (List.mem_cons_of_mem _ hd)) h with rfl | hlength
      · exact .inr hle
      · exact .inr (by omega)

theorem length_of_nameAt {name : List Char} (hname : nameAt identifiers text = some name)
    (h : tooLong text n = false) : name.length ≤ maxTokenChars := by
  cases text with
  | nil => cases hname
  | cons c cs =>
      rw [nameAt] at hname
      split_ifs at hname with hdigit hstart
      have hslice : ∀ d ∈ c :: cs.takeWhile identifiers.isContinue, separates d = false :=
        List.forall_mem_cons.mpr ⟨separates_of_isStart hstart,
          fun d hd => identifiers.plain d (List.mem_takeWhile_imp hd)⟩
      have hplain : ∀ d ∈ c :: cs.takeWhile identifiers.isContinue, d ≠ '#' ∧ d ≠ '"' :=
        fun d hd => ⟨ne_of_separates (by decide) (hslice d hd),
          ne_of_separates (by decide) (hslice d hd)⟩
      rw [← List.takeWhile_append_dropWhile (p := identifiers.isContinue) (l := cs),
        ← List.cons_append] at h
      obtain ⟨m, hrun, -⟩ := exists_tooLong hplain h
      cases hname
      have := (runChars_length hslice hrun).resolve_left (List.cons_ne_nil _ _)
      omega

theorem Reached.agrees (hreached : Reached identifiers src text) (h : tooLong src n = false) :
    (∃ stray, Reached identifiers src stray ∧ strays stray = true ∧
      Reached identifiers stray text) ∨ ∃ m, tooLong text m = false := by
  induction hreached generalizing n with
  | here text => exact .inr ⟨n, h⟩
  | @later c cs text hrest ih =>
      cases hagree : strays (c :: cs) with
      | true => exact .inl ⟨c :: cs, .here _, hagree, .later hrest⟩
      | false =>
          obtain ⟨m, hm⟩ := @tooLong_step identifiers c cs n hagree h
          rcases ih hm with ⟨stray, hstray, hstrays, hbehind⟩ | hshort
          · exact .inl ⟨stray, .later hstray, hstrays, hbehind⟩
          · exact .inr hshort

end Strays

section Words

variable {identifiers : Identifiers} {c : Char} {cs src text : List Char}

theorem Reached.trans {middle : List Char} (h : Reached identifiers src middle)
    (hrest : Reached identifiers middle text) : Reached identifiers src text := by
  induction h with
  | here _ => exact hrest
  | later _ ih => exact .later (ih hrest)

theorem length_scan (identifiers : Identifiers) (c : Char) (cs : List Char) :
    (scan identifiers c cs).2.length ≤ cs.length := by
  by_cases hcomment : c = '#'
  · subst hcomment
    exact List.length_dropWhile_le _ _
  by_cases hquote : c = '"'
  · subst hquote
    by_cases hfence : ∃ behind, cs = '"' :: '"' :: behind
    · obtain ⟨behind, rfl⟩ := hfence
      rw [scan_fence]
      cases hclose : closeBlock behind with
      | none =>
          simp only [List.length_cons]
          omega
      | some closed =>
          have := length_closeBlock hclose
          simp only [List.length_cons]
          omega
    · rw [scan_quote (fun behind heq => hfence ⟨behind, heq⟩)]
      cases hclose : closeLine false cs with
      | none => exact le_rfl
      | some closed =>
          obtain ⟨hcs, -⟩ := closeLine_eq_some hclose
          have := congrArg List.length hcs
          rw [List.length_append, List.length_cons] at this
          show closed.2.length ≤ cs.length
          omega
  obtain ⟨slice, hslice, hne, -⟩ := @scan_plain identifiers c cs hcomment hquote
  have hlength := congrArg List.length hslice
  have hpos := List.length_pos_of_ne_nil hne
  rw [List.length_append, List.length_cons] at hlength
  omega

theorem word_mem_matchedWithin {fuel : Nat} (hfuel : src.length ≤ fuel) {word : List Char} :
    (∃ slice, (some (.word word), slice) ∈ matchedWithin identifiers fuel src) ↔
      ∃ text, Reached identifiers src text ∧ nameAt identifiers text = some word := by
  induction fuel generalizing src with
  | zero =>
      obtain rfl := List.length_eq_zero_iff.mp (Nat.le_zero.mp hfuel)
      constructor
      · rintro ⟨slice, hmem⟩
        cases hmem
      · rintro ⟨text, hreached, hname⟩
        cases hreached
        cases hname
  | succ fuel ih =>
      cases src with
      | nil =>
          constructor
          · rintro ⟨slice, hmem⟩
            cases hmem
          · rintro ⟨text, hreached, hname⟩
            cases hreached
            cases hname
      | cons c cs =>
          have hlength := length_scan identifiers c cs
          rw [List.length_cons] at hfuel
          have hrest := @ih (scan identifiers c cs).2 (by omega)
          rw [matchedWithin]
          constructor
          · rintro ⟨slice, hmem⟩
            rcases List.mem_cons.mp hmem with hhead | hmem
            · exact ⟨c :: cs, .here _, scan_name.mp (Prod.mk.inj hhead).1.symm⟩
            · obtain ⟨text, hreached, hname⟩ := hrest.mp ⟨slice, hmem⟩
              exact ⟨text, .later hreached, hname⟩
          · rintro ⟨text, hreached, hname⟩
            cases hreached with
            | here _ =>
                rw [scan_name.mpr hname]
                exact ⟨_, List.mem_cons_self⟩
            | later hreached =>
                obtain ⟨slice, hmem⟩ := hrest.mpr ⟨text, hreached, hname⟩
                exact ⟨slice, List.mem_cons_of_mem _ hmem⟩

/-- Without a run that is too long the words of a text are short, if the names behind each
stray opener are. -/
theorem words_short_iff (hnone : overLongRun src = none) :
    (∀ word slice, (some (.word word), slice) ∈ matched identifiers src →
        word.length ≤ maxTokenChars) ↔
      ∀ stray text name, Reached identifiers src stray → strays stray = true →
        Reached identifiers stray text → nameAt identifiers text = some name →
          name.length ≤ maxTokenChars := by
  constructor
  · intro h stray text name hstray _ htext hname
    obtain ⟨slice, hmem⟩ :=
      (word_mem_matchedWithin (Nat.le_refl _)).mpr ⟨text, hstray.trans htext, hname⟩
    exact h name slice hmem
  · intro h word slice hmem
    obtain ⟨text, hreached, hname⟩ :=
      (word_mem_matchedWithin (Nat.le_refl _)).mp ⟨slice, hmem⟩
    have hshort : tooLong src 0 = false := by
      rw [← overLongRun_isSome, hnone]
      rfl
    rcases hreached.agrees hshort with ⟨stray, hstray, hstrays, hbehind⟩ | ⟨m, hm⟩
    · exact h stray text word hstray hstrays hbehind hname
    · exact length_of_nameAt hname hm

theorem words_short_comment : overLongRun "view#x".toList = none ∧
    ∀ word slice, (some (.word word), slice) ∈ matched asciiIdentifiers "view#x".toList →
      word.length ≤ maxTokenChars := by
  have hnone : overLongRun "view#x".toList = none := by decide +kernel
  refine ⟨hnone, (words_short_iff hnone).mpr ?_⟩
  intro stray text name hstray hstrays _ _
  rcases hstray with _ | hstray
  · cases hstrays
  rcases hstray with _ | hstray
  · cases hstrays
  rcases hstray with _ | _
  cases hstrays

theorem words_short_unclosed : overLongRun ('"' :: List.replicate 1025 'z') = none ∧
    (some (.word (List.replicate 1025 'z')), List.replicate 1025 'z') ∈
      matched asciiIdentifiers ('"' :: List.replicate 1025 'z') ∧
    ¬ (List.replicate 1025 'z').length ≤ maxTokenChars := by
  decide +kernel

end Words

end Lexer
end Zdeceptron
