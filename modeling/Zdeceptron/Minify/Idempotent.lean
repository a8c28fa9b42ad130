import Zdeceptron.Minify.Rescan
import Mathlib.Data.List.Chain

/-!
# Minifying a script twice

What the script scanner writes is scanned again as it was written: its gaps are the gaps of
the source, its tokens stand against what they stood against, and its pragmas run to the
breaks they ran to.  There is one exception.  A pragma is written without the gap before it,
and written against a division sign it reads as a plain comment, which the second scan drops.

* `javascript_idempotent_iff`: when minifying twice is minifying once.
-/

namespace Zdeceptron
namespace Minify

open Library
open Library.Utf8 (lead)

section Steps

variable {mode : Mode} {c : Char} {rest : List Char}

def Mode.InText (mode : Mode) : Prop := mode.stack.head? = some .text

instance : Decidable mode.InText := inferInstanceAs (Decidable (_ = _))

def Mode.settled (mode : Mode) : Mode := { mode with gap := .none }

structure Coded (mode : Mode) (c : Char) (rest : List Char) : Prop where
  outside : ¬mode.InText
  space : ¬(c = ' ' ∨ c = '\t')
  newline : ¬(c = '\n' ∨ c = '\r')
  comment : ∀ d, rest.head? = some d → ¬(c = '/' ∧ (d = '/' ∨ d = '*'))

theorem Mode.step_text (htext : mode.InText) : mode.step c rest = mode.text c rest :=
  if_pos htext

theorem Mode.step_space (htext : ¬mode.InText) (hspace : c = ' ' ∨ c = '\t') :
    mode.step c rest = ⟨{ mode with gap := mode.gap.max .space }, [c], [], rest⟩ :=
  (if_neg htext).trans (if_pos hspace)

theorem Mode.step_newline (htext : ¬mode.InText) (hspace : ¬(c = ' ' ∨ c = '\t'))
    (hbreak : c = '\n' ∨ c = '\r') :
    mode.step c rest = ⟨{ mode with gap := .newline }, [c], [], rest⟩ :=
  (if_neg htext).trans ((if_neg hspace).trans (if_pos hbreak))

theorem Mode.step_other (htext : ¬mode.InText) (hspace : ¬(c = ' ' ∨ c = '\t'))
    (hbreak : ¬(c = '\n' ∨ c = '\r')) :
    mode.step c rest =
      match rest with
      | [] => mode.code c []
      | d :: tail =>
          if c = '/' ∧ d = '/' then mode.lineComment c (d :: tail)
          else if c = '/' ∧ d = '*' then mode.blockComment c d tail
          else mode.code c (d :: tail) :=
  (if_neg htext).trans ((if_neg hspace).trans (if_neg hbreak))

theorem Coded.step (h : Coded mode c rest) : mode.step c rest = mode.code c rest := by
  rw [Mode.step_other h.outside h.space h.newline]
  cases rest with
  | nil => rfl
  | cons d tail =>
      have hcomment := h.comment d rfl
      have hline : ¬(c = '/' ∧ d = '/') := fun hd => hcomment ⟨hd.1, .inl hd.2⟩
      have hblock : ¬(c = '/' ∧ d = '*') := fun hd => hcomment ⟨hd.1, .inr hd.2⟩
      dsimp only
      rw [if_neg hline, if_neg hblock]

structure Dropped (mode : Mode) (c : Char) (rest : List Char) (gap : Gap) : Prop where
  outside : ¬mode.InText
  kept : (mode.step c rest).kept = []
  mode_eq : (mode.step c rest).mode = { mode with gap := gap }
  gap_or : gap ≠ .none ∨
    gap = mode.gap ∧ ∀ e, (mode.step c rest).rest.head? = some e → e = '\n'
  newline : mode.gap = .newline → gap = .newline

structure Pragma (mode : Mode) (c : Char) (rest : List Char) : Prop where
  outside : ¬mode.InText
  opens : c = '/' ∧ ∃ tail, rest = '/' :: '#' :: tail
  step_eq : mode.step c rest =
    ⟨{ mode with gap := .newline, fresh := false }, c :: line rest,
      [⟨[], .pragma, c :: line rest⟩], afterLine rest⟩

theorem Gap.max_space_ne_none (gap : Gap) : gap.max .space ≠ .none := by
  cases gap <;> exact Gap.noConfusion

theorem afterLine_head (rest : List Char) (e : Char) (he : (afterLine rest).head? = some e) :
    e = '\n' := by
  have hnot := List.head?_dropWhile_not (fun c => decide (c ≠ '\n')) rest
  rw [show (rest.dropWhile fun c => decide (c ≠ '\n')).head? = some e from he] at hnot
  simpa using hnot

theorem step_cases (mode : Mode) (c : Char) (rest : List Char) :
    (mode.InText ∧ mode.step c rest = mode.text c rest) ∨ (∃ gap, Dropped mode c rest gap) ∨
      Pragma mode c rest ∨ Coded mode c rest := by
  by_cases htext : mode.InText
  · exact .inl ⟨htext, if_pos htext⟩
  · by_cases hspace : c = ' ' ∨ c = '\t'
    · have hstep : mode.step c rest = ⟨{ mode with gap := mode.gap.max .space }, [c], [], rest⟩ :=
        Mode.step_space htext hspace
      refine .inr (.inl ⟨mode.gap.max .space, htext, by rw [hstep], by rw [hstep],
        .inl (Gap.max_space_ne_none _), fun hgap => by rw [hgap]; rfl⟩)
    · by_cases hbreak : c = '\n' ∨ c = '\r'
      · have hstep : mode.step c rest = ⟨{ mode with gap := .newline }, [c], [], rest⟩ :=
          Mode.step_newline htext hspace hbreak
        exact .inr (.inl ⟨.newline, htext, by rw [hstep], by rw [hstep], .inl Gap.noConfusion,
          fun _ => rfl⟩)
      · cases rest with
        | nil => exact .inr (.inr (.inr ⟨htext, hspace, hbreak, nofun⟩))
        | cons d tail =>
            by_cases hline : c = '/' ∧ d = '/'
            · have hstep : mode.step c (d :: tail) = mode.lineComment c (d :: tail) := by
                rw [Mode.step_other htext hspace hbreak]
                exact if_pos hline
              by_cases hhash : tail.head? = some '#'
              · obtain ⟨tail', rfl⟩ : ∃ tail', tail = '#' :: tail' := by
                  cases tail with
                  | nil => cases hhash
                  | cons e tail' => exact ⟨tail', by rw [Option.some.inj hhash]⟩
                refine .inr (.inr (.inl ⟨htext, ⟨hline.1, tail', by rw [hline.2]⟩, ?_⟩))
                rw [hstep]
                exact if_pos hhash
              · have hdrop : mode.step c (d :: tail) =
                    ⟨mode, c :: line (d :: tail), [], afterLine (d :: tail)⟩ := by
                  rw [hstep]
                  exact if_neg hhash
                refine .inr (.inl ⟨mode.gap, htext, by rw [hdrop], by rw [hdrop], .inr ⟨rfl, ?_⟩, id⟩)
                rw [hdrop]
                exact afterLine_head (d :: tail)
            · by_cases hblock : c = '/' ∧ d = '*'
              · have hstep : mode.step c (d :: tail) = mode.blockComment c d tail := by
                  rw [Mode.step_other htext hspace hbreak]
                  exact (if_neg hline).trans (if_pos hblock)
                refine .inr (.inl ⟨_, htext, by rw [hstep]; rfl, by rw [hstep]; rfl, .inl ?_, ?_⟩)
                · split_ifs
                  · exact Gap.noConfusion
                  · exact Gap.max_space_ne_none _
                · intro hgap
                  rw [hgap]
                  split_ifs <;> rfl
              · refine .inr (.inr (.inr ⟨htext, hspace, hbreak, ?_⟩))
                rintro e he ⟨rfl, hcomment⟩
                obtain rfl : d = e := Option.some.inj he
                rcases hcomment with rfl | rfl
                · exact hline ⟨rfl, rfl⟩
                · exact hblock ⟨rfl, rfl⟩

theorem Dropped.pieces {gap : Gap} (h : Dropped mode c rest gap) :
    pieces mode (c :: rest) = pieces { mode with gap := gap } (mode.step c rest).rest := by
  rw [pieces_cons, h.kept, h.mode_eq, List.nil_append]

theorem Pragma.pieces (h : Pragma mode c rest) :
    pieces mode (c :: rest) = ⟨[], .pragma, c :: line rest⟩ ::
      pieces { mode with gap := .newline, fresh := false } (afterLine rest) := by
  rw [pieces_cons, h.step_eq]
  rfl

def Mode.piece (mode : Mode) (c : Char) (rest : List Char) : Piece where
  gap := if mode.fresh = true then [] else mode.gap.written
  kind := (mode.token c rest).kind
  text := (mode.token c rest).text

theorem Coded.pieces (h : Coded mode c rest) :
    pieces mode (c :: rest) = mode.piece c rest ::
      pieces (mode.code c rest).mode (mode.token c rest).rest := by
  rw [pieces_cons, h.step]
  rfl

theorem Coded.again {y : List Char} (h : Coded mode c rest)
    (hy : ∀ d, y.head? = some d → ¬(c = '/' ∧ (d = '/' ∨ d = '*'))) : Coded mode c y :=
  ⟨h.outside, h.space, h.newline, hy⟩

theorem Coded.read_gap (h : Coded mode c rest) :
    Minify.pieces mode.settled ((mode.piece c rest).gap ++ c :: rest) =
      Minify.pieces mode (c :: rest) := by
  have hsettled : Coded mode.settled c rest := ⟨h.outside, h.space, h.newline, h.comment⟩
  cases hfresh : mode.fresh with
  | true =>
      have hgap : (mode.piece c rest).gap = [] := if_pos hfresh
      rw [hgap, List.nil_append, h.pieces, hsettled.pieces]
      simp only [Mode.piece, Mode.settled, hfresh, if_true]
      rfl
  | false =>
      have hgap : (mode.piece c rest).gap = mode.gap.written := by
        simp [Mode.piece, hfresh]
      have hmode (gap : Gap) (hm : mode.gap = gap) : { mode.settled with gap := gap } = mode := by
        rw [← hm]
        rfl
      rw [hgap]
      cases hm : mode.gap with
      | none =>
          rw [show mode.settled = mode from hmode .none hm]
          rfl
      | space =>
          have hstep : mode.settled.step ' ' (c :: rest) =
              ⟨{ mode.settled with gap := .space }, [' '], [], c :: rest⟩ := by
            rw [Mode.step_space hsettled.outside (.inl rfl)]
            rfl
          rw [Gap.written, List.singleton_append, pieces_cons, hstep, List.nil_append,
            hmode .space hm]
      | newline =>
          have hstep : mode.settled.step '\n' (c :: rest) =
              ⟨{ mode.settled with gap := .newline }, ['\n'], [], c :: rest⟩ :=
            Mode.step_newline hsettled.outside (by decide) (.inl rfl)
          rw [Gap.written, List.singleton_append, pieces_cons, hstep, List.nil_append,
            hmode .newline hm]

end Steps

section Output

variable (mode : Mode)

theorem text_kept (c : Char) (rest : List Char) :
    ∃ more, (mode.text c rest).kept = [⟨[], .text, c :: more⟩] := by
  unfold Mode.text
  cases rest <;> dsimp only <;> split_ifs <;> exact ⟨_, rfl⟩

theorem token_text (c : Char) (rest : List Char) :
    ∃ more, (mode.token c rest).text = c :: more := by
  unfold Mode.token
  split_ifs <;> exact ⟨_, rfl⟩

theorem token_kind (c : Char) (rest : List Char) :
    (mode.token c rest).kind = .code ∨
      (mode.token c rest).kind = .division ∧ c = '/' ∧ (mode.token c rest).text = ['/'] ∧
        (mode.token c rest).rest = rest := by
  unfold Mode.token
  split_ifs <;> first
    | exact .inl rfl
    | exact .inr ⟨rfl, ‹_›, congrArg (fun c => [c]) ‹c = '/'›, rfl⟩

theorem pieces_head {mode : Mode} (hfresh : mode.fresh = false) (text : List Char) {e : Char}
    (he : (written (pieces mode text)).head? = some e) :
    (text.head? = some e ∧ (mode.gap = .none ∨ mode.InText)) ∨ e = ' ' ∨ e = '\n' ∨
      (e = '/' ∧ ∃ p ps, pieces mode text = p :: ps ∧ p.kind = .pragma) := by
  induction hn : text.length using Nat.strongRecOn generalizing mode text with
  | ind n ih =>
      subst hn
      cases text with
      | nil =>
          rw [pieces] at he
          cases he
      | cons c rest =>
          rcases step_cases mode c rest with ⟨htext, hstep⟩ | ⟨gap, hdrop⟩ | hpragma | hcoded
          · obtain ⟨more, hkept⟩ := text_kept mode c rest
            rw [pieces_cons, hstep, hkept] at he
            exact .inl ⟨he, .inr htext⟩
          · rw [hdrop.pieces] at he ⊢
            have hlater := ih _ (mode.step_shorter c rest)
              (show ({ mode with gap := gap } : Mode).fresh = false from hfresh) _ he rfl
            rcases hlater with ⟨hhead, hgap | htext⟩ | hlater
            · rcases hdrop.gap_or with hne | ⟨-, hbreak⟩
              · exact absurd hgap hne
              · exact .inr (.inr (.inl (hbreak e hhead)))
            · exact absurd htext hdrop.outside
            · exact .inr hlater
          · rw [hpragma.pieces] at he ⊢
            obtain ⟨hslash, -⟩ := hpragma.opens
            have hec : c = e := Option.some.inj he
            exact .inr (.inr (.inr ⟨hec.symm.trans hslash, _, _, rfl, rfl⟩))
          · obtain ⟨more, hmore⟩ := token_text mode c rest
            have hgap : (mode.piece c rest).gap = mode.gap.written := by
              simp [Mode.piece, hfresh]
            rw [hcoded.pieces, written, List.flatMap_cons, Piece.written, hgap,
              show (mode.piece c rest).text = c :: more from hmore] at he
            cases hm : mode.gap with
            | none =>
                rw [hm] at he
                exact .inl ⟨he, .inl rfl⟩
            | space =>
                rw [hm] at he
                exact .inr (.inl (Option.some.inj he).symm)
            | newline =>
                rw [hm] at he
                exact .inr (.inr (.inl (Option.some.inj he).symm))

theorem pragma_written {mode : Mode} {text : List Char} {p : Piece} {ps : List Piece}
    (h : pieces mode text = p :: ps) (hkind : p.kind = .pragma) :
    ∃ more, p.written = '/' :: '/' :: '#' :: more := by
  induction hn : text.length using Nat.strongRecOn generalizing mode text with
  | ind n ih =>
      subst hn
      cases text with
      | nil =>
          rw [pieces] at h
          cases h
      | cons c rest =>
          rcases step_cases mode c rest with ⟨-, hstep⟩ | ⟨gap, hdrop⟩ | hpragma | hcoded
          · obtain ⟨more, hkept⟩ := text_kept mode c rest
            rw [pieces_cons, hstep, hkept] at h
            cases (List.cons.inj h).1
            cases hkind
          · rw [hdrop.pieces] at h
            exact ih _ (mode.step_shorter c rest) h rfl
          · rw [hpragma.pieces] at h
            obtain ⟨rfl, tail, rfl⟩ := hpragma.opens
            cases (List.cons.inj h).1
            exact ⟨line tail, rfl⟩
          · rw [hcoded.pieces] at h
            cases (List.cons.inj h).1
            rcases token_kind mode c rest with hcode | ⟨hdivision, -⟩
            · exact absurd (hcode.symm.trans hkind) Kind.noConfusion
            · exact absurd (hdivision.symm.trans hkind) Kind.noConfusion

def Gap.room : Gap → Nat
  | .none => 0
  | _ => 1

theorem Gap.room_le (gap : Gap) : gap.room ≤ 1 := by
  cases gap <;> decide

theorem Gap.written_length (gap : Gap) : gap.written.length = gap.room := by
  cases gap <;> rfl

theorem pieces_newline {mode : Mode} (htext : ¬mode.InText) (rest : List Char) :
    pieces mode ('\n' :: rest) = pieces { mode with gap := .newline } rest := by
  rw [pieces_cons, Mode.step_newline htext (by decide) (.inl rfl), List.nil_append]

theorem afterLine_cases (rest : List Char) :
    afterLine rest = [] ∨ ∃ tail, afterLine rest = '\n' :: tail := by
  cases h : afterLine rest with
  | nil => exact .inl rfl
  | cons e tail =>
      obtain rfl := afterLine_head rest e (by rw [h]; rfl)
      exact .inr ⟨tail, rfl⟩

theorem text_gap (c : Char) (rest : List Char) :
    (mode.text c rest).mode.gap = mode.gap := by
  unfold Mode.text
  cases rest <;> dsimp only <;> split_ifs <;> rfl

theorem text_written (c : Char) (rest : List Char) :
    written (mode.text c rest).kept = (mode.text c rest).taken := by
  unfold Mode.text
  cases rest <;> dsimp only <;> split_ifs <;> rfl

theorem written_length_le (text : List Char) :
    (written (pieces mode text)).length ≤ text.length + mode.gap.room := by
  induction hn : text.length using Nat.strongRecOn generalizing mode text with
  | ind n ih =>
      subst hn
      cases text with
      | nil =>
          rw [pieces]
          exact Nat.zero_le _
      | cons c rest =>
          have hsplit := congrArg List.length (mode.step_append c rest)
          rw [List.length_append] at hsplit
          have hlater := ih _ (mode.step_shorter c rest) (mode.step c rest).mode _ rfl
          rcases step_cases mode c rest with ⟨htext, hstep⟩ | ⟨gap, hdrop⟩ | hpragma | hcoded
          · rw [pieces_cons, written_append, List.length_append]
            rw [hstep] at hlater hsplit ⊢
            rw [text_gap] at hlater
            rw [text_written]
            omega
          · have hroom := Gap.room_le gap
            have hshorter := mode.step_shorter c rest
            rw [hdrop.mode_eq] at hlater
            rw [hdrop.pieces, List.length_cons]
            exact hlater.trans (by dsimp only; omega)
          · have hbreak : (written (pieces { mode with gap := .newline, fresh := false }
                (afterLine rest))).length ≤ (afterLine rest).length := by
              rcases afterLine_cases rest with hnil | ⟨tail, htail⟩
              · rw [hnil, pieces]
                exact le_rfl
              · have hle := mode.step_shorter c rest
                rw [hpragma.step_eq] at hle
                dsimp only at hle
                rw [htail, List.length_cons] at hle
                rw [htail,
                  @pieces_newline { mode with gap := .newline, fresh := false } hpragma.outside]
                exact ih tail.length (by rw [List.length_cons]; omega) _ tail rfl
            rw [hpragma.step_eq] at hsplit
            rw [hpragma.pieces, written, List.flatMap_cons, List.length_append]
            exact (Nat.add_le_add_left hbreak _).trans (by
              simp only [Piece.written, List.nil_append]
              dsimp only at hsplit
              omega)
          · have hpiece : (mode.piece c rest).written.length ≤
                mode.gap.room + (mode.token c rest).text.length := by
              rw [Piece.written, List.length_append]
              refine Nat.add_le_add_right ?_ _
              unfold Mode.piece
              dsimp only
              split_ifs
              · exact Nat.zero_le _
              · exact (Gap.written_length mode.gap).le
            rw [hcoded.step] at hsplit hlater
            rw [hcoded.pieces, written, List.flatMap_cons, List.length_append]
            have hsum : (mode.token c rest).text.length + (mode.token c rest).rest.length =
                (c :: rest).length := hsplit
            have hlater' : (written (pieces (mode.code c rest).mode
                (mode.token c rest).rest)).length ≤ (mode.token c rest).rest.length := hlater
            rw [written] at hlater'
            omega

end Output

section Echoes

def Apart (ps : List Piece) : Prop :=
  ps.IsChain (fun p q => ¬(p.kind = .division ∧ q.kind = .pragma))

theorem apart_cons {p : Piece} {ps : List Piece} :
    Apart (p :: ps) ↔
      (∀ q, ps.head? = some q → ¬(p.kind = .division ∧ q.kind = .pragma)) ∧ Apart ps := by
  cases ps with
  | nil => simp [Apart]
  | cons q ps => simp [Apart, List.isChain_cons_cons]

/-- The second scan has written `w` where the first one wrote some pieces: the same, or at
least two characters less. -/
def Echoes (ps : List Piece) (tail w : List Char) : Prop :=
  (Apart ps → w = written ps ∨ w = written ps ++ tail) ∧
    (¬Apart ps → w.length + 2 ≤ (written ps ++ tail).length)

theorem written_cons (p : Piece) (ps : List Piece) :
    written (p :: ps) = p.written ++ written ps := List.flatMap_cons

theorem Echoes.prepend {ps ps' : List Piece} {front tail w : List Char} (h : Echoes ps tail w)
    (hwritten : written ps' = front ++ written ps) (hapart : Apart ps' ↔ Apart ps) :
    Echoes ps' tail (front ++ w) := by
  unfold Echoes
  rw [hapart, hwritten]
  refine ⟨fun hps => ?_, fun hps => ?_⟩
  · rcases h.1 hps with heq | heq
    · exact .inl (congrArg (front ++ ·) heq)
    · rw [heq, List.append_assoc]
      exact .inr rfl
  · have hle := h.2 hps
    simp only [List.length_append] at hle ⊢
    omega

theorem Echoes.cons {p : Piece} {ps : List Piece} {tail w : List Char} (h : Echoes ps tail w)
    (hp : ∀ q, ps.head? = some q → ¬(p.kind = .division ∧ q.kind = .pragma)) :
    Echoes (p :: ps) tail (p.written ++ w) := by
  refine h.prepend (written_cons p ps) ?_
  rw [apart_cons]
  exact and_iff_right hp

variable {tail : List Char}

theorem ending_written (mode : Mode) (htail : Ending tail) :
    written (pieces mode tail) = [] ∨ written (pieces mode tail) = tail := by
  rcases htail with rfl | rfl
  · rw [pieces]
    exact .inl rfl
  · by_cases htext : mode.InText
    · right
      have hstep : mode.step '\n' [] =
          ⟨{ mode with fresh := false }, ['\n'], [⟨[], .text, ['\n']⟩], []⟩ := by
        rw [show mode.step '\n' [] = mode.text '\n' [] from if_pos htext]
        rfl
      rw [pieces_cons, hstep, pieces]
      rfl
    · left
      rw [pieces_newline htext, pieces]
      rfl

theorem echoes_nil (mode : Mode) (htail : Ending tail) :
    Echoes [] tail (written (pieces mode tail)) := by
  refine ⟨fun _ => ending_written mode htail, fun hnot => ?_⟩
  exact absurd List.isChain_nil hnot

theorem text_head {mode : Mode} (htext : mode.InText) (d : Char) (rest tail : List Char) :
    ∃ more, written (pieces mode (d :: rest)) ++ tail = d :: more := by
  obtain ⟨more, hkept⟩ := text_kept mode d rest
  rw [pieces_cons, show mode.step d rest = mode.text d rest from if_pos htext, hkept,
    written_append]
  exact ⟨_, rfl⟩

theorem text_tick (mode : Mode) (rest : List Char) :
    mode.text '`' rest =
      ⟨{ mode with stack := mode.stack.tail, previous := '`'.toNat, fresh := false }, ['`'],
        [⟨[], .text, ['`']⟩], rest⟩ := by
  cases rest <;> rfl

variable {mode : Mode}

theorem text_again (htext : mode.InText) (c : Char) (rest : List Char) (htail : Ending tail) :
    (mode.settled.text c ((mode.text c rest).taken.tail ++
          (written (pieces (mode.text c rest).mode (mode.text c rest).rest) ++ tail)) =
        { mode.text c rest with
          mode := (mode.text c rest).mode.settled
          rest := written (pieces (mode.text c rest).mode (mode.text c rest).rest) ++ tail }) ∨
      rest = [] ∧ c = '\\' ∧ tail = ['\n'] := by
  cases rest with
  | nil =>
      by_cases hopen : c = '\\' ∧ tail = ['\n']
      · exact .inr ⟨rfl, hopen⟩
      · left
        rcases htail with rfl | rfl
        · by_cases htick : c = '`' <;> simp [Mode.text, htick, pieces, written, Mode.settled]
        · have hslash : c ≠ '\\' := fun h => hopen ⟨h, rfl⟩
          by_cases htick : c = '`' <;>
            simp [Mode.text, htick, hslash, pieces, written, Mode.settled]
  | cons d rest =>
      left
      by_cases hslash : c = '\\'
      · simp [Mode.text, hslash, Mode.settled]
      · by_cases htick : c = '`'
        · subst htick
          simp only [text_tick, List.tail_cons, List.nil_append]
          rfl
        · by_cases hsub : c = '$' ∧ d = '{'
          · obtain ⟨rfl, rfl⟩ := hsub
            simp [Mode.text, Mode.settled]
          · have hlone : mode.text c (d :: rest) =
                ⟨{ mode with fresh := false }, [c], [⟨[], .text, [c]⟩], d :: rest⟩ := by
              simp [Mode.text, hslash, htick, hsub]
            obtain ⟨more, hmore⟩ := @text_head { mode with fresh := false } htext d rest tail
            rw [hlone]
            simp only [List.tail_cons, List.nil_append, hmore]
            simp [Mode.text, hslash, htick, hsub, Mode.settled]

theorem echoes_text (htext : mode.InText) (c : Char) (rest : List Char) (htail : Ending tail)
    (ih : Echoes (pieces (mode.step c rest).mode (mode.step c rest).rest) tail
      (written (pieces (mode.step c rest).mode.settled
        (written (pieces (mode.step c rest).mode (mode.step c rest).rest) ++ tail)))) :
    Echoes (pieces mode (c :: rest)) tail
      (written (pieces mode.settled (written (pieces mode (c :: rest)) ++ tail))) := by
  have hstep : mode.step c rest = mode.text c rest := if_pos htext
  obtain ⟨more, hkept⟩ := text_kept mode c rest
  have htaken : (mode.text c rest).taken = c :: more := by
    rw [← text_written, hkept]
    simp [written, Piece.written]
  rw [hstep] at ih
  rw [pieces_cons, hstep, written_append, text_written, htaken, List.append_assoc,
    List.cons_append, hkept]
  rcases text_again htext c rest htail with hagain | ⟨rfl, rfl, rfl⟩
  · rw [htaken, List.tail_cons] at hagain
    have hsecond := (show mode.settled.step c _ = _ from Mode.step_text htext).trans hagain
    rw [pieces_cons, hsecond, hkept, List.singleton_append, List.singleton_append, written_cons]
    exact ih.cons (fun q _ hkind => Kind.noConfusion hkind.1)
  · -- a backslash at the end takes the line break that is added
    have hsecond : mode.settled.step '\\' ['\n'] =
        ⟨{ mode.settled with fresh := false }, ['\\', '\n'], [⟨[], .text, ['\\', '\n']⟩], []⟩ := by
      rw [show mode.settled.step '\\' ['\n'] = _ from Mode.step_text htext]
      rfl
    obtain rfl : more = [] := (List.cons.inj htaken).2.symm
    rw [show (mode.text '\\' []).rest = [] from rfl, pieces, List.append_nil]
    show Echoes [⟨[], .text, ['\\']⟩] ['\n'] (written (pieces mode.settled ['\\', '\n']))
    rw [pieces_cons, hsecond, pieces]
    refine ⟨fun _ => .inr rfl, fun hnot => ?_⟩
    exact absurd (List.isChain_singleton _) hnot

theorem pragmas {mode : Mode} (htext : ¬mode.InText) (hgap : mode.gap = .newline)
    (hfresh : mode.fresh = false) (text : List Char) :
    ∃ front text', text'.length ≤ text.length ∧ '\n' ∉ front ∧
      written (pieces mode text) = front ++ written (pieces mode text') ∧
      (written (pieces mode text') = [] ∨ ∃ more, written (pieces mode text') = '\n' :: more) ∧
      (Apart (pieces mode text) ↔ Apart (pieces mode text')) := by
  induction hn : text.length using Nat.strongRecOn generalizing text with
  | ind n ih =>
      subst hn
      cases text with
      | nil =>
          refine ⟨[], [], le_rfl, List.not_mem_nil, rfl, .inl ?_, Iff.rfl⟩
          rw [pieces]
          rfl
      | cons c rest =>
          have hshorter := mode.step_shorter c rest
          rcases step_cases mode c rest with ⟨hin, -⟩ | ⟨gap, hdrop⟩ | hpragma | hcoded
          · exact absurd hin htext
          · have hsame : ({ mode with gap := gap } : Mode) = mode := by
              rw [hdrop.newline hgap, ← hgap]
            obtain ⟨front, text', hle, hrest⟩ := ih _ hshorter _ rfl
            rw [hdrop.pieces, hsame]
            exact ⟨front, text', by rw [List.length_cons]; omega, hrest⟩
          · have hsame : ({ mode with gap := .newline, fresh := false } : Mode) = mode := by
              rw [← hgap, ← hfresh]
            rw [hpragma.step_eq] at hshorter
            obtain ⟨front, text', hle, hfront, hwritten, hbreak, hapart⟩ := ih _ hshorter _ rfl
            dsimp only at hle hwritten hapart hshorter
            rw [hpragma.pieces, hsame, written_cons, hwritten, apart_cons, hapart]
            refine ⟨c :: line rest ++ front, text', by rw [List.length_cons]; omega, ?_,
              (List.append_assoc _ _ _).symm, hbreak, ?_⟩
            · have hline : '\n' ∉ line rest := fun hmem => by
                have hne := List.mem_takeWhile_imp hmem
                simp at hne
              have hc : '\n' ≠ c := by
                rw [hpragma.opens.1]
                decide
              simp [hc, hline, hfront]
            · exact and_iff_right (fun q _ hkind => Kind.noConfusion hkind.1)
          · refine ⟨[], c :: rest, le_rfl, List.not_mem_nil, rfl, .inr ?_, Iff.rfl⟩
            rw [hcoded.pieces, written_cons, Piece.written, Mode.piece, hfresh, hgap]
            exact ⟨_, rfl⟩

theorem line_again {run x : List Char} (hrun : '\n' ∉ run) (hx : ∀ e, x.head? = some e → e = '\n') :
    line (run ++ x) = run ∧ afterLine (run ++ x) = x := by
  refine takeWhile_again (fun d hd => decide_eq_true (fun h => hrun (h ▸ hd))) (fun e he => ?_)
  rw [hx e he]
  rfl

theorem pieces_pragma {mode : Mode} (htext : ¬mode.InText) {run x : List Char}
    (hrun : '\n' ∉ run) (hx : ∀ e, x.head? = some e → e = '\n') :
    pieces mode ('/' :: ('/' :: '#' :: run ++ x)) = ⟨[], .pragma, '/' :: '/' :: '#' :: run⟩ ::
        pieces { mode with gap := .newline, fresh := false } x := by
  have hrun' : '\n' ∉ '/' :: '#' :: run := by simp [hrun]
  obtain ⟨hline, hafter⟩ := line_again hrun' hx
  have hstep : mode.step '/' ('/' :: '#' :: run ++ x) =
      ⟨{ mode with gap := .newline, fresh := false }, '/' :: line ('/' :: '#' :: run ++ x),
        [⟨[], .pragma, '/' :: line ('/' :: '#' :: run ++ x)⟩],
        afterLine ('/' :: '#' :: run ++ x)⟩ := by
    rw [List.cons_append, List.cons_append, Mode.step_other htext (by decide) (by decide)]
    rfl
  rw [pieces_cons, hstep, hline, hafter]
  rfl

theorem pieces_break {mode : Mode} (htext : ¬mode.InText) {x : List Char}
    (hx : ∀ e, x.head? = some e → e = '\n') : pieces mode.settled x = pieces mode x := by
  cases x with
  | nil => rw [pieces, pieces]
  | cons e x =>
      obtain rfl := hx e rfl
      rw [pieces_newline htext, @pieces_newline mode.settled htext]
      rfl

theorem echoes_pragma {c : Char} {rest tail : List Char}
    (h : Pragma mode c rest) (htail : Ending tail)
    (ih : ∀ mode' text, text.length < (c :: rest).length → Echoes (pieces mode' text) tail
        (written (pieces mode'.settled (written (pieces mode' text) ++ tail)))) :
    Echoes (pieces mode (c :: rest)) tail
      (written (pieces mode.settled (written (pieces mode (c :: rest)) ++ tail))) := by
  obtain ⟨rfl, rest', rfl⟩ := h.opens
  have hshorter := mode.step_shorter '/' ('/' :: '#' :: rest')
  rw [h.step_eq] at hshorter
  obtain ⟨front, text', hle, hfront, hwritten, hbreak, hapart⟩ :=
    @pragmas { mode with gap := .newline, fresh := false } h.outside rfl rfl
      (afterLine ('/' :: '#' :: rest'))
  have hlater := ih { mode with gap := .newline, fresh := false } text' (lt_of_le_of_lt hle hshorter)
  have hx : ∀ e, (written (pieces { mode with gap := .newline, fresh := false } text') ++
      tail).head? = some e → e = '\n' := by
    intro e he
    rcases hbreak with hnil | ⟨more, hmore⟩
    · rw [hnil] at he
      rcases htail with rfl | rfl
      · cases he
      · exact (Option.some.inj he).symm
    · rw [hmore] at he
      exact (Option.some.inj he).symm
  have hline : '\n' ∉ line rest' := fun hmem => by
    have hne := List.mem_takeWhile_imp hmem
    simp at hne
  have hrun : '\n' ∉ line rest' ++ front := by
    simp [hline, hfront]
  have hout : written (pieces mode ('/' :: '/' :: '#' :: rest')) =
      '/' :: '/' :: '#' :: (line rest' ++ front) ++
        written (pieces { mode with gap := .newline, fresh := false } text') := by
    rw [h.pieces, written_cons, hwritten]
    simp [Piece.written, line]
  -- the second scan reads the pragmas as one
  have hsecond := @pieces_pragma mode.settled h.outside _ _ hrun hx
  rw [@pieces_break { mode with gap := .newline, fresh := false } h.outside _ hx] at hlater
  rw [hout, List.append_assoc, show '/' :: '/' :: '#' :: (line rest' ++ front) ++
    (written (pieces { mode with gap := .newline, fresh := false } text') ++ tail) =
      '/' :: ('/' :: '#' :: (line rest' ++ front) ++
        (written (pieces { mode with gap := .newline, fresh := false } text') ++ tail)) from rfl,
    hsecond, written_cons]
  refine hlater.prepend hout ?_
  rw [h.pieces, apart_cons, hapart]
  exact and_iff_right (fun q _ hkind => Kind.noConfusion hkind.1)

theorem gap_read (htext : ¬mode.InText) (c : Char) (rest y : List Char) :
    ∃ mode' : Mode, ¬mode'.InText ∧
      pieces mode.settled ((mode.piece c rest).gap ++ y) = pieces mode' y := by
  cases hfresh : mode.fresh with
  | true =>
      have hgap : (mode.piece c rest).gap = [] := if_pos hfresh
      rw [hgap]
      exact ⟨mode.settled, htext, rfl⟩
  | false =>
      have hgap : (mode.piece c rest).gap = mode.gap.written := by
        simp [Mode.piece, hfresh]
      rw [hgap]
      cases mode.gap with
      | none => exact ⟨mode.settled, htext, rfl⟩
      | space =>
          refine ⟨{ mode.settled with gap := .space }, htext, ?_⟩
          have hstep : mode.settled.step ' ' y =
              ⟨{ mode.settled with gap := .space }, [' '], [], y⟩ := by
            rw [@Mode.step_space mode.settled _ _ htext (.inl rfl)]
            rfl
          rw [Gap.written, List.singleton_append, pieces_cons, hstep, List.nil_append]
      | newline =>
          exact ⟨{ mode.settled with gap := .newline }, htext,
            @pieces_newline mode.settled htext y⟩

theorem pieces_swallowed (htext : ¬mode.InText) (z : List Char) :
    (written (pieces mode ('/' :: '/' :: '/' :: '#' :: z))).length ≤ z.length + 1 := by
  have hstep : mode.step '/' ('/' :: '/' :: '#' :: z) =
      ⟨mode, '/' :: line ('/' :: '/' :: '#' :: z), [], afterLine z⟩ := by
    rw [Mode.step_other htext (by decide) (by decide)]
    rfl
  rw [pieces_cons, hstep, List.nil_append]
  have hlen := congrArg List.length (line_append z)
  have hle := written_length_le mode (afterLine z)
  have hroom := Gap.room_le mode.gap
  rw [List.length_append] at hlen
  dsimp only
  omega

theorem token_slash {rest : List Char} (h : (mode.token '/' rest).text = ['/']) :
    (mode.token '/' rest).kind = .division ∨ rest = [] := by
  by_cases hregex : startsARegex mode.previous mode.before mode.word = true
  · right
    have htoken : (mode.token '/' rest).text = '/' :: (regexText rest).1 := by
      simp [Mode.token, hregex]
    cases rest with
    | nil => rfl
    | cons d rest =>
        rw [htoken, List.cons.injEq] at h
        have hnil := (List.append_eq_nil_iff.mp h.2).1
        cases rest with
        | nil => cases hnil
        | cons e rest =>
            rw [regexTail] at hnil
            split_ifs at hnil
  · left
    have hword : isWordChar '/' = false := by decide
    simp [Mode.token, hregex, hword]

theorem echoes_code {c : Char} {rest tail : List Char} (h : Coded mode c rest) (htail : Ending tail)
    (ih : Echoes (pieces (mode.code c rest).mode (mode.token c rest).rest) tail
      (written (pieces (mode.code c rest).mode.settled
        (written (pieces (mode.code c rest).mode (mode.token c rest).rest) ++ tail)))) :
    Echoes (pieces mode (c :: rest)) tail
      (written (pieces mode.settled (written (pieces mode (c :: rest)) ++ tail))) := by
  obtain ⟨more, hmore⟩ := token_text mode c rest
  have hsplit : more ++ (mode.token c rest).rest = rest := by
    have hall := mode.token_append c rest
    rw [hmore, List.cons_append] at hall
    exact (List.cons.inj hall).2
  generalize hmode : (mode.code c rest).mode = mode' at ih
  have hfresh : mode'.fresh = false := by
    rw [← hmode]
    rfl
  have hsettled : mode'.settled = mode' := by
    rw [← hmode]
    rfl
  have hpieces : pieces mode (c :: rest) =
      mode.piece c rest :: pieces mode' (mode.token c rest).rest := by
    rw [h.pieces, hmode]
  generalize hx : written (pieces mode' (mode.token c rest).rest) ++ tail = x at ih
  have hout : written (pieces mode (c :: rest)) ++ tail =
      (mode.piece c rest).gap ++ c :: (more ++ x) := by
    rw [hpieces, written_cons, Piece.written, ← hx,
      show (mode.piece c rest).text = c :: more from hmore]
    simp
  have hhead (e : Char) (he : x.head? = some e) :
      (mode.token c rest).rest.head? = some e ∨ e = ' ' ∨ e = '\n' ∨
        (e = '/' ∧ ∃ p ps, pieces mode' (mode.token c rest).rest = p :: ps ∧
          p.kind = .pragma) := by
    rw [← hx, List.head?_append, Option.or_eq_some_iff] at he
    rcases he with he | ⟨-, he⟩
    · rcases pieces_head hfresh _ he with ⟨hsame, -⟩ | hother
      · exact .inl hsame
      · exact .inr hother
    · rcases htail with rfl | rfl
      · cases he
      · exact .inr (.inr (.inl (Option.some.inj he).symm))
  by_cases hbad : (mode.token c rest).kind = .division ∧
      ∃ p ps, pieces mode' (mode.token c rest).rest = p :: ps ∧ p.kind = .pragma
  · -- the pragma is written against a division sign
    obtain ⟨hkind, p, ps, hps, hpragma⟩ := hbad
    have hnot : ¬Apart (pieces mode (c :: rest)) := by
      rw [hpieces, hps, apart_cons]
      exact fun hapart => hapart.1 p rfl ⟨hkind, hpragma⟩
    refine ⟨fun hapart => absurd hapart hnot, fun _ => ?_⟩
    obtain ⟨z, hz⟩ := pragma_written hps hpragma
    rcases token_kind mode c rest with hcode | ⟨-, rfl, htext, -⟩
    · exact absurd (hcode.symm.trans hkind) Kind.noConfusion
    · obtain rfl : more = [] := by
        rw [hmore] at htext
        exact (List.cons.inj htext).2
      have hmarks : ∃ z', x = '/' :: '/' :: '#' :: z' := by
        rw [← hx, hps, written_cons, hz]
        exact ⟨_, rfl⟩
      obtain ⟨z', hz'⟩ := hmarks
      obtain ⟨mode'', houtside, hread⟩ := gap_read h.outside '/' rest ('/' :: ([] ++ x))
      have hle := pieces_swallowed houtside z'
      rw [hout, hread, List.nil_append, hz']
      refine (Nat.add_le_add_right hle 2).trans ?_
      simp only [List.length_append, List.length_cons]
      omega
  · have hcoded : Coded mode c (more ++ x) := by
      refine h.again (fun d hd hcomment => ?_)
      obtain ⟨rfl, hd'⟩ := hcomment
      cases more with
      | cons e more =>
          refine h.comment d ?_ ⟨rfl, hd'⟩
          rw [← hsplit]
          exact hd
      | nil =>
          rw [List.nil_append] at hsplit hd
          rcases hhead d hd with hsame | rfl | rfl | ⟨rfl, hpragma⟩
          · exact h.comment d (hsplit ▸ hsame) ⟨rfl, hd'⟩
          · rcases hd' with hd' | hd' <;> exact absurd hd' (by decide)
          · rcases hd' with hd' | hd' <;> exact absurd hd' (by decide)
          · rcases token_slash hmore with hdivision | hnil
            · exact hbad ⟨hdivision, hpragma⟩
            · obtain ⟨p, ps, hps, -⟩ := hpragma
              rw [hsplit, hnil, pieces] at hps
              cases hps
    have hgap : (mode.piece c (more ++ x)).gap = (mode.piece c rest).gap := rfl
    have hread := hcoded.read_gap
    rw [hgap, hcoded.pieces] at hread
    rw [hout, hread]
    rcases mode.token_again c rest with hclosed | ⟨hrest, htext, hkind, hopen⟩
    · have hfollows : Follows (mode.token c rest).rest x := by
        intro e he
        rcases hhead e he with hsame | hspace | hbreak | ⟨hslash, -⟩
        · exact .inl hsame
        · exact .inr (.inl hspace)
        · exact .inr (.inr (.inl hbreak))
        · exact .inr (.inr (.inr hslash))
      have hagain := hclosed x hfollows
      rw [hmore, List.tail_cons] at hagain
      have hpiece : mode.piece c (more ++ x) = mode.piece c rest := by
        simp only [Mode.piece, hagain]
      have hafter : (mode.code c (more ++ x)).mode = mode' := by
        rw [← hmode]
        simp only [Mode.code, hagain]
      rw [hpiece, hafter, hagain, hpieces, written_cons]
      rw [hsettled] at ih
      refine ih.cons (fun q hq hkind => hbad ⟨hkind.1, ?_⟩)
      cases hps : pieces mode' (mode.token c rest).rest with
      | nil =>
          rw [hps] at hq
          cases hq
      | cons p ps =>
          rw [hps] at hq
          exact ⟨p, ps, rfl, by rw [Option.some.inj hq]; exact hkind.2⟩
    · -- the source ended inside the token, which takes the line break that is added
      obtain rfl : more = rest := by
        rw [hmore] at htext
        exact (List.cons.inj htext).2
      have hnone : pieces mode' (mode.token c more).rest = [] := by
        rw [hrest, pieces]
      rw [hnone] at hx hpieces
      obtain rfl : tail = x := by
        rw [← hx]
        rfl
      have hagain := hopen tail htail
      have hend : (mode.token c (more ++ tail)).rest = [] := by
        rw [hagain]
        exact hrest
      have hone : written [mode.piece c (more ++ tail)] =
          written [mode.piece c more] ++ tail := by
        simp only [written, List.flatMap_singleton, Piece.written, Mode.piece, hagain, htext,
          List.append_assoc]
      rw [hend, pieces, hone, hpieces]
      refine ⟨fun _ => .inr rfl, fun hnot => ?_⟩
      exact absurd (List.isChain_singleton _) hnot

theorem echoes (htail : Ending tail) (mode : Mode) (text : List Char) :
    Echoes (pieces mode text) tail
      (written (pieces mode.settled (written (pieces mode text) ++ tail))) := by
  induction hn : text.length using Nat.strongRecOn generalizing mode text with
  | ind n ih =>
      subst hn
      cases text with
      | nil =>
          rw [pieces]
          exact echoes_nil mode.settled htail
      | cons c rest =>
          have hnext := ih _ (mode.step_shorter c rest) (mode.step c rest).mode _ rfl
          rcases step_cases mode c rest with ⟨htext, -⟩ | ⟨gap, hdrop⟩ | hpragma | hcoded
          · exact echoes_text htext c rest htail hnext
          · rw [hdrop.mode_eq] at hnext
            rw [hdrop.pieces]
            exact hnext
          · exact echoes_pragma hpragma htail (fun mode' text hlt => ih _ hlt mode' text rfl)
          · rw [hcoded.step] at hnext
            exact echoes_code hcoded htail hnext

end Echoes

section Twice

theorem ended_cases (out : List Char) :
    ∃ tail, Ending tail ∧ ended out = out ++ tail ∧ ended (out ++ tail) = out ++ tail := by
  by_cases hout : out = [] ∨ out.getLast? = some '\n'
  · have hended : ended out = out := if_pos hout
    exact ⟨[], .inl rfl, by rw [hended, List.append_nil], by rw [List.append_nil, hended]⟩
  · have hlast : (out ++ ['\n']).getLast? = some '\n' := List.getLast?_concat ..
    exact ⟨['\n'], .inr rfl, if_neg hout, if_pos (.inr hlast)⟩

theorem ended_length_le (out : List Char) : (ended out).length ≤ out.length + 1 := by
  unfold ended
  split_ifs
  · exact Nat.le_succ _
  · rw [List.length_append]
    exact le_rfl

/-- Minifying twice is minifying once exactly for the scripts in which no kept pragma comes
next after a division sign. -/
theorem javascript_idempotent_iff (source : List Char) :
    (javascript source).bind javascript = javascript source ↔
      Apart (pieces Mode.start source) := by
  obtain ⟨tail, htail, hended, hfixed⟩ := ended_cases (written (pieces Mode.start source))
  have hecho := echoes htail Mode.start source
  have hstart : Mode.start.settled = Mode.start := rfl
  rw [hstart] at hecho
  rw [javascript_eq, Option.bind_some, javascript_eq, Option.some.injEq, hended]
  constructor
  · intro heq
    by_contra hnot
    have hle := hecho.2 hnot
    have hlength := ended_length_le
      (written (pieces Mode.start (written (pieces Mode.start source) ++ tail)))
    rw [heq] at hlength
    omega
  · intro hapart
    rcases hecho.1 hapart with heq | heq
    · rw [heq, hended]
    · rw [heq, hfixed]

/-- A pragma after a division sign: what is kept the first time goes the second time. -/
theorem javascript_swallows_pragma :
    (javascript "a / //# x".toList).bind javascript ≠ javascript "a / //# x".toList := by
  rw [javascript_eq, Option.bind_some, javascript_eq]
  decide +kernel

end Twice

end Minify
end Zdeceptron
