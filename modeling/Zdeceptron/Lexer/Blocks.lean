import Zdeceptron.Lexer.Continuation
import Mathlib.Data.Set.Card

/-!
# Blocks

The blocks of a file nest, its lines alternate with their breaks, and a token stands in as
many blocks as there are levels its logical line is indented further than.

* `tokenize_layout`: the tokens of a whole file.
-/

namespace Zdeceptron
namespace Lexer

section Counts

def countOf (kind : TokenKind) (tokens : List Token) : Nat :=
  tokens.countP (fun token => decide (token.kind = kind))

theorem countOf_cons (kind : TokenKind) (token : Token) (tokens : List Token) :
    countOf kind (token :: tokens) =
      countOf kind tokens + if token.kind = kind then 1 else 0 := by
  rw [countOf, List.countP_cons]
  simp [countOf]

theorem countOf_reverse (kind : TokenKind) (tokens : List Token) :
    countOf kind tokens.reverse = countOf kind tokens := List.countP_reverse

/-- The number of open blocks at each token with content, `d` of them before the first. -/
def depths : Nat → List Token → List Nat
  | _, [] => []
  | d, token :: tokens =>
      match token.kind with
      | .indent => depths (d + 1) tokens
      | .dedent => depths (d - 1) tokens
      | kind => if kind.isLayout then depths d tokens else d :: depths d tokens

inductive Nests : Nat → List Token → Prop
  | nil : Nests 0 []
  | flat {d : Nat} {token : Token} {out : List Token} : Nests d out → token.kind ≠ .indent →
      token.kind ≠ .dedent → Nests d (token :: out)
  | opens {d : Nat} {span : Span} {out : List Token} : Nests d out →
      Nests (d + 1) (⟨.indent, span⟩ :: out)
  | closes {d : Nat} {span : Span} {out : List Token} : Nests (d + 1) out →
      Nests d (⟨.dedent, span⟩ :: out)

variable {d : Nat} {out : List Token}

theorem Nests.count (h : Nests d out) : countOf .indent out = countOf .dedent out + d := by
  induction h with
  | nil => rfl
  | flat _ hindent hdedent ih =>
      rw [countOf_cons, countOf_cons, if_neg hindent, if_neg hdedent]
      exact ih
  | opens _ _ | closes _ _ =>
      rw [countOf_cons, countOf_cons, if_pos rfl, if_neg (by simp)]
      omega

theorem Nests.older {newer older : List Token} (h : Nests d (newer ++ older)) :
    ∃ d', Nests d' older := by
  induction newer generalizing d with
  | nil => exact ⟨d, h⟩
  | cons token newer ih =>
      cases h with
      | flat h _ _ => exact ih h
      | opens h => exact ih h
      | closes h => exact ih h

theorem Nests.depths_append (h : Nests d out) (tokens : List Token) :
    depths 0 (out.reverse ++ tokens) = depths 0 out.reverse ++ depths d tokens := by
  induction h generalizing tokens with
  | nil => rfl
  | @flat d token out _ hindent hdedent ih =>
      have hone (ts : List Token) : depths d (token :: ts) = depths d [token] ++ depths d ts := by
        obtain ⟨kind, span⟩ := token
        cases kind <;> first | rfl | exact absurd rfl hindent | exact absurd rfl hdedent
      rw [List.reverse_cons, List.append_assoc, ih, List.singleton_append, hone, ih,
        List.append_assoc]
  | opens _ ih =>
      rw [List.reverse_cons, List.append_assoc, ih, ih, List.append_assoc]
      rfl
  | closes _ ih =>
      rw [List.reverse_cons, List.append_assoc, ih, ih, List.append_assoc]
      rfl

theorem depths_layout {tokens : List Token} (h : ∀ t ∈ tokens, t.kind.isLayout = true) (d : Nat) :
    depths d tokens = [] := by
  induction tokens generalizing d with
  | nil => rfl
  | cons token tokens ih =>
      have hrest := ih (fun t ht => h t (List.mem_cons_of_mem _ ht))
      have hhead := h token List.mem_cons_self
      obtain ⟨kind, span⟩ := token
      cases kind <;> first | exact hrest _ | cases hhead

theorem Nests.depths_layout (h : Nests d out) {newer : List Token}
    (hnewer : ∀ t ∈ newer, t.kind.isLayout = true) :
    depths 0 (newer ++ out).reverse = depths 0 out.reverse := by
  rw [List.reverse_append, h.depths_append,
    Lexer.depths_layout (fun t ht => hnewer t (List.mem_reverse.mp ht)), List.append_nil]

end Counts

section Lines

/-- Tokens, newest first, in which content stands before each line break and before the
break that ended the line before it; `true` once there is content after the last break. -/
inductive Lined : Bool → List Token → Prop
  | nil : Lined false []
  | content {b : Bool} {token : Token} {out : List Token} : Lined b out →
      token.kind.isLayout = false → Lined true (token :: out)
  | newline {span : Span} {out : List Token} : Lined true out →
      Lined false (⟨.newline, span⟩ :: out)
  | block {b : Bool} {token : Token} {out : List Token} : Lined b out →
      token.kind = .indent ∨ token.kind = .dedent → Lined b (token :: out)

variable {b : Bool} {out : List Token}

theorem Lined.older {newer older : List Token} {token : Token}
    (h : Lined b (newer ++ token :: older)) (hnewline : token.kind = .newline) :
    Lined true older := by
  induction newer generalizing b with
  | nil =>
      cases h with
      | content _ hcontent =>
          rw [hnewline] at hcontent
          cases hcontent
      | newline h => exact h
      | block _ hblock =>
          rw [hnewline] at hblock
          rcases hblock with h | h <;> cases h
  | cons t newer ih =>
      cases h with
      | content h _ => exact ih h
      | newline h => exact ih h
      | block h _ => exact ih h

theorem Lined.between {middle older : List Token} {token : Token}
    (h : Lined true (middle ++ token :: older)) (hnewline : token.kind = .newline) :
    ∃ t ∈ middle, t.kind.isLayout = false := by
  induction middle with
  | nil =>
      cases h with
      | content _ hcontent =>
          rw [hnewline] at hcontent
          cases hcontent
      | block _ hblock =>
          rw [hnewline] at hblock
          rcases hblock with h | h <;> cases h
  | cons t middle ih =>
      cases h with
      | content _ hcontent => exact ⟨t, List.mem_cons_self, hcontent⟩
      | block h _ =>
          obtain ⟨found, hfound, hcontent⟩ := ih h
          exact ⟨found, List.mem_cons_of_mem _ hfound, hcontent⟩

theorem Lined.ne_eof (h : Lined b out) : ∀ t ∈ out, t.kind ≠ .eof := by
  induction h with
  | nil => simp
  | content _ hcontent ih =>
      refine List.forall_mem_cons.mpr ⟨?_, ih⟩
      intro heof
      rw [heof] at hcontent
      cases hcontent
  | newline _ ih => exact List.forall_mem_cons.mpr ⟨by simp, ih⟩
  | block _ hblock ih =>
      refine List.forall_mem_cons.mpr ⟨?_, ih⟩
      intro heof
      rw [heof] at hblock
      rcases hblock with h | h <;> cases h

theorem Lined.dedents (h : Lined b out) (n : Nat) (span : Span) :
    Lined b (List.replicate n ⟨.dedent, span⟩ ++ out) := by
  induction n with
  | zero => exact h
  | succ n ih => exact ih.block (.inr rfl)

end Lines

section Levels

/-- A level that is open at the newest of some lines: no line that has followed it is to its
left. -/
def Encloses (lines : List Nat) (v : Nat) : Prop :=
  v = 0 ∨ ∃ newer older, lines = newer ++ v :: older ∧ ∀ x ∈ newer, v ≤ x

/-- The levels that enclose the newest line and that it is indented further than. -/
noncomputable def openBlocks (lines : List Nat) : Nat :=
  {v | Encloses lines v ∧ v < lines.headD 0}.ncard

theorem encloses_cons (width : Nat) (lines : List Nat) (v : Nat) :
    Encloses (width :: lines) v ↔ v = width ∨ v ≤ width ∧ Encloses lines v := by
  constructor
  · rintro (rfl | ⟨newer, older, heq, hle⟩)
    · exact .inr ⟨Nat.zero_le _, .inl rfl⟩
    · cases newer with
      | nil => exact .inl (List.cons.inj heq).1.symm
      | cons x newer =>
          obtain ⟨rfl, rfl⟩ := List.cons.inj heq
          exact .inr ⟨hle _ List.mem_cons_self, .inr ⟨newer, older, rfl,
            fun y hy => hle y (List.mem_cons_of_mem _ hy)⟩⟩
  · rintro (rfl | ⟨hle, rfl | ⟨newer, older, rfl, hall⟩⟩)
    · exact .inr ⟨[], lines, rfl, by simp⟩
    · exact .inl rfl
    · refine .inr ⟨width :: newer, older, rfl, fun x hx => ?_⟩
      rcases List.mem_cons.mp hx with rfl | hx
      · exact hle
      · exact hall x hx

/-- The levels of the open blocks, innermost first, against the lines so far. -/
structure Levels (levels lines : List Nat) : Prop where
  head : levels.head? = lines.head?
  some : levels ≠ []
  sorted : levels.Pairwise (· > ·)
  mem : ∀ v, v ∈ levels ↔ Encloses lines v

variable {levels lines : List Nat}

theorem Levels.initial : Levels [0] [0] where
  head := rfl
  some := List.cons_ne_nil _ _
  sorted := List.pairwise_singleton _ _
  mem v := by
    rw [encloses_cons, List.mem_singleton]
    refine ⟨.inl, ?_⟩
    rintro (rfl | ⟨hle, -⟩)
    · rfl
    · exact Nat.le_zero.mp hle

theorem Levels.openBlocks (h : Levels levels lines) :
    openBlocks lines = levels.length - 1 := by
  obtain ⟨level, tail, rfl⟩ := List.exists_cons_of_ne_nil h.some
  obtain ⟨hgt, hsorted⟩ := List.pairwise_cons.mp h.sorted
  have hhead : lines.headD 0 = level := by
    rw [List.headD_eq_head?_getD, ← h.head]
    rfl
  have hset : {v | Encloses lines v ∧ v < lines.headD 0} = ↑tail.toFinset := by
    ext v
    rw [Set.mem_ofPred_eq, ← h.mem, hhead, Finset.mem_coe, List.mem_toFinset, List.mem_cons]
    constructor
    · rintro ⟨rfl | hv, hlt⟩
      · exact absurd hlt (lt_irrefl _)
      · exact hv
    · intro hv
      exact ⟨.inr hv, hgt v hv⟩
  have hnodup : tail.Nodup := hsorted.imp (fun hab => (ne_of_lt hab).symm)
  rw [Lexer.openBlocks, hset, Set.ncard_coe_finset, List.toFinset_card_of_nodup hnodup]
  rfl

end Levels

section LineStarts

theorem closeLevels_spec (width : Nat) (span : Span) (levels : List Nat) (out : List Token) :
    ∃ popped rest, levels = popped ++ rest ∧ (∀ level ∈ popped, width < level) ∧
      (∀ level, rest.head? = some level → ¬width < level) ∧ closeLevels width span levels out =
        (rest, List.replicate popped.length ⟨.dedent, span⟩ ++ out) := by
  induction levels generalizing out with
  | nil => exact ⟨[], [], rfl, by simp, by simp, rfl⟩
  | cons level levels ih =>
      rw [closeLevels]
      split_ifs with hlt
      · obtain ⟨popped, rest, hlevels, hpopped, hrest, hclose⟩ := ih (⟨.dedent, span⟩ :: out)
        refine ⟨level :: popped, rest, by rw [hlevels, List.cons_append], ?_, hrest, ?_⟩
        · intro l hl
          rcases List.mem_cons.mp hl with rfl | hl
          · exact hlt
          · exact hpopped l hl
        · rw [hclose, List.length_cons, List.replicate_succ', List.append_assoc]
          rfl
      · refine ⟨[], level :: levels, rfl, by simp, ?_, rfl⟩
        intro l hl
        rw [← Option.some.inj hl]
        exact hlt

def broken (span : Span) (out : List Token) : List Token :=
  if out = [] then [] else ⟨.newline, span⟩ :: out

inductive Started (st : Layout) (width : Nat) (span : Span) : Layout → Prop
  | opens : (∀ level ∈ st.levels, level < width) →
      Started st width span ⟨⟨.indent, span⟩ :: broken span st.out, width :: st.levels, 0, width⟩
  | closes {popped rest : List Nat} : st.levels = popped ++ rest →
      (∀ level ∈ popped, width < level) → rest.head? = some width →
      Started st width span
        ⟨List.replicate popped.length ⟨.dedent, span⟩ ++ broken span st.out, rest, 0, width⟩

theorem broken_newer (span : Span) (out : List Token) :
    ∃ newer, broken span out = newer ++ out ∧
      ∀ t ∈ newer, t.kind.isLayout = true ∧ t.span = span := by
  unfold broken
  split_ifs with hnil
  · exact ⟨[], hnil.symm, by simp⟩
  · exact ⟨[⟨.newline, span⟩], rfl, by simp [TokenKind.isLayout]⟩

variable {st st' : Layout} {width : Nat} {span : Span}

theorem Started.newer (h : Started st width span st') :
    ∃ newer, st'.out = newer ++ st.out ∧ ∀ t ∈ newer, t.kind.isLayout = true ∧ t.span = span := by
  obtain ⟨newer, hnewer, hall⟩ := broken_newer span st.out
  cases h with
  | opens _ =>
      refine ⟨⟨.indent, span⟩ :: newer, by rw [hnewer, List.cons_append], fun t ht => ?_⟩
      rcases List.mem_cons.mp ht with rfl | ht
      · exact ⟨rfl, rfl⟩
      · exact hall t ht
  | @closes popped rest _ _ _ =>
      refine ⟨List.replicate popped.length ⟨.dedent, span⟩ ++ newer,
        by rw [hnewer, List.append_assoc], fun t ht => ?_⟩
      rcases List.mem_append.mp ht with ht | ht
      · rw [List.eq_of_mem_replicate ht]
        exact ⟨rfl, rfl⟩
      · exact hall t ht

theorem started_of_lineStart {lines : List Nat}
    (hlevels : Levels st.levels lines) (hsuspends : st.suspends width = false)
    (h : st.lineStart width span = .ok st') : Started st width span st' := by
  obtain ⟨level, tail, hst⟩ := List.exists_cons_of_ne_nil hlevels.some
  have hsorted := hlevels.sorted
  rw [hst, List.pairwise_cons] at hsorted
  have hcurrent : st.levels.headD 0 = level := by
    rw [hst]
    rfl
  unfold Layout.lineStart at h
  rw [hsuspends, if_neg Bool.false_ne_true, hcurrent] at h
  dsimp only at h
  rw [show (if st.out = [] then [] else ⟨.newline, span⟩ :: st.out) = broken span st.out from rfl]
    at h
  split_ifs at h with hopens hcloses hwidth
  · cases h
    refine .opens (fun l hl => ?_)
    rw [hst] at hl
    rcases List.mem_cons.mp hl with rfl | hl
    · exact hopens
    · exact lt_trans (hsorted.1 l hl) hopens
  · cases h
    obtain ⟨popped, rest, hsplit, hpopped, hrest, hclose⟩ :=
      closeLevels_spec width span st.levels (broken span st.out)
    rw [hclose] at hwidth ⊢
    refine .closes hsplit hpopped ?_
    cases rest with
    | nil =>
        -- the outermost level is never further in than a line
        have hzero : 0 ∈ st.levels := (hlevels.mem 0).mpr (.inl rfl)
        rw [hsplit, List.append_nil] at hzero
        exact absurd (hpopped 0 hzero) (Nat.not_lt_zero _)
    | cons l rest => exact congrArg some hwidth
  · cases h
    obtain rfl : level = width := le_antisymm (Nat.not_lt.mp hcloses) (Nat.not_lt.mp hopens)
    have hhead : st.levels.head? = some level := by
      rw [hst]
      rfl
    exact Started.closes (List.nil_append _).symm (by simp) hhead

theorem Levels.started {lines : List Nat}
    (h : Levels st.levels lines) (hstarted : Started st width span st') :
    Levels st'.levels (width :: lines) := by
  cases hstarted with
  | opens hlt =>
      refine ⟨rfl, List.cons_ne_nil _ _, List.pairwise_cons.mpr ⟨hlt, h.sorted⟩, fun v => ?_⟩
      rw [encloses_cons, List.mem_cons, ← h.mem]
      exact or_congr_right ⟨fun hv => ⟨(hlt v hv).le, hv⟩, And.right⟩
  | @closes popped rest hsplit hpopped hhead =>
      obtain ⟨tail, rfl⟩ : ∃ tail, rest = width :: tail := by
        cases rest with
        | nil => cases hhead
        | cons l tail => exact ⟨tail, by rw [Option.some.inj hhead]⟩
      have hsorted := h.sorted
      rw [hsplit, List.pairwise_append] at hsorted
      refine ⟨rfl, List.cons_ne_nil _ _, hsorted.2.1, fun v => ?_⟩
      rw [encloses_cons, ← h.mem, hsplit, List.mem_append]
      constructor
      · intro hv
        rcases List.mem_cons.mp hv with rfl | htail
        · exact .inl rfl
        · exact .inr ⟨((List.pairwise_cons.mp hsorted.2.1).1 v htail).le, .inr hv⟩
      · rintro (rfl | ⟨hle, hv | hv⟩)
        · exact List.mem_cons_self
        · exact absurd (hpopped v hv) (Nat.not_lt.mpr hle)
        · exact hv

variable {out : List Token}

theorem Nests.broken {d : Nat} (h : Nests d out) (span : Span) :
    Nests d (broken span out) := by
  unfold Lexer.broken
  split_ifs with hnil
  · rw [hnil] at h
    exact h
  · exact h.flat (by simp) (by simp)

theorem Nests.dedents {d n : Nat} (h : Nests (d + n) out) (span : Span) :
    Nests d (List.replicate n ⟨.dedent, span⟩ ++ out) := by
  induction n generalizing d with
  | zero => exact h
  | succ n ih =>
      rw [List.replicate_succ, List.cons_append]
      have hmore : Nests (d + 1 + n) out := by rwa [Nat.add_right_comm, Nat.add_assoc]
      exact (ih hmore).closes

theorem Nests.started (hsome : st.levels ≠ [])
    (h : Nests (st.levels.length - 1) st.out) (hstarted : Started st width span st') :
    Nests (st'.levels.length - 1) st'.out := by
  cases hstarted with
  | opens _ =>
      have hopens := @Nests.opens _ span _ (h.broken span)
      have hpos := List.length_pos_of_ne_nil hsome
      rw [Nat.sub_add_cancel hpos] at hopens
      exact hopens
  | @closes popped rest hsplit _ hhead =>
      refine Nests.dedents ?_ span
      have hpos : 0 < rest.length := by
        cases rest with
        | nil => cases hhead
        | cons l rest => exact Nat.succ_pos _
      have hlength : st.levels.length - 1 = rest.length - 1 + popped.length := by
        rw [hsplit, List.length_append]
        omega
      rw [← hlength]
      exact h.broken span

theorem Lined.broken {b : Bool} (h : Lined b out) (hb : b = true ∨ out = [])
    (span : Span) : Lined false (broken span out) := by
  unfold Lexer.broken
  split_ifs with hnil
  · exact .nil
  · obtain rfl := hb.resolve_right hnil
    exact h.newline

theorem Lined.started {b : Bool}
    (h : Lined b st.out) (hb : b = true ∨ st.out = []) (hstarted : Started st width span st') :
    Lined false st'.out := by
  cases hstarted with
  | opens _ => exact (h.broken hb span).block (.inl rfl)
  | closes _ _ _ => exact (h.broken hb span).dedents _ span

end LineStarts

section Logical

def bracketsAfter (brackets : Nat) : TokenKind → Nat
  | .symbol .lParen => brackets + 1
  | .symbol .lBracket => brackets + 1
  | .symbol .rParen => brackets - 1
  | .symbol .rBracket => brackets - 1
  | _ => brackets

/-- At each token with content, the widths of the logical lines so far, newest first: a line
goes on with the one before it while a bracket is open, or after a comma, if it is indented
further. -/
def logicalLines : List (RawToken × Span) → Nat → Bool → List Nat → List (List Nat)
  | [], _, _, _ => []
  | (.error, _) :: _, _, _, _ => []
  | (.kw kind, _) :: rest, brackets, _, lines =>
      lines :: logicalLines rest (bracketsAfter brackets kind)
        (decide (kind = .symbol .comma)) lines
  | (.lineStart width, _) :: rest, brackets, comma, lines =>
      if isBlank rest then logicalLines rest brackets comma lines
      else if (decide (0 < brackets) || comma) && decide (lines.headD 0 < width) then
        logicalLines rest brackets comma lines
      else logicalLines rest 0 false (width :: lines)

structure Kept (st : Layout) (comma : Bool) (lines : List Nat) : Prop where
  nests : Nests (st.levels.length - 1) st.out
  levels : Levels st.levels lines
  indent : lines.head? = some st.logicalIndent
  comma_eq : comma = st.continued

variable {lines : List Nat}

theorem Kept.headD {st : Layout} {comma : Bool} (h : Kept st comma lines) :
    lines.headD 0 = st.logicalIndent := by
  rw [List.headD_eq_head?_getD, h.indent]
  rfl

theorem Kept.content {st : Layout} {comma : Bool} {lines : List Nat} (h : Kept st comma lines)
    {kind : TokenKind} (hkind : kind.isLayout = false) (span : Span) :
    Kept (st.content kind span) (decide (kind = .symbol .comma)) lines where
  nests := by
    refine h.nests.flat ?_ ?_
    · rintro rfl
      cases hkind
    · rintro rfl
      cases hkind
  levels := h.levels
  indent := h.indent
  comma_eq := by
    simp [Layout.continued, Layout.content]

theorem Kept.started {st st' : Layout} {comma : Bool} (h : Kept st comma lines)
    {width : Nat} {span : Span} (hstarted : Started st width span st') :
    Kept st' false (width :: lines) where
  nests := h.nests.started h.levels.some hstarted
  levels := h.levels.started hstarted
  indent := by
    cases hstarted <;> rfl
  comma_eq := by
    have hbroken : (broken span st.out).head?.any
        (fun token => decide (token.kind = .symbol .comma)) = false := by
      unfold broken
      split_ifs <;> rfl
    cases hstarted with
    | opens _ => rfl
    | @closes popped rest _ _ _ =>
        show false = (List.replicate popped.length (⟨.dedent, span⟩ : Token) ++
          broken span st.out).head?.any (fun token => decide (token.kind = .symbol .comma))
        cases popped.length with
        | zero => exact hbroken.symm
        | succ n => rfl

theorem layout_kept {raws : List (RawToken × Span)} {st st' : Layout} {comma b : Bool}
    (hkept : Kept st comma lines) (hlined : Lined b st.out)
    (hb : b = true ∨ st.out = [] ∨ isBlank raws = false)
    (hkinds : ∀ raw ∈ raws, ∀ kind, raw.1 = .kw kind → kind.isLayout = false)
    (h : layout raws st = .ok st') :
    Nests (st'.levels.length - 1) st'.out ∧ (∃ b', Lined b' st'.out ∧ (b' = true ∨ st'.out = [])) ∧
      depths 0 st'.out.reverse = depths 0 st.out.reverse ++
        (logicalLines raws st.openBrackets comma lines).map openBlocks := by
  induction raws generalizing st comma b lines with
  | nil =>
      cases h
      refine ⟨hkept.nests, ⟨b, hlined, ?_⟩, (List.append_nil _).symm⟩
      rcases hb with hb | hb | hb
      · exact .inl hb
      · exact .inr hb
      · cases hb
  | cons raw raws ih =>
      obtain ⟨token, span⟩ := raw
      have hkinds' : ∀ raw ∈ raws, ∀ kind, raw.1 = .kw kind → kind.isLayout = false :=
        fun raw hraw => hkinds raw (List.mem_cons_of_mem _ hraw)
      cases token with
      | error => cases h
      | kw kind =>
          have hkind := hkinds _ List.mem_cons_self kind rfl
          obtain ⟨hnests, hend, hdepths⟩ := ih (hkept.content hkind span)
            (@Lined.content _ ⟨kind, span⟩ _ hlined hkind) (.inl rfl) hkinds' h
          refine ⟨hnests, hend, hdepths.trans ?_⟩
          have hhere : depths (st.levels.length - 1) [⟨kind, span⟩] = [openBlocks lines] := by
            rw [hkept.levels.openBlocks]
            cases kind <;> first | rfl | cases hkind
          rw [show (st.content kind span).out = ⟨kind, span⟩ :: st.out from rfl, List.reverse_cons,
            hkept.nests.depths_append, hhere, List.append_assoc]
          cases kind with
          | symbol symbol => cases symbol <;> rfl
          | _ => rfl
      | lineStart width =>
          have hb' : b = true ∨ st.out = [] := by
            rcases hb with hb | hb | hb
            · exact .inl hb
            · exact .inr hb
            · cases hb
          rw [layout] at h
          rw [logicalLines]
          by_cases hblank : isBlank raws = true
          · rw [if_pos hblank] at h ⊢
            exact ih hkept hlined (hb'.imp_right .inl) hkinds' h
          · rw [if_neg hblank] at h ⊢
            have hsuspends : st.suspends width =
                ((decide (0 < st.openBrackets) || comma) && decide (lines.headD 0 < width)) := by
              rw [Layout.suspends, hkept.headD, hkept.comma_eq]
            rw [← hsuspends]
            by_cases hon : st.suspends width = true
            · rw [if_pos hon]
              rw [Layout.lineStart, if_pos hon] at h
              exact ih hkept hlined (hb'.imp_right .inl) hkinds' h
            · rw [if_neg hon]
              cases hline : st.lineStart width span with
              | error error =>
                  rw [hline] at h
                  cases h
              | ok next =>
                  rw [hline] at h
                  have hstarted := started_of_lineStart hkept.levels
                    (Bool.eq_false_iff.mpr hon) hline
                  have hbrackets : next.openBrackets = 0 := by
                    cases hstarted <;> rfl
                  have hquiet : depths 0 next.out.reverse = depths 0 st.out.reverse := by
                    obtain ⟨newer, hnewer, hall⟩ := hstarted.newer
                    rw [hnewer, hkept.nests.depths_layout (fun t ht => (hall t ht).1)]
                  obtain ⟨hnests, hend, hdepths⟩ := ih (hkept.started hstarted)
                    (hlined.started hb' hstarted)
                    (.inr (.inr (Bool.eq_false_iff.mpr hblank))) hkinds' h
                  rw [hbrackets, hquiet] at hdepths
                  exact ⟨hnests, hend, hdepths⟩

end Logical

section Spans

def Span.NotAfter (span other : Span) : Prop :=
  span.start ≤ other.start ∧ span.stop ≤ other.stop

structure Ascending (bound : Nat) (spans : List Span) : Prop where
  sorted : spans.Pairwise Span.NotAfter
  within : ∀ span ∈ spans, span.start ≤ span.stop ∧ span.stop ≤ bound

variable {bound : Nat} {spans : List Span}

theorem Ascending.sublist {spans' : List Span} (h : Ascending bound spans)
    (hsub : spans'.Sublist spans) : Ascending bound spans' where
  sorted := h.sorted.sublist hsub
  within span hspan := h.within span (hsub.subset hspan)

theorem Ascending.copies {front back newer : List Span} {span : Span}
    (h : Ascending bound (front ++ span :: back)) (hnewer : ∀ s ∈ newer, s = span) :
    Ascending bound (front ++ (newer ++ back)) := by
  obtain ⟨hfront, hrest, hcross⟩ := List.pairwise_append.mp h.sorted
  obtain ⟨hspan, hback⟩ := List.pairwise_cons.mp hrest
  constructor
  · rw [List.pairwise_append, List.pairwise_append]
    refine ⟨hfront, ⟨?_, hback, ?_⟩, ?_⟩
    · rw [List.eq_replicate_of_mem hnewer, List.pairwise_replicate]
      exact .inr ⟨le_rfl, le_rfl⟩
    · intro s hs t ht
      rw [hnewer s hs]
      exact hspan t ht
    · intro s hs t ht
      rcases List.mem_append.mp ht with ht | ht
      · rw [hnewer t ht]
        exact hcross s hs span List.mem_cons_self
      · exact hcross s hs t (List.mem_cons_of_mem _ ht)
  · intro s hs
    rcases List.mem_append.mp hs with hs | hs
    · exact h.within s (List.mem_append_left _ hs)
    · rcases List.mem_append.mp hs with hs | hs
      · rw [hnewer s hs]
        exact h.within span (List.mem_append_right _ List.mem_cons_self)
      · exact h.within s (List.mem_append_right _ (List.mem_cons_of_mem _ hs))

theorem Ascending.snoc {bound' : Nat} {span : Span} (h : Ascending bound spans)
    (hstart : bound ≤ span.start) (hle : span.start ≤ span.stop) (hstop : span.stop ≤ bound') :
    Ascending bound' (spans ++ [span]) := by
  constructor
  · rw [List.pairwise_append]
    refine ⟨h.sorted, List.pairwise_singleton _ _, fun s hs t ht => ?_⟩
    obtain ⟨hs, hbound⟩ := h.within s hs
    rw [List.mem_singleton.mp ht]
    exact ⟨by omega, by omega⟩
  · intro s hs
    rcases List.mem_append.mp hs with hs | hs
    · obtain ⟨hs, hbound⟩ := h.within s hs
      exact ⟨hs, by omega⟩
    · rw [List.mem_singleton.mp hs]
      exact ⟨hle, hstop⟩

theorem Ascending.extend {bound' : Nat} {last span : Span} (h : Ascending bound (spans ++ [last]))
    (hstart : bound ≤ span.start) (hle : span.start ≤ span.stop) (hstop : span.stop ≤ bound') :
    Ascending bound' (spans ++ [last.to span]) := by
  obtain ⟨hspans, -, hcross⟩ := List.pairwise_append.mp h.sorted
  obtain ⟨hlast, hbound⟩ := h.within last (List.mem_append_right _ List.mem_cons_self)
  constructor
  · rw [List.pairwise_append]
    refine ⟨hspans, List.pairwise_singleton _ _, fun s hs t ht => ?_⟩
    obtain ⟨hbefore, hend⟩ := hcross s hs last List.mem_cons_self
    rw [List.mem_singleton.mp ht]
    exact ⟨hbefore, by dsimp only [Span.to]; omega⟩
  · intro s hs
    rcases List.mem_append.mp hs with hs | hs
    · obtain ⟨hwithin, hend⟩ := h.within s (List.mem_append_left _ hs)
      exact ⟨hwithin, by omega⟩
    · rw [List.mem_singleton.mp hs]
      exact ⟨by dsimp only [Span.to]; omega, hstop⟩

theorem Ascending.rawFrom {out : List (RawToken × Span)} {offset : Nat}
    (h : Ascending offset (out.map Prod.snd).reverse) (ms : List (Option Lexeme × List Char)) :
    Ascending (offset + byteLen (ms.map Prod.snd).flatten)
      ((rawFrom out offset ms).map Prod.snd).reverse := by
  induction ms generalizing out offset with
  | nil => exact h
  | cons m ms ih =>
      obtain ⟨lexeme, slice⟩ := m
      have hend : offset + byteLen (((lexeme, slice) :: ms).map Prod.snd).flatten =
          offset + byteLen slice + byteLen (ms.map Prod.snd).flatten := by
        rw [List.map_cons, List.flatten_cons, byteLen_append, Nat.add_assoc]
      rw [hend, Lexer.rawFrom]
      dsimp only
      cases rawToken (out.head?.map Prod.fst) lexeme with
      | none => exact ih ⟨h.sorted, fun s hs => ⟨(h.within s hs).1, by
          have := (h.within s hs).2
          omega⟩⟩
      | some token =>
          refine ih ?_
          have hkeep : Ascending (offset + byteLen slice)
              (((token, (⟨offset, offset + byteLen slice⟩ : Span)) :: out).map
                Prod.snd).reverse := by
            rw [List.map_cons, List.reverse_cons]
            exact h.snoc le_rfl (Nat.le_add_right _ _) le_rfl
          unfold pushRaw
          split_ifs
          · split
            · rw [List.map_cons, List.reverse_cons] at h ⊢
              exact h.extend le_rfl (Nat.le_add_right _ _) le_rfl
            · exact hkeep
          · exact hkeep

theorem Ascending.layout {raws : List (RawToken × Span)} {st st' : Layout} {comma : Bool}
    {lines : List Nat} (hkept : Kept st comma lines)
    (hkinds : ∀ raw ∈ raws, ∀ kind, raw.1 = .kw kind → kind.isLayout = false)
    (h : Ascending bound ((st.out.map Token.span).reverse ++ raws.map Prod.snd))
    (hlayout : layout raws st = .ok st') : Ascending bound (st'.out.map Token.span).reverse := by
  induction raws generalizing st comma lines with
  | nil =>
      cases hlayout
      rwa [List.map_nil, List.append_nil] at h
  | cons raw raws ih =>
      obtain ⟨token, span⟩ := raw
      have hkinds' : ∀ raw ∈ raws, ∀ kind, raw.1 = .kw kind → kind.isLayout = false :=
        fun raw hraw => hkinds raw (List.mem_cons_of_mem _ hraw)
      rw [List.map_cons] at h
      have hskip : Ascending bound ((st.out.map Token.span).reverse ++ raws.map Prod.snd) :=
        h.sublist ((List.sublist_cons_self _ _).append_left _)
      cases token with
      | error => cases hlayout
      | kw kind =>
          refine ih (hkept.content (hkinds _ List.mem_cons_self kind rfl) span) hkinds' ?_ hlayout
          rw [show (st.content kind span).out = ⟨kind, span⟩ :: st.out from rfl, List.map_cons,
            List.reverse_cons, List.append_assoc]
          exact h
      | lineStart width =>
          rw [Lexer.layout] at hlayout
          split_ifs at hlayout with hblank
          · exact ih hkept hkinds' hskip hlayout
          · by_cases hon : st.suspends width = true
            · rw [Layout.lineStart, if_pos hon] at hlayout
              exact ih hkept hkinds' hskip hlayout
            · cases hline : st.lineStart width span with
              | error error =>
                  rw [hline] at hlayout
                  cases hlayout
              | ok next =>
                  rw [hline] at hlayout
                  have hstarted := started_of_lineStart hkept.levels
                    (Bool.eq_false_iff.mpr hon) hline
                  obtain ⟨newer, hnewer, hall⟩ := hstarted.newer
                  refine ih (hkept.started hstarted) hkinds' ?_ hlayout
                  rw [hnewer, List.map_append, List.reverse_append, List.append_assoc]
                  refine h.copies (fun s hs => ?_)
                  obtain ⟨t, ht, rfl⟩ := List.mem_map.mp (List.mem_reverse.mp hs)
                  exact (hall t ht).2

end Spans

section Files

variable {identifiers : Identifiers} {src : List Char}

theorem demoteFirst_isLayout (kind : TokenKind) (word : List Char) (last : Option RawToken)
    (h : kind.isLayout = false) : (demoteFirst kind word last).isLayout = false := by
  unfold demoteFirst
  split_ifs
  · exact h
  · rfl
  · exact h

theorem wordToKind_isLayout (word : List Char) : (wordToKind word).isLayout = false := by
  unfold wordToKind
  split <;> rfl

theorem rawToken_isLayout {last : Option RawToken} {lexeme : Option Lexeme} {kind : TokenKind}
    (h : rawToken last lexeme = some (.kw kind)) : kind.isLayout = false := by
  unfold rawToken at h
  split at h
  case h_7 word =>
    cases h
    exact demoteFirst_isLayout _ _ _ (wordToKind_isLayout word)
  all_goals first | (cases h; done) | (cases h; rfl)

theorem rawFrom_isLayout {out : List (RawToken × Span)} {offset : Nat}
    (h : ∀ raw ∈ out, ∀ kind, raw.1 = .kw kind → kind.isLayout = false)
    (ms : List (Option Lexeme × List Char)) :
    ∀ raw ∈ rawFrom out offset ms, ∀ kind, raw.1 = .kw kind → kind.isLayout = false := by
  induction ms generalizing out offset with
  | nil => exact h
  | cons m ms ih =>
      obtain ⟨lexeme, slice⟩ := m
      rw [rawFrom]
      dsimp only
      cases hraw : rawToken (out.head?.map Prod.fst) lexeme with
      | none => exact ih h
      | some token =>
          refine ih ?_
          have hkeep : ∀ raw ∈ (token, (⟨offset, offset + byteLen slice⟩ : Span)) :: out,
              ∀ kind, raw.1 = .kw kind → kind.isLayout = false := by
            refine List.forall_mem_cons.mpr ⟨fun kind hkind => ?_, h⟩
            obtain rfl : token = .kw kind := hkind
            exact rawToken_isLayout hraw
          unfold pushRaw
          split_ifs
          · split
            · refine List.forall_mem_cons.mpr ⟨fun kind hkind => ?_, fun raw hraw =>
                h raw (List.mem_cons_of_mem _ hraw)⟩
              cases hkind
              rfl
            · exact hkeep
          · exact hkeep

theorem ascending_tokenizeRaw {st st' : Layout}
    (h : layout (tokenizeRaw identifiers src) st = .ok st') :
    Ascending (byteLen src) ((tokenizeRaw identifiers src).map Prod.snd) := by
  have hnone : ∀ m ∈ matched identifiers src, m.1 ≠ none := by
    intro m hm hnone
    obtain ⟨raw, hraw, herror⟩ := error_mem_rawFrom 0 [] (.inr ⟨m, hm, hnone⟩)
    obtain ⟨error, herror⟩ := layout_error ⟨raw, List.mem_reverse.mpr hraw, herror⟩ st
    rw [tokenizeRaw, herror] at h
    cases h
  obtain ⟨pieces, hcut⟩ := exists_cut_iff.mpr hnone
  have hempty : Ascending 0 (([] : List (RawToken × Span)).map Prod.snd).reverse :=
    ⟨List.Pairwise.nil, by simp⟩
  have hraws := hempty.rawFrom (matched identifiers src)
  have hslices : ((matched identifiers src).map Prod.snd).flatten = src := by
    rw [matched_of_cut hcut, List.map_map]
    exact hcut.flatten
  rw [hslices, Nat.zero_add] at hraws
  rw [tokenizeRaw, List.map_reverse]
  exact hraws

theorem finish_eq (st : Layout) (eof : Span) :
    st.finish eof = (⟨.eof, eof⟩ ::
      (List.replicate (st.levels.length - 1) ⟨.dedent, eof⟩ ++ broken eof st.out)).reverse := rfl

theorem finish_newer (st : Layout) (eof : Span) :
    ∃ newer, st.finish eof = (newer ++ st.out).reverse ∧
      ∀ t ∈ newer, t.kind.isLayout = true ∧ t.span = eof := by
  obtain ⟨newer, hnewer, hall⟩ := broken_newer eof st.out
  refine ⟨⟨.eof, eof⟩ :: (List.replicate (st.levels.length - 1) ⟨.dedent, eof⟩ ++ newer), ?_, ?_⟩
  · rw [finish_eq, hnewer, List.cons_append, List.append_assoc]
  · refine List.forall_mem_cons.mpr ⟨⟨rfl, rfl⟩, fun t ht => ?_⟩
    rcases List.mem_append.mp ht with ht | ht
    · rw [List.eq_of_mem_replicate ht]
      exact ⟨rfl, rfl⟩
    · exact hall t ht

theorem Lined.behind_eof {b : Bool} {body newer older : List Token} {t : Token} {eof : Span}
    (h : Lined b body) (heq : ⟨.eof, eof⟩ :: body = newer ++ t :: older)
    (hnewline : t.kind = .newline) : Lined true older := by
  cases newer with
  | nil =>
      rw [← (List.cons.inj heq).1] at hnewline
      cases hnewline
  | cons head newer =>
      rw [(List.cons.inj heq).2] at h
      exact h.older hnewline

theorem Nests.finish {st : Layout} (h : Nests (st.levels.length - 1) st.out) (eof : Span) :
    Nests 0 (st.finish eof).reverse := by
  rw [finish_eq, List.reverse_reverse]
  refine (Nests.dedents ?_ eof).flat (by simp) (by simp)
  rw [Nat.zero_add]
  exact h.broken eof

theorem Ascending.finish {st : Layout} {stop : Nat}
    (h : Ascending stop (st.out.map Token.span).reverse) :
    Ascending stop ((st.finish ⟨stop, stop⟩).map Token.span) := by
  obtain ⟨newer, hnewer, hall⟩ := finish_newer st ⟨stop, stop⟩
  have hsnoc : Ascending stop ((st.out.map Token.span).reverse ++ (⟨stop, stop⟩ : Span) :: []) :=
    h.snoc le_rfl le_rfl le_rfl
  have hadded : ∀ s ∈ (newer.map Token.span).reverse, s = ⟨stop, stop⟩ := by
    intro s hs
    obtain ⟨t, ht, rfl⟩ := List.mem_map.mp (List.mem_reverse.mp hs)
    exact (hall t ht).2
  have hcopies := hsnoc.copies hadded
  rw [List.append_nil, ← List.reverse_append, ← List.map_append, ← List.map_reverse] at hcopies
  rwa [hnewer]

/-- Blocks are balanced, lines are broken between content only, the end of the file is the
last token, the spans are in order within the text, and the blocks open at a token are the
levels its logical line is indented further than. -/
theorem tokenize_layout {tokens : List Token} (h : tokenize identifiers src = .ok tokens) :
    (∀ n, countOf .dedent (tokens.take n) ≤ countOf .indent (tokens.take n)) ∧
      countOf .indent tokens = countOf .dedent tokens ∧
      (∃ front eof, tokens = front ++ [⟨.eof, eof⟩] ∧ ∀ t ∈ front, t.kind ≠ .eof) ∧
      (∀ t, tokens.head? = some t → t.kind ≠ .newline) ∧
      (∀ front middle back t t', tokens = front ++ t :: (middle ++ t' :: back) →
        t.kind = .newline → t'.kind = .newline → ∃ found ∈ middle, found.kind.isLayout = false) ∧
      (tokens.Pairwise fun t t' =>
        t.span.start ≤ t'.span.start ∧ t.span.stop ≤ t'.span.stop) ∧
      (∀ t ∈ tokens, t.span.start ≤ t.span.stop ∧ t.span.stop ≤ byteLen src) ∧
      depths 0 tokens =
        (logicalLines (tokenizeRaw identifiers src) 0 false [0]).map openBlocks := by
  obtain ⟨st, hlayout, rfl⟩ : ∃ st, layout (tokenizeRaw identifiers src) .initial = .ok st ∧
      tokens = st.finish ⟨byteLen src, byteLen src⟩ := by
    unfold tokenize at h
    split at h
    · cases h
    · split at h
      · cases h
      · split at h
        · cases h
        · rename_i st hst
          dsimp only at h
          split at h
          · cases h
          · exact ⟨st, hst, (Except.ok.inj h).symm⟩
  have hkinds : ∀ raw ∈ tokenizeRaw identifiers src, ∀ kind, raw.1 = .kw kind →
      kind.isLayout = false := fun raw hraw =>
    rawFrom_isLayout (by simp) _ raw (List.mem_reverse.mp hraw)
  have hkept : Kept .initial false [0] := ⟨.nil, .initial, rfl, rfl⟩
  obtain ⟨hnests, ⟨b, hlined, hb⟩, hdepths⟩ :=
    layout_kept hkept .nil (.inr (.inl rfl)) hkinds hlayout
  have hspans := ((ascending_tokenizeRaw hlayout).layout hkept hkinds hlayout).finish
  have hall := hnests.finish ⟨byteLen src, byteLen src⟩
  have hbody := (hlined.broken hb ⟨byteLen src, byteLen src⟩).dedents (st.levels.length - 1)
    ⟨byteLen src, byteLen src⟩
  refine ⟨fun n => ?_, ?_, ?_, fun t ht hnewline => ?_, ?_, ?_, fun t ht => ?_, ?_⟩
  · rw [finish_eq] at hall ⊢
    rw [List.reverse_reverse, ← List.take_append_drop (_ - n) (_ :: _)] at hall
    obtain ⟨d, hd⟩ := hall.older
    rw [List.take_reverse, countOf_reverse, countOf_reverse, hd.count]
    exact Nat.le_add_right _ _
  · have hcount := hall.count
    rwa [countOf_reverse, countOf_reverse, Nat.add_zero] at hcount
  · exact ⟨_, _, List.reverse_cons, fun t ht => hbody.ne_eof t (List.mem_reverse.mp ht)⟩
  · obtain ⟨back, hback⟩ := List.head?_eq_some_iff.mp ht
    rw [finish_eq, List.reverse_eq_iff, List.reverse_cons] at hback
    cases hbody.behind_eof hback hnewline
  · intro front middle back t t' heq hnewline hnewline'
    rw [finish_eq, List.reverse_eq_iff] at heq
    simp only [List.reverse_append, List.reverse_cons, List.append_assoc, List.singleton_append]
      at heq
    obtain ⟨found, hfound, hcontent⟩ := (hbody.behind_eof heq hnewline').between hnewline
    exact ⟨found, List.mem_reverse.mp hfound, hcontent⟩
  · exact List.pairwise_map.mp hspans.sorted
  · exact hspans.within t.span (List.mem_map_of_mem ht)
  · obtain ⟨newer, hnewer, hquiet⟩ := finish_newer st ⟨byteLen src, byteLen src⟩
    rw [hnewer, hnests.depths_layout (fun t ht => (hquiet t ht).1), hdepths]
    rfl

theorem tokenize_layout_view : tokenize asciiIdentifiers "view\n  Text x".toList = .ok
      [⟨.keyword .view, ⟨0, 4⟩⟩, ⟨.newline, ⟨4, 7⟩⟩, ⟨.indent, ⟨4, 7⟩⟩,
        ⟨.ident "Text".toList, ⟨7, 11⟩⟩, ⟨.ident "x".toList, ⟨12, 13⟩⟩, ⟨.newline, ⟨13, 13⟩⟩,
        ⟨.dedent, ⟨13, 13⟩⟩, ⟨.eof, ⟨13, 13⟩⟩] ∧
    [0, 1, 1] =
      (logicalLines (tokenizeRaw asciiIdentifiers "view\n  Text x".toList) 0 false [0]).map
        openBlocks := by
  have h : tokenize asciiIdentifiers "view\n  Text x".toList = .ok
      [⟨.keyword .view, ⟨0, 4⟩⟩, ⟨.newline, ⟨4, 7⟩⟩, ⟨.indent, ⟨4, 7⟩⟩,
        ⟨.ident "Text".toList, ⟨7, 11⟩⟩, ⟨.ident "x".toList, ⟨12, 13⟩⟩, ⟨.newline, ⟨13, 13⟩⟩,
        ⟨.dedent, ⟨13, 13⟩⟩, ⟨.eof, ⟨13, 13⟩⟩] := by decide +kernel
  obtain ⟨-, -, -, -, -, -, -, hdepths⟩ := tokenize_layout h
  exact ⟨h, hdepths⟩

end Files

end Lexer
end Zdeceptron
