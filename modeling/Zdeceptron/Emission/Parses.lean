import Zdeceptron.Emission.Value

/-!
# Reading a printed expression back

A printed expression is written from lexemes.  Their tokens are an expression of the level it
is printed at, and the one that is meant.  As they are written they keep apart, unless a minus
sign is printed before a minus sign, or a point behind a row of digits.
-/

namespace Zdeceptron
namespace Emission

open Library Ecma

section Pieces

variable {abc : Alphabet}

theorem spells_zero : Spells ⟨0, 0⟩ (codes "0") :=
  ⟨[48], [], none, rfl, ⟨by decide, by decide, nofun, nofun⟩, .inl rfl, rfl⟩

theorem spells_one : Spells ⟨1, 0⟩ (codes "1") :=
  ⟨[49], [], none, rfl, ⟨by decide, by decide, nofun, nofun⟩, .inr (by decide), rfl⟩

def zero : Numeral := ⟨codes "0", ⟨0, 0⟩, spells_zero⟩

def one : Numeral := ⟨codes "1", ⟨1, 0⟩, spells_one⟩

theorem spells_plain_number {x : Float} (hpos : 0 < (shortest x).digits)
    (hsmall : (shortest x).exponent ≤ 2048) : Spells (shortest x) (plain_number x) := by
  unfold plain_number
  split_ifs
  · exact spells_scientific hpos
  · exact spells_positional hpos hsmall

def numeralOf (x : Float) : Numeral :=
  if h : 0 < (shortest x).digits ∧ (shortest x).exponent ≤ 2048 then
    ⟨plain_number x, shortest x, spells_plain_number h.1 h.2⟩
  else zero

theorem numeralOf_eq {x : Float} {m : Nat} {e : Int} (h : Binary64.IsFinite x .positive m e) :
    (numeralOf x).text = plain_number x ∧ ofDecimal (numeralOf x).decimal = x := by
  unfold numeralOf
  rw [dif_pos ⟨shortest_pos h, shortest_exponent_le h⟩]
  exact ⟨rfl, ofDecimal_shortest h⟩

def plain (text : Text) (hne : text ≠ [])
    (h : ∀ c ∈ text, c ∈ codes "$_ABCDEFGHIJKLMNOPQRSTUVWXYZabcdefghijklmnopqrstuvwxyz") :
    Identifier abc where
  text := text
  head := by
    obtain ⟨c, cs, rfl⟩ := List.exists_cons_of_ne_nil hne
    exact ⟨c, cs, rfl, abc.letters c (h c List.mem_cons_self)⟩
  parts c hc := abc.start_part c (abc.letters c (h c hc))

def IndexKind.identifier (kind : IndexKind) : Identifier abc :=
  plain kind.helper (by cases kind <;> decide +kernel) (by cases kind <;> decide +kernel)

def newIdentifier : Identifier abc := plain new_ (by decide) (by decide)

def leftParen : Lexeme abc := .mark .leftParen rfl

def rightParen : Lexeme abc := .mark .rightParen rfl

def dot : Lexeme abc := .mark .dot rfl

def numberPieces (x : Float) : List (Lexeme abc) :=
  match x.toModel.unpack with
  | .notANumber =>
      [leftParen, .number zero, .mark .divided rfl, .number zero, rightParen]
  | .infinity .positive =>
      [leftParen, .number one, .mark .divided rfl, .number zero, rightParen]
  | .infinity .negative =>
      [leftParen, .mark .minus rfl, .number one, .mark .divided rfl, .number zero, rightParen]
  | .zero _ => [.number zero]
  | .finite .positive _ _ _ => [.number (numeralOf x)]
  | .finite .negative _ _ _ =>
      [leftParen, .mark .minus rfl, .number (numeralOf (-x)), rightParen]

def commaPieces : List (List (Lexeme abc)) → List (Lexeme abc)
  | [] => []
  | [ls] => ls
  | ls :: rest => ls ++ .mark .comma rfl :: .blank :: commaPieces rest

def callPieces (callee : Identifier abc) (args : List (List (Lexeme abc))) :
    List (Lexeme abc) :=
  .name callee :: leftParen :: (commaPieces args ++ [rightParen])

def spaced (mark : Mark) (noComment : mark.isComment = false) (ls : List (Lexeme abc)) :
    List (Lexeme abc) :=
  .blank :: .mark mark noComment :: .blank :: ls

def grouped (precedence needed : Nat) (ls : List (Lexeme abc)) : List (Lexeme abc) :=
  if precedence < needed then leftParen :: (ls ++ [rightParen]) else ls

theorem BinOp.noComment (op : BinOp) : op.symbol.1.isComment = false := by
  cases op <;> rfl

theorem UnaryOp.noComment (op : UnaryOp) : op.mark.isComment = false := by
  cases op <;> rfl

mutual

def pieces : HirExpr abc → List (Lexeme abc)
  | .number x => numberPieces x
  | .ref name true => callPieces name.toIdentifier []
  | .ref name false => [.name name.toIdentifier]
  | .unary op operand =>
      .mark op.mark op.noComment ::
        grouped (value operand).precedence precedence.UNARY (pieces operand)
  | .binary op lhs rhs =>
      grouped (value lhs).precedence op.symbol.2 (pieces lhs) ++
        spaced op.symbol.1 op.noComment
          (grouped (value rhs).precedence (op.symbol.2 + 1) (pieces rhs))
  | .contains target lhs rhs => callPieces target.toIdentifier [pieces lhs, pieces rhs]
  | .conditional condition v otherwise =>
      grouped (value condition).precedence (precedence.CONDITIONAL + 1) (pieces condition) ++
        spaced .question (by decide)
          (grouped (value v).precedence precedence.CONDITIONAL (pieces v) ++
            spaced .colon (by decide)
              (grouped (value otherwise).precedence precedence.CONDITIONAL (pieces otherwise)))
  | .field base name inner =>
      grouped (value base).precedence precedence.MEMBER (pieces base) ++
        dot :: .name name :: inner.elim [] (fun inner => [dot, .name inner])
  | .index kind base key => callPieces kind.identifier [pieces base, pieces key]
  | .call callee args => callPieces callee.toIdentifier (piecesOf args)
  | .construct callee args =>
      .name newIdentifier :: .blank :: callPieces callee.toIdentifier (piecesOf args)
  | .method receiver symbol args =>
      grouped (value receiver).precedence precedence.MEMBER (pieces receiver) ++
        dot :: callPieces symbol (piecesOf args)
  | .identity operand => pieces operand

def piecesOf : List (HirExpr abc) → List (List (Lexeme abc))
  | [] => []
  | e :: es => pieces e :: piecesOf es

end

end Pieces

section Written

variable {abc : Alphabet}

theorem isFinite_of_unpack {x : Float} {sign : Float.Model.UnpackedFloat.Sign} {m : Nat}
    {e : Int} {hpos : 0 < m} (h : x.toModel.unpack = .finite sign m e hpos) :
    Binary64.IsFinite x sign m e := by
  have hfinite : x.isFinite = true := by
    change x.toModel.unpack.isFinite = true
    rw [h]
    rfl
  rcases Binary64.zero_or_finite hfinite with ⟨sign', hzero⟩ | ⟨sign', m', e', hx⟩
  · cases hzero.symm.trans h
  · cases hx.unpack.symm.trans h
    exact hx

theorem number_shape (abc : Alphabet) (x : Float) :
    (∃ n : Numeral, (numberPieces x : List (Lexeme abc)) = [.number n] ∧ number x = n.text ∧
      denoteNumber x = .number (ofDecimal n.decimal)) ∨
    ∃ inside : List (Lexeme abc), numberPieces x = leftParen :: (inside ++ [rightParen]) ∧
      number x = codes "(" ++ written inside ++ codes ")" ∧
      Derives 2 (inside.filterMap Lexeme.token) (denoteNumber x) ∧
      ∀ clean after, Tidy clean (rightParen :: after) →
        Tidy clean (inside ++ rightParen :: after) := by
  have hquotient : ∀ {a b : Float} {ts : List Token} {t : Tree}, Derives 12 ts t →
      Derives 2 (ts ++ [.mark .divided, .number b]) (.binary .divided t (.number b)) :=
    fun h => by
      have hdivided : Mark.divided.level = some 12 := rfl
      exact (Derives.binary hdivided h (.loosen_le (.number _) (by decide))).loosen_le (by decide)
  have hnumber : ∀ {l : Nat} (a : Float), l ≤ 18 → Derives l [.number a] (.number a) :=
    fun a hl => (Derives.number a).loosen_le hl
  have hnegated : ∀ a : Float, Derives 14 [.mark .minus, .number a]
      (.unary .minus (.number a)) := fun a => .unary rfl (hnumber a (by decide))
  unfold numberPieces number denoteNumber
  cases hunpack : x.toModel.unpack with
  | notANumber =>
      refine .inr ⟨[.number zero, .mark .divided rfl, .number zero], rfl, rfl,
        hquotient (a := 0) (hnumber _ (by decide)), fun clean after h => ?_⟩
      exact tidy_number_mark (by decide) (tidy_mark_number rfl (tidy_number_mark (by decide) h))
  | infinity sign =>
      cases sign with
      | positive =>
          refine .inr ⟨[.number one, .mark .divided rfl, .number zero], rfl, rfl,
            hquotient (a := 0) (hnumber _ (by decide)), fun clean after h => ?_⟩
          exact tidy_number_mark (by decide)
            (tidy_mark_number rfl (tidy_number_mark (by decide) h))
      | negative =>
          refine .inr ⟨[.mark .minus rfl, .number one, .mark .divided rfl, .number zero], rfl,
            rfl, hquotient (a := 0) ((hnegated _).loosen_le (by decide)),
            fun clean after h => ?_⟩
          exact tidy_mark_number rfl (tidy_number_mark (by decide)
            (tidy_mark_number rfl (tidy_number_mark (by decide) h)))
  | zero sign => exact .inl ⟨zero, rfl, rfl, rfl⟩
  | finite sign m e hpos =>
      cases sign with
      | positive =>
          obtain ⟨htext, hvalue⟩ := numeralOf_eq (isFinite_of_unpack hunpack)
          exact .inl ⟨numeralOf x, rfl, htext.symm, by rw [hvalue]⟩
      | negative =>
          have hfinite : Binary64.IsFinite (-x) .positive m e := (isFinite_of_unpack hunpack).neg
          obtain ⟨htext, hvalue⟩ := numeralOf_eq hfinite
          refine .inr ⟨[.mark .minus rfl, .number (numeralOf (-x))], rfl, ?_, ?_,
            fun clean after h => ?_⟩
          · change codes "(-" ++ plain_number (-x) ++ codes ")" =
              codes "(" ++ (codes "-" ++ ((numeralOf (-x)).text ++ [])) ++ codes ")"
            rw [htext, List.append_nil]
            rfl
          · change Derives 2 [.mark .minus, .number (ofDecimal (numeralOf (-x)).decimal)]
              (.unary .minus (.number (-x)))
            rw [hvalue]
            exact (hnegated (-x)).loosen_le (by decide)
          · exact tidy_mark_number rfl (tidy_number_mark (by decide) h)

theorem written_commaPieces (lss : List (List (Lexeme abc))) :
    written (commaPieces lss) = join (codes ", ") (lss.map written) := by
  induction lss with
  | nil => rfl
  | cons ls lss ih =>
      cases lss with
      | nil => rfl
      | cons ls' lss =>
          rw [commaPieces, written_append, written_cons, written_cons, ih]
          · change _ = written ls ++ codes ", " ++ join (codes ", ") ((ls' :: lss).map written)
            rw [List.append_assoc]
            rfl
          · exact List.cons_ne_nil _ _

theorem written_callPieces (callee : Identifier abc) (args : List (List (Lexeme abc))) :
    written (callPieces callee args) = called callee.text (args.map written) := by
  unfold callPieces called
  rw [written_cons, written_cons, written_append, written_commaPieces, List.append_assoc,
    List.append_assoc]
  rfl

theorem written_grouped (p needed : Nat) (ls : List (Lexeme abc)) :
    written (grouped p needed ls) = Expr.operand ⟨written ls, p⟩ needed := by
  unfold grouped Expr.operand
  split_ifs
  · rw [written_cons, written_append, List.append_assoc]
    rfl
  · rfl

theorem written_spaced (mark : Mark) (h : mark.isComment = false) (ls : List (Lexeme abc)) :
    written (spaced mark h ls) = codes " " ++ mark.text ++ codes " " ++ written ls := by
  rw [spaced, written_cons, written_cons, written_cons, List.append_assoc, List.append_assoc]
  rfl

theorem written_number (x : Float) : written (numberPieces x : List (Lexeme abc)) = number x := by
  rcases number_shape abc x with ⟨n, hpieces, hnumber, -⟩ | ⟨inside, hpieces, hnumber, -⟩
  · rw [hpieces, hnumber, written_cons, written_nil, List.append_nil]
    rfl
  · rw [hpieces, hnumber, written_cons, written_append, List.append_assoc]
    rfl

mutual

theorem written_pieces : (e : HirExpr abc) → written (pieces e) = (value e).text
  | .number x => written_number x
  | .ref name true => by
      rw [pieces, written_callPieces, called, List.map_nil, join, List.append_nil,
        List.append_assoc]
      rfl
  | .ref name false => List.append_nil _
  | .unary op operand => by
      rw [pieces, written_cons, written_grouped, written_pieces operand]
      rfl
  | .binary op lhs rhs => by
      rw [pieces, written_append, written_spaced, written_grouped, written_grouped,
        written_pieces lhs, written_pieces rhs, value]
      simp only [List.append_assoc]
  | .contains target lhs rhs => by
      rw [pieces, written_callPieces, List.map_cons, List.map_cons, List.map_nil,
        written_pieces lhs, written_pieces rhs]
      rfl
  | .conditional condition v otherwise => by
      rw [pieces, written_append, written_spaced, written_append, written_spaced,
        written_grouped, written_grouped, written_grouped, written_pieces condition,
        written_pieces v, written_pieces otherwise, value]
      simp only [List.append_assoc]
      rfl
  | .field base name inner => by
      rw [pieces, written_append, written_cons, written_cons, written_grouped,
        written_pieces base, value]
      simp only [List.append_assoc]
      cases inner with
      | none => rfl
      | some inner =>
          rw [Option.elim_some, Option.elim_some, written_cons, written_cons, written_nil,
            List.append_nil]
          rfl
  | .index kind base key => by
      rw [pieces, written_callPieces, List.map_cons, List.map_cons, List.map_nil,
        written_pieces base, written_pieces key]
      rfl
  | .call callee args => by
      rw [pieces, written_callPieces, written_piecesOf args]
      rfl
  | .construct callee args => by
      rw [pieces, written_cons, written_cons, written_callPieces, written_piecesOf args]
      rfl
  | .method receiver symbol args => by
      rw [pieces, written_append, written_cons, written_callPieces, written_grouped,
        written_pieces receiver, written_piecesOf args, value]
      simp only [List.append_assoc]
      rfl
  | .identity operand => written_pieces operand

theorem written_piecesOf : (es : List (HirExpr abc)) → (piecesOf es).map written = values es
  | [] => rfl
  | e :: es => by
      rw [piecesOf, List.map_cons, written_pieces e, written_piecesOf es, values]

end

end Written

section Derived

variable {abc : Alphabet}

theorem two_le_precedence : (e : HirExpr abc) → 2 ≤ (value e).precedence
  | .ref _ true => show 2 ≤ precedence.MEMBER by decide
  | .binary op _ _ => show 2 ≤ op.symbol.2 by cases op <;> decide
  | .unary _ _ => show 2 ≤ precedence.UNARY by decide
  | .conditional _ _ _ => le_refl _
  | .number _ | .ref _ false => show 2 ≤ precedence.PRIMARY by decide
  | .contains _ _ _ | .field _ _ _ | .index _ _ _ | .call _ _ | .construct _ _
  | .method _ _ _ => show 2 ≤ precedence.MEMBER by decide
  | .identity operand => two_le_precedence operand

def tokensOf (ls : List (Lexeme abc)) : List Token := ls.filterMap Lexeme.token

theorem tokensOf_append (ls ls' : List (Lexeme abc)) :
    tokensOf (ls ++ ls') = tokensOf ls ++ tokensOf ls' := List.filterMap_append

variable {t : Tree}

theorem derives_grouped (needed : Nat) {ls : List (Lexeme abc)} {p : Nat} (hp : 2 ≤ p)
    (hneeded : needed ≤ precedence.PRIMARY) (h : Derives p (tokensOf ls) t) :
    Derives needed (tokensOf (grouped p needed ls)) t := by
  unfold grouped
  split_ifs with hlt
  · have hgroup := (Derives.group (h.loosen_le hp)).loosen_le hneeded
    have htokens : tokensOf (leftParen :: (ls ++ [rightParen])) =
        .mark .leftParen :: (tokensOf ls ++ [.mark .rightParen]) := by
      change _ :: tokensOf (ls ++ [rightParen]) = _
      rw [tokensOf_append]
      rfl
    rw [htokens]
    exact hgroup
  · exact h.loosen_le (Nat.le_of_not_lt hlt)

theorem tokensOf_commaPieces (lss : List (List (Lexeme abc))) :
    tokensOf (commaPieces lss) = commas (lss.map tokensOf) := by
  induction lss with
  | nil => rfl
  | cons ls lss ih =>
      cases lss with
      | nil => rfl
      | cons ls' lss =>
          rw [commaPieces, tokensOf_append, List.map_cons, List.map_cons, commas,
            ← List.map_cons, ← ih]
          · rfl
          · exact List.cons_ne_nil _ _
          · exact List.cons_ne_nil _ _

theorem tokensOf_arguments (lss : List (List (Lexeme abc))) :
    tokensOf (leftParen :: (commaPieces lss ++ [rightParen])) =
      .mark .leftParen :: (commas (lss.map tokensOf) ++ [.mark .rightParen]) := by
  change _ :: tokensOf (commaPieces lss ++ [rightParen]) = _
  rw [tokensOf_append, tokensOf_commaPieces]
  rfl

theorem derives_call {ts : List Token} (h : Derives precedence.MEMBER ts t)
    (args : List (List (Lexeme abc) × Tree))
    (hargs : ∀ arg ∈ args, Derives 2 (tokensOf arg.1) arg.2) :
    Derives precedence.MEMBER
      (ts ++ tokensOf (leftParen :: (commaPieces (args.map Prod.fst) ++ [rightParen])))
      (.call t (args.map Prod.snd)) := by
  have htokens : ∀ arg ∈ args.map fun arg => (tokensOf arg.1, arg.2), Derives 2 arg.1 arg.2 := by
    intro arg harg
    obtain ⟨arg', harg', rfl⟩ := List.mem_map.mp harg
    exact hargs arg' harg'
  have hcall := Derives.call h htokens
  rw [List.map_map, List.map_map] at hcall
  rw [tokensOf_arguments, List.map_map]
  exact hcall

theorem derives_named (callee : Name abc) (args : List (List (Lexeme abc) × Tree))
    (hargs : ∀ arg ∈ args, Derives 2 (tokensOf arg.1) arg.2) :
    Derives precedence.MEMBER (tokensOf (callPieces callee.toIdentifier (args.map Prod.fst)))
      (.call (.name callee.text) (args.map Prod.snd)) :=
  derives_call ((Derives.name callee.free).loosen_le (by decide)) args hargs

theorem derives_field {ts : List Token} (h : Derives precedence.MEMBER ts t)
    (name : Identifier abc) :
    Derives precedence.MEMBER (ts ++ tokensOf [dot, .name name]) (.member t name.text) :=
  .member h name.text

theorem BinOp.level (op : BinOp) : op.symbol.1.level = some op.symbol.2 := by
  cases op <;> rfl

theorem UnaryOp.isUnary (op : UnaryOp) : op.mark.isUnary = true := by
  cases op <;> rfl

theorem tokensOf_spaced (mark : Mark) (h : mark.isComment = false) (ls : List (Lexeme abc)) :
    tokensOf (spaced mark h ls) = .mark mark :: tokensOf ls := rfl

theorem free_helper (kind : IndexKind) : kind.helper ∉ reserved := by
  cases kind <;> decide +kernel

theorem derives_number (x : Float) :
    Derives precedence.PRIMARY (tokensOf (numberPieces x : List (Lexeme abc)))
      (denoteNumber x) := by
  rcases number_shape abc x with ⟨n, hpieces, -, hdenote⟩ | ⟨inside, hpieces, -, hinside, -⟩
  · rw [hpieces, hdenote]
    exact .number _
  · rw [hpieces]
    have htokens : tokensOf (leftParen :: (inside ++ [rightParen])) =
        .mark .leftParen :: (tokensOf inside ++ [.mark .rightParen]) := by
      change _ :: tokensOf (inside ++ [rightParen]) = _
      rw [tokensOf_append]
      rfl
    rw [htokens]
    exact .group hinside

def arguments (es : List (HirExpr abc)) : List (List (Lexeme abc) × Tree) :=
  es.map fun e => (pieces e, denote e)

theorem arguments_pieces (es : List (HirExpr abc)) :
    (arguments es).map Prod.fst = piecesOf es := by
  induction es with
  | nil => rfl
  | cons e es ih => rw [piecesOf, ← ih]; rfl

theorem arguments_denotes (es : List (HirExpr abc)) :
    (arguments es).map Prod.snd = denotes es := by
  induction es with
  | nil => rfl
  | cons e es ih => rw [denotes, ← ih]; rfl

mutual

theorem derives_pieces : (e : HirExpr abc) →
    Derives (value e).precedence (tokensOf (pieces e)) (denote e)
  | .number x => derives_number x
  | .ref name true => derives_named name [] nofun
  | .ref name false => .name name.free
  | .unary op operand => by
      have hoperand := derives_grouped precedence.UNARY (two_le_precedence operand)
        (by decide) (derives_pieces operand)
      exact .unary op.isUnary hoperand
  | .binary op lhs rhs => by
      have hlevel : op.symbol.2 ≤ 12 := by cases op <;> decide
      have hl := derives_grouped op.symbol.2 (two_le_precedence lhs)
        (hlevel.trans (by decide)) (derives_pieces lhs)
      have hr := derives_grouped (op.symbol.2 + 1) (two_le_precedence rhs)
        ((Nat.succ_le_succ hlevel).trans (by decide)) (derives_pieces rhs)
      rw [pieces, tokensOf_append, tokensOf_spaced]
      exact .binary op.level hl hr
  | .contains target lhs rhs => by
      refine derives_named target [(pieces lhs, denote lhs), (pieces rhs, denote rhs)] ?_
      rintro arg (_ | ⟨_, _ | ⟨_, ⟨⟩⟩⟩)
      · exact (derives_pieces lhs).loosen_le (two_le_precedence lhs)
      · exact (derives_pieces rhs).loosen_le (two_le_precedence rhs)
  | .conditional condition v otherwise => by
      have hc := derives_grouped (precedence.CONDITIONAL + 1)
        (two_le_precedence condition) (by decide) (derives_pieces condition)
      have hv := derives_grouped precedence.CONDITIONAL (two_le_precedence v)
        (by decide) (derives_pieces v)
      have ho := derives_grouped precedence.CONDITIONAL (two_le_precedence otherwise)
        (by decide) (derives_pieces otherwise)
      rw [pieces, tokensOf_append, tokensOf_spaced, tokensOf_append, tokensOf_spaced]
      exact .conditional hc hv ho
  | .field base name inner => by
      have hbase := derives_grouped precedence.MEMBER (two_le_precedence base)
        (by decide) (derives_pieces base)
      have hfield := derives_field hbase name
      cases inner with
      | none =>
          rw [pieces, tokensOf_append]
          exact hfield
      | some inner =>
          have htwice := derives_field hfield inner
          rw [← tokensOf_append, ← tokensOf_append, List.append_assoc] at htwice
          exact htwice
  | .index kind base key => by
      have hname : Derives precedence.MEMBER [.name kind.helper] (.name kind.helper) :=
        (Derives.name (free_helper kind)).loosen_le (by decide)
      refine derives_call hname [(pieces base, denote base), (pieces key, denote key)] ?_
      rintro arg (_ | ⟨_, _ | ⟨_, ⟨⟩⟩⟩)
      · exact (derives_pieces base).loosen_le (two_le_precedence base)
      · exact (derives_pieces key).loosen_le (two_le_precedence key)
  | .call callee args => by
      have hcall := derives_named callee _ (derives_piecesOf args)
      rw [arguments_pieces, arguments_denotes] at hcall
      exact hcall
  | .construct callee args => by
      have hargs : ∀ arg ∈ (arguments args).map fun arg => (tokensOf arg.1, arg.2),
          Derives 2 arg.1 arg.2 := by
        intro arg harg
        obtain ⟨arg', harg', rfl⟩ := List.mem_map.mp harg
        exact derives_piecesOf args arg' harg'
      have hconstruct := Derives.construct callee.free hargs
      rw [List.map_map, List.map_map] at hconstruct
      have htokens : tokensOf (pieces (.construct callee args)) =
          .name new_ :: .name callee.text :: .mark .leftParen ::
            (commas ((piecesOf args).map tokensOf) ++ [.mark .rightParen]) := by
        rw [← tokensOf_arguments]
        rfl
      rw [htokens, ← arguments_pieces, List.map_map, denote, ← arguments_denotes]
      exact hconstruct
  | .method receiver symbol args => by
      have hreceiver := derives_grouped precedence.MEMBER
        (two_le_precedence receiver) (by decide) (derives_pieces receiver)
      have hcall := derives_call (derives_field hreceiver symbol) _ (derives_piecesOf args)
      rw [arguments_pieces, arguments_denotes, ← tokensOf_append, ← tokensOf_append,
        List.append_assoc] at hcall
      exact hcall
  | .identity operand => derives_pieces operand

theorem derives_piecesOf : (es : List (HirExpr abc)) →
    ∀ arg ∈ arguments es, Derives 2 (tokensOf arg.1) arg.2
  | [] => nofun
  | e :: es => by
      rintro arg (_ | ⟨_, harg⟩)
      · exact (derives_pieces e).loosen_le (two_le_precedence e)
      · exact derives_piecesOf es arg harg

end

end Derived

end Emission
end Zdeceptron
