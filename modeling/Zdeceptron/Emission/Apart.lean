import Zdeceptron.Emission.Parses

/-!
# What touches in a printed expression

* `value_parses_iff`: the text of an expression is read as what is meant exactly if it has
  neither.
-/

namespace Zdeceptron
namespace Emission

open Library Ecma

section Shapes

variable {abc : Alphabet}

theorem negated_pieces : (e : HirExpr abc) → e.isNegated = true →
    (value e).precedence = precedence.UNARY ∧
      ∃ noComment rest, pieces e = .mark .minus noComment :: rest
  | .unary .neg _, _ => ⟨rfl, _, _, rfl⟩
  | .identity operand, h => negated_pieces operand h

theorem integer_pieces : (e : HirExpr abc) → e.isInteger = true →
    (value e).precedence = precedence.PRIMARY ∧
      ∃ n : Numeral, pieces e = [.number n] ∧ n.isWhole = true
  | .number x, h => by
      have hall : (number x).all isDigit = true := h
      rcases number_shape abc x with ⟨n, hpieces, hnumber, -⟩ | ⟨inside, -, hnumber, -⟩
      · exact ⟨rfl, n, hpieces, by rwa [hnumber] at hall⟩
      · rw [hnumber, List.all_append, List.all_append] at hall
        cases hall
  | .identity operand, h => integer_pieces operand h

/-- The text begins with no operator but a prefix, and with a minus sign only if it may. -/
def Opens (abc : Alphabet) (negated : Prop) (text : Text) : Prop :=
  ∃ c, text.head? = some c ∧ (abc.part c = true ∨ c = 40 ∨ c = 33 ∨ c = 45 ∧ negated)

theorem Opens.mono {negated negated' : Prop} (himp : negated → negated') {text : Text}
    (h : Opens abc negated text) : Opens abc negated' text := by
  obtain ⟨c, hc, hkind⟩ := h
  exact ⟨c, hc, hkind.imp_right (Or.imp_right (Or.imp_right (And.imp_right himp)))⟩

variable {negated : Prop}

theorem opens_name (name : Identifier abc) (after : List (Lexeme abc)) :
    Opens abc negated (written (.name name :: after)) := by
  obtain ⟨c, cs, htext, hstart⟩ := name.head
  refine ⟨c, ?_, .inl (abc.start_part c hstart)⟩
  rw [written_cons, Lexeme.text, htext]
  rfl

theorem opens_number (x : Float) (after : List (Lexeme abc)) :
    Opens abc negated (written (numberPieces x ++ after)) := by
  rcases number_shape abc x with ⟨n, hpieces, -⟩ | ⟨inside, hpieces, -⟩
  · obtain ⟨c, hc, -, hpart⟩ := head_numeral n abc (written after)
    refine ⟨c, ?_, .inl hpart⟩
    rw [hpieces, List.singleton_append, written_cons]
    exact hc
  · rw [hpieces]
    exact ⟨40, rfl, .inr (.inl rfl)⟩

theorem opens_grouped (p needed : Nat) {ls after : List (Lexeme abc)}
    (h : Opens abc negated (written (ls ++ after))) :
    Opens abc (needed ≤ p ∧ negated) (written (grouped p needed ls ++ after)) := by
  unfold grouped
  split_ifs with hlt
  · exact ⟨40, rfl, .inr (.inl rfl)⟩
  · exact h.mono fun hnegated => ⟨Nat.le_of_not_lt hlt, hnegated⟩

theorem opens_pieces : (e : HirExpr abc) → (after : List (Lexeme abc)) →
    Opens abc ((value e).precedence < precedence.UNARY ∨ e.isNegated = true)
      (written (pieces e ++ after))
  | .number x, after => opens_number x after
  | .ref name true, after => opens_name name.toIdentifier _
  | .ref name false, after => opens_name name.toIdentifier _
  | .unary .not _, _ => ⟨33, rfl, .inr (.inr (.inl rfl))⟩
  | .unary .neg _, _ => ⟨45, rfl, .inr (.inr (.inr ⟨rfl, .inr rfl⟩))⟩
  | .binary op lhs rhs, after => by
      rw [pieces, List.append_assoc]
      refine (opens_grouped _ _ (opens_pieces lhs _)).mono fun _ => .inl ?_
      change op.symbol.2 < precedence.UNARY
      cases op <;> decide
  | .contains target _ _, _ => opens_name target.toIdentifier _
  | .conditional condition _ _, after => by
      rw [pieces, List.append_assoc]
      refine (opens_grouped _ _ (opens_pieces condition _)).mono fun _ => .inl ?_
      change precedence.CONDITIONAL < precedence.UNARY
      decide
  | .field base _ _, after => by
      rw [pieces, List.append_assoc]
      exact (opens_grouped _ _ (opens_pieces base _)).mono (not_negated base)
  | .index kind _ _, _ => opens_name kind.identifier _
  | .call callee _, _ => opens_name callee.toIdentifier _
  | .construct _ _, _ => opens_name newIdentifier _
  | .method receiver _ _, after => by
      rw [pieces, List.append_assoc]
      exact (opens_grouped _ _ (opens_pieces receiver _)).mono (not_negated receiver)
  | .identity operand, after => opens_pieces operand after
where
  not_negated (e : HirExpr abc) {negated : Prop}
      (h : precedence.MEMBER ≤ (value e).precedence ∧
        ((value e).precedence < precedence.UNARY ∨ e.isNegated = true)) : negated := by
    obtain ⟨hlevel, hlow | hnegated⟩ := h
    · exact absurd (hlevel.trans_lt hlow) (by decide)
    · rw [(negated_pieces e hnegated).1] at hlevel
      exact absurd hlevel (by decide)

end Shapes

section Tidy

variable {abc : Alphabet} {clean : Prop} {after : List (Lexeme abc)}

theorem part_of_mark (mark : Mark) {c : Nat} (hc : c ∈ mark.text) : abc.part c = false :=
  abc.marks mark c hc

theorem tidy_closed {mark : Mark} {h : mark.isComment = false} (hnone : mark.followers = [])
    (hpoint : mark.isPoint = false) (hafter : Tidy clean after) :
    Tidy clean (.mark mark h :: after) := by
  refine tidy_cons (fun c _ => ?_) hafter
  rw [Lexeme.glues, hnone, hpoint]
  rfl

theorem tidy_leftParen (hafter : Tidy clean after) : Tidy clean (leftParen :: after) :=
  tidy_closed (by decide) rfl hafter

theorem tidy_rightParen (hafter : Tidy clean after) : Tidy clean (rightParen :: after) :=
  tidy_closed (by decide) rfl hafter

theorem tidy_blank (hafter : Tidy clean after) : Tidy clean (.blank :: after) :=
  tidy_cons (fun _ _ => rfl) hafter

variable {h : Mark.comma.isComment = false}

theorem tidy_comma (hafter : Tidy clean after) :
    Tidy clean (.mark .comma h :: .blank :: after) :=
  tidy_closed (by decide) rfl (tidy_blank hafter)

theorem tidy_spaced (mark : Mark) (h : mark.isComment = false) (hafter : Tidy clean after) :
    Tidy clean (spaced mark h after) := by
  refine tidy_blank (tidy_cons (fun c hc => ?_) (tidy_blank hafter))
  cases hc
  exact glues_mark_blank

variable {name : Identifier abc}

theorem tidy_name
    (h : ∀ c, (written after).head? = some c → abc.part c = false) (hafter : Tidy clean after) :
    Tidy clean (.name name :: after) :=
  tidy_cons h hafter

/-- What closes an expression: what may follow any, or a point behind one that is tight. -/
def Closes (clean : Prop) (e : HirExpr abc) (after : List (Lexeme abc)) : Prop :=
  ∀ c, (written after).head? = some c → c = 32 ∨ c = 41 ∨ c = 44 ∨
    c = 46 ∧ precedence.MEMBER ≤ (value e).precedence ∧
      (e.isInteger = true → ¬ clean ∧ ∃ noComment f ls,
        after = .mark .dot noComment :: .name f :: ls ∧
          ∀ c, (written ls).head? = some c → abc.part c = false ∧ c ≠ 43 ∧ c ≠ 45)

theorem Closes.part {e : HirExpr abc} (h : Closes clean e after) {c : Nat}
    (hc : (written after).head? = some c) : abc.part c = false := by
  rcases h c hc with rfl | rfl | rfl | ⟨rfl, -⟩
  · exact abc.blank
  · exact part_of_mark .rightParen (by decide)
  · exact part_of_mark .comma (by decide)
  · exact part_of_mark .dot (by decide)

theorem Closes.of_lt {e e' : HirExpr abc} (h : Closes clean e after)
    (hlow : (value e).precedence < precedence.MEMBER) : Closes clean e' after := by
  intro c hc
  rcases h c hc with hblank | hparen | hcomma | ⟨-, hlevel, -⟩
  · exact .inl hblank
  · exact .inr (.inl hparen)
  · exact .inr (.inr (.inl hcomma))
  · exact absurd (hlevel.trans_lt hlow) (lt_irrefl _)

variable (e : HirExpr abc)

theorem closes_blank : Closes clean e (.blank :: after) :=
  fun _ hc => .inl (Option.some.inj hc).symm

theorem closes_rightParen : Closes clean e (rightParen :: after) :=
  fun _ hc => .inr (.inl (Option.some.inj hc).symm)

theorem closes_comma :
    Closes clean e (.mark .comma h :: after) :=
  fun _ hc => .inr (.inr (.inl (Option.some.inj hc).symm))

theorem tidy_grouped {e : HirExpr abc} (needed : Nat)
    (h : ∀ after, Closes clean e after → Tidy clean after → Tidy clean (pieces e ++ after))
    (hcloses : needed ≤ (value e).precedence → Closes clean e after) (hafter : Tidy clean after) :
    Tidy clean (grouped (value e).precedence needed (pieces e) ++ after) := by
  unfold grouped
  split_ifs with hlt
  · rw [List.cons_append, List.append_assoc]
    exact tidy_leftParen (h _ (closes_rightParen e) (tidy_rightParen hafter))
  · exact h _ (hcloses (Nat.le_of_not_lt hlt)) hafter

theorem tidy_number (x : Float) (hcloses : Closes clean (.number x) after)
    (hafter : Tidy clean after) : Tidy clean (numberPieces x ++ after) := by
  rcases number_shape abc x with ⟨n, hpieces, hnumber, -⟩ | ⟨inside, hpieces, -, -, hinside⟩
  · rw [hpieces, List.singleton_append]
    have hinteger : (HirExpr.number x : HirExpr abc).isInteger = n.isWhole := by
      rw [HirExpr.isInteger, hnumber]
      rfl
    by_cases hglued : (written after).head? = some 46 ∧ n.isWhole = true
    · obtain ⟨hpoint, hwhole⟩ := hglued
      rcases hcloses 46 hpoint with h | h | h | ⟨-, -, h⟩
      · cases h
      · cases h
      · cases h
      · obtain ⟨hunclean, noComment, f, ls, rfl, hls⟩ := h (hinteger.trans hwhole)
        exact ⟨.inr ⟨hunclean, .point hwhole hls⟩, hafter⟩
    · refine tidy_cons (fun c hc => glues_number (hcloses.part hc) ?_) hafter
      rintro hwhole rfl
      exact hglued ⟨hc, hwhole⟩
  · rw [hpieces, List.cons_append, List.append_assoc]
    exact tidy_leftParen (hinside clean after (tidy_rightParen hafter))

theorem glues_prefix {op : UnaryOp} {c : Nat} (h : op.mark.followers.contains c = false) :
    (Lexeme.mark op.mark op.noComment : Lexeme abc).glues c = false := by
  have hpoint : op.mark.isPoint = false := by cases op <;> rfl
  rw [Lexeme.glues, h, hpoint]
  rfl

theorem tidy_unary {op : UnaryOp} {operand : HirExpr abc}
    (hclean : clean → op = .neg → operand.isNegated = false)
    (hafter : Tidy clean (grouped (value operand).precedence precedence.UNARY (pieces operand) ++
      after)) :
    Tidy clean (.mark op.mark op.noComment ::
      (grouped (value operand).precedence precedence.UNARY (pieces operand) ++ after)) := by
  obtain ⟨c, hc, hkind⟩ := opens_grouped (value operand).precedence precedence.UNARY
    (opens_pieces operand after)
  by_cases hfused : op = .neg ∧ c = 45
  · obtain ⟨rfl, rfl⟩ := hfused
    have hnegated : operand.isNegated = true := by
      rcases hkind with hpart | h | h | ⟨-, hlevel, hlow | hnegated⟩
      · rw [part_of_mark .minus (by decide)] at hpart
        cases hpart
      · cases h
      · cases h
      · exact absurd (hlevel.trans_lt hlow) (lt_irrefl _)
      · exact hnegated
    refine ⟨.inr ⟨fun h => ?_, .minuses hc⟩, hafter⟩
    rw [hclean h rfl] at hnegated
    cases hnegated
  · refine tidy_cons (fun d hd => ?_) hafter
    obtain rfl := Option.some.inj (hc.symm.trans hd)
    rcases hkind with hpart | rfl | rfl | ⟨rfl, -⟩
    · refine glues_mark_part hpart ?_
      cases op <;> rfl
    · exact glues_prefix (by cases op <;> decide)
    · exact glues_prefix (by cases op <;> decide)
    · cases op with
      | not => exact glues_prefix (by decide)
      | neg => exact absurd ⟨rfl, rfl⟩ hfused

theorem tidy_dot (hafter : Tidy clean (.name name :: after)) :
    Tidy clean (dot :: .name name :: after) := by
  refine tidy_cons (fun c hc => ?_) hafter
  obtain ⟨d, ds, htext, hstart⟩ := name.head
  rw [written_cons, Lexeme.text, htext] at hc
  cases hc
  refine glues_mark_part (abc.start_part _ hstart) ?_
  by_contra hdigit
  rw [Bool.not_eq_false, Bool.and_eq_true] at hdigit
  rw [(abc.digits _ hdigit.2).2] at hstart
  cases hstart

theorem tidy_callee {callee : Identifier abc} (hafter : Tidy clean (leftParen :: after)) :
    Tidy clean (.name callee :: leftParen :: after) := by
  refine tidy_name (fun c hc => ?_) hafter
  cases hc
  exact part_of_mark .leftParen (by decide)

theorem callPieces_append (callee : Identifier abc) (lss : List (List (Lexeme abc)))
    (after : List (Lexeme abc)) : callPieces callee lss ++ after =
      .name callee :: leftParen :: (commaPieces lss ++ rightParen :: after) := by
  unfold callPieces
  rw [List.cons_append, List.cons_append, List.append_assoc]
  rfl

theorem spaced_append (mark : Mark) (h : mark.isComment = false) (ls after : List (Lexeme abc)) :
    spaced mark h ls ++ after = spaced mark h (ls ++ after) := rfl

theorem tidy_base {base : HirExpr abc}
    (h : ∀ after, Closes clean base after → Tidy clean after → Tidy clean (pieces base ++ after))
    (hclean : clean → base.isInteger = false)
    (hstop : ∀ c, (written after).head? = some c → abc.part c = false ∧ c ≠ 43 ∧ c ≠ 45)
    (hafter : Tidy clean (.name name :: after)) :
    Tidy clean (grouped (value base).precedence precedence.MEMBER (pieces base) ++
      dot :: .name name :: after) := by
  refine tidy_grouped _ h (fun hlevel c hc => ?_) (tidy_dot hafter)
  cases hc
  refine .inr (.inr (.inr ⟨rfl, hlevel, fun hinteger => ⟨fun h => ?_, _, _, _, rfl, hstop⟩⟩))
  rw [hclean h] at hinteger
  cases hinteger

theorem and_left {a b : Bool} (h : clean → (a && b) = true) : clean → a = true :=
  fun hclean => (Bool.and_eq_true _ _ ▸ h hclean).1

theorem and_right {a b : Bool} (h : clean → (a && b) = true) : clean → b = true :=
  fun hclean => (Bool.and_eq_true _ _ ▸ h hclean).2

mutual

theorem tidy_pieces : (e : HirExpr abc) → (clean → e.keepsApart = true) →
    ∀ after, Closes clean e after → Tidy clean after → Tidy clean (pieces e ++ after)
  | .number x, _, _, hcloses, hafter => tidy_number x hcloses hafter
  | .ref name true, _, _, _, hafter => tidy_callee (tidy_leftParen (tidy_rightParen hafter))
  | .ref name false, _, _, hcloses, hafter => tidy_name (fun _ hc => hcloses.part hc) hafter
  | .unary op operand, hclean, after, hcloses, hafter => by
      have hoperand : clean → operand.keepsApart = true := by
        cases op with
        | not => exact hclean
        | neg => exact and_right hclean
      refine tidy_unary (fun h hop => ?_) (tidy_grouped _ (tidy_pieces operand hoperand)
        (fun _ => hcloses.of_lt (show precedence.UNARY < precedence.MEMBER by decide)) hafter)
      subst hop
      simpa using and_left hclean h
  | .binary op lhs rhs, hclean, after, hcloses, hafter => by
      have hlow : (value (.binary op lhs rhs)).precedence < precedence.MEMBER := by
        change op.symbol.2 < precedence.MEMBER
        cases op <;> decide
      have hright := tidy_grouped (op.symbol.2 + 1)
        (tidy_pieces rhs (and_right hclean)) (fun _ => hcloses.of_lt hlow) hafter
      rw [pieces, List.append_assoc]
      exact tidy_grouped _ (tidy_pieces lhs (and_left hclean)) (fun _ => closes_blank lhs)
        (tidy_spaced _ _ hright)
  | .contains target lhs rhs, hclean, after, _, hafter => by
      have hrhs := tidy_pieces rhs (and_right hclean) _ (closes_rightParen rhs)
        (tidy_rightParen hafter)
      have hlhs := tidy_pieces lhs (and_left hclean) _ (closes_comma lhs)
        (tidy_comma (h := rfl) hrhs)
      rw [pieces, callPieces_append]
      refine tidy_callee (tidy_leftParen ?_)
      simpa [commaPieces] using hlhs
  | .conditional condition v otherwise, hclean, after, hcloses, hafter => by
      have hlow : (value (.conditional condition v otherwise)).precedence < precedence.MEMBER :=
        show precedence.CONDITIONAL < precedence.MEMBER by decide
      have hotherwise := tidy_grouped precedence.CONDITIONAL
        (tidy_pieces otherwise (and_right (and_right hclean))) (fun _ => hcloses.of_lt hlow) hafter
      have hvalue := tidy_grouped precedence.CONDITIONAL
        (tidy_pieces v (and_left (and_right hclean))) (fun _ => closes_blank v)
        (tidy_spaced .colon (by decide) hotherwise)
      rw [pieces, List.append_assoc, spaced_append, List.append_assoc]
      exact tidy_grouped _ (tidy_pieces condition (and_left hclean))
        (fun _ => closes_blank condition) (tidy_spaced _ _ hvalue)
  | .field base name inner, hclean, after, hcloses, hafter => by
      have hbase := tidy_pieces base (and_right hclean)
      have hinteger : clean → base.isInteger = false := fun h => by
        simpa using and_left hclean h
      have hstop : ∀ c, (written after).head? = some c →
          abc.part c = false ∧ c ≠ 43 ∧ c ≠ 45 := by
        intro c hc
        refine ⟨hcloses.part hc, ?_⟩
        rcases hcloses c hc with rfl | rfl | rfl | ⟨rfl, -⟩ <;> decide
      have hname : ∀ name : Identifier abc, Tidy clean (.name name :: after) := fun name =>
        tidy_name (fun c hc => (hstop c hc).1) hafter
      rw [pieces, List.append_assoc]
      cases inner with
      | none => exact tidy_base hbase hinteger hstop (hname name)
      | some inner =>
          refine tidy_base hbase hinteger (fun c hc => ?_)
            (tidy_name (fun c hc => ?_) (tidy_dot (hname inner)))
          · cases hc
            exact ⟨part_of_mark .dot (by decide), by decide, by decide⟩
          · cases hc
            exact part_of_mark .dot (by decide)
  | .index kind base key, hclean, after, _, hafter => by
      have hkey := tidy_pieces key (and_right hclean) _ (closes_rightParen key)
        (tidy_rightParen hafter)
      have hbase := tidy_pieces base (and_left hclean) _ (closes_comma base)
        (tidy_comma (h := rfl) hkey)
      rw [pieces, callPieces_append]
      refine tidy_callee (tidy_leftParen ?_)
      simpa [commaPieces] using hbase
  | .call callee args, hclean, after, _, hafter => by
      rw [pieces, callPieces_append]
      exact tidy_callee (tidy_leftParen (tidy_piecesOf args hclean after hafter))
  | .construct callee args, hclean, after, _, hafter => by
      rw [pieces, List.cons_append, List.cons_append, callPieces_append]
      refine tidy_name (fun c hc => ?_) (tidy_blank (tidy_callee (tidy_leftParen ?_)))
      · cases hc
        exact abc.blank
      · exact tidy_piecesOf args hclean after hafter
  | .method receiver symbol args, hclean, after, _, hafter => by
      have hreceiver := tidy_pieces receiver (and_left (and_right hclean))
      have hargs := tidy_piecesOf args (and_right (and_right hclean)) after hafter
      rw [pieces, List.append_assoc, List.cons_append, callPieces_append]
      refine tidy_base hreceiver (fun h => by simpa using and_left hclean h) (fun c hc => ?_)
        (tidy_callee (tidy_leftParen hargs))
      cases hc
      exact ⟨part_of_mark .leftParen (by decide), by decide, by decide⟩
  | .identity operand, hclean, after, hcloses, hafter =>
      tidy_pieces operand hclean after hcloses hafter

theorem tidy_piecesOf : (es : List (HirExpr abc)) → (clean → HirExpr.keepApart es = true) →
    ∀ after, Tidy clean after → Tidy clean (commaPieces (piecesOf es) ++ rightParen :: after)
  | [], _, _, hafter => tidy_rightParen hafter
  | [e], hclean, _, hafter =>
      tidy_pieces e (and_left hclean) _ (closes_rightParen e) (tidy_rightParen hafter)
  | e :: e' :: es, hclean, after, hafter => by
      have hrest := tidy_piecesOf (e' :: es) (and_right hclean) after hafter
      have hfirst := tidy_pieces e (and_left hclean) _ (closes_comma e) (tidy_comma (h := rfl) hrest)
      rw [piecesOf, piecesOf, commaPieces, List.append_assoc]
      · exact hfirst
      · exact List.cons_ne_nil _ _

end

end Tidy

section Glued

variable {abc : Alphabet} {after : List (Lexeme abc)}

theorem apart_grouped {p needed : Nat} {ls : List (Lexeme abc)}
    (h : Apart (grouped p needed ls ++ after)) : ∃ after', Apart (ls ++ after') := by
  unfold grouped at h
  split_ifs at h
  · rw [List.cons_append, List.append_assoc] at h
    exact ⟨_, h.2⟩
  · exact ⟨_, h⟩

theorem not_negated_of_apart {operand : HirExpr abc}
    (h : Apart (.mark UnaryOp.neg.mark UnaryOp.neg.noComment ::
      (grouped (value operand).precedence precedence.UNARY (pieces operand) ++ after))) :
    operand.isNegated = false := by
  rw [Bool.eq_false_iff]
  intro hnegated
  obtain ⟨hlevel, noComment, rest, hpieces⟩ := negated_pieces operand hnegated
  rw [grouped, if_neg (by rw [hlevel]; exact lt_irrefl _), hpieces] at h
  have hglues := h.1 45 rfl
  rw [Lexeme.glues, Bool.or_eq_false_iff] at hglues
  exact absurd hglues.1 (by decide)

theorem not_integer_of_apart {base : HirExpr abc}
    (h : Apart (grouped (value base).precedence precedence.MEMBER (pieces base) ++
      dot :: after)) : base.isInteger = false := by
  rw [Bool.eq_false_iff]
  intro hinteger
  obtain ⟨hlevel, n, hpieces, hwhole⟩ := integer_pieces base hinteger
  rw [grouped, if_neg (by rw [hlevel]; decide), hpieces] at h
  have hglues := h.1 46 rfl
  rw [Lexeme.glues, hwhole, Bool.or_eq_false_iff] at hglues
  exact absurd hglues.2 (by decide)

theorem apart_pair {ls rs : List (Lexeme abc)} (h : Apart (commaPieces [ls, rs] ++ after)) :
    (∃ after', Apart (ls ++ after')) ∧ Apart (rs ++ after) := by
  rw [commaPieces, List.append_assoc] at h
  · exact ⟨⟨_, h⟩, (Apart.of_append h).2.2⟩
  · exact List.cons_ne_nil _ _

mutual

theorem keepsApart_of_apart : (e : HirExpr abc) → (after : List (Lexeme abc)) →
    Apart (pieces e ++ after) → e.keepsApart = true
  | .number _, _, _ => rfl
  | .ref _ _, _, _ => rfl
  | .unary op operand, after, h => by
      rw [pieces, List.cons_append] at h
      obtain ⟨after', hoperand⟩ := apart_grouped h.2
      have hkeeps := keepsApart_of_apart operand after' hoperand
      cases op with
      | not => exact hkeeps
      | neg => rw [HirExpr.keepsApart, not_negated_of_apart h, hkeeps]; rfl
  | .binary op lhs rhs, after, h => by
      rw [pieces, List.append_assoc, spaced_append] at h
      obtain ⟨left, hleft⟩ := apart_grouped h
      obtain ⟨right, hright⟩ := apart_grouped (Apart.of_append h).2.2.2
      rw [HirExpr.keepsApart, keepsApart_of_apart lhs left hleft,
        keepsApart_of_apart rhs right hright]
      rfl
  | .contains target lhs rhs, after, h => by
      rw [pieces, callPieces_append] at h
      obtain ⟨⟨after', hfirst⟩, hsecond⟩ := apart_pair h.2.2
      rw [HirExpr.keepsApart, keepsApart_of_apart lhs after' hfirst,
        keepsApart_of_apart rhs _ hsecond]
      rfl
  | .conditional condition v otherwise, after, h => by
      rw [pieces, List.append_assoc, spaced_append, List.append_assoc, spaced_append] at h
      have hvalue := (Apart.of_append h).2.2.2
      obtain ⟨first, hfirst⟩ := apart_grouped h
      obtain ⟨second, hsecond⟩ := apart_grouped hvalue
      obtain ⟨third, hthird⟩ := apart_grouped (Apart.of_append hvalue).2.2.2
      rw [HirExpr.keepsApart, keepsApart_of_apart condition first hfirst,
        keepsApart_of_apart v second hsecond, keepsApart_of_apart otherwise third hthird]
      rfl
  | .field base name inner, after, h => by
      rw [pieces, List.append_assoc] at h
      obtain ⟨after', hbase⟩ := apart_grouped h
      rw [HirExpr.keepsApart, not_integer_of_apart h, keepsApart_of_apart base after' hbase]
      rfl
  | .index kind base key, after, h => by
      rw [pieces, callPieces_append] at h
      obtain ⟨⟨after', hfirst⟩, hsecond⟩ := apart_pair h.2.2
      rw [HirExpr.keepsApart, keepsApart_of_apart base after' hfirst,
        keepsApart_of_apart key _ hsecond]
      rfl
  | .call callee args, after, h => by
      rw [pieces, callPieces_append] at h
      exact keepApart_of_apart args _ h.2.2
  | .construct callee args, after, h => by
      rw [pieces, List.cons_append, List.cons_append, callPieces_append] at h
      exact keepApart_of_apart args _ h.2.2.2.2
  | .method receiver symbol args, after, h => by
      rw [pieces, List.append_assoc, List.cons_append, callPieces_append] at h
      obtain ⟨after', hreceiver⟩ := apart_grouped h
      rw [HirExpr.keepsApart, not_integer_of_apart h,
        keepsApart_of_apart receiver after' hreceiver,
        keepApart_of_apart args _ (Apart.of_append h).2.2.2]
      rfl
  | .identity operand, after, h => keepsApart_of_apart operand after h

theorem keepApart_of_apart : (es : List (HirExpr abc)) → (after : List (Lexeme abc)) →
    Apart (commaPieces (piecesOf es) ++ after) → HirExpr.keepApart es = true
  | [], _, _ => rfl
  | [e], after, h => by
      rw [HirExpr.keepApart, keepsApart_of_apart e after h]
      rfl
  | e :: e' :: es, after, h => by
      rw [piecesOf, piecesOf, commaPieces, List.append_assoc] at h
      · rw [HirExpr.keepApart, keepsApart_of_apart e _ h,
          keepApart_of_apart (e' :: es) after (Apart.of_append h).2.2]
        rfl
      · exact List.cons_ne_nil _ _

end

mutual

theorem decrements_denote : (e : HirExpr abc) → (denote e).occurrences .decrement = 0
  | .number x => by
      change (denoteNumber x).occurrences .decrement = 0
      unfold denoteNumber
      split <;> rfl
  | .ref _ true => rfl
  | .ref _ false => rfl
  | .unary _ operand => decrements_denote operand
  | .binary _ lhs rhs => by
      rw [denote, Tree.occurrences, decrements_denote lhs, decrements_denote rhs]
  | .contains _ lhs rhs => by
      rw [denote, Tree.occurrences, occurrencesOf, occurrencesOf, occurrencesOf,
        decrements_denote lhs, decrements_denote rhs]
      rfl
  | .conditional condition v otherwise => by
      rw [denote, Tree.occurrences, decrements_denote condition, decrements_denote v,
        decrements_denote otherwise]
  | .field base _ none => decrements_denote base
  | .field base _ (some _) => decrements_denote base
  | .index _ base key => by
      rw [denote, Tree.occurrences, occurrencesOf, occurrencesOf, occurrencesOf,
        decrements_denote base, decrements_denote key]
      rfl
  | .call _ args => by
      rw [denote, Tree.occurrences, decrements_denotes args]
      rfl
  | .construct _ args => decrements_denotes args
  | .method receiver _ args => by
      rw [denote, Tree.occurrences, Tree.occurrences, decrements_denote receiver,
        decrements_denotes args]
      rfl
  | .identity operand => decrements_denote operand

theorem decrements_denotes : (es : List (HirExpr abc)) →
    occurrencesOf .decrement (denotes es) = 0
  | [] => rfl
  | e :: es => by
      rw [denotes, occurrencesOf, decrements_denote e, decrements_denotes es]

end

/-- The text is read as what is meant, and as nothing else, exactly if nothing is negated twice
and no field or method of a row of digits is taken. -/
theorem value_parses_iff (e : HirExpr abc) :
    (∀ t, Parses abc (value e).text t ↔ t = denote e) ↔ e.keepsApart = true := by
  have hderives := (derives_pieces e).loosen_le (two_le_precedence e)
  constructor
  · intro h
    have hparses := (h (denote e)).mpr rfl
    have htidy : Tidy False (pieces e) := by
      have htidy : Tidy False (pieces e ++ []) := tidy_pieces e nofun [] nofun trivial
      rwa [List.append_nil] at htidy
    rw [← written_pieces] at hparses
    refine keepsApart_of_apart e [] ?_
    rw [List.append_nil]
    exact apart_of_parses htidy (decrements_denote e)
      (hderives.occurrences_eq Mark.counts_dot) hparses
  · intro h t
    have htidy : Tidy True (pieces e ++ []) := tidy_pieces e (fun _ => h) [] nofun trivial
    rw [List.append_nil] at htidy
    have hparses : Parses abc (value e).text (denote e) := by
      rw [← written_pieces]
      exact parses_written (htidy.apart trivial) hderives
    refine ⟨fun ht => ht.unique hparses, ?_⟩
    rintro rfl
    exact hparses

def letters : Text := codes "$_ABCDEFGHIJKLMNOPQRSTUVWXYZabcdefghijklmnopqrstuvwxyz"

theorem letters_eq : letters = 36 :: 95 :: (List.range' 65 26 ++ List.range' 97 26) := by
  decide +kernel

def ascii : Alphabet where
  start c := letters.contains c
  part c := letters.contains c || isDigit c
  start_part c hc := by rw [hc]; rfl
  letters c hc := List.contains_iff_mem.mpr hc
  digits c hc := by
    have hall : ∀ c ∈ letters, isDigit c = false := by
      rw [letters_eq]
      decide +kernel
    refine ⟨by rw [hc, Bool.or_true], Bool.eq_false_iff.mpr fun hletter => ?_⟩
    rw [hall c (List.contains_iff_mem.mp hletter)] at hc
    cases hc
  marks mark c hc := by
    have hall : ∀ mark ∈ Mark.all, ∀ c ∈ mark.text,
        (letters.contains c || isDigit c) = false := by
      rw [letters_eq]
      decide +kernel
    exact hall mark mark.mem_all c hc
  blank := by decide

def x : Name ascii where
  toIdentifier := plain (codes "x") (by decide) (by decide)
  free := by decide

/-- `- -x` is printed as `--x`, which decrements `x`. -/
theorem negation_decrements :
    ¬ ∀ t, Parses ascii (value (.unary .neg (.unary .neg (.ref x false)))).text t ↔
      t = denote (.unary .neg (.unary .neg (.ref x false))) := by
  intro h
  obtain ⟨ts, hts, hderives⟩ := (h _).mpr rfl
  have htokens : tokens ascii (codes "--x") = some [.mark .decrement, .name (codes "x")] := by
    rfl
  obtain rfl := Option.some.inj (htokens.symm.trans hts)
  have hcount := hderives.occurrences_eq Mark.counts_decrement
  rw [decrements_denote] at hcount
  exact absurd hcount (by decide)

end Glued

end Emission
end Zdeceptron
