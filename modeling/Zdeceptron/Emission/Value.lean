import Zdeceptron.Library.EcmaGrammar
import Zdeceptron.Store.Value

/-!
# The text of an expression

`Emitter.value` prints an expression as JavaScript: every part with the parentheses its
precedence calls for.  `denote` is the expression that is meant.
-/

namespace Zdeceptron
namespace Emission

open Library Ecma

section Js

namespace precedence

def CONDITIONAL : Nat := 2
def OR : Nat := 3
def AND : Nat := 4
def EQUALITY : Nat := 8
def RELATIONAL : Nat := 9
def ADDITIVE : Nat := 11
def MULTIPLICATIVE : Nat := 12
def UNARY : Nat := 14
def MEMBER : Nat := 17
def PRIMARY : Nat := 18

end precedence

structure Expr where
  text : Text
  precedence : Nat

namespace Expr

def primary (text : Text) : Expr := ⟨text, precedence.PRIMARY⟩

def operand (e : Expr) (needed : Nat) : Text :=
  if e.precedence < needed then codes "(" ++ e.text ++ codes ")" else e.text

end Expr

/-- The text of a positive double: from `1e21` on it has an exponent. -/
def plain_number (x : Float) : Text :=
  if ofDecimal ⟨1, 21⟩ ≤ x then scientific (shortest x) else positional (shortest x)

def number (x : Float) : Text :=
  match x.toModel.unpack with
  | .notANumber => codes "(0/0)"
  | .infinity .positive => codes "(1/0)"
  | .infinity .negative => codes "(-1/0)"
  -- both zeroes print as `0` in JavaScript
  | .zero _ => codes "0"
  | .finite .positive _ _ _ => plain_number x
  | .finite .negative _ _ _ => codes "(-" ++ plain_number (-x) ++ codes ")"

def join (separator : Text) : List Text → Text
  | [] => []
  | [text] => text
  | text :: rest => text ++ separator ++ join separator rest

end Js

section Hir

variable (abc : Alphabet)

structure Name extends Identifier abc where
  free : text ∉ reserved

inductive UnaryOp
  | not
  | neg

inductive BinOp
  | or
  | and
  | is
  | isNot
  | less
  | greater
  | lessEq
  | greaterEq
  | add
  | sub
  | mul
  | div

inductive IndexKind
  | list
  | map
  | text

inductive HirExpr
  | number (value : Float)
  -- in the browser a signal is read by calling it
  | ref (name : Name abc) (getter : Bool)
  | unary (op : UnaryOp) (operand : HirExpr)
  | binary (op : BinOp) (lhs rhs : HirExpr)
  -- the binary operator that is a function of the library, chosen by the checker
  | contains (target : Name abc) (lhs rhs : HirExpr)
  | conditional (condition value otherwise : HirExpr)
  -- a field of an event is one of the target of the browser's event, or of the event itself
  | field (base : HirExpr) (name : Identifier abc) (inner : Option (Identifier abc))
  | index (kind : IndexKind) (base key : HirExpr)
  | call (callee : Name abc) (args : List HirExpr)
  | construct (callee : Name abc) (args : List HirExpr)
  | method (receiver : HirExpr) (symbol : Identifier abc) (args : List HirExpr)
  -- a primitive that is its operand
  | identity (operand : HirExpr)

variable {abc}

def UnaryOp.mark : UnaryOp → Mark
  | not => .not
  | neg => .minus

def BinOp.symbol : BinOp → Mark × Nat
  | or => (.or, precedence.OR)
  | and => (.and, precedence.AND)
  | is => (.same, precedence.EQUALITY)
  | isNot => (.notSame, precedence.EQUALITY)
  | less => (.less, precedence.RELATIONAL)
  | greater => (.greater, precedence.RELATIONAL)
  | lessEq => (.lessEq, precedence.RELATIONAL)
  | greaterEq => (.greaterEq, precedence.RELATIONAL)
  | add => (.plus, precedence.ADDITIVE)
  | sub => (.minus, precedence.ADDITIVE)
  | mul => (.times, precedence.MULTIPLICATIVE)
  | div => (.divided, precedence.MULTIPLICATIVE)

def IndexKind.helper : IndexKind → Text
  | list => codes "$listAt"
  | map => codes "$mapAt"
  | text => codes "$textAt"

end Hir

section Value

variable {abc : Alphabet}

def called (callee : Text) (args : List Text) : Text :=
  callee ++ codes "(" ++ join (codes ", ") args ++ codes ")"

mutual

def value : HirExpr abc → Expr
  | .number x => .primary (number x)
  | .ref name true => ⟨name.text ++ codes "()", precedence.MEMBER⟩
  | .ref name false => .primary name.text
  | .unary op operand =>
      ⟨op.mark.text ++ (value operand).operand precedence.UNARY, precedence.UNARY⟩
  | .binary op lhs rhs =>
      -- every operator is left-associative, so the right operand needs one level more
      ⟨(value lhs).operand op.symbol.2 ++ codes " " ++ op.symbol.1.text ++ codes " " ++
        (value rhs).operand (op.symbol.2 + 1), op.symbol.2⟩
  | .contains target lhs rhs =>
      ⟨called target.text [(value lhs).text, (value rhs).text], precedence.MEMBER⟩
  | .conditional condition v otherwise =>
      ⟨(value condition).operand (precedence.CONDITIONAL + 1) ++ codes " ? " ++
        (value v).operand precedence.CONDITIONAL ++ codes " : " ++
        (value otherwise).operand precedence.CONDITIONAL, precedence.CONDITIONAL⟩
  | .field base name inner =>
      ⟨(value base).operand precedence.MEMBER ++ codes "." ++ name.text ++
        inner.elim [] (fun inner => codes "." ++ inner.text), precedence.MEMBER⟩
  | .index kind base key =>
      ⟨called kind.helper [(value base).text, (value key).text], precedence.MEMBER⟩
  | .call callee args => ⟨called callee.text (values args), precedence.MEMBER⟩
  | .construct callee args =>
      ⟨codes "new " ++ called callee.text (values args), precedence.MEMBER⟩
  | .method receiver symbol args =>
      ⟨(value receiver).operand precedence.MEMBER ++ codes "." ++
        called symbol.text (values args), precedence.MEMBER⟩
  | .identity operand => value operand

def values : List (HirExpr abc) → List Text
  | [] => []
  | e :: es => (value e).text :: values es

end

def denoteNumber (x : Float) : Tree :=
  match x.toModel.unpack with
  | .notANumber => .binary .divided (.number (ofDecimal ⟨0, 0⟩)) (.number (ofDecimal ⟨0, 0⟩))
  | .infinity .positive =>
      .binary .divided (.number (ofDecimal ⟨1, 0⟩)) (.number (ofDecimal ⟨0, 0⟩))
  | .infinity .negative =>
      .binary .divided (.unary .minus (.number (ofDecimal ⟨1, 0⟩))) (.number (ofDecimal ⟨0, 0⟩))
  | .zero _ => .number (ofDecimal ⟨0, 0⟩)
  | .finite .positive _ _ _ => .number x
  | .finite .negative _ _ _ => .unary .minus (.number (-x))

mutual

def denote : HirExpr abc → Tree
  | .number x => denoteNumber x
  | .ref name true => .call (.name name.text) []
  | .ref name false => .name name.text
  | .unary op operand => .unary op.mark (denote operand)
  | .binary op lhs rhs => .binary op.symbol.1 (denote lhs) (denote rhs)
  | .contains target lhs rhs => .call (.name target.text) [denote lhs, denote rhs]
  | .conditional condition v otherwise =>
      .conditional (denote condition) (denote v) (denote otherwise)
  | .field base name inner =>
      let field := Tree.member (denote base) name.text
      inner.elim field (fun inner => .member field inner.text)
  | .index kind base key => .call (.name kind.helper) [denote base, denote key]
  | .call callee args => .call (.name callee.text) (denotes args)
  | .construct callee args => .construct callee.text (denotes args)
  | .method receiver symbol args =>
      .call (.member (denote receiver) symbol.text) (denotes args)
  | .identity operand => denote operand

def denotes : List (HirExpr abc) → List Tree
  | [] => []
  | e :: es => denote e :: denotes es

end

end Value

section Fusing

variable {abc : Alphabet}

namespace HirExpr

def isNegated : HirExpr abc → Bool
  | unary .neg _ => true
  | identity operand => operand.isNegated
  | _ => false

def isInteger : HirExpr abc → Bool
  | number x => (Emission.number x).all isDigit
  | identity operand => operand.isInteger
  | _ => false

mutual

/-- Nothing is negated twice, and no field or method of a row of digits is taken. -/
def keepsApart : HirExpr abc → Bool
  | number _ => true
  | ref _ _ => true
  | unary .neg operand => !operand.isNegated && operand.keepsApart
  | unary .not operand => operand.keepsApart
  | binary _ lhs rhs => lhs.keepsApart && rhs.keepsApart
  | contains _ lhs rhs => lhs.keepsApart && rhs.keepsApart
  | conditional condition value otherwise =>
      condition.keepsApart && (value.keepsApart && otherwise.keepsApart)
  | field base _ _ => !base.isInteger && base.keepsApart
  | index _ base key => base.keepsApart && key.keepsApart
  | call _ args => keepApart args
  | construct _ args => keepApart args
  | method receiver _ args =>
      !receiver.isInteger && (receiver.keepsApart && keepApart args)
  | identity operand => operand.keepsApart

def keepApart : List (HirExpr abc) → Bool
  | [] => true
  | e :: es => e.keepsApart && keepApart es

end

end HirExpr

end Fusing

end Emission
end Zdeceptron
