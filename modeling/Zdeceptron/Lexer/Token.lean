import Zdeceptron.Library.Decimal

/-!
# Tokens

The kinds of token, what each word is read as, and the byte range a token is taken
from.
-/

namespace Zdeceptron
namespace Lexer

open Library

section Kinds

/-- The words with a meaning of their own.  `is not` is one of them. -/
inductive Keyword
  | secret
  | trusted
  | unique
  | release
  | limit
  | state
  | function
  | view
  | record
  | choice
  | component
  | use
  | route
  | «for»
  | children
  | client
  | static
  | server
  | durable
  | starting
  | «from»
  | emitting
  | of
  | to
  | give
  | «set»
  | add
  | subtract
  | append
  | remove
  | keep
  | sort
  | mapEach
  | take
  | first
  | «where»
  | «by»
  | when
  | each
  | «in»
  | «if»
  | otherwise
  | «show»
  | on
  | «with»
  | and
  | or
  | not
  | is
  | isNot
  | «at»
  | contains
  | yes
  | no
  | empty
  | environment
  | address
  | build
  | media
  | scroll
deriving DecidableEq

inductive Symbol
  | plus
  | minus
  | star
  | slash
  | less
  | greater
  | lessEq
  | greaterEq
  | comma
  | dot
  | lParen
  | rParen
  | lBracket
  | rBracket
deriving DecidableEq

inductive TokenKind
  | number (value : Float)
  | text (value : List Char)
  | ident (name : List Char)
  | keyword (word : Keyword)
  | symbol (symbol : Symbol)
  | newline
  | indent
  | dedent
  | eof
deriving DecidableEq

def TokenKind.isLayout : TokenKind → Bool
  | .newline => true
  | .indent => true
  | .dedent => true
  | .eof => true
  | _ => false

def keywords : List (String × Keyword) :=
  [("secret", .secret), ("trusted", .trusted), ("release", .release), ("limit", .limit),
    ("state", .state), ("function", .function), ("view", .view), ("record", .record),
    ("choice", .choice), ("component", .component), ("route", .route), ("use", .use),
    ("for", .«for»), ("children", .children), ("client", .client), ("static", .static),
    ("server", .server), ("durable", .durable), ("unique", .unique),
    ("starting", .starting), ("emitting", .emitting), ("from", .«from»), ("of", .of),
    ("to", .to), ("give", .give), ("set", .«set»), ("add", .add), ("subtract", .subtract),
    ("append", .append), ("remove", .remove), ("keep", .keep), ("sort", .sort),
    ("map", .mapEach), ("take", .take), ("first", .first), ("where", .«where»),
    ("by", .«by»), ("when", .when), ("each", .each), ("in", .«in»), ("if", .«if»),
    ("otherwise", .otherwise), ("show", .«show»), ("on", .on), ("with", .«with»),
    ("and", .and), ("or", .or), ("not", .not), ("is", .is), ("at", .«at»),
    ("contains", .contains), ("yes", .yes), ("no", .no), ("empty", .empty),
    ("environment", .environment), ("address", .address), ("build", .build),
    ("media", .media), ("scroll", .scroll)]

def wordToKind (word : List Char) : TokenKind :=
  match keywords.find? (fun entry => decide (entry.1.toList = word)) with
  | some entry => .keyword entry.2
  | none => .ident word

end Kinds

section Spans

def byteLen (text : List Char) : Nat := (text.map Char.utf8Size).sum

@[simp] theorem byteLen_nil : byteLen [] = 0 := rfl

@[simp] theorem byteLen_cons (c : Char) (text : List Char) :
    byteLen (c :: text) = c.utf8Size + byteLen text := by
  rw [byteLen, List.map_cons, List.sum_cons, byteLen]

@[simp] theorem byteLen_append (front back : List Char) :
    byteLen (front ++ back) = byteLen front + byteLen back := by
  simp [byteLen]

theorem byteLen_pos {text : List Char} (h : text ≠ []) : 0 < byteLen text := by
  cases text with
  | nil => exact absurd rfl h
  | cons c text =>
      rw [byteLen_cons]
      exact Nat.add_pos_left (Char.utf8Size_pos c) _

structure Span where
  start : Nat
  stop : Nat
deriving DecidableEq

def Span.to (span other : Span) : Span := ⟨span.start, other.stop⟩

structure Token where
  kind : TokenKind
  span : Span
deriving DecidableEq

end Spans

end Lexer
end Zdeceptron
