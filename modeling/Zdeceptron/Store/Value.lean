import Zdeceptron.Library.Numeral

/-!
# What a durable cell holds

The store carries the JSON text of a value and looks inside it for one
operation only: adding to a number.  A number is a double, read from JSON text
and written back as the shortest text that reads back as it.
-/

namespace Zdeceptron
namespace Store

open Library

structure Json where
  text : String
deriving DecidableEq

structure Number where
  value : Float
deriving DecidableEq

def utf8 (text : String) : List Nat := text.toUTF8.toList.map UInt8.toNat

def isWhitespace (c : Char) : Bool :=
  let n := c.toNat
  (9 ≤ n && n ≤ 13) || n == 0x20 || n == 0x85 || n == 0xA0 || n == 0x1680 ||
    (0x2000 ≤ n && n ≤ 0x200A) || n == 0x2028 || n == 0x2029 || n == 0x202F ||
    n == 0x205F || n == 0x3000

def trim (text : String) : String :=
  String.ofList
    (((text.toList.dropWhile isWhitespace).reverse.dropWhile isWhitespace).reverse)

def isJsonNumber (bytes : List Nat) : Bool := numberEnd bytes = some []

namespace Number

def zero : Number := ⟨Float.ofNat 0⟩

def parse (text : String) : Option Number :=
  let trimmed := utf8 (trim text)
  if isJsonNumber trimmed then
    let value := (readNumeral trimmed).1
    if value.isFinite then some ⟨value⟩ else none
  else none

/-- The sum, or nothing if it left the range JSON can carry. -/
def plus (number delta : Number) : Option Number :=
  let sum := number.value + delta.value
  if sum.isFinite then some ⟨sum⟩ else none

def display (x : Float) : List Nat :=
  match x.toModel.unpack with
  | .notANumber => [78, 97, 78]
  | .infinity .negative => [45, 105, 110, 102]
  | .infinity .positive => [105, 110, 102]
  | .zero .negative => [45, 48]
  | .zero .positive => [48]
  | .finite .negative _ _ _ => 45 :: positional (shortest (-x))
  | .finite .positive _ _ _ => positional (shortest x)

def toJson (number : Number) : Json :=
  ⟨String.ofList ((display number.value).map Char.ofNat)⟩

end Number

example : (Number.parse " 1.5 ").map Number.toJson = some ⟨"1.5"⟩ := by decide +kernel
example : Number.parse "01" = none := by decide +kernel

end Store
end Zdeceptron
