import Mathlib.Data.List.Basic
import Mathlib.Tactic
import Xpod.Common.Java
/-!
# JSON texts

A syntax tree of JSON that keeps what its value forgets: the whitespace,
how a character of a string is written, how a number is. The texts of the
trees are the JSON texts, in UTF-16.
-/

namespace Xpod

namespace Json

open Java (Units unit units)

/-! ## Tokens -/

/-- Whitespace between tokens. -/
inductive Space
  | space
  | tab
  | lineFeed
  | carriageReturn
deriving DecidableEq

def Space.text : Space → UInt16
  | space => unit ' '
  | tab => unit '\t'
  | lineFeed => unit '\n'
  | carriageReturn => unit '\r'

/-- The text of some whitespace. -/
def blank (w : List Space) : Units := w.map Space.text

/-- The value of a hexadecimal digit. -/
def hexValue (c : UInt16) : Option ℕ :=
  if unit '0' ≤ c ∧ c ≤ unit '9' then some (c - unit '0').toNat
  else if unit 'A' ≤ c ∧ c ≤ unit 'F' then some (c - unit 'A' + 10).toNat
  else if unit 'a' ≤ c ∧ c ≤ unit 'f' then some (c - unit 'a' + 10).toNat
  else none

structure HexDigit where
  text : UInt16
  value : ℕ
  valid : hexValue text = some value

/-- The escapes of one letter. -/
inductive Escape
  | quote
  | backslash
  | slash
  | backspace
  | formFeed
  | lineFeed
  | carriageReturn
  | tab
deriving DecidableEq

/-- The letter behind the backslash. -/
def Escape.letter : Escape → UInt16
  | quote => unit '"'
  | backslash => unit '\\'
  | slash => unit '/'
  | backspace => unit 'b'
  | formFeed => unit 'f'
  | lineFeed => unit 'n'
  | carriageReturn => unit 'r'
  | tab => unit 't'

def Escape.value : Escape → UInt16
  | quote => unit '"'
  | backslash => unit '\\'
  | slash => unit '/'
  | backspace => 8
  | formFeed => 12
  | lineFeed => 10
  | carriageReturn => 13
  | tab => 9

/-- One code unit of a string, as it is written. -/
inductive Piece
  | raw (c : UInt16) (valid : unit ' ' ≤ c ∧ c ≠ unit '"' ∧ c ≠ unit '\\')
  | escape (e : Escape)
  | hex (h₁ h₂ h₃ h₄ : HexDigit)

namespace Piece

def text : Piece → Units
  | raw c _ => [c]
  | escape e => [unit '\\', e.letter]
  | hex h₁ h₂ h₃ h₄ => [unit '\\', unit 'u', h₁.text, h₂.text, h₃.text, h₄.text]

def value : Piece → UInt16
  | raw c _ => c
  | escape e => e.value
  | hex h₁ h₂ h₃ h₄ =>
    (16 * (16 * (16 * h₁.value + h₂.value) + h₃.value) + h₄.value).toUInt16

end Piece

/-- The text of a string, with its quotes. -/
def stringText (s : List Piece) : Units := unit '"' :: (s.flatMap Piece.text ++ [unit '"'])

/-- The string. -/
def stringValue (s : List Piece) : Units := s.map Piece.value

/-- The character of a digit. -/
def digitText (d : Fin 10) : UInt16 := unit '0' + d.val.toUInt16

/-- An exponent: its letter, its sign and its digits. -/
structure Exponent where
  capital : Bool
  sign : Option Bool
  first : Fin 10
  others : List (Fin 10)

/-- A number: no zero leads the digits in front of the point, and there
are digits wherever there may be some. -/
structure Number where
  minus : Bool
  first : Fin 10
  others : List (Fin 10)
  fraction : Option (Fin 10 × List (Fin 10))
  exponent : Option Exponent
  valid : first = 0 → others = []

def Exponent.text (e : Exponent) : Units :=
  (if e.capital then unit 'E' else unit 'e') ::
    ((match e.sign with
      | none => []
      | some true => [unit '-']
      | some false => [unit '+']) ++ (e.first :: e.others).map digitText)

def Number.text (n : Number) : Units :=
  (if n.minus then [unit '-'] else []) ++ (n.first :: n.others).map digitText ++
    (match n.fraction with
      | none => []
      | some (d, ds) => unit '.' :: (d :: ds).map digitText) ++
    (match n.exponent with
      | none => []
      | some e => e.text)

/-! ## Trees -/

mutual

/-- A value. -/
inductive Tree
  | null
  | bool (b : Bool)
  | number (n : Number)
  | string (s : List Piece)
  | emptyArray (w : List Space)
  | array (items : Items)
  | emptyObject (w : List Space)
  | object (members : Members)

/-- What stands between the brackets of an array that is not empty. -/
inductive Items
  | last (w₁ : List Space) (item : Tree) (w₂ : List Space)
  | cons (w₁ : List Space) (item : Tree) (w₂ : List Space) (items : Items)

/-- What stands between the braces of an object that is not empty. -/
inductive Members
  | last (w₁ : List Space) (name : List Piece) (w₂ w₃ : List Space) (value : Tree)
      (w₄ : List Space)
  | cons (w₁ : List Space) (name : List Piece) (w₂ w₃ : List Space) (value : Tree)
      (w₄ : List Space) (members : Members)

end

mutual

def Tree.text : Tree → Units
  | .null => units "null"
  | .bool b => if b then units "true" else units "false"
  | .number n => n.text
  | .string s => stringText s
  | .emptyArray w => unit '[' :: (blank w ++ [unit ']'])
  | .array items => unit '[' :: (items.text ++ [unit ']'])
  | .emptyObject w => unit '{' :: (blank w ++ [unit '}'])
  | .object members => unit '{' :: (members.text ++ [unit '}'])

def Items.text : Items → Units
  | .last w₁ item w₂ => blank w₁ ++ item.text ++ blank w₂
  | .cons w₁ item w₂ items => blank w₁ ++ item.text ++ blank w₂ ++ unit ',' :: items.text

def Members.text : Members → Units
  | .last w₁ name w₂ w₃ value w₄ =>
    blank w₁ ++ stringText name ++ blank w₂ ++ unit ':' :: (blank w₃ ++ value.text ++ blank w₄)
  | .cons w₁ name w₂ w₃ value w₄ members =>
    blank w₁ ++ stringText name ++ blank w₂ ++
      unit ':' :: (blank w₃ ++ value.text ++ blank w₄ ++ unit ',' :: members.text)

end

def Items.toList : Items → List Tree
  | .last _ item _ => [item]
  | .cons _ item _ items => item :: items.toList

/-- The members with the names they have. -/
def Members.toList : Members → List (Units × Tree)
  | .last _ name _ _ value _ => [(stringValue name, value)]
  | .cons _ name _ _ value _ members => (stringValue name, value) :: members.toList

namespace Tree

/-- The elements, for an array. -/
def items? : Tree → Option (List Tree)
  | emptyArray _ => some []
  | array items => some items.toList
  | _ => none

/-- The members, for an object. -/
def members? : Tree → Option (List (Units × Tree))
  | emptyObject _ => some []
  | object members => some members.toList
  | _ => none

/-- A string or a number. -/
def isText : Tree → Bool
  | string _ | number _ => true
  | _ => false

end Tree

mutual

/-- The objects in a value, itself included, by their members. -/
def Tree.objects : Tree → List (List (Units × Tree))
  | .array items => items.objects
  | .object members => members.toList :: members.objects
  | _ => []

def Items.objects : Items → List (List (Units × Tree))
  | .last _ item _ => item.objects
  | .cons _ item _ items => item.objects ++ items.objects

def Members.objects : Members → List (List (Units × Tree))
  | .last _ _ _ _ value _ => value.objects
  | .cons _ _ _ _ value _ members => value.objects ++ members.objects

end

end Json

end Xpod
