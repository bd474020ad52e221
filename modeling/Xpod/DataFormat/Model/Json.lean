import Mathlib.Data.List.Basic
import Mathlib.Tactic
import Xpod.Common.Java
/-!
# The JSON reader of data_format

The package `org.ttpod.json`: a `JSONTokener` reads a text and the
constructors of `JSONObject` and `JSONArray` call each other over it. The
reader takes more than JSON: quotes of either kind, strings without
quotes, `=` and `;` for `:` and `,`. It lowers the letters of every key,
throws at a key it has seen, and leaves numbers as the strings they are
written as.

A tokener is what is left of its text. `next()` at the end gives 0, as it
does for a 0 in the text. `back()` is called right behind `next()` only,
so it is the text before the call. The stack is unlimited; the recursion
counts its depth, and `JSONObject.parse` gives it more than it can use.
-/

namespace Xpod

namespace DataFormat

open Java (Units unit units)

/-- The objects the reader makes. `HashMap` keeps one value for a key. -/
inductive Obj
  | null
  | bool (b : Bool)
  | string (s : Units)
  | array (items : List Obj)
  | object (map : List (Units × Obj))

/-- The capital of a letter of ASCII. -/
def capital (c : UInt16) : UInt16 := if unit 'a' ≤ c ∧ c ≤ unit 'z' then c - 32 else c

/-- The small letter of a letter of ASCII. -/
def small (c : UInt16) : UInt16 := if unit 'A' ≤ c ∧ c ≤ unit 'Z' then c + 32 else c

/-- What the reader takes from the virtual machine: letters by the locale,
letters and digits one by one, and the text of an object or an array,
which depends on the order of its map. -/
structure Platform where
  toLowerCase : Units → Units
  toUpperCaseChar : UInt16 → UInt16
  toLowerCaseChar : UInt16 → UInt16
  digit : UInt16 → Option ℕ
  toStringObject : Obj → Units
  /-- lower-case letters of ASCII are as they are in every locale -/
  toLowerCase_ascii : ∀ s, (∀ c ∈ s, unit 'a' ≤ c ∧ c ≤ unit 'z') → toLowerCase s = s
  toUpperCaseChar_ascii : ∀ c < 128, toUpperCaseChar c = capital c
  toLowerCaseChar_ascii : ∀ c < 128, toLowerCaseChar c = small c
  digit_ascii : ∀ c < 128, digit c =
    if unit '0' ≤ c ∧ c ≤ unit '9' then some (c - unit '0').toNat
    else if unit 'A' ≤ c ∧ c ≤ unit 'F' then some (c - unit 'A' + 10).toNat
    else if unit 'a' ≤ c ∧ c ≤ unit 'f' then some (c - unit 'a' + 10).toNat
    else none

/-- The exceptions: those of the reader and its getters, by their message,
and those of the class library. -/
inductive Failure
  | unterminatedString
  | substringBounds
  | illegalEscape
  | missingValue
  | objectBegin
  | objectEnd
  | expectedColon
  | expectedCommaOrBrace
  | expectedCommaOrBracket
  | duplicateKey (key : Units)
  | notFound (key : Units)
  | notJSONArray (key : Units)
  | notJSONObject (key : Units)
  | elementNotJSONObject
  | notString (key : Units)
  | numberFormat
  | classCast
  | nullPointer
  | indexOutOfBounds
  | outOfFuel
deriving DecidableEq

/-! ## `JSONTokener` -/

namespace JSONTokener

variable (P : Platform)

/-- The text `nextClean()` reads its character from. -/
def clean (s : Units) : Units := s.dropWhile fun c => c != 0 && c ≤ unit ' '

/-- The letters behind a backslash, but for `u`. -/
def escape (c : UInt16) : Option UInt16 :=
  if c = unit 'b' then some 8
  else if c = unit 't' then some 9
  else if c = unit 'n' then some 10
  else if c = unit 'f' then some 12
  else if c = unit 'r' then some 13
  else if c = unit '"' ∨ c = unit '\'' ∨ c = unit '\\' ∨ c = unit '/' then some c
  else none

/-- The number some digits stand for. -/
def hexDigits (s : Units) : Option ℕ :=
  s.foldlM (fun n c => (P.digit c).map (16 * n + ·)) 0

/-- `(char) Integer.parseInt(s, 16)`, which takes a sign. -/
def parseHex : Units → Option UInt16
  | [] => none
  | c :: s =>
    if c = unit '-' then (hexDigits P s).map fun n => -n.toUInt16
    else if c = unit '+' then (hexDigits P s).map Nat.toUInt16
    else (hexDigits P (c :: s)).map Nat.toUInt16

/-- `nextString(quote)`: the string and the text behind its quote. -/
def nextString (quote : UInt16) : Units → Except Failure (Units × Units)
  | [] => .error .unterminatedString
  | c :: s =>
    if c = 0 ∨ c = unit '\n' ∨ c = unit '\r' then .error .unterminatedString
    else if c = unit '\\' then
      match s with
      | [] => .error .illegalEscape
      | e :: s =>
        if e = unit 'u' then
          match s with
          | h₁ :: h₂ :: h₃ :: h₄ :: s =>
            if 0 ∈ [h₁, h₂, h₃, h₄] then .error .substringBounds
            else
              match parseHex P [h₁, h₂, h₃, h₄] with
              | none => .error .numberFormat
              | some u => (nextString quote s).map fun r => (u :: r.1, r.2)
          | _ => .error .substringBounds
        else
          match escape e with
          | none => .error .illegalEscape
          | some u => (nextString quote s).map fun r => (u :: r.1, r.2)
    else if c = quote then .ok ([], s)
    else (nextString quote s).map fun r => (c :: r.1, r.2)

/-- The characters `nextValue` takes for a value without quotes. -/
def isUnquoted (c : UInt16) : Bool := unit ' ' ≤ c && !(units ",:]\x7d/\\\"[\x7b;=#").contains c

/-- `trim()` of such a value, which starts with no blank. -/
def trim (s : Units) : Units := (s.reverse.dropWhile (· ≤ unit ' ')).reverse

/-- `equalsIgnoreCase` -/
def equalsIgnoreCase (s t : Units) : Bool :=
  s.length = t.length && (s.zip t).all fun (a, b) =>
    a = b || P.toUpperCaseChar a = P.toUpperCaseChar b ||
      P.toLowerCaseChar (P.toUpperCaseChar a) = P.toLowerCaseChar (P.toUpperCaseChar b)

/-- `JSONObject.stringToValue`, for a string that is not empty. -/
def stringToValue (s : Units) : Obj :=
  if equalsIgnoreCase P s (units "true") then .bool true
  else if equalsIgnoreCase P s (units "false") then .bool false
  else if equalsIgnoreCase P s (units "null") then .null
  else .string s

/-- `toString()`, of the object a key is read as. -/
def toString : Obj → Units
  | .null => units "null"
  | .bool b => if b then units "true" else units "false"
  | .string s => s
  | o => P.toStringObject o

/-- `putOnce` -/
def putOnce (map : List (Units × Obj)) (key : Units) (value : Obj) :
    Except Failure (List (Units × Obj)) :=
  if (map.lookup key).isSome then .error (.duplicateKey key) else .ok (map ++ [(key, value)])

/-- What stands between a key and its value: `:`, `=` or `=>`. -/
def colon (s : Units) : Except Failure Units :=
  if s.headD 0 = unit '=' then
    if s.tail.headD 0 = unit '>' then .ok s.tail.tail else .ok s.tail
  else if s.headD 0 = unit ':' then .ok s.tail
  else .error .expectedColon

mutual

/-- `nextValue()`. The constructor of an object or an array starts by
reading its bracket once more. -/
def nextValue : ℕ → Units → Except Failure (Obj × Units)
  | 0, _ => .error .outOfFuel
  | fuel + 1, s =>
    let s := clean s
    let c := s.headD 0
    if c = unit '"' ∨ c = unit '\'' then
      (nextString P c s.tail).map fun r => (.string r.1, r.2)
    else if c = unit '{' then (objectLoop fuel [] s.tail).map fun r => (.object r.1, r.2)
    else if c = unit '[' then
      if (clean s.tail).headD 0 = unit ']' then .ok (.array [], (clean s.tail).tail)
      else (arrayLoop fuel [] s.tail).map fun r => (.array r.1, r.2)
    else
      let string := trim (s.takeWhile isUnquoted)
      if string = [] then .error .missingValue
      else .ok (stringToValue P string, s.dropWhile isUnquoted)

/-- The loop of `JSONObject(JSONTokener)`. -/
def objectLoop : ℕ → List (Units × Obj) → Units →
    Except Failure (List (Units × Obj) × Units)
  | 0, _, _ => .error .outOfFuel
  | fuel + 1, map, s => do
    let s := clean s
    if s.headD 0 = 0 then .error .objectEnd
    else if s.headD 0 = unit '}' then .ok (map, s.tail)
    else
      let (key, s) ← nextValue fuel s
      let s ← colon (clean s)
      let (value, s) ← nextValue fuel s
      let map ← putOnce map (P.toLowerCase (toString P key)) value
      let s := clean s
      if s.headD 0 = unit ';' ∨ s.headD 0 = unit ',' then
        if (clean s.tail).headD 0 = unit '}' then .ok (map, (clean s.tail).tail)
        else objectLoop fuel map s.tail
      else if s.headD 0 = unit '}' then .ok (map, s.tail)
      else .error .expectedCommaOrBrace

/-- The loop of `JSONArray(JSONTokener)`. A missing element is null. -/
def arrayLoop : ℕ → List Obj → Units → Except Failure (List Obj × Units)
  | 0, _, _ => .error .outOfFuel
  | fuel + 1, items, s => do
    let (item, s) ←
      if (clean s).headD 0 = unit ',' then .ok (.null, s) else nextValue fuel s
    let items := items ++ [item]
    let s := clean s
    if s.headD 0 = unit ';' ∨ s.headD 0 = unit ',' then
      if (clean s.tail).headD 0 = unit ']' then .ok (items, (clean s.tail).tail)
      else arrayLoop fuel items s.tail
    else if s.headD 0 = unit ']' then .ok (items, s.tail)
    else .error .expectedCommaOrBracket

end

end JSONTokener

/-! ## `JSONObject` -/

namespace JSONObject

open JSONTokener

/-- `new JSONObject(source)` -/
def parse (P : Platform) (source : Units) : Except Failure (List (Units × Obj)) :=
  let s := clean source
  if s.headD 0 = unit '{' then
    (objectLoop P (2 * s.tail.length + 2) [] s.tail).map Prod.fst
  else .error .objectBegin

variable (map : List (Units × Obj)) (key : Units)

/-- `has` -/
def has : Bool := (map.lookup key).isSome

/-- `get` -/
def get : Except Failure Obj :=
  match map.lookup key with
  | none => .error (.notFound key)
  | some o => .ok o

/-- `getJSONArray` -/
def getJSONArray : Except Failure (List Obj) := do
  match ← get map key with
  | .array items => .ok items
  | _ => .error (.notJSONArray key)

/-- `getJSONObject` -/
def getJSONObject : Except Failure (List (Units × Obj)) := do
  match ← get map key with
  | .object members => .ok members
  | _ => .error (.notJSONObject key)

/-- `getString` -/
def getString : Except Failure Units := do
  match ← get map key with
  | .string s => .ok s
  | _ => .error (.notString key)

end JSONObject

end DataFormat

end Xpod
