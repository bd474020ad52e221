import Mathlib.Data.BitVec
import Xpod.Common.Java
import Xpod.Common.Long
/-!
# Reading an `int`

`StringtoInteger.atoi` reads a number from the front of a string and stops
as soon as it is too large for an `int`. The program is written for any
arithmetic of `long`s: `atoi` itself is the one of the machine.
-/

namespace Xpod

namespace DataFormat

namespace StringtoInteger

open Java (Units unit)

/-- `INT_MAX` -/
def intMax : BitVec 32 := 2147483647

/-- `INT_MIN` -/
def intMin : BitVec 32 := -2147483648

/-- `trim()`: without the characters up to the space at both ends. -/
def trim (s : Units) : Units :=
  ((s.dropWhile (· ≤ unit ' ')).reverse.dropWhile (· ≤ unit ' ')).reverse

/-- `ch[head] >= '0' && ch[head] <= '9'` -/
def IsDigit (c : UInt16) : Prop := unit '0' ≤ c ∧ c ≤ unit '9'

instance decidableIsDigit (c : UInt16) : Decidable (IsDigit c) :=
  inferInstanceAs (Decidable (_ ∧ _))

section Arithmetic

variable {m : Type → Type} [Monad m] (arithmetic : Long.Arithmetic m)

/-- `(int) (value * signal)` -/
def result (signal value : BitVec 64) : m (BitVec 32) := do
  let product ← arithmetic.mul value signal
  return product.setWidth 32

/-- The loop, from `ch[head]` on. -/
def loop (signal : BitVec 64) : Units → BitVec 64 → m (BitVec 32)
  | [], value => result arithmetic signal value
  | c :: ch, value =>
    if IsDigit c then do
      let tens ← arithmetic.mul value 10
      let value ← arithmetic.add tens ((c.toBitVec.setWidth 32 - 48).signExtend 64)
      -- the source writes this product three times
      let product ← arithmetic.mul value signal
      if product.toInt < intMin.toInt ∨ intMax.toInt < product.toInt then
        return if product.toInt < intMin.toInt then intMin else intMax
      else loop signal ch value
    else result arithmetic signal value

/-- `atoi(str)` in an arithmetic. -/
def atoiIn (str : Option Units) : m (BitVec 32) :=
  match str with
  | none => return 0
  | some str =>
    if str.length = 0 then return 0
    else
      match trim str with
      | [] => return 0
      | c :: ch =>
        if c = unit '+' ∨ c = unit '-' then
          loop arithmetic (if c = unit '+' then 1 else -1) ch 0
        else loop arithmetic 1 (c :: ch) 0

end Arithmetic

/-- `atoi(str)` -/
def atoi (str : Option Units) : BitVec 32 := (atoiIn Long.wrapping str).run

example : atoi (some (Java.units "  -42kg ")) = -42 := by decide

end StringtoInteger

end DataFormat

end Xpod
