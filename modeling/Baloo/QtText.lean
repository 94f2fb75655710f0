import Mathlib.Algebra.Group.Int.Defs
import Mathlib.Algebra.Group.Nat.Defs
import Mathlib.Data.List.Basic

/-!
# Text

Qt's characters and strings, as far as the program looks at them.
-/

namespace Baloo

/-- Qt's character, a unit of UTF-16. -/
abbrev QChar : Type := UInt16

instance : LawfulBEq (List QChar) := List.instLawfulBEq

/-- Qt's string; `none` is the null string, one of the two empty strings. -/
abbrev QString : Type := Option (List QChar)

namespace QString

/-- The characters of a string. -/
def chars (s : QString) : List QChar := s.getD []

/-- `QString::isEmpty`. -/
def isEmpty (s : QString) : Bool := s.chars.isEmpty

/-- `QString::append`. -/
def append (s : QString) (c : QChar) : QString := some (s.chars ++ [c])

end QString

/-- `QLatin1Char`. -/
def latin1Char (c : Char) : QChar := UInt16.ofNat c.toNat

/-- `QLatin1String`. -/
def latin1String (s : List Char) : List QChar := s.map latin1Char

/-- `QChar::isSpace`. -/
def isSpace (c : QChar) : Bool :=
  c = 0x20 ∨ (0x09 ≤ c ∧ c ≤ 0x0d) ∨ c = 0x85 ∨ c = 0xa0 ∨ c = 0x1680 ∨ (0x2000 ≤ c ∧ c ≤ 0x200a) ∨
    c = 0x2028 ∨ c = 0x2029 ∨ c = 0x202f ∨ c = 0x205f ∨ c = 0x3000

/-- `QChar::toLatin1`. -/
def toLatin1 (c : QChar) : QChar := if 0xff < c then 0 else c

end Baloo
