/-!
# Machine words

Programs and the machine compute with signed 64-bit words, whose sums, differences and
products wrap around. Storage layout (sizes, offsets, frame lengths) is computed with
exact integers instead, and a layout sum is admitted only while some word holds it.

The operations come in three kinds. Those of `Int64` wrap around. `checked` and
`checkedAdd` give nothing where no word holds the exact result. `clamp` and
`saturatingAdd` give the nearest word there; they serve only to report an address that
lies out of range.
-/

namespace BlockLang

/-- A signed 64-bit word: `+`, `-` and `*` wrap around and `/` drops the fraction. -/
abbrev Word := Int64

namespace Word

/-- The value of the least word. -/
def least : Int := -9223372036854775808

/-- The value of the greatest word. -/
def greatest : Int := 9223372036854775807

/-- Some word has the value `n`. -/
def Fits (n : Int) : Prop := least ≤ n ∧ n ≤ greatest

instance (n : Int) : Decidable (Fits n) := inferInstanceAs (Decidable (_ ∧ _))

/-- An exact sum or product, refused when no word holds it. -/
def checked (n : Int) : Option Int := if Fits n then some n else none

/-- The word nearest to `n`. -/
def clamp (n : Int) : Word := Int64.ofInt (max least (min greatest n))

/-- The sum of two words, unless no word holds it. -/
def checkedAdd (a b : Word) : Option Word := (checked (a.toInt + b.toInt)).map Int64.ofInt

/-- The word nearest to the sum of two words. -/
def saturatingAdd (a b : Word) : Word := clamp (a.toInt + b.toInt)

/-- The value of a word that is not negative. -/
def toNat? (w : Word) : Option Nat := if 0 ≤ w then some w.toInt.toNat else none

/-- Decimal text, with a leading `-` for a negative value. -/
def text (w : Word) : String := toString w.toInt

end Word

end BlockLang
