/-!
# Text in columns

Short texts are cut to a precision and then filled with spaces up to a width. Both count
characters. A listing needs the mnemonic of an instruction at the right end of five
columns; the other alignments are there for whoever prints an operation on its own.
-/

namespace BlockLang

/-- Where the text stands among the spaces that fill its column. -/
inductive Alignment where
  | left
  | center
  | right
  deriving DecidableEq, Repr

namespace Text

/-- A run of `n` spaces. -/
def spaces (n : Nat) : String := String.ofList (List.replicate n ' ')

/-- The text filled up to `width` characters; of an odd number of spaces around a centred
text, the larger half goes to its right. A text that is wide enough already is left alone. -/
def pad (align : Alignment) (width : Nat) (s : String) : String :=
  let fill := width - s.length
  match align with
  | .left => s ++ spaces fill
  | .center => spaces (fill / 2) ++ s ++ spaces (fill - fill / 2)
  | .right => spaces fill ++ s

/-- The first characters of a text, at most `precision` many when a precision is given. -/
def truncate (precision : Option Nat) (s : String) : String :=
  match precision with
  | none => s
  | some n => String.ofList (s.toList.take n)

end Text

end BlockLang
