import BlockLang.Machine.Instruction

/-!
# Object code and its listing

Object code is a list of instructions at dense addresses from 0. Each may carry a comment,
and notes stand between the instructions, anchored at addresses. The listing prints all of
it: `Line.listAll` goes through the instructions and, before each of them, prints the
notes that are due. Notes that are anchored behind the last instruction come at the end.
-/

namespace BlockLang

/-- One address of object code. -/
structure Line where
  instruction : Instruction
  comment : Option String := none
  deriving DecidableEq, Repr

/-- A comment on a line of its own, to be printed before the instruction at its address. -/
structure Note where
  address : Nat
  text : String
  deriving DecidableEq, Repr

structure ObjectCode where
  lines : List Line
  notes : List Note := []
  deriving DecidableEq, Repr

namespace ObjectCode

/-- Object code without comments and notes. -/
def ofInstructions (code : List Instruction) : ObjectCode where
  lines := code.map fun i => { instruction := i }

def size (p : ObjectCode) : Nat := p.lines.length

def isEmpty (p : ObjectCode) : Bool := p.lines.isEmpty

def instructions (p : ObjectCode) : List Instruction := p.lines.map (·.instruction)

def instruction? (p : ObjectCode) (address : Nat) : Option Instruction :=
  p.lines[address]?.map (·.instruction)

def comment? (p : ObjectCode) (address : Nat) : Option String :=
  p.lines[address]?.bind (·.comment)

end ObjectCode

def Note.listed (n : Note) : String := "* " ++ n.text

/-- A line of the listing: the address right-aligned in three columns, the instruction, and
the comment after a tab. -/
def Line.listed (address : Nat) (l : Line) : String :=
  let text := Text.pad .right 3 (toString address) ++ ":  " ++ l.instruction.text
  match l.comment with
  | none => text
  | some comment => text ++ "\t* " ++ comment

/-- The lines of a listing from an address on. Before each instruction stand the pending
notes, up to the first one that is anchored further on; the notes that are left follow the
last instruction. -/
def Line.listAll : Nat → List Line → List Note → List String
  | _, [], notes => notes.map Note.listed
  | address, l :: rest, notes =>
    (notes.takeWhile fun n => n.address ≤ address).map Note.listed ++ l.listed address ::
      Line.listAll (address + 1) rest (notes.dropWhile fun n => n.address ≤ address)

/-- The lines of a listing. -/
def ObjectCode.listedLines (p : ObjectCode) : List String := Line.listAll 0 p.lines p.notes

/-- The listing; every line ends with a newline. -/
def ObjectCode.listing (p : ObjectCode) : String :=
  String.join (p.listedLines.map (· ++ "\n"))

end BlockLang
