import BlockLang.Diagnostic
import BlockLang.Machine.ObjectCode

/-!
# Emitting instructions

An emitter fills addresses from 0 on. Its cursor is the next address to be written, its
frontier the first address that was neither written nor reserved. A jump to code that does
not exist yet is emitted by reserving its address, seeking back to it later and resuming
at the frontier.

Instructions and comments stand in two arrays, which every write keeps of one length. An
instruction is written only in the form that its operation has: `Emitter.register?`,
`Emitter.memory?` and `Emitter.relative?` give no emitter otherwise. `Emitter.seek` gives
the emitter on both of its paths, and `Emitter.finish` gives object code if every address
below the frontier was written.
-/

namespace BlockLang

namespace Note

/-- Puts a note in front of the first one that is not anchored before it. -/
def insert (n : Note) : List Note → List Note
  | [] => [n]
  | m :: rest => if n.address ≤ m.address then n :: m :: rest else m :: insert n rest

/-- Notes in the order of their addresses; those of one address keep their order. -/
def sort (notes : List Note) : List Note := notes.foldr insert []

end Note

structure Emitter where
  /-- The instructions from address 0 on; an address that is only reserved has none. -/
  code : Array (Option Instruction) := #[]
  /-- The comments on the instructions, address by address. -/
  comments : Array (Option String) := #[]
  /-- The notes in the order in which they were made. -/
  notes : Array Note := #[]
  cursor : Nat := 0
  /-- Whether comments and notes are kept. -/
  trace : Bool
  deriving DecidableEq, Repr

namespace Emitter

/-- The first address that was neither written nor reserved. -/
def frontier (e : Emitter) : Nat := e.code.size

/-! ## Writing -/

/-- A comment as it is kept: not at all without tracing, and not if it is empty. -/
def kept (e : Emitter) (comment : String) : Option String :=
  if e.trace ∧ comment ≠ "" then some comment else none

/-- Writes an instruction at the cursor. -/
def write (e : Emitter) (i : Instruction) (comment : String) : Emitter :=
  if e.cursor = e.code.size then
    { e with
      code := e.code.push (some i)
      comments := e.comments.push (e.kept comment)
      cursor := e.cursor + 1 }
  else
    { e with
      code := e.code.setIfInBounds e.cursor (some i)
      comments := e.comments.setIfInBounds e.cursor (e.kept comment)
      cursor := e.cursor + 1 }

/-- Writes a register instruction, if the operation takes three registers. -/
def register? (e : Emitter) (op : Opcode) (dst src1 src2 : Register) (comment : String) :
    Option Emitter :=
  (Instruction.register? op dst src1 src2).map (e.write · comment)

/-- Writes a memory instruction, if the operation takes a register and an address. -/
def memory? (e : Emitter) (op : Opcode) (reg : Register) (offset : Word) (base : Register)
    (comment : String) : Option Emitter :=
  (Instruction.memory? op reg offset base).map (e.write · comment)

/-- The distance from the instruction behind the cursor to an address: while the instruction
at the cursor executes, `pc` already points past it. -/
def offsetTo (e : Emitter) (target : Nat) : Word :=
  Int64.ofNat target - (Int64.ofNat e.cursor + 1)

/-- Writes a memory instruction whose address is the code address `target`, relative to
`pc`. -/
def relative? (e : Emitter) (op : Opcode) (reg : Register) (target : Nat) (comment : String) :
    Option Emitter :=
  e.memory? op reg (e.offsetTo target) .pc comment

/-- Makes a note before the next instruction. -/
def note (e : Emitter) (text : String) : Emitter :=
  if e.trace then { e with notes := e.notes.push ⟨e.cursor, text⟩ } else e

/-! An operation is written in the form that it has. -/

theorem register?_of_form (e : Emitter) {op : Opcode} (h : op.form = .register)
    (dst src1 src2 : Register) (comment : String) : e.register? op dst src1 src2 comment =
    some (e.write (.register op dst src1 src2) comment) := by
  simp [register?, Instruction.register?, h]

theorem memory?_of_form (e : Emitter) {op : Opcode} (h : op.form = .memory) (reg : Register)
    (offset : Word) (base : Register) (comment : String) :
    e.memory? op reg offset base comment =
    some (e.write (.memory op reg offset base) comment) := by
  simp [memory?, Instruction.memory?, h]

theorem relative?_of_form (e : Emitter) {op : Opcode} (h : op.form = .memory) (reg : Register)
    (target : Nat) (comment : String) :
    e.relative? op reg target comment =
      some (e.write (.memory op reg (e.offsetTo target) .pc) comment) :=
  e.memory?_of_form h reg (e.offsetTo target) .pc comment

/-! ## Moving the cursor -/

/-- Moves the cursor past an address, which is reserved if nothing is there yet. -/
def skip (e : Emitter) : Emitter :=
  if e.cursor = e.code.size then
    { e with
      code := e.code.push none, comments := e.comments.push none, cursor := e.cursor + 1 }
  else { e with cursor := e.cursor + 1 }

/-- Moves the cursor past `count` addresses. -/
def skipMany (e : Emitter) : Nat → Emitter
  | 0 => e
  | count + 1 => e.skip.skipMany count

/-- Skips `count` addresses, to be written later, and gives the first of them. -/
def reserve (e : Emitter) (count : Nat) : Nat × Emitter := (e.cursor, e.skipMany count)

/-- Moves the cursor to an address, which must not lie beyond the frontier. -/
def seek (e : Emitter) (address : Nat) : Except Defect Unit × Emitter :=
  if address > e.frontier then (.error (.patchOutOfRange address e.frontier), e)
  else (.ok (), { e with cursor := address })

/-- Moves the cursor to the frontier. -/
def resume (e : Emitter) : Emitter := { e with cursor := e.frontier }

/-! ## Handing over -/

/-- The finished object code. Every address below the frontier must have been written. -/
def finish (e : Emitter) : Except Defect ObjectCode :=
  match e.code.toList.findIdx? Option.isNone with
  | some address => .error (.unfilledSlot address)
  | none => .ok
    { lines := List.zipWith Line.mk (e.code.toList.filterMap id) e.comments.toList
      notes := Note.sort e.notes.toList }

end Emitter

end BlockLang
