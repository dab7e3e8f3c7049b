import BlockLang.Padding
import BlockLang.Word

/-!
# Instructions

The machine has eight registers, to each of which compiled code gives one role, and
thirteen operations. The first seven operations take three registers; the others take a
register and an address `offset(base)`. Registers and operations are numbered from 0.

An instruction is an operation with operands of one of the two forms. The type admits an
operation with operands of the other form: the machine refuses to execute it. The checked
constructors `Instruction.register?` and `Instruction.memory?` never build one.

`Instruction.text` is how an instruction stands in a listing.
-/

namespace BlockLang

/-! ## Registers -/

/-- A register, named for its role in compiled code. -/
inductive Register where
  /-- Accumulator: every expression leaves its value here. -/
  | ac
  /-- Second accumulator: left operands and frame bases. -/
  | ac1
  /-- Third accumulator: the target address of an assignment. -/
  | ac2
  /-- The highest data address; temporaries grow down from it. -/
  | mp
  /-- The address of the running frame's display. -/
  | displayOff
  /-- The first word above the running frame. -/
  | top
  /-- The base of the running frame. -/
  | sp
  /-- The program counter. -/
  | pc
  deriving DecidableEq, Repr, Inhabited

/-- A number that names no member of a numbered set. -/
structure UnknownCode where
  /-- The name of the set. -/
  family : String
  value : Nat
  deriving DecidableEq, Repr

def UnknownCode.message (e : UnknownCode) : String :=
  "No discriminant in enum `" ++ e.family ++ "` matches the value `" ++
    toString e.value ++ "`"

namespace Register

/-- The registers in the order of their numbers. -/
def all : List Register := [.ac, .ac1, .ac2, .mp, .displayOff, .top, .sp, .pc]

def index : Register → Nat
  | .ac => 0
  | .ac1 => 1
  | .ac2 => 2
  | .mp => 3
  | .displayOff => 4
  | .top => 5
  | .sp => 6
  | .pc => 7

def ofIndex (n : Nat) : Except UnknownCode Register :=
  match all[n]? with
  | some r => .ok r
  | none => .error ⟨"Register", n⟩

/-- In a listing a register is its number. -/
def text (r : Register) : String := toString r.index

theorem ofIndex_index (r : Register) : ofIndex r.index = .ok r := by
  cases r <;> rfl

end Register

/-! ## Operations -/

/-- The two shapes of an instruction's operands. -/
inductive Form where
  /-- Three registers. -/
  | register
  /-- A register, an offset and a base register. -/
  | memory
  deriving DecidableEq, Repr

inductive Opcode where
  /-- Stop. -/
  | halt
  /-- Take the next input value. -/
  | inp
  /-- Append a value to the output. -/
  | out
  | add
  | sub
  | mul
  | div
  /-- Load a data word. -/
  | ld
  /-- Store a data word. -/
  | st
  /-- Load an address, without touching data memory. -/
  | lda
  /-- Load a constant. -/
  | ldc
  /-- Jump if the register is negative. -/
  | jlt
  /-- Jump if the register is zero. -/
  | jeq
  deriving DecidableEq, Repr, Inhabited

namespace Opcode

/-- The operations in the order of their numbers. -/
def all : List Opcode :=
  [.halt, .inp, .out, .add, .sub, .mul, .div, .ld, .st, .lda, .ldc, .jlt, .jeq]

def code : Opcode → Nat
  | .halt => 0
  | .inp => 1
  | .out => 2
  | .add => 3
  | .sub => 4
  | .mul => 5
  | .div => 6
  | .ld => 7
  | .st => 8
  | .lda => 9
  | .ldc => 10
  | .jlt => 11
  | .jeq => 12

def ofCode (n : Nat) : Except UnknownCode Opcode :=
  match all[n]? with
  | some op => .ok op
  | none => .error ⟨"Opcode", n⟩

def mnemonic : Opcode → String
  | .halt => "HALT"
  | .inp => "IN"
  | .out => "OUT"
  | .add => "ADD"
  | .sub => "SUB"
  | .mul => "MUL"
  | .div => "DIV"
  | .ld => "LD"
  | .st => "ST"
  | .lda => "LDA"
  | .ldc => "LDC"
  | .jlt => "JLT"
  | .jeq => "JEQ"

/-- The shape of operands that the operation is defined for. -/
def form : Opcode → Form
  | .halt | .inp | .out | .add | .sub | .mul | .div => .register
  | .ld | .st | .lda | .ldc | .jlt | .jeq => .memory

/-- Conditional jumps; an unconditional one is an `lda` into `pc`. -/
def isJump : Opcode → Bool
  | .jlt | .jeq => true
  | _ => false

/-- The mnemonic in a column, cut to the precision first. -/
def text (op : Opcode) (align : Alignment) (width : Nat) (precision : Option Nat) : String :=
  Text.pad align width (Text.truncate precision op.mnemonic)

theorem ofCode_code (op : Opcode) : ofCode op.code = .ok op := by
  cases op <;> rfl

end Opcode

/-! ## Operands -/

inductive Instruction where
  /-- `op dst,src1,src2` -/
  | register (op : Opcode) (dst src1 src2 : Register)
  /-- `op reg,offset(base)` -/
  | memory (op : Opcode) (reg : Register) (offset : Word) (base : Register)
  deriving DecidableEq, Repr

namespace Instruction

def op : Instruction → Opcode
  | .register op .. => op
  | .memory op .. => op

/-- The form in which the operands are given. -/
def form : Instruction → Form
  | .register .. => .register
  | .memory .. => .memory

/-- A register instruction, if the operation takes three registers. -/
def register? (op : Opcode) (dst src1 src2 : Register) : Option Instruction :=
  if op.form = .register then some (.register op dst src1 src2) else none

/-- A memory instruction, if the operation takes a register and an address. -/
def memory? (op : Opcode) (reg : Register) (offset : Word) (base : Register) :
    Option Instruction :=
  if op.form = .memory then some (.memory op reg offset base) else none

/-- Listing text: the mnemonic right-aligned in five columns, two spaces, the operands. -/
def text : Instruction → String
  | .register op dst src1 src2 =>
    op.text .right 5 none ++ "  " ++ dst.text ++ "," ++ src1.text ++ "," ++ src2.text
  | .memory op reg offset base =>
    op.text .right 5 none ++ "  " ++ reg.text ++ "," ++ offset.text ++ "(" ++ base.text ++ ")"

end Instruction

end BlockLang
