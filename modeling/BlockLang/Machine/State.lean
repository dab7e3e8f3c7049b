import BlockLang.Machine.Fault
import BlockLang.Machine.ObjectCode

/-!
# The machine

A machine holds loaded code, eight registers, data memory, a queue of input values and the
output so far. One step executes the instruction that `pc` points at. Steps are counted
and their number is limited, so every run ends.

A step that faults leaves the registers, memory, input and output as they are, apart from
the program counter, which has already moved on when the instruction itself faults.

The address of a load or store is found in two stages. `Machine.dataAddress` adds the
offset and the base, and a sum that is no word is a fault already. `Machine.dataSlot` asks
whether there is a word of data memory at the address. Memory is no larger than the
address range, so the two together refuse exactly the sums that are no address of data
memory.
-/

namespace BlockLang

/-- The contents of the registers. -/
structure Registers where
  ac : Word := 0
  ac1 : Word := 0
  ac2 : Word := 0
  mp : Word := 0
  displayOff : Word := 0
  top : Word := 0
  sp : Word := 0
  pc : Word := 0
  deriving DecidableEq, Repr

namespace Registers

def get (r : Registers) : Register → Word
  | .ac => r.ac
  | .ac1 => r.ac1
  | .ac2 => r.ac2
  | .mp => r.mp
  | .displayOff => r.displayOff
  | .top => r.top
  | .sp => r.sp
  | .pc => r.pc

def set (r : Registers) (reg : Register) (w : Word) : Registers :=
  match reg with
  | .ac => { r with ac := w }
  | .ac1 => { r with ac1 := w }
  | .ac2 => { r with ac2 := w }
  | .mp => { r with mp := w }
  | .displayOff => { r with displayOff := w }
  | .top => { r with top := w }
  | .sp => { r with sp := w }
  | .pc => { r with pc := w }

@[simp] theorem get_set_self (r : Registers) (reg : Register) (w : Word) :
    (r.set reg w).get reg = w := by
  cases reg <;> rfl

theorem get_set_of_ne (r : Registers) {reg reg' : Register} (h : reg' ≠ reg) (w : Word) :
    (r.set reg w).get reg' = r.get reg' := by
  cases reg <;> cases reg' <;> simp_all [get, set]

end Registers

/-! ## Data memory -/

/-- Data memory. It has no more words than there are addresses, the words from 0 on. -/
structure Memory where
  words : Array Word
  size_le : words.size ≤ 9223372036854775808 := by decide
  deriving DecidableEq, Repr

namespace Memory

/-- The number of words. -/
def size (d : Memory) : Nat := d.words.size

def get? (d : Memory) (i : Nat) : Option Word := d.words[i]?

/-- A word, and 0 where there is none. -/
def get (d : Memory) (i : Nat) : Word := d.words.getD i 0

/-- The memory with another word at `i`, if there is one. -/
def set (d : Memory) (i : Nat) (w : Word) : Memory where
  words := d.words.setIfInBounds i w
  size_le := by simpa using d.size_le

/-- Zeros, except that the first word holds the highest address. -/
def initial (size : Nat) (h : size ≤ 9223372036854775808) : Memory where
  words := (Array.replicate size 0).setIfInBounds 0 (Int64.ofNat size - 1)
  size_le := by simpa using h

end Memory

/-! ## States -/

/-- The limits of a run. -/
structure Limits where
  /-- Words of data memory; a machine has at least one. -/
  memorySize : Nat := 1024
  /-- Instructions that a run may execute. -/
  stepLimit : Nat := 1000000
  deriving DecidableEq, Repr

structure Machine where
  code : Array Instruction
  stepLimit : Nat
  registers : Registers := {}
  memory : Memory
  /-- Values that are still to be read. -/
  input : List Word := []
  /-- Values written so far. -/
  output : Array Word := #[]
  /-- Instructions executed so far. -/
  steps : Nat := 0
  deriving DecidableEq, Repr

/-- What a step of the machine leads to. -/
inductive Outcome where
  | running
  | halted
  | fault (f : Fault)
  deriving DecidableEq, Repr

namespace Machine

/-- A machine before its first step. -/
def load (p : ObjectCode) (limits : Limits) (input : List Word) : Machine where
  code := p.instructions.toArray
  stepLimit := limits.stepLimit
  memory := .initial (min (max limits.memorySize 1) 9223372036854775808) (Nat.min_le_right ..)
  input

def register (m : Machine) (reg : Register) : Word := m.registers.get reg

def setRegister (m : Machine) (reg : Register) (w : Word) : Machine :=
  { m with registers := m.registers.set reg w }

/-- More values to be read, after those already queued. -/
def feed (m : Machine) (values : List Word) : Machine :=
  { m with input := m.input ++ values }

/-- The data address that `offset(base)` denotes. A sum that no word holds is reported as the
nearest word. -/
def dataAddress (offset base : Word) (pc : Nat) : Except Fault Word :=
  match Word.checkedAdd offset base with
  | some address => .ok address
  | none => .error (.dataOutOfRange (Word.saturatingAdd offset base) pc)

/-- The memory slot of a data address. -/
def dataSlot (m : Machine) (address : Word) (pc : Nat) : Except Fault Nat :=
  match (Word.toNat? address).filter (· < m.memory.size) with
  | some slot => .ok slot
  | none => .error (.dataOutOfRange address pc)

/-- The memory slot that `offset(base)` denotes. -/
def slot (m : Machine) (offset base : Word) (pc : Nat) : Except Fault Nat := do
  let address ← dataAddress offset base pc
  m.dataSlot address pc

/-- Executes a register instruction that was fetched from address `pc`. -/
def performRegister (m : Machine) (pc : Nat) (op : Opcode) (dst src1 src2 : Register) :
    Machine × Outcome :=
  let a := m.register src1
  let b := m.register src2
  match op with
  | .halt => (m, .halted)
  | .inp =>
    match m.input with
    | [] => (m, .fault (.inputExhausted pc))
    | w :: rest => ({ m with input := rest }.setRegister dst w, .running)
  | .out => ({ m with output := m.output.push (m.register dst) }, .running)
  | .add => (m.setRegister dst (a + b), .running)
  | .sub => (m.setRegister dst (a - b), .running)
  | .mul => (m.setRegister dst (a * b), .running)
  | .div =>
    if b = 0 then (m, .fault (.divisionByZero pc)) else (m.setRegister dst (a / b), .running)
  | _ => (m, .fault (.illegalInstruction pc))

/-- Executes a memory instruction that was fetched from address `pc`. -/
def performMemory (m : Machine) (pc : Nat) (op : Opcode)
    (reg : Register) (offset : Word) (base : Register) :
    Machine × Outcome :=
  let b := m.register base
  match op with
  | .ld =>
    match m.slot offset b pc with
    | .error f => (m, .fault f)
    | .ok i => (m.setRegister reg (m.memory.get i), .running)
  | .st =>
    match m.slot offset b pc with
    | .error f => (m, .fault f)
    | .ok i =>
      let w := m.register reg
      ({ m with memory := m.memory.set i w }, .running)
  | .lda => (m.setRegister reg (offset + b), .running)
  | .ldc => (m.setRegister reg offset, .running)
  | .jlt => (if m.register reg < 0 then m.setRegister .pc (offset + b) else m, .running)
  | .jeq => (if m.register reg = 0 then m.setRegister .pc (offset + b) else m, .running)
  | _ => (m, .fault (.illegalInstruction pc))

/-- Executes an instruction that was fetched from address `pc`; the program counter already
points past it. -/
def perform (m : Machine) (pc : Nat) : Instruction → Machine × Outcome
  | .register op dst src1 src2 => m.performRegister pc op dst src1 src2
  | .memory op reg offset base => m.performMemory pc op reg offset base

/-- The instruction at an address. -/
def fetch? (m : Machine) (pc : Word) : Option Instruction :=
  if 0 ≤ pc then m.code[pc.toInt.toNat]? else none

/-- Executes one instruction. -/
def step (m : Machine) : Machine × Outcome :=
  if m.stepLimit ≤ m.steps then (m, .fault (.stepLimitExceeded m.stepLimit))
  else
    let pc := m.registers.pc
    let m := { m with steps := m.steps + 1 }
    match m.fetch? pc with
    | none => (m, .fault (.instructionOutOfRange pc))
    | some i => (m.setRegister .pc (pc + 1)).perform pc.toInt.toNat i

/-- Executes at most `n` instructions; a run that needs more has exceeded the step limit. -/
def runFor : Nat → Machine → Machine × Except Fault Unit
  | 0, m => (m, .error (.stepLimitExceeded m.stepLimit))
  | n + 1, m =>
    match m.step with
    | (m, .running) => runFor n m
    | (m, .halted) => (m, .ok ())
    | (m, .fault f) => (m, .error f)

/-- Runs to `HALT` or to a fault. -/
def execute (m : Machine) : Machine × Except Fault Unit := runFor (m.stepLimit - m.steps) m

/-- Runs to `HALT` and gives everything written. -/
def run (m : Machine) : Except Fault (List Word) :=
  match m.execute with
  | (m, .ok ()) => .ok m.output.toList
  | (_, .error f) => .error f

def memory? (m : Machine) (address : Nat) : Option Word := m.memory.get? address

end Machine

end BlockLang
