import BlockLang.Word

/-!
# Run-time faults

A run of the machine stops at `HALT` or with one of these. A fault says at which
instruction it occurred, and a fault of an access also which address it went to.
-/

namespace BlockLang

/-- Why a run of the machine stopped before `HALT`. A `pc` of type `Nat` is the address of the
faulting instruction. -/
inductive Fault where
  /-- The program counter left the code. -/
  | instructionOutOfRange (pc : Word)
  /-- The operation does not go with the form of its operands. -/
  | illegalInstruction (pc : Nat)
  /-- A load or store outside data memory; an address that no word holds is reported as the
  nearest word. -/
  | dataOutOfRange (address : Word) (pc : Nat)
  | divisionByZero (pc : Nat)
  | inputExhausted (pc : Nat)
  | stepLimitExceeded (limit : Nat)
  deriving DecidableEq, Repr

def Fault.message : Fault → String
  | .instructionOutOfRange pc => "instruction fetch out of range at pc " ++ pc.text
  | .illegalInstruction pc => "illegal instruction at pc " ++ toString pc
  | .dataOutOfRange address pc =>
    "data address " ++ address.text ++ " out of range (pc " ++ toString pc ++ ")"
  | .divisionByZero pc => "division by zero (pc " ++ toString pc ++ ")"
  | .inputExhausted pc => "input exhausted (pc " ++ toString pc ++ ")"
  | .stepLimitExceeded limit => "step limit of " ++ toString limit ++ " exceeded"

end BlockLang
