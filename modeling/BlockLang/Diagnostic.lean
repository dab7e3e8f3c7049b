import BlockLang.Span
import BlockLang.Word
import BlockLang.Machine.Fault

/-!
# What can go wrong

A program is refused with a *diagnostic*: a problem in its text, at a position. A *defect*
is a fault of the compiler itself or of the tree it was handed. Both are compile errors; a
run may end in a machine fault instead.

* `Problem`, `Diagnostic`: what is wrong with a program, and where.
* `Defect`: what is wrong with the compiler, or with a tree that it was handed.
* `CompileError`, `RunError`: why there is no code, and why there is no output.

Every error has one text, and the texts are part of what the compiler promises.
-/

namespace BlockLang

/-- What a diagnostic complains about. -/
inductive Problem where
  | duplicateIdentifier (name : String)
  | undefinedIdentifier (name : String)
  | notAType (name : String)
  | notAVariable (name : String)
  | notAProcedure (name : String)
  | notAnArray (name : String)
  | notARecord (name : String)
  | noSuchField (record field : String)
  | invalidArrayBounds (low high : Word)
  /-- The storage of a declaration has no place in the address range. -/
  | storageOverflow
  | incompatibleTypes
  /-- The condition of an `if` or `while` statement, which the keyword names. -/
  | conditionNotBoolean (keyword : String)
  | cannotWriteBoolean
  | returnFromMain
  | tooFewArguments (procedure : String) (expected found : Nat)
  | tooManyArguments (procedure : String) (expected found : Nat)
  | incompatibleArgument (procedure parameter : String)
  deriving DecidableEq, Repr

def Problem.text : Problem → String
  | .duplicateIdentifier name => s!"duplicate identifier '{name}'"
  | .undefinedIdentifier name => s!"undefined identifier '{name}'"
  | .notAType name => s!"'{name}' is not a type"
  | .notAVariable name => s!"'{name}' is not a variable"
  | .notAProcedure name => s!"'{name}' is not a procedure"
  | .notAnArray name => s!"'{name}' is not an array"
  | .notARecord name => s!"'{name}' is not a record"
  | .noSuchField record field => s!"record '{record}' has no field '{field}'"
  | .invalidArrayBounds low high => s!"invalid array bounds [{low.text}..{high.text}]"
  | .storageOverflow => "storage exceeds the addressable range"
  | .incompatibleTypes => "incompatible types"
  | .conditionNotBoolean keyword => s!"{keyword} condition must be boolean"
  | .cannotWriteBoolean => "cannot write a boolean expression"
  | .returnFromMain => "cannot return from the main program"
  | .tooFewArguments procedure expected found =>
    s!"too few arguments to '{procedure}': expected {expected}, found {found}"
  | .tooManyArguments procedure expected found =>
    s!"too many arguments to '{procedure}': expected {expected}, found {found}"
  | .incompatibleArgument procedure parameter =>
    s!"incompatible type for parameter '{parameter}' of '{procedure}'"

/-- A problem in the text of a program. -/
structure Diagnostic where
  span : Span
  problem : Problem
  deriving DecidableEq, Repr

def Diagnostic.message (d : Diagnostic) : String := s!"at {d.span.text}: {d.problem.text}"

/-- A fault of the compiler or of the tree it works on. -/
inductive Defect where
  /-- Code was to be patched beyond the last address. -/
  | patchOutOfRange (address frontier : Nat)
  /-- An address was reserved and never filled. -/
  | unfilledSlot (address : Nat)
  /-- A node of the tree lacks what the analysis should have recorded for it. -/
  | unannotated (node : Nat) (what : String)
  /-- A symbol of another kind than its use demands. -/
  | unexpectedSymbol (name : String) (expected : String)
  | malformedTree (reason : String) (span : Span)
  /-- A statement left a temporary behind. -/
  | unbalancedTemporaries (offset : Int) (span : Span)
  deriving DecidableEq, Repr

def Defect.message : Defect → String
  | .patchOutOfRange address frontier =>
    s!"internal: patch address {address} is beyond the frontier {frontier}"
  | .unfilledSlot address => s!"internal: reserved slot {address} was never filled"
  | .unannotated node what => s!"internal: node {node} has no {what} annotation"
  | .unexpectedSymbol name expected => s!"internal: symbol '{name}' is not a {expected}"
  | .malformedTree reason span => s!"internal: malformed tree at {span.text}: {reason}"
  | .unbalancedTemporaries offset span =>
    s!"internal: temporary area unbalanced at {span.text} (offset {offset})"

/-- Why no code was made for a program. -/
inductive CompileError where
  | diagnostic (d : Diagnostic)
  | defect (d : Defect)
  deriving DecidableEq, Repr

namespace CompileError

def message : CompileError → String
  | .diagnostic d => d.message
  | .defect d => d.message

/-- The source line to show; a defect has none. -/
def line? : CompileError → Option Nat
  | .diagnostic d => some d.span.line
  | .defect _ => none

end CompileError

/-- Why a program has no output. -/
inductive RunError where
  | compile (e : CompileError)
  | fault (f : Fault)
  deriving DecidableEq, Repr

namespace RunError

def message : RunError → String
  | .compile e => e.message
  | .fault f => f.message

def isCompile : RunError → Bool
  | .compile _ => true
  | .fault _ => false

end RunError

end BlockLang
