import BlockLang.Code.Call

/-!
# Code for statements

An assignment computes the address of its target before the value, and keeps it in `ac2`
while the value is computed. Values of one word are stored, all others are copied word by
word.

The jumps of `if` and `while` go to code that does not exist yet. Their addresses are
reserved and written when the target is known. No statement leaves a temporary behind.
-/

namespace BlockLang

open Gen Lookups

section

variable {m : Type → Type} [Monad m] [MonadLiftT Gen m] [Lookups m]

namespace Gen

/-- Stores a value at a reference; arrays and records are copied word by word. -/
def storeValue (a : Analysis) (target : VarRef) (value : Expr) (span : Span) :
    m Unit := do
  let type ← typeOf a target.node
  let size ← sizeOf a type
  target.generateAddress a
  memory .lda .ac2 0 .ac "ac2 <- target"
  if size = 1 then
    value.generate a
    memory .st .ac 0 .ac2 "assign: store value"
  else
    match value.asRef? with
    | none => abort (.malformedTree "aggregate assignment from a non-variable" span)
    | some source =>
      source.generateAddress a
      copyWords size 0 .ac2 "copy word"

end Gen

mutual

/-- Code for a statement, with `checks` around every statement in it. -/
def Stmt.generate (a : Analysis) (checks : Checks) : Stmt → m Unit
  | .assign target value span => do
    note "-> assign"
    storeValue a target value span
  | .ifElse condition thenBranch elseBranch _ => do
    note "-> if"
    condition.generate a
    let toElse ← reserve 1
    Stmt.generateAll a checks thenBranch
    let toEnd ← reserve 1
    let elseStart ← here
    Stmt.generateAll a checks elseBranch
    let finish ← here
    seek toElse
    relative .jeq .ac elseStart "if: jmp to else"
    seek toEnd
    relative .lda .pc finish "jmp to end"
    resume
    note "<- if"
  | .whileDo condition body _ => do
    note "-> while"
    let start ← here
    condition.generate a
    let toEnd ← reserve 1
    Stmt.generateAll a checks body
    relative .lda .pc start "while: jmp back to test"
    let finish ← here
    seek toEnd
    relative .jeq .ac finish "while: jmp to end"
    resume
    note "<- while"
  | .read target _ => do
    note "-> read"
    target.generateAddress a
    memory .lda .ac2 0 .ac "ac2 <- target"
    register .inp .ac .ac .ac "read value"
    memory .st .ac 0 .ac2 "store value"
  | .write value _ => do
    note "-> write"
    value.generate a
    register .out .ac .ac .ac "write ac"
  | .call c => c.generate a
  | .ret _ => memory .ld .pc Frame.returnAddress .sp "return"

/-- Code for statements in order. -/
def Stmt.generateAll (a : Analysis) (checks : Checks) : List Stmt → m Unit
  | [] => pure ()
  | s :: rest => do
    checks.before s.span
    Stmt.generate a checks s
    checks.after s.span
    Stmt.generateAll a checks rest

end

end

end BlockLang
