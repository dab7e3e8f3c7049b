import BlockLang.Static.Check
import BlockLang.Tree.Program

/-!
# Typing

Constants and arithmetic have type integer, comparisons have type boolean, and a reference
has the type of the storage it selects. The operands of an operation must have one and the
same scalar type; so must the two sides of an assignment have one type, and an argument
and its parameter.

The order in which things are looked at is part of what is fixed here, since a program is
refused with the first error: the base of a selector before its index, the left operand
before the right one, an argument before the question whether there are too many of them.
-/

namespace BlockLang

/-! ## Expressions -/

namespace Check

/-- The type of the elements of an array that goes by `name`. -/
def elementType (base : TypeId) (name : Ident) : Check TypeId := do
  match (← get).types.get? base with
  | some (.array element ..) => return element
  | _ => refuse name.span (.notAnArray name.name)

/-- The type of a field of a record that goes by `name`. -/
def fieldType (base : TypeId) (name field : Ident) : Check TypeId := do
  match (← get).types.get? base with
  | some (.record fields _) =>
    match fields.find? (·.name == field.name) with
    | some f => return f.type
    | none => refuse field.span (.noSuchField name.name field.name)
  | _ => refuse name.span (.notARecord name.name)

/-- The declared type of the variable that a name denotes. -/
def variableType (symbol : SymbolId) (name : Ident) : Check TypeId := do
  match (← get).symbols.variableAt? symbol with
  | some v => return v.type
  | none => refuse name.span (.notAVariable name.name)

/-- An index must be an integer. -/
def requireInteger (type : TypeId) (span : Span) : Check Unit :=
  if type = .integer then pure () else refuse span .incompatibleTypes

/-- Operands must have one scalar type. -/
def requireOperands (left right : TypeId) (span : Span) : Check Unit := do
  if left = right ∧ (← get).types.isScalar left then pure ()
    else refuse span .incompatibleTypes

end Check

/-- The type of an operation's result. -/
def BinaryOp.resultType (op : BinaryOp) : TypeId :=
  if op.isComparison then .boolean else .integer

open Check

mutual

/-- Checks an expression and records its type. -/
def Expr.check : Expr → Check TypeId
  | .const node _ _ => do
    recordType node .integer
    return .integer
  | .ref r => r.check
  | .binary node op left right span => do
    let l ← left.check
    let r ← right.check
    requireOperands l r span
    recordType node op.resultType
    return op.resultType

/-- Checks a reference and records the symbol of its variable and the type of the storage it
selects. -/
def Reference.check : Reference Expr → Check TypeId
  | ⟨node, name, selector, _⟩ => do
    let symbol ← resolve name
    let declared ← variableType symbol name
    let type ← selector.check declared name
    recordSymbol node symbol
    recordType node type
    return type

/-- The type of the part of a variable that a selector selects. The base is looked at before
the index. -/
def Selector.check (selector : Selector Expr) (declared : TypeId) (name : Ident) :
    Check TypeId :=
  match selector with
  | .whole => return declared
  | .element index => do
    let element ← elementType declared name
    requireInteger (← index.check) index.span
    return element
  | .field field => fieldType declared name field
  | .fieldElement field index => do
    let type ← fieldType declared name field
    let element ← elementType type field
    requireInteger (← index.check) index.span
    return element

end

/-! ## Statements -/

namespace Check

/-- The condition of an `if` or `while` statement must be boolean. -/
def checkCondition (keyword : String) (condition : Expr) : Check Unit := do
  let type ← condition.check
  if type = .boolean then pure () else refuse condition.span (.conditionNotBoolean keyword)

/-- An argument for an indirect parameter must be a variable, and every argument must have its
parameter's type. -/
def checkArgument (procedure : String) (param : SymbolId) (arg : Expr) : Check Unit := do
  let symbols := (← get).symbols
  match symbols.variableAt? param with
  | none => abort (.unexpectedSymbol (symbols.name param) "variable")
  | some v =>
    if v.access = .indirect ∧ arg.asRef?.isNone
      then refuse arg.span (.notAVariable arg.description)
    else
      let type ← arg.check
      if type = v.type then pure ()
      else refuse arg.span (.incompatibleArgument procedure (symbols.name param))

/-- Checks arguments against parameters from left to right; a wrong number of them shows only
when one side is used up. -/
def checkArguments (call : Call) (expected : Nat) : List SymbolId → List Expr → Check Unit
  | [], [] => pure ()
  | [], _ :: _ =>
    refuse call.span (.tooManyArguments call.callee.name expected call.args.length)
  | _ :: _, [] =>
    refuse call.span (.tooFewArguments call.callee.name expected call.args.length)
  | param :: params, arg :: args => do
    checkArgument call.callee.name param arg
    checkArguments call expected params args

/-- The parameters of the procedure that a name denotes. -/
def procedureParams (symbol : SymbolId) (name : Ident) : Check (List SymbolId) := do
  match (← get).symbols.procedureAt? symbol with
  | some p => return p.params
  | none => refuse name.span (.notAProcedure name.name)

end Check

def Call.check (call : Call) : Check Unit := do
  let symbol ← resolve call.callee
  let params ← procedureParams symbol call.callee
  recordSymbol call.node symbol
  checkArguments call params.length params call.args

mutual

def Stmt.check : Stmt → Check Unit
  | .assign target value span => do
    let targetType ← target.check
    let valueType ← value.check
    if targetType = valueType then pure () else refuse span .incompatibleTypes
  | .ifElse condition thenBranch elseBranch _ => do
    checkCondition "if" condition
    Stmt.checkAll thenBranch
    Stmt.checkAll elseBranch
  | .whileDo condition body _ => do
    checkCondition "while" condition
    Stmt.checkAll body
  | .read target _ => do
    let _ ← target.check
  | .write value span => do
    let type ← value.check
    if type = .boolean then refuse span .cannotWriteBoolean else pure ()
  | .call c => c.check
  | .ret span => do
    if (← get).scopes.level = 0 then refuse span .returnFromMain else pure ()

/-- Checks statements in order. -/
def Stmt.checkAll : List Stmt → Check Unit
  | [] => pure ()
  | s :: rest => do
    s.check
    Stmt.checkAll rest

end

end BlockLang
