import BlockLang.Tree.Expr

/-!
# Programs

A program is a declaration part and a body of statements. A declaration part is a list of
type sections, variable sections and procedures. Procedures nest: each has its own
declaration part and body.

The tree does not rule out everything that a program must not do. The sections of a
declaration part may stand in any order here, and the analysis refuses a section that
comes after a procedure.
-/

namespace BlockLang

/-! ## Statements -/

/-- A procedure call. -/
structure Call where
  node : NodeId
  callee : Ident
  args : List Expr
  span : Span

inductive Stmt where
  /-- `target := value` -/
  | assign (target : VarRef) (value : Expr) (span : Span)
  /-- `if condition then … else …`; a missing `else` is an empty one. -/
  | ifElse (condition : Expr) (thenBranch elseBranch : List Stmt) (span : Span)
  /-- `while condition do …` -/
  | whileDo (condition : Expr) (body : List Stmt) (span : Span)
  | read (target : VarRef) (span : Span)
  | write (value : Expr) (span : Span)
  | call (c : Call)
  /-- Leave the running procedure. -/
  | ret (span : Span)

def Stmt.span : Stmt → Span
  | .assign _ _ span => span
  | .ifElse _ _ _ span => span
  | .whileDo _ _ span => span
  | .read _ span => span
  | .write _ span => span
  | .call c => c.span
  | .ret span => span

/-! ## Declarations -/

/-- Names that share one type, in a record; `τ` is the type of type expressions. -/
structure FieldGroup (τ : Type) where
  names : List Ident
  type : τ
  span : Span

inductive TypeExpr where
  | integer (span : Span)
  | char (span : Span)
  | named (name : Ident)
  /-- `array [low..high] of element` -/
  | array (low high : Word) (element : TypeExpr) (span : Span)
  /-- `record … end` -/
  | record (fields : List (FieldGroup TypeExpr)) (span : Span)

/-- `name = type` -/
structure TypeDecl where
  name : Ident
  type : TypeExpr
  span : Span

/-- Variables that share one type. -/
structure VarDecl where
  node : NodeId
  names : List Ident
  type : TypeExpr
  span : Span

/-- How an argument is passed. -/
inductive ParamMode where
  /-- The parameter is a copy of the argument. -/
  | value
  /-- The parameter is another name for the argument's storage. -/
  | reference
  deriving DecidableEq, Repr

/-- Parameters that share one mode and one type. -/
structure ParamDecl where
  node : NodeId
  mode : ParamMode
  names : List Ident
  type : TypeExpr
  span : Span

/-- A procedure; `δ` is the type of its own declarations. -/
structure ProcDecl (δ : Type) where
  node : NodeId
  name : Ident
  params : List ParamDecl
  decls : List δ
  body : List Stmt
  span : Span

inductive Decl where
  | types (decls : List TypeDecl) (span : Span)
  | vars (decls : List VarDecl) (span : Span)
  | procedure (p : ProcDecl Decl)

namespace Decl

/-- The procedure that a declaration declares. -/
def asProcedure? : Decl → Option (ProcDecl Decl)
  | .procedure p => some p
  | .types .. | .vars .. => none

end Decl

structure Program where
  name : Ident
  decls : List Decl
  body : List Stmt
  span : Span

end BlockLang
