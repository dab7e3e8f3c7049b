import BlockLang.Tree.Program

/-!
# Building trees

A builder hands out node identities, numbered from 0, and stamps every node and name with
the start of its current line. A node takes the next identity when it is built, after the
nodes that it holds, so no two nodes that come from one builder have the same identity.

There is one construction for each form of the tree. They are plain: no name is looked up
and no type is compared.
-/

namespace BlockLang

structure Builder where
  /-- Node identities handed out so far. -/
  nodeCount : Nat := 0
  /-- The line that is stamped on nodes. -/
  line : Nat := 1
  deriving DecidableEq, Repr

/-- A construction that uses a builder. -/
abbrev Build := StateM Builder

namespace Build

/-! ## The builder's state -/

def setLine (line : Nat) : Build Unit := modify fun b => { b with line }

/-- The next node identity. -/
def fresh : Build NodeId :=
  modifyGet fun b => (⟨b.nodeCount⟩, { b with nodeCount := b.nodeCount + 1 })

/-- The start of the current line. -/
def span : Build Span := return .ofLine (← get).line

def ident (name : String) : Build Ident := return ⟨name, ← span⟩

def idents (names : List String) : Build (List Ident) :=
  return names.map (⟨·, .ofLine (← get).line⟩)

/-! ## Types -/

def integer : Build TypeExpr := return .integer (← span)

def char : Build TypeExpr := return .char (← span)

def named (name : String) : Build TypeExpr := return .named (← ident name)

def array (low high : Word) (element : TypeExpr) : Build TypeExpr :=
  return .array low high element (← span)

def fieldGroup (names : List String) (type : TypeExpr) : Build (FieldGroup TypeExpr) :=
  return ⟨← idents names, type, ← span⟩

def record (fields : List (FieldGroup TypeExpr)) : Build TypeExpr :=
  return .record fields (← span)

/-! ## Declarations -/

def typeDecl (name : String) (type : TypeExpr) : Build TypeDecl :=
  return ⟨← ident name, type, ← span⟩

def types (decls : List TypeDecl) : Build Decl := return .types decls (← span)

def varDecl (names : List String) (type : TypeExpr) : Build VarDecl :=
  return ⟨← fresh, ← idents names, type, ← span⟩

def vars (decls : List VarDecl) : Build Decl := return .vars decls (← span)

def param (mode : ParamMode) (names : List String) (type : TypeExpr) : Build ParamDecl :=
  return ⟨← fresh, mode, ← idents names, type, ← span⟩

def procedure (name : String) (params : List ParamDecl)
    (decls : List Decl) (body : List Stmt) :
    Build (ProcDecl Decl) :=
  return ⟨← fresh, ← ident name, params, decls, body, ← span⟩

def program (name : String) (decls : List Decl) (body : List Stmt) : Build Program :=
  return ⟨← ident name, decls, body, ← span⟩

/-! ## References and expressions -/

/-- A reference to a part of a named variable. -/
def reference (name : String) (selector : Selector Expr) : Build VarRef :=
  return ⟨← fresh, ← ident name, selector, ← span⟩

def var (name : String) : Build VarRef := reference name .whole

def index (name : String) (i : Expr) : Build VarRef := reference name (.element i)

def field (name field : String) : Build VarRef := do
  reference name (.field (← ident field))

def fieldIndex (name field : String) (i : Expr) : Build VarRef := do
  reference name (.fieldElement (← ident field) i)

def const (value : Word) : Build Expr := return .const (← fresh) value (← span)

def binary (op : BinaryOp) (left right : Expr) : Build Expr :=
  return .binary (← fresh) op left right (← span)

/-! ## Statements -/

def assign (target : VarRef) (value : Expr) : Build Stmt :=
  return .assign target value (← span)

def ifElse (condition : Expr) (thenBranch elseBranch : List Stmt) : Build Stmt :=
  return .ifElse condition thenBranch elseBranch (← span)

def whileDo (condition : Expr) (body : List Stmt) : Build Stmt :=
  return .whileDo condition body (← span)

def read (target : VarRef) : Build Stmt := return .read target (← span)

def write (value : Expr) : Build Stmt := return .write value (← span)

def call (callee : String) (args : List Expr) : Build Call :=
  return ⟨← fresh, ← ident callee, args, ← span⟩

def ret : Build Stmt := return .ret (← span)

end Build

end BlockLang
