import BlockLang.Static.Declaration
import BlockLang.Static.Typing

/-!
# Analysis of programs

In every declaration part the types and variables come first, so the frame of a procedure
has its final shape before its nested procedures and its body are looked at. A procedure's
name belongs to the scope around it and is declared before its parameters: the procedure
may call itself, and so may everything nested in it.

A procedure is checked in five steps: its header is declared in a new scope, its sections
are checked, its frame is fixed, its nested procedures and its body are checked, and its
scope is closed. `Program.analyze` does the same for the main program, without a header
and without a scope to close, and hands over the tables.
-/

namespace BlockLang

namespace Check

/-- Declares a procedure, opens its scope and declares its parameters. -/
def openProcedure (node : NodeId) (name : Ident) (params : List ParamDecl) :
    Check SymbolId := do
  let level := (← get).scopes.level + 1
  let id ← declare name (.proc { level, params := [], frameSize := 0, displayBase := 0 })
  recordSymbol node id
  modify fun s => { s with scopes := s.scopes.enter }
  params.forM ParamDecl.check
  let params := (← get).scopes.entries
  updateProcedure id fun p => { p with params }
  return id

/-- Fixes the frame of a procedure, once all its variables are declared. -/
def fixFrame (id : SymbolId) (name : Ident) : Check Unit := do
  let s ← get
  let displayBase := s.scopes.offset
  match Word.checked (displayBase + (s.scopes.level + 1)) with
  | none => refuse name.span .storageOverflow
  | some frameSize => updateProcedure id fun p => { p with frameSize, displayBase }

/-- Closes the scope of a procedure and keeps its symbols. -/
def closeProcedure (name : Ident) (span : Span) : Check Unit := do
  let s ← get
  let (entries?, scopes) := s.scopes.leave?
  set { s with scopes }
  match entries? with
  | none => abort (.malformedTree s!"scope of '{name.name}' already closed" span)
  | some entries =>
    modify fun t => { t with closed := t.closed ++ [ClosedScope.mk s.scopes.level entries] }

end Check

open Check

mutual

/-- Checks a declared procedure: its header, its declarations, its nested procedures, its
body. -/
def Decl.checkProcedure : Decl → Check Unit
  | .types .. | .vars .. => pure ()
  | .procedure ⟨node, name, params, decls, body, span⟩ => do
    let id ← openProcedure node name params
    Decl.checkSections false decls
    fixFrame id name
    Decl.checkProcedures decls
    Stmt.checkAll body
    closeProcedure name span

/-- Checks the procedures of a declaration part in order. -/
def Decl.checkProcedures : List Decl → Check Unit
  | [] => pure ()
  | d :: rest => do
    d.checkProcedure
    Decl.checkProcedures rest

end

/-- Checks a program and gives the offset of the main program's display. -/
def Program.check (p : Program) : Check Int := do
  Decl.checkSections false p.decls
  let mainDisplayBase := (← get).scopes.offset
  if mainDisplayBase = Word.greatest then refuse p.name.span .storageOverflow
  Decl.checkProcedures p.decls
  Stmt.checkAll p.body
  modify fun s => { s with closed := s.closed ++ [ClosedScope.mk 0 s.scopes.entries] }
  return mainDisplayBase

/-- Accepts a program, or refuses it with the first error. -/
def Program.analyze (p : Program) : Except CompileError Analysis :=
  match p.check.run {} with
  | .error e => .error e
  | .ok (mainDisplayBase, s) => .ok {
      types := s.types
      symbols := s.symbols
      annotations := s.annotations
      mainDisplayBase
      closedScopes := s.closed }

end BlockLang
