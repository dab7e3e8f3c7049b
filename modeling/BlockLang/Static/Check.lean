import BlockLang.Static.Annotations

/-!
# Checking

Checks run over the tree in the order of declaration and stop at the first error. They
grow the tables of types and symbols, keep the open scopes and record what they find out
about nodes.

A check is a computation in `Check`, with a `CheckState` to read and to change and a
compile error to stop with. `Check.refuse` stops with a diagnostic, `Check.abort` with a
defect.
-/

namespace BlockLang

/-- What checking has found out so far. -/
structure CheckState where
  types : TypeTable := {}
  symbols : SymbolTable := {}
  scopes : Scopes := {}
  annotations : Annotations := {}
  /-- The scopes closed so far, in order. -/
  closed : List ClosedScope := []

abbrev Check := StateT CheckState (Except CompileError)

namespace Check

/-- Stops with a diagnostic. -/
def refuse {α : Type} (span : Span) (problem : Problem) : Check α :=
  throw (.diagnostic ⟨span, problem⟩)

/-- Stops with a defect. -/
def abort {α : Type} (defect : Defect) : Check α := throw (.defect defect)

/-- Declares a name in the innermost scope. -/
def declare (name : Ident) (meaning : Meaning) : Check SymbolId := do
  let s ← get
  let (result, scopes, symbols) := s.scopes.declare s.symbols ⟨name.name, meaning, name.span⟩
  set { s with scopes, symbols }
  match result with
  | .error d => throw (.diagnostic d)
  | .ok id => return id

/-- Changes what is known about a procedure. -/
def updateProcedure (id : SymbolId) (f : Procedure → Procedure) : Check Unit := do
  let s ← get
  match s.symbols.updateProcedure id f with
  | .error d => abort d
  | .ok symbols => set { s with symbols }

/-- The innermost declaration of a name. -/
def resolve (name : Ident) : Check SymbolId := do
  match (← get).scopes.resolve name.name name.span with
  | .error d => throw (.diagnostic d)
  | .ok id => return id

def recordSymbol (node : NodeId) (symbol : SymbolId) : Check Unit :=
  modify fun s => { s with annotations := s.annotations.recordSymbol node symbol }

def recordType (node : NodeId) (type : TypeId) : Check Unit :=
  modify fun s => { s with annotations := s.annotations.recordType node type }

end Check

end BlockLang
