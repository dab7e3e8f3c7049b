import BlockLang.Static.Check
import BlockLang.Tree.Program

/-!
# Declarations of types, variables and parameters

Variables and parameters take words of the innermost frame in the order of declaration: a
direct one as many as its type has, an indirect one a single word for the address. A type
or a frame that would leave the address range is refused.

A declaration part is gone through twice. `Decl.checkSections` does the type and variable
sections and insists that they stand before all procedures; the procedures come later.
-/

namespace BlockLang

namespace Check

/-- The type that a declared name stands for. -/
def namedType (name : Ident) : Check TypeId := do
  let symbol ← resolve name
  match (← get).symbols.typeAt? symbol with
  | some type => return type
  | none => refuse name.span (.notAType name.name)

/-- Adds a type to the table; a type without room in the address range is refused at
`span`. -/
def addType (span : Span) (add : TypeTable → Option TypeId × TypeTable) : Check TypeId := do
  let s ← get
  let (type?, types) := add s.types
  set { s with types }
  match type? with
  | none => refuse span .storageOverflow
  | some type => return type

end Check

open Check

mutual

/-- The type that a type expression denotes; an array or record expression makes a new one. -/
def TypeExpr.denote : TypeExpr → Check TypeId
  | .integer _ => return .integer
  | .char _ => return .char
  | .named name => namedType name
  | .array low high element span =>
    if low ≤ high then do
      let element ← element.denote
      addType span (·.addArray? element low high)
    else refuse span (.invalidArrayBounds low high)
  | .record fields span => do
    let fields ← TypeExpr.denoteFields fields
    addType span (·.addRecord? fields)

/-- The fields of a record with their types. -/
def TypeExpr.denoteFields : List (FieldGroup TypeExpr) → Check (List (String × TypeId))
  | [] => return []
  | ⟨names, type, _⟩ :: rest => do
    let type ← type.denote
    let fields ← TypeExpr.denoteFields rest
    return names.map (fun name => (name.name, type)) ++ fields

end

namespace Check

/-- Words of the frame that a variable takes. -/
def slotSize (types : TypeTable) (type : TypeId) : Access → Int
  | .direct => types.size type
  | .indirect => 1

/-- Declares one variable at the first free offset. -/
def declareVariable (type : TypeId) (access : Access) (name : Ident) : Check Unit := do
  let scopes := (← get).scopes
  let _ ← declare name (.var { type, access, level := scopes.level, offset := scopes.offset })
  let s ← get
  let (start?, scopes) := s.scopes.allocate? (slotSize s.types type access)
  set { s with scopes }
  match start? with
  | none => refuse name.span .storageOverflow
  | some _ => pure ()

def declareVariables (type : TypeId) (access : Access) (names : List Ident) : Check Unit :=
  names.forM (declareVariable type access)

end Check

def TypeDecl.check (d : TypeDecl) : Check Unit := do
  let type ← d.type.denote
  let _ ← declare d.name (.type type)

def VarDecl.check (d : VarDecl) : Check Unit := do
  let type ← d.type.denote
  declareVariables type .direct d.names

def ParamMode.access : ParamMode → Access
  | .value => .direct
  | .reference => .indirect

def ParamDecl.check (d : ParamDecl) : Check Unit := do
  let type ← d.type.denote
  declareVariables type d.mode.access d.names

/-- Checks the type and variable sections of a declaration part. All of them must stand before
its procedures, of which some `afterProcedure` has been seen. -/
def Decl.checkSections (afterProcedure : Bool) : List Decl → Check Unit
  | [] => pure ()
  | .procedure _ :: rest => Decl.checkSections true rest
  | .types decls span :: rest => do
    if afterProcedure then abort (.malformedTree "declaration section after a procedure" span)
    decls.forM TypeDecl.check
    Decl.checkSections false rest
  | .vars decls span :: rest => do
    if afterProcedure then abort (.malformedTree "declaration section after a procedure" span)
    decls.forM VarDecl.check
    Decl.checkSections false rest

end BlockLang
