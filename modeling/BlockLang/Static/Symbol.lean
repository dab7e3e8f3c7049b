import BlockLang.Diagnostic
import BlockLang.Static.TypeTable

/-!
# Symbols

A symbol is a declared name with its meaning: a type, a variable or parameter, or a
procedure. Symbols are never removed from their table. Their identities are their places
there, so what an identity means stays what it was while the table grows.

What is known about a procedure comes in two steps. Its parameters are known once its
header is checked, and the shape of its frame once its variables are declared.
`SymbolTable.updateProcedure` adds both, and refuses a symbol that is no procedure.
-/

namespace BlockLang

/-- The identity of a symbol: its place in the table. -/
structure SymbolId where
  index : Nat
  deriving DecidableEq, Repr, Inhabited

/-- What a variable's frame slot holds. -/
inductive Access where
  /-- The value itself. -/
  | direct
  /-- The address of the value. -/
  | indirect
  deriving DecidableEq, Repr

/-- A variable or parameter: its type and its place in the frames of its level. -/
structure Variable where
  type : TypeId
  access : Access
  level : Nat
  offset : Int
  deriving DecidableEq, Repr

/-- A procedure: the level of its body, its parameters and the shape of its frame. -/
structure Procedure where
  level : Nat
  params : List SymbolId
  frameSize : Int
  /-- The offset of the display in the frame. -/
  displayBase : Int
  deriving DecidableEq, Repr

/-- What a name stands for. -/
inductive Meaning where
  | type (t : TypeId)
  | var (v : Variable)
  | proc (p : Procedure)
  deriving DecidableEq, Repr

structure Symbol where
  name : String
  meaning : Meaning
  span : Span
  deriving DecidableEq, Repr

namespace Symbol

def asType? (s : Symbol) : Option TypeId :=
  match s.meaning with
  | .type t => some t
  | _ => none

def asVariable? (s : Symbol) : Option Variable :=
  match s.meaning with
  | .var v => some v
  | _ => none

def asProcedure? (s : Symbol) : Option Procedure :=
  match s.meaning with
  | .proc p => some p
  | _ => none

end Symbol

structure SymbolTable where
  symbols : Array Symbol := #[]
  deriving DecidableEq, Repr

namespace SymbolTable

def get? (t : SymbolTable) (id : SymbolId) : Option Symbol := t.symbols[id.index]?

/-- The number of symbols. -/
def length (t : SymbolTable) : Nat := t.symbols.size

def isEmpty (t : SymbolTable) : Bool := t.symbols.isEmpty

/-- The table with one more symbol, and that symbol's identity. -/
def add (t : SymbolTable) (s : Symbol) : SymbolId × SymbolTable :=
  (⟨t.symbols.size⟩, ⟨t.symbols.push s⟩)

def typeAt? (t : SymbolTable) (id : SymbolId) : Option TypeId := (t.get? id).bind (·.asType?)

def variableAt? (t : SymbolTable) (id : SymbolId) : Option Variable :=
  (t.get? id).bind (·.asVariable?)

def procedureAt? (t : SymbolTable) (id : SymbolId) : Option Procedure :=
  (t.get? id).bind (·.asProcedure?)

/-- The name of a symbol; empty for an identity that is not in the table. -/
def name (t : SymbolTable) (id : SymbolId) : String := ((t.get? id).map (·.name)).getD ""

/-- The table with another meaning for a symbol, whose name and span stay. -/
def setMeaning (t : SymbolTable) (id : SymbolId) (meaning : Meaning) : SymbolTable :=
  ⟨t.symbols.modify id.index ({ · with meaning })⟩

/-- Changes what is known about a procedure. It is a defect if the symbol is none. -/
def updateProcedure (t : SymbolTable) (id : SymbolId) (f : Procedure → Procedure) :
    Except Defect SymbolTable :=
  match t.procedureAt? id with
  | some p => .ok (t.setMeaning id (.proc (f p)))
  | none => .error (.unexpectedSymbol (t.name id) "procedure")

/-- The symbols with their identities, in the order of declaration. -/
def toList (t : SymbolTable) : List (SymbolId × Symbol) :=
  t.symbols.toList.zipIdx.map fun (s, i) => (⟨i⟩, s)

end SymbolTable

end BlockLang
