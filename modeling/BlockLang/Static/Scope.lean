import Std.Data.TreeMap
import BlockLang.Diagnostic
import BlockLang.Static.Frame
import BlockLang.Static.Symbol

/-!
# Scopes

Scopes are nested: the main program's scope is always open, and every procedure opens one
inside. The number of scopes around the innermost one is the lexical level. A name is
declared at most once in a scope and may hide declarations further out. Every scope also
counts the words that its variables take in their frame.

A scope keeps its declarations twice: in a map, which look-ups use, and in a list, from
which the frame is laid out. `Scopes.declare`, `Scopes.allocate?` and `Scopes.leave?` give
the scopes on both of their paths, so that a caller who is refused goes on with what is
left.
-/

namespace BlockLang

structure Scope where
  /-- The names declared here. -/
  names : Std.TreeMap String SymbolId := {}
  /-- The declared symbols, in order. -/
  entries : Array SymbolId := #[]
  /-- The first free offset of the frame. -/
  offset : Int

/-- The scopes that are open: the innermost one and those around it, from the inside out. -/
structure Scopes where
  inner : Scope := { offset := 0 }
  outer : List Scope := []

/-- What is left of a scope that was closed. -/
structure ClosedScope where
  level : Nat
  entries : List SymbolId
  deriving DecidableEq, Repr

namespace Scopes

def level (s : Scopes) : Nat := s.outer.length

/-- The first free offset of the innermost frame. -/
def offset (s : Scopes) : Int := s.inner.offset

/-- The symbols of the innermost scope, in the order of declaration. -/
def entries (s : Scopes) : List SymbolId := s.inner.entries.toList

/-- Opens a scope whose variables follow a frame header. -/
def enter (s : Scopes) : Scopes where
  inner := { offset := Frame.headerSize }
  outer := s.inner :: s.outer

/-- Closes the innermost scope and gives its symbols. The main program's scope is never
closed. -/
def leave? (s : Scopes) : Option (List SymbolId) × Scopes :=
  match s.outer with
  | [] => (none, s)
  | scope :: outer => (some s.entries, ⟨scope, outer⟩)

/-- Declares a name in the innermost scope and adds its symbol to the table. Only a second
declaration in the same scope is refused. -/
def declare (s : Scopes) (symbols : SymbolTable) (symbol : Symbol) :
    Except Diagnostic SymbolId × Scopes × SymbolTable :=
  if s.inner.names.contains symbol.name then
    (.error ⟨symbol.span, .duplicateIdentifier symbol.name⟩, s, symbols)
  else
    let (id, symbols) := symbols.add symbol
    let inner := { s.inner with
      names := s.inner.names.insert symbol.name id
      entries := s.inner.entries.push id }
    (.ok id, { s with inner }, symbols)

/-- The innermost declaration of a name. -/
def lookup? (s : Scopes) (name : String) : Option SymbolId :=
  (s.inner :: s.outer).findSome? (·.names[name]?)

/-- The innermost declaration of a name that stands at `span`. -/
def resolve (s : Scopes) (name : String) (span : Span) : Except Diagnostic SymbolId :=
  match s.lookup? name with
  | some id => .ok id
  | none => .error ⟨span, .undefinedIdentifier name⟩

/-- Takes words of the innermost frame and gives the offset of the first, unless the frame's
end is no word. -/
def allocate? (s : Scopes) (words : Int) : Option Int × Scopes :=
  match Word.checked (s.inner.offset + words) with
  | none => (none, s)
  | some offset => (some s.inner.offset, { s with inner := { s.inner with offset } })

end Scopes

end BlockLang
