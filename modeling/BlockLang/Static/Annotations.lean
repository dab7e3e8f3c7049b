import Std.Data.TreeMap
import BlockLang.Static.Scope
import BlockLang.Tree.Expr

/-!
# The results of analysis

The tree stays as it is. What the analysis finds out about a node is recorded under the
node's identity: the symbol that it denotes and the type that it has. If two nodes share
an identity, the later record counts.

An `Analysis` is all that the generator is given besides the tree: the two tables, the
annotations and the place of the main program's display. A look-up that finds nothing
there is a defect.
-/

namespace BlockLang

/-- What is known about a node. -/
structure NodeFacts where
  symbol : Option SymbolId := none
  type : Option TypeId := none
  deriving DecidableEq, Repr

structure Annotations where
  nodes : Std.TreeMap Nat NodeFacts := {}

namespace Annotations

def get (a : Annotations) (node : NodeId) : NodeFacts := a.nodes.getD node.index {}

def symbol? (a : Annotations) (node : NodeId) : Option SymbolId := (a.get node).symbol

def type? (a : Annotations) (node : NodeId) : Option TypeId := (a.get node).type

def recordSymbol (a : Annotations) (node : NodeId) (symbol : SymbolId) : Annotations :=
  ⟨a.nodes.insert node.index { a.get node with symbol := some symbol }⟩

def recordType (a : Annotations) (node : NodeId) (type : TypeId) : Annotations :=
  ⟨a.nodes.insert node.index { a.get node with type := some type }⟩

/-- The symbol of a node that must have one. -/
def symbol (a : Annotations) (node : NodeId) : Except Defect SymbolId :=
  match a.symbol? node with
  | some symbol => .ok symbol
  | none => .error (.unannotated node.index "symbol")

/-- The type of a node that must have one. -/
def type (a : Annotations) (node : NodeId) : Except Defect TypeId :=
  match a.type? node with
  | some type => .ok type
  | none => .error (.unannotated node.index "type")

/-- The annotated nodes in ascending order. -/
def toList (a : Annotations) : List (NodeId × NodeFacts) :=
  a.nodes.toList.map fun (node, facts) => (⟨node⟩, facts)

end Annotations

/-- Everything that is known about a program that was accepted. -/
structure Analysis where
  types : TypeTable
  symbols : SymbolTable
  annotations : Annotations
  /-- The offset of the main program's display, behind its variables. -/
  mainDisplayBase : Int
  /-- The scopes in the order in which they were closed; the main program's comes last. -/
  closedScopes : List ClosedScope

end BlockLang
