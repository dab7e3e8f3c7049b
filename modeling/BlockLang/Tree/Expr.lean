import BlockLang.Span
import BlockLang.Word

/-!
# Expressions

An expression is a constant, a reference to storage or an operation on two expressions. A
reference names a variable and may select a part of it: an element of an array, a field of
a record, or an element of an array field. Selectors do not nest further.

References and expressions contain each other. `Reference` and `Selector` take the type of
index expressions as a parameter, so that the recursion goes through `Expr` alone.
`Expr.induct` is induction over it with one case for each kind of selector, which is the
form that proofs about expressions use.
-/

namespace BlockLang

/-- The identity of a tree node, under which the analysis records what it finds out about the
node. -/
structure NodeId where
  index : Nat
  deriving DecidableEq, Repr, Inhabited

def NodeId.text (n : NodeId) : String := "#" ++ toString n.index

/-- A name as it is written in a program. -/
structure Ident where
  name : String
  span : Span
  deriving DecidableEq, Repr, Inhabited

inductive BinaryOp where
  | add
  | sub
  | mul
  | div
  | less
  | equal
  deriving DecidableEq, Repr, Inhabited

namespace BinaryOp

def symbol : BinaryOp → String
  | .add => "+"
  | .sub => "-"
  | .mul => "*"
  | .div => "/"
  | .less => "<"
  | .equal => "="

def isComparison : BinaryOp → Bool
  | .less | .equal => true
  | .add | .sub | .mul | .div => false

end BinaryOp

/-- The part of a variable that a reference selects; `ι` is the type of index expressions. -/
inductive Selector (ι : Type) where
  /-- `x` -/
  | whole
  /-- `x[index]` -/
  | element (index : ι)
  /-- `x.field` -/
  | field (field : Ident)
  /-- `x.field[index]` -/
  | fieldElement (field : Ident) (index : ι)
  deriving Repr

/-- A reference to storage. -/
structure Reference (ι : Type) where
  node : NodeId
  name : Ident
  selector : Selector ι
  span : Span
  deriving Repr

inductive Expr where
  | const (node : NodeId) (value : Word) (span : Span)
  | ref (r : Reference Expr)
  | binary (node : NodeId) (op : BinaryOp) (left right : Expr) (span : Span)

/-- A reference whose indices are expressions. -/
abbrev VarRef := Reference Expr

namespace Expr

def node : Expr → NodeId
  | .const node .. => node
  | .ref r => r.node
  | .binary node .. => node

def span : Expr → Span
  | .const _ _ span => span
  | .ref r => r.span
  | .binary _ _ _ _ span => span

/-- The reference that an expression consists of. -/
def asRef? : Expr → Option VarRef
  | .ref r => some r
  | .const .. | .binary .. => none

/-- How a diagnostic names an expression that stands where a variable should. -/
def description : Expr → String
  | .const _ value _ => value.text
  | .ref r => r.name.name
  | .binary _ op _ _ _ => s!"expression with '{op.symbol}'"

/-- Induction over expressions, with one case for each form of reference. -/
@[elab_as_elim, induction_eliminator]
theorem induct {motive : Expr → Prop}
    (const : ∀ node value span, motive (.const node value span))
    (whole : ∀ node name span, motive (.ref ⟨node, name, .whole, span⟩))
    (element : ∀ node name index span, motive index →
      motive (.ref ⟨node, name, .element index, span⟩))
    (field : ∀ node name field span, motive (.ref ⟨node, name, .field field, span⟩))
    (fieldElement : ∀ node name field index span, motive index →
      motive (.ref ⟨node, name, .fieldElement field index, span⟩))
    (binary : ∀ node op left right span, motive left → motive right →
      motive (.binary node op left right span)) :
    ∀ e, motive e
  | .const node value span => const node value span
  | .ref ⟨node, name, .whole, span⟩ => whole node name span
  | .ref ⟨node, name, .element index, span⟩ =>
    element node name index span (induct const whole element field fieldElement binary index)
  | .ref ⟨node, name, .field f, span⟩ => field node name f span
  | .ref ⟨node, name, .fieldElement f index, span⟩ =>
    fieldElement node name f index span
      (induct const whole element field fieldElement binary index)
  | .binary node op left right span =>
    binary node op left right span (induct const whole element field fieldElement binary left)
      (induct const whole element field fieldElement binary right)

end Expr

end BlockLang
