import BlockLang.Code.Emitter
import BlockLang.Static.Annotations

/-!
# Generating code

Code is generated in one pass over the tree. Besides the emitter, a generator keeps the
entry addresses of the procedures generated so far and the temporaries in use. Temporaries
lie in the words below `mp`.

* `Gen` is the monad of the generator; it stops with a defect.
* `Gen.register`, `Gen.memory` and `Gen.relative` emit an instruction. Each takes a proof
  that the operation has the form in question, which is found by evaluation where the
  operation is known.
* `Checks` are what the generator does before and after every statement. The options
  choose them.
* `Lookups` are the questions that the generator puts to the analysis and the sums that it
  makes of the answers. The code for a tree is generated alike in every monad that has
  them, so the generator is written once, and a stricter one is another instance.
-/

namespace BlockLang

/-- Choices about generation. None of them changes the instructions. -/
structure Options where
  /-- Keep comments and notes. -/
  trace : Bool := true
  /-- Insist after every statement that no temporary is in use. -/
  checkTemporaries : Bool := true
  deriving DecidableEq, Repr

structure GenState where
  emitter : Emitter
  /-- Entry addresses; of two for one procedure, the first in the list counts. -/
  entries : List (SymbolId × Nat) := []
  /-- The offset from `mp` of the temporary made last; 0 if there is none. -/
  temporaries : Int := 0

abbrev Gen := StateT GenState (Except Defect)

namespace Gen

/-! ## Emitting -/

/-- Goes on with the emitter that an operation gives. -/
def emitting (write : Emitter → Option Emitter) (h : ∀ e, (write e).isSome) : Gen Unit :=
  modify fun s => { s with emitter := (write s.emitter).get (h s.emitter) }

/-- Emits a register instruction. -/
def register (op : Opcode) (dst src1 src2 : Register) (comment : String)
    (h : op.form = .register := by exact Eq.refl Form.register) : Gen Unit :=
  emitting (·.register? op dst src1 src2 comment) fun e => by
    rw [e.register?_of_form h]
    rfl

/-- Emits a memory instruction. -/
def memory (op : Opcode) (reg : Register) (offset : Word) (base : Register) (comment : String)
    (h : op.form = .memory := by exact Eq.refl Form.memory) : Gen Unit :=
  emitting (·.memory? op reg offset base comment) fun e => by
    rw [e.memory?_of_form h]
    rfl

/-- Emits a memory instruction whose address is the code address `target`. -/
def relative (op : Opcode) (reg : Register) (target : Nat) (comment : String)
    (h : op.form = .memory := by exact Eq.refl Form.memory) : Gen Unit :=
  emitting (·.relative? op reg target comment) fun e => by
    rw [e.relative?_of_form h]
    rfl

def note (text : String) : Gen Unit :=
  modify fun s => { s with emitter := s.emitter.note text }

/-- The address of the next instruction. -/
def here : Gen Nat := return (← get).emitter.cursor

def reserve (count : Nat) : Gen Nat :=
  modifyGet fun s =>
    let (start, emitter) := s.emitter.reserve count
    (start, { s with emitter })

def seek (address : Nat) : Gen Unit := do
  let s ← get
  let (result, emitter) := s.emitter.seek address
  set { s with emitter }
  result

def resume : Gen Unit := modify fun s => { s with emitter := s.emitter.resume }

/-! ## Temporaries -/

/-- Saves `ac` in a new temporary. -/
def push (comment : String) : Gen Unit := do
  modify fun s => { s with temporaries := s.temporaries - 1 }
  memory .st .ac (Int64.ofInt (← get).temporaries) .mp comment

/-- Loads the temporary made last, which is free from then on. -/
def pop (reg : Register) (comment : String) : Gen Unit := do
  memory .ld reg (Int64.ofInt (← get).temporaries) .mp comment
  modify fun s => { s with temporaries := s.temporaries + 1 }

/-- Insists that no temporary is in use. -/
def requireBalanced (span : Span) : Gen Unit := do
  let offset := (← get).temporaries
  if offset = 0 then pure () else throw (.unbalancedTemporaries offset span)

/-! ## The tree -/

/-- Stops with a defect. -/
def abort {α : Type} (defect : Defect) : Gen α := throw defect

/-- The symbol of a node. -/
def symbolOf (a : Analysis) (node : NodeId) : Gen SymbolId := a.annotations.symbol node

/-- The type of a node. -/
def typeOf (a : Analysis) (node : NodeId) : Gen TypeId := a.annotations.type node

end Gen

/-- What the generator does before and after a statement. -/
structure Checks where
  before : Span → Gen Unit
  after : Span → Gen Unit

/-- The checks that the options choose. -/
def Options.checks (o : Options) : Checks where
  before _ := pure ()
  after span := if o.checkTemporaries then Gen.requireBalanced span else pure ()

/-! ## The tables -/

namespace Analysis

/-- The variable that a symbol must be. -/
def variableOf (a : Analysis) (symbol : SymbolId) : Except Defect Variable :=
  match a.symbols.variableAt? symbol with
  | some v => .ok v
  | none => .error (.unexpectedSymbol (a.symbols.name symbol) "variable")

/-- The procedure that a symbol must be. -/
def procedureOf (a : Analysis) (symbol : SymbolId) : Except Defect Procedure :=
  match a.symbols.procedureAt? symbol with
  | some p => .ok p
  | none => .error (.unexpectedSymbol (a.symbols.name symbol) "procedure")

/-- The lower bound and the element size of an array that a reference indexes. -/
def arrayLayout (a : Analysis) (type : TypeId) (name : Ident) (span : Span) :
    Except Defect (Word × Int) :=
  match a.types.get? type with
  | some (.array element low ..) => .ok (low, a.types.size element)
  | _ => .error (.malformedTree s!"indexed '{name.name}' is not an array" span)

/-- The field that a reference selects. -/
def field (a : Analysis) (type : TypeId) (name field : Ident) (span : Span) :
    Except Defect Field :=
  match a.types.field? type field.name with
  | some f => .ok f
  | none => .error (.malformedTree s!"'{name.name}' has no field '{field.name}'" span)

end Analysis

/-- A generator consults the tables of an analysis and adds up offsets. The code for a tree is
generated alike in every monad in which it can do so. -/
class Lookups (m : Type → Type) where
  variableOf : Analysis → SymbolId → m Variable
  procedureOf : Analysis → SymbolId → m Procedure
  sizeOf : Analysis → TypeId → m Int
  arrayLayout : Analysis → TypeId → Ident → Span → m (Word × Int)
  field : Analysis → TypeId → Ident → Ident → Span → m Field
  /-- A sum of offsets, as the generator goes on with it. -/
  sum : Int → m Int

instance : Lookups Gen where
  variableOf a symbol := a.variableOf symbol
  procedureOf a symbol := a.procedureOf symbol
  sizeOf a type := return a.types.size type
  arrayLayout a type name span := a.arrayLayout type name span
  field a type name field span := a.field type name field span
  sum n := return n

end BlockLang
