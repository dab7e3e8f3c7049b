import BlockLang.Code.Gen
import BlockLang.Tree.Expr

/-!
# Code for references and expressions

Every expression leaves its value in `ac`. The address of a reference is built there too:
first the part that is relative to the variable (field offset and scaled index), since an
index may need `ac1` and temporaries, then the base. A variable of level `l` lies in the
frame whose base is word `l` of the display.

While the right operand of an operation is computed, the left one waits in a temporary.
All sums and products are those of words and wrap around, the lower bound of an array is
subtracted by adding its negation, and a comparison looks at the sign of a difference.
-/

namespace BlockLang

open Gen Lookups

/-- The constant part of an address within a frame or, for an indirect variable, within the
storage it points to. -/
def Variable.constantPart (v : Variable) (fieldOffset : Int) : Int :=
  match v.access with
  | .direct => v.offset + fieldOffset
  | .indirect => fieldOffset

namespace Gen

/-- Leaves a constant relative address in `ac`. -/
def relativeAddress (name : Ident) (constantPart : Int) : Gen Unit :=
  memory .ldc .ac (Int64.ofInt constantPart) .ac s!"relative address of {name.name}"

/-- Turns an index in `ac` into a relative address. -/
def scaleIndex (name : Ident) (low : Word) (size constantPart : Int) : Gen Unit := do
  memory .lda .ac (-low) .ac "index - low"
  if size ≠ 1 then do
    memory .ldc .ac1 (Int64.ofInt size) .ac "element size"
    register .mul .ac .ac .ac1 "scale index"
  memory .lda .ac (Int64.ofInt constantPart) .ac s!"relative address of {name.name}[]"

/-- Adds the base of a variable's storage to the relative address in `ac`. -/
def addBase (v : Variable) (name : Ident) : Gen Unit := do
  memory .ld .ac1 (Int64.ofNat v.level) .displayOff s!"frame base of level {v.level}"
  if v.access = .indirect then
    memory .ld .ac1 (Int64.ofInt v.offset) .ac1 s!"load pointer {name.name}"
  register .add .ac .ac .ac1 s!"absolute address of {name.name}"

/-- Applies an operation to `ac1` and `ac`. A comparison tests the sign of the difference,
which wraps around. -/
def operate : BinaryOp → Gen Unit
  | .add => register .add .ac .ac1 .ac "op +"
  | .sub => register .sub .ac .ac1 .ac "op -"
  | .mul => register .mul .ac .ac1 .ac "op *"
  | .div => register .div .ac .ac1 .ac "op /"
  | .less => compare .jlt "op <"
  | .equal => compare .jeq "op ="
where
  compare (jump : Opcode) (comment : String) (h : jump.form = .memory := by decide) :
      Gen Unit := do
    register .sub .ac .ac1 .ac comment
    memory jump .ac 2 .pc "br if true" h
    memory .ldc .ac 0 .ac "false case"
    memory .lda .pc 1 .pc "unconditional jmp"
    memory .ldc .ac 1 .ac "true case"

end Gen

section

variable {m : Type → Type} [Monad m] [MonadLiftT Gen m] [Lookups m]

mutual

/-- Leaves the value of an expression in `ac`. -/
def Expr.generate (a : Analysis) : Expr → m Unit
  | .const _ value _ => memory .ldc .ac value .ac "load const"
  | .ref r => do
    Reference.generateAddress a r
    memory .ld .ac 0 .ac s!"load {r.name.name}"
  | .binary _ op left right _ => do
    Expr.generate a left
    push "op: push left"
    Expr.generate a right
    pop .ac1 "op: load left"
    operate op

/-- Leaves the address of a reference in `ac`. -/
def Reference.generateAddress (a : Analysis) : Reference Expr → m Unit
  | ⟨node, name, selector, span⟩ => do
    let symbol ← symbolOf a node
    let v ← variableOf a symbol
    Selector.generateRelative a v name span selector
    addBase v name

/-- Leaves the relative address of the part that a selector selects in `ac`. -/
def Selector.generateRelative (a : Analysis) (v : Variable) (name : Ident) (span : Span) :
    Selector Expr → m Unit
  | .whole => do
    relativeAddress name (← sum (v.constantPart 0))
  | .element index => do
    let (low, size) ← arrayLayout a v.type name span
    Expr.generate a index
    scaleIndex name low size (← sum (v.constantPart 0))
  | .field selected => do
    let f ← field a v.type name selected span
    relativeAddress name (← sum (v.constantPart f.offset))
  | .fieldElement selected index => do
    let f ← field a v.type name selected span
    let (low, size) ← arrayLayout a f.type name span
    Expr.generate a index
    scaleIndex name low size (← sum (v.constantPart f.offset))

end

end

end BlockLang
