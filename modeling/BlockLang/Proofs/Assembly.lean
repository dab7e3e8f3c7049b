import BlockLang.Code.Program

/-!
# Code from the code of the parts

A second way to make code for a program. It goes by structural recursion and puts the code
of a construct together from the code of its parts: there is no cursor and nothing is
patched, since the length of a part is known once the part is. Only two instructions of a
call need absolute addresses, so every piece of code is a function of the address where it
starts and of the addresses at which the procedures made so far start.

The parameter `t` of an expression's code is the offset from `mp` of the temporary made
last.

* The fixed sequences are lists: `Code.scaleIndex`, `Code.addBase`, `Code.operate` and
  `Code.copyWords` for values, `Code.saveRegisters`, `Code.buildDisplay` and
  `Code.restoreRegisters` for calls. The jumps `Code.skip`, `Code.skipIfZero` and
  `Code.back` take the number of instructions that they pass over.
* `Expr.code`, `Reference.code` and `Selector.code` follow the tree, and need no address.
* `Call.code` takes its start, since the return address is a number of the program, and
  the entries of the procedures that there are (`Call.entry`).
* `Stmt.code` hands the start of a statement on to its parts. A loop is its condition, a
  jump over the body, the body and a jump back; each jump is known from the lengths.
* `Decl.code` gives entries as well as code: those that it was given and its own. The code
  of a procedure begins with a jump over the procedures nested in it.
* `Program.code` is the opening, the procedures, the prologue, the body and `HALT`.

That the generator makes this code is `Program.instructions_generate`. Every property of
generated code is proved about these functions, by induction over the tree.
-/

namespace BlockLang

/-- A piece of code. -/
abbrev Code := List Instruction

/-- The addresses at which procedures start; of two for one procedure, the first in the list
counts. -/
abbrev Entries := List (SymbolId × Nat)

namespace Code

/-! ## Fixed sequences -/

/-- Turns an index in `ac` into a relative address. -/
def scaleIndex (low : Word) (size constantPart : Int) : Code :=
  .memory .lda .ac (-low) .ac :: (if size ≠ 1
    then [.memory .ldc .ac1 (Int64.ofInt size) .ac, .register .mul .ac .ac .ac1] else []) ++
    [.memory .lda .ac (Int64.ofInt constantPart) .ac]

/-- Adds the base of a variable's storage to the relative address in `ac`. -/
def addBase (v : Variable) : Code :=
  .memory .ld .ac1 (Int64.ofNat v.level) .displayOff ::
    (if v.access = .indirect then [.memory .ld .ac1 (Int64.ofInt v.offset) .ac1] else []) ++
    [.register .add .ac .ac .ac1]

/-- Replaces `ac1` and `ac` by 1 or 0, after their difference. -/
def compare (jump : Opcode) : Code :=
  [.register .sub .ac .ac1 .ac, .memory jump .ac 2 .pc, .memory .ldc .ac 0 .ac,
    .memory .lda .pc 1 .pc, .memory .ldc .ac 1 .ac]

/-- Applies an operation to `ac1` and `ac`. -/
def operate : BinaryOp → Code
  | .add => [.register .add .ac .ac1 .ac]
  | .sub => [.register .sub .ac .ac1 .ac]
  | .mul => [.register .mul .ac .ac1 .ac]
  | .div => [.register .div .ac .ac1 .ac]
  | .less => compare .jlt
  | .equal => compare .jeq

/-- Copies one word from the address in `ac`. -/
def copyWord (start : Int) (base : Register) (k : Nat) : Code :=
  [.memory .ld .ac1 (Int64.ofNat k) .ac, .memory .st .ac1 (Int64.ofInt (start + k)) base]

/-- Copies words from the address in `ac` to consecutive offsets from `base`. -/
def copyWords (count start : Int) (base : Register) : Code :=
  (List.range count.toNat).flatMap (copyWord start base)

/-- Saves the caller's registers and the level in the header of the new frame. -/
def saveRegisters (p : Procedure) : Code :=
  [.memory .st .sp Frame.savedSp .top, .memory .st .ac Frame.savedAc .top,
    .memory .st .ac1 Frame.savedAc1 .top,
    .memory .st .ac2 Frame.savedAc2 .top, .memory .st .displayOff Frame.savedDisplay .top,
    .memory .ldc .ac (Int64.ofNat p.level) .ac, .memory .st .ac Frame.levelSlot .top]

/-- Saves the address where the caller goes on. -/
def saveReturn (address : Nat) : Code :=
  [.memory .ldc .ac (Int64.ofNat address) .ac, .memory .st .ac Frame.returnAddress .top]

/-- Copies one word of the caller's display. -/
def copyDisplay (p : Procedure) (k : Nat) : Code :=
  [.memory .ld .ac (Int64.ofNat k) .displayOff,
    .memory .st .ac (Int64.ofInt (p.displayBase + k)) .top]

/-- Builds the display of the new frame. -/
def buildDisplay (p : Procedure) : Code :=
  (List.range p.level).flatMap (copyDisplay p) ++
    [.memory .st .top (Int64.ofInt (p.displayBase + p.level)) .top]

/-- Makes the new frame the running one. -/
def enterFrame (p : Procedure) : Code :=
  [.memory .lda .sp 0 .top, .memory .lda .top (Int64.ofInt p.frameSize) .sp,
    .memory .lda .displayOff (Int64.ofInt p.displayBase) .sp]

/-- Makes the caller's frame the running one again. -/
def restoreRegisters : Code :=
  [.memory .ld .ac Frame.savedAc .sp, .memory .ld .ac1 Frame.savedAc1 .sp,
    .memory .ld .ac2 Frame.savedAc2 .sp, .memory .ld .displayOff Frame.savedDisplay .sp,
    .memory .lda .top 0 .sp, .memory .ld .sp Frame.savedSp .sp]

/-- Leaves the running procedure. -/
def leave : Code := [.memory .ld .pc Frame.returnAddress .sp]

/-- Jumps over the next `n` instructions. -/
def skip (n : Nat) : Instruction := .memory .lda .pc (Int64.ofNat n) .pc

/-- Jumps over the next `n` instructions if `ac` is zero. -/
def skipIfZero (n : Nat) : Instruction := .memory .jeq .ac (Int64.ofNat n) .pc

/-- Jumps back to the first of the last `n` instructions, this one included. -/
def back (n : Nat) : Instruction := .memory .lda .pc (-Int64.ofNat n) .pc

/-- Loads the highest data address and clears the word that held it. -/
def opening : Code := [.memory .ld .mp 0 .ac, .memory .st .ac 0 .ac]

/-- Sets up the frame of the main program at address 0. -/
def mainPrologue (a : Analysis) : Code :=
  [.memory .ldc .ac 0 .ac, .memory .ldc .ac1 0 .ac, .memory .ldc .ac2 0 .ac,
    .memory .ldc .sp 0 .ac, .memory .lda .displayOff (Int64.ofInt a.mainDisplayBase) .sp,
    .memory .st .sp 0 .displayOff, .memory .lda .top 1 .displayOff]

def halt : Instruction := .register .halt .ac .ac .ac

end Code

/-! ## References and expressions -/

mutual

/-- Code that leaves the value of an expression in `ac`. -/
def Expr.code (a : Analysis) (t : Int) : Expr → Except Defect Code
  | .const _ value _ => return [.memory .ldc .ac value .ac]
  | .ref r => do
    let address ← Reference.code a t r
    return address ++ [.memory .ld .ac 0 .ac]
  | .binary _ op left right _ => do
    let l ← Expr.code a t left
    let r ← Expr.code a (t - 1) right
    return l ++ .memory .st .ac (Int64.ofInt (t - 1)) .mp :: r ++
      .memory .ld .ac1 (Int64.ofInt (t - 1)) .mp :: Code.operate op

/-- Code that leaves the address of a reference in `ac`. -/
def Reference.code (a : Analysis) (t : Int) : Reference Expr → Except Defect Code
  | ⟨node, name, selector, span⟩ => do
    let symbol ← a.annotations.symbol node
    let v ← a.variableOf symbol
    let relative ← Selector.code a t v name span selector
    return relative ++ Code.addBase v

/-- Code that leaves the relative address of the part that a selector selects in `ac`. -/
def Selector.code (a : Analysis) (t : Int) (v : Variable) (name : Ident) (span : Span) :
    Selector Expr → Except Defect Code
  | .whole => return [.memory .ldc .ac (Int64.ofInt (v.constantPart 0)) .ac]
  | .element index => do
    let (low, size) ← a.arrayLayout v.type name span
    let i ← Expr.code a t index
    return i ++ Code.scaleIndex low size (v.constantPart 0)
  | .field field => do
    let f ← a.field v.type name field span
    return [.memory .ldc .ac (Int64.ofInt (v.constantPart f.offset)) .ac]
  | .fieldElement field index => do
    let f ← a.field v.type name field span
    let (low, size) ← a.arrayLayout f.type name span
    let i ← Expr.code a t index
    return i ++ Code.scaleIndex low size (v.constantPart f.offset)

end

/-! ## Calls -/

/-- Code that stores an argument in its parameter's slot of the new frame. -/
def Expr.argumentCode (a : Analysis) (arg : Expr) (param : SymbolId) :
    Except Defect Code := do
  let v ← a.variableOf param
  match v.access with
  | .indirect =>
    match arg.asRef? with
    | none => throw (.malformedTree "reference argument is not a variable" arg.span)
    | some r => return (← r.code a 0) ++ [.memory .st .ac (Int64.ofInt v.offset) .top]
  | .direct =>
    if a.types.size v.type = 1
      then return (← arg.code a 0) ++ [.memory .st .ac (Int64.ofInt v.offset) .top]
    else
      match arg.asRef? with
      | none => throw (.malformedTree "aggregate argument is not a variable" arg.span)
      | some r => return (← r.code a 0) ++ Code.copyWords (a.types.size v.type) v.offset .top

/-- Code that stores the arguments that have a parameter. -/
def Expr.argumentsCode (a : Analysis) : List Expr → List SymbolId → Except Defect Code
  | arg :: args, param :: params => do
    let first ← arg.argumentCode a param
    let rest ← Expr.argumentsCode a args params
    return first ++ rest
  | _, _ => return []

/-- The address at which the procedure that `call` calls starts. -/
def Call.entry (call : Call) (entries : Entries) (symbol : SymbolId) : Except Defect Nat :=
  match entries.lookup symbol with
  | some entry => .ok entry
  | none => .error (.unannotated call.node.index "entry address")

/-- Code from the end of the arguments to the jump into a procedure at `entry`, when it starts
at address `start`. -/
def Code.transfer (p : Procedure) (entry start : Nat) : Code :=
  let frame := Code.buildDisplay p ++ Code.enterFrame p
  let resume := start + (Code.saveRegisters p).length + 2 + frame.length + 1
  Code.saveRegisters p ++ Code.saveReturn resume ++ frame ++
    [.memory .lda .pc (Int64.ofNat entry - Int64.ofNat resume) .pc]

/-- Code for a call, when it starts at address `start`. -/
def Call.code (a : Analysis) (entries : Entries) (start : Nat) (call : Call) :
    Except Defect Code := do
  let symbol ← a.annotations.symbol call.node
  let p ← a.procedureOf symbol
  let entry ← call.entry entries symbol
  let args ← Expr.argumentsCode a call.args p.params
  return args ++ Code.transfer p entry (start + args.length) ++ Code.restoreRegisters

/-! ## Statements -/

/-- Code for `target := value`; arrays and records are copied word by word. -/
def Reference.assignCode (a : Analysis) (target : VarRef) (value : Expr) (span : Span) :
    Except Defect Code := do
  let type ← a.annotations.type target.node
  let address ← target.code a 0
  let store := address ++ [.memory .lda .ac2 0 .ac]
  if a.types.size type = 1 then return store ++ (← value.code a 0) ++ [.memory .st .ac 0 .ac2]
  else
    match value.asRef? with
    | none => throw (.malformedTree "aggregate assignment from a non-variable" span)
    | some source =>
      return store ++ (← source.code a 0) ++ Code.copyWords (a.types.size type) 0 .ac2

mutual

/-- Code for a statement, when it starts at address `start`. -/
def Stmt.code (a : Analysis) (entries : Entries) (start : Nat) : Stmt → Except Defect Code
  | .assign target value span => target.assignCode a value span
  | .ifElse condition thenBranch elseBranch _ => do
    let c ← condition.code a 0
    let t ← Stmt.codeAll a entries (start + c.length + 1) thenBranch
    let e ← Stmt.codeAll a entries (start + c.length + 1 + t.length + 1) elseBranch
    return c ++ Code.skipIfZero (t.length + 1) :: t ++ Code.skip e.length :: e
  | .whileDo condition body _ => do
    let c ← condition.code a 0
    let b ← Stmt.codeAll a entries (start + c.length + 1) body
    return c ++ Code.skipIfZero (b.length + 1) :: b ++ [Code.back (c.length + b.length + 2)]
  | .read target _ => do
    let address ← target.code a 0
    return address ++
      [.memory .lda .ac2 0 .ac, .register .inp .ac .ac .ac, .memory .st .ac 0 .ac2]
  | .write value _ => do
    let v ← value.code a 0
    return v ++ [.register .out .ac .ac .ac]
  | .call c => c.code a entries start
  | .ret _ => return Code.leave

/-- Code for statements in order. -/
def Stmt.codeAll (a : Analysis) (entries : Entries) (start : Nat) :
    List Stmt → Except Defect Code
  | [] => return []
  | s :: rest => do
    let first ← Stmt.code a entries start s
    let others ← Stmt.codeAll a entries (start + first.length) rest
    return first ++ others

end

/-! ## Procedures and programs -/

mutual

/-- Code for a declared procedure and the addresses of the procedures made by then; the other
declarations have no code. The procedure itself starts at `start`. -/
def Decl.code (a : Analysis) (entries : Entries) (start : Nat) :
    Decl → Except Defect (Code × Entries)
  | .types .. | .vars .. => return ([], entries)
  | .procedure ⟨node, _, _, decls, body, _⟩ => do
    let symbol ← a.annotations.symbol node
    let _ ← a.procedureOf symbol
    let (nested, entries) ← Decl.nestedCode a ((symbol, start) :: entries) start decls
    let b ← Stmt.codeAll a entries (start + nested.length) body
    return (nested ++ b ++ Code.leave, entries)

/-- Code for the procedures of a declaration part, each behind a jump that skips it. -/
def Decl.nestedCode (a : Analysis) (entries : Entries) (start : Nat) :
    List Decl → Except Defect (Code × Entries)
  | [] => return ([], entries)
  | .procedure p :: rest => do
    let (c, entries) ← Decl.code a entries (start + 1) (.procedure p)
    let (others, entries) ← Decl.nestedCode a entries (start + 1 + c.length) rest
    return (Code.skip c.length :: c ++ others, entries)
  | _ :: rest => Decl.nestedCode a entries start rest

end

/-- Code for the procedures of the main program, side by side. -/
def Decl.codeAll (a : Analysis) (entries : Entries) (start : Nat) :
    List Decl → Except Defect (Code × Entries)
  | [] => return ([], entries)
  | d :: rest => do
    let (c, entries) ← d.code a entries start
    let (others, entries) ← Decl.codeAll a entries (start + c.length) rest
    return (c ++ others, entries)

/-- Code for a program. -/
def Program.code (p : Program) (a : Analysis) : Except Defect Code := do
  let (procedures, entries) ← Decl.codeAll a [] (Code.opening.length + 1) p.decls
  let start := Code.opening.length + 1 + procedures.length + (Code.mainPrologue a).length
  let body ← Stmt.codeAll a entries start p.body
  return Code.opening ++ Code.skip procedures.length :: procedures ++ Code.mainPrologue a ++
    body ++ [Code.halt]

end BlockLang
