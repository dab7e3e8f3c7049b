import BlockLang.Code.Expr
import BlockLang.Tree.Program

/-!
# Code for calls

The caller builds the frame of the called procedure at `top`: the arguments, the registers
to be restored, the level, the return address and the display. The display is the caller's
up to the level around the procedure, then the new frame. Then `sp`, `top` and
`displayOff` move to the new frame and control to the procedure, which returns by loading
`pc` from its frame.

An argument for a parameter that holds a value is a word or a copy of words; one for an
indirect parameter is the address of a variable. Arguments are computed while the caller's
frame is still the running one.
-/

namespace BlockLang

open Gen Lookups

section

variable {m : Type → Type} [Monad m] [MonadLiftT Gen m] [Lookups m]

namespace Gen

/-- Copies words from the address in `ac` to consecutive offsets from `base`. -/
def copyWords (count : Int) (start : Int) (base : Register) (comment : String) : m Unit :=
  (List.range count.toNat).forM fun k => do
    memory .ld .ac1 (Int64.ofNat k) .ac comment
    let offset ← sum (start + k)
    memory .st .ac1 (Int64.ofInt offset) base ""

/-- Stores an argument in its parameter's slot of the new frame. -/
def passArgument (a : Analysis) (arg : Expr) (param : SymbolId) : m Unit := do
  let v ← variableOf a param
  match v.access with
  | .indirect =>
    match arg.asRef? with
    | none => abort (.malformedTree "reference argument is not a variable" arg.span)
    | some r =>
      r.generateAddress a
      memory .st .ac (Int64.ofInt v.offset) .top "pass address"
  | .direct =>
    let size ← sizeOf a v.type
    if size = 1 then
      arg.generate a
      memory .st .ac (Int64.ofInt v.offset) .top "pass value"
    else
      match arg.asRef? with
      | none => abort (.malformedTree "aggregate argument is not a variable" arg.span)
      | some r =>
        r.generateAddress a
        copyWords size v.offset .top "copy argument word"

/-- Stores the arguments that have a parameter. -/
def passArguments (a : Analysis) : List Expr → List SymbolId → m Unit
  | arg :: args, param :: params => do
    passArgument a arg param
    passArguments a args params
  | _, _ => pure ()

/-- Builds the display of the new frame. -/
def buildDisplay (p : Procedure) : m Unit := do
  (List.range p.level).forM fun k => do
    memory .ld .ac (Int64.ofNat k) .displayOff "caller display entry"
    let offset ← sum (p.displayBase + k)
    memory .st .ac (Int64.ofInt offset) .top "copy to callee display"
  let offset ← sum (p.displayBase + p.level)
  memory .st .top (Int64.ofInt offset) .top "callee display entry"

/-- Saves the caller's registers and the level in the header of the new frame. -/
def saveRegisters (p : Procedure) : Gen Unit := do
  memory .st .sp Frame.savedSp .top "save sp"
  memory .st .ac Frame.savedAc .top "save ac"
  memory .st .ac1 Frame.savedAc1 .top "save ac1"
  memory .st .ac2 Frame.savedAc2 .top "save ac2"
  memory .st .displayOff Frame.savedDisplay .top "save displayOff"
  memory .ldc .ac (Int64.ofNat p.level) .ac "callee level"
  memory .st .ac Frame.levelSlot .top "store level"

/-- Makes the new frame the running one. -/
def enterFrame (p : Procedure) : Gen Unit := do
  memory .lda .sp 0 .top "sp <- new frame"
  memory .lda .top (Int64.ofInt p.frameSize) .sp "top <- end of frame"
  memory .lda .displayOff (Int64.ofInt p.displayBase) .sp "displayOff <- callee display"

/-- Makes the caller's frame the running one again. -/
def restoreRegisters : Gen Unit := do
  memory .ld .ac Frame.savedAc .sp "restore ac"
  memory .ld .ac1 Frame.savedAc1 .sp "restore ac1"
  memory .ld .ac2 Frame.savedAc2 .sp "restore ac2"
  memory .ld .displayOff Frame.savedDisplay .sp "restore displayOff"
  memory .lda .top 0 .sp "top <- frame base"
  memory .ld .sp Frame.savedSp .sp "restore sp"

/-- The entry address of a procedure that `call` calls. -/
def entryOf (call : Call) (symbol : SymbolId) : Gen Nat := do
  match (← get).entries.lookup symbol with
  | some entry => return entry
  | none => throw (.unannotated call.node.index "entry address")

end Gen

/-- Builds the frame of the called procedure and goes there. -/
def Call.generate (a : Analysis) (call : Call) : m Unit := do
  let symbol ← symbolOf a call.node
  let p ← procedureOf a symbol
  let entry ← entryOf call symbol
  note s!"-> call {call.callee.name}"
  passArguments a call.args p.params
  saveRegisters p
  let slot ← reserve 2
  buildDisplay p
  enterFrame p
  relative .lda .pc entry s!"jump to {call.callee.name}"
  let returnAddress ← here
  seek slot
  memory .ldc .ac (Int64.ofNat returnAddress) .ac "return address"
  memory .st .ac Frame.returnAddress .top "save return address"
  resume
  restoreRegisters
  note s!"<- call {call.callee.name}"

end

end BlockLang
