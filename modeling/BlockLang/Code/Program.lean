import BlockLang.Code.Stmt
import BlockLang.Tree.Program

/-!
# Code for programs

The prelude comes first, then the procedures, then the main program, to which the prelude
jumps. A procedure's code starts at its entry with the procedures nested in it, each
behind a jump that skips it, and goes on with its body.

`Program.generateCode` is the generator for a whole program, in any monad with look-ups.
`Program.generate` runs it on a blank emitter with the checks that the options choose and
hands over the finished object code.
-/

namespace BlockLang

open Gen Lookups

namespace Gen

/-- Records the entry address of a procedure; it may be called from here on. -/
def enterProcedure (symbol : SymbolId) : Gen Unit :=
  modify fun s => { s with entries := (symbol, s.emitter.cursor) :: s.entries }

/-- Sets up the frame of the main program at address 0. -/
def mainPrologue (a : Analysis) : Gen Unit := do
  note "main program"
  memory .ldc .ac 0 .ac "clear ac"
  memory .ldc .ac1 0 .ac "clear ac1"
  memory .ldc .ac2 0 .ac "clear ac2"
  memory .ldc .sp 0 .ac "main frame at 0"
  memory .lda .displayOff (Int64.ofInt a.mainDisplayBase) .sp "displayOff <- main display"
  memory .st .sp 0 .displayOff "display[0] <- sp"
  memory .lda .top 1 .displayOff "top <- end of main frame"

end Gen

section

variable {m : Type → Type} [Monad m] [MonadLiftT Gen m] [Lookups m]

mutual

/-- Code for a declared procedure; the other declarations have none. -/
def Decl.generate (a : Analysis) (checks : Checks) : Decl → m Unit
  | .types .. | .vars .. => pure ()
  | .procedure ⟨node, name, _, decls, body, _⟩ => do
    let symbol ← symbolOf a node
    let _ ← procedureOf a symbol
    enterProcedure symbol
    note s!"-> procedure {name.name}"
    Decl.generateNested a checks decls
    Stmt.generateAll a checks body
    memory .ld .pc Frame.returnAddress .sp s!"return from {name.name}"
    note s!"<- procedure {name.name}"

/-- Code for the procedures of a declaration part, each behind a jump that skips it. -/
def Decl.generateNested (a : Analysis) (checks : Checks) : List Decl → m Unit
  | [] => pure ()
  | d :: rest => do
    match d.asProcedure? with
    | none => pure ()
    | some p =>
      let skip ← reserve 1
      Decl.generate a checks d
      let after ← here
      seek skip
      relative .lda .pc after s!"skip procedure {p.name.name}"
      resume
    Decl.generateNested a checks rest

end

/-- Code for a program, with `checks` around every statement. -/
def Program.generateCode (p : Program) (a : Analysis) (checks : Checks) : m Unit := do
  note s!"TM code for program {p.name.name}"
  note "standard prelude"
  memory .ld .mp 0 .ac "load maxaddress from location 0"
  memory .st .ac 0 .ac "clear location 0"
  let toMain ← reserve 1
  p.decls.forM (Decl.generate a checks)
  let main ← here
  seek toMain
  relative .lda .pc main "jump to main"
  resume
  mainPrologue a
  Stmt.generateAll a checks p.body
  note "end of execution"
  register .halt .ac .ac .ac ""

end

/-- Object code for a program, with `checks` around every statement. -/
def Program.generateWith (p : Program) (a : Analysis) (trace : Bool) (checks : Checks) :
    Except Defect ObjectCode := do
  let (_, s) ← (p.generateCode a checks : Gen Unit).run { emitter := { trace } }
  s.emitter.finish

/-- Object code for a program. The analysis says what the names and identities in it mean. -/
def Program.generate (p : Program) (a : Analysis) (o : Options) : Except Defect ObjectCode :=
  p.generateWith a o.trace o.checks

end BlockLang
