import BlockLang.Code.Program
import BlockLang.Machine.State
import BlockLang.Static.Analysis

/-!
# From program to output

A program is analysed, code is generated for it, and the machine runs the code. Each stage
can stop the others: an analysis with a diagnostic, the generator with a defect, the
machine with a fault. `Program.run` gives everything that the program writes, and only if
it comes to its end.
-/

namespace BlockLang.Program

/-- Analyses a program and generates its code. -/
def compile (p : Program) (o : Options) : Except CompileError ObjectCode :=
  match p.analyze with
  | .error e => .error e
  | .ok a => (p.generate a o).mapError .defect

/-- Compiles and runs a program and gives everything it writes. -/
def run (p : Program) (input : List Word) (o : Options) (limits : Limits) :
    Except RunError (List Word) :=
  match p.compile o with
  | .error e => .error (.compile e)
  | .ok code => (Machine.load code limits input).run.mapError .fault

end BlockLang.Program
