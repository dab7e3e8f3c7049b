import BlockLang.Tree.Program

/-!
# A direct interpreter

The meaning of a program, by recursion over the tree. There are no types and no symbols
here: a name is bound to a layout, to storage or to a procedure, and the bindings that a
procedure sees are those around its own declaration. A call makes a new block of storage
for each value parameter and each local variable. A `var` parameter is another name for
the storage of its argument.

Some runs have no meaning: those that read a word to which nothing was written, use an
index outside the bounds, or ask for the first word of a variable that has none.

* Storage is a list of blocks of words, and a `Place` is a part of a block with its
  layout. `Place.element` and `Place.field` select, `Storage.value` reads and
  `Storage.write` writes.
* An environment is a list of bindings, the latest first. What `Env.find?` finds for a
  procedure comes with the environment around its declaration.
* `Expr.eval` and `Reference.place` give values and places, or the reason why there are
  none (`Stop`).
* `ProcDecl.activate` makes the storage and the environment in which the body of a
  procedure runs.
* `Stmt.runFor` runs statements with fuel for nested calls and repeated loops, and
  `Program.interpret` a whole program. Beside its output a run tells how it ended
  (`Ending`) and what it demanded of memory: for every statement that it came to, how much
  storage there was and how deep its expressions are nested (`Demand`). So the same run
  says what the machine puts out and how much memory it takes to do so.
-/

namespace BlockLang

/-- Why an interpretation stops before its end. -/
inductive Stop where
  | divisionByZero
  | inputExhausted
  /-- A word was read that nothing was written to. -/
  | unwritten
  | outOfBounds
  /-- The first word was asked for of a variable that has none. -/
  | noWord
  /-- The program breaks a static rule. -/
  | illFormed
  deriving DecidableEq, Repr

/-! ## Layouts and storage -/

/-- What the words of a variable are. -/
inductive Layout where
  | word
  | array (low high : Word) (element : Layout)
  | record (fields : List (String × Layout))

namespace Layout

mutual

def size : Layout → Nat
  | .word => 1
  | .array low high element => (high.toInt - low.toInt + 1).toNat * size element
  | .record fields => sizeAll fields

def sizeAll : List (String × Layout) → Nat
  | [] => 0
  | (_, l) :: rest => size l + sizeAll rest

end

/-- The first field of a name, with the number of words before it. -/
def field? (name : String) : List (String × Layout) → Option (Nat × Layout)
  | [] => none
  | (n, l) :: rest =>
    if n == name then some (0, l) else (field? name rest).map fun (k, l') => (l.size + k, l')

end Layout

/-- Storage is made of blocks. A word of a block is `none` until something is written to
it. -/
abbrev Storage := List (List (Option Word))

/-- A variable or a part of one: words of a block, from an offset on. -/
structure Place where
  layout : Layout
  block : Nat
  offset : Nat

namespace Place

def element (p : Place) (i : Word) : Except Stop Place :=
  match p.layout with
  | .array low high element =>
    if low ≤ i ∧ i ≤ high
      then .ok ⟨element, p.block, p.offset + (i.toInt - low.toInt).toNat * element.size⟩
    else .error .outOfBounds
  | _ => .error .illFormed

def field (p : Place) (name : String) : Except Stop Place :=
  match p.layout with
  | .record fields =>
    match Layout.field? name fields with
    | some (k, l) => .ok ⟨l, p.block, p.offset + k⟩
    | none => .error .illFormed
  | _ => .error .illFormed

/-- Insists on a first word. -/
def nonempty (p : Place) : Except Stop Place :=
  if p.layout.size = 0 then .error .noWord else .ok p

end Place

namespace Storage

def words (σ : Storage) (p : Place) : List (Option Word) :=
  ((σ.getD p.block []).drop p.offset).take p.layout.size

/-- The value that stands in a place. -/
def value (σ : Storage) (p : Place) : Except Stop (List Word) :=
  match (σ.words p).mapM id with
  | some words => .ok words
  | none => .error .unwritten

/-- The first word of the value that stands in a place. -/
def first (σ : Storage) (p : Place) : Except Stop Word :=
  match σ.words p with
  | some w :: _ => .ok w
  | none :: _ => .error .unwritten
  | [] => .error .noWord

def write (σ : Storage) (p : Place) (words : List Word) : Storage :=
  σ.modify p.block fun b => b.take p.offset ++ words.map some ++
    b.drop (p.offset + words.length)

end Storage

/-! ## Names -/

inductive Binding where
  | type (l : Layout)
  | var (p : Place)
  | proc (p : ProcDecl Decl)

/-- The bindings in force, the latest first. -/
abbrev Env := List (String × Binding)

/-- The binding of a name and the bindings in force right after it was made. -/
def Env.find? (name : String) : Env → Option (Binding × Env)
  | [] => none
  | (n, b) :: rest => if n == name then some (b, (n, b) :: rest) else find? name rest

mutual

def TypeExpr.layout (env : Env) : TypeExpr → Except Stop Layout
  | .integer _ | .char _ => .ok .word
  | .named name =>
    match env.find? name.name with
    | some (.type l, _) => .ok l
    | _ => .error .illFormed
  | .array low high element _ => return .array low high (← TypeExpr.layout env element)
  | .record groups _ => return .record (← TypeExpr.layoutFields env groups)

def TypeExpr.layoutFields (env : Env) : List (FieldGroup TypeExpr) →
    Except Stop (List (String × Layout))
  | [] => return []
  | ⟨names, type, _⟩ :: rest => do
    let l ← TypeExpr.layout env type
    let fields ← TypeExpr.layoutFields env rest
    return names.map (fun name => (name.name, l)) ++ fields

end

/-! ## Expressions -/

/-- Operations on words. A difference that wraps around decides `<` as well. -/
def BinaryOp.apply : BinaryOp → Word → Word → Except Stop Word
  | .add, x, y => .ok (x + y)
  | .sub, x, y => .ok (x - y)
  | .mul, x, y => .ok (x * y)
  | .div, x, y => if y = 0 then .error .divisionByZero else .ok (x / y)
  | .less, x, y => .ok (if x - y < 0 then 1 else 0)
  | .equal, x, y => .ok (if x = y then 1 else 0)

mutual

/-- The value of an expression, of which a variable gives its first word. -/
def Expr.eval (env : Env) (σ : Storage) : Expr → Except Stop Word
  | .const _ value _ => .ok value
  | .ref r => do σ.first (← Reference.place env σ r)
  | .binary _ op left right _ => do
    let x ← Expr.eval env σ left
    let y ← Expr.eval env σ right
    op.apply x y

/-- The storage that a reference denotes. -/
def Reference.place (env : Env) (σ : Storage) : Reference Expr → Except Stop Place
  | ⟨_, name, selector, _⟩ =>
    match env.find? name.name with
    | some (.var p, _) => Selector.part env σ p selector
    | _ => .error .illFormed

def Selector.part (env : Env) (σ : Storage) (p : Place) : Selector Expr → Except Stop Place
  | .whole => .ok p
  | .element index => do p.element (← Expr.eval env σ index)
  | .field field => p.field field.name
  | .fieldElement field index => do
    let f ← p.field field.name
    f.element (← Expr.eval env σ index)

end

/-- The layout and the words of an expression's whole value. -/
def Expr.value (env : Env) (σ : Storage) : Expr → Except Stop (Layout × List Word)
  | .ref r => do
    let p ← r.place env σ
    return (p.layout, ← σ.value p)
  | e => return (.word, [← e.eval env σ])

/-! ## Temporaries

A left operand waits while the right one is computed. Where it waits is no matter of the
interpretation, but how many of them wait at once is noted. -/

mutual

/-- The temporaries that are in use at once while an expression is computed. -/
def Expr.depth : Expr → Nat
  | .const .. => 0
  | .ref r => Reference.depth r
  | .binary _ _ left right _ => max (Expr.depth left) (Expr.depth right + 1)

def Reference.depth : Reference Expr → Nat
  | ⟨_, _, selector, _⟩ => Selector.depth selector

def Selector.depth : Selector Expr → Nat
  | .whole | .field _ => 0
  | .element index => Expr.depth index
  | .fieldElement _ index => Expr.depth index

end

def Expr.depthAll : List Expr → Nat
  | [] => 0
  | e :: rest => max e.depth (Expr.depthAll rest)

mutual

def Stmt.depth : Stmt → Nat
  | .assign target value _ => max (Reference.depth target) value.depth
  | .ifElse condition thenBranch elseBranch _ =>
    max condition.depth (max (Stmt.depthAll thenBranch) (Stmt.depthAll elseBranch))
  | .whileDo condition body _ => max condition.depth (Stmt.depthAll body)
  | .read target _ => Reference.depth target
  | .write value _ => value.depth
  | .call c => Expr.depthAll c.args
  | .ret _ => 0

def Stmt.depthAll : List Stmt → Nat
  | [] => 0
  | s :: rest => max (Stmt.depth s) (Stmt.depthAll rest)

end

/-- The temporaries that a statement's own expressions need; the statements inside it and the
arguments of a call do not count. -/
def Stmt.ownDepth : Stmt → Nat
  | .assign target value _ => max (Reference.depth target) value.depth
  | .ifElse condition _ _ _ | .whileDo condition _ _ => condition.depth
  | .read target _ => Reference.depth target
  | .write value _ => value.depth
  | .call _ | .ret _ => 0

/-- A statement without its parts takes no more temporaries than with them. -/
theorem Stmt.ownDepth_le_depth (s : Stmt) : s.ownDepth ≤ s.depth := by
  cases s with
  | assign | read | write => exact Nat.le_refl _
  | ifElse | whileDo => exact Nat.le_max_left ..
  | call | ret => exact Nat.zero_le _

mutual

def Decl.depth : Decl → Nat
  | .types .. | .vars .. => 0
  | .procedure ⟨_, _, _, decls, body, _⟩ => max (Decl.depthAll decls) (Stmt.depthAll body)

def Decl.depthAll : List Decl → Nat
  | [] => 0
  | d :: rest => max (Decl.depth d) (Decl.depthAll rest)

end

/-- The most temporaries that are in use at once while a program runs. -/
def Program.depth (p : Program) : Nat := max (Decl.depthAll p.decls) (Stmt.depthAll p.body)

/-! ## Activations -/

/-- The bindings and the storage of a running procedure. -/
structure Activation where
  env : Env
  storage : Storage

namespace Activation

def bind (s : Activation) (name : String) (b : Binding) : Activation :=
  { s with env := (name, b) :: s.env }

/-- A variable with a block of its own. -/
def allocate (s : Activation) (name : String) (l : Layout) (words : List (Option Word)) :
    Activation where
  env := (name, .var ⟨l, s.storage.length, 0⟩) :: s.env
  storage := s.storage ++ [words]

end Activation

def TypeDecl.declareAll : List TypeDecl → Activation → Except Stop Activation
  | [], s => .ok s
  | d :: rest, s => do
    let l ← d.type.layout s.env
    TypeDecl.declareAll rest (s.bind d.name.name (.type l))

/-- Declares variables with the initial content `init` in every word. -/
def VarDecl.declareAll (init : Option Word) : List VarDecl → Activation →
    Except Stop Activation
  | [], s => .ok s
  | d :: rest, s => do
    let l ← d.type.layout s.env
    VarDecl.declareAll init rest
      (d.names.foldl (fun s name => s.allocate name.name l (List.replicate l.size init)) s)

/-- Declares the types and variables of a declaration part. -/
def Decl.declareSections (init : Option Word) :
    List Decl → Activation → Except Stop Activation
  | [], s => .ok s
  | .types decls _ :: rest, s =>
    do Decl.declareSections init rest (← TypeDecl.declareAll decls s)
  | .vars decls _ :: rest, s =>
    do Decl.declareSections init rest (← VarDecl.declareAll init decls s)
  | .procedure _ :: rest, s => Decl.declareSections init rest s

/-- Declares the procedures of a declaration part. -/
def Decl.declareProcedures : List Decl → Env → Env
  | [], env => env
  | .procedure p :: rest, env => Decl.declareProcedures rest ((p.name.name, .proc p) :: env)
  | _ :: rest, env => Decl.declareProcedures rest env

/-- What a procedure gets for a parameter. -/
inductive Argument where
  | value (l : Layout) (words : List Word)
  | storage (p : Place)

/-- The parameters of a procedure, one by one. -/
def ProcDecl.formals (p : ProcDecl Decl) : List (ParamMode × String) :=
  p.params.flatMap fun d => d.names.map fun name => (d.mode, name.name)

def Expr.argument (env : Env) (σ : Storage) : ParamMode → Expr → Except Stop Argument
  | .reference, .ref r => do return .storage (← r.place env σ)
  | .reference, _ => .error .illFormed
  | .value, e => do
    let (l, words) ← e.value env σ
    return .value l words

def Expr.arguments (env : Env) (σ : Storage) : List (ParamMode × String) → List Expr →
    Except Stop (List Argument)
  | [], [] => return []
  | (mode, _) :: formals, e :: args => do
    let first ← e.argument env σ mode
    let rest ← Expr.arguments env σ formals args
    return first :: rest
  | _, _ => .error .illFormed

/-- Binds parameters to what they get. A value is copied to new storage. -/
def Activation.pass (s : Activation) : List (ParamMode × String) → List Argument → Activation
  | (_, name) :: formals, .value l words :: args =>
    (s.allocate name l (words.map some)).pass formals args
  | (_, name) :: formals, .storage p :: args => (s.bind name (.var p)).pass formals args
  | _, _ => s

/-- A new activation of a procedure, with the bindings around its declaration. -/
def ProcDecl.activate (p : ProcDecl Decl) (around : Env)
    (σ : Storage) (args : List Argument) :
    Except Stop Activation := do
  let s ← Decl.declareSections none p.decls (Activation.pass ⟨around, σ⟩ p.formals args)
  return { s with env := Decl.declareProcedures p.decls s.env }

/-! ## Statements -/

/-- What is asked of the memory at some moment. -/
structure Demand where
  /-- The words that the frames of the active procedures take together. -/
  used : Int
  /-- The temporaries that are in use at once. -/
  depth : Nat
  deriving DecidableEq, Repr

/-- There is room for the temporaries behind the frames, with a word to spare. -/
def Demand.Fits (size : Nat) (x : Demand) : Prop := x.depth = 0 ∨ x.used + x.depth < size

instance (size : Nat) (x : Demand) : Decidable (x.Fits size) :=
  inferInstanceAs (Decidable (_ ∨ _))

theorem Demand.Fits.mono {size depth depth' : Nat}
    {used : Int} (h : Demand.Fits size ⟨used, depth⟩)
    (hle : depth' ≤ depth) : Demand.Fits size ⟨used, depth'⟩ := by
  unfold Demand.Fits at *
  dsimp only at *
  omega

/-- What an interpretation has done so far. -/
structure World where
  storage : Storage
  /-- Values that are still to be read. -/
  input : List Word
  /-- Values written so far. -/
  output : List Word := []
  /-- What was asked of the memory, the latest first. -/
  demands : List Demand

namespace World

def demand (w : World) (used : Int) (depth : Nat) : World :=
  { w with demands := ⟨used, depth⟩ :: w.demands }

/-- The most words that the frames of the active procedures took together. -/
def peak (w : World) : Int := (w.demands.map (·.used)).foldr max 0

end World

inductive Ending where
  | finished
  /-- The running procedure is to be left. -/
  | returned
  | stopped (s : Stop)
  /-- The fuel is used up. -/
  | timeout
  deriving DecidableEq, Repr

/-- How statements end, and the world that they leave. -/
structure Result where
  ending : Ending
  world : World

namespace Result

/-- Goes on with a value if there is one. -/
def attempt {α : Type} (w : World) (x : Except Stop α) (next : α → Result) : Result :=
  match x with
  | .ok v => next v
  | .error s => ⟨.stopped s, w⟩

def andThen (r : Result) (next : World → Result) : Result :=
  match r.ending with
  | .finished => next r.world
  | _ => r

/-- The end of a call: the storage of the procedure is given back, down to `blocks` blocks. -/
def leave (r : Result) (blocks : Nat) : Result :=
  match r.ending with
  | .finished | .returned =>
    ⟨.finished, { r.world with storage := r.world.storage.take blocks }⟩
  | _ => r

end Result

/-- A way to execute statements: with bindings, and with the number of words that the active
frames take. -/
abbrev Executor := Env → Int → List Stmt → World → Result

section

variable (frame : ProcDecl Decl → Int) (again : Executor) (env : Env) (used : Int)

/-- Executes a call. `frame` gives the words in a procedure's frame; the frame is there before
the arguments are. -/
def Call.exec (c : Call) (w : World) : Result :=
  match env.find? c.callee.name with
  | some (.proc p, around) =>
    let w := w.demand (used + frame p) (Expr.depthAll c.args)
    .attempt w (Expr.arguments env w.storage p.formals c.args) fun args =>
    .attempt w (p.activate around w.storage args) fun s =>
    (again s.env (used + frame p) p.body { w with storage := s.storage }).leave
      w.storage.length
  | _ => ⟨.stopped .illFormed, w⟩

mutual

/-- Executes a statement. A body that is called and a loop that goes round are left to
`again`. -/
def Stmt.exec : Stmt → World → Result
  | .assign target value _, w =>
    .attempt w (target.place env w.storage) fun p =>
    .attempt w (value.value env w.storage) fun v =>
    ⟨.finished, { w with storage := w.storage.write p v.2 }⟩
  | .ifElse condition thenBranch elseBranch _, w =>
    .attempt w (condition.eval env w.storage) fun x =>
    if x = 0 then Stmt.execAll elseBranch w else Stmt.execAll thenBranch w
  | .whileDo condition body span, w =>
    .attempt w (condition.eval env w.storage) fun x =>
    if x = 0 then ⟨.finished, w⟩
    else (Stmt.execAll body w).andThen (again env used [.whileDo condition body span])
  | .read target _, w =>
    .attempt w (target.place env w.storage >>= Place.nonempty) fun p =>
    match w.input with
    | [] => ⟨.stopped .inputExhausted, w⟩
    | x :: rest => ⟨.finished, { w with storage := w.storage.write p [x], input := rest }⟩
  | .write value _, w =>
    .attempt w (value.eval env w.storage) fun x =>
      ⟨.finished, { w with output := w.output ++ [x] }⟩
  | .call c, w => c.exec frame again env used w
  | .ret _, w => ⟨.returned, w⟩

def Stmt.execAll : List Stmt → World → Result
  | [], w => ⟨.finished, w⟩
  | s :: rest, w => (Stmt.exec s (w.demand used s.ownDepth)).andThen (Stmt.execAll rest)

end

end

/-- Executes statements. Each round of a loop and each call uses up fuel. -/
def Stmt.runFor (frame : ProcDecl Decl → Int) : Nat → Executor
  | 0 => fun _ _ _ w => ⟨.timeout, w⟩
  | n + 1 => fun env used body w => Stmt.execAll frame (Stmt.runFor frame n) env used body w

/-- Interprets a program. Its variables are zero at first; `base` is the number of words in
its own frame. -/
def Program.interpret (p : Program) (frame : ProcDecl Decl → Int)
    (base : Int) (input : List Word) (fuel : Nat) :
    Result :=
  let w : World := { storage := [], input, demands := [⟨base, 0⟩] }
  .attempt w (Decl.declareSections (some 0) p.decls ⟨[], []⟩) fun s =>
  Stmt.runFor frame fuel (Decl.declareProcedures p.decls s.env) base p.body { w with
    storage := s.storage }

end BlockLang
