import BlockLang.Proofs.Checking
import BlockLang.Tree.Builder

/-!
# Lexical scoping

Which declaration a name means is a matter of the tree alone. Declarations are numbered in
the order in which they stand in the program text: a procedure comes before its
parameters, these before its sections, and the procedures nested in it follow. A body sees
the names of its own scope and of the scopes around it as they were when the procedure was
declared: what is declared further down in a scope around it is not visible yet.

* `Names.number` numbers the names of a scope from a number on, the latest first.
* `Decl.outline` goes through a declaration part and collects its blocks: `Program.blocks`
  are the bodies of all procedures and of the main program, each with the names that it
  sees.
* `Stmt.parts` and `Stmt.calls` are the expressions and the calls that stand in a body,
  and `Block.symbolNodes` and `Block.typeNodes` the nodes that are to be annotated.

The program `Program.nesting`, with a procedure inside a procedure and names that hide
others, serves as an example throughout.
-/

namespace BlockLang

/-! ## Numbered names -/

/-- Names that are declared one after the other, numbered from `next` on. The latest comes
first. -/
def Names.number (next : Nat) : List String → Names
  | [] => []
  | name :: rest => Names.number (next + 1) rest ++ [(name, ⟨next⟩)]

namespace Names

@[simp] theorem number_nil (next : Nat) : number next [] = [] := rfl

@[simp] theorem number_singleton (next : Nat) (name : String) :
    number next [name] = [(name, ⟨next⟩)] := rfl

/-- Every name gets a number. -/
@[simp] theorem length_number (next : Nat) (names : List String) :
    (number next names).length = names.length := by
  induction names generalizing next with
  | nil => rfl
  | cons name rest ih => simp [number, ih]

/-- Names behind others get the numbers behind theirs. -/
theorem number_append (next : Nat) (names names' : List String) :
    number next (names ++ names') = number (next + names.length) names' ++
    number next names := by
  induction names generalizing next with
  | nil => simp
  | cons name rest ih => simp [number, ih, Nat.add_assoc, Nat.add_comm 1]

/-- The latest name stands first. -/
theorem reverse_map_fst_number (next : Nat) (names : List String) :
    ((number next names).map (·.1)).reverse = names := by
  induction names generalizing next with
  | nil => rfl
  | cons name rest ih => simp [number, ih]

/-- The number of a name says at which place it was given. -/
theorem mem_number {next : Nat} {names : List String} {x : String × SymbolId}
    (h : x ∈ number next names) :
    next ≤ x.2.index ∧ names[x.2.index - next]? = some x.1 := by
  induction names generalizing next with
  | nil => cases h
  | cons name rest ih =>
    rcases List.mem_append.mp h with h | h
    · obtain ⟨hle, hget⟩ := ih h
      have hindex : x.2.index - next = x.2.index - (next + 1) + 1 := by omega
      exact ⟨by omega, by rw [hindex, List.getElem?_cons_succ, hget]⟩
    · rw [List.mem_singleton.mp h]
      simp

end Names

/-- The names of parameters, in order. -/
def ParamDecl.namesAll (params : List ParamDecl) : List String :=
  params.flatMap fun d => d.names.map (·.name)

/-- The names that a section declares. A procedure is no section. -/
def Decl.sectionNames : Decl → List String
  | .types decls _ => decls.map (·.name.name)
  | .vars decls _ => decls.flatMap fun d => d.names.map (·.name)
  | .procedure _ => []

/-! ## Blocks -/

/-- A body of statements and the names that it sees. -/
structure Block where
  /-- The names of the innermost scope, the latest first. -/
  scope : Names
  /-- The scopes around it, from the inside out. -/
  outer : List Names
  body : List Stmt
  /-- The procedure that the body belongs to, with its symbol; the main program's body belongs
  to none. -/
  owner : Option (SymbolId × ProcDecl Decl)

namespace Block

/-- The lexical level. -/
def level (b : Block) : Nat := b.outer.length

/-- All names that the body sees. A name means the first declaration in the list. -/
def names (b : Block) : Names := b.scope ++ b.outer.flatten

/-- What is left of the block's scope when it is closed. -/
def closed (b : Block) : ClosedScope := ⟨b.level, (b.scope.map (·.2)).reverse⟩

end Block

/-- Procedures as they are walked through: their blocks in the order in which they end, the
names of the scope that they are declared in, and the number of the next declaration. -/
structure Outline where
  blocks : List Block
  scope : Names
  next : Nat

mutual

def Decl.outline (outer : List Names) (scope : Names) (next : Nat) : Decl → Outline
  | .types .. | .vars .. => ⟨[], scope, next⟩
  | .procedure ⟨node, name, params, decls, body, span⟩ =>
    let around := ((name.name, ⟨next⟩) :: scope) :: outer
    let own := ParamDecl.namesAll params ++ decls.flatMap Decl.sectionNames
    let nested :=
      Decl.outlineAll around (Names.number (next + 1) own) (next + 1 + own.length) decls
    ⟨nested.blocks ++
      [⟨nested.scope, around, body, some (⟨next⟩, ⟨node, name, params, decls, body, span⟩)⟩],
      (name.name, ⟨next⟩) :: scope, nested.next⟩

def Decl.outlineAll (outer : List Names) (scope : Names) (next : Nat) : List Decl → Outline
  | [] => ⟨[], scope, next⟩
  | d :: rest =>
    let first := Decl.outline outer scope next d
    let others := Decl.outlineAll outer first.scope first.next rest
    ⟨first.blocks ++ others.blocks, others.scope, others.next⟩

end

/-- A procedure is numbered first, then its own names, then what is nested in it; the scope
around gets the procedure alone. -/
theorem Decl.outline_procedure (outer : List Names)
    (scope : Names) (next : Nat) (q : ProcDecl Decl) :
    Decl.outline outer scope next (.procedure q) =
      let around := ((q.name.name, ⟨next⟩) :: scope) :: outer
      let own := ParamDecl.namesAll q.params ++ q.decls.flatMap Decl.sectionNames
      let nested :=
      Decl.outlineAll around (Names.number (next + 1) own) (next + 1 + own.length) q.decls
      ⟨nested.blocks ++ [⟨nested.scope, around, q.body, some (⟨next⟩, q)⟩],
        (q.name.name, ⟨next⟩) :: scope, nested.next⟩ := by
  rw [Decl.outline]

/-- The procedures of a program. -/
def Program.outline (p : Program) : Outline :=
  let own := p.decls.flatMap Decl.sectionNames
  Decl.outlineAll [] (Names.number 0 own) own.length p.decls

def Program.mainBlock (p : Program) : Block := ⟨p.outline.scope, [], p.body, none⟩

/-- The blocks of a program in the order in which they end. -/
def Program.blocks (p : Program) : List Block := p.outline.blocks ++ [p.mainBlock]

open Build in
/-- A procedure `count` in a procedure `fill`, which takes an array by value and an integer by
reference. The inner one uses parameters of both and calls itself. -/
def Build.nesting : Build Program := do
  let pair ← typeDecl "pair" (← array 1 2 (← integer))
  let v ← varDecl ["v"] (← named "pair")
  let n ← varDecl ["n"] (← integer)
  let a ← param .value ["a"] (← named "pair")
  let b ← param .reference ["b"] (← integer)
  let x ← varDecl ["x"] (← integer)
  let k ← param .value ["k"] (← integer)
  let add ← assign (← var "b")
    (← binary .add (.ref (← var "b")) (.ref (← index "a" (.ref (← var "k")))))
  let again ← call "count" [← binary .sub (.ref (← var "k")) (← const 1)]
  let count ← procedure "count" [k] []
    [← ifElse (← binary .less (← const 0) (.ref (← var "k"))) [add, .call again] []]
  let start ← call "count" [.ref (← var "x")]
  let fill ← procedure "fill" [a, b] [← vars [x], .procedure count]
    [← assign (← var "x") (← const 2), .call start]
  let run ← call "fill" [.ref (← var "v"), .ref (← var "n")]
  program "nesting" [← types [pair], ← vars [v, n], .procedure fill]
    [← assign (← index "v" (← const 1)) (← const 3), ← assign (← index "v" (← const 2))
    (← const 4), .call run,
      ← write (.ref (← var "n"))]

def Program.nesting : Program := (StateT.run (m := Id) Build.nesting {}).1

-- the inner procedure sees itself, the outer one's names and the main program's, but not the
-- other way round
example : Program.nesting.blocks.map (fun b => (b.level, b.names.map (·.1))) =
    [(2, ["k", "count", "x", "b", "a", "fill", "n", "v", "pair"]),
      (1, ["count", "x", "b", "a", "fill", "n", "v", "pair"]),
      (0, ["fill", "n", "v", "pair"])] := by decide +kernel

/-! ## What stands in a body -/

mutual

/-- An expression and the expressions in it. -/
def Expr.parts : Expr → List Expr
  | .const node value span => [.const node value span]
  | .ref ⟨node, name, selector, span⟩ =>
    .ref ⟨node, name, selector, span⟩ :: Selector.parts selector
  | .binary node op left right span =>
    .binary node op left right span :: (Expr.parts left ++ Expr.parts right)

def Selector.parts : Selector Expr → List Expr
  | .whole | .field _ => []
  | .element index => Expr.parts index
  | .fieldElement _ index => Expr.parts index

end

mutual

/-- The expressions of a statement. The target of an assignment or of a `read` counts as
one. -/
def Stmt.parts : Stmt → List Expr
  | .assign target value _ => (Expr.ref target).parts ++ value.parts
  | .ifElse condition thenBranch elseBranch _ =>
    condition.parts ++ (Stmt.partsAll thenBranch ++ Stmt.partsAll elseBranch)
  | .whileDo condition body _ => condition.parts ++ Stmt.partsAll body
  | .read target _ => (Expr.ref target).parts
  | .write value _ => value.parts
  | .call c => c.args.flatMap Expr.parts
  | .ret _ => []

def Stmt.partsAll : List Stmt → List Expr
  | [] => []
  | s :: rest => Stmt.parts s ++ Stmt.partsAll rest

end

mutual

/-- The calls in a statement. -/
def Stmt.calls : Stmt → List Call
  | .assign .. | .read .. | .write .. | .ret _ => []
  | .ifElse _ thenBranch elseBranch _ => Stmt.callsAll thenBranch ++ Stmt.callsAll elseBranch
  | .whileDo _ body _ => Stmt.callsAll body
  | .call c => [c]

def Stmt.callsAll : List Stmt → List Call
  | [] => []
  | s :: rest => Stmt.calls s ++ Stmt.callsAll rest

end

/-- The nodes of the references among expressions. -/
def Expr.referenceNodes (parts : List Expr) : List NodeId :=
  (parts.filterMap Expr.asRef?).map (·.node)

@[simp] theorem Expr.referenceNodes_nil : Expr.referenceNodes [] = [] := rfl

@[simp] theorem Expr.referenceNodes_ref (r : VarRef) (rest : List Expr) :
    Expr.referenceNodes (.ref r :: rest) = r.node :: Expr.referenceNodes rest := rfl

@[simp] theorem Expr.referenceNodes_binary (node : NodeId)
    (op : BinaryOp) (left right : Expr) (span : Span)
    (rest : List Expr) : Expr.referenceNodes (.binary node op left right span :: rest) =
    Expr.referenceNodes rest := rfl

/-- The references of two lists are those of the one and then those of the other. -/
@[simp] theorem Expr.referenceNodes_append (parts parts' : List Expr) :
    Expr.referenceNodes (parts ++ parts') = Expr.referenceNodes parts ++
    Expr.referenceNodes parts' := by
  simp [Expr.referenceNodes]

namespace Block

/-- The nodes that denote a symbol: references, calls and the procedure itself. -/
def symbolNodes (b : Block) : List NodeId :=
  Expr.referenceNodes (Stmt.partsAll b.body) ++ (Stmt.callsAll b.body).map (·.node) ++
    b.owner.toList.map (·.2.node)

/-- The nodes that have a type: expressions and targets. -/
def typeNodes (b : Block) : List NodeId := (Stmt.partsAll b.body).map Expr.node

end Block

end BlockLang
