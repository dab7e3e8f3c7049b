import Mathlib.Data.List.Nodup
import BlockLang.Proofs.Resolution
import BlockLang.Tree.Builder

/-!
# Built trees are numbered

A builder hands out identities from one counter, whatever kind of node asks for one, and a
node asks when the nodes that it holds are there already. If no node is put into two
places, the identities of everything that is built and not yet used are, all together, the
numbers below the counter: a call either leaves the identities of its parts as they are or
puts the counter on top of them (`Piece.Builds.numbers`). That a tree has distinct
identities, and that they grow towards its root, follows from this. The analysis rests on
it: what it finds out about a node it notes under the node's identity.

`Builder.Assembles.tree_numbered` is the theorem.

* A `Piece` is whatever a builder makes. `Piece.Builds parts m` says that the call `m`
  makes a piece out of the given parts, and `Builder.Assembles b pool` that the pool is
  what a builder has made, where every call takes its parts out of the pool and puts its
  piece in.
* One call: `Piece.Numbers` has the two cases, a node that gets an identity and one that
  gets none. `Piece.Builds.numbers` goes through all calls.
* Runs: `Builder.Numbered` is the invariant of the pool, kept by a call
  (`Builder.Numbered.call`) and therefore by a run (`Builder.Assembles.numbered`).
-/

namespace BlockLang

/-! ## Nodes and the nodes below them -/

/-- The pairs of a node and each of the nodes below it, before the pairs that are below it
themselves. -/
def NodeId.above (node : NodeId) (nodes : List NodeId) (lineage : List (NodeId × NodeId)) :
    List (NodeId × NodeId) :=
  nodes.map (node, ·) ++ lineage

mutual

/-- The pairs of a node and a node in its subtree. -/
def Expr.lineage : Expr → List (NodeId × NodeId)
  | .const .. => []
  | .ref r => Reference.lineage r
  | .binary node _ left right _ =>
    node.above (left.nodes ++ right.nodes) (Expr.lineage left ++ Expr.lineage right)

def Reference.lineage : Reference Expr → List (NodeId × NodeId)
  | ⟨node, _, selector, _⟩ => node.above (Selector.nodes selector) (Selector.lineage selector)

def Selector.lineage : Selector Expr → List (NodeId × NodeId)
  | .whole | .field _ => []
  | .element index => Expr.lineage index
  | .fieldElement _ index => Expr.lineage index

end

def Call.lineage (c : Call) : List (NodeId × NodeId) :=
  c.node.above (c.args.flatMap Expr.nodes) (c.args.flatMap Expr.lineage)

mutual

def Stmt.lineage : Stmt → List (NodeId × NodeId)
  | .assign target value _ => Reference.lineage target ++ value.lineage
  | .ifElse condition thenBranch elseBranch _ =>
    condition.lineage ++ (Stmt.lineageAll thenBranch ++ Stmt.lineageAll elseBranch)
  | .whileDo condition body _ => condition.lineage ++ Stmt.lineageAll body
  | .read target _ => Reference.lineage target
  | .write value _ => value.lineage
  | .call c => c.lineage
  | .ret _ => []

def Stmt.lineageAll : List Stmt → List (NodeId × NodeId)
  | [] => []
  | s :: rest => Stmt.lineage s ++ Stmt.lineageAll rest

end

mutual

def Decl.lineage : Decl → List (NodeId × NodeId)
  | .types .. | .vars .. => []
  | .procedure ⟨node, _, params, decls, body, _⟩ =>
    node.above (params.map (·.node) ++ (Decl.nodesAll decls ++ Stmt.nodesAll body))
      (Decl.lineageAll decls ++ Stmt.lineageAll body)

def Decl.lineageAll : List Decl → List (NodeId × NodeId)
  | [] => []
  | d :: rest => Decl.lineage d ++ Decl.lineageAll rest

end

def Program.lineage (p : Program) : List (NodeId × NodeId) :=
  Decl.lineageAll p.decls ++ Stmt.lineageAll p.body

/-! ## Pieces -/

/-- What a builder makes. -/
inductive Piece where
  | type (type : TypeExpr)
  | fieldGroup (group : FieldGroup TypeExpr)
  | typeDecl (decl : TypeDecl)
  | varDecl (decl : VarDecl)
  | param (param : ParamDecl)
  | decl (decl : Decl)
  | ref (r : VarRef)
  | expr (e : Expr)
  | stmt (s : Stmt)
  | program (p : Program)

namespace Piece

/-- The identities of the nodes of a piece. Types and fields have none. -/
def nodes : Piece → List NodeId
  | .type _ | .fieldGroup _ | .typeDecl _ => []
  | .varDecl d => [d.node]
  | .param p => [p.node]
  | .decl d => d.nodes
  | .ref r => Reference.nodes r
  | .expr e => e.nodes
  | .stmt s => s.nodes
  | .program p => p.nodes

/-- The pairs of a node and a node in its subtree. -/
def lineage : Piece → List (NodeId × NodeId)
  | .type _ | .fieldGroup _ | .typeDecl _ | .varDecl _ | .param _ => []
  | .decl d => d.lineage
  | .ref r => Reference.lineage r
  | .expr e => e.lineage
  | .stmt s => s.lineage
  | .program p => p.lineage

/-- A call of a builder, which makes a piece that holds the given ones. -/
inductive Builds : List Piece → Build Piece → Prop where
  | integer : Builds [] (.type <$> Build.integer)
  | char : Builds [] (.type <$> Build.char)
  | named (name) : Builds [] (.type <$> Build.named name)
  | array (low high element) : Builds [.type element] (.type <$> Build.array low high element)
  | fieldGroup (names type) :
    Builds [.type type] (.fieldGroup <$> Build.fieldGroup names type)
  | record (fields) : Builds (fields.map .fieldGroup) (.type <$> Build.record fields)
  | typeDecl (name type) : Builds [.type type] (.typeDecl <$> Build.typeDecl name type)
  | types (decls) : Builds (decls.map .typeDecl) (.decl <$> Build.types decls)
  | varDecl (names type) : Builds [.type type] (.varDecl <$> Build.varDecl names type)
  | vars (decls) : Builds (decls.map .varDecl) (.decl <$> Build.vars decls)
  | param (mode names type) : Builds [.type type] (.param <$> Build.param mode names type)
  | procedure (name params decls body) :
      Builds (params.map .param ++ (decls.map .decl ++ body.map .stmt))
        ((fun p => .decl (.procedure p)) <$> Build.procedure name params decls body)
  | program (name decls body) :
      Builds (decls.map .decl ++ body.map .stmt) (.program <$> Build.program name decls body)
  | var (name) : Builds [] (.ref <$> Build.var name)
  | index (name i) : Builds [.expr i] (.ref <$> Build.index name i)
  | field (name field) : Builds [] (.ref <$> Build.field name field)
  | fieldIndex (name field i) : Builds [.expr i] (.ref <$> Build.fieldIndex name field i)
  /-- A reference that is read is an expression. -/
  | use (r) : Builds [.ref r] (pure (.expr (.ref r)))
  | const (value) : Builds [] (.expr <$> Build.const value)
  | binary (op left right) :
    Builds [.expr left, .expr right] (.expr <$> Build.binary op left right)
  | assign (target value) :
    Builds [.ref target, .expr value] (.stmt <$> Build.assign target value)
  | ifElse (condition thenBranch elseBranch) :
      Builds (.expr condition :: (thenBranch.map .stmt ++ elseBranch.map .stmt))
        (.stmt <$> Build.ifElse condition thenBranch elseBranch)
  | whileDo (condition body) :
      Builds (.expr condition :: body.map .stmt) (.stmt <$> Build.whileDo condition body)
  | read (target) : Builds [.ref target] (.stmt <$> Build.read target)
  | write (value) : Builds [.expr value] (.stmt <$> Build.write value)
  | call (callee args) :
    Builds (args.map .expr) ((fun c => .stmt (.call c)) <$> Build.call callee args)
  | ret : Builds [] (.stmt <$> Build.ret)

end Piece

/-- The pieces that a new builder has made so far and that no piece holds yet. A call takes
the pieces that it needs from them, so none is used twice. -/
inductive Builder.Assembles : Builder → List Piece → Prop where
  | start : Assembles {} []
  | setLine {b pool} (line : Nat) : Assembles b pool →
    Assembles ((Build.setLine line).run b).2 pool
  | call {b pool parts rest m} : Assembles b pool →
      pool.Perm (parts ++ rest) → Piece.Builds parts m →
      Assembles (m.run b).2 ((m.run b).1 :: rest)

/-! ## One call -/

/-- A function that goes through a list and joins what it finds is a `flatMap`. -/
theorem eq_flatMap_of_cons {α β : Type} {f : α → List β}
    {g : List α → List β} (hnil : g [] = [])
    (hcons : ∀ x xs, g (x :: xs) = f x ++ g xs) (xs : List α) : g xs = xs.flatMap f := by
  induction xs with
  | nil => simp [hnil]
  | cons x xs ih => rw [hcons, ih, List.flatMap_cons]

namespace Piece

theorem flatMap_nodes_varDecl (ds : List VarDecl) :
    (ds.map Piece.varDecl).flatMap nodes = ds.map (·.node) := by
  rw [List.flatMap_map, List.map_eq_flatMap]
  rfl

theorem flatMap_nodes_param (ps : List ParamDecl) :
    (ps.map Piece.param).flatMap nodes = ps.map (·.node) := by
  rw [List.flatMap_map, List.map_eq_flatMap]
  rfl

theorem flatMap_nodes_decl (ds : List Decl) :
    (ds.map Piece.decl).flatMap nodes = Decl.nodesAll ds := by
  rw [List.flatMap_map]
  exact (eq_flatMap_of_cons (by rw [Decl.nodesAll]) (fun _ _ =>
      by rw [Decl.nodesAll]; rfl) ds).symm

theorem flatMap_nodes_stmt (ss : List Stmt) :
    (ss.map Piece.stmt).flatMap nodes = Stmt.nodesAll ss := by
  rw [List.flatMap_map]
  exact (eq_flatMap_of_cons (by rw [Stmt.nodesAll]) (fun _ _ =>
      by rw [Stmt.nodesAll]; rfl) ss).symm

theorem flatMap_lineage_decl (ds : List Decl) :
    (ds.map Piece.decl).flatMap lineage = Decl.lineageAll ds := by
  rw [List.flatMap_map]
  exact (eq_flatMap_of_cons (by rw [Decl.lineageAll]) (fun _ _ =>
      by rw [Decl.lineageAll]; rfl) ds).symm

theorem flatMap_lineage_stmt (ss : List Stmt) :
    (ss.map Piece.stmt).flatMap lineage = Stmt.lineageAll ss := by
  rw [List.flatMap_map]
  exact (eq_flatMap_of_cons (by rw [Stmt.lineageAll]) (fun _ _ =>
      by rw [Stmt.lineageAll]; rfl) ss).symm

/-- What a call does to identities. The new piece has those of its parts and perhaps the next
one, which stands above them. -/
inductive Numbers (parts : List Piece) (b : Builder) : Piece × Builder → Prop where
  | plain {x b'} : x.nodes = parts.flatMap nodes →
      x.lineage = parts.flatMap lineage → b'.nodeCount = b.nodeCount →
      Numbers parts b (x, b')
  | fresh {x b'} : x.nodes = ⟨b.nodeCount⟩ :: parts.flatMap nodes →
      x.lineage = NodeId.above ⟨b.nodeCount⟩ (parts.flatMap nodes) (parts.flatMap lineage) →
      b'.nodeCount = b.nodeCount + 1 → Numbers parts b (x, b')

/-- A call leaves the identities of its parts, or puts the next one on top of them. -/
theorem Builds.numbers {parts : List Piece}
    {m : Build Piece} (h : Builds parts m) (b : Builder) :
    Numbers parts b (m.run b) := by
  -- Either the counter stays, or the new node has its value and everything else lies below.
  cases h with
  | integer | char | named | array | fieldGroup | typeDecl | ret => exact .plain rfl rfl rfl
  | varDecl | param | var | field | const => exact .fresh rfl rfl rfl
  | record fields =>
    exact .plain (by simp [nodes, List.flatMap_map]) (by simp [lineage, List.flatMap_map]) rfl
  | types decls =>
    refine .plain ?_ ?_ rfl
    · simp [nodes, Decl.nodes, List.flatMap_map]
    · simp [lineage, Decl.lineage, List.flatMap_map]
  | vars decls =>
    refine .plain ?_ ?_ rfl
    · simp [nodes, Decl.nodes, flatMap_nodes_varDecl]
    · simp [lineage, Decl.lineage, List.flatMap_map]
  | procedure name params decls body =>
    have hparams : (params.map Piece.param).flatMap lineage = [] := by
      simp [lineage, List.flatMap_map]
    have hnodes : (params.map Piece.param ++
        (decls.map Piece.decl ++ body.map Piece.stmt)).flatMap nodes =
        params.map (·.node) ++ (Decl.nodesAll decls ++ Stmt.nodesAll body) := by
      rw [List.flatMap_append, List.flatMap_append, flatMap_nodes_param, flatMap_nodes_decl,
        flatMap_nodes_stmt]
    have hlineage : (params.map Piece.param ++
        (decls.map Piece.decl ++ body.map Piece.stmt)).flatMap lineage =
        Decl.lineageAll decls ++ Stmt.lineageAll body := by
      rw [List.flatMap_append, List.flatMap_append, hparams, flatMap_lineage_decl,
        flatMap_lineage_stmt, List.nil_append]
    refine .fresh ?_ ?_ rfl
    · rw [hnodes]
      simp only [nodes, Decl.nodes]
    · rw [hnodes, hlineage]
      simp only [lineage, Decl.lineage]
  | program name decls body =>
    refine .plain ?_ ?_ rfl
    · rw [List.flatMap_append, flatMap_nodes_decl, flatMap_nodes_stmt]
      rfl
    · rw [List.flatMap_append, flatMap_lineage_decl, flatMap_lineage_stmt]
      rfl
  | index name i | fieldIndex name field i =>
    refine .fresh ?_ ?_ rfl
    · simp [nodes, Reference.nodes, Selector.nodes]
    · simp [nodes, lineage, Reference.lineage, Selector.nodes, Selector.lineage]
  | use r => exact .plain (by simp [nodes, Expr.nodes]) (by simp [lineage, Expr.lineage]) rfl
  | binary op left right =>
    refine .fresh ?_ ?_ rfl
    · simp [nodes, Expr.nodes]
    · simp [nodes, lineage, Expr.lineage]
  | assign | read | write =>
    refine .plain ?_ ?_ rfl
    · simp [nodes, Stmt.nodes]
    · simp [lineage, Stmt.lineage]
  | ifElse | whileDo =>
    refine .plain ?_ ?_ rfl
    · simp [nodes, Stmt.nodes, flatMap_nodes_stmt]
    · simp [lineage, Stmt.lineage, flatMap_lineage_stmt]
  | call callee args =>
    refine .fresh ?_ ?_ rfl
    · simp [nodes, Stmt.nodes, Call.nodes, List.flatMap_map]
    · simp [nodes, lineage, Stmt.lineage, Call.lineage, List.flatMap_map]

end Piece

/-! ## Runs -/

/-- The identities that were handed out so far. -/
def Builder.handedOut (b : Builder) : List NodeId := (List.range b.nodeCount).map NodeId.mk

/-- The identities that are handed out are those below the counter. -/
theorem Builder.mem_handedOut {b : Builder} {n : NodeId} :
    n ∈ b.handedOut ↔ n.index < b.nodeCount := by
  simp only [Builder.handedOut, List.mem_map, List.mem_range]
  constructor
  · rintro ⟨i, hi, rfl⟩
    exact hi
  · intro hn
    exact ⟨n.index, hn, rfl⟩

theorem Builder.nodup_handedOut (b : Builder) : b.handedOut.Nodup :=
  List.Nodup.map (fun _ _ => congrArg NodeId.index) List.nodup_range

/-- The pieces hold the identities handed out, each once, and these grow towards the roots. -/
structure Builder.Numbered (b : Builder) (pool : List Piece) : Prop where
  nodes : (pool.flatMap Piece.nodes).Perm b.handedOut
  lineage : ∀ y ∈ pool.flatMap Piece.lineage, y.2.index < y.1.index

namespace Builder

variable {b b' : Builder} {pool parts rest : List Piece} {x : Piece}

/-- The order of the pool does not matter. -/
theorem Numbered.perm (h : b.Numbered pool) {pool' : List Piece} (hperm : pool.Perm pool') :
    b.Numbered pool' where
  nodes := (hperm.flatMap_right _).symm.trans h.nodes
  lineage y hy := h.lineage y ((hperm.flatMap_right _).mem_iff.mpr hy)

/-- A call keeps the pieces numbered. -/
theorem Numbered.call (h : b.Numbered (parts ++ rest))
    (hcall : Piece.Numbers parts b (x, b')) :
    b'.Numbered (x :: rest) := by
  cases hcall with
  | plain hnodes hlineage hcount =>
    constructor
    · rw [List.flatMap_cons, hnodes, ← List.flatMap_append, handedOut, hcount]
      exact h.nodes
    · rw [List.flatMap_cons, hlineage, ← List.flatMap_append]
      exact h.lineage
  | fresh hnodes hlineage hcount =>
    constructor
    · rw [List.flatMap_cons, hnodes, List.cons_append, ← List.flatMap_append, handedOut,
        hcount, List.range_succ, List.map_append]
      exact (h.nodes.cons _).trans (List.perm_append_singleton _ _).symm
    · rw [List.flatMap_cons, hlineage, NodeId.above, List.append_assoc, ← List.flatMap_append]
      intro y hy
      rcases List.mem_append.mp hy with hy | hy
      · -- The new node stands above nodes that were handed out before it.
        obtain ⟨n, hn, rfl⟩ := List.mem_map.mp hy
        have hmem : n ∈ (parts ++ rest).flatMap Piece.nodes := by
          rw [List.flatMap_append]
          exact List.mem_append_left _ hn
        exact mem_handedOut.mp (h.nodes.mem_iff.mp hmem)
      · exact h.lineage y hy

/-- Whatever a builder has made is numbered. -/
theorem Assembles.numbered (h : b.Assembles pool) : b.Numbered pool := by
  induction h with
  | start => exact ⟨.nil, by simp⟩
  | setLine line _ ih => exact ⟨ih.nodes, ih.lineage⟩
  | @call b pool parts rest m _ hperm hbuilds ih =>
    exact (ih.perm hperm).call (hbuilds.numbers b)

/-- **The identities of a built tree number its nodes.** Take whatever a builder has made and
no piece holds yet. The identities of its nodes are distinct, they are below the number of
identities handed out, and every node has a greater one than the nodes of its subtree. If the
nodes that were built are all in this one tree, they are numbered from 0 without gaps. -/
theorem Assembles.tree_numbered (h : b.Assembles pool) (hx : x ∈ pool) :
    x.nodes.Nodup ∧ (∀ n ∈ x.nodes, n.index < b.nodeCount) ∧
    (∀ y ∈ x.lineage, y.2.index < y.1.index) ∧
      ∀ rest, pool.Perm (x :: rest) → (∀ y ∈ rest, y.nodes = []) →
        (x.nodes.map (·.index)).Perm (List.range b.nodeCount) := by
  have hnumbered := h.numbered
  refine ⟨?_, ?_, ?_, ?_⟩
  · exact (List.nodup_flatMap.mp (hnumbered.nodes.nodup_iff.mpr b.nodup_handedOut)).1 x hx
  · intro n hn
    exact mem_handedOut.mp (hnumbered.nodes.mem_iff.mp (List.mem_flatMap.mpr ⟨x, hx, hn⟩))
  · intro y hy
    exact hnumbered.lineage y (List.mem_flatMap.mpr ⟨x, hx, hy⟩)
  · intro rest hperm hrest
    have hnone : rest.flatMap Piece.nodes = [] := List.flatMap_eq_nil_iff.mpr hrest
    have hall := (hnumbered.perm hperm).nodes
    rw [List.flatMap_cons, hnone, List.append_nil] at hall
    have hindices := hall.map (·.index)
    rwa [handedOut, List.map_map, show NodeId.index ∘ NodeId.mk = id from rfl, List.map_id]
      at hindices

/-- A program `write(2 - a[1])`, of whose operands the right one is built first. -/
theorem subtracting_tree_numbered : ∃ p : Program, Assembles ⟨4, 7⟩ [.program p] ∧
    p.nodes = [⟨3⟩, ⟨2⟩, ⟨1⟩, ⟨0⟩] ∧ p.nodes.Nodup ∧
      (∀ y ∈ p.lineage, y.2.index < y.1.index) ∧
      (p.nodes.map (·.index)).Perm (List.range 4) := by
  let one : Expr := .const ⟨0⟩ 1 (.ofLine 1)
  let element : VarRef := ⟨⟨1⟩, ⟨"a", .ofLine 1⟩, .element one, .ofLine 1⟩
  let two : Expr := .const ⟨2⟩ 2 (.ofLine 7)
  let difference : Expr := .binary ⟨3⟩ .sub two (.ref element) (.ofLine 7)
  have hone : Assembles ⟨1, 1⟩ [.expr one] := .call .start (.refl _) (.const 1)
  have helement : Assembles ⟨2, 1⟩ [.ref element] := .call hone (.refl _) (.index "a" one)
  have hused : Assembles ⟨2, 7⟩ [.expr (.ref element)] :=
    .setLine 7 (.call helement (.refl _) (.use element))
  have htwo : Assembles ⟨3, 7⟩ [.expr two, .expr (.ref element)] :=
    .call hused (.refl _) (.const 2)
  have hdifference : Assembles ⟨4, 7⟩ [.expr difference] :=
    .call htwo (.refl _) (.binary .sub two (.ref element))
  have hwrite : Assembles ⟨4, 7⟩ [.stmt (.write difference (.ofLine 7))] :=
    .call hdifference (.refl _) (.write difference)
  have hprogram : Assembles ⟨4, 7⟩
      [.program ⟨⟨"p", .ofLine 7⟩, [], [.write difference (.ofLine 7)], .ofLine 7⟩] :=
    .call hwrite (.refl _) (.program "p" [] [.write difference (.ofLine 7)])
  obtain ⟨hnodup, -, hlineage, hall⟩ := hprogram.tree_numbered (List.mem_singleton_self _)
  exact ⟨_, hprogram, rfl, hnodup, hlineage, hall [] (.refl _) (by simp)⟩

end Builder

end BlockLang
