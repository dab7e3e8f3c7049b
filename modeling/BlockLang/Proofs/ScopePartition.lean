import BlockLang.Proofs.Acceptance
import BlockLang.Proofs.Elaboration
import Mathlib.Data.List.Nodup

/-!
# The closed scopes of a program

The analysis keeps the symbols of every scope that it closes. There is one such list for
each procedure of the tree, in the order in which the procedures end, and a last one for
the main program. Together the lists are a partition of the symbol table.

`Program.closedScopes_partition` says so: the lists are those of the tree, with the levels
and names of the scopes (`Program.scopes`), every list ascends, no name occurs twice in
one, and all of them together are the symbols from 0 on, each once.

Symbols are numbered in the order of the program text, while scopes nest, so a scope goes
on getting symbols after those nested in it are closed. The walk through the procedures
(`Decl.outline`) therefore carries what is closed and what is still open: both together
are always the symbols that there were and those numbered since (`Outline.Follows`). It
holds of no procedure at all, of two stretches if it holds of both
(`Outline.Follows.append`), and of a procedure if it holds of what is nested in it
(`Outline.Follows.procedure`).

That no name is declared twice in a scope is a matter of well-formedness alone: in a
well-formed program every declaration is of a name that is fresh (`Context.Extends`).
-/

namespace BlockLang

open scoped List

/-! ## Scopes in the tree -/

mutual

/-- The procedures in a declaration and their depths, each procedure behind those that are
nested in it. -/
def Decl.postorder (depth : Nat) : Decl → List (Nat × ProcDecl Decl)
  | .types .. | .vars .. => []
  | .procedure ⟨node, name, params, decls, body, span⟩ =>
    Decl.postorderAll (depth + 1) decls ++ [(depth, ⟨node, name, params, decls, body, span⟩)]

def Decl.postorderAll (depth : Nat) : List Decl → List (Nat × ProcDecl Decl)
  | [] => []
  | d :: rest => Decl.postorder depth d ++ Decl.postorderAll depth rest

end

/-- A procedure ends after those nested in it. -/
theorem Decl.postorder_procedure (depth : Nat) (q : ProcDecl Decl) :
    Decl.postorder depth (.procedure q) = Decl.postorderAll (depth + 1) q.decls ++
    [(depth, q)] := by
  rw [Decl.postorder]

theorem Decl.postorderAll_append (depth : Nat) (decls decls' : List Decl) :
    Decl.postorderAll depth (decls ++ decls') = Decl.postorderAll depth decls ++
    Decl.postorderAll depth decls' := by
  induction decls with
  | nil => simp [Decl.postorderAll]
  | cons d rest ih => simp [Decl.postorderAll, ih]

/-- The names of the procedures of a declaration part. -/
def Decl.procedureNames (decls : List Decl) : List String :=
  (decls.filterMap Decl.asProcedure?).map (·.name.name)

/-- The names that a declaration part declares: types and variables first, and then the
procedures. -/
def Decl.scopeNames (decls : List Decl) : List String :=
  decls.flatMap Decl.sectionNames ++ Decl.procedureNames decls

/-- Sections come before procedures, and so do their names. -/
theorem Decl.scopeNames_append {sections procedures : List Decl}
    (hsections : Decl.procedureNames sections = [])
    (hprocedures : procedures.flatMap Decl.sectionNames = []) :
    Decl.scopeNames (sections ++ procedures) =
      sections.flatMap Decl.sectionNames ++ Decl.procedureNames procedures := by
  have hnames :
      Decl.procedureNames (sections ++ procedures) = Decl.procedureNames procedures := by
    rw [Decl.procedureNames, List.filterMap_append, List.map_append]
    exact congrArg (· ++ _) hsections
  rw [Decl.scopeNames, List.flatMap_append, hprocedures, List.append_nil, hnames]

/-- The names in the scope of a procedure, in the order of declaration. -/
def ProcDecl.scopeNames (q : ProcDecl Decl) : List String :=
  ParamDecl.namesAll q.params ++ Decl.scopeNames q.decls

/-- The scopes of a program as they end, with their levels and names. -/
def Program.scopes (p : Program) : List (Nat × List String) :=
  (Decl.postorderAll 1 p.decls).map (fun x => (x.1, x.2.scopeNames)) ++
    [(0, Decl.scopeNames p.decls)]

/-! ## Numbers -/

/-- The symbols from a number on. -/
def SymbolId.range (next count : Nat) : List SymbolId :=
  (List.range' next count).map SymbolId.mk

/-- Numbers from one number on, and more behind them. -/
theorem SymbolId.range_append (next count count' : Nat) :
    SymbolId.range next (count + count') = SymbolId.range next count ++
    SymbolId.range (next + count) count' := by
  simp [SymbolId.range, ← List.range'_append_1]

theorem SymbolId.range_one (next : Nat) : SymbolId.range next 1 = [⟨next⟩] := rfl

namespace Names

/-- The symbols of a scope in the order of declaration. -/
def entries (scope : Names) : List SymbolId := (scope.map (·.2)).reverse

@[simp] theorem entries_cons (x : String × SymbolId) (scope : Names) :
    entries (x :: scope) = entries scope ++ [x.2] := by
  simp [entries]

theorem entries_number (next : Nat) (names : List String) :
    entries (number next names) = SymbolId.range next names.length := by
  induction names generalizing next with
  | nil => rfl
  | cons name rest ih =>
    have hrest := ih (next + 1)
    rw [List.length_cons, Nat.add_comm, SymbolId.range_append, SymbolId.range_one, ← hrest]
    simp [entries, number]

/-- The symbols of the scope are numbered upwards, below `next`. -/
def Ascends (next : Nat) (scope : Names) : Prop := SymbolTable.Ascend 0 next (entries scope)

theorem Ascends.mono {next next' : Nat} {scope : Names}
    (h : Ascends next scope) (hle : next ≤ next') :
    Ascends next' scope := by
  refine ⟨h.1, fun id hid => ⟨Nat.zero_le _, ?_⟩⟩
  exact Nat.lt_of_lt_of_le (h.2 id hid).2 hle

theorem Ascends.cons {next : Nat} {scope : Names} (h : Ascends next scope) (name : String) :
    Ascends (next + 1) ((name, ⟨next⟩) :: scope) := by
  rw [Ascends, entries_cons]
  refine SymbolTable.Ascend.append h ⟨List.pairwise_singleton .., ?_⟩ (Nat.zero_le _)
    (Nat.le_succ _)
  simp

/-- Names that are declared in a row ascend. -/
theorem ascends_number (next : Nat) (names : List String) :
    Ascends (next + names.length) (number next names) := by
  rw [Ascends, entries_number, SymbolId.range]
  constructor
  · rw [List.pairwise_map]
    exact List.pairwise_lt_range'
  · intro id hid
    obtain ⟨i, hi, rfl⟩ := List.mem_map.mp hid
    have hbounds := List.mem_range'_1.mp hi
    exact ⟨Nat.zero_le _, hbounds.2⟩

end Names

/-! ## Walks through procedures -/

/-- The level of a block and the names of its scope, in the order of declaration. -/
def Block.listed (b : Block) : Nat × List String := (b.level, (b.scope.map (·.1)).reverse)

/-- What a walk through procedures leads to from a scope and the next number: the closed
scopes are those of the procedures in postorder, the scope has the names of the outermost
ones, and no symbol is lost or met twice. -/
structure Outline.Follows (r : Outline) (scope : Names) (next : Nat)
    (procedures : List (Nat × ProcDecl Decl)) (names : List String) : Prop where
  listed : r.blocks.map Block.listed = procedures.map fun x => (x.1, x.2.scopeNames)
  names : (r.scope.map (·.1)).reverse = (scope.map (·.1)).reverse ++ names
  ascends : Names.Ascends next scope → Names.Ascends r.next r.scope ∧
    ∀ b ∈ r.blocks, b.closed.entries.Pairwise (·.index < ·.index)
  numbered : ∃ count, r.next = next + count ∧ r.blocks.flatMap (·.closed.entries) ++
    r.scope.entries ~ scope.entries ++ SymbolId.range next count

namespace Outline.Follows

variable {r r' : Outline} {scope : Names} {next : Nat}
  {procedures procedures' : List (Nat × ProcDecl Decl)} {names names' : List String}

theorem refl (scope : Names) (next : Nat) : Follows ⟨[], scope, next⟩ scope next [] [] where
  listed := rfl
  names := by simp
  ascends h := ⟨h, by simp⟩
  numbered := ⟨0, by simp [SymbolId.range]⟩

/-- Two stretches of procedures, of which the second finds what the first has left open. -/
theorem append (h : r.Follows scope next procedures names)
    (h' : r'.Follows r.scope r.next procedures' names') :
    Follows ⟨r.blocks ++ r'.blocks, r'.scope, r'.next⟩ scope next (procedures ++ procedures')
    (names ++ names') where
  listed := by simp [h.listed, h'.listed]
  names := by rw [h'.names, h.names, List.append_assoc]
  ascends hscope := by
    obtain ⟨hfirst, hblocks⟩ := h.ascends hscope
    obtain ⟨hothers, hblocks'⟩ := h'.ascends hfirst
    exact ⟨hothers, List.forall_mem_append.mpr ⟨hblocks, hblocks'⟩⟩
  numbered := by
    obtain ⟨count, hnext, hperm⟩ := h.numbered
    obtain ⟨count', hnext', hperm'⟩ := h'.numbered
    refine ⟨count + count', by rw [hnext', hnext, Nat.add_assoc], ?_⟩
    rw [hnext] at hperm'
    calc
      _ = r.blocks.flatMap (·.closed.entries) ++
          (r'.blocks.flatMap (·.closed.entries) ++ r'.scope.entries) := by simp
      _ ~ r.blocks.flatMap (·.closed.entries) ++
          (r.scope.entries ++ SymbolId.range (next + count) count') :=
        hperm'.append_left _
      _ = r.blocks.flatMap (·.closed.entries) ++ r.scope.entries ++
          SymbolId.range (next + count) count' := by simp
      _ ~ scope.entries ++ SymbolId.range next count ++
          SymbolId.range (next + count) count' :=
        hperm.append_right _
      _ = scope.entries ++ SymbolId.range next (count + count') := by
          rw [SymbolId.range_append, List.append_assoc]

/-- A procedure is numbered before everything in it, and its scope is closed behind everything
in it. -/
theorem procedure {q : ProcDecl Decl} {outer : List Names}
    {own : List String} (hown : own ++ names = q.scopeNames)
    (h : r.Follows (Names.number (next + 1) own) (next + 1 + own.length) procedures names) :
    Follows
      ⟨r.blocks ++
          [⟨r.scope, ((q.name.name, ⟨next⟩) :: scope) :: outer, q.body, some (⟨next⟩, q)⟩],
        (q.name.name, ⟨next⟩) :: scope, r.next⟩
      scope next (procedures ++ [(outer.length + 1, q)]) [q.name.name] where
  listed := by simp [h.listed, h.names, Block.listed, Block.level,
    Names.reverse_map_fst_number, ← hown]
  names := by simp
  ascends hscope := by
    obtain ⟨hnested, hblocks⟩ := h.ascends (Names.ascends_number _ _)
    obtain ⟨count, hnext, _⟩ := h.numbered
    refine ⟨(hscope.cons q.name.name).mono (by show next + 1 ≤ r.next; omega), ?_⟩
    exact List.forall_mem_append.mpr ⟨hblocks, List.forall_mem_singleton.mpr hnested.1⟩
  numbered := by
    obtain ⟨count, hnext, hperm⟩ := h.numbered
    refine ⟨1 + (own.length + count), by show r.next = _; omega, ?_⟩
    rw [Names.entries_number, ← SymbolId.range_append] at hperm
    have hperm' := hperm.append_right (scope.entries ++ SymbolId.range next 1)
    rw [SymbolId.range_append]
    calc
      _ = r.blocks.flatMap (·.closed.entries) ++ r.scope.entries ++
          (scope.entries ++ SymbolId.range next 1) := by
        simp [Block.closed, Names.entries, SymbolId.range_one]
      _ ~ SymbolId.range (next + 1) (own.length + count) ++
          (scope.entries ++ SymbolId.range next 1) := hperm'
      _ ~ scope.entries ++ SymbolId.range next 1 ++
          SymbolId.range (next + 1) (own.length + count) :=
        List.perm_append_comm
      _ = scope.entries ++
          (SymbolId.range next 1 ++ SymbolId.range (next + 1) (own.length + count)) := by simp

end Outline.Follows

mutual

theorem Decl.outline_follows : ∀ (d : Decl) (outer : List Names) (scope : Names) (next : Nat),
    (d.outline outer scope next).Follows scope next (d.postorder (outer.length + 1))
    (Decl.procedureNames [d])
  | .types .., _, scope, next => .refl scope next
  | .vars .., _, scope, next => .refl scope next
  | .procedure ⟨node, name, params, decls, body, span⟩, outer, scope, next => by
    have hnested := Decl.outlineAll_follows decls (((name.name, ⟨next⟩) :: scope) :: outer)
      (Names.number (next + 1) (ParamDecl.namesAll params ++ decls.flatMap Decl.sectionNames))
      (next + 1 + (ParamDecl.namesAll params ++ decls.flatMap Decl.sectionNames).length)
    rw [Decl.outline_procedure, Decl.postorder_procedure]
    refine hnested.procedure (q := ⟨node, name, params, decls, body, span⟩) ?_
    simp [ProcDecl.scopeNames, Decl.scopeNames]

/-- The walk through procedures closes a scope for each of them, inner ones first. -/
theorem Decl.outlineAll_follows :
    ∀ (decls : List Decl) (outer : List Names) (scope : Names) (next : Nat),
    (Decl.outlineAll outer scope next decls).Follows scope next
    (Decl.postorderAll (outer.length + 1) decls)
      (Decl.procedureNames decls)
  | [], _, scope, next => .refl scope next
  | d :: rest, outer, scope, next => by
    have hnames : Decl.procedureNames (d :: rest) = Decl.procedureNames [d] ++
        Decl.procedureNames rest := by
      cases d <;> rfl
    rw [Decl.outlineAll, Decl.postorderAll, hnames]
    exact (Decl.outline_follows d outer scope next).append
      (Decl.outlineAll_follows rest outer _ _)

end

/-- The procedures of a program, from the numbers of its sections on. -/
theorem Program.outline_follows (p : Program) :
    p.outline.Follows (Names.number 0 (p.decls.flatMap Decl.sectionNames))
    (p.decls.flatMap Decl.sectionNames).length
      (Decl.postorderAll 1 p.decls) (Decl.procedureNames p.decls) :=
  Decl.outlineAll_follows p.decls [] _ _

/-- The blocks of a program have the levels and names of its scopes. -/
theorem Program.listed_blocks (p : Program) : p.blocks.map Block.listed = p.scopes := by
  have h := p.outline_follows
  simp [Program.blocks, Program.scopes, h.listed, Program.mainBlock, Block.listed,
    Block.level, h.names, Names.reverse_map_fst_number, Decl.scopeNames]

/-- The symbols of all blocks are the numbers from 0 on, each once. -/
theorem Program.numbered_blocks (p : Program) :
    p.blocks.flatMap (·.closed.entries) ~ SymbolId.range 0 p.outline.next := by
  obtain ⟨count, hnext, hperm⟩ := p.outline_follows.numbered
  have hrange := SymbolId.range_append 0 (p.decls.flatMap Decl.sectionNames).length count
  rw [Names.entries_number] at hperm
  rw [Nat.zero_add] at hrange
  rw [← hrange, ← hnext] at hperm
  simpa [Program.blocks, Program.mainBlock, Block.closed, Names.entries] using hperm

/-- The symbols of each block ascend. -/
theorem Program.ascending_blocks (p : Program) :
    ∀ b ∈ p.blocks, b.closed.entries.Pairwise (·.index < ·.index) := by
  have hown := Names.ascends_number 0 (p.decls.flatMap Decl.sectionNames)
  rw [Nat.zero_add] at hown
  obtain ⟨hmain, hblocks⟩ := p.outline_follows.ascends hown
  exact List.forall_mem_append.mpr ⟨hblocks, List.forall_mem_singleton.mpr hmain.1⟩

/-! ## Names that are declared once -/

/-- The innermost scope of the second context has further names, and they are new there. -/
structure Context.Extends (Γ : Context) (names : List String) (Γ' : Context) : Prop where
  names : Γ'.scope.map (·.1) = names.reverse ++ Γ.scope.map (·.1)
  distinct : (Γ.scope.map (·.1)).Nodup → (Γ'.scope.map (·.1)).Nodup

namespace Context.Extends

theorem refl (Γ : Context) : Γ.Extends [] Γ := ⟨by simp, fun h => h⟩

theorem trans {Γ Γ' Γ'' : Context} {names names' : List String}
    (h : Γ.Extends names Γ') (h' : Γ'.Extends names' Γ'') :
    Γ.Extends (names ++ names') Γ'' :=
  ⟨by simp [h'.names, h.names], fun hdistinct => h'.distinct (h.distinct hdistinct)⟩

/-- The declaration of a fresh name adds it. -/
theorem declare {Γ : Context} {name : String} (h : Γ.Fresh name) (d : Declared) :
    Γ.Extends [name] (Γ.declare name d) :=
  ⟨rfl, fun hdistinct => List.nodup_cons.mpr ⟨h, hdistinct⟩⟩

/-- What a new scope is extended with has distinct names. -/
theorem nodup {Γ Γ' : Context} {names : List String}
    (h : Γ.Extends names Γ') (hempty : Γ.scope = []) :
    names.Nodup := by
  have hdistinct := h.distinct (by simp [hempty])
  rw [h.names, hempty, List.map_nil, List.append_nil] at hdistinct
  exact List.nodup_reverse.mp hdistinct

end Context.Extends

theorem Site.Declares.extends {τ : Ty} {words : Int} {names : List Ident} {s s' : Site}
    (h : Site.Declares τ words s names s') :
    s.context.Extends (names.map (·.name)) s'.context := by
  induction h with
  | nil => exact .refl _
  | cons hfresh _ _ ih => exact (Context.Extends.declare hfresh _).trans ih

/-- If every item of a list declares its names, so does the list. -/
theorem Site.Chain.extends {α : Type}
    {step : Site → α → Site → Prop} (names : α → List String)
    (hstep : ∀ {s x s'}, step s x s' → s.context.Extends (names x) s'.context)
    {s s' : Site} {xs : List α}
    (h : Site.Chain step s xs s') : s.context.Extends (xs.flatMap names) s'.context := by
  induction h with
  | nil => exact .refl _
  | cons hfirst _ ih =>
    rw [List.flatMap_cons]
    exact (hstep hfirst).trans ih

theorem ParamDecl.WellFormed.extends {params : List ParamDecl}
    {formals : List (ParamMode × Ty)} {s s' : Site}
    (h : ParamDecl.WellFormed s params formals s') :
    s.context.Extends (ParamDecl.namesAll params) s'.context := by
  induction h with
  | nil => exact .refl _
  | cons _ hdeclares _ ih => exact hdeclares.extends.trans ih

/-- A section adds the names of its types or variables. -/
theorem Decl.SectionWellFormed.extends {d : Decl}
    {s s' : Site} (h : Decl.SectionWellFormed s d s') :
    s.context.Extends d.sectionNames s'.context := by
  cases h with
  | types h =>
    rw [Decl.sectionNames, List.map_eq_flatMap]
    refine Site.Chain.extends _ ?_ h
    intro s d s' hd
    cases hd with
    | intro _ hfresh => exact .declare hfresh _
  | vars h =>
    refine Site.Chain.extends _ ?_ h
    intro s d s' hd
    cases hd with
    | intro _ hdeclares => exact hdeclares.extends

/-- The sections of a declaration part declare no procedures. -/
theorem Site.Chain.no_procedures {sections : List Decl} {s s' : Site}
    (h : Site.Chain Decl.SectionWellFormed s sections s') :
    Decl.procedureNames sections = [] ∧ ∀ depth, Decl.postorderAll depth sections = [] := by
  induction h with
  | nil => exact ⟨rfl, fun _ => rfl⟩
  | cons hsection _ ih =>
    cases hsection with
    | types _ => exact ⟨ih.1, fun depth => by simp [Decl.postorderAll, Decl.postorder, ih.2]⟩
    | vars _ => exact ⟨ih.1, fun depth => by simp [Decl.postorderAll, Decl.postorder, ih.2]⟩

mutual

/-- In a well-formed procedure no scope has a name twice. -/
theorem ProcDecl.WellFormed.distinct :
    ∀ {level : Nat} {Γ : Context} {n n' : Nat} {q : ProcDecl Decl}
    {formals : List (ParamMode × Ty)}, ProcDecl.WellFormed level Γ n q formals n' →
    q.scopeNames.Nodup ∧ ∀ depth, ∀ x ∈ Decl.postorderAll depth q.decls, x.2.scopeNames.Nodup
  | _, _, _, _, _, _, .intro hparams hsections _ hprocedures _ => by
    obtain ⟨hextends, hno, hnested⟩ := Decl.ProceduresWellFormed.distinct hprocedures
    obtain ⟨hnone, hempty⟩ := hsections.no_procedures
    have hlocal :=
      (hsections.extends Decl.sectionNames Decl.SectionWellFormed.extends).trans hextends
    have hnodup := (hparams.extends.trans hlocal).nodup rfl
    constructor
    · rwa [ProcDecl.scopeNames, Decl.scopeNames_append hnone hno]
    · intro depth
      rw [Decl.postorderAll_append, hempty]
      exact hnested depth

/-- Well-formed procedures add their names, and no scope in them has a name twice. -/
theorem Decl.ProceduresWellFormed.distinct :
    ∀ {level : Nat} {Γ Γ' : Context} {n n' : Nat} {decls : List Decl},
    Decl.ProceduresWellFormed level Γ n decls Γ' n' →
    Γ.Extends (Decl.procedureNames decls) Γ' ∧ decls.flatMap Decl.sectionNames = [] ∧
      ∀ depth, ∀ x ∈ Decl.postorderAll depth decls, x.2.scopeNames.Nodup
  | _, Γ, _, _, _, _, .nil => ⟨.refl Γ, rfl, by simp [Decl.postorderAll]⟩
  | _, _, _, _, _, _, .cons hfresh hp hrest => by
    obtain ⟨hown, hnested⟩ := ProcDecl.WellFormed.distinct hp
    obtain ⟨hextends, hno, hothers⟩ := Decl.ProceduresWellFormed.distinct hrest
    refine ⟨(Context.Extends.declare hfresh _).trans hextends, hno, ?_⟩
    intro depth
    rw [Decl.postorderAll, Decl.postorder_procedure]
    refine List.forall_mem_append.mpr ⟨List.forall_mem_append.mpr ⟨hnested _, ?_⟩,
      hothers depth⟩
    exact List.forall_mem_singleton.mpr hown

end

/-- No name is declared twice in a scope of a well-formed program. -/
theorem Program.WellFormed.distinct {p : Program} (h : p.WellFormed) :
    ∀ x ∈ p.scopes, x.2.Nodup := by
  cases h with
  | intro hsections _ hprocedures _ =>
    obtain ⟨hextends, hno, hnested⟩ := hprocedures.distinct
    obtain ⟨hnone, hempty⟩ := hsections.no_procedures
    have hnodup := ((hsections.extends Decl.sectionNames Decl.SectionWellFormed.extends).trans
      hextends).nodup rfl
    refine List.forall_mem_append.mpr ⟨List.forall_mem_map.mpr ?_,
      List.forall_mem_singleton.mpr ?_⟩
    · rw [Decl.postorderAll_append, hempty]
      exact hnested 1
    · rwa [Decl.scopeNames_append hnone hno]

/-! ## Accepted programs -/

/-- An accepted program is well-formed. -/
theorem Program.wellFormed_of_analyze {p : Program} {a : Analysis} (h : p.analyze = .ok a) :
    p.WellFormed := by
  have hsound := p.check_sound
  unfold Check.Sound at hsound
  unfold Program.analyze at h
  cases hrun : p.check.run {} with
  | error e => simp [hrun] at h
  | ok r =>
    rw [hrun] at hsound
    exact hsound

/-- The symbols of a block have the names of its scope. -/
theorem Block.Laid.names {a : Analysis} {b : Block} (h : b.Laid a) :
    (b.closed.level, b.closed.entries.map a.symbols.name) = b.listed := by
  have hnames : b.scope.map (fun x => a.symbols.name x.2) = b.scope.map (·.1) :=
    List.map_congr_left fun x hx => (h.places.1 x hx).name
  simp [Block.closed, Block.listed, Function.comp_def, hnames]

/-- The closed scopes of an accepted program. There is one for each procedure of the tree, in
postorder, with the depth of the procedure as its level and the names that the procedure
declares; the main program's comes last. Together they have every symbol of the table exactly
once. In each the symbols stand in the order of their numbers under distinct names, variables
have the level of the scope, and procedures the next one. -/
theorem Program.closedScopes_partition {p : Program} {a : Analysis} (h : p.analyze = .ok a) :
    a.closedScopes.map (fun c => (c.level, c.entries.map a.symbols.name)) =
      (Decl.postorderAll 1 p.decls).map (fun x => (x.1, x.2.scopeNames)) ++
      [(0, Decl.scopeNames p.decls)] ∧
    a.closedScopes.flatMap (·.entries) ~ (List.range a.symbols.length).map SymbolId.mk ∧
    ∀ c ∈ a.closedScopes,
      c.entries.Pairwise (·.index < ·.index) ∧ (c.entries.map a.symbols.name).Nodup ∧
      ∀ id ∈ c.entries,
        (∀ v, a.symbols.variableAt? id = some v → v.level = c.level) ∧
        ∀ P, a.symbols.procedureAt? id = some P → P.level = c.level + 1 := by
  have hp := Program.analyzed_of_analyze h
  have hlisted :
      a.closedScopes.map (fun c => (c.level, c.entries.map a.symbols.name)) = p.scopes := by
    rw [hp.closed, List.map_map, ← p.listed_blocks]
    exact List.map_congr_left fun b hb => (hp.laid b hb).names
  refine ⟨hlisted, ?_, ?_⟩
  · rw [hp.closed, Program.length_symbols h, List.flatMap_map, List.range_eq_range']
    exact p.numbered_blocks
  · intro c hc
    have hdistinct := (Program.wellFormed_of_analyze h).distinct (c.level,
      c.entries.map a.symbols.name) (hlisted ▸ List.mem_map_of_mem hc)
    rw [hp.closed] at hc
    obtain ⟨b, hb, rfl⟩ := List.mem_map.mp hc
    refine ⟨p.ascending_blocks b hb, hdistinct, ?_⟩
    intro id hid
    obtain ⟨x, hx, rfl⟩ := List.mem_map.mp (List.mem_reverse.mp hid)
    have hplaces := (hp.laid b hb).places.1 x hx
    exact ⟨fun v hv => hplaces.var hv, fun P hP => (hplaces.proc hP).1⟩

/-- Of the nine symbols of the nesting program, the parameter of `count` comes last and is
closed first. -/
theorem Program.nesting_closedScopes_partition :
    ∃ a, Program.nesting.analyze = .ok a ∧ a.symbols.length = 9 ∧
      a.closedScopes.map (fun c => (c.level, c.entries.map a.symbols.name)) =
        [(2, ["k"]), (1, ["a", "b", "x", "count"]), (0, ["pair", "v", "n", "fill"])] ∧
      a.closedScopes.flatMap (·.entries) ~ (List.range 9).map SymbolId.mk := by
  obtain ⟨a, ha⟩ := Program.nesting_accepted
  obtain ⟨hlisted, hperm, _⟩ := Program.closedScopes_partition ha
  have hlength : a.symbols.length = 9 := (Program.length_symbols ha).trans (by decide +kernel)
  rw [hlength] at hperm
  exact ⟨a, ha, hlength, hlisted.trans (by decide +kernel), hperm⟩

end BlockLang
