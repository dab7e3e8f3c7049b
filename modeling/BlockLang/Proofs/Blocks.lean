import BlockLang.Proofs.Resolution
import BlockLang.Proofs.Scoping

/-!
# Blocks in a finished analysis

What the tables of an analysis say about the names that a body sees and about the frame of
a procedure: a symbol has the name that it was declared under and the level of its scope,
and the variables of a scope stand side by side in the frame, in the order of their
declaration.

* `Analysis.Lined`: variables stand side by side from an offset on, up to another one.
* `Layer.Lines`: between two layers of one scope lie variables that stand side by side.
  Every kind of declaration does this (`Layer.Declares.lines`, `ParamDecl.Resolved.lines`,
  `Decl.SectionsResolved.lines`).
* `Analysis.Places`: a symbol has its name and its level. `Block.Framed`, `Block.Laid` and
  `Block.Noted` collect what is known of the frame, of the variables and of the nodes of a
  block.

The inductions are over the judgements about declarations; what they have in common is
that `Layer.Lines` is reflexive and transitive.
-/

namespace BlockLang

/-! ## Variables side by side -/

/-- Words of the frame that a variable takes. -/
def Analysis.words (a : Analysis) (v : Variable) : Int :=
  Check.slotSize a.types v.type v.access

/-- The variables among symbols. -/
def Analysis.variables (a : Analysis) (ids : List SymbolId) : List Variable :=
  ids.filterMap a.symbols.variableAt?

/-- The variables of a level stand side by side in the frame, from the first offset up to the
second. -/
def Analysis.Lined (a : Analysis) (level : Nat) (start : Int) : List Variable → Int → Prop
  | [], stop => start = stop
  | v :: rest, stop => v.offset = start ∧ v.level = level ∧
      0 ≤ a.words v ∧ start + a.words v ≤ Word.greatest ∧
      a.Lined level (start + a.words v) rest stop

namespace Analysis

variable {a : Analysis} {level : Nat}

theorem variables_append (ids ids' : List SymbolId) :
    a.variables (ids ++ ids') = a.variables ids ++ a.variables ids' := List.filterMap_append

/-- Symbols that are no variables take no part in the frame. -/
theorem variables_eq_nil {ids : List SymbolId}
    (h : ∀ id ∈ ids, a.symbols.variableAt? id = none) :
    a.variables ids = [] := List.filterMap_eq_nil_iff.mpr h

theorem Lined.append {start mid stop : Int}
    {vs ws : List Variable} (h : a.Lined level start vs mid)
    (h' : a.Lined level mid ws stop) : a.Lined level start (vs ++ ws) stop := by
  induction vs generalizing start with
  | nil =>
    cases h
    exact h'
  | cons v rest ih =>
    obtain ⟨hoffset, hlevel, hwords, hbound, hrest⟩ := h
    exact ⟨hoffset, hlevel, hwords, hbound, ih hrest⟩

/-- Variables side by side can be parted anywhere. -/
theorem Lined.of_append {start stop : Int} {vs ws : List Variable}
    (h : a.Lined level start (vs ++ ws) stop) :
    ∃ mid, a.Lined level start vs mid ∧ a.Lined level mid ws stop := by
  induction vs generalizing start with
  | nil => exact ⟨start, rfl, h⟩
  | cons v rest ih =>
    obtain ⟨hoffset, hlevel, hwords, hbound, hrest⟩ := h
    obtain ⟨mid, hmid, hws⟩ := ih hrest
    exact ⟨mid, ⟨hoffset, hlevel, hwords, hbound, hmid⟩, hws⟩

/-- No variable takes a negative number of words. -/
theorem Lined.le {start stop : Int} {vs : List Variable} (h : a.Lined level start vs stop) :
    start ≤ stop := by
  induction vs generalizing start with
  | nil => exact Int.le_of_eq h
  | cons v rest ih =>
    obtain ⟨_, _, hwords, _, hrest⟩ := h
    exact Int.le_trans (Int.le_add_of_nonneg_right hwords) (ih hrest)

/-- Variables of one scope have one level. -/
theorem Lined.level_eq {start stop : Int} {vs : List Variable}
    (h : a.Lined level start vs stop) {v : Variable} (hv : v ∈ vs) : v.level = level := by
  induction vs generalizing start with
  | nil => cases hv
  | cons w rest ih =>
    obtain ⟨_, hlevel, _, _, hrest⟩ := h
    rcases List.mem_cons.mp hv with rfl | hv
    · exact hlevel
    · exact ih hrest hv

end Analysis

/-- The second layer has types and variables in front of the names of the first one; the
variables stand side by side. -/
def Layer.Lines (a : Analysis) (level : Nat) (l l' : Layer) : Prop :=
  ∃ added, l'.names = added ++ l.names ∧ (∀ x ∈ added, a.symbols.procedureAt? x.2 = none) ∧
    a.Lined level l.offset (a.variables (added.map (·.2)).reverse) l'.offset

namespace Layer

variable {a : Analysis} {level : Nat} {l l' l'' : Layer}

theorem Lines.refl (a : Analysis) (level : Nat) (l : Layer) : l.Lines a level l :=
  ⟨[], rfl, by simp, rfl⟩

theorem Lines.trans (h : l.Lines a level l') (h' : l'.Lines a level l'') :
    l.Lines a level l'' := by
  obtain ⟨added, hnames, hnone, hlined⟩ := h
  obtain ⟨added', hnames', hnone', hlined'⟩ := h'
  refine ⟨added' ++ added, by rw [hnames', hnames, List.append_assoc], fun x hx => ?_, ?_⟩
  · exact (List.mem_append.mp hx).elim (hnone' x) (hnone x)
  · rw [List.map_append, List.reverse_append, Analysis.variables_append]
    exact hlined.append hlined'

/-- A variable at the first free offset goes on with the line. -/
theorem Lines.var {Γ : Names} {offset : Int} {name : String} {id : SymbolId} {v : Variable}
    (hv : a.symbols.variableAt? id = some v)
    (hoffset : v.offset = offset) (hlevel : v.level = level)
    (hwords : 0 ≤ a.words v) (hfits : Word.Fits (offset + a.words v)) :
    Lines a level ⟨Γ, offset⟩ ⟨(name, id) :: Γ, offset + a.words v⟩ := by
  refine ⟨[(name, id)], rfl, by simpa using SymbolTable.procedureAt?_of_variableAt? hv, ?_⟩
  simp only [Analysis.variables, List.map_cons, List.map_nil, List.reverse_singleton,
    List.filterMap_cons, hv]
  exact ⟨hoffset, hlevel, hwords, hfits.2, rfl⟩

/-- A type leaves the line as it is. -/
theorem Lines.type {Γ : Names} {offset : Int} {name : String} {id : SymbolId} {type : TypeId}
    (htype : a.symbols.typeAt? id = some type) :
    Lines a level ⟨Γ, offset⟩ ⟨(name, id) :: Γ, offset⟩ := by
  refine ⟨[(name, id)], rfl, by simpa using SymbolTable.procedureAt?_of_typeAt? htype, ?_⟩
  simp [Analysis.variables, SymbolTable.variableAt?_of_typeAt? htype, Analysis.Lined]

/-- A group of variables stands side by side. -/
theorem Declares.lines {type : TypeId} {access : Access} {names : List Ident}
    (h : l.Declares a level type access names l') : l.Lines a level l' := by
  induction h with
  | nil => exact .refl ..
  | cons hv hwords hfits _ ih => exact (Lines.var hv rfl rfl hwords hfits).trans ih

end Layer

section

variable {a : Analysis} {level : Nat} {l l' : Layer}

/-- Parameters stand side by side. -/
theorem ParamDecl.Resolved.lines {params : List ParamDecl}
    (h : ParamDecl.Resolved a level l params l') :
    l.Lines a level l' := by
  induction h with
  | nil => exact .refl ..
  | cons hd _ ih =>
    obtain ⟨_, _, hdeclares⟩ := hd
    exact hdeclares.lines.trans ih

theorem VarDecl.Resolved.lines {decls : List VarDecl}
    (h : VarDecl.Resolved a level l decls l') :
    l.Lines a level l' := by
  induction h with
  | nil => exact .refl ..
  | cons hd _ ih =>
    obtain ⟨_, _, hdeclares⟩ := hd
    exact hdeclares.lines.trans ih

theorem TypeDecl.Resolved.lines {decls : List TypeDecl} (h : TypeDecl.Resolved a l decls l') :
    l.Lines a level l' := by
  induction h with
  | nil => exact .refl ..
  | cons _ hid _ ih => exact (Layer.Lines.type hid).trans ih

/-- The variables of all sections stand side by side. -/
theorem Decl.SectionsResolved.lines {decls : List Decl}
    (h : Decl.SectionsResolved a level l decls l') :
    l.Lines a level l' := by
  induction h with
  | nil => exact .refl ..
  | types htypes _ ih => exact htypes.lines.trans ih
  | vars hvars _ ih => exact hvars.lines.trans ih
  | procedure _ ih => exact ih

/-- The names that a group adds are all of variables with its type and access. -/
theorem Layer.Declares.variables {type : TypeId} {access : Access} {names : List Ident}
    (h : l.Declares a level type access names l') : ∃ added, l'.names = added ++ l.names ∧
      ∀ x ∈ added, ∃ v, a.symbols.variableAt? x.2 = some v ∧ v.level = level := by
  induction h with
  | nil => exact ⟨[], rfl, by simp⟩
  | @cons _ _ name _ id _ hv _ _ _ ih =>
    obtain ⟨added, hnames, hadded⟩ := ih
    refine ⟨added ++ [(name.name, id)], by simp [hnames], fun x hx => ?_⟩
    rcases List.mem_append.mp hx with hx | hx
    · exact hadded x hx
    · rw [List.mem_singleton.mp hx]
      exact ⟨_, hv, rfl⟩

/-- Every parameter is a variable of the procedure's level. -/
theorem ParamDecl.Resolved.variables {params : List ParamDecl}
    (h : ParamDecl.Resolved a level l params l') :
    ∃ added, l'.names = added ++ l.names ∧
      ∀ x ∈ added, ∃ v, a.symbols.variableAt? x.2 = some v ∧ v.level = level := by
  induction h with
  | nil => exact ⟨[], rfl, by simp⟩
  | cons hd _ ih =>
    obtain ⟨_, _, hdeclares⟩ := hd
    obtain ⟨first, hfirst, hvariables⟩ := hdeclares.variables
    obtain ⟨rest, hrest, hothers⟩ := ih
    refine ⟨rest ++ first, by rw [hrest, hfirst, List.append_assoc], fun x hx => ?_⟩
    exact (List.mem_append.mp hx).elim (hothers x) (hvariables x)

end

/-! ## Names in their scopes -/

/-- A name of a scope at the given level: its symbol has that name, a variable has that level,
and the body of a procedure has the next one, as have the procedure's parameters. -/
structure Analysis.Places (a : Analysis) (level : Nat) (x : String × SymbolId) : Prop where
  name : a.symbols.name x.2 = x.1
  var : ∀ {v}, a.symbols.variableAt? x.2 = some v → v.level = level
  proc : ∀ {P}, a.symbols.procedureAt? x.2 = some P → P.level = level + 1 ∧
    ∀ id ∈ P.params, ∃ v, a.symbols.variableAt? id = some v ∧ v.level = level + 1

/-- The types and variables of a scope. -/
theorem Layer.Lines.places {a : Analysis} {level : Nat}
    {l l' : Layer} (h : l.Lines a level l') {own : Names}
    (hown : l'.names = own ++ l.names) (hname : ∀ x ∈ own, a.symbols.name x.2 = x.1) :
    ∀ x ∈ own, a.Places level x := by
  obtain ⟨added, hnames, hnone, hlined⟩ := h
  rw [hown] at hnames
  cases List.append_cancel_right hnames
  refine fun x hx => ⟨hname x hx, fun {v} hv => ?_, fun {P} hP => ?_⟩
  · refine hlined.level_eq (List.mem_filterMap.mpr ⟨x.2, ?_, hv⟩)
    exact List.mem_reverse.mpr (List.mem_map_of_mem hx)
  · rw [hnone x hx] at hP
    cases hP

/-- Procedures that are declared behind the variables of a scope do not change the frame. -/
theorem Layer.Lines.lined {a : Analysis} {level : Nat} {l l' : Layer} (h : l.Lines a level l')
    {own added : Names} (hown : l'.names = own ++ l.names)
    (hadded : ∀ x ∈ added, a.symbols.variableAt? x.2 = none) :
    a.Lined level l.offset (a.variables ((added ++ own).map (·.2)).reverse) l'.offset := by
  obtain ⟨own', hnames, _, hlined⟩ := h
  rw [hown] at hnames
  cases List.append_cancel_right hnames
  have hnone : a.variables (added.map (·.2)).reverse = [] := by
    refine Analysis.variables_eq_nil fun id hid => ?_
    obtain ⟨x, hx, rfl⟩ := List.mem_map.mp (List.mem_reverse.mp hid)
    exact hadded x hx
  rwa [List.map_append, List.reverse_append, Analysis.variables_append, hnone,
    List.append_nil]

/-- Nested scopes, from the inside out. -/
def Analysis.PlacesAll (a : Analysis) : List Names → Prop
  | [] => True
  | scope :: outer => (∀ x ∈ scope, a.Places outer.length x) ∧ a.PlacesAll outer

/-- A name that is visible belongs to one of the scopes, whose level it has. -/
theorem Analysis.PlacesAll.mem {a : Analysis} {scopes : List Names} (h : a.PlacesAll scopes)
    {x : String × SymbolId} (hx : x ∈ scopes.flatten) :
    ∃ i scope, scopes[i]? = some scope ∧ x ∈ scope ∧
    a.Places (scopes.length - (i + 1)) x := by
  induction scopes with
  | nil => cases hx
  | cons scope outer ih =>
    rcases List.mem_append.mp hx with hx | hx
    · exact ⟨0, scope, rfl, hx, h.1 x hx⟩
    · obtain ⟨i, scope', hget, hmem, hplaces⟩ := ih h.2 hx
      refine ⟨i + 1, scope', hget, hmem, ?_⟩
      rwa [List.length_cons, Nat.add_sub_add_right]

/-! ## Blocks -/

/-- The frame of a procedure. Its parameters come first among the symbols of its scope. -/
structure Block.Framed (a : Analysis) (b : Block) (id : SymbolId) (q : ProcDecl Decl)
    (P : Procedure) : Prop where
  symbol : a.symbols.get? id = some ⟨q.name.name, .proc P, q.name.span⟩
  level : P.level = b.level
  leading : P.params <+: b.closed.entries
  isVariable : ∀ id ∈ P.params, ∃ v, a.symbols.variableAt? id = some v
  named : P.params.map a.symbols.name = ParamDecl.namesAll q.params
  lined : a.Lined b.level Frame.headerSize (a.variables b.closed.entries) P.displayBase
  frameSize : P.frameSize = P.displayBase + b.level + 1
  bound : P.frameSize ≤ Word.greatest

/-- What holds of a block whatever the identities of the nodes are. -/
structure Block.Laid (a : Analysis) (b : Block) : Prop where
  places : a.PlacesAll (b.scope :: b.outer)
  framed : ∀ {id q}, b.owner = some (id, q) → ∃ P, b.Framed a id q P

/-- The nodes of a block are annotated with what they denote. -/
structure Block.Noted (a : Analysis) (b : Block) : Prop where
  body : ∀ s ∈ b.body, s.Resolved a b.names b.level
  owner : ∀ {id q}, b.owner = some (id, q) → a.annotations.symbol? q.node = some id

end BlockLang
