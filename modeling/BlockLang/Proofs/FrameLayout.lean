import BlockLang.Proofs.Elaboration

/-!
# The layout of frames

The variables of a scope fill its frame without gaps: they follow the header, in the order
of their declaration, and the display follows them. So every word of a frame has one use.
The frame of a procedure is fixed by its header and its sections; whatever is nested in
the procedure, and whatever its body does, comes too late to change it.

`Program.frames_tile` says all this of an accepted program.

* Tilings: `Tiles lo hi spans` says that spans lie apart in order and are together all of
  `[lo, hi)`. Variables that follow each other tile their part of the frame
  (`Analysis.Lined.tiles`), and with header and display the whole of it
  (`Block.Framed.tiles`). An empty variable has an empty span, and does no harm.
* Independence: two runs of the analysis on programs that differ in one procedure, in what
  is nested in it and in its body (`Decl.Varies`), are followed in parallel. They are in
  the same state when they come to the procedure, and its sections and header are the same
  (`Check.header_eq`), so they leave the same symbol and the same variables behind
  (`Decl.checkProcedure_fixes`). `CheckState.Fixes` names what they leave behind, and it
  stays as the tables grow (`CheckState.Fixes.mono`). The induction is over the path from
  the program to the procedure (`Decl.Varies.fixes`).
-/

namespace BlockLang

open Check

/-! ## Tilings -/

/-- The spans lie apart, one behind the other, and together they are all of `[lo, hi)`. -/
structure Tiles (lo hi : Int) (spans : List (Int × Int)) : Prop where
  inside : ∀ x ∈ spans, lo ≤ x.1 ∧ x.1 ≤ x.2 ∧ x.2 ≤ hi
  apart : spans.Pairwise fun x y => x.2 ≤ y.1
  covers : ∀ i, lo ≤ i → i < hi → ∃ x ∈ spans, x.1 ≤ i ∧ i < x.2

namespace Tiles

theorem nil (lo : Int) : Tiles lo lo [] where
  inside _ hx := by cases hx
  apart := .nil
  covers i hlo hhi := absurd hlo (Int.not_le.mpr hhi)

theorem cons {lo mid hi : Int} {spans : List (Int × Int)}
    (h : Tiles mid hi spans) (hlo : lo ≤ mid) (hhi : mid ≤ hi) :
    Tiles lo hi ((lo, mid) :: spans) where
  inside x hx := by
    rcases List.mem_cons.mp hx with rfl | hx
    · exact ⟨Int.le_refl _, hlo, hhi⟩
    · obtain ⟨hmid, hspan, hend⟩ := h.inside x hx
      exact ⟨Int.le_trans hlo hmid, hspan, hend⟩
  apart := List.pairwise_cons.mpr ⟨fun x hx => (h.inside x hx).1, h.apart⟩
  covers i hi hi' := by
    by_cases hmid : i < mid
    · exact ⟨(lo, mid), List.mem_cons_self, hi, hmid⟩
    · obtain ⟨x, hx, hspan⟩ := h.covers i (Int.not_lt.mp hmid) hi'
      exact ⟨x, List.mem_cons_of_mem _ hx, hspan⟩

theorem singleton {lo hi : Int} (h : lo ≤ hi) : Tiles lo hi [(lo, hi)] :=
  (nil hi).cons h (Int.le_refl _)

end Tiles

/-- The words of a frame that variables take, each from its first word to the word behind its
last one. -/
def Analysis.spans (a : Analysis) (vs : List Variable) : List (Int × Int) :=
  vs.map fun v => (v.offset, v.offset + a.words v)

/-- Variables that stand side by side tile their part of the frame, in front of whatever tiles
the rest. -/
theorem Analysis.Lined.tiles {a : Analysis} {level : Nat}
    {start stop hi : Int} {vs : List Variable} {rest : List (Int × Int)}
    (h : a.Lined level start vs stop) (hrest : Tiles stop hi rest) (hhi : stop ≤ hi) :
    Tiles start hi (a.spans vs ++ rest) := by
  induction vs generalizing start with
  | nil =>
    cases h
    exact hrest
  | cons v vs ih =>
    obtain ⟨rfl, _, hwords, _, hlined⟩ := h
    exact (ih hlined).cons (Int.le_add_of_nonneg_right hwords) (Int.le_trans hlined.le hhi)

/-- Header, variables and display of a procedure. -/
theorem Block.Framed.tiles {a : Analysis} {b : Block} {id : SymbolId} {q : ProcDecl Decl}
    {P : Procedure} (h : b.Framed a id q P) : Tiles 0 P.frameSize ((0, Frame.headerSize) ::
      (a.spans (a.variables b.closed.entries) ++ [(P.displayBase, P.frameSize)])) := by
  have hle := h.lined.le
  have hsize := h.frameSize
  have hdisplay : P.displayBase ≤ P.frameSize := by omega
  exact (h.lined.tiles (.singleton hdisplay) hdisplay).cons (by decide)
    (Int.le_trans hle hdisplay)

/-! ## What a layout depends on -/

/-- The sections of a declaration part. -/
def Decl.sections (decls : List Decl) : List Decl := decls.filter (·.asProcedure?.isNone)

/-- Procedures are no sections. -/
@[simp] theorem Decl.sections_procedure (p : ProcDecl Decl) (rest : List Decl) :
    Decl.sections (.procedure p :: rest) = Decl.sections rest := rfl

/-- Procedures are not among the names of the sections. -/
theorem Decl.flatMap_sectionNames (decls : List Decl) :
    (Decl.sections decls).flatMap Decl.sectionNames = decls.flatMap Decl.sectionNames := by
  induction decls with
  | nil => rfl
  | cons d rest ih =>
    cases d with
    | procedure p => simpa [Decl.sectionNames] using ih
    | types decls span => exact congrArg (_ ++ ·) ih
    | vars decls span => exact congrArg (_ ++ ·) ih

/-- The check of sections passes procedures by. -/
theorem Decl.checkSections_sections :
    ∀ {decls : List Decl} {afterProcedure : Bool} {s s' : CheckState} {u : Unit},
    (Decl.checkSections afterProcedure decls).run s = .ok (u, s') →
    (Decl.checkSections false (Decl.sections decls)).run s = .ok (u, s')
  | [], _, _, _, _, h => h
  | .procedure p :: rest, _, s, s', _, h => by
    rw [Decl.checkSections] at h
    rw [Decl.sections_procedure]
    exact Decl.checkSections_sections h
  | .types decls span :: rest, _, s, s', _, h => by
    obtain ⟨s₁, hd, hrest⟩ := Decl.checkSections_types_ok h
    show ((decls.forM TypeDecl.check) >>= fun _ =>
      Decl.checkSections false (Decl.sections rest)).run s = _
    rw [run_bind_of_ok hd]
    exact Decl.checkSections_sections hrest
  | .vars decls span :: rest, _, s, s', _, h => by
    obtain ⟨s₁, hd, hrest⟩ := Decl.checkSections_vars_ok h
    show ((decls.forM VarDecl.check) >>= fun _ =>
      Decl.checkSections false (Decl.sections rest)).run s = _
    rw [run_bind_of_ok hd]
    exact Decl.checkSections_sections hrest

/-- Declaration parts with the same sections lead to the same state. -/
theorem Decl.checkSections_eq {decls decls' : List Decl} {s t t' : CheckState} {u u' : Unit}
    (hsections : Decl.sections decls = Decl.sections decls')
    (h : (Decl.checkSections false decls).run s = .ok (u, t))
    (h' : (Decl.checkSections false decls').run s = .ok (u', t')) : t = t' := by
  have h₁ := Decl.checkSections_sections h
  have h₂ := Decl.checkSections_sections h'
  rw [hsections, h₂] at h₁
  cases h₁
  rfl

/-- The same header and the same sections lead to the same state. -/
theorem Check.header_eq {node : NodeId} {name : Ident} {params : List ParamDecl}
    {decls decls' : List Decl} {s t t' : CheckState} {u u' : Unit}
    (hsections : Decl.sections decls = Decl.sections decls')
    (h : (header node name params decls).run s = .ok (u, t))
    (h' : (header node name params decls').run s = .ok (u', t')) : t = t' := by
  obtain ⟨id, s₁, s₂, hopen, hdecls, hfix⟩ := header_ok h
  obtain ⟨id', s₁', s₂', hopen', hdecls', hfix'⟩ := header_ok h'
  rw [hopen] at hopen'
  cases hopen'
  cases Decl.checkSections_eq hsections hdecls hdecls'
  rw [hfix] at hfix'
  cases hfix'
  rfl

/-- Whatever is checked after the state, the frame of a procedure's block stays as it is. -/
def CheckState.Fixes (s : CheckState) (b : Block) (id : SymbolId) (P : Option Procedure)
    (vs : List Variable) : Prop :=
  ∀ a : Analysis, s.types ≤ a.types → s.symbols ≤ a.symbols →
    a.symbols.procedureAt? id = P ∧ a.variables b.closed.entries = vs

/-- What is fixed stays as the tables grow. -/
theorem CheckState.Fixes.mono {s s' : CheckState} {b : Block} {id : SymbolId}
    {P : Option Procedure} {vs : List Variable} (h : s.Fixes b id P vs)
    (htypes : s.types ≤ s'.types) (hsymbols : s.symbols ≤ s'.symbols) :
    s'.Fixes b id P vs :=
  fun a ht hσ => h a (TypeTable.le_trans htypes ht) (SymbolTable.le_trans hsymbols hσ)

section

variable {s s' : CheckState} {scope : Names} {outer : List Names} {q : ProcDecl Decl}
    {u : Unit}

/-- The names in the scope of a procedure before its nested procedures are declared,
numbered. -/
def ProcDecl.ownNames (next : Nat) (q : ProcDecl Decl) : Names :=
  Names.number (next + 1) (ParamDecl.namesAll q.params ++ q.decls.flatMap Decl.sectionNames)

/-- What happens when a procedure is checked: its frame is fixed in the state `t`, before what
is nested in it. -/
theorem Decl.checkProcedure_parts (hs : s.Ready scope outer)
    (h : (Decl.procedure q).checkProcedure.run s = .ok (u, s')) :
    ∃ t s₂, (header q.node q.name q.params q.decls).run s = .ok ((), t) ∧
      t.Ready (q.ownNames s.symbols.length)
      (((q.name.name, ⟨s.symbols.length⟩) :: scope) :: outer) ∧
      t.symbols.length = s.symbols.length + 1 + (q.ownNames s.symbols.length).length ∧
      (Decl.checkProcedures q.decls).run t = .ok ((), s₂) ∧ s₂.types ≤ s'.types ∧
      s₂.symbols ≤ s'.symbols := by
  obtain ⟨node, name, params, decls, body, span⟩ := q
  obtain ⟨t, s₂, s₃, hheader, hnested, hbody, hclose⟩ := Decl.checkProcedure_ok h
  obtain ⟨displayBase, offset, _, hopened⟩ := header_opens hs.tidy hs.shows hheader
  have helaborates := Decl.checkProcedures_elaborates decls (hopened.ready hs) hnested
  have hsettles := Stmt.checkAll_settles body helaborates.ready.shows.finds rfl hbody
  obtain ⟨_, _, _, rfl⟩ := closeProcedure_ok hclose
  refine ⟨t, s₂, hheader, hopened.ready hs, ?_, hnested, hsettles.moves.types,
    hsettles.moves.symbols⟩
  rw [hopened.length, ProcDecl.ownNames, Names.length_number]

/-- A table that grows has the same variables below its old end. -/
theorem SymbolTable.variableAt?_eq_of_lt {σ σ' : SymbolTable}
    (h : σ ≤ σ') {id : SymbolId} (hid : id.index < σ.length) :
    σ'.variableAt? id = σ.variableAt? id := by
  have hget : σ.get? id = some _ := Array.getElem?_eq_getElem hid
  rw [variableAt?, variableAt?, hget, h _ _ hget]

/-- A table that grows has the same procedures below its old end. -/
theorem SymbolTable.procedureAt?_eq_of_lt {σ σ' : SymbolTable}
    (h : σ ≤ σ') {id : SymbolId} (hid : id.index < σ.length) :
    σ'.procedureAt? id = σ.procedureAt? id := by
  have hget : σ.get? id = some _ := Array.getElem?_eq_getElem hid
  rw [procedureAt?, procedureAt?, hget, h _ _ hget]

/-- The frame is the one that the state behind the header gives. -/
theorem Decl.checkProcedure_fixes (hs : s.Ready scope outer)
    (h : (Decl.procedure q).checkProcedure.run s = .ok (u, s')) :
    ∃ t, (header q.node q.name q.params q.decls).run s = .ok ((), t) ∧
      ∃ b ∈ (Decl.outline outer scope s.symbols.length (.procedure q)).blocks,
        b.owner = some (⟨s.symbols.length⟩, q) ∧
        s'.Fixes b ⟨s.symbols.length⟩ (t.symbols.procedureAt? ⟨s.symbols.length⟩)
          (((q.ownNames s.symbols.length).map (·.2)).reverse.filterMap
            t.symbols.variableAt?) := by
  obtain ⟨t, s₂, hheader, hready, hlength, hnested, htypes, hsymbols⟩ :=
    Decl.checkProcedure_parts hs h
  have helaborates := Decl.checkProcedures_elaborates q.decls hready hnested
  have hlength' := hlength
  rw [ProcDecl.ownNames, Names.length_number] at hlength'
  rw [hlength', ProcDecl.ownNames] at helaborates
  obtain ⟨added, hscope, hadded⟩ := helaborates.procedures
  rw [Decl.outline_procedure]
  refine ⟨t, hheader, _, List.mem_append_right _ (List.mem_singleton_self _), rfl,
    fun a _ hσ => ?_⟩
  have hle : s₂.symbols ≤ a.symbols := SymbolTable.le_trans hsymbols hσ
  have hle' : t.symbols ≤ a.symbols := SymbolTable.le_trans helaborates.moves.symbols hle
  refine ⟨SymbolTable.procedureAt?_eq_of_lt hle' (by show s.symbols.length < _; omega), ?_⟩
  have hnone : a.variables (added.map (·.2)).reverse = [] := by
    refine Analysis.variables_eq_nil fun id hid => ?_
    obtain ⟨x, hx, rfl⟩ := List.mem_map.mp (List.mem_reverse.mp hid)
    obtain ⟨p, hp⟩ := hadded x hx
    exact SymbolTable.variableAt?_of_procedureAt? (SymbolTable.procedureAt?_mono hle hp)
  show a.variables (List.map _ _).reverse = _
  rw [hscope, List.map_append, List.reverse_append, Analysis.variables_append, hnone,
    List.append_nil]
  refine List.filterMap_congr fun id hid => SymbolTable.variableAt?_eq_of_lt hle' ?_
  obtain ⟨x, hx, rfl⟩ := List.mem_map.mp (List.mem_reverse.mp hid)
  obtain ⟨hle, hget⟩ := Names.mem_number hx
  have hlt := (List.getElem?_eq_some_iff.mp hget).1
  omega

/-- Procedures that stand behind one leave what was found out about it. -/
theorem Decl.checkProcedures_moves {d : Decl} {rest : List Decl} {t : CheckState} {u' : Unit}
    (hs : s.Ready scope outer) (hd : d.checkProcedure.run s = .ok (u, t))
    (hrest : (Decl.checkProcedures rest).run t = .ok (u', s')) :
    t.Moves (Decl.nodesAll rest) s' :=
  (Decl.checkProcedures_elaborates rest (Decl.checkProcedure_elaborates d hs hd).ready
    hrest).moves

end

/-- Two declaration parts that differ in one procedure, however deep it is nested: where `q`
stands in the first one, `q'` stands in the second. -/
inductive Decl.Varies (q q' : ProcDecl Decl) : List Decl → List Decl → Prop where
  | here {rest} : Decl.Varies q q' (.procedure q :: rest) (.procedure q' :: rest)
  | inside {r : ProcDecl Decl} {decls rest} : Decl.Varies q q' r.decls decls →
      Decl.Varies q q' (.procedure r :: rest) (.procedure { r with decls } :: rest)
  | behind {d rest rest'} : Decl.Varies q q' rest rest' →
    Decl.Varies q q' (d :: rest) (d :: rest')

/-- The sections around a procedure that varies are the same. -/
theorem Decl.Varies.sections_eq {q q' : ProcDecl Decl}
    {decls decls' : List Decl} (h : Decl.Varies q q' decls decls') :
    Decl.sections decls = Decl.sections decls' := by
  induction h with
  | here => rfl
  | inside _ _ => rfl
  | behind _ ih =>
    simp only [Decl.sections, List.filter_cons] at ih ⊢
    rw [ih]

/-- Procedures that differ in what is nested in them and in their bodies get the same frame,
wherever they stand. -/
theorem Decl.Varies.fixes {q q' : ProcDecl Decl}
    {decls decls' : List Decl} (h : Decl.Varies q q' decls decls')
    (hnode : q.node = q'.node) (hname : q.name = q'.name) (hparams : q.params = q'.params)
    (hsections : Decl.sections q.decls = Decl.sections q'.decls) :
    ∀ {s s₁ s₂ : CheckState} {scope : Names} {outer : List Names}, s.Ready scope outer →
      (Decl.checkProcedures decls).run s = .ok ((), s₁) →
      (Decl.checkProcedures decls').run s = .ok ((), s₂) →
      ∃ b ∈ (Decl.outlineAll outer scope s.symbols.length decls).blocks,
      ∃ b' ∈ (Decl.outlineAll outer scope s.symbols.length decls').blocks,
      ∃ id P vs, b.owner = some (id, q) ∧ b'.owner = some (id, q') ∧ s₁.Fixes b id P vs ∧
      s₂.Fixes b' id P vs := by
  induction h with
  | here =>
    intro s s₁ s₂ scope outer hs hrun hrun'
    obtain ⟨t₁, hq, hrest⟩ := Decl.checkProcedures_cons_ok hrun
    obtain ⟨t₂, hq', hrest'⟩ := Decl.checkProcedures_cons_ok hrun'
    obtain ⟨t, hheader, b, hb, howner, hfixes⟩ := Decl.checkProcedure_fixes hs hq
    obtain ⟨t', hheader', b', hb', howner', hfixes'⟩ := Decl.checkProcedure_fixes hs hq'
    rw [← hnode, ← hname, ← hparams] at hheader'
    -- Both runs check one header and the same sections, in one state.
    cases header_eq hsections hheader hheader'
    have hown : q'.ownNames s.symbols.length = q.ownNames s.symbols.length := by
      rw [ProcDecl.ownNames, ProcDecl.ownNames,
        hparams, ← Decl.flatMap_sectionNames, ← hsections, Decl.flatMap_sectionNames]
    rw [hown] at hfixes'
    have hmoves := Decl.checkProcedures_moves hs hq hrest
    have hmoves' := Decl.checkProcedures_moves hs hq' hrest'
    exact ⟨b, List.mem_append_left _ hb, b',
      List.mem_append_left _ hb', _, _, _, howner, howner',
      hfixes.mono hmoves.types hmoves.symbols, hfixes'.mono hmoves'.types hmoves'.symbols⟩
  | @inside r decls rest hvaries ih =>
    intro s s₁ s₂ scope outer hs hrun hrun'
    obtain ⟨t₁, hr, hrest⟩ := Decl.checkProcedures_cons_ok hrun
    obtain ⟨t₂, hr', hrest'⟩ := Decl.checkProcedures_cons_ok hrun'
    obtain ⟨t, u₁, hheader, hready, hlength, hnested, htypes, hsymbols⟩ :=
      Decl.checkProcedure_parts hs hr
    obtain ⟨t', u₂, hheader', _, _, hnested', htypes', hsymbols'⟩ :=
      Decl.checkProcedure_parts hs hr'
    -- The procedure around has one header in both runs, so they go on from one state.
    cases header_eq hvaries.sections_eq hheader hheader'
    obtain ⟨b, hb, b', hb', id, P, vs, howner, howner', hfixes, hfixes'⟩ :=
      ih hready hnested hnested'
    have hmoves := Decl.checkProcedures_moves hs hr hrest
    have hmoves' := Decl.checkProcedures_moves hs hr' hrest'
    have hnames : decls.flatMap Decl.sectionNames = r.decls.flatMap Decl.sectionNames := by
      rw [← Decl.flatMap_sectionNames, ← hvaries.sections_eq, Decl.flatMap_sectionNames]
    rw [hlength, ProcDecl.ownNames, Names.length_number] at hb hb'
    refine ⟨b, List.mem_append_left _ ?_, b', List.mem_append_left _ ?_, id, P, vs, howner,
      howner', hfixes.mono (TypeTable.le_trans htypes hmoves.types) (SymbolTable.le_trans
        hsymbols hmoves.symbols), hfixes'.mono (TypeTable.le_trans htypes' hmoves'.types)
      (SymbolTable.le_trans hsymbols' hmoves'.symbols)⟩
    · rw [Decl.outline_procedure]
      exact List.mem_append_left _ hb
    · rw [Decl.outline_procedure]
      refine List.mem_append_left _ ?_
      simp only [hnames]
      exact hb'
  | @behind d rest rest' _ ih =>
    intro s s₁ s₂ scope outer hs hrun hrun'
    obtain ⟨t, hd, hrest⟩ := Decl.checkProcedures_cons_ok hrun
    obtain ⟨t', hd', hrest'⟩ := Decl.checkProcedures_cons_ok hrun'
    -- What stands in front is the same in both runs, and so is the state behind it.
    rw [hd] at hd'
    cases hd'
    have helaborates := Decl.checkProcedure_elaborates d hs hd
    obtain ⟨b, hb, b', hb', hsame⟩ := ih helaborates.ready hrest hrest'
    rw [helaborates.next] at hb hb'
    exact ⟨b, List.mem_append_right _ hb, b', List.mem_append_right _ hb', hsame⟩

/-! ## Accepted programs -/

/-- The frames of an accepted program. Every procedure has a closed scope, and the main
program has the last one. The variables of a scope stand side by side in the frame: behind the
header, parameters first, and up to the display. The main program's frame has no header. If
two accepted programs differ only in what is nested in one procedure and in its body, then
this procedure has the same frame in both. -/
theorem Program.frames_tile {p : Program} {a : Analysis} (h : p.analyze = .ok a) :
    a.closedScopes = p.blocks.map Block.closed ∧
    (∀ b ∈ p.blocks, ∀ id q, b.owner = some (id, q) → ∃ P : Procedure,
      a.symbols.get? id = some ⟨q.name.name, .proc P, q.name.span⟩ ∧ P.level = b.level ∧
      P.params <+: b.closed.entries ∧
      (∀ param ∈ P.params, ∃ v, a.symbols.variableAt? param = some v) ∧
      P.params.map a.symbols.name = ParamDecl.namesAll q.params ∧
      a.Lined b.level Frame.headerSize (a.variables b.closed.entries) P.displayBase ∧
      P.frameSize = P.displayBase + b.level + 1 ∧ P.frameSize ≤ Word.greatest ∧
      Tiles 0 P.frameSize ((0, Frame.headerSize) ::
        (a.spans (a.variables b.closed.entries) ++ [(P.displayBase, P.frameSize)]))) ∧
    (a.Lined 0 0 (a.variables p.mainBlock.closed.entries) a.mainDisplayBase ∧
        a.mainDisplayBase < Word.greatest ∧
      Tiles 0 (a.mainDisplayBase + 1) (a.spans (a.variables p.mainBlock.closed.entries) ++
        [(a.mainDisplayBase, a.mainDisplayBase + 1)])) ∧
    (∀ (q : ProcDecl Decl) (decls : List Decl) (body : List Stmt) (p' : Program)
      (a' : Analysis),
      Decl.sections q.decls = Decl.sections decls →
      Decl.Varies q { q with decls, body } p.decls p'.decls → p'.analyze = .ok a' →
      ∃ b ∈ p.blocks, ∃ b' ∈ p'.blocks, ∃ id, b.owner = some (id, q) ∧
      b'.owner = some (id, { q with decls, body }) ∧
        a.symbols.procedureAt? id = a'.symbols.procedureAt? id ∧
        a.variables b.closed.entries = a'.variables b'.closed.entries) := by
  have hp := Program.analyzed_of_analyze h
  refine ⟨hp.closed, fun b hb id q howner => ?_, ⟨hp.lined, hp.bound, ?_⟩, ?_⟩
  · obtain ⟨P, hframed⟩ := (hp.laid b hb).framed howner
    exact ⟨P, hframed.symbol, hframed.level, hframed.leading, hframed.isVariable,
      hframed.named, hframed.lined, hframed.frameSize, hframed.bound, hframed.tiles⟩
  · have hle : a.mainDisplayBase ≤ a.mainDisplayBase + 1 := by omega
    exact hp.lined.tiles (.singleton hle) hle
  · intro q decls body p' a' hsections hvaries h'
    obtain ⟨s₁, s₂, s₃, hmain, _, hprocedures, hbody, ha⟩ := Program.analyze_ok h
    obtain ⟨t₁, t₂, t₃, hmain', _, hprocedures', hbody', ha'⟩ := Program.analyze_ok h'
    -- The sections of the main program are the same, so both analyses are in one state before
    -- the first procedure.
    cases Decl.checkSections_eq hvaries.sections_eq hmain hmain'
    obtain ⟨hdeclares, hready⟩ := Decl.checkSections_main hmain
    have hlength : s₁.symbols.length = (p.decls.flatMap Decl.sectionNames).length :=
      hdeclares.length.trans (Nat.zero_add _)
    have hnames : p'.decls.flatMap Decl.sectionNames = p.decls.flatMap Decl.sectionNames := by
      rw [← Decl.flatMap_sectionNames, ← hvaries.sections_eq, Decl.flatMap_sectionNames]
    obtain ⟨b, hb, b', hb', id, P, vs, howner, howner', hfixes, hfixes'⟩ :=
      hvaries.fixes rfl rfl rfl hsections hready hprocedures hprocedures'
    have hsettles := Stmt.checkAll_settles p.body
      (Decl.checkProcedures_elaborates _ hready hprocedures).ready.shows.finds rfl hbody
    have hsettles' := Stmt.checkAll_settles p'.body
      (Decl.checkProcedures_elaborates _ hready hprocedures').ready.shows.finds rfl hbody'
    obtain ⟨hP, hvs⟩ := hfixes a (by rw [ha]; exact hsettles.moves.types)
      (by rw [ha]; exact hsettles.moves.symbols)
    obtain ⟨hP', hvs'⟩ := hfixes' a' (by rw [ha']; exact hsettles'.moves.types)
      (by rw [ha']; exact hsettles'.moves.symbols)
    rw [hlength] at hb hb'
    rw [← hnames] at hb'
    exact ⟨b, List.mem_append_left _ hb, b', List.mem_append_left _ hb', id, howner, howner',
      hP.trans hP'.symm, hvs.trans hvs'.symm⟩

/-- The nesting program with nothing in `fill` but its variable. -/
def Program.nestingShell : Program :=
  { Program.nesting with decls := Program.nesting.decls.map fun
      | .procedure q => .procedure { q with decls := Decl.sections q.decls, body := [] }
      | d => d }

/-- In the frame of `fill` an array of two words, a pointer and a local variable stand between
the header and the display, with or without the procedure that is nested in `fill`. -/
theorem Program.nesting_frames_tile :
    ∃ a a' id P, Program.nesting.analyze = .ok a ∧ Program.nestingShell.analyze = .ok a' ∧
      a.symbols.name id = "fill" ∧ a.symbols.procedureAt? id = some P ∧
      a'.symbols.procedureAt? id = some P ∧
      P.frameSize = 13 ∧ Tiles 0 13 [(0, 7), (7, 9), (9, 10), (10, 11), (11, 13)] := by
  have hcheck : (match Program.nesting.analyze with
      | .ok a => Program.nesting.blocks.all fun b => match b.owner with
        | some (id, q) => q.name.name != "fill" ||
          decide (a.spans (a.variables b.closed.entries) = [(7, 9), (9, 10), (10, 11)] ∧
            (a.symbols.procedureAt? id).map (fun P => (P.displayBase, P.frameSize)) =
            some (11, 13))
        | none => true
      | .error _ => false) = true := by decide +kernel
  have hcheck' : Program.nestingShell.analyze.isOk = true := by decide +kernel
  cases ha : Program.nesting.analyze with
  | error e => simp [ha] at hcheck
  | ok a =>
    cases ha' : Program.nestingShell.analyze with
    | error e => simp [ha', Except.isOk, Except.toBool] at hcheck'
    | ok a' =>
      obtain ⟨d, d', q, hdecls, hshell, hname⟩ :
        ∃ d d' q, Program.nesting.decls = [d, d', .procedure q] ∧ Program.nestingShell.decls =
        [d, d', .procedure { q with decls := Decl.sections q.decls, body := [] }] ∧
        q.name.name = "fill" := ⟨_, _, _, rfl, rfl, rfl⟩
      have hvaries : Decl.Varies q { q with decls := Decl.sections q.decls, body := [] }
          Program.nesting.decls Program.nestingShell.decls := by
        rw [hdecls, hshell]
        exact .behind (.behind .here)
      obtain ⟨_, hframes, _, hsame⟩ := Program.frames_tile ha
      obtain ⟨b, hb, b', _, id, howner, _, hP, _⟩ :=
        hsame q _ [] Program.nestingShell a' (by simp [Decl.sections]) hvaries ha'
      obtain ⟨P, hsymbol, _, _, _, _, _, _, _, htiles⟩ := hframes b hb id q howner
      have hat : a.symbols.procedureAt? id = some P :=
        SymbolTable.procedureAt?_of_get? hsymbol
      simp only [ha, List.all_eq_true] at hcheck
      have hfill := hcheck b hb
      simp only [howner, hname, bne_self_eq_false, Bool.false_or, decide_eq_true_eq, hat,
        Option.map_some, Option.some.injEq, Prod.mk.injEq] at hfill
      obtain ⟨hspans, hbase, hsize⟩ := hfill
      rw [hspans, hbase, hsize] at htiles
      refine ⟨a, a', id, P, rfl, rfl, ?_, hat, hP ▸ hat, hsize, htiles⟩
      simp [SymbolTable.name, hsymbol, hname]

end BlockLang
