import BlockLang.Proofs.Blocks
import BlockLang.Proofs.CheckInversion
import BlockLang.Proofs.Representation

/-!
# Accepted programs are resolved

If a program with distinct node identities is accepted, its finished analysis makes it a
resolved program. A check that has succeeded knows this of the state it leaves; later
checks add types and symbols and annotate nodes of other parts of the tree, and so what
was found out stays true until the analysis ends. Each lemma therefore speaks of every
analysis in which the state that a check leaves has a future.

* `CheckState.Within`: the state has a future in the analysis, whose annotations of the
  listed nodes are those of the state.
* `CheckState.Settles`: a check of an expression or a statement has settled `P`, in
  whatever analysis the state has a future. `Expr.check_settles` and
  `Stmt.checkAll_settles` say that the body is then resolved.
* `CheckState.Types`, `CheckState.Declares`, `CheckState.Opened`, `CheckState.Elaborates`:
  the same for type expressions, for declarations, for the header of a procedure and for
  whole procedures. `CheckState.Elaborates` also knows the blocks that lexical scoping
  gives, with the symbols as numbers.
* `Program.analyzed_of_analyze` collects everything that is known of an accepted program,
  and `Program.resolved_of_analyze` is what proofs about code start from.

The induction is over the tree, and each of the relations above composes: what is settled
by a first check and by a second one is settled by both, provided that they annotate
different nodes. The entry of a procedure is the one thing that changes while the analysis
goes on (`SymbolTable.Keeps`); it has its final form when its nested procedures and its
body are looked at (`CheckState.Opened.update`), and nothing that was settled before
depends on it.
-/

namespace BlockLang

open Check

/-! ## Annotations -/

namespace Annotations

/-- A change to the facts about one node. -/
theorem getD_insert_node {facts : Std.TreeMap Nat NodeFacts}
    (node n : NodeId) (x : NodeFacts) :
    (facts.insert node.index x).getD n.index {} = if n = node then x
    else facts.getD n.index {} := by
  rw [Std.TreeMap.getD_insert]
  by_cases h : n = node
  · simp [h]
  · have hne : node.index ≠ n.index := fun he => h (by cases n; cases node; simp_all)
    simp [h, hne]

/-- Noting a symbol concerns one node, whose type stays. -/
theorem get_recordSymbol (a : Annotations) (node : NodeId) (symbol : SymbolId) (n : NodeId) :
    (a.recordSymbol node symbol).get n = if n = node
    then { a.get node with symbol := some symbol } else a.get n :=
  getD_insert_node ..

/-- Noting a type concerns one node, whose symbol stays. -/
theorem get_recordType (a : Annotations) (node : NodeId) (type : TypeId) (n : NodeId) :
    (a.recordType node type).get n = if n = node then { a.get node with type := some type }
    else a.get n :=
  getD_insert_node ..

end Annotations

namespace CheckState

/-- Types and symbols are kept, and only nodes of the list are annotated anew. -/
structure Moves (s : CheckState) (nodes : List NodeId) (s' : CheckState) : Prop where
  types : s.types ≤ s'.types
  symbols : s.symbols ≤ s'.symbols
  elsewhere : ∀ n, n ∉ nodes → s'.annotations.get n = s.annotations.get n

/-- The state has a future in the analysis, and its notes about the nodes of the list stay. -/
structure Within (s : CheckState) (nodes : List NodeId) (a : Analysis) : Prop where
  types : s.types ≤ a.types
  symbols : s.symbols ≤ a.symbols
  notes : ∀ n ∈ nodes, a.annotations.get n = s.annotations.get n

variable {s s' s'' : CheckState} {nodes nodes' : List NodeId} {a : Analysis}

theorem Moves.refl (s : CheckState) : s.Moves nodes s :=
  ⟨TypeTable.le_refl _, SymbolTable.le_refl _, fun _ _ => rfl⟩

theorem Moves.trans (h : s.Moves nodes s') (h' : s'.Moves nodes' s'') :
    s.Moves (nodes ++ nodes') s'' where
  types := TypeTable.le_trans h.types h'.types
  symbols := SymbolTable.le_trans h.symbols h'.symbols
  elsewhere n hn := by
    rw [List.mem_append, not_or] at hn
    rw [h'.elsewhere n hn.2, h.elsewhere n hn.1]

theorem Moves.mono (h : s.Moves nodes s') (hsub : nodes ⊆ nodes') : s.Moves nodes' s' :=
  ⟨h.types, h.symbols, fun n hn => h.elsewhere n fun hmem => hn (hsub hmem)⟩

/-- What an earlier state noted about other nodes is still there. -/
theorem Within.before (ha : s'.Within nodes' a) (h : s.Moves nodes s') {part : List NodeId}
    (hsub : part ⊆ nodes') (hdisjoint : ∀ n ∈ part, n ∉ nodes) : s.Within part a where
  types := TypeTable.le_trans h.types ha.types
  symbols := SymbolTable.le_trans h.symbols ha.symbols
  notes n hn := by rw [ha.notes n (hsub hn), h.elsewhere n (hdisjoint n hn)]

theorem Within.mono (ha : s.Within nodes' a) (hsub : nodes ⊆ nodes') : s.Within nodes a :=
  ⟨ha.types, ha.symbols, fun n hn => ha.notes n (hsub hn)⟩

end CheckState

/-! ## Expressions -/

/-- A check of expressions or statements with these nodes has found out a fact for good. -/
structure CheckState.Settles (s : CheckState)
    (nodes : List NodeId) (s' : CheckState) (P : Analysis → Prop) : Prop where
  notes : s.Notes s'
  moves : s.Moves nodes s'
  holds : nodes.Nodup → ∀ a, s'.Within nodes a → P a

namespace CheckState.Settles

variable {s s' s'' : CheckState} {nodes nodes' : List NodeId} {P P' Q : Analysis → Prop}

/-- What the tables settle is settled without a check. -/
theorem pure (h : ∀ a, s.types ≤ a.types → s.symbols ≤ a.symbols → P a) : s.Settles [] s P :=
  ⟨rfl, .refl s, fun _ a ha => h a ha.types ha.symbols⟩

theorem mono (h : s.Settles nodes s' P)
    (hP : ∀ a, s.types ≤ a.types → s.symbols ≤ a.symbols → P a → Q a) :
    s.Settles nodes s' Q :=
  ⟨h.notes, h.moves, fun hnodup a ha => hP a (TypeTable.le_trans h.moves.types ha.types)
    (SymbolTable.le_trans h.moves.symbols ha.symbols) (h.holds hnodup a ha)⟩

/-- The second check leaves the nodes of the first one alone. -/
theorem andThen (h : s.Settles nodes s' P) (h' : s'.Settles nodes' s'' P') :
    s.Settles (nodes ++ nodes') s'' fun a => P a ∧ P' a where
  notes := h.notes.trans h'.notes
  moves := h.moves.trans h'.moves
  holds hnodup a ha := by
    obtain ⟨hnodup₁, hnodup₂, hdisjoint⟩ := List.nodup_append.mp hnodup
    exact ⟨h.holds hnodup₁ a (ha.before h'.moves (List.subset_append_left ..)
        fun n hn hn' => hdisjoint n hn n hn' rfl),
      h'.holds hnodup₂ a (ha.mono (List.subset_append_right ..))⟩

/-- Last, something is recorded about one more node. -/
theorem record (h : s.Settles nodes s' P) (node : NodeId) {annotations : Annotations}
    (helsewhere : ∀ n, n ≠ node → annotations.get n = s'.annotations.get n)
    (hQ : ∀ a, s'.types ≤ a.types → s'.symbols ≤ a.symbols →
      a.annotations.get node = annotations.get node → P a → Q a) :
    s.Settles (node :: nodes) { s' with annotations } Q := by
  have hmoves : s'.Moves [node] { s' with annotations } :=
    ⟨TypeTable.le_refl _, SymbolTable.le_refl _, fun n hn => helsewhere n (by simpa using hn)⟩
  refine ⟨h.notes.trans (.annotate ..), (h.moves.trans hmoves).mono (by simp),
    fun hnodup a ha => ?_⟩
  obtain ⟨hnode, hnodup⟩ := List.nodup_cons.mp hnodup
  refine hQ a ha.types ha.symbols (ha.notes node List.mem_cons_self)
    (h.holds hnodup a (ha.before hmoves (List.subset_cons_self ..) fun n hn hn' =>
      hnode (List.mem_singleton.mp hn' ▸ hn)))

/-- The type of a node is settled when it has been noted. -/
theorem recordType (h : s.Settles nodes s' P) (node : NodeId) (type : TypeId)
    (hQ : ∀ a, s'.types ≤ a.types → s'.symbols ≤ a.symbols →
      a.annotations.type? node = some type → P a → Q a) :
    s.Settles (node :: nodes) { s' with
      annotations := s'.annotations.recordType node type } Q := by
  refine h.record node (fun _ hn => (Annotations.get_recordType ..).trans (if_neg hn)) ?_
  intro a htypes hsymbols hfacts
  refine hQ a htypes hsymbols ?_
  rw [Annotations.type?, hfacts, Annotations.get_recordType, if_pos rfl]

end CheckState.Settles

/-- The open scopes find the names of a list. -/
def Scopes.Finds (scopes : Scopes) (Γ : Names) : Prop :=
  ∀ name, scopes.lookup? name = Γ.lookup name

theorem Scopes.Shows.finds {scopes : Scopes}
    {inner outer : Names} (h : scopes.Shows inner outer) :
    scopes.Finds (inner ++ outer) := h.lookup?

/-- Annotations do not change what a name means. -/
theorem Scopes.Finds.notes {s s' : CheckState} {Γ : Names}
    (h : s.scopes.Finds Γ) (hs : s.Notes s') :
    s'.scopes.Finds Γ := by
  rwa [hs.scopes]

variable {s s' : CheckState} {Γ : Names}

/-- What a reference has around its selector. -/
theorem Reference.check_settles {node : NodeId} {name : Ident} {selector : Selector Expr}
    {span : Span} {type : TypeId} (hΓ : s.scopes.Finds Γ)
    (h : (Reference.check ⟨node, name, selector, span⟩).run s = .ok (type, s'))
    {P : Variable → Analysis → Prop} {Q : Analysis → Prop}
    (hselector : ∀ {v : Variable} {s₁}, (selector.check v.type name).run s = .ok (type, s₁) →
      s.Settles (Selector.nodes selector) s₁ (P v))
    (hQ : ∀ a v, a.Refers Γ node name v →
      a.annotations.type? node = some type → P v a → Q a) :
    s.Settles (node :: Selector.nodes selector) s' Q := by
  obtain ⟨id, v, s₁, hid, hv, hcheck, rfl⟩ := Reference.check_ok h
  have hsettles := hselector hcheck
  refine hsettles.record node (fun n hn => ?_) fun a _ hsymbols hfacts hP => ?_
  · rw [Annotations.get_recordType, if_neg hn, Annotations.get_recordSymbol, if_neg hn]
  · rw [Annotations.get_recordType, if_pos rfl, Annotations.get_recordSymbol, if_pos rfl]
      at hfacts
    have hv' :=
      SymbolTable.variableAt?_mono (SymbolTable.le_trans hsettles.moves.symbols hsymbols) hv
    refine hQ a v ⟨id, by rw [← hΓ, hid], hv', ?_⟩ ?_ hP
    · rw [Annotations.symbol?, hfacts]
    · rw [Annotations.type?, hfacts]

/-- An expression that is accepted is resolved. -/
theorem Expr.check_settles (e : Expr) {s s' : CheckState} {type : TypeId}
    (hΓ : s.scopes.Finds Γ) (h : e.check.run s = .ok (type, s')) :
    s.Settles e.nodes s' fun a => e.Resolved a Γ type := by
  -- The tables grow after a check, so what it has found is said of every later analysis.
  induction e generalizing s s' type with
  | const node value span =>
    cases h
    exact (CheckState.Settles.pure (P := fun _ => True) fun _ _ _ =>
      trivial).recordType node _ fun _ _ _ htype _ => .const htype
  | whole node name span =>
    rw [Expr.check] at h
    refine Reference.check_settles (P := fun v _ => type = v.type) hΓ h ?_ ?_
    · intro v s₁ hselector
      cases hselector
      exact .pure fun _ _ _ => rfl
    · rintro a v hrefers htype rfl
      exact .whole hrefers htype
  | element node name index span ih =>
    rw [Expr.check] at h
    refine Reference.check_settles (P := fun v a => ∃ low high size, a.types.get? v.type =
      some (.array type low high size) ∧ index.Resolved a Γ .integer) hΓ h ?_ ?_
    · intro v s₁ hselector
      obtain ⟨hindex, low, high, size, hget⟩ := Selector.check_element_ok hselector
      exact (ih hΓ hindex).mono fun a htypes _ hresolved =>
        ⟨low, high, size, htypes _ _ hget, hresolved⟩
    · rintro a v hrefers htype ⟨low, high, size, hget, hindex⟩
      exact .element hrefers hget hindex htype
  | field node name field span =>
    rw [Expr.check] at h
    refine Reference.check_settles (P := fun v a =>
      ∃ fields size f, a.types.get? v.type = some (.record fields size) ∧
      fields.find? (·.name == field.name) = some f ∧ type = f.type) hΓ h ?_ ?_
    · intro v s₁ hselector
      rw [Selector.check] at hselector
      obtain ⟨rfl, fields, size, f, hget, hfind, htype⟩ := fieldType_ok hselector
      exact .pure fun a htypes _ => ⟨fields, size, f, htypes _ _ hget, hfind, htype⟩
    · rintro a v hrefers htype ⟨fields, size, f, hget, hfind, rfl⟩
      exact .field hrefers hget hfind htype
  | fieldElement node name field index span ih =>
    rw [Expr.check] at h
    refine Reference.check_settles (P := fun v a => ∃ fields size f low high length,
      a.types.get? v.type = some (.record fields size) ∧ fields.find? (·.name == field.name) =
      some f ∧ a.types.get? f.type = some (.array type low high length) ∧
      index.Resolved a Γ .integer) hΓ h ?_ ?_
    · intro v s₁ hselector
      obtain ⟨hindex, fields, size, f, low, high, length, hget, hfind, hget'⟩ :=
        Selector.check_fieldElement_ok hselector
      exact (ih hΓ hindex).mono fun a htypes _ hresolved =>
        ⟨fields, size, f, low, high, length, htypes _ _ hget, hfind, htypes _ _ hget',
          hresolved⟩
    · rintro a v hrefers htype ⟨fields, size, f, low, high, length, hget, hfind,
        hget', hindex⟩
      exact .fieldElement hrefers hget hfind hget' hindex htype
  | binary node op left right span ihl ihr =>
    obtain ⟨rfl, operand, s₁, s₂, hleft, hright, hscalar, rfl⟩ := Expr.check_binary_ok h
    have hl := ihl hΓ hleft
    refine (hl.andThen (ihr (hΓ.notes hl.notes) hright)).recordType node _
      fun a htypes _ htype hboth => ?_
    exact .binary hboth.1 hboth.2 (TypeTable.isScalar_mono htypes hscalar) htype

/-! ## Statements -/

/-- Arguments that are accepted are resolved, each for its parameter. -/
theorem Check.checkArguments_settles (call : Call) (expected : Nat) :
    ∀ {params : List SymbolId} {args : List Expr} {s s' : CheckState} {u : Unit},
    s.scopes.Finds Γ → (checkArguments call expected params args).run s = .ok (u, s') →
    s.Settles (args.flatMap Expr.nodes) s' fun a =>
    List.Forall₂ (Expr.ResolvedFor a Γ) params args
  | [], [], _, _, _, _, h => by
    cases h
    exact .pure fun _ _ _ => .nil
  | [], _ :: _, _, _, _, _, h => by cases h
  | _ :: _, [], _, _, _, _, h => by cases h
  | param :: params, arg :: args, s, s', _, hΓ, h => by
    obtain ⟨v, s₁, hv, hmode, hcheck, hrest⟩ := checkArguments_cons_ok h
    have hfirst := arg.check_settles hΓ hcheck
    refine (hfirst.andThen
      (checkArguments_settles call expected (hΓ.notes hfirst.notes) hrest)).mono ?_
    exact fun a _ hsymbols hboth =>
      .cons ⟨v, SymbolTable.variableAt?_mono hsymbols hv, hmode, hboth.1⟩ hboth.2

/-- A call that is accepted is resolved. -/
theorem Call.check_settles {call : Call} {u : Unit}
    (hΓ : s.scopes.Finds Γ) (h : call.check.run s = .ok (u, s')) :
    s.Settles call.nodes s' fun a => call.Resolved a Γ := by
  obtain ⟨id, p, hid, hp, hargs⟩ := Call.check_ok h
  have hrecord :
      s.Settles [call.node] { s with annotations := s.annotations.recordSymbol call.node id }
      fun a => a.annotations.symbol? call.node = some id := by
    refine CheckState.Settles.record
      (.pure (P := fun _ => True) fun _ _ _ => trivial) call.node (fun n hn =>
      (Annotations.get_recordSymbol ..).trans (if_neg hn)) fun a _ _ hfacts _ => ?_
    rw [Annotations.symbol?, hfacts, Annotations.get_recordSymbol, if_pos rfl]
  refine (hrecord.andThen
    (checkArguments_settles call _ (hΓ.notes hrecord.notes) hargs)).mono ?_
  intro a _ hsymbols hboth
  exact ⟨id, p, by rw [← hΓ, hid], SymbolTable.procedureAt?_mono hsymbols hp, hboth.1,
    hboth.2⟩

mutual

/-- A statement that is accepted is resolved. -/
theorem Stmt.check_settles {level : Nat} :
    ∀ (stmt : Stmt) {s s' : CheckState} {u : Unit}, s.scopes.Finds Γ →
    s.scopes.level = level → stmt.check.run s = .ok (u, s') →
    s.Settles stmt.nodes s' fun a => stmt.Resolved a Γ level
  | .assign target value span, s, s', _, hΓ, _, h => by
    obtain ⟨type, s₁, htarget, hvalue⟩ := Stmt.check_assign_ok h
    have hfirst := (Expr.ref target).check_settles hΓ htarget
    refine (hfirst.andThen (value.check_settles (hΓ.notes hfirst.notes) hvalue)).mono ?_
    exact fun _ _ _ hboth => .assign hboth.1 hboth.2
  | .ifElse condition thenBranch elseBranch span, s, s', _, hΓ, hlevel, h => by
    obtain ⟨s₁, s₂, hcondition, hthen, helse⟩ := Stmt.check_ifElse_ok h
    have hc := condition.check_settles hΓ hcondition
    have ht :=
      Stmt.checkAll_settles thenBranch (hΓ.notes hc.notes) (hc.notes.scopes ▸ hlevel) hthen
    have hnotes := hc.notes.trans ht.notes
    have he :=
      Stmt.checkAll_settles elseBranch (hΓ.notes hnotes) (hnotes.scopes ▸ hlevel) helse
    exact (hc.andThen (ht.andThen he)).mono fun _ _ _ h => .ifElse h.1 h.2.1 h.2.2
  | .whileDo condition body span, s, s', _, hΓ, hlevel, h => by
    obtain ⟨s₁, hcondition, hbody⟩ := Stmt.check_whileDo_ok h
    have hc := condition.check_settles hΓ hcondition
    have hb := Stmt.checkAll_settles body (hΓ.notes hc.notes) (hc.notes.scopes ▸ hlevel) hbody
    exact (hc.andThen hb).mono fun _ _ _ h => .whileDo h.1 h.2
  | .read target span, s, s', _, hΓ, _, h => by
    obtain ⟨type, htarget⟩ := Stmt.check_read_ok h
    exact ((Expr.ref target).check_settles hΓ htarget).mono fun _ _ _ h => .read h
  | .write value span, s, s', _, hΓ, _, h => by
    obtain ⟨type, hvalue, _⟩ := Stmt.check_write_ok h
    exact (value.check_settles hΓ hvalue).mono fun _ _ _ h => .write h
  | .call c, s, s', _, hΓ, _, h => by
    rw [Stmt.check] at h
    exact (Call.check_settles hΓ h).mono fun _ _ _ h => .call h
  | .ret span, s, s', _, hΓ, hlevel, h => by
    obtain ⟨rfl, hpositive⟩ := Stmt.check_ret_ok h
    exact .pure fun _ _ _ => .ret (by omega)

/-- Statements that are accepted are resolved. -/
theorem Stmt.checkAll_settles {level : Nat} :
    ∀ (stmts : List Stmt) {s s' : CheckState} {u : Unit}, s.scopes.Finds Γ →
    s.scopes.level = level → (Stmt.checkAll stmts).run s = .ok (u, s') →
    s.Settles (Stmt.nodesAll stmts) s' fun a => ∀ stmt ∈ stmts, stmt.Resolved a Γ level
  | [], s, s', _, _, _, h => by
    rw [Stmt.checkAll] at h
    cases h
    exact .pure fun _ _ _ => by simp
  | stmt :: rest, s, s', _, hΓ, hlevel, h => by
    obtain ⟨s₁, hstmt, hrest⟩ := Stmt.checkAll_cons_ok h
    have hs := Stmt.check_settles stmt hΓ hlevel hstmt
    have hr := Stmt.checkAll_settles rest (hΓ.notes hs.notes) (hs.notes.scopes ▸ hlevel) hrest
    exact (hs.andThen hr).mono fun _ _ _ h => List.forall_mem_cons.mpr h

end

/-! ## Types -/

namespace TypeTable

/-- The table describes a type under the identity. -/
def Knows (t : TypeTable) (type : TypeId) : Prop := ∃ τ : Ty, τ.id = type ∧ τ.In t

theorem Knows.mono {t t' : TypeTable} {type : TypeId} (h : t.Knows type) (ht : t ≤ t') :
    t'.Knows type := by
  obtain ⟨τ, rfl, hτ⟩ := h
  exact ⟨τ, rfl, hτ.mono ht⟩

theorem Knows.size_nonneg {t : TypeTable} {type : TypeId} (h : t.Knows type) :
    0 ≤ t.size type := by
  obtain ⟨τ, rfl, hτ⟩ := h
  rw [hτ.size_eq]
  exact hτ.size_nonneg

/-- A type that the table knows has its size for good. -/
theorem Knows.size_eq {t t' : TypeTable} {type : TypeId} (h : t.Knows type) (ht : t ≤ t') :
    t'.size type = t.size type := by
  obtain ⟨τ, rfl, hτ⟩ := h
  rw [hτ.size_eq, (hτ.mono ht).size_eq]

/-- Fields of known types are laid out in a larger table as they are in this one. -/
theorem layFields?_mono {t t' : TypeTable} (ht : t ≤ t') {named : List (String × TypeId)}
    (hnamed : ∀ x ∈ named, t.Knows x.2) {offset : Int} {r : List Field × Int}
    (h : t.layFields? offset named = some r) : t'.layFields? offset named = some r := by
  induction named generalizing offset r with
  | nil => exact h
  | cons x rest ih =>
    obtain ⟨hx, hrest⟩ := List.forall_mem_cons.mp hnamed
    obtain ⟨name, type⟩ := x
    simp only [layFields?, Option.bind_eq_bind, Option.bind_eq_some_iff] at h ⊢
    obtain ⟨next, hnext, r', hr', h⟩ := h
    refine ⟨next, ?_, r', ih hrest hr', h⟩
    rw [hx.size_eq ht, hnext]

/-- A table with the built-in types has room for the numbers of occurrences. -/
theorem three_le_length {t : TypeTable} (h : ({} : TypeTable) ≤ t) : 3 ≤ t.length :=
  lt_length_of_get? (h .boolean .boolean rfl)

theorem get?_push_self (t : TypeTable) (d : TypeDescriptor) :
    (t.push d).2.get? (t.push d).1 = some d := by
  rw [get?_push]
  exact if_pos rfl

/-- The place of a new type, as the number of occurrences gives it. -/
theorem push_fst {t : TypeTable} (h : ({} : TypeTable) ≤ t) (d : TypeDescriptor) :
    (t.push d).1 = ⟨t.length - 3 + 3⟩ := by
  rw [Nat.sub_add_cancel (three_le_length h)]
  rfl

/-- A new array type is known if the type of its elements is. -/
theorem Knows.array {t : TypeTable} {element : TypeId} (hbuiltins : ({} : TypeTable) ≤ t)
    (h : t.Knows element) {low high : Word} (hbounds : low ≤ high) {d : TypeDescriptor}
    (hd : d = .array element low high ((high.toInt - low.toInt + 1) * t.size element)) :
    (t.push d).2.Knows (t.push d).1 := by
  obtain ⟨τ, rfl, hτ⟩ := h
  have hget := get?_push_self t d
  rw [push_fst hbuiltins] at hget ⊢
  refine ⟨.array (t.length - 3) low high τ, rfl, hτ.mono (le_push t d), hbounds, ?_⟩
  rw [hget, hd, hτ.size_eq]
  rfl

theorem Knows.fields {t : TypeTable} {named : List (String × TypeId)}
    (h : ∀ x ∈ named, t.Knows x.2) :
    ∃ φs : List (String × Ty), φs.map (fun φ => (φ.1, φ.2.id)) = named ∧ Ty.AllIn t φs := by
  induction named with
  | nil => exact ⟨[], rfl, trivial⟩
  | cons x rest ih =>
    obtain ⟨⟨τ, hid, hτ⟩, hrest⟩ := List.forall_mem_cons.mp h
    obtain ⟨φs, hmap, hφs⟩ := ih hrest
    exact ⟨(x.1, τ) :: φs, by simp [hid, hmap], hτ, hφs⟩

/-- A new record type is known if the types of its fields are. -/
theorem Knows.record {t : TypeTable} {named : List (String × TypeId)}
    (hbuiltins : ({} : TypeTable) ≤ t)
    (h : ∀ x ∈ named, t.Knows x.2) {fields : List Field} {size : Int}
    (hlay : t.layFields? 0 named = some (fields, size))
    {d : TypeDescriptor} (hd : d = .record fields size) :
    (t.push d).2.Knows (t.push d).1 := by
  obtain ⟨φs, rfl, hφs⟩ := Knows.fields h
  have hget := get?_push_self t d
  rw [push_fst hbuiltins] at hget ⊢
  rcases layFields?_eq hφs (Int.le_refl 0) (by decide) with
    ⟨_, fields', hlay', hmap⟩ | ⟨_, hnone⟩
  · rw [hlay] at hlay'
    cases hlay'
    rw [Int.zero_add] at hd
    exact ⟨.record (t.length - 3) φs, rfl, hφs.mono (le_push t d), fields,
      by rw [hget, hd], hmap⟩
  · rw [hlay] at hnone
    cases hnone

end TypeTable

/-- The second table has the types and variables of the first one; procedures may have
changed. -/
structure SymbolTable.Keeps (σ σ' : SymbolTable) : Prop where
  types : ∀ {id τ}, σ.typeAt? id = some τ → σ'.typeAt? id = some τ
  vars : ∀ {id v}, σ.variableAt? id = some v → σ'.variableAt? id = some v

theorem SymbolTable.keeps_of_le {σ σ' : SymbolTable} (h : σ ≤ σ') : σ.Keeps σ' :=
  ⟨fun hid => typeAt?_mono h hid, fun hid => variableAt?_mono h hid⟩

theorem SymbolTable.Keeps.trans {σ σ' σ'' : SymbolTable} (h : σ.Keeps σ')
    (h' : σ'.Keeps σ'') : σ.Keeps σ'' :=
  ⟨fun hid => h'.types (h.types hid), fun hid => h'.vars (h.vars hid)⟩

/-- The update of a procedure keeps types and variables. -/
theorem SymbolTable.keeps_mapProcedure (σ : SymbolTable)
    (id : SymbolId) (f : Procedure → Procedure) :
    σ.Keeps (σ.mapProcedure id f) :=
  ⟨fun hid => by rw [typeAt?_mapProcedure, hid],
    fun hid => by rw [variableAt?_mapProcedure, hid]⟩

/-- The tables describe what a symbol stands for. -/
def Meaning.Known (t : TypeTable) (σ : SymbolTable) : Meaning → Prop
  | .type id => t.Knows id
  | .var v => t.Knows v.type
  | .proc p => ∀ id ∈ p.params, ∃ v, σ.variableAt? id = some v

theorem Meaning.Known.mono {t t' : TypeTable} {σ σ' : SymbolTable} (ht : t ≤ t')
    (hσ : σ.Keeps σ') {m : Meaning} (h : m.Known t σ) : m.Known t' σ' := by
  cases m with
  | type type => exact TypeTable.Knows.mono h ht
  | var v => exact TypeTable.Knows.mono h ht
  | proc p =>
    intro id hid
    obtain ⟨v, hv⟩ := h id hid
    exact ⟨v, hσ.vars hv⟩

/-- The tables have the built-in types and describe every symbol. -/
structure CheckState.Tidy (s : CheckState) : Prop where
  builtins : ({} : TypeTable) ≤ s.types
  known : ∀ {id m}, s.symbols.meaning? id = some m → m.Known s.types s.symbols

theorem CheckState.Tidy.named {s : CheckState} (hs : s.Tidy) {id : SymbolId} {type : TypeId}
    (hid : s.symbols.typeAt? id = some type) : s.types.Knows type :=
  hs.known (SymbolTable.typeAt?_eq_some_iff.mp hid)

/-- What a type expression leaves: the types are added, and a fact holds in every future of
the tables. -/
structure CheckState.Types (s s' : CheckState) (P : Analysis → Prop) : Prop where
  rest : s' = { s with types := s'.types }
  le : s.types ≤ s'.types
  holds : ∀ a, s'.types ≤ a.types → s.symbols.Keeps a.symbols → P a

theorem CheckState.Types.andThen {s s' s'' : CheckState} {P P' : Analysis → Prop}
    (h : s.Types s' P) (h' : s'.Types s'' P') : s.Types s'' fun a => P a ∧ P' a where
  rest := by rw [h'.rest, h.rest]
  le := TypeTable.le_trans h.le h'.le
  holds a htypes hsymbols := by
    refine ⟨h.holds a (TypeTable.le_trans h'.le htypes) hsymbols, h'.holds a htypes ?_⟩
    rwa [h.rest]

theorem CheckState.Types.mono {s s' : CheckState} {P Q : Analysis → Prop} (h : s.Types s' P)
    (hPQ : ∀ a, s'.types ≤ a.types → P a → Q a) : s.Types s' Q :=
  ⟨h.rest, h.le, fun a htypes hsymbols => hPQ a htypes (h.holds a htypes hsymbols)⟩

/-- Type expressions leave a tidy state tidy. -/
theorem CheckState.Types.tidy {s s' : CheckState} {P : Analysis → Prop} (h : s.Types s' P)
    (hs : s.Tidy) : s'.Tidy := by
  have hsymbols : s'.symbols = s.symbols := by rw [h.rest]
  refine ⟨TypeTable.le_trans hs.builtins h.le, fun {id m} hid => ?_⟩
  rw [hsymbols] at hid ⊢
  exact (hs.known hid).mono h.le (SymbolTable.keeps_of_le (SymbolTable.le_refl _))

theorem CheckState.Types.scopes {s s' : CheckState} {P : Analysis → Prop} (h : s.Types s' P) :
    s'.scopes = s.scopes := by
  rw [h.rest]

/-- The size of an array is exact. -/
theorem TypeTable.arraySize?_eq_some {t : TypeTable} {element : TypeId} {low high : Word}
    {size : Int} (h : t.arraySize? element low high = some size) :
    size = (high.toInt - low.toInt + 1) * t.size element ∧ Word.Fits size := by
  unfold TypeTable.arraySize? at h
  simp only [Option.bind_eq_bind, Option.bind_eq_some_iff, Word.checked,
    Option.ite_none_right_eq_some, Option.some.injEq] at h
  obtain ⟨_, ⟨_, rfl⟩, _, ⟨_, rfl⟩, hfits, rfl⟩ := h
  exact ⟨rfl, hfits⟩

/-- A new array type has a size, and comes at the end of the table. -/
theorem TypeTable.addArray?_eq_some {t t' : TypeTable} {element type : TypeId}
    {low high : Word} (h : t.addArray? element low high = (some type, t')) :
    ∃ size, t.arraySize? element low high = some size ∧
    (type, t') = t.push (.array element low high size) := by
  unfold TypeTable.addArray? at h
  cases hsize : t.arraySize? element low high with
  | none =>
    rw [hsize] at h
    cases h
  | some size =>
    rw [hsize] at h
    cases h
    exact ⟨size, rfl, rfl⟩

/-- A new record type has its fields laid out, and comes at the end of the table. -/
theorem TypeTable.addRecord?_eq_some {t t' : TypeTable} {named : List (String × TypeId)}
    {type : TypeId} (h : t.addRecord? named = (some type, t')) :
    ∃ fields size, t.layFields? 0 named = some (fields, size) ∧
    (type, t') = t.push (.record fields size) := by
  unfold TypeTable.addRecord? at h
  cases hlay : t.layFields? 0 named with
  | none =>
    rw [hlay] at h
    cases h
  | some laid =>
    rw [hlay] at h
    cases h
    exact ⟨laid.1, laid.2, rfl, rfl⟩

mutual

/-- A type expression that is accepted is resolved, and its type is known. -/
theorem TypeExpr.denote_resolves :
    ∀ (te : TypeExpr) {s s' : CheckState} {type : TypeId}, s.scopes.Finds Γ → s.Tidy →
    te.denote.run s = .ok (type, s') → s'.types.Knows type ∧
    s.Types s' fun a => te.Resolved a Γ type
  | .integer _, s, s', type, _, hs, h => by
    rw [TypeExpr.denote] at h
    cases h
    exact ⟨⟨.integer, rfl, hs.builtins _ _ rfl⟩, rfl, TypeTable.le_refl _,
      fun _ _ _ => .integer⟩
  | .char _, s, s', type, _, hs, h => by
    rw [TypeExpr.denote] at h
    cases h
    exact ⟨⟨.char, rfl, hs.builtins _ _ rfl⟩, rfl, TypeTable.le_refl _, fun _ _ _ => .char⟩
  | .named name, s, s', type, hΓ, hs, h => by
    obtain ⟨rfl, id, hid, htype⟩ := TypeExpr.denote_named_ok h
    refine ⟨hs.named htype, rfl, TypeTable.le_refl _, fun a _ hsymbols => ?_⟩
    exact .named (by rw [← hΓ, hid]) (hsymbols.types htype)
  | .array low high element span, s, s', type, hΓ, hs, h => by
    obtain ⟨hbounds, elementType, s₁, t, helement, hadd, rfl⟩ := TypeExpr.denote_array_ok h
    obtain ⟨hknows, helements⟩ := TypeExpr.denote_resolves element hΓ hs helement
    obtain ⟨size, hsize, hpush⟩ := TypeTable.addArray?_eq_some hadd
    obtain ⟨rfl, -⟩ := TypeTable.arraySize?_eq_some hsize
    obtain ⟨rfl, rfl⟩ := Prod.mk.inj hpush
    have hget := TypeTable.get?_push_self s₁.types (.array elementType low high
      ((high.toInt - low.toInt + 1) * s₁.types.size elementType))
    have hle := TypeTable.le_push s₁.types (.array elementType low high
      ((high.toInt - low.toInt + 1) * s₁.types.size elementType))
    refine ⟨.array (helements.tidy hs).builtins hknows hbounds rfl, by rw [helements.rest],
      TypeTable.le_trans helements.le hle, fun a htypes hsymbols => ?_⟩
    have hle' := TypeTable.le_trans hle htypes
    refine .array hbounds (helements.holds a hle' hsymbols) ?_
    rw [hknows.size_eq hle']
    exact htypes _ _ hget
  | .record groups span, s, s', type, hΓ, hs, h => by
    obtain ⟨named, s₁, t, hgroups, hadd, rfl⟩ := TypeExpr.denote_record_ok h
    obtain ⟨hknows, hfields⟩ := TypeExpr.denoteFields_resolves groups hΓ hs hgroups
    obtain ⟨fields, size, hlay, hpush⟩ := TypeTable.addRecord?_eq_some hadd
    obtain ⟨rfl, rfl⟩ := Prod.mk.inj hpush
    have hget := TypeTable.get?_push_self s₁.types (.record fields size)
    have hle := TypeTable.le_push s₁.types (.record fields size)
    refine ⟨.record (hfields.tidy hs).builtins hknows hlay rfl, by rw [hfields.rest],
      TypeTable.le_trans hfields.le hle, fun a htypes hsymbols => ?_⟩
    have hle' := TypeTable.le_trans hle htypes
    exact .record (hfields.holds a hle' hsymbols) (TypeTable.layFields?_mono hle' hknows hlay)
      (htypes _ _ hget)

theorem TypeExpr.denoteFields_resolves :
    ∀ (groups : List (FieldGroup TypeExpr)) {s s' : CheckState}
    {named : List (String × TypeId)}, s.scopes.Finds Γ → s.Tidy →
    (TypeExpr.denoteFields groups).run s = .ok (named, s') →
    (∀ x ∈ named, s'.types.Knows x.2) ∧ s.Types s' fun a =>
    TypeExpr.ResolvedFields a Γ groups named
  | [], s, s', _, _, _, h => by
    rw [TypeExpr.denoteFields] at h
    cases h
    exact ⟨by simp, rfl, TypeTable.le_refl _, fun _ _ _ => .nil⟩
  | ⟨names, te, span⟩ :: rest, s, s', _, hΓ, hs, h => by
    obtain ⟨type, s₁, others, htype, hrest, rfl⟩ := TypeExpr.denoteFields_cons_ok h
    obtain ⟨hknows, hfirst⟩ := TypeExpr.denote_resolves te hΓ hs htype
    have hΓ₁ : s₁.scopes.Finds Γ := by rwa [hfirst.scopes]
    obtain ⟨hknows', hothers⟩ :=
      TypeExpr.denoteFields_resolves rest hΓ₁ (hfirst.tidy hs) hrest
    refine ⟨fun x hx => ?_, (hfirst.andThen hothers).mono fun a _ hboth =>
      .cons hboth.1 hboth.2⟩
    rcases List.mem_append.mp hx with hx | hx
    · obtain ⟨_, _, rfl⟩ := List.mem_map.mp hx
      exact hknows.mono hothers.le
    · exact hknows' x hx

end

/-! ## Variables, parameters and sections -/

/-- What declarations leave: the tables have grown by the names, the innermost scope has them,
nodes are as they were, and a fact holds in every future that keeps types and variables. -/
structure CheckState.Declares (s : CheckState) (inner outer : Names) (names : List String)
    (s' : CheckState) (P : Analysis → Prop) : Prop where
  types : s.types ≤ s'.types
  symbols : s.symbols ≤ s'.symbols
  annotations : s'.annotations = s.annotations
  closed : s'.closed = s.closed
  around : s'.scopes.outer = s.scopes.outer
  listed : s'.symbols.names = s.symbols.names ++ names
  shows : s'.scopes.Shows (Names.number s.symbols.length names ++ inner) outer
  tidy : s'.Tidy
  holds : ∀ a, s'.types ≤ a.types → s'.symbols.Keeps a.symbols → P a

namespace CheckState.Declares

variable {s'' : CheckState} {inner outer : Names} {names names' : List String}
    {P P' Q : Analysis → Prop}

theorem length (h : s.Declares inner outer names s' P) :
    s'.symbols.length = s.symbols.length + names.length := by
  rw [← SymbolTable.length_names, h.listed, List.length_append, SymbolTable.length_names]

/-- Names declared after others get the numbers behind theirs. -/
theorem number_append (h : s.Declares inner outer names s' P) (names' : List String) :
    Names.number s'.symbols.length names' ++ (Names.number s.symbols.length names ++ inner) =
      Names.number s.symbols.length (names ++ names') ++ inner := by
  rw [Names.number_append, h.length, List.append_assoc]

theorem andThen (h : s.Declares inner outer names s' P)
    (h' : s'.Declares (Names.number s.symbols.length names ++ inner) outer names' s'' P') :
    s.Declares inner outer (names ++ names') s'' fun a => P a ∧ P' a where
  types := TypeTable.le_trans h.types h'.types
  symbols := SymbolTable.le_trans h.symbols h'.symbols
  annotations := h'.annotations.trans h.annotations
  closed := h'.closed.trans h.closed
  around := h'.around.trans h.around
  listed := by rw [h'.listed, h.listed, List.append_assoc]
  shows := h.number_append names' ▸ h'.shows
  tidy := h'.tidy
  holds a htypes hsymbols := ⟨h.holds a (TypeTable.le_trans h'.types htypes)
    ((SymbolTable.keeps_of_le h'.symbols).trans hsymbols), h'.holds a htypes hsymbols⟩

theorem mono (h : s.Declares inner outer names s' P)
    (hPQ : ∀ a, s'.types ≤ a.types → P a → Q a) :
    s.Declares inner outer names s' Q :=
  { h with holds := fun a htypes hsymbols => hPQ a htypes (h.holds a htypes hsymbols) }

theorem level (h : s.Declares inner outer names s' P) : s'.scopes.level = s.scopes.level :=
  congrArg List.length h.around

/-- Type expressions declare nothing. -/
theorem of_types (h : s.Types s' P) (hs : s.Tidy) (hshows : s.scopes.Shows inner outer) :
    s.Declares inner outer [] s' P where
  types := h.le
  symbols := by
    rw [h.rest]
    exact SymbolTable.le_refl _
  annotations := by rw [h.rest]
  closed := by rw [h.rest]
  around := by rw [h.rest]
  listed := by rw [h.rest, List.append_nil]
  shows := by rwa [h.scopes]
  tidy := h.tidy hs
  holds a htypes hsymbols := h.holds a htypes (by rwa [h.rest] at hsymbols)

theorem refl (hs : s.Tidy) (hshows : s.scopes.Shows inner outer) :
    s.Declares inner outer [] s fun _ => True :=
  ⟨TypeTable.le_refl _, SymbolTable.le_refl _, rfl, rfl, rfl, (List.append_nil _).symm,
    hshows, hs, fun _ _ _ => trivial⟩

end CheckState.Declares

/-- A declaration with a known meaning leaves a tidy state tidy. -/
theorem CheckState.Tidy.declared (hs : s.Tidy) (name : Ident) {meaning : Meaning}
    (hmeaning : meaning.Known s.types s.symbols) : (s.declared name meaning).Tidy := by
  have hkeeps :=
    SymbolTable.keeps_of_le (SymbolTable.le_add s.symbols ⟨name.name, meaning, name.span⟩)
  refine ⟨hs.builtins, fun {id m} hid => ?_⟩
  have hid' : ((s.symbols.add ⟨name.name, meaning, name.span⟩).2).meaning? id = some m := hid
  rw [SymbolTable.meaning?, SymbolTable.get?_add] at hid'
  split at hid'
  · cases hid'
    exact hmeaning.mono (TypeTable.le_refl _) hkeeps
  · exact (hs.known hid').mono (TypeTable.le_refl _) hkeeps

/-- The slot of a variable has its size for good. -/
theorem Check.slotSize_mono {t t' : TypeTable}
    (ht : t ≤ t') {type : TypeId} (hknows : t.Knows type)
    (access : Access) : slotSize t' type access = slotSize t type access := by
  cases access with
  | direct => exact hknows.size_eq ht
  | indirect => rfl

theorem Check.slotSize_nonneg {t : TypeTable} {type : TypeId}
    (hknows : t.Knows type) (access : Access) :
    0 ≤ slotSize t type access := by
  cases access with
  | direct => exact hknows.size_nonneg
  | indirect => exact Int.one_nonneg

theorem SymbolTable.variableAt?_add_self (t : SymbolTable) (name : Ident) (v : Variable) :
    (t.add ⟨name.name, .var v, name.span⟩).2.variableAt? ⟨t.length⟩ = some v :=
  variableAt?_eq_some_iff.mpr (congrArg (Option.map Symbol.meaning) (get?_add_self _ _))

/-- A group of variables that is accepted is declared, side by side in the frame. -/
theorem Check.declareVariables_declares {type : TypeId} {access : Access} {outer : Names} :
    ∀ {names : List Ident} {inner : Names} {s s' : CheckState} {u : Unit}, s.Tidy →
    s.scopes.Shows inner outer → s.types.Knows type →
    (declareVariables type access names).run s = .ok (u, s') →
    s.Declares inner outer (names.map (·.name)) s' fun a =>
    Layer.Declares a s.scopes.level type access
      ⟨inner ++ outer, s.scopes.offset⟩ names
      ⟨Names.number s.symbols.length (names.map (·.name)) ++ inner ++ outer, s'.scopes.offset⟩
  | [], inner, s, s', _, hs, hshows, _, h => by
    cases h
    exact (CheckState.Declares.refl hs hshows).mono fun _ _ _ => .nil
  | name :: rest, inner, s, s', _, hs, hshows, hknows, h => by
    obtain ⟨_, s₁, hname, hrest⟩ := run_bind_eq_ok h
    obtain ⟨hfits, rfl⟩ := declareVariable_ok hname
    let v : Variable := ⟨type, access, s.scopes.level, s.scopes.offset⟩
    have hfirst : s.Declares inner outer [name.name] (s.declaredVariable type access name)
        fun a => a.symbols.variableAt? ⟨s.symbols.length⟩ = some v :=
      { types := TypeTable.le_refl _
        symbols := SymbolTable.le_add _ _
        annotations := rfl
        closed := rfl
        around := rfl
        listed := SymbolTable.names_add _ _
        shows := (hshows.declared _ _).allocated _
        tidy :=
          ⟨hs.builtins, (hs.declared name (show (Meaning.var v).Known _ _ from hknows)).known⟩
        holds := fun a _ hsymbols =>
          hsymbols.vars (SymbolTable.variableAt?_add_self s.symbols name v) }
    have hothers := declareVariables_declares hfirst.tidy hfirst.shows hknows hrest
    refine (hfirst.andThen hothers).mono fun a htypes hboth => ?_
    have hslot := slotSize_mono (TypeTable.le_trans hothers.types htypes) hknows access
    have hoffset : (s.declaredVariable type access name).scopes.offset =
        s.scopes.offset + slotSize a.types type access := by
      rw [hslot]
      rfl
    have hrest' := hboth.2
    rw [hoffset, hfirst.number_append] at hrest'
    exact .cons hboth.1 (by rw [hslot]; exact slotSize_nonneg hknows access)
      (by rwa [hslot]) hrest'

/-- Variables or parameters that share a type expression. -/
theorem Check.group_declares {type : TypeExpr} {access : Access} {names : List Ident}
    {inner outer : Names} {u : Unit} (hs : s.Tidy) (hshows : s.scopes.Shows inner outer)
    (h : (do declareVariables (← type.denote) access names : Check Unit).run s =
      .ok (u, s')) :
    s.Declares inner outer (names.map (·.name)) s' fun a =>
    Layer.DeclaresGroup a s.scopes.level
      ⟨inner ++ outer, s.scopes.offset⟩ type access names
      ⟨Names.number s.symbols.length (names.map (·.name)) ++ inner ++ outer,
        s'.scopes.offset⟩ := by
  obtain ⟨id, s₁, htype, h₁⟩ := run_bind_eq_ok h
  obtain ⟨hknows, htypes⟩ := type.denote_resolves hshows.finds hs htype
  have hfirst := CheckState.Declares.of_types htypes hs hshows
  have hrest := declareVariables_declares hfirst.tidy hfirst.shows hknows h₁
  have hlength := hfirst.length
  rw [htypes.scopes, hlength] at hrest
  exact (hfirst.andThen hrest).mono fun a _ hboth => ⟨id, hboth.1, hboth.2⟩

/-- Parameters that are accepted are declared and resolved. -/
theorem ParamDecl.check_declares {outer : Names} :
    ∀ {params : List ParamDecl} {inner : Names} {s s' : CheckState} {u : Unit}, s.Tidy →
    s.scopes.Shows inner outer → (params.forM ParamDecl.check).run s = .ok (u, s') →
    s.Declares inner outer (ParamDecl.namesAll params) s' fun a =>
    ParamDecl.Resolved a s.scopes.level
      ⟨inner ++ outer, s.scopes.offset⟩ params
      ⟨Names.number s.symbols.length (ParamDecl.namesAll params) ++ inner ++ outer,
        s'.scopes.offset⟩
  | [], inner, s, s', _, hs, hshows, h => by
    cases h
    exact (CheckState.Declares.refl hs hshows).mono fun _ _ _ => .nil
  | d :: rest, inner, s, s', _, hs, hshows, h => by
    obtain ⟨_, s₁, hd, hrest⟩ := run_bind_eq_ok h
    have hfirst := group_declares hs hshows hd
    have hothers := ParamDecl.check_declares hfirst.tidy hfirst.shows hrest
    rw [hfirst.level, hfirst.number_append] at hothers
    exact (hfirst.andThen hothers).mono fun a _ hboth => .cons hboth.1 hboth.2

/-- Variables that are accepted are declared and resolved. -/
theorem VarDecl.check_declares {outer : Names} :
    ∀ {decls : List VarDecl} {inner : Names} {s s' : CheckState} {u : Unit}, s.Tidy →
    s.scopes.Shows inner outer → (decls.forM VarDecl.check).run s = .ok (u, s') →
    s.Declares inner outer (decls.flatMap fun d => d.names.map (·.name)) s' fun a =>
    VarDecl.Resolved a s.scopes.level
      ⟨inner ++ outer, s.scopes.offset⟩ decls ⟨Names.number s.symbols.length
        (decls.flatMap fun d => d.names.map (·.name)) ++ inner ++ outer,
        s'.scopes.offset⟩
  | [], inner, s, s', _, hs, hshows, h => by
    cases h
    exact (CheckState.Declares.refl hs hshows).mono fun _ _ _ => .nil
  | d :: rest, inner, s, s', _, hs, hshows, h => by
    obtain ⟨_, s₁, hd, hrest⟩ := run_bind_eq_ok h
    have hfirst := group_declares hs hshows hd
    have hothers := VarDecl.check_declares hfirst.tidy hfirst.shows hrest
    rw [hfirst.level, hfirst.number_append] at hothers
    exact (hfirst.andThen hothers).mono fun a _ hboth => .cons hboth.1 hboth.2

/-- Types that are accepted are declared and resolved; they take no words of the frame. -/
theorem TypeDecl.check_declares {outer : Names} :
    ∀ {decls : List TypeDecl} {inner : Names} {s s' : CheckState} {u : Unit}, s.Tidy →
    s.scopes.Shows inner outer → (decls.forM TypeDecl.check).run s = .ok (u, s') →
    s.Declares inner outer (decls.map (·.name.name)) s' fun a => TypeDecl.Resolved a
      ⟨inner ++ outer, s.scopes.offset⟩ decls
      ⟨Names.number s.symbols.length (decls.map (·.name.name)) ++ inner ++ outer,
        s'.scopes.offset⟩
  | [], inner, s, s', _, hs, hshows, h => by
    cases h
    exact (CheckState.Declares.refl hs hshows).mono fun _ _ _ => .nil
  | ⟨name, type, span⟩ :: rest, inner, s, s', _, hs, hshows, h => by
    obtain ⟨_, s₂, hd, hrest⟩ := run_bind_eq_ok h
    obtain ⟨id, s₁, htype, rfl⟩ := TypeDecl.check_ok hd
    obtain ⟨hknows, htypes⟩ := type.denote_resolves hshows.finds hs htype
    have hfirst := CheckState.Declares.of_types htypes hs hshows
    have hsecond : s₁.Declares inner outer [name.name] (s₁.declared name (.type id))
        fun a => a.symbols.typeAt? ⟨s₁.symbols.length⟩ = some id :=
      { types := TypeTable.le_refl _
        symbols := SymbolTable.le_add _ _
        annotations := rfl
        closed := rfl
        around := rfl
        listed := SymbolTable.names_add _ _
        shows := hfirst.shows.declared _ _
        tidy := hfirst.tidy.declared name (show (Meaning.type id).Known _ _ from hknows)
        holds := fun a _ hsymbols => hsymbols.types (SymbolTable.typeAt?_eq_some_iff.mpr
          (congrArg (Option.map Symbol.meaning) (SymbolTable.get?_add_self _ _))) }
    have hboth := hfirst.andThen hsecond
    have hothers := TypeDecl.check_declares hboth.tidy hboth.shows hrest
    refine (hboth.andThen hothers).mono fun a _ hall => .cons hall.1.1 hall.1.2 ?_
    have hoffset : (s₁.declared name (.type id)).scopes.offset = s.scopes.offset := by
      show s₁.scopes.offset = _
      rw [htypes.scopes]
    have hrest' := hall.2
    rw [hoffset, hboth.number_append] at hrest'
    have hlength := hfirst.length
    rw [List.length_nil, Nat.add_zero] at hlength
    rw [hlength]
    exact hrest'

/-- Sections that are accepted are declared and resolved, one after the other. -/
theorem Decl.checkSections_declares {outer : Names} :
    ∀ {decls : List Decl} {afterProcedure : Bool} {inner : Names}
    {s s' : CheckState} {u : Unit}, s.Tidy → s.scopes.Shows inner outer →
    (Decl.checkSections afterProcedure decls).run s = .ok (u, s') →
    s.Declares inner outer (decls.flatMap Decl.sectionNames) s' fun a =>
    Decl.SectionsResolved a s.scopes.level
      ⟨inner ++ outer, s.scopes.offset⟩ decls
      ⟨Names.number s.symbols.length (decls.flatMap Decl.sectionNames) ++ inner ++ outer,
        s'.scopes.offset⟩
  | [], _, inner, s, s', _, hs, hshows, h => by
    cases h
    exact (CheckState.Declares.refl hs hshows).mono fun _ _ _ => .nil
  | .procedure p :: rest, _, inner, s, s', _, hs, hshows, h => by
    rw [Decl.checkSections] at h
    exact (Decl.checkSections_declares hs hshows h).mono fun _ _ h => .procedure h
  | .types decls span :: rest, _, inner, s, s', _, hs, hshows, h => by
    obtain ⟨s₁, hd, hrest⟩ := Decl.checkSections_types_ok h
    have hfirst := TypeDecl.check_declares hs hshows hd
    have hothers := Decl.checkSections_declares hfirst.tidy hfirst.shows hrest
    rw [hfirst.level, hfirst.number_append] at hothers
    exact (hfirst.andThen hothers).mono fun a _ hboth => .types hboth.1 hboth.2
  | .vars decls span :: rest, _, inner, s, s', _, hs, hshows, h => by
    obtain ⟨s₁, hd, hrest⟩ := Decl.checkSections_vars_ok h
    have hfirst := VarDecl.check_declares hs hshows hd
    have hothers := Decl.checkSections_declares hfirst.tidy hfirst.shows hrest
    rw [hfirst.level, hfirst.number_append] at hothers
    exact (hfirst.andThen hothers).mono fun a _ hboth => .vars hboth.1 hboth.2

/-! ## Procedures -/

theorem SymbolTable.procedureAt?_of_get? {σ : SymbolTable}
    {id : SymbolId} {name : String} {P : Procedure} {span : Span}
    (h : σ.get? id = some ⟨name, .proc P, span⟩) : σ.procedureAt? id = some P :=
  procedureAt?_eq_some_iff.mpr (congrArg (Option.map Symbol.meaning) h)

/-- The state inside of a procedure that was declared in `s`, when the procedure's symbol is
`P` and `names` are declared in its scope. -/
structure CheckState.Opened (s : CheckState) (node : NodeId) (name : Ident) (outer : Names)
    (names : List String) (s' : CheckState) (P : Procedure) (Q : Analysis → Prop) : Prop where
  types : s.types ≤ s'.types
  symbols : s.symbols ≤ s'.symbols
  annotations : s'.annotations = s.annotations.recordSymbol node ⟨s.symbols.length⟩
  closed : s'.closed = s.closed
  around :
    s'.scopes.outer = (s.scopes.declared name.name ⟨s.symbols.length⟩).inner :: s.scopes.outer
  listed : s'.symbols.names = s.symbols.names ++ name.name :: names
  shows : s'.scopes.Shows (Names.number (s.symbols.length + 1) names)
    ((name.name, ⟨s.symbols.length⟩) :: outer)
  tidy : s'.Tidy
  own : s'.symbols.get? ⟨s.symbols.length⟩ = some ⟨name.name, .proc P, name.span⟩
  holds : ∀ a, s'.types ≤ a.types → s'.symbols.Keeps a.symbols → Q a

namespace CheckState.Opened

variable {node : NodeId} {name : Ident} {outer : Names} {names names' : List String}
  {P : Procedure} {Q Q' : Analysis → Prop}

theorem length (h : s.Opened node name outer names s' P Q) :
    s'.symbols.length = s.symbols.length + 1 + names.length := by
  rw [← SymbolTable.length_names, h.listed, List.length_append, SymbolTable.length_names,
    List.length_cons]
  omega

theorem number_append (h : s.Opened node name outer names s' P Q) (names' : List String) :
    Names.number s'.symbols.length names' ++ Names.number (s.symbols.length + 1) names =
      Names.number (s.symbols.length + 1) (names ++ names') := by
  rw [Names.number_append, h.length]

/-- Declarations inside of the procedure. -/
theorem declares (h : s.Opened node name outer names s' P Q) {s'' : CheckState}
    (h' : s'.Declares (Names.number (s.symbols.length + 1) names)
      ((name.name, ⟨s.symbols.length⟩) :: outer) names' s''
      Q') :
    s.Opened node name outer (names ++ names') s'' P fun a => Q a ∧ Q' a where
  types := TypeTable.le_trans h.types h'.types
  symbols := SymbolTable.le_trans h.symbols h'.symbols
  annotations := h'.annotations.trans h.annotations
  closed := h'.closed.trans h.closed
  around := h'.around.trans h.around
  listed := by rw [h'.listed, h.listed, List.append_assoc, List.cons_append]
  shows := h.number_append names' ▸ h'.shows
  tidy := h'.tidy
  own := h'.symbols _ _ h.own
  holds a htypes hsymbols := ⟨h.holds a (TypeTable.le_trans h'.types htypes)
    ((SymbolTable.keeps_of_le h'.symbols).trans hsymbols), h'.holds a htypes hsymbols⟩

/-- More is found out about the procedure. -/
theorem update (h : s.Opened node name outer names s' P Q) (f : Procedure → Procedure)
    (hparams : ∀ id ∈ (f P).params, ∃ v, s'.symbols.variableAt? id = some v) :
    s.Opened node name outer names { s' with
      symbols := s'.symbols.mapProcedure ⟨s.symbols.length⟩ f } (f P) Q where
  types := h.types
  symbols := SymbolTable.le_mapProcedure h.symbols (Nat.le_refl _) f
  annotations := h.annotations
  closed := h.closed
  around := h.around
  listed := (SymbolTable.names_mapProcedure ..).trans h.listed
  shows := h.shows
  tidy := by
    have hkeeps := SymbolTable.keeps_mapProcedure s'.symbols ⟨s.symbols.length⟩ f
    refine ⟨h.tidy.builtins, fun {id m} hid => ?_⟩
    have hid' : (s'.symbols.mapProcedure ⟨s.symbols.length⟩ f).meaning? id = some m := hid
    rw [SymbolTable.meaning?, SymbolTable.get?_mapProcedure] at hid'
    split at hid'
    next heq =>
      rw [heq, h.own] at hid'
      cases hid'
      exact Meaning.Known.mono (TypeTable.le_refl _) hkeeps hparams
    · exact (h.tidy.known hid').mono (TypeTable.le_refl _) hkeeps
  own := by
    rw [SymbolTable.get?_mapProcedure, if_pos rfl, h.own]
    rfl
  holds a htypes hsymbols :=
    h.holds a htypes ((SymbolTable.keeps_mapProcedure _ _ f).trans hsymbols)

/-- Inside a procedure the level is one higher. -/
theorem level (h : s.Opened node name outer names s' P Q) :
    s'.scopes.level = s.scopes.level + 1 := by
  unfold Scopes.level
  rw [h.around]
  rfl

/-- The symbols inside have the names that were declared. -/
theorem name_eq (h : s.Opened node name outer names s' P Q)
    {σ : SymbolTable} (hσ : s'.symbols ≤ σ)
    {x : String × SymbolId} (hx : x ∈ Names.number (s.symbols.length + 1) names) :
    σ.name x.2 = x.1 := by
  obtain ⟨hle, hget⟩ := Names.mem_number hx
  refine SymbolTable.name_of_names hσ ?_
  have hlength := s.symbols.length_names
  rw [h.listed, List.getElem?_append_right (by omega), hlength]
  have hindex : x.2.index - s.symbols.length = x.2.index - (s.symbols.length + 1) + 1 := by
    omega
  rw [hindex, List.getElem?_cons_succ, hget]

end CheckState.Opened

/-- The state in which the parameters of a procedure are checked. -/
theorem CheckState.opened_entered {inner outer : Names} (hs : s.Tidy)
    (hshows : s.scopes.Shows inner outer) (node : NodeId) (name : Ident) :
    s.Opened node name (inner ++ outer) [] (s.entered node name)
      { level := s.scopes.level + 1, params := [], frameSize := 0, displayBase := 0 } fun _ =>
      True where
  types := TypeTable.le_refl _
  symbols := SymbolTable.le_add _ _
  annotations := rfl
  closed := rfl
  around := rfl
  listed := SymbolTable.names_add _ _
  shows := (hshows.declared name.name _).enter
  tidy := by
    have hheader : s.header.Known s.types s.symbols := by
      simp [CheckState.header, Meaning.Known]
    exact ⟨hs.builtins, (hs.declared name hheader).known⟩
  own := SymbolTable.get?_add_self _ _
  holds _ _ _ := trivial

/-- The parameters are declared and the procedure's symbol has them. -/
theorem Check.openProcedure_opens {node : NodeId} {name : Ident} {params : List ParamDecl}
    {id : SymbolId} {inner outer : Names} (hs : s.Tidy) (hshows : s.scopes.Shows inner outer)
    (h : (openProcedure node name params).run s = .ok (id, s')) : id = ⟨s.symbols.length⟩ ∧
    s.Opened node name (inner ++ outer) (ParamDecl.namesAll params) s'
      { level := s.scopes.level + 1
        params := ((Names.number (s.symbols.length + 1) (ParamDecl.namesAll params)).map
          (·.2)).reverse
        frameSize := 0
        displayBase := 0 }
      fun a => ParamDecl.Resolved a (s.scopes.level + 1)
        ⟨(name.name, ⟨s.symbols.length⟩) :: (inner ++ outer), Frame.headerSize⟩ params
        ⟨Names.number (s.symbols.length + 1) (ParamDecl.namesAll params) ++
          (name.name, ⟨s.symbols.length⟩) :: (inner ++ outer), s'.scopes.offset⟩ := by
  obtain ⟨rfl, s₁, hparams, rfl⟩ := openProcedure_ok h
  have hentered := CheckState.opened_entered hs hshows node name
  have hdeclares := ParamDecl.check_declares hentered.tidy hentered.shows hparams
  have hopened := hentered.declares hdeclares
  have hentries : s₁.scopes.entries =
      ((Names.number (s.symbols.length + 1) (ParamDecl.namesAll params)).map (·.2)).reverse :=
      hopened.shows.entries
  have hlength := hentered.length
  simp only [List.length_nil, Nat.add_zero] at hlength
  rw [hlength] at hdeclares
  simp only [Names.number_nil, List.append_nil] at hdeclares
  -- the state's own tables are a future of it, so the parameters are variables there
  have hvariables : ∀ id ∈ s₁.scopes.entries, ∃ v, s₁.symbols.variableAt? id = some v := by
    obtain ⟨added, hadded, hvars⟩ :=
      (hdeclares.holds ⟨s₁.types, s₁.symbols, s₁.annotations, 0, []⟩
      (TypeTable.le_refl _) (SymbolTable.keeps_of_le (SymbolTable.le_refl _))).variables
    rw [hentries, List.append_cancel_right hadded]
    intro id hid
    obtain ⟨x, hx, rfl⟩ := List.mem_map.mp (List.mem_reverse.mp hid)
    obtain ⟨v, hv, _⟩ := hvars x hx
    exact ⟨v, hv⟩
  have hupdated := hopened.update (fun p => { p with params := s₁.scopes.entries }) hvariables
  refine ⟨rfl, { hupdated with
    own := ?_, holds := fun a htypes hsymbols => ?_ }⟩
  · rw [← hentries]
    exact hupdated.own
  · exact hdeclares.holds a htypes ((SymbolTable.keeps_mapProcedure _ _ _).trans hsymbols)

/-- A state in which procedures can be declared, when the innermost scope has the names of
`scope`. -/
structure CheckState.Ready (s : CheckState) (scope : Names) (outer : List Names) : Prop where
  tidy : s.Tidy
  shows : s.scopes.Shows scope outer.flatten
  level : s.scopes.level = outer.length
  places : ∀ a : Analysis, s.types ≤ a.types → s.symbols ≤ a.symbols →
    a.PlacesAll (scope :: outer)

/-- What procedures leave: the outline says what has become of the scope, the closed scopes
and the number of symbols. The frames are fixed whatever the nodes are; a fact about nodes
holds in every future in which the notes about them stay. -/
structure CheckState.Elaborates (s : CheckState) (scope : Names) (outer : List Names)
    (nodes : List NodeId) (s' : CheckState) (r : Outline) (P : Analysis → Prop) : Prop where
  moves : s.Moves nodes s'
  closed : s'.closed = s.closed ++ r.blocks.map Block.closed
  around : s'.scopes.outer = s.scopes.outer
  next : s'.symbols.length = r.next
  ready : s'.Ready r.scope outer
  procedures : ∃ added, r.scope = added ++ scope ∧
    ∀ x ∈ added, ∃ p, s'.symbols.procedureAt? x.2 = some p
  laid : ∀ a : Analysis, s'.types ≤ a.types → s'.symbols ≤ a.symbols →
    ∀ b ∈ r.blocks, b.Laid a
  holds : nodes.Nodup → ∀ a, s'.Within nodes a → P a ∧ ∀ b ∈ r.blocks, b.Noted a

namespace CheckState.Elaborates

variable {s'' : CheckState} {scope : Names} {outer : List Names} {nodes nodes' : List NodeId}
  {r r' : Outline} {P P' Q : Analysis → Prop}

theorem refl (hs : s.Ready scope outer) (hP : ∀ a, P a) :
    s.Elaborates scope outer nodes s ⟨[], scope, s.symbols.length⟩ P where
  moves := .refl s
  closed := (List.append_nil _).symm
  around := rfl
  next := rfl
  ready := hs
  procedures := ⟨[], rfl, by simp⟩
  laid _ _ _ := by simp
  holds _ a _ := ⟨hP a, by simp⟩

/-- Procedures in a row: the blocks of the first come first, and the second finds the names
that the first has left. -/
theorem andThen (h : s.Elaborates scope outer nodes s' r P)
    (h' : s'.Elaborates r.scope outer nodes' s'' r' P') :
    s.Elaborates scope outer (nodes ++ nodes') s'' ⟨r.blocks ++ r'.blocks, r'.scope, r'.next⟩
      fun a => P a ∧ P' a where
  moves := h.moves.trans h'.moves
  closed := by rw [h'.closed, h.closed, List.append_assoc, List.map_append]
  around := h'.around.trans h.around
  next := h'.next
  ready := h'.ready
  procedures := by
    obtain ⟨added, hscope, hadded⟩ := h.procedures
    obtain ⟨added', hscope', hadded'⟩ := h'.procedures
    refine ⟨added' ++ added, by rw [hscope', hscope, List.append_assoc], fun x hx => ?_⟩
    rcases List.mem_append.mp hx with hx | hx
    · exact hadded' x hx
    · obtain ⟨p, hp⟩ := hadded x hx
      exact ⟨p, SymbolTable.procedureAt?_mono h'.moves.symbols hp⟩
  laid a htypes hsymbols := by
    have hfirst := h.laid a (TypeTable.le_trans h'.moves.types htypes)
      (SymbolTable.le_trans h'.moves.symbols hsymbols)
    exact List.forall_mem_append.mpr ⟨hfirst, h'.laid a htypes hsymbols⟩
  holds hnodup a ha := by
    obtain ⟨hnodup₁, hnodup₂, hdisjoint⟩ := List.nodup_append.mp hnodup
    obtain ⟨hP, hblocks⟩ := h.holds hnodup₁ a (ha.before h'.moves (List.subset_append_left ..)
      fun n hn hn' => hdisjoint n hn n hn' rfl)
    obtain ⟨hP', hblocks'⟩ := h'.holds hnodup₂ a (ha.mono (List.subset_append_right ..))
    exact ⟨⟨hP, hP'⟩, List.forall_mem_append.mpr ⟨hblocks, hblocks'⟩⟩

theorem mono (h : s.Elaborates scope outer nodes s' r P) (hPQ : ∀ a, P a → Q a) :
    s.Elaborates scope outer nodes s' r Q :=
  { h with
    holds := fun hnodup a ha => ⟨hPQ a (h.holds hnodup a ha).1, (h.holds hnodup a ha).2⟩ }

end CheckState.Elaborates

/-- The symbol that a procedure has once its frame is fixed. -/
def CheckState.framed (s : CheckState) (params : List ParamDecl) (displayBase : Int) :
    Procedure where
  level := s.scopes.level + 1
  params :=
    ((Names.number (s.symbols.length + 1) (ParamDecl.namesAll params)).map (·.2)).reverse
  frameSize := displayBase + (s.scopes.level + 2)
  displayBase

/-- The layers of a frame: the parameters follow the header, and the variables follow them up
to the display. -/
structure CheckState.Layered (s : CheckState) (name : Ident)
    (outer : Names) (params : List ParamDecl)
    (decls : List Decl) (displayBase : Int) (offset : Int) (a : Analysis) : Prop where
  header : ParamDecl.Resolved a (s.scopes.level + 1)
    ⟨(name.name, ⟨s.symbols.length⟩) :: outer, Frame.headerSize⟩ params
    ⟨Names.number (s.symbols.length + 1) (ParamDecl.namesAll params) ++
    (name.name, ⟨s.symbols.length⟩) :: outer, offset⟩
  sections : Decl.SectionsResolved a (s.scopes.level + 1)
    ⟨Names.number (s.symbols.length + 1) (ParamDecl.namesAll params) ++
    (name.name, ⟨s.symbols.length⟩) :: outer, offset⟩ decls ⟨Names.number
    (s.symbols.length + 1) (ParamDecl.namesAll params ++ decls.flatMap Decl.sectionNames) ++
      (name.name, ⟨s.symbols.length⟩) :: outer, displayBase⟩

/-- The state in which the procedures nested in a procedure are checked: its own names are
declared, its frame is fixed. -/
theorem Check.header_opens {node : NodeId} {name : Ident}
    {params : List ParamDecl} {decls : List Decl}
    {inner outer : Names} {u : Unit} (hs : s.Tidy) (hshows : s.scopes.Shows inner outer)
    (h : (header node name params decls).run s = .ok (u, s')) :
    ∃ displayBase offset, Word.Fits (displayBase + (s.scopes.level + 2)) ∧
      s.Opened node name (inner ++ outer)
        (ParamDecl.namesAll params ++ decls.flatMap Decl.sectionNames) s'
        (s.framed params displayBase)
        (s.Layered name (inner ++ outer) params decls displayBase offset) := by
  obtain ⟨_, s₁, s₂, hopen, hsections, hfix⟩ := header_ok h
  obtain ⟨rfl, hopened₁⟩ := openProcedure_opens hs hshows hopen
  have hdeclares := Decl.checkSections_declares hopened₁.tidy hopened₁.shows hsections
  have hopened₂ := hopened₁.declares hdeclares
  obtain ⟨hfits, rfl⟩ := fixFrame_ok hfix
  rw [hopened₁.level, hopened₁.number_append] at hdeclares
  have hlevel : s₂.scopes.offset + ((s₂.scopes.level : Int) + 1) =
      s₂.scopes.offset + (s.scopes.level + 2) := by
    rw [hopened₂.level]
    push_cast
    omega
  rw [hlevel] at hfits ⊢
  have hopened₃ := hopened₂.update (fun p => { p with
      frameSize := s₂.scopes.offset + (s.scopes.level + 2), displayBase := s₂.scopes.offset })
    (hopened₂.tidy.known (congrArg (Option.map Symbol.meaning) hopened₂.own))
  refine ⟨s₂.scopes.offset, s₁.scopes.offset, hfits,
    { hopened₃ with holds := fun a htypes hsymbols => ?_ }⟩
  have hkeeps := (SymbolTable.keeps_mapProcedure s₂.symbols _ _).trans hsymbols
  exact ⟨hopened₁.holds a (TypeTable.le_trans hdeclares.types htypes)
    ((SymbolTable.keeps_of_le hdeclares.symbols).trans hkeeps),
    hdeclares.holds a htypes hkeeps⟩

section

variable {node : NodeId} {name : Ident} {scope : Names} {outer : List Names}
  {displayBase offset : Int} {params : List ParamDecl} {decls : List Decl} {a : Analysis}

/-- The state in which the nested procedures are declared. -/
theorem CheckState.Opened.ready (hs : s.Ready scope outer) (h : s.Opened node name (scope ++
        outer.flatten) (ParamDecl.namesAll params ++ decls.flatMap Decl.sectionNames) s'
      (s.framed params displayBase)
      (s.Layered name (scope ++ outer.flatten) params decls displayBase offset)) :
    s'.Ready (Names.number (s.symbols.length + 1)
        (ParamDecl.namesAll params ++ decls.flatMap Decl.sectionNames))
      (((name.name, ⟨s.symbols.length⟩) :: scope) :: outer) := by
  refine ⟨h.tidy, h.shows, by rw [h.level, hs.level]; rfl, fun a htypes hsymbols => ?_⟩
  obtain ⟨hscope, houter⟩ :=
    hs.places a (TypeTable.le_trans h.types htypes) (SymbolTable.le_trans h.symbols hsymbols)
  obtain ⟨hparams, hsections⟩ := h.holds a htypes (SymbolTable.keeps_of_le hsymbols)
  rw [hs.level] at hparams hsections
  have hget := hsymbols _ _ h.own
  have hprocedure := SymbolTable.procedureAt?_of_get? hget
  refine ⟨(hparams.lines.trans hsections.lines).places rfl fun x hx => h.name_eq hsymbols hx,
    List.forall_mem_cons.mpr ⟨⟨?_, fun {v} hv => ?_, fun {P} hP => ?_⟩, hscope⟩, houter⟩
  · simp [SymbolTable.name, hget]
  · rw [SymbolTable.variableAt?_of_procedureAt? hprocedure] at hv
    cases hv
  · rw [hprocedure] at hP
    cases hP
    refine ⟨by rw [← hs.level]; rfl, fun id hid => ?_⟩
    obtain ⟨added, hnames, hvariables⟩ := hparams.variables
    obtain ⟨x, hx, rfl⟩ := List.mem_map.mp (List.mem_reverse.mp hid)
    rw [List.append_cancel_right hnames] at hx
    exact hvariables x hx

/-- The frame of a procedure is fixed before its nested procedures are declared: they add no
variables. -/
theorem CheckState.Opened.framed {inner added : Names} {body : List Stmt} {span : Span}
    {owner : Option (SymbolId × ProcDecl Decl)} (hs : s.Ready scope outer)
    (hfits : Word.Fits (displayBase + (s.scopes.level + 2))) (h : s.Opened node name (scope ++
        outer.flatten) (ParamDecl.namesAll params ++ decls.flatMap Decl.sectionNames) s'
      (s.framed params displayBase)
      (s.Layered name (scope ++ outer.flatten) params decls displayBase offset))
    (htypes : s'.types ≤ a.types) (hsymbols : s'.symbols ≤ a.symbols)
    (hinner : inner = added ++
      Names.number (s.symbols.length + 1)
      (ParamDecl.namesAll params ++ decls.flatMap Decl.sectionNames))
    (hadded : ∀ x ∈ added, a.symbols.variableAt? x.2 = none) :
    Block.Framed a ⟨inner, ((name.name, ⟨s.symbols.length⟩) :: scope) :: outer, body, owner⟩
    ⟨s.symbols.length⟩
      ⟨node, name, params, decls, body, span⟩ (s.framed params displayBase) where
  symbol := hsymbols _ _ h.own
  level := congrArg (· + 1) hs.level
  leading := by
    simp only [Block.closed, CheckState.framed, hinner, Names.number_append, List.map_append,
      List.reverse_append, List.append_assoc]
    exact List.prefix_append ..
  named := by
    simp only [CheckState.framed, List.map_reverse, List.map_map]
    refine Eq.trans ?_
      (Names.reverse_map_fst_number (s.symbols.length + 1) (ParamDecl.namesAll params))
    refine congrArg List.reverse (List.map_congr_left fun x hx => h.name_eq hsymbols ?_)
    rw [Names.number_append]
    exact List.mem_append_right _ hx
  isVariable id hid := by
    have hknown := h.tidy.known (congrArg (Option.map Symbol.meaning) h.own)
    obtain ⟨v, hv⟩ := hknown id hid
    exact ⟨v, SymbolTable.variableAt?_mono hsymbols hv⟩
  lined := by
    obtain ⟨hparams, hsections⟩ := h.holds a htypes (SymbolTable.keeps_of_le hsymbols)
    rw [hs.level] at hparams hsections
    rw [Block.closed, hinner]
    exact (hparams.lines.trans hsections.lines).lined rfl hadded
  frameSize := by
    have hlevel := hs.level
    show displayBase + ((s.scopes.level : Int) + 2) =
      displayBase + ((outer.length + 1 : Nat) : Int) + 1
    omega
  bound := hfits.2

end


/-- A procedure is closed behind its nested procedures and its body: what was found out inside
stays. -/
theorem CheckState.Opened.close {node : NodeId} {name : Ident}
    {scope : Names} {outer : List Names} {displayBase offset : Int}
    {params : List ParamDecl} {decls : List Decl} {body : List Stmt}
    {R : Analysis → Prop} {s₁ s₂ s₃ : CheckState} {r : Outline} (span : Span)
    (hs : s.Ready scope outer) (hfits : Word.Fits (displayBase + (s.scopes.level + 2)))
    (h : s.Opened node name (scope ++ outer.flatten)
      (ParamDecl.namesAll params ++ decls.flatMap Decl.sectionNames) s₁
      (s.framed params displayBase)
      (s.Layered name (scope ++ outer.flatten) params decls displayBase offset))
    (hnested : s₁.Elaborates
      (Names.number (s.symbols.length + 1)
        (ParamDecl.namesAll params ++ decls.flatMap Decl.sectionNames))
      (((name.name, ⟨s.symbols.length⟩) :: scope) :: outer) (Decl.nodesAll decls) s₂ r R)
    (hbody : s₂.Settles (Stmt.nodesAll body) s₃ fun a => ∀ stmt ∈ body,
      stmt.Resolved a (r.scope ++
        (((name.name, ⟨s.symbols.length⟩) :: scope) :: outer).flatten) (outer.length + 1)) :
    s.Elaborates scope outer (Decl.nodes (.procedure ⟨node, name, params, decls, body, span⟩))
      { s₃ with
        scopes := s.scopes.declared name.name ⟨s.symbols.length⟩
        closed := s₃.closed ++ [ClosedScope.mk s₃.scopes.level s₃.scopes.entries] }
      ⟨r.blocks ++ [⟨r.scope, ((name.name, ⟨s.symbols.length⟩) :: scope) :: outer, body,
          some (⟨s.symbols.length⟩, ⟨node, name, params, decls, body, span⟩)⟩],
        (name.name, ⟨s.symbols.length⟩) :: scope, r.next⟩
      fun a => a.annotations.symbol? node = some ⟨s.symbols.length⟩ ∧
        a.symbols.procedureAt? ⟨s.symbols.length⟩ = some (s.framed params displayBase) ∧
        s.Layered name (scope ++ outer.flatten) params decls displayBase offset a ∧ R a ∧
        ∀ stmt ∈ body, stmt.Resolved a
          (r.scope ++ (((name.name, ⟨s.symbols.length⟩) :: scope) :: outer).flatten)
          (outer.length + 1) := by
  have hmoves := hnested.moves.trans hbody.moves
  have hle : s₁.symbols ≤ s₃.symbols := hmoves.symbols
  have hown := SymbolTable.procedureAt?_of_get? h.own
  rw [Decl.nodes]
  constructor
  case moves =>
    refine ⟨TypeTable.le_trans h.types hmoves.types,
      SymbolTable.le_trans h.symbols hmoves.symbols, fun n hn => ?_⟩
    simp only [List.mem_cons, List.mem_append, not_or] at hn
    show s₃.annotations.get n = _
    rw [hmoves.elsewhere n (by simp [hn]), h.annotations, Annotations.get_recordSymbol,
      if_neg hn.1]
  case closed =>
    show s₃.closed ++ [ClosedScope.mk s₃.scopes.level s₃.scopes.entries] = _
    have hlevel₃ : s₃.scopes.level = outer.length + 1 := by
      rw [hbody.notes.scopes, hnested.ready.level, List.length_cons]
    rw [hbody.notes.closed, hnested.closed, h.closed, List.map_append, ← List.append_assoc,
      hlevel₃, hbody.notes.scopes, hnested.ready.shows.entries]
    rfl
  case around => rfl
  case next =>
    show s₃.symbols.length = _
    rw [hbody.notes.symbols, hnested.next]
  case ready =>
    have htidy := hnested.ready.tidy
    refine ⟨⟨TypeTable.le_trans htidy.builtins hbody.moves.types, fun {id m} hid => ?_⟩,
      hs.shows.declared _ _, hs.level, fun a htypes hsymbols => ?_⟩
    · have hid' : s₂.symbols.meaning? id = some m := hbody.notes.symbols ▸ hid
      exact (htidy.known hid').mono hbody.moves.types
        (SymbolTable.keeps_of_le hbody.moves.symbols)
    · exact ((h.ready hs).places a (TypeTable.le_trans hmoves.types htypes)
        (SymbolTable.le_trans hle hsymbols)).2
  case procedures =>
    refine ⟨[(name.name, ⟨s.symbols.length⟩)], rfl,
      fun x hx => ⟨s.framed params displayBase, ?_⟩⟩
    rw [List.mem_singleton.mp hx]
    exact SymbolTable.procedureAt?_mono hle hown
  case laid =>
    -- Nested blocks are laid out already; the own one follows from header and sections.
    intro a htypes hsymbols
    have htypes₂ : s₂.types ≤ a.types := TypeTable.le_trans hbody.moves.types htypes
    have hsymbols₂ : s₂.symbols ≤ a.symbols :=
      SymbolTable.le_trans hbody.moves.symbols hsymbols
    have htypes₁ := TypeTable.le_trans hnested.moves.types htypes₂
    have hsymbols₁ := SymbolTable.le_trans hnested.moves.symbols hsymbols₂
    refine List.forall_mem_append.mpr ⟨hnested.laid a htypes₂ hsymbols₂,
      List.forall_mem_singleton.mpr ⟨hnested.ready.places a htypes₂ hsymbols₂,
        fun {id q} howner => ⟨s.framed params displayBase, ?_⟩⟩⟩
    obtain ⟨added, hscope, hadded⟩ := hnested.procedures
    cases howner
    refine h.framed hs hfits htypes₁ hsymbols₁ hscope fun x hx => ?_
    obtain ⟨p, hp⟩ := hadded x hx
    exact SymbolTable.variableAt?_of_procedureAt? (SymbolTable.procedureAt?_mono hsymbols₂ hp)
  case holds =>
    intro hnodup a ha
    obtain ⟨hnode, hnodup⟩ := List.nodup_cons.mp hnodup
    simp only [List.mem_append, not_or] at hnode
    obtain ⟨hnodup₁, hnodup₂, hdisjoint⟩ :=
      List.nodup_append.mp (List.nodup_append.mp hnodup).2.1
    -- Nodes are distinct, so the notes of the header outlive those of the nested procedures,
    -- and both outlive the notes of the body.
    have ha₃ : s₃.Within
        (node :: (params.map (·.node) ++ (Decl.nodesAll decls ++ Stmt.nodesAll body))) a :=
      ⟨ha.types, ha.symbols, ha.notes⟩
    have ha₂ : s₂.Within (Decl.nodesAll decls) a :=
      ha₃.before hbody.moves (fun n hn => by simp [hn]) fun n hn hn' =>
      hdisjoint n hn n hn' rfl
    have ha₁ : s₁.Within [node] a := ha₃.before hmoves (by simp) (by simpa using hnode.2)
    have hsymbol : a.annotations.symbol? node = some ⟨s.symbols.length⟩ := by
      rw [Annotations.symbol?, ha₁.notes node List.mem_cons_self, h.annotations,
        Annotations.get_recordSymbol, if_pos rfl]
    obtain ⟨hR, hblocks⟩ := hnested.holds hnodup₁ a ha₂
    have hstmts := hbody.holds hnodup₂ a (ha₃.mono fun n hn => by simp [hn])
    refine ⟨⟨hsymbol, SymbolTable.procedureAt?_mono ha₁.symbols hown,
      h.holds a ha₁.types (SymbolTable.keeps_of_le ha₁.symbols), hR, hstmts⟩, ?_⟩
    refine List.forall_mem_append.mpr ⟨hblocks,
      List.forall_mem_singleton.mpr ⟨hstmts, fun {id q} howner => ?_⟩⟩
    cases howner
    exact hsymbol

/-- The symbols are numbered upwards, from `lo` on and below `hi`. -/
def SymbolTable.Ascend (lo hi : Nat) (ids : List SymbolId) : Prop :=
  ids.Pairwise (·.index < ·.index) ∧ ∀ id ∈ ids, lo ≤ id.index ∧ id.index < hi

theorem SymbolTable.Ascend.append {lo mid hi : Nat} {ids ids' : List SymbolId}
    (h : Ascend lo mid ids) (h' : Ascend mid hi ids') (hlo : lo ≤ mid) (hhi : mid ≤ hi) :
    Ascend lo hi (ids ++ ids') := by
  refine ⟨List.pairwise_append.mpr ⟨h.1, h'.1, fun id hid id' hid' => ?_⟩, fun id hid => ?_⟩
  · exact Nat.lt_of_lt_of_le (h.2 id hid).2 (h'.2 id' hid').1
  · rcases List.mem_append.mp hid with hid | hid
    · exact ⟨(h.2 id hid).1, Nat.lt_of_lt_of_le (h.2 id hid).2 hhi⟩
    · exact ⟨Nat.le_trans hlo (h'.2 id hid).1, (h'.2 id hid).2⟩

mutual

/-- A procedure that is accepted is elaborated: its blocks are those of lexical scoping, and
it is resolved. -/
theorem Decl.checkProcedure_elaborates :
    ∀ (d : Decl) {scope : Names} {outer : List Names} {s s' : CheckState} {u : Unit},
    s.Ready scope outer → d.checkProcedure.run s = .ok (u, s') →
    s.Elaborates scope outer d.nodes s' (d.outline outer scope s.symbols.length) fun a =>
    (∀ {rest Γ'},
      Decl.ProceduresResolved a outer.length
      ((d.outline outer scope s.symbols.length).scope ++ outer.flatten) rest Γ' →
      Decl.ProceduresResolved a outer.length (scope ++ outer.flatten) (d :: rest) Γ') ∧
      SymbolTable.Ascend s.symbols.length s'.symbols.length (Decl.procedureSymbols a d)
  | .types .., scope, outer, s, s', _, hs, h => by
    rw [Decl.checkProcedure] at h
    cases h
    exact .refl hs fun _ => ⟨fun hrest => .types hrest, .nil, nofun⟩
  | .vars .., scope, outer, s, s', _, hs, h => by
    rw [Decl.checkProcedure] at h
    cases h
    exact .refl hs fun _ => ⟨fun hrest => .vars hrest, .nil, nofun⟩
  | .procedure ⟨node, name, params, decls, body, span⟩, scope, outer, s, s', _, hs, h => by
    obtain ⟨s₁, s₂, s₃, hheader, hnested, hbody, hclose⟩ := Decl.checkProcedure_ok h
    obtain ⟨displayBase, offset, hfits, hopened⟩ := header_opens hs.tidy hs.shows hheader
    have helaborates := Decl.checkProcedures_elaborates decls (hopened.ready hs) hnested
    have hsettles :=
      Stmt.checkAll_settles body helaborates.ready.shows.finds helaborates.ready.level hbody
    have haround : s₃.scopes.outer = (s.scopes.declared name.name ⟨s.symbols.length⟩).inner ::
        s.scopes.outer := by
      rw [hsettles.notes.scopes, helaborates.around]
      exact hopened.around
    rw [closeProcedure_run name span s₃ haround] at hclose
    cases hclose
    have hclosed := hopened.close span hs hfits helaborates hsettles
    rw [hopened.length] at hclosed
    rw [Decl.outline_procedure]
    refine hclosed.mono fun a hfacts => ?_
    obtain ⟨hsymbol, hprocedure, ⟨hparams, hsections⟩, ⟨hprocedures, hascend⟩,
      hbody⟩ := hfacts
    refine ⟨fun {rest Γ'} hrest => ?_, ?_⟩
    · rw [hs.level] at hparams hsections
      refine .procedure (.intro hsymbol hprocedure (congrArg (· + 1) hs.level) hparams rfl rfl
        hsections rfl ?_ hfits hprocedures hbody) hrest
      show displayBase + ((s.scopes.level : Int) + 2) =
        displayBase + ((outer.length : Int) + 2)
      rw [hs.level]
    · have hlt : s.symbols.length < s₁.symbols.length := by rw [hopened.length]; omega
      have hle := SymbolTable.length_le helaborates.moves.symbols
      rw [hopened.length] at hlt hle
      change SymbolTable.Ascend _ s₃.symbols.length _
      rw [hsettles.notes.symbols, Decl.procedureSymbols, hsymbol]
      refine SymbolTable.Ascend.append ⟨List.pairwise_singleton .., fun id hid => ?_⟩ hascend
        (Nat.le_of_lt hlt) hle
      rw [List.mem_singleton.mp hid]
      exact ⟨Nat.le_refl _, hlt⟩

/-- Procedures that are accepted are elaborated, one after the other. -/
theorem Decl.checkProcedures_elaborates :
    ∀ (decls : List Decl) {scope : Names} {outer : List Names} {s s' : CheckState} {u : Unit},
    s.Ready scope outer → (Decl.checkProcedures decls).run s = .ok (u, s') →
    s.Elaborates scope outer (Decl.nodesAll decls) s'
    (Decl.outlineAll outer scope s.symbols.length decls) fun a =>
      Decl.ProceduresResolved a outer.length (scope ++ outer.flatten) decls
        ((Decl.outlineAll outer scope s.symbols.length decls).scope ++ outer.flatten) ∧
      SymbolTable.Ascend s.symbols.length s'.symbols.length (Decl.procedureSymbolsAll a decls)
  | [], scope, outer, s, s', _, hs, h => by
    rw [Decl.checkProcedures] at h
    cases h
    exact .refl hs fun _ => ⟨.nil, .nil, nofun⟩
  | d :: rest, scope, outer, s, s', _, hs, h => by
    obtain ⟨s₁, hd, hrest⟩ := Decl.checkProcedures_cons_ok h
    have hfirst := Decl.checkProcedure_elaborates d hs hd
    have hothers := Decl.checkProcedures_elaborates rest hfirst.ready hrest
    have hle := SymbolTable.length_le hfirst.moves.symbols
    have hle' := SymbolTable.length_le hothers.moves.symbols
    rw [hfirst.next] at hothers hle hle'
    refine (hfirst.andThen hothers).mono fun a ⟨⟨hd, hids⟩, hrest, hids'⟩ => ⟨hd hrest, ?_⟩
    rw [hfirst.next] at hids
    exact hids.append hids' hle hle'

end

/-! ## Programs -/

/-- The nodes of the tree have distinct identities. -/
def Program.DistinctNodes (p : Program) : Prop := p.nodes.Nodup

instance (p : Program) : Decidable p.DistinctNodes :=
  inferInstanceAs (Decidable (List.Nodup _))

theorem Program.nesting_distinctNodes : Program.nesting.DistinctNodes := by decide +kernel

theorem Program.nesting_accepted : ∃ a, Program.nesting.analyze = .ok a :=
  Except.exists_of_isOk (by decide +kernel)

/-- What the analysis of a program has found out. -/
structure Program.Analyzed (a : Analysis) (p : Program) : Prop where
  builtins : ({} : TypeTable) ≤ a.types
  known : ∀ {id m}, a.symbols.meaning? id = some m → m.Known a.types a.symbols
  closed : a.closedScopes = p.blocks.map Block.closed
  laid : ∀ b ∈ p.blocks, b.Laid a
  lined : a.Lined 0 0 (a.variables p.mainBlock.closed.entries) a.mainDisplayBase
  bound : a.mainDisplayBase < Word.greatest
  resolved : p.DistinctNodes → ∃ l Γ, p.Resolved a l Γ
  noted : p.DistinctNodes → ∀ b ∈ p.blocks, b.Noted a

/-- The sections of the main program. -/
theorem Decl.checkSections_main {decls : List Decl} {s₁ : CheckState} {u : Unit}
    (h : (Decl.checkSections false decls).run {} = .ok (u, s₁)) :
    ({} : CheckState).Declares [] [] (decls.flatMap Decl.sectionNames) s₁
    (fun a => Decl.SectionsResolved a 0 ⟨[], 0⟩
      decls ⟨Names.number 0 (decls.flatMap Decl.sectionNames), s₁.scopes.offset⟩) ∧
    s₁.Ready (Names.number 0 (decls.flatMap Decl.sectionNames)) [] := by
  have hshows : ({} : CheckState).scopes.Shows [] [] :=
    ⟨fun _ => Std.TreeMap.getElem?_emptyc, rfl, fun _ => rfl⟩
  have htidy : ({} : CheckState).Tidy := ⟨TypeTable.le_refl _, fun hid => by cases hid⟩
  have hdeclares := Decl.checkSections_declares htidy hshows h
  have hshows₁ := hdeclares.shows
  simp only [List.append_nil] at hdeclares hshows₁
  refine ⟨hdeclares, hdeclares.tidy, hshows₁, hdeclares.level, fun a htypes hsymbols => ?_⟩
  have hlines := (hdeclares.holds a htypes (SymbolTable.keeps_of_le hsymbols)).lines
  refine ⟨hlines.places (List.append_nil _).symm fun x hx => ?_, trivial⟩
  refine SymbolTable.name_of_names hsymbols ?_
  rw [hdeclares.listed]
  exact (Names.mem_number hx).2

theorem Decl.length_checkSections_main {decls : List Decl} {s₁ : CheckState} {u : Unit}
    (h : (Decl.checkSections false decls).run {} = .ok (u, s₁)) :
    s₁.symbols.length = (decls.flatMap Decl.sectionNames).length :=
  (Decl.checkSections_main h).1.length.trans (Nat.zero_add _)

/-- Everything that is known of an accepted program, whatever the identities of its nodes. -/
theorem Program.analyzed_of_analyze {p : Program} {a : Analysis} (h : p.analyze = .ok a) :
    p.Analyzed a := by
  obtain ⟨s₁, s₂, s₃, hsections, hoffset, hprocedures, hbody, rfl⟩ := Program.analyze_ok h
  obtain ⟨hdeclares, hready⟩ := Decl.checkSections_main hsections
  have helaborates := Decl.checkProcedures_elaborates p.decls hready hprocedures
  rw [Decl.length_checkSections_main hsections] at helaborates
  have hsettles :=
    Stmt.checkAll_settles p.body helaborates.ready.shows.finds helaborates.ready.level hbody
  let a : Analysis := ⟨s₃.types, s₃.symbols, s₃.annotations, s₁.scopes.offset,
    s₃.closed ++ [ClosedScope.mk 0 s₃.scopes.entries]⟩
  have htypes₁ : s₁.types ≤ a.types :=
    TypeTable.le_trans helaborates.moves.types hsettles.moves.types
  have hsymbols₁ : s₁.symbols ≤ a.symbols :=
    SymbolTable.le_trans helaborates.moves.symbols hsettles.moves.symbols
  have hlayers := hdeclares.holds a htypes₁ (SymbolTable.keeps_of_le hsymbols₁)
  have hbound : s₁.scopes.offset < Word.greatest :=
    Int.lt_iff_le_and_ne.mpr ⟨hlayers.offset_le (by decide), hoffset⟩
  have ha₃ : s₃.Within p.nodes a :=
    ⟨TypeTable.le_refl _, SymbolTable.le_refl _, fun _ _ => rfl⟩
  have ha₂ (hnodes : p.DistinctNodes) : s₂.Within (Decl.nodesAll p.decls) a :=
    ha₃.before hsettles.moves (List.subset_append_left ..)
      fun n hn hn' => (List.nodup_append.mp hnodes).2.2 n hn n hn' rfl
  constructor
  case builtins => exact TypeTable.le_trans hdeclares.tidy.builtins htypes₁
  case known =>
    intro id m hid
    have hid' : s₂.symbols.meaning? id = some m := hsettles.notes.symbols ▸ hid
    exact (helaborates.ready.tidy.known hid').mono hsettles.moves.types
      (SymbolTable.keeps_of_le hsettles.moves.symbols)
  case closed =>
    show s₃.closed ++ [ClosedScope.mk 0 s₃.scopes.entries] = _
    rw [hsettles.notes.closed, helaborates.closed, hdeclares.closed, hsettles.notes.scopes,
      helaborates.ready.shows.entries, Program.blocks, List.map_append]
    rfl
  case laid =>
    exact List.forall_mem_append.mpr ⟨helaborates.laid a hsettles.moves.types
      hsettles.moves.symbols, List.forall_mem_singleton.mpr
      ⟨helaborates.ready.places a hsettles.moves.types hsettles.moves.symbols, nofun⟩⟩
  case lined =>
    -- Procedures are symbols of the scope as well, and take no words of the frame.
    obtain ⟨added, hscope, hadded⟩ := helaborates.procedures
    have hentries : p.mainBlock.closed.entries = ((added ++
          Names.number 0 (p.decls.flatMap Decl.sectionNames)).map (·.2)).reverse := by
      rw [← hscope]
      rfl
    rw [hentries]
    refine hlayers.lines.lined (List.append_nil _).symm fun x hx => ?_
    obtain ⟨q, hq⟩ := hadded x hx
    exact SymbolTable.variableAt?_of_procedureAt?
      (SymbolTable.procedureAt?_mono hsettles.moves.symbols hq)
  case bound => exact hbound
  case resolved =>
    intro hnodes
    obtain ⟨hnodup₁, hnodup₂, _⟩ := List.nodup_append.mp hnodes
    obtain ⟨⟨hprocedures, hascend⟩, _⟩ := helaborates.holds hnodup₁ a (ha₂ hnodes)
    have hstmts := hsettles.holds hnodup₂ a (ha₃.mono (List.subset_append_right ..))
    simp only [List.flatten_nil, List.append_nil] at hprocedures hstmts
    exact ⟨_, _, TypeTable.le_trans hdeclares.tidy.builtins htypes₁,
      hlayers, rfl, hbound, hprocedures,
      hascend.1.imp fun hlt heq => by rw [heq] at hlt; exact Nat.lt_irrefl _ hlt, hstmts⟩
  case noted =>
    intro hnodes
    obtain ⟨hnodup₁, hnodup₂, _⟩ := List.nodup_append.mp hnodes
    exact List.forall_mem_append.mpr
      ⟨(helaborates.holds hnodup₁ a (ha₂ hnodes)).2, List.forall_mem_singleton.mpr
      ⟨hsettles.holds hnodup₂ a (ha₃.mono (List.subset_append_right ..)), nofun⟩⟩

/-- The symbols of a program are those that its tree numbers. -/
theorem Program.length_symbols {p : Program} {a : Analysis} (h : p.analyze = .ok a) :
    a.symbols.length = p.outline.next := by
  obtain ⟨s₁, s₂, s₃, hsections, _, hprocedures, hbody, rfl⟩ := Program.analyze_ok h
  have hready := (Decl.checkSections_main hsections).2
  have helaborates := Decl.checkProcedures_elaborates p.decls hready hprocedures
  rw [Decl.length_checkSections_main hsections] at helaborates
  have hsettles :=
    Stmt.checkAll_settles p.body helaborates.ready.shows.finds helaborates.ready.level hbody
  show s₃.symbols.length = _
  rw [hsettles.notes.symbols]
  exact helaborates.next

/-- An accepted program whose nodes have distinct identities is resolved by its analysis. -/
theorem Program.resolved_of_analyze {p : Program} {a : Analysis}
    (h : p.analyze = .ok a) (hnodes : p.DistinctNodes) :
    ∃ l Γ, p.Resolved a l Γ :=
  (Program.analyzed_of_analyze h).resolved hnodes

end BlockLang
