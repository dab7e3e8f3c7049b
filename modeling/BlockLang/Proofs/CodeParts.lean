import BlockLang.Proofs.Assembly

/-!
# The parts of code

What is known of a construct that has code: what the tables have for it, the code of its
parts, and how its code is put together from theirs. There is one lemma for each form of
the tree. A proof about code goes by induction over the tree and cites the lemma of each
form, so it never opens the making of code.

* Tables: a look-up that succeeds says what the table has (`Annotations.symbol_ok`,
  `Analysis.variableOf_ok`, `Analysis.arrayLayout_ok`, `Analysis.field_ok`), and a table
  that has something lets the look-up succeed (`Annotations.symbol_of_some`,
  `Analysis.variableOf_of_some`, `Analysis.arrayLayout_of_get?`,
  `Analysis.field_of_get?`).
* References and expressions: `Expr.code_ref_eq_ok`, `Expr.code_binary_eq_ok` and
  `Reference.code_eq_ok` take code apart; for selectors there is an equation that makes
  code (`Selector.code_element`, `Selector.code_field`, `Selector.code_fieldElement`) and
  its inversion.
* Calls: `Call.exists_of_code` finds the procedure, its entry and the code of the
  arguments, and `Call.code_eq_ok` does so where the procedure is known already.
* Statements and procedures: `Stmt.code_ifElse_eq_ok`, `Stmt.code_whileDo_eq_ok`,
  `Stmt.codeAll_cons_eq_ok`, `Decl.code_procedure_eq_ok` and their like, each with the
  addresses at which the parts start.

All of them rest on `Except.bind_eq_ok`: a computation in steps that succeeds has
succeeded in every step.
-/

namespace BlockLang

theorem Except.bind_eq_ok {ε α β : Type} {x : Except ε α}
    {f : α → Except ε β} {v : β} (h : x >>= f = .ok v) :
    ∃ u, x = .ok u ∧ f u = .ok v := by
  cases x with
  | error e => cases h
  | ok u => exact ⟨u, rfl, h⟩

/-- Of two steps that fail, the first or the second has failed. -/
theorem Except.bind_eq_error {ε α β : Type} {x : Except ε α}
    {f : α → Except ε β} {e : ε} (h : x >>= f = .error e) :
    x = .error e ∨ ∃ v, x = .ok v ∧ f v = .error e := by
  cases x with
  | error e' =>
    cases h
    exact .inl rfl
  | ok v => exact .inr ⟨v, rfl, h⟩

/-- What a function is applied to has succeeded. -/
theorem Except.map_eq_ok {ε α β : Type} {f : α → β}
    {x : Except ε α} {y : β} (h : x.map f = .ok y) :
    ∃ v, x = .ok v ∧ f v = y := by
  cases x with
  | error e => cases h
  | ok v => exact ⟨v, rfl, Except.ok.inj h⟩

variable {a : Analysis} {entries entries' : Entries} {start : Nat} {t : Int} {c : Code}

/-! ## Tables -/

theorem Annotations.symbol_of_some {n : Annotations} {node : NodeId}
    {id : SymbolId} (h : n.symbol? node = some id) :
    n.symbol node = .ok id := by
  simp only [symbol, h]

theorem Annotations.type_of_some {n : Annotations} {node : NodeId}
    {type : TypeId} (h : n.type? node = some type) :
    n.type node = .ok type := by
  simp only [Annotations.type, h]

theorem Analysis.variableOf_of_some {id : SymbolId}
    {v : Variable} (h : a.symbols.variableAt? id = some v) :
    a.variableOf id = .ok v := by
  simp only [variableOf, h]

theorem Analysis.procedureOf_of_some {id : SymbolId}
    {p : Procedure} (h : a.symbols.procedureAt? id = some p) :
    a.procedureOf id = .ok p := by
  simp only [procedureOf, h]

/-- The layout of an array is found. -/
theorem Analysis.arrayLayout_of_get? {type element : TypeId} {low high : Word} {size : Int}
    (h : a.types.get? type = some (.array element low high size)) (name : Ident)
    (span : Span) : a.arrayLayout type name span = .ok (low, a.types.size element) := by
  simp only [arrayLayout, h]

/-- A field of a record is found. -/
theorem Analysis.field_of_get? {type : TypeId} {fields : List Field} {size : Int} {f : Field}
    {field : Ident} (h : a.types.get? type = some (.record fields size))
    (hf : fields.find? (·.name == field.name) = some f)
    (name : Ident) (span : Span) : a.field type name field span = .ok f := by
  simp only [Analysis.field, TypeTable.field?, h, Option.bind_some, TypeDescriptor.field?, hf]

/-- A symbol that is looked up with success is noted at the node. -/
theorem Annotations.symbol_ok {n : Annotations} {node : NodeId}
    {id : SymbolId} (h : n.symbol node = .ok id) :
    n.symbol? node = some id := by
  unfold Annotations.symbol at h
  split at h <;> cases h
  assumption

/-- A type that is looked up with success is noted at the node. -/
theorem Annotations.type_ok {n : Annotations} {node : NodeId}
    {type : TypeId} (h : n.type node = .ok type) :
    n.type? node = some type := by
  unfold Annotations.type at h
  split at h <;> cases h
  assumption

/-- A variable that is looked up with success is in the table. -/
theorem Analysis.variableOf_ok {id : SymbolId} {v : Variable} (h : a.variableOf id = .ok v) :
    a.symbols.variableAt? id = some v := by
  unfold Analysis.variableOf at h
  split at h <;> cases h
  assumption

/-- A procedure that is looked up with success is in the table. -/
theorem Analysis.procedureOf_ok {id : SymbolId}
    {p : Procedure} (h : a.procedureOf id = .ok p) :
    a.symbols.procedureAt? id = some p := by
  unfold Analysis.procedureOf at h
  split at h <;> cases h
  assumption

/-- A type whose layout as an array is found is an array. -/
theorem Analysis.arrayLayout_ok {type : TypeId} {name : Ident} {span : Span} {low : Word}
    {size : Int} (h : a.arrayLayout type name span = .ok (low, size)) :
    ∃ element high length, a.types.get? type = some (.array element low high length) ∧
    a.types.size element = size := by
  unfold Analysis.arrayLayout at h
  split at h <;> cases h
  exact ⟨_, _, _, by assumption, rfl⟩

/-- A type of which a field is found is a record with that field. -/
theorem Analysis.field_ok {type : TypeId} {name field : Ident} {span : Span} {f : Field}
    (h : a.field type name field span = .ok f) :
    ∃ fields size, a.types.get? type = some (.record fields size) ∧
    fields.find? (·.name == field.name) = some f := by
  unfold Analysis.field at h
  split at h <;> cases h
  next hfield =>
    obtain ⟨d, hget, hf⟩ := Option.bind_eq_some_iff.mp hfield
    cases d with
    | record fields size => exact ⟨fields, size, hget, hf⟩
    | integer | char | boolean | array => cases hf

/-! ## References and expressions -/

/-- The value of a reference is loaded from its address. -/
theorem Expr.code_ref (r : VarRef) (t : Int) :
    Expr.code a t (.ref r) = (Reference.code a t r).map (· ++ [.memory .ld .ac 0 .ac]) := by
  rw [Expr.code]
  cases Reference.code a t r <;> rfl

theorem Expr.code_ref_eq_ok {r : VarRef} (h : Expr.code a t (.ref r) = .ok c) :
    ∃ address, r.code a t = .ok address ∧ c = address ++ [.memory .ld .ac 0 .ac] := by
  rw [Expr.code_ref] at h
  obtain ⟨address, haddress, rfl⟩ := Except.map_eq_ok h
  exact ⟨address, haddress, rfl⟩

/-- An operation has code for both operands; the right one has a temporary less to use. -/
theorem Expr.code_binary_eq_ok {node : NodeId} {op : BinaryOp} {left right : Expr}
    {span : Span} (h : Expr.code a t (.binary node op left right span) = .ok c) :
    ∃ l r, left.code a t = .ok l ∧ right.code a (t - 1) = .ok r ∧
      c = l ++ .memory .st .ac (Int64.ofInt (t - 1)) .mp :: r ++
        .memory .ld .ac1 (Int64.ofInt (t - 1)) .mp :: Code.operate op := by
  rw [Expr.code] at h
  obtain ⟨l, hl, h⟩ := Except.bind_eq_ok h
  obtain ⟨r, hr, h⟩ := Except.bind_eq_ok h
  cases h
  exact ⟨l, r, hl, hr, rfl⟩

/-- Where a reference has code, it has a variable, and its selector has code. -/
theorem Reference.code_eq_ok {node : NodeId} {name : Ident} {selector : Selector Expr}
    {span : Span} (h : Reference.code a t ⟨node, name, selector, span⟩ = .ok c) :
    ∃ id v c', a.annotations.symbol? node = some id ∧ a.symbols.variableAt? id = some v ∧
      Selector.code a t v name span selector = .ok c' ∧ c = c' ++ Code.addBase v := by
  rw [Reference.code] at h
  obtain ⟨id, hid, h⟩ := Except.bind_eq_ok h
  obtain ⟨v, hv, h⟩ := Except.bind_eq_ok h
  obtain ⟨c', hc', h⟩ := Except.bind_eq_ok h
  cases h
  exact ⟨id, v, c', Annotations.symbol_ok hid, Analysis.variableOf_ok hv, hc', rfl⟩

/-- The code for an element: the index, scaled. -/
theorem Selector.code_element {t : Int} {v : Variable} {element : TypeId} {low high : Word}
    {size : Int} (h : a.types.get? v.type = some (.array element low high size))
    (name : Ident) (span : Span) (index : Expr) :
    Selector.code a t v name span (.element index) =
      (index.code a t).map
      (· ++ Code.scaleIndex low (a.types.size element) (v.constantPart 0)) := by
  rw [Selector.code, Analysis.arrayLayout_of_get? h]
  cases index.code a t <;> rfl

/-- The code for a field: its offset. -/
theorem Selector.code_field {t : Int} {v : Variable} {fields : List Field} {size : Int}
    {f : Field} {field : Ident} (h : a.types.get? v.type = some (.record fields size))
    (hf : fields.find? (·.name == field.name) = some f) (name : Ident) (span : Span) :
    Selector.code a t v name span (.field field) =
      .ok [.memory .ldc .ac (Int64.ofInt (v.constantPart f.offset)) .ac] := by
  rw [Selector.code, Analysis.field_of_get? h hf]
  rfl

/-- The code for an element of a field: the index, scaled, and the offset of the field. -/
theorem Selector.code_fieldElement {t : Int} {v : Variable} {fields : List Field}
    {length size : Int} {f : Field} {field : Ident} {element : TypeId} {low high : Word}
    (h : a.types.get? v.type = some (.record fields size))
    (hf : fields.find? (·.name == field.name) = some f)
    (harray : a.types.get? f.type = some (.array element low high length))
    (name : Ident) (span : Span) (index : Expr) :
    Selector.code a t v name span (.fieldElement field index) =
      (index.code a t).map
      (· ++ Code.scaleIndex low (a.types.size element) (v.constantPart f.offset)) := by
  rw [Selector.code, Analysis.field_of_get? h hf]
  change (a.arrayLayout _ _ _ >>= _) = _
  rw [Analysis.arrayLayout_of_get? harray]
  cases index.code a t <;> rfl

/-- An element that has code is one of an array. -/
theorem Selector.code_element_eq_ok {t : Int} {v : Variable} {name : Ident} {span : Span}
    {index : Expr} {c : Code} (h : Selector.code a t v name span (.element index) = .ok c) :
    ∃ element low high size ci, a.types.get? v.type = some (.array element low high size) ∧
    index.code a t = .ok ci ∧
      c = ci ++ Code.scaleIndex low (a.types.size element) (v.constantPart 0) := by
  have h' := h
  rw [Selector.code] at h'
  obtain ⟨⟨low, length⟩, hlayout, -⟩ := Except.bind_eq_ok h'
  obtain ⟨element, high, size, hget, -⟩ := Analysis.arrayLayout_ok hlayout
  rw [Selector.code_element hget] at h
  obtain ⟨ci, hci, rfl⟩ := Except.map_eq_ok h
  exact ⟨element, low, high, size, ci, hget, hci, rfl⟩

/-- A field that has code is one of a record. -/
theorem Selector.code_field_eq_ok {t : Int} {v : Variable} {name field : Ident} {span : Span}
    {c : Code} (h : Selector.code a t v name span (.field field) = .ok c) :
    ∃ fields size f, a.types.get? v.type = some (.record fields size) ∧
      fields.find? (·.name == field.name) = some f ∧
      c = [.memory .ldc .ac (Int64.ofInt (v.constantPart f.offset)) .ac] := by
  rw [Selector.code] at h
  obtain ⟨f, hfield, h⟩ := Except.bind_eq_ok h
  obtain ⟨fields, size, hget, hf⟩ := Analysis.field_ok hfield
  cases h
  exact ⟨fields, size, f, hget, hf, rfl⟩

/-- An element of a field that has code is one of an array in a record. -/
theorem Selector.code_fieldElement_eq_ok {t : Int} {v : Variable}
    {name field : Ident} {span : Span} {index : Expr}
    {c : Code} (h : Selector.code a t v name span (.fieldElement field index) = .ok c) :
    ∃ fields size f element low high length ci,
    a.types.get? v.type = some (.record fields size) ∧
      fields.find? (·.name == field.name) = some f ∧
      a.types.get? f.type = some (.array element low high length) ∧ index.code a t = .ok ci ∧
      c = ci ++ Code.scaleIndex low (a.types.size element) (v.constantPart f.offset) := by
  have h' := h
  rw [Selector.code] at h'
  obtain ⟨f, hfield, h'⟩ := Except.bind_eq_ok h'
  obtain ⟨fields, size, hget, hf⟩ := Analysis.field_ok hfield
  obtain ⟨⟨low, _⟩, hlayout, -⟩ := Except.bind_eq_ok h'
  obtain ⟨element, high, length, harray, -⟩ := Analysis.arrayLayout_ok hlayout
  rw [Selector.code_fieldElement hget hf harray] at h
  obtain ⟨ci, hci, rfl⟩ := Except.map_eq_ok h
  exact ⟨fields, size, f, element, low, high, length, ci, hget, hf, harray, hci, rfl⟩

/-! ## Calls -/

theorem Expr.argumentsCode_cons_eq_ok {arg : Expr}
    {args : List Expr} {param : SymbolId} {params : List SymbolId}
    (h : Expr.argumentsCode a (arg :: args) (param :: params) = .ok c) :
    ∃ first rest, arg.argumentCode a param = .ok first ∧
    Expr.argumentsCode a args params = .ok rest ∧
      c = first ++ rest := by
  rw [Expr.argumentsCode] at h
  obtain ⟨first, hfirst, h⟩ := Except.bind_eq_ok h
  obtain ⟨rest, hrest, h⟩ := Except.bind_eq_ok h
  cases h
  exact ⟨first, rest, hfirst, hrest, rfl⟩

/-- A call that has code is one of a procedure with an entry. -/
theorem Call.exists_of_code {call : Call} (h : call.code a entries start = .ok c) :
    ∃ id P entry args, a.annotations.symbol? call.node = some id ∧
    a.symbols.procedureAt? id = some P ∧
      call.entry entries id = .ok entry ∧ Expr.argumentsCode a call.args P.params = .ok args ∧
      c = args ++ Code.transfer P entry (start + args.length) ++ Code.restoreRegisters := by
  unfold Call.code at h
  obtain ⟨id, hid, h⟩ := Except.bind_eq_ok h
  obtain ⟨P, hP, h⟩ := Except.bind_eq_ok h
  obtain ⟨entry, hentry, h⟩ := Except.bind_eq_ok h
  obtain ⟨args, hargs, h⟩ := Except.bind_eq_ok h
  cases h
  exact ⟨id, P, entry, args, Annotations.symbol_ok hid, Analysis.procedureOf_ok hP, hentry,
    hargs, rfl⟩

/-- The parts of a call of a known procedure. -/
theorem Call.code_eq_ok {call : Call} {id : SymbolId} {P : Procedure}
    (hid : a.annotations.symbol? call.node = some id)
    (hP : a.symbols.procedureAt? id = some P) (h : call.code a entries start = .ok c) :
    ∃ entry args, call.entry entries id = .ok entry ∧
    Expr.argumentsCode a call.args P.params = .ok args ∧
      c = args ++ Code.transfer P entry (start + args.length) ++ Code.restoreRegisters := by
  obtain ⟨id', P', entry, args, hid', hP', hentry, hargs, rfl⟩ := Call.exists_of_code h
  cases hid.symm.trans hid'
  cases hP.symm.trans hP'
  exact ⟨entry, args, hentry, hargs, rfl⟩

/-! ## Statements -/

namespace Stmt

variable {condition : Expr} {span : Span}

/-- A conditional: the condition, a jump over the first branch, the first branch, a jump over
the second, and the second. -/
theorem code_ifElse_eq_ok {thenBranch elseBranch : List Stmt}
    (h : Stmt.code a entries start (.ifElse condition thenBranch elseBranch span) = .ok c) :
    ∃ c₁ c₂ c₃, condition.code a 0 = .ok c₁ ∧
    Stmt.codeAll a entries (start + c₁.length + 1) thenBranch = .ok c₂ ∧
      Stmt.codeAll a entries (start + c₁.length + 1 + c₂.length + 1) elseBranch = .ok c₃ ∧
      c = c₁ ++ Code.skipIfZero (c₂.length + 1) :: c₂ ++ Code.skip c₃.length :: c₃ := by
  rw [Stmt.code] at h
  obtain ⟨c₁, hc₁, h⟩ := Except.bind_eq_ok h
  obtain ⟨c₂, hc₂, h⟩ := Except.bind_eq_ok h
  obtain ⟨c₃, hc₃, h⟩ := Except.bind_eq_ok h
  cases h
  exact ⟨c₁, c₂, c₃, hc₁, hc₂, hc₃, rfl⟩

/-- A loop: the condition, a jump out, the body and a jump back. -/
theorem code_whileDo_eq_ok {body : List Stmt}
    (h : Stmt.code a entries start (.whileDo condition body span) = .ok c) :
    ∃ c₁ c₂, condition.code a 0 = .ok c₁ ∧
    Stmt.codeAll a entries (start + c₁.length + 1) body = .ok c₂ ∧
      c = c₁ ++ Code.skipIfZero (c₂.length + 1) :: c₂ ++
      [Code.back (c₁.length + c₂.length + 2)] := by
  rw [Stmt.code] at h
  obtain ⟨c₁, hc₁, h⟩ := Except.bind_eq_ok h
  obtain ⟨c₂, hc₂, h⟩ := Except.bind_eq_ok h
  cases h
  exact ⟨c₁, c₂, hc₁, hc₂, rfl⟩

theorem code_read_eq_ok {target : VarRef}
    (h : Stmt.code a entries start (.read target span) = .ok c) :
    ∃ address, target.code a 0 = .ok address ∧
      c = address ++
      [.memory .lda .ac2 0 .ac, .register .inp .ac .ac .ac, .memory .st .ac 0 .ac2] := by
  rw [Stmt.code] at h
  obtain ⟨address, haddress, h⟩ := Except.bind_eq_ok h
  cases h
  exact ⟨address, haddress, rfl⟩

theorem code_write_eq_ok {value : Expr}
    (h : Stmt.code a entries start (.write value span) = .ok c) :
    ∃ v, value.code a 0 = .ok v ∧ c = v ++ [.register .out .ac .ac .ac] := by
  rw [Stmt.code] at h
  obtain ⟨v, hv, h⟩ := Except.bind_eq_ok h
  cases h
  exact ⟨v, hv, rfl⟩

/-- Statements follow each other, each starting where the last one ends. -/
theorem codeAll_cons_eq_ok {s : Stmt} {rest : List Stmt}
    (h : Stmt.codeAll a entries start (s :: rest) = .ok c) :
    ∃ first others, s.code a entries start = .ok first ∧
      Stmt.codeAll a entries (start + first.length) rest = .ok others ∧
      c = first ++ others := by
  rw [Stmt.codeAll] at h
  obtain ⟨first, hfirst, h⟩ := Except.bind_eq_ok h
  obtain ⟨others, hothers, h⟩ := Except.bind_eq_ok h
  cases h
  exact ⟨first, others, hfirst, hothers, rfl⟩

end Stmt

/-! ## Procedures -/

/-- What the code of a procedure is made of. -/
theorem Decl.code_procedure_eq_ok {p : ProcDecl Decl}
    (h : Decl.code a entries start (.procedure p) = .ok (c, entries')) :
    ∃ id nested body, a.annotations.symbol? p.node = some id ∧
      Decl.nestedCode a ((id, start) :: entries) start p.decls = .ok (nested, entries') ∧
      Stmt.codeAll a entries' (start + nested.length) p.body = .ok body ∧
      c = nested ++ body ++ Code.leave := by
  obtain ⟨node, name, params, decls, body, span⟩ := p
  rw [Decl.code] at h
  obtain ⟨id, hid, h⟩ := Except.bind_eq_ok h
  obtain ⟨_, _, h⟩ := Except.bind_eq_ok h
  obtain ⟨⟨nested, entries₁⟩, hnested, h⟩ := Except.bind_eq_ok h
  obtain ⟨b, hb, h⟩ := Except.bind_eq_ok h
  cases h
  exact ⟨id, nested, b, Annotations.symbol_ok hid, hnested, hb, rfl⟩

theorem Decl.nestedCode_procedure_eq_ok {p : ProcDecl Decl} {rest : List Decl}
    (h : Decl.nestedCode a entries start (.procedure p :: rest) = .ok (c, entries')) :
    ∃ c₁ entries₁ others, Decl.code a entries (start + 1) (.procedure p) =
    .ok (c₁, entries₁) ∧
      Decl.nestedCode a entries₁ (start + 1 + c₁.length) rest = .ok (others, entries') ∧
      c = Code.skip c₁.length :: c₁ ++ others := by
  rw [Decl.nestedCode] at h
  obtain ⟨⟨c₁, entries₁⟩, hc₁, h⟩ := Except.bind_eq_ok h
  obtain ⟨⟨others, _⟩, hothers, h⟩ := Except.bind_eq_ok h
  cases h
  exact ⟨c₁, entries₁, others, hc₁, hothers, rfl⟩

/-- Declarations follow each other, each with the entries of those before it. -/
theorem Decl.codeAll_cons_eq_ok {d : Decl} {rest : List Decl}
    (h : Decl.codeAll a entries start (d :: rest) = .ok (c, entries')) :
    ∃ c₁ entries₁ others, d.code a entries start = .ok (c₁, entries₁) ∧
      Decl.codeAll a entries₁ (start + c₁.length) rest = .ok (others, entries') ∧
      c = c₁ ++ others := by
  rw [Decl.codeAll] at h
  obtain ⟨⟨c₁, entries₁⟩, hc₁, h⟩ := Except.bind_eq_ok h
  obtain ⟨⟨others, _⟩, hothers, h⟩ := Except.bind_eq_ok h
  cases h
  exact ⟨c₁, entries₁, others, hc₁, hothers, rfl⟩

end BlockLang
