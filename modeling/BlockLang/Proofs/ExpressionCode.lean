import BlockLang.Proofs.CallProtocol

/-!
# The code of every expression

Every expression of an accepted program has its code somewhere, at a depth of temporaries
that depends on where it stands: the right operand of an operation is computed while the
left one waits. Wherever this code is entered, and whatever registers and memory hold, it
leaves the value that the memory gives and changes nothing but the temporaries below it.

What the code reads is put as a source: the value must not change if the data memory is
read without those temporaries. `Program.expressions_compute` is the theorem.

* Where expressions stand: `Expr.Resolved.parts_stand` finds the code of every part of an
  expression, and `Stmt.Resolved.parts_stand` that of every expression of a statement, by
  induction over the tree.
* Levels: the display is indexed by levels, so these have to be words
  (`Program.level_le`). A procedure has a frame with a display of its level, and frames
  are words (`Block.Framed.level_le`).
* Sources that refuse more: `Source.without` takes the temporaries out of a source. A
  value that is computed without them is the value (`Expr.narrows_valueIn`); the other way
  round nothing is known.
* The data memory as a source: `Machine.serves_data`. Then the code computes as it does
  from any source (`Expr.Resolved.computes`), and where it divides by zero the machine
  faults.
-/

namespace BlockLang

/-! ## Where expressions stand -/

/-- The code for the value of an expression stands at an address, or that for the address of a
reference. The temporaries in use are counted by `t`. -/
def Expr.StandsAt (a : Analysis) (code : Array Instruction) (t : Int) (start : Nat)
    (e : Expr) : Prop :=
  (∃ c, e.code a t = .ok c ∧ Code.At code start c) ∨ ∃ r c, e = .ref r ∧ r.code a t = .ok c ∧
    Code.At code start c

/-- The expression stands somewhere. -/
def Expr.Stands (a : Analysis) (code : Array Instruction) (e : Expr) : Prop :=
  ∃ t ≤ 0, ∃ start, e.StandsAt a code t start

instance Code.decidableAt (code : Array Instruction) :
    ∀ (base : Nat) (c : Code), Decidable (Code.At code base c)
  | _, [] => isTrue trivial
  | base, i :: c =>
    have := Code.decidableAt code (base + 1) c
    inferInstanceAs (Decidable (code[base]? = some i ∧ Code.At code (base + 1) c))

section

variable {a : Analysis} {Γ : Names} {code : Array Instruction} {t : Int} {start : Nat}

/-- With the value of a reference its address is computed. -/
theorem Expr.StandsAt.address {r : VarRef} (h : (Expr.ref r).StandsAt a code t start) :
    ∃ c, r.code a t = .ok c ∧ Code.At code start c := by
  rcases h with ⟨c, hc, hat⟩ | ⟨r', c, hr, hc, hat⟩
  · obtain ⟨address, haddress, rfl⟩ := Expr.code_ref_eq_ok hc
    exact ⟨address, haddress, (Code.at_append.mp hat).1⟩
  · cases hr
    exact ⟨c, hc, hat⟩

/-- The code of a selector begins the code of its reference. -/
theorem Analysis.Refers.selector_standsAt {node : NodeId} {name : Ident} {v : Variable}
    (h : a.Refers Γ node name v) {selector : Selector Expr} {span : Span}
    (hstands : (Expr.ref ⟨node, name, selector, span⟩).StandsAt a code t start) :
    ∃ c, Selector.code a t v name span selector = .ok c ∧ Code.At code start c := by
  obtain ⟨c, hc, hat⟩ := hstands.address
  rw [h.code] at hc
  obtain ⟨c', hc', rfl⟩ := Except.map_eq_ok hc
  exact ⟨c', hc', (Code.at_append.mp hat).1⟩

/-- With an expression everything in it stands in the code. -/
theorem Expr.Resolved.parts_stand {e : Expr} {type : TypeId} (he : e.Resolved a Γ type) :
    ∀ {t : Int} {start : Nat}, t ≤ 0 → e.StandsAt a code t start →
    ∀ part ∈ e.parts, part.Stands a code := by
  induction he with
  | const _ =>
    intro t start ht hstands
    rw [Expr.parts]
    exact List.forall_mem_singleton.mpr ⟨t, ht, start, hstands⟩
  | whole _ _ =>
    intro t start ht hstands
    rw [Expr.parts, Selector.parts]
    exact List.forall_mem_singleton.mpr ⟨t, ht, start, hstands⟩
  | element href hget _ _ ih =>
    intro t start ht hstands
    obtain ⟨c, hc, hat⟩ := href.selector_standsAt hstands
    rw [Selector.code_element hget] at hc
    obtain ⟨ci, hci, rfl⟩ := Except.map_eq_ok hc
    rw [Expr.parts, Selector.parts]
    exact List.forall_mem_cons.mpr ⟨⟨t, ht, start, hstands⟩,
      ih ht (.inl ⟨ci, hci, (Code.at_append.mp hat).1⟩)⟩
  | field _ _ _ _ =>
    intro t start ht hstands
    rw [Expr.parts, Selector.parts]
    exact List.forall_mem_singleton.mpr ⟨t, ht, start, hstands⟩
  | fieldElement href hget hf harray _ _ ih =>
    intro t start ht hstands
    obtain ⟨c, hc, hat⟩ := href.selector_standsAt hstands
    rw [Selector.code_fieldElement hget hf harray] at hc
    obtain ⟨ci, hci, rfl⟩ := Except.map_eq_ok hc
    rw [Expr.parts, Selector.parts]
    exact List.forall_mem_cons.mpr ⟨⟨t, ht, start, hstands⟩,
      ih ht (.inl ⟨ci, hci, (Code.at_append.mp hat).1⟩)⟩
  | binary _ _ _ _ ihl ihr =>
    intro t start ht hstands
    rw [Expr.parts]
    refine List.forall_mem_cons.mpr ⟨⟨t, ht, start, hstands⟩, ?_⟩
    -- Only a reference can stand for its address; this is an operation.
    rcases hstands with ⟨c, hc, hat⟩ | ⟨_, _, hr, _⟩
    · obtain ⟨cl, cr, hcl, hcr, rfl⟩ := Expr.code_binary_eq_ok hc
      rw [List.append_assoc, List.cons_append] at hat
      obtain ⟨hat₁, _, hat₂⟩ := Code.at_append.mp hat
      exact List.forall_mem_append.mpr ⟨ihl ht (.inl ⟨cl, hcl, hat₁⟩),
        ihr (by omega) (.inl ⟨cr, hcr, (Code.at_append.mp hat₂).1⟩)⟩
    · cases hr

/-- An expression stands at the start of the code that stores its value. -/
theorem Expr.StoreCode.standsAt {type : TypeId} {offset : Int} {b : Register} {e : Expr}
    {c : Code} (h : Expr.StoreCode a type offset b e c) (hat : Code.At code start c) :
    e.StandsAt a code 0 start := by
  cases h with
  | word _ hc => exact .inl ⟨_, hc, (Code.at_append.mp hat).1⟩
  | words _ hc => exact .inr ⟨_, _, rfl, hc, (Code.at_append.mp hat).1⟩

/-- An argument has its code within that of the call. -/
theorem Expr.standsAt_of_argumentCode {param : SymbolId}
    {e : Expr} {c : Code} (hc : e.argumentCode a param = .ok c)
    (hat : Code.At code start c) : e.StandsAt a code 0 start := by
  obtain ⟨v, hv, hform⟩ := Expr.argumentCode_eq_ok hc
  cases haccess : v.access with
  | direct =>
    rw [haccess] at hform
    exact hform.standsAt hat
  | indirect =>
    rw [haccess] at hform
    obtain ⟨r, address, rfl, haddress, rfl⟩ := hform
    exact .inr ⟨r, address, rfl, haddress, (Code.at_append.mp hat).1⟩

/-- The parts of arguments have code. -/
theorem Expr.ResolvedFor.parts_stand {params : List SymbolId} {args : List Expr}
    (h : List.Forall₂ (Expr.ResolvedFor a Γ) params args) {start : Nat} {c : Code}
    (hc : Expr.argumentsCode a args params = .ok c) (hat : Code.At code start c) :
    ∀ part ∈ args.flatMap Expr.parts, part.Stands a code := by
  induction h generalizing start c with
  | nil => simp
  | cons harg _ ih =>
    obtain ⟨_, _, _, hresolved⟩ := id harg
    obtain ⟨first, rest, hfirst, hrest, rfl⟩ := Expr.argumentsCode_cons_eq_ok hc
    obtain ⟨hat₁, hat₂⟩ := Code.at_append.mp hat
    rw [List.flatMap_cons]
    exact List.forall_mem_append.mpr
      ⟨hresolved.parts_stand (Int.le_refl 0) (Expr.standsAt_of_argumentCode hfirst hat₁),
      ih hrest hat₂⟩

mutual

/-- The expressions of a statement stand in its code. -/
theorem Stmt.Resolved.parts_stand {entries : Entries} {level : Nat} :
    ∀ {s : Stmt}, s.Resolved a Γ level →
    ∀ {start : Nat} {c : Code}, s.code a entries start = .ok c →
      Code.At code start c → ∀ part ∈ s.parts, part.Stands a code
  | .assign .., .assign htarget hvalue, start, c, hc, hat => by
    rw [Stmt.code] at hc
    obtain ⟨_, address, store, _, haddress, hstore, rfl⟩ := Reference.assignCode_eq_ok hc
    obtain ⟨hat₁, hat₂⟩ := Code.at_append.mp hat
    rw [Stmt.parts]
    exact List.forall_mem_append.mpr ⟨htarget.parts_stand (Int.le_refl 0)
      (.inr ⟨_, address, rfl, haddress, (Code.at_append.mp hat₁).1⟩),
        hvalue.parts_stand (Int.le_refl 0) (hstore.standsAt hat₂)⟩
  | .ifElse .., .ifElse hcondition hthen helse, start, c, hc, hat => by
    obtain ⟨c₁, c₂, c₃, hc₁, hc₂, hc₃, rfl⟩ := Stmt.code_ifElse_eq_ok hc
    rw [List.append_assoc, List.cons_append] at hat
    obtain ⟨hat₁, _, hat⟩ := Code.at_append.mp hat
    obtain ⟨hat₂, _, hat₃⟩ := Code.at_append.mp hat
    rw [Stmt.parts]
    exact List.forall_mem_append.mpr
      ⟨hcondition.parts_stand (Int.le_refl 0) (.inl ⟨c₁, hc₁, hat₁⟩),
      List.forall_mem_append.mpr ⟨Stmt.Resolved.partsAll_stand hthen hc₂ hat₂,
        Stmt.Resolved.partsAll_stand helse hc₃ hat₃⟩⟩
  | .whileDo .., .whileDo hcondition hbody, start, c, hc, hat => by
    obtain ⟨c₁, c₂, hc₁, hc₂, rfl⟩ := Stmt.code_whileDo_eq_ok hc
    rw [List.append_assoc, List.cons_append] at hat
    obtain ⟨hat₁, _, hat⟩ := Code.at_append.mp hat
    rw [Stmt.parts]
    exact List.forall_mem_append.mpr
      ⟨hcondition.parts_stand (Int.le_refl 0) (.inl ⟨c₁, hc₁, hat₁⟩),
      Stmt.Resolved.partsAll_stand hbody hc₂ (Code.at_append.mp hat).1⟩
  | .read .., .read htarget, start, c, hc, hat => by
    obtain ⟨address, haddress, rfl⟩ := Stmt.code_read_eq_ok hc
    rw [Stmt.parts]
    exact htarget.parts_stand (Int.le_refl 0)
      (.inr ⟨_, address, rfl, haddress, (Code.at_append.mp hat).1⟩)
  | .write .., .write hvalue, start, c, hc, hat => by
    obtain ⟨cv, hcv, rfl⟩ := Stmt.code_write_eq_ok hc
    rw [Stmt.parts]
    exact hvalue.parts_stand (Int.le_refl 0) (.inl ⟨cv, hcv, (Code.at_append.mp hat).1⟩)
  | .call _, .call hcall, start, c, hc, hat => by
    obtain ⟨id, P, _, hP, hid, hargs⟩ := hcall
    rw [Stmt.code] at hc
    obtain ⟨_, args, _, hargsCode, rfl⟩ := Call.code_eq_ok hid hP hc
    rw [List.append_assoc] at hat
    rw [Stmt.parts]
    exact Expr.ResolvedFor.parts_stand hargs hargsCode (Code.at_append.mp hat).1
  | .ret _, .ret _, _, _, _, _ => by simp [Stmt.parts]

/-- The expressions of statements in order have code. -/
theorem Stmt.Resolved.partsAll_stand {entries : Entries} {level : Nat} :
    ∀ {ss : List Stmt}, (∀ s ∈ ss, s.Resolved a Γ level) → ∀ {start : Nat} {c : Code},
      Stmt.codeAll a entries start ss = .ok c → Code.At code start c →
      ∀ part ∈ Stmt.partsAll ss, part.Stands a code
  | [], _, _, _, _, _ => by simp [Stmt.partsAll]
  | s :: rest, h, start, c, hc, hat => by
    obtain ⟨hs, hrest⟩ := List.forall_mem_cons.mp h
    obtain ⟨c₁, c₂, hc₁, hc₂, rfl⟩ := Stmt.codeAll_cons_eq_ok hc
    obtain ⟨hat₁, hat₂⟩ := Code.at_append.mp hat
    rw [Stmt.partsAll]
    exact List.forall_mem_append.mpr ⟨hs.parts_stand hc₁ hat₁,
      Stmt.Resolved.partsAll_stand hrest hc₂ hat₂⟩

end

end

/-! ## Levels -/

mutual

/-- Only the body of the main program belongs to no procedure. -/
theorem Decl.owned_of_outline :
    ∀ (d : Decl) {outer : List Names} {scope : Names} {next : Nat},
    ∀ b ∈ (d.outline outer scope next).blocks, ∃ id q, b.owner = some (id, q)
  | .types .., _, _, _ => by simp [Decl.outline]
  | .vars .., _, _, _ => by simp [Decl.outline]
  | .procedure ⟨node, name, params, decls, body, span⟩, _, _, _ => by
    rw [Decl.outline]
    exact List.forall_mem_append.mpr ⟨Decl.owned_of_outlineAll decls,
      List.forall_mem_singleton.mpr ⟨_, _, rfl⟩⟩

theorem Decl.owned_of_outlineAll :
    ∀ (decls : List Decl) {outer : List Names} {scope : Names} {next : Nat},
    ∀ b ∈ (Decl.outlineAll outer scope next decls).blocks, ∃ id q, b.owner = some (id, q)
  | [], _, _, _ => by simp [Decl.outlineAll]
  | d :: rest, _, _, _ => by
    rw [Decl.outlineAll]
    exact List.forall_mem_append.mpr ⟨Decl.owned_of_outline d, Decl.owned_of_outlineAll rest⟩

end

/-- The display of a frame has a word for each level, so levels are words. -/
theorem Block.Framed.level_le {a : Analysis} {b : Block} {id : SymbolId} {q : ProcDecl Decl}
    {P : Procedure} (h : b.Framed a id q P) : (b.level : Int) ≤ Word.greatest := by
  have hframe := h.frameSize
  have hbound := h.bound
  have hle := h.lined.le
  have hheader : (0 : Int) ≤ Frame.headerSize := by decide
  omega

/-- The levels of a program are words. -/
theorem Program.level_le {p : Program} {a : Analysis} (hlaid : ∀ b ∈ p.blocks, b.Laid a) :
    ∀ b ∈ p.blocks, (b.level : Int) ≤ Word.greatest := by
  intro b hb
  rcases List.mem_append.mp hb with hnested | hmain
  · obtain ⟨id, q, howner⟩ := Decl.owned_of_outlineAll p.decls b hnested
    obtain ⟨P, hframed⟩ := (hlaid b hb).framed howner
    exact hframed.level_le
  · rw [List.mem_singleton.mp hmain]
    exact (by decide : ((0 : Nat) : Int) ≤ Word.greatest)

/-- No variable in scope is deeper than the body. -/
theorem Block.Laid.levelled {a : Analysis} {b : Block} (h : b.Laid a)
    (hlevel : (b.level : Int) ≤ Word.greatest) (x : Source) : a.Levelled b.names x := by
  intro node name v w href _
  obtain ⟨id, hlookup, hv, _⟩ := href
  obtain ⟨i, _, _, _, _, hplaces⟩ := h.places_of_mem (Names.mem_of_lookup hlookup)
  have hvlevel := hplaces.var hv
  omega

/-! ## Sources that refuse more -/

/-- The first computation stops out of sight where the second need not, and apart from that
they are the same. -/
def Narrows {α : Type} (u v : Except Stop α) : Prop := u = .error .outOfBounds ∨ u = v

theorem Narrows.refl {α : Type} (u : Except Stop α) : Narrows u u := .inr rfl

theorem Narrows.bind {α β : Type} {u v : Except Stop α} {f g : α → Except Stop β}
    (h : Narrows u v) (hf : ∀ w, Narrows (f w) (g w)) : Narrows (u >>= f) (v >>= g) := by
  rcases h with rfl | rfl
  · exact .inl rfl
  · cases u with
    | error s => exact .refl _
    | ok w => exact hf w

namespace Source

/-- The source without the words from `lo` up to `hi`. -/
def without (x : Source) (lo hi : Int) : Source where
  read address := if lo ≤ address ∧ address < hi then .error .outOfBounds else x.read address
  display := x.display

variable {x : Source} {lo hi : Int}

/-- Fewer addresses are read. -/
theorem narrows_read (x : Source) (lo hi address : Int) :
    Narrows ((x.without lo hi).read address) (x.read address) := by
  simp only [without]
  split
  · exact .inl rfl
  · exact .refl _

/-- The start of a variable is found or refused. -/
theorem narrows_start (x : Source) (lo hi : Int) (v : Variable) :
    Narrows ((x.without lo hi).start v) (x.start v) := by
  refine (narrows_read x lo hi _).bind fun frame => ?_
  cases v.access with
  | direct => exact .refl _
  | indirect => exact narrows_read x lo hi _

end Source

section

variable (a : Analysis) (x : Source) (lo hi : Int)

mutual

/-- A value that can be read without some words is the value that can be read with them. -/
theorem Expr.narrows_valueIn :
    ∀ e : Expr, Narrows (e.valueIn a (x.without lo hi)) (e.valueIn a x)
  | .const .. => by
    rw [Expr.valueIn, Expr.valueIn]
    exact .refl _
  | .ref r => by
    rw [Expr.valueIn, Expr.valueIn]
    exact (Reference.narrows_addressIn r).bind fun _ => x.narrows_read lo hi _
  | .binary _ op left right _ => by
    rw [Expr.valueIn, Expr.valueIn]
    exact (Expr.narrows_valueIn left).bind fun _ =>
      (Expr.narrows_valueIn right).bind fun _ => .refl _

/-- The address of a reference is the same or refused. -/
theorem Reference.narrows_addressIn : ∀ r : Reference Expr,
    Narrows (r.addressIn a (x.without lo hi)) (r.addressIn a x)
  | ⟨node, _, selector, _⟩ => by
    rw [Reference.addressIn, Reference.addressIn]
    cases (a.annotations.symbol? node).bind a.symbols.variableAt? with
    | none => exact .refl _
    | some v =>
      exact (Selector.narrows_distanceIn v.type selector).bind fun _ =>
        (x.narrows_start lo hi v).bind fun _ => .refl _

/-- The distance of a part is the same or refused. -/
theorem Selector.narrows_distanceIn (type : TypeId) : ∀ s : Selector Expr,
    Narrows (s.distanceIn a (x.without lo hi) type) (s.distanceIn a x type)
  | .whole => by
    rw [Selector.distanceIn, Selector.distanceIn]
    exact .refl _
  | .element index => by
    rw [Selector.distanceIn, Selector.distanceIn]
    exact (Expr.narrows_valueIn index).bind fun _ => .refl _
  | .field _ => by
    rw [Selector.distanceIn, Selector.distanceIn]
    exact .refl _
  | .fieldElement _ index => by
    rw [Selector.distanceIn, Selector.distanceIn]
    exact (Expr.narrows_valueIn index).bind fun _ => .refl _

end

end

/-! ## The data memory -/

/-- The words of a memory. -/
def Source.ofMemory (memory : Memory) (display : Int) : Source where
  read address :=
    if 0 ≤ address ∧ address < memory.size then .ok (memory.get address.toNat)
      else .error .outOfBounds
  display

namespace Machine

/-- The data memory of the machine. -/
def data (m : Machine) : Source := .ofMemory m.memory (m.register .displayOff).toInt

variable {m : Machine} {lo hi : Int}

/-- Data memory refuses addresses only for being out of bounds. -/
theorem data_refused {address : Int} {s : Stop}
    (h : (m.data.without lo hi).read address = .error s) :
    s = .outOfBounds := by
  simp only [Source.without, data, Source.ofMemory] at h
  grind

/-- A machine serves its own data memory, the temporaries apart. -/
theorem serves_data (m : Machine) (lo hi : Int) :
    m.Serves (m.data.without lo hi) lo.toNat hi.toNat where
  word {address w} hread := by
    simp only [Source.without, data, Source.ofMemory] at hread
    split at hread
    · cases hread
    next hout =>
      split at hread
      next hcan =>
        cases hread
        exact ⟨address.toNat, by omega, by omega, by omega, rfl⟩
      · cases hread
  refused := data_refused
  displayOff _ := rfl

/-- The machine comes to an address, on which the value may decide, with the value in `ac`,
and changes nothing else but `ac1` and the words from `lo` up to `hi`. If there is no value
for a division by zero, it ends in that fault. Steps are counted on a clock that leaves
them. -/
def Computes (m : Machine) (value : Except Stop Word) (lo hi : Int)
    (stop : Word → Nat) : Prop :=
  match value with
  | .ok w => ∃ (n : Nat) (m' : Machine), (∀ limit steps, steps + n ≤ limit →
    Steps (m.timed limit steps) n (m'.timed limit (steps + n))) ∧
    m'.register .pc = Int64.ofNat (stop w) ∧ m'.register .ac = w ∧ m.Same lo.toNat hi.toNat m'
  | .error s => s = .divisionByZero ∧
    ∃ (n : Nat) (m' : Machine) (pc : Nat), ∀ limit steps, steps + n < limit →
    Steps (m.timed limit steps) n (m'.timed limit (steps + n)) ∧
    (m'.timed limit (steps + n)).step.2 = .fault (.divisionByZero pc)

/-- A machine that ends with a fault has it in the next step. -/
theorem step_of_ends {f : Fault} (h : m.Ends (.error f))
    {limit steps : Nat} (hlt : steps < limit) :
    (m.timed limit steps).step.2 = .fault f := by
  rw [m.step_timed hlt]
  unfold Ends at h
  generalize m.pace = o at h
  obtain ⟨m', _ | _ | f'⟩ := o
  · exact h.elim
  · cases h
  · cases h
    rfl

/-- What code yields, the machine computes where the code stands, and goes on from there. -/
theorem Yields.computes {c : Code} {value : Except Stop Word}
    {start : Nat} {stop : Word → Nat}
    (h : m.Yields c value fun w m' => m'.register .ac = w ∧ m.Same lo.toNat hi.toNat m')
    (hreadable : Readable value) (hinside : value ≠ .error .outOfBounds)
    (hm : Code.Addressable m.code) (hat : Code.At m.code start c)
    (hpc : m.register .pc = Int64.ofNat start) (hstop : ∀ m' : Machine, m'.code = m.code →
      ∃ n, Reaches (m'.goto (start + c.length)) n (m'.goto (stop (m'.register .ac)))) :
    m.Computes value lo hi stop := by
  cases value with
  | ok w =>
    obtain ⟨m', hpass, rfl, hsame⟩ := h
    obtain ⟨n, hreaches⟩ := hpass.2 start hm hat
    obtain ⟨n', hreaches'⟩ := hstop m' hpass.1
    rw [goto_eq_self hpc] at hreaches
    refine ⟨n + n', m'.goto (stop (m'.register .ac)), ?_, rfl,
      register_goto m' (by decide) _, ?_⟩
    · intro limit steps hle
      exact (hreaches.trans hreaches').steps hle
    · exact { hsame with
        register :=
          fun r h₁ h₂ h₃ => (register_goto m' h₃ _).trans (hsame.register r h₁ h₂ h₃) }
  | error s =>
    obtain rfl : s = .divisionByZero :=
      (hreadable s rfl).resolve_left fun hs => hinside (by rw [hs])
    obtain ⟨n, m', pc, hreaches, hends⟩ := h start hm hat
    rw [goto_eq_self hpc] at hreaches
    exact ⟨rfl, n, m', pc, fun limit steps hlt =>
      ⟨hreaches.steps (by omega), step_of_ends hends hlt⟩⟩

/-- The words for temporaries lie in data memory. -/
theorem spares_of_window {t : Int} {n : Nat} (h : ∀ i, (m.register .mp).toInt + t - n ≤ i →
      i < (m.register .mp).toInt + t → 0 ≤ i ∧ i < m.memory.size) :
    m.Spares t ((m.register .mp).toInt + t - n).toNat
    ((m.register .mp).toInt + t).toNat n := by
  cases n with
  | zero => exact .inl rfl
  | succ n =>
    have hfirst := h ((m.register .mp).toInt + t - (n + 1 : Nat)) (by omega) (by omega)
    have hlast := h ((m.register .mp).toInt + t - 1) (by omega) (by omega)
    exact .inr ⟨by omega, by omega, by omega⟩

end Machine

section

variable {a : Analysis} {Γ : Names} {m : Machine} {t : Int} {start : Nat} {c : Code}
    {stop : Word → Nat}

/-- The code of an expression computes the value that the data memory gives, if it reads no
temporary of its own. -/
theorem Expr.Resolved.computes {e : Expr} {type : TypeId} (he : e.Resolved a Γ type)
    (hlevels : ∀ x, a.Levelled Γ x) (hm : Code.Addressable m.code)
    (hpc : m.register .pc = Int64.ofNat start) (ht : t ≤ 0) {lo hi : Int}
    (hhi : hi = (m.register .mp).toInt + t) (hlo : lo = hi - e.depth)
    (hwindow : ∀ i, lo ≤ i → i < hi → 0 ≤ i ∧ i < m.memory.size)
    (hat : Code.At m.code start c) (hstop : ∀ m' : Machine, m'.code = m.code →
      ∃ n,
      Machine.Reaches (m'.goto (start + c.length)) n (m'.goto (stop (m'.register .ac)))) :
    (e.code a t = .ok c → e.valueIn a (m.data.without lo hi) ≠ .error .outOfBounds →
      m.Computes (e.valueIn a m.data) lo hi stop) ∧
    ∀ r, e = .ref r → r.code a t = .ok c →
      r.addressIn a (m.data.without lo hi) ≠ .error .outOfBounds →
      m.Computes (r.addressIn a m.data) lo hi stop := by
  subst hhi hlo
  obtain ⟨hvalue, haddress⟩ :=
    he.evaluates (hlevels _) ht (m.serves_data _ _) (Machine.spares_of_window hwindow)
  obtain ⟨hreadable, hreadable'⟩ :=
    he.readableIn (x := m.data.without _ _) fun _ _ hs => .inl (Machine.data_refused hs)
  constructor
  · intro hc hinside
    rw [← (Expr.narrows_valueIn a m.data _ _ e).resolve_left hinside]
    exact (hvalue c hc).computes hreadable hinside hm hat hpc hstop
  · intro r hr hc hinside
    rw [← (Reference.narrows_addressIn a m.data _ _ r).resolve_left hinside]
    exact (haddress r hr c hc).computes (hreadable' r hr) hinside hm hat hpc hstop

end

/-! ## Expressions of a program -/

/-- **Expressions compute their values.** Every expression of an accepted program whose nodes
have distinct identities stands in the code. Let its code, or for a reference the code for its
address, stand anywhere, and let the machine enter it in any state that has room for its
temporaries in data memory. If all that is read lies in data memory and is none of those
temporaries, the code computes the value, or the address, that the data memory gives. -/
theorem Program.expressions_compute {p : Program} {a : Analysis}
    (ha : p.analyze = .ok a) (hnodes : p.DistinctNodes) (o : Options) :
    ∃ code, p.compile o = .ok code ∧ (code.instructions.length < 2 ^ 63 →
      ∀ b ∈ p.blocks, ∀ e ∈ Stmt.partsAll b.body, e.Stands a code.instructions.toArray ∧
        ∀ (m : Machine) (t : Int) (start : Nat) (c : Code),
          m.code = code.instructions.toArray →
          m.register .pc = Int64.ofNat start → Code.At m.code start c → t ≤ 0 →
          let hi := (m.register .mp).toInt + t
          let lo := hi - e.depth
          (∀ i, lo ≤ i → i < hi → 0 ≤ i ∧ i < m.memory.size) →
          (e.code a t = .ok c → e.valueIn a (m.data.without lo hi) ≠ .error .outOfBounds →
            m.Computes (e.valueIn a m.data) lo hi fun _ => start + c.length) ∧
          ∀ r, e = .ref r → r.code a t = .ok c →
            r.addressIn a (m.data.without lo hi) ≠ .error .outOfBounds →
            m.Computes (r.addressIn a m.data) lo hi fun _ => start + c.length) := by
  obtain ⟨code, l, Γ, hcompile, hcode, hresolved⟩ := Program.compile_of_analyze ha hnodes o
  obtain ⟨procedures, entries, _, hprocedures, _⟩ := Program.code_eq_ok hcode
  have hp := Program.analyzed_of_analyze ha
  refine ⟨code, hcompile, ?_⟩
  intro hlength b hb e he
  have hbody := (hp.noted hnodes b hb).body
  obtain ⟨⟨_, _, _, hbodyCode, hat, _⟩, _⟩ := hresolved.blocks_stand hcode hprocedures b hb
  refine ⟨Stmt.Resolved.partsAll_stand hbody hbodyCode hat e he, ?_⟩
  obtain ⟨type, htype⟩ := Stmt.Resolved.partsAll hbody e he
  intro m t start c hmcode hpc hc ht hi lo hwindow
  have hm : Code.Addressable m.code := hmcode ▸ Code.addressable_of_length hlength
  exact htype.computes ((hp.laid b hb).levelled (Program.level_le hp.laid b hb)) hm hpc ht rfl
    rfl hwindow hc fun _ _ => ⟨0, .refl⟩

/-- A memory of the nesting program while `count` runs: `n` holds five, `a` one and nine, `k`
two. -/
def Program.countingMemory : Memory where
  words :=
    #[0, 0, 5, 0, 0, 0, 0, 0, 0, 0, 0, 1, 9, 2, 0, 0, 0, 0, 0, 0, 0, 4, 23, 0, 0, 0, 0, 0, 0,
      0, 2] ++ Array.replicate 9 0

/-- The sum in `count` stands in the code, with no temporary in use. It reads one operand
through a reference and one through an index. -/
theorem Program.nesting_sum {a : Analysis} {code : ObjectCode}
    (ha : Program.nesting.analyze = .ok a) (hcode : Program.nesting.compile {} = .ok code) :
    ∃ b ∈ Program.nesting.blocks, ∃ e ∈ Stmt.partsAll b.body, ∃ c start, e.code a 0 = .ok c ∧
      Code.At code.instructions.toArray start c ∧ e.depth = 1 ∧
      e.valueIn a ((Source.ofMemory Program.countingMemory 20).without 38 39) = .ok 14 ∧
      e.valueIn a (.ofMemory Program.countingMemory 20) = .ok 14 := by
  have hcheck : (Program.nesting.analyze.toOption.any fun a =>
      (Program.nesting.compile {}).toOption.any fun code =>
      Program.nesting.blocks.any fun b => (Stmt.partsAll b.body).any fun e =>
        decide (e.depth = 1 ∧
          e.valueIn a ((Source.ofMemory Program.countingMemory 20).without 38 39) = .ok 14 ∧
          e.valueIn a (.ofMemory Program.countingMemory 20) = .ok 14) &&
        (e.code a 0).toOption.any fun c =>
            (List.range code.instructions.length).any fun start =>
          decide (Code.At code.instructions.toArray start c)) = true := by decide +kernel
  rw [ha, hcode] at hcheck
  simp only [Except.toOption, Option.any_some] at hcheck
  obtain ⟨b, hb, hcheck⟩ := List.any_eq_true.mp hcheck
  obtain ⟨e, he, hcheck⟩ := List.any_eq_true.mp hcheck
  obtain ⟨hvalue, hcheck⟩ := (Bool.and_eq_true _ _).mp hcheck
  cases hc : e.code a 0 with
  | error d => simp [hc] at hcheck
  | ok c =>
    simp only [hc, Option.any_some] at hcheck
    obtain ⟨start, _, hat⟩ := List.any_eq_true.mp hcheck
    exact ⟨b, hb, e, he, c, start, hc, of_decide_eq_true hat, of_decide_eq_true hvalue⟩

theorem Program.nesting_length {code : ObjectCode}
    (hcompile : Program.nesting.compile {} = .ok code) :
    code.instructions.length < 2 ^ 63 :=
  Except.of_any_toOption (P := fun code => code.instructions.length < 2 ^ 63) hcompile
    (by decide +kernel)

/-- The sum in `count` of the nesting program is computed, and the word below `mp` holds its
left operand meanwhile. -/
theorem Program.nesting_expressions_compute :
    ∃ (a : Analysis) (code : ObjectCode) (b : Block) (e : Expr) (c : Code) (start : Nat)
    (m : Machine),
      Program.nesting.analyze = .ok a ∧ Program.nesting.DistinctNodes ∧
      Program.nesting.compile {} = .ok code ∧ code.instructions.length < 2 ^ 63 ∧
      b ∈ Program.nesting.blocks ∧ e ∈ Stmt.partsAll b.body ∧ e.depth = 1 ∧
      e.code a 0 = .ok c ∧ Code.At m.code start c ∧ m.register .pc = Int64.ofNat start ∧
      e.valueIn a (m.data.without 38 39) = .ok 14 ∧ ∃ (n : Nat) (m' : Machine),
      (∀ limit, n ≤ limit → Machine.Steps (m.timed limit 0) n (m'.timed limit n)) ∧
        m'.register .pc = Int64.ofNat (start + c.length) ∧ m'.register .ac = 14 ∧
        m'.register .mp = 39 ∧ m'.register .displayOff = 20 ∧ m'.word 30 = 2 := by
  obtain ⟨a, ha⟩ := Program.nesting_accepted
  have hnodes := Program.nesting_distinctNodes
  obtain ⟨code, hcompile, hcompute⟩ := Program.expressions_compute ha hnodes {}
  have hlength := Program.nesting_length hcompile
  obtain ⟨b, hb, e, he, c, start, hc, hat, hdepth, hwithout, hvalue⟩ :=
    Program.nesting_sum ha hcompile
  let m : Machine := { Machine.load code ⟨40, 0⟩ [] with
    memory := Program.countingMemory, registers :=
      { mp := 39, displayOff := 20, pc := Int64.ofNat start } }
  have hsize : m.memory.size = 40 := by
    change Program.countingMemory.size = 40
    decide
  obtain ⟨_, hall⟩ := hcompute hlength b hb e he
  have hmp : (m.register .mp).toInt + 0 = 39 := rfl
  have hinside : e.valueIn a (m.data.without 38 39) ≠ .error .outOfBounds := by
    change e.valueIn a ((Source.ofMemory Program.countingMemory 20).without 38 39) ≠ _
    simp [hwithout]
  have hcomputes := hall m 0 start c rfl rfl hat (Int.le_refl 0)
  rw [hmp, hdepth] at hcomputes
  have hsum := (hcomputes (by omega)).1 hc hinside
  rw [show e.valueIn a m.data = .ok 14 from hvalue] at hsum
  obtain ⟨n, m', hsteps, hpc, hac, hsame⟩ := hsum
  refine ⟨a, code, b, e, c, start, m, ha, hnodes, hcompile, hlength, hb, he, hdepth, hc, hat,
    rfl, hwithout, n, m', ?_, hpc, hac, ?_, ?_, ?_⟩
  · intro limit hle
    simpa using hsteps limit 0 (by omega)
  · exact hsame.register .mp (by decide) (by decide) (by decide)
  · exact hsame.register .displayOff (by decide) (by decide) (by decide)
  · refine (hsame.word 30 (by decide)).trans ?_
    change Program.countingMemory.get 30 = 2
    decide

end BlockLang
