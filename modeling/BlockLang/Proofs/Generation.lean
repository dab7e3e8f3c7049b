import BlockLang.Proofs.Acceptance
import BlockLang.Proofs.CodeParts
import BlockLang.Proofs.Elaboration
import BlockLang.Proofs.Emission
import BlockLang.Tree.Builder

/-!
# Code for every accepted program

The generator has a defect to report for each thing that the analysis should have left
behind: an annotation, an entry of a table, the address of a procedure. On a resolved
program it finds all of them, whether the code is put together from parts or emitted in
one pass, and the two ways give the same code. Of the analysis itself only one defect can
come, a section behind a procedure.

* `Program.no_defect_unless_misplaced`: an accepted program with distinct nodes has code,
  and the analysis stops with no other defect than that of a misplaced section.
* `Program.generate_compositional`: the code that is emitted is the code that is put
  together from parts.

Code from parts exists for every form of the tree that is resolved
(`Expr.Resolved.code_ok`, `Call.Resolved.code_ok`, `Stmt.code_ok`, `Decl.code_ok`,
`Program.Resolved.code_ok`). The one thing that is not in the analysis is the entry
address of a procedure: `Entries.Cover` says that every procedure in scope has one, which
holds because a procedure enters its address before its own code and the code nested in
it.
-/

namespace BlockLang

variable {a : Analysis} {Γ Γ' : Names} {entries : Entries}

/-! ## References and expressions -/

/-- The code of a reference is that of its selector and the addition of the base. -/
theorem Analysis.Refers.code {node : NodeId} {name : Ident} {v : Variable}
    (h : a.Refers Γ node name v) (t : Int) (selector : Selector Expr) (span : Span) :
    Reference.code a t ⟨node, name, selector, span⟩ =
      (Selector.code a t v name span selector).map (· ++ Code.addBase v) := by
  obtain ⟨id, _, hv, hnode⟩ := h
  rw [Reference.code, Annotations.symbol_of_some hnode]
  change (a.variableOf id >>= _) = _
  rw [Analysis.variableOf_of_some hv]
  rfl

theorem Analysis.Refers.code_ok {node : NodeId} {name : Ident} {v : Variable} {t : Int}
    {selector : Selector Expr} {span : Span} {c : Code} (h : a.Refers Γ node name v)
    (hselector : Selector.code a t v name span selector = .ok c) :
    ∃ c, Expr.code a t (.ref ⟨node, name, selector, span⟩) = .ok c :=
  ⟨_, by rw [Expr.code_ref, h.code, hselector]; rfl⟩

/-- Every resolved expression has code. -/
theorem Expr.Resolved.code_ok {e : Expr} {type : TypeId} (h : e.Resolved a Γ type) (t : Int) :
    ∃ c, e.code a t = .ok c := by
  induction h generalizing t with
  | const => exact ⟨_, rfl⟩
  | whole href _ => exact href.code_ok rfl
  | element href harray _ _ ih =>
    obtain ⟨i, hi⟩ := ih t
    exact href.code_ok (by rw [Selector.code_element harray, hi]; rfl)
  | field href hrecord hfield _ => exact href.code_ok (Selector.code_field hrecord hfield _ _)
  | fieldElement href hrecord hfield harray _ _ ih =>
    obtain ⟨i, hi⟩ := ih t
    exact href.code_ok (by rw [Selector.code_fieldElement hrecord hfield harray, hi]; rfl)
  | binary _ _ _ _ ihl ihr =>
    obtain ⟨l, hl⟩ := ihl t
    obtain ⟨r, hr⟩ := ihr (t - 1)
    exact ⟨_, by rw [Expr.code, hl]; simp only [bind, Except.bind, hr]; rfl⟩

/-- The address of a resolved reference has code. -/
theorem Expr.Resolved.address_ok {r : VarRef} {type : TypeId}
    (h : Expr.Resolved a Γ (.ref r) type) (t : Int) :
    ∃ c, r.code a t = .ok c := by
  obtain ⟨c, hc⟩ := h.code_ok t
  obtain ⟨address, haddress, _⟩ := Expr.code_ref_eq_ok hc
  exact ⟨address, haddress⟩

/-- Only references have types that take more or less than a word. -/
theorem Expr.Resolved.asRef?_isSome
    (hbuiltins : ({} : TypeTable) ≤ a.types) {e : Expr} {type : TypeId}
    (h : e.Resolved a Γ type) (hsize : a.types.size type ≠ 1) : ∃ r, e = .ref r := by
  have hinteger : a.types.size .integer = 1 :=
    TypeTable.size_of_get? (hbuiltins _ .integer rfl)
  have hboolean : a.types.size .boolean = 1 :=
    TypeTable.size_of_get? (hbuiltins _ .boolean rfl)
  cases h with
  | const => exact absurd hinteger hsize
  | @binary _ op => cases op <;> contradiction
  | _ => exact ⟨_, rfl⟩

/-! ## Calls and statements -/

/-- A resolved argument has code, as a word, as a copy or as an address. -/
theorem Expr.ResolvedFor.code_ok (hbuiltins : ({} : TypeTable) ≤ a.types) {param : SymbolId}
    {arg : Expr} (h : arg.ResolvedFor a Γ param) : ∃ c, arg.argumentCode a param = .ok c := by
  obtain ⟨v, hv, hindirect, harg⟩ := h
  unfold Expr.argumentCode
  rw [Analysis.variableOf_of_some hv]
  cases haccess : v.access with
  | indirect =>
    obtain ⟨r, hr⟩ := Option.isSome_iff_exists.mp (hindirect haccess)
    obtain rfl : arg = .ref r := by cases arg <;> cases hr; rfl
    obtain ⟨c, hc⟩ := harg.address_ok 0
    exact ⟨_, by simp only [bind, Except.bind, haccess, Expr.asRef?, hc]; rfl⟩
  | direct =>
    by_cases hsize : a.types.size v.type = 1
    · obtain ⟨c, hc⟩ := harg.code_ok 0
      exact ⟨_, by simp only [bind, Except.bind, haccess, if_pos hsize, hc]; rfl⟩
    · obtain ⟨r, rfl⟩ := harg.asRef?_isSome hbuiltins hsize
      obtain ⟨c, hc⟩ := harg.address_ok 0
      exact ⟨_, by simp only [bind, Except.bind, haccess, if_neg hsize, Expr.asRef?, hc]; rfl⟩

theorem Expr.argumentsCode_ok (hbuiltins : ({} : TypeTable) ≤ a.types)
    {params : List SymbolId} {args : List Expr}
    (h : List.Forall₂ (Expr.ResolvedFor a Γ) params args) :
    ∃ c, Expr.argumentsCode a args params = .ok c := by
  induction h with
  | nil => exact ⟨_, rfl⟩
  | cons harg _ ih =>
    obtain ⟨first, hfirst⟩ := harg.code_ok hbuiltins
    obtain ⟨rest, hrest⟩ := ih
    exact ⟨_, by simp only [Expr.argumentsCode, bind, Except.bind, hfirst, hrest]; rfl⟩

/-- Every procedure in scope has an address. -/
def Entries.Cover (a : Analysis) (entries : Entries) (Γ : Names) : Prop :=
  ∀ x ∈ Γ, a.symbols.procedureAt? x.2 ≠ none → x.2 ∈ entries.map (·.1)

namespace Entries.Cover

theorem mono (h : Entries.Cover a entries Γ') (hΓ : Γ ⊆ Γ') : Entries.Cover a entries Γ :=
  fun x hx => h x (hΓ hx)

/-- Names of types and variables need no entry. -/
theorem adds (h : Entries.Cover a entries Γ) (hΓ : Names.Adds a Γ Γ') :
    Entries.Cover a entries Γ' := by
  obtain ⟨added, rfl, hadded⟩ := hΓ
  intro x hx hproc
  exact (List.mem_append.mp hx).elim (fun hx => absurd (hadded x hx) hproc)
    (fun hx => h x hx hproc)

theorem cons (h : Entries.Cover a entries Γ) (name : String) (id : SymbolId) (start : Nat) :
    Entries.Cover a ((id, start) :: entries) ((name, id) :: Γ) := by
  intro x hx hproc
  rcases List.mem_cons.mp hx with rfl | hx
  · exact List.mem_cons_self
  · exact List.mem_cons_of_mem _ (h x hx hproc)

/-- A procedure in scope has an entry. -/
theorem entry_ok (h : Entries.Cover a entries Γ)
    {name : String} {id : SymbolId} {p : Procedure}
    (hname : Γ.lookup name = some id) (hp : a.symbols.procedureAt? id = some p) (c : Call) :
    ∃ entry, c.entry entries id = .ok entry := by
  have hmem : id ∈ entries.map (·.1) :=
    h (name, id) (Names.mem_of_lookup hname) (by simp [hp])
  obtain ⟨x, hx, rfl⟩ := List.mem_map.mp hmem
  obtain ⟨entry, hentry⟩ :=
    Option.isSome_iff_exists.mp (List.lookup_isSome_iff.mpr ⟨x, hx, beq_self_eq_true x.1⟩)
  exact ⟨entry, by simp only [Call.entry, hentry]⟩

end Entries.Cover

/-- A resolved call has code if the procedures in scope have entries. -/
theorem Call.Resolved.code_ok (hbuiltins : ({} : TypeTable) ≤ a.types)
    (hentries : Entries.Cover a entries Γ) {c : Call} (h : c.Resolved a Γ) (start : Nat) :
    ∃ code, c.code a entries start = .ok code := by
  obtain ⟨id, p, hname, hp, hnode, hargs⟩ := h
  obtain ⟨entry, hentry⟩ := hentries.entry_ok hname hp c
  obtain ⟨args, hargs⟩ := Expr.argumentsCode_ok hbuiltins hargs
  unfold Call.code
  simp only [Annotations.symbol_of_some hnode, Analysis.procedureOf_of_some hp, hentry, hargs,
    bind, Except.bind]
  exact ⟨_, rfl⟩

/-- A resolved assignment has code. -/
theorem Reference.assignCode_ok (hbuiltins : ({} : TypeTable) ≤ a.types)
    {target : VarRef} {value : Expr} {type : TypeId}
    (htarget : Expr.Resolved a Γ (.ref target) type) (hvalue : value.Resolved a Γ type)
    (span : Span) : ∃ c, target.assignCode a value span = .ok c := by
  obtain ⟨address, haddress⟩ := htarget.address_ok 0
  unfold Reference.assignCode
  have htype : a.annotations.type? target.node = some type := htarget.type?_node
  simp only [Annotations.type_of_some htype, haddress, bind, Except.bind]
  by_cases hsize : a.types.size type = 1
  · obtain ⟨c, hc⟩ := hvalue.code_ok 0
    exact ⟨_, by simp only [if_pos hsize, hc]; rfl⟩
  · obtain ⟨source, rfl⟩ := hvalue.asRef?_isSome hbuiltins hsize
    obtain ⟨c, hc⟩ := hvalue.address_ok 0
    exact ⟨_, by simp only [if_neg hsize, Expr.asRef?, hc]; rfl⟩

mutual

/-- Every resolved statement has code. -/
theorem Stmt.code_ok (hbuiltins : ({} : TypeTable) ≤ a.types)
    (hentries : Entries.Cover a entries Γ) {level : Nat} :
    ∀ (s : Stmt), s.Resolved a Γ level → ∀ start, ∃ c, s.code a entries start = .ok c
  | .assign _ _ span, .assign htarget hvalue, _ =>
    Reference.assignCode_ok hbuiltins htarget hvalue span
  | .ifElse condition thenBranch elseBranch _, .ifElse hcondition hthen helse, start => by
    obtain ⟨c, hc⟩ := hcondition.code_ok 0
    obtain ⟨t, ht⟩ :=
      Stmt.codeAll_ok hbuiltins hentries thenBranch hthen (start + c.length + 1)
    obtain ⟨e, he⟩ := Stmt.codeAll_ok hbuiltins hentries elseBranch helse
      (start + c.length + 1 + t.length + 1)
    simp only [Stmt.code, bind, Except.bind, hc, ht, he]
    exact ⟨_, rfl⟩
  | .whileDo condition body _, .whileDo hcondition hbody, start => by
    obtain ⟨c, hc⟩ := hcondition.code_ok 0
    obtain ⟨b, hb⟩ := Stmt.codeAll_ok hbuiltins hentries body hbody (start + c.length + 1)
    simp only [Stmt.code, bind, Except.bind, hc, hb]
    exact ⟨_, rfl⟩
  | .read target _, .read htarget, _ => by
    obtain ⟨c, hc⟩ := htarget.address_ok 0
    simp only [Stmt.code, bind, Except.bind, hc]
    exact ⟨_, rfl⟩
  | .write value _, .write hvalue, _ => by
    obtain ⟨c, hc⟩ := hvalue.code_ok 0
    simp only [Stmt.code, bind, Except.bind, hc]
    exact ⟨_, rfl⟩
  | .call _, .call hcall, start => hcall.code_ok hbuiltins hentries start
  | .ret _, .ret _, _ => ⟨_, rfl⟩

/-- Resolved statements have code. -/
theorem Stmt.codeAll_ok (hbuiltins : ({} : TypeTable) ≤ a.types)
    (hentries : Entries.Cover a entries Γ) {level : Nat} :
    ∀ (body : List Stmt), (∀ s ∈ body, s.Resolved a Γ level) →
    ∀ start, ∃ c, Stmt.codeAll a entries start body = .ok c
  | [], _, _ => ⟨_, rfl⟩
  | s :: rest, h, start => by
    obtain ⟨first, hfirst⟩ := Stmt.code_ok hbuiltins hentries s (h s List.mem_cons_self) start
    obtain ⟨others, hothers⟩ := Stmt.codeAll_ok hbuiltins hentries rest
      (fun s hs => h s (List.mem_cons_of_mem _ hs)) (start + first.length)
    simp only [Stmt.codeAll, bind, Except.bind, hfirst, hothers]
    exact ⟨_, rfl⟩

end

/-! ## Procedures and programs -/

/-- The procedures of a declaration part stay in scope. -/
theorem Decl.ProceduresResolved.subset {level : Nat} : ∀ {decls : List Decl} {Γ : Names},
    Decl.ProceduresResolved a level Γ decls Γ' → Γ ⊆ Γ'
  | [], _, .nil => List.Subset.refl _
  | .types .. :: _, _, .types h => h.subset
  | .vars .. :: _, _, .vars h => h.subset
  | .procedure _ :: _, _, .procedure _ h => fun _ hx => h.subset (List.mem_cons_of_mem _ hx)

mutual

/-- A resolved procedure has code, and then every procedure in scope around it still has an
address. -/
theorem Decl.code_ok (hbuiltins : ({} : TypeTable) ≤ a.types) :
    ∀ (d : Decl) {level : Nat} {Γ : Names}
    {entries : Entries} {id : SymbolId} {p : ProcDecl Decl}, d = .procedure p →
    ProcDecl.Resolved a level ((p.name.name, id) :: Γ) id p → Entries.Cover a entries Γ →
    ∀ start, ∃ c entries', d.code a entries start = .ok (c, entries') ∧
    Entries.Cover a entries' ((p.name.name, id) :: Γ)
  | .procedure ⟨node, name, params, decls, body, span⟩, level, Γ, entries, id, _, rfl, h,
      hentries, start => by
    cases h with
    | intro hnode hp _ hparams _ _ hsections _ _ _ hnested hbody =>
      have hadds := hparams.adds.trans hsections.adds
      obtain ⟨nested, entries', hcode, hcover⟩ := Decl.nestedCode_ok hbuiltins decls hnested
        ((hentries.cons name.name id start).adds hadds) start
      obtain ⟨b, hb⟩ := Stmt.codeAll_ok hbuiltins hcover body hbody (start + nested.length)
      refine ⟨nested ++ b ++ Code.leave, entries', ?_,
        hcover.mono (List.Subset.trans hadds.subset hnested.subset)⟩
      simp only [Decl.code, Annotations.symbol_of_some hnode, Analysis.procedureOf_of_some hp,
        bind, Except.bind, hcode, hb]
      rfl

/-- Resolved procedures that are nested in another have code, each behind a jump. -/
theorem Decl.nestedCode_ok (hbuiltins : ({} : TypeTable) ≤ a.types) :
    ∀ (decls : List Decl) {level : Nat} {Γ Γ' : Names} {entries : Entries},
    Decl.ProceduresResolved a level Γ decls Γ' → Entries.Cover a entries Γ →
    ∀ start, ∃ c entries', Decl.nestedCode a entries start decls = .ok (c, entries') ∧
    Entries.Cover a entries' Γ'
  | [], _, _, _, entries, .nil, hentries, _ => ⟨[], entries, rfl, hentries⟩
  | .types .. :: rest, _, _, _, _, .types h, hentries, start =>
    Decl.nestedCode_ok hbuiltins rest h hentries start
  | .vars .. :: rest, _, _, _, _, .vars h, hentries, start =>
    Decl.nestedCode_ok hbuiltins rest h hentries start
  | .procedure p :: rest, _, _, _, entries, .procedure hp h, hentries, start => by
    obtain ⟨c, entries₁, hcode, hcover⟩ :=
      Decl.code_ok hbuiltins (.procedure p) rfl hp hentries (start + 1)
    obtain ⟨others, entries₂, hothers, hcover₂⟩ :=
      Decl.nestedCode_ok hbuiltins rest h hcover (start + 1 + c.length)
    refine ⟨Code.skip c.length :: c ++ others, entries₂, ?_, hcover₂⟩
    simp only [Decl.nestedCode, bind, Except.bind, hcode, hothers]
    rfl

end

/-- The resolved procedures of the main program have code. -/
theorem Decl.codeAll_ok (hbuiltins : ({} : TypeTable) ≤ a.types)
    {decls : List Decl} {level : Nat} {Γ Γ' : Names}
    {entries : Entries} (h : Decl.ProceduresResolved a level Γ decls Γ')
    (hentries : Entries.Cover a entries Γ) (start : Nat) :
    ∃ c entries', Decl.codeAll a entries start decls = .ok (c, entries') ∧
    Entries.Cover a entries' Γ' := by
  induction decls generalizing Γ entries start with
  | nil =>
    cases h
    exact ⟨[], entries, rfl, hentries⟩
  | cons d rest ih =>
    cases h with
    | types h | vars h =>
      obtain ⟨c, entries', hcode, hcover⟩ := ih h hentries start
      refine ⟨c, entries', ?_, hcover⟩
      simp only [Decl.codeAll, Decl.code, bind, Except.bind, pure, Except.pure,
        List.length_nil, Nat.add_zero, hcode]
      rfl
    | procedure hp h =>
      obtain ⟨c, entries₁, hcode, hcover⟩ := Decl.code_ok hbuiltins _ rfl hp hentries start
      obtain ⟨others, entries₂, hothers, hcover₂⟩ := ih h hcover (start + c.length)
      refine ⟨c ++ others, entries₂, ?_, hcover₂⟩
      simp only [Decl.codeAll, bind, Except.bind, hcode, hothers]
      rfl

/-- Every resolved program has code. -/
theorem Program.Resolved.code_ok {p : Program} {l : Layer} (h : p.Resolved a l Γ) :
    ∃ c, p.code a = .ok c := by
  have hempty : Entries.Cover a [] [] := fun _ hx => by cases hx
  obtain ⟨procedures, entries, hprocedures, hcover⟩ := Decl.codeAll_ok h.builtins h.procedures
    (hempty.adds h.sections.adds) (Code.opening.length + 1)
  obtain ⟨body, hbody⟩ := Stmt.codeAll_ok h.builtins hcover p.body h.body
    (Code.opening.length + 1 + procedures.length + (Code.mainPrologue a).length)
  simp only [Program.code, bind, Except.bind, hprocedures, hbody]
  exact ⟨_, rfl⟩

/-- On a resolved program the one-pass generator finds all it needs, whatever the options. -/
theorem Program.Resolved.generate_ok {p : Program}
    {l : Layer} (h : p.Resolved a l Γ) (o : Options) :
    ∃ code, p.generate a o = .ok code ∧ p.code a = .ok code.instructions := by
  obtain ⟨c, hc⟩ := h.code_ok
  have hgenerate := Program.instructions_generate p a o
  rw [hc] at hgenerate ⊢
  cases hcode : p.generate a o with
  | error d =>
    rw [hcode] at hgenerate
    cases hgenerate
  | ok code =>
    rw [hcode] at hgenerate
    exact ⟨code, rfl, hgenerate.symm⟩

/-- A defect comes neither from the generator, for a program that the analysis accepts, nor
from the analysis itself, unless a section stands behind a procedure of the same declaration
part. -/
theorem Program.no_defect_unless_misplaced (p : Program) :
    (∀ a, p.analyze = .ok a → p.DistinctNodes → ∀ o, ∃ code, p.generate a o = .ok code) ∧
    (∀ d, p.analyze = .error (.defect d) → ∃ span, d = .misplacedSection span ∧
      Decl.Misplaced p.decls span) := by
  constructor
  · intro a ha hnodes o
    obtain ⟨l, Γ, hresolved⟩ := Program.resolved_of_analyze ha hnodes
    obtain ⟨code, hcode, _⟩ := hresolved.generate_ok o
    exact ⟨code, hcode⟩
  · intro d hd
    have hsound := p.check_sound
    unfold Check.Sound at hsound
    unfold Program.analyze at hd
    cases hrun : p.check.run {} with
    | error e =>
      rw [hrun] at hd hsound
      cases hd
      exact hsound
    | ok r =>
      rw [hrun] at hd
      cases hd

open Build in
/-- A program that reads a number and doubles it as often as it says, with a recursive
procedure. -/
def Build.doubling : Build Program := do
  let n ← varDecl ["n"] (← integer)
  let x ← param .reference ["x"] (← integer)
  let k ← param .value ["k"] (← integer)
  let positive ← binary .less (← const 0) (.ref (← var "k"))
  let double ← assign (← var "x") (← binary .add (.ref (← var "x")) (.ref (← var "x")))
  let again ← call "double" [.ref (← var "x"), ← binary .sub (.ref (← var "k")) (← const 1)]
  let p ← procedure "double" [x, k] [] [← ifElse positive [double, .call again] []]
  let start ← call "double" [.ref (← var "n"), .ref (← var "n")]
  program "doubling" [← vars [n], .procedure p] [← read (← var "n"),
    .call start, ← write (.ref (← var "n"))]

def Program.doubling : Program := (StateT.run (m := Id) Build.doubling {}).1

theorem Program.doubling_distinctNodes : Program.doubling.DistinctNodes := by decide +kernel

theorem Program.doubling_accepted : ∃ a, Program.doubling.analyze = .ok a :=
  Except.exists_of_isOk (by decide +kernel)

/-- Code comes out for the doubling program. With its sections behind its procedure the
analysis has a defect. -/
theorem Program.doubling_no_defect_unless_misplaced :
    (∃ a, Program.doubling.analyze = .ok a ∧ Program.doubling.DistinctNodes ∧
      ∃ code, Program.doubling.generate a {} = .ok code) ∧
    (∃ d span, Program.analyze { Program.doubling with
          decls := Program.doubling.decls.reverse } = .error (.defect d) ∧
      d = .misplacedSection span) := by
  constructor
  · obtain ⟨a, ha⟩ := Program.doubling_accepted
    have hnodes := Program.doubling_distinctNodes
    exact ⟨a, ha, hnodes, (Program.no_defect_unless_misplaced _).1 a ha hnodes {}⟩
  · have hdefect : (Program.analyze { Program.doubling with
          decls := Program.doubling.decls.reverse } matches .error (.defect _)) = true := by
      decide +kernel
    split at hdefect
    next d hd =>
      obtain ⟨span, rfl, _⟩ := (Program.no_defect_unless_misplaced _).2 d hd
      exact ⟨_, span, hd, rfl⟩
    · cases hdefect

/-- The one-pass generator gives accepted programs the code that is put together from the code
of their parts. -/
theorem Program.generate_compositional {p : Program} {a : Analysis} (ha : p.analyze = .ok a)
    (hnodes : p.DistinctNodes) (o : Options) :
    ∃ code, p.generate a o = .ok code ∧ p.code a = .ok code.instructions := by
  obtain ⟨l, Γ, hresolved⟩ := Program.resolved_of_analyze ha hnodes
  exact hresolved.generate_ok o

theorem Program.doubling_generate_compositional :
    ∃ a, Program.doubling.analyze = .ok a ∧ Program.doubling.DistinctNodes ∧
      ∃ code, Program.doubling.generate a {} = .ok code ∧
      Program.doubling.code a = .ok code.instructions := by
  obtain ⟨a, ha⟩ := Program.doubling_accepted
  have hnodes := Program.doubling_distinctNodes
  exact ⟨a, ha, hnodes, Program.generate_compositional ha hnodes {}⟩

end BlockLang
