import BlockLang.Proofs.Correctness
import BlockLang.Proofs.StrictGeneration

/-!
# Code that stays inside itself

Compiled code gives control away in one way only, through a return: every jump leads to an
address of the code, the last instruction is `halt`, and only `LD pc,6(sp)` takes an
address from memory.

`Code.Contained n start c` says of a piece of code what this needs, at the address `start`
where the piece stands, in code of `n` instructions. It is proved for the pieces one by
one, in step with their composition. `Code.Legal` and `Code.Closed` say it of the whole
code, instruction by instruction.

* `Instruction.Plain`: an instruction that writes neither `pc` nor `mp` and stores nothing
  to the place of a return address. Code of plain instructions is contained anywhere
  (`Code.Contained.of_plain`).
* Jumps: `Code.Contained.skip`, `Code.Contained.skipIfZero` and `Code.Contained.back`,
  each with the target below `n`. `Code.Contained.append` puts pieces together; the second
  stands behind the first.
* Calls: the store of the return address, and only it, goes to its place
  (`Code.Contained.transfer`). Arguments and display do not, since parameters and display
  lie behind the header (`Instruction.plain_behindHeader`); this is where the tables have
  to be consistent.
* The tree: `Expr.contained_code`, `Stmt.contained_code`, `Decl.contained_code` and
  `Program.contained_code`, by mutual recursion as the making of code.
* Instruction by instruction: `Code.Contained.stands` and `Code.Contained.saved` look at a
  single address, and from them come `Program.legal_code` and `Program.closed_code`. The
  latter is about code that words can address, since jumps are relative and wrap around.
-/

namespace BlockLang

/-! ## Registers that an instruction writes -/

/-- The register that an instruction may write, besides moving `pc` on. -/
def Instruction.written? : Instruction → Option Register
  | .register op dst _ _ =>
    match op with
    | .inp | .add | .sub | .mul | .div => some dst
    | _ => none
  | .memory op reg _ _ =>
    match op with
    | .ld | .lda | .ldc => some reg
    | .jlt | .jeq => some .pc
    | _ => none

/-! ## Pieces of code -/

/-- Saves `reg` where the frame that is being built keeps the return address. -/
def Instruction.savesReturn (reg : Register) : Instruction :=
  .memory .st reg Frame.returnAddress .top

/-- Takes the next address from the running frame. -/
def Instruction.returns : Instruction := .memory .ld .pc Frame.returnAddress .sp

/-- An instruction that neither touches `pc` and `mp` nor saves a return address. -/
structure Instruction.Plain (i : Instruction) : Prop where
  form : i.op.form = i.form
  pc : i.written? ≠ some .pc
  mp : i.written? ≠ some .mp
  saves : ∀ reg, i ≠ .savesReturn reg

namespace Instruction

variable {op : Opcode} {reg base dst src₁ src₂ : Register} {offset : Word}

/-- A load is plain if it loads neither `pc` nor `mp`. -/
theorem plain_load (hop : op = .ld ∨ op = .lda ∨ op = .ldc) :
    (Instruction.memory op reg offset base).Plain ↔ reg ≠ .pc ∧ reg ≠ .mp := by
  constructor
  · intro h
    have hpc := h.pc
    have hmp := h.mp
    rcases hop with rfl | rfl | rfl <;>
      exact ⟨fun heq => hpc (heq ▸ rfl), fun heq => hmp (heq ▸ rfl)⟩
  · intro h
    rcases hop with rfl | rfl | rfl <;> exact ⟨rfl, by simpa [written?] using h.1,
      by simpa [written?] using h.2, by simp [savesReturn]⟩

@[simp] theorem plain_ld : (Instruction.memory .ld reg offset base).Plain ↔
    reg ≠ .pc ∧ reg ≠ .mp :=
  plain_load (.inl rfl)

@[simp] theorem plain_lda : (Instruction.memory .lda reg offset base).Plain ↔
    reg ≠ .pc ∧ reg ≠ .mp :=
  plain_load (.inr (.inl rfl))

@[simp] theorem plain_ldc : (Instruction.memory .ldc reg offset base).Plain ↔
    reg ≠ .pc ∧ reg ≠ .mp :=
  plain_load (.inr (.inr rfl))

/-- A store is plain if it is none to the place of a return address. -/
@[simp] theorem plain_st : (Instruction.memory .st reg offset base).Plain ↔
    (offset = Frame.returnAddress → base ≠ .top) := by
  constructor
  · intro h hoffset hbase
    exact h.saves reg (by rw [hoffset, hbase, savesReturn])
  · intro h
    refine ⟨rfl, nofun, nofun, fun reg' heq => ?_⟩
    cases heq
    exact h rfl rfl

/-- An operation on `ac` is plain if it has the form of its operation. -/
@[simp] theorem plain_register : (Instruction.register op .ac src₁ src₂).Plain ↔
    op.form = .register := by
  constructor
  · exact fun h => h.form
  · intro h
    refine ⟨h, ?_, ?_, nofun⟩ <;> cases op <;> simp [written?]

end Instruction

/-- A jump relative to `pc`, conditional or not. -/
def Opcode.Jumps (op : Opcode) (reg : Register) : Prop :=
  op = .jlt ∨ op = .jeq ∨ op = .lda ∧ reg = .pc

/-- A piece of code, at an address: its jumps lead to addresses before `n`, and so do the
return addresses that it saves. -/
inductive Code.Contained (n : Nat) : Nat → Code → Prop where
  | nil {start} : Contained n start []
  | plain {start i c} : i.Plain → Contained n (start + 1) c → Contained n start (i :: c)
  | jump {start op reg target c} : Opcode.Jumps op reg →
      target < n → Contained n (start + 1) c → Contained n start
      (.memory op reg (Int64.ofNat target - (Int64.ofNat start + 1)) .pc :: c)
  | returns {start c} : Contained n (start + 1) c → Contained n start (.returns :: c)
  | saves {start address c} : 0 < address → address < n → Contained n (start + 2) c →
      Contained n start (.memory .ldc .ac (Int64.ofNat address) .ac :: .savesReturn .ac :: c)

namespace Code.Contained

variable {n start : Nat} {c c' : Code}

theorem append (h : Contained n start c) (h' : Contained n (start + c.length) c') :
    Contained n start (c ++ c') := by
  induction h with
  | nil => exact h'
  | plain hi _ ih => exact .plain hi (ih (by rwa [Nat.add_assoc, Nat.add_comm 1]))
  | jump hop ht _ ih => exact .jump hop ht (ih (by rwa [Nat.add_assoc, Nat.add_comm 1]))
  | returns _ ih => exact .returns (ih (by rwa [Nat.add_assoc, Nat.add_comm 1]))
  | saves hpos hlt _ ih => exact .saves hpos hlt (ih (by rwa [Nat.add_assoc, Nat.add_comm 2]))

/-- Plain instructions are contained anywhere. -/
theorem of_plain (h : ∀ i ∈ c, i.Plain) : Contained n start c := by
  induction c generalizing start with
  | nil => exact .nil
  | cons i c ih =>
    obtain ⟨hi, hc⟩ := List.forall_mem_cons.mp h
    exact .plain hi (ih hc)

/-- A jump ahead, to an address of the code. -/
theorem forward {op : Opcode} {reg : Register} {k : Nat} (hop : op.Jumps reg)
    (hk : start + 1 + k < n) (h : Contained n (start + 1) c) :
    Contained n start (.memory op reg (Int64.ofNat k) .pc :: c) := by
  rw [← offset_forward start k]
  exact .jump hop hk h

theorem skip {k : Nat} (hk : start + 1 + k < n) (h : Contained n (start + 1) c) :
    Contained n start (Code.skip k :: c) :=
  forward (.inr (.inr ⟨rfl, rfl⟩)) hk h

theorem skipIfZero {k : Nat} (hk : start + 1 + k < n) (h : Contained n (start + 1) c) :
    Contained n start (Code.skipIfZero k :: c) :=
  forward (.inr (.inl rfl)) hk h

/-- A jump to where the piece of code before it starts. -/
theorem back {k : Nat} (hk : start < n) : Contained n (start + k) [Code.back (k + 1)] := by
  have hjump : Code.back (k + 1) =
      .memory .lda .pc (Int64.ofNat start - (Int64.ofNat (start + k) + 1)) .pc := by
    rw [offset_back, Code.back]
  rw [hjump]
  exact .jump (.inr (.inr ⟨rfl, rfl⟩)) hk .nil

/-- A comparison jumps over its own instructions only. -/
theorem compare {jump : Opcode} (hjump : jump = .jlt ∨ jump = .jeq)
    (h : start + (Code.compare jump).length < n) :
    (Code.compare jump).Contained n start := by
  have hlt : start + 5 < n := h
  refine .plain (by simp [Opcode.form])
    (forward (k := 2) (hjump.imp_right .inl) (by omega) ?_)
  exact .plain (by simp) (skip (k := 1) (by omega) (.plain (by simp) .nil))

/-- An operation on two values. -/
theorem operate (op : BinaryOp) (h : start + (Code.operate op).length < n) :
    (Code.operate op).Contained n start := by
  cases op with
  | add | sub | mul | div => exact of_plain (by simp [Code.operate, Opcode.form])
  | less => exact compare (.inl rfl) h
  | equal => exact compare (.inr rfl) h

theorem scaleIndex (low : Word) (size k : Int) :
    (Code.scaleIndex low size k).Contained n start := by
  refine of_plain ?_
  unfold Code.scaleIndex
  split <;> simp [Opcode.form]

theorem addBase (v : Variable) : (Code.addBase v).Contained n start := by
  refine of_plain ?_
  unfold Code.addBase
  split <;> simp [Opcode.form]

end Code.Contained

/-! ## Expressions -/

section

variable {a : Analysis} {n : Nat}

mutual

/-- Expressions jump within their own code only. -/
theorem Expr.contained_code :
    ∀ (e : Expr) {t : Int} {c : Code} {start : Nat}, e.code a t = .ok c →
    start + c.length < n → c.Contained n start
  | .const .., _, _, _, h, _ => by
    cases h
    exact .plain (by simp) .nil
  | .ref r, _, _, _, h, hn => by
    obtain ⟨address, haddress, rfl⟩ := Expr.code_ref_eq_ok h
    rw [List.length_append] at hn
    exact (Reference.contained_code r haddress (by omega)).append (.plain (by simp) .nil)
  | .binary _ op left right _, t, _, start, h, hn => by
    obtain ⟨l, r, hl, hr, rfl⟩ := Expr.code_binary_eq_ok h
    simp only [List.length_append, List.length_cons] at hn
    have hboth :
        Code.Contained n start (l ++ .memory .st .ac (Int64.ofInt (t - 1)) .mp :: r) :=
      (Expr.contained_code left hl (by omega)).append
        (.plain (by simp) (Expr.contained_code right hr (by omega)))
    refine hboth.append (.plain (by simp) (.operate op ?_))
    simp only [List.length_append, List.length_cons]
    omega

theorem Reference.contained_code :
    ∀ (r : Reference Expr) {t : Int} {c : Code} {start : Nat}, r.code a t = .ok c →
    start + c.length < n → c.Contained n start
  | ⟨_, _, selector, _⟩, _, _, _, h, hn => by
    obtain ⟨_, v, relative, _, _, hrelative, rfl⟩ := Reference.code_eq_ok h
    rw [List.length_append] at hn
    exact (Selector.contained_code selector hrelative (by omega)).append (.addBase v)

theorem Selector.contained_code :
    ∀ (selector : Selector Expr) {t : Int} {v : Variable} {name : Ident} {span : Span}
    {c : Code} {start : Nat}, selector.code a t v name span = .ok c → start + c.length < n →
    c.Contained n start
  | .whole, _, _, _, _, _, _, h, _ => by
    cases h
    exact .plain (by simp) .nil
  | .element index, _, _, _, _, _, _, h, hn => by
    obtain ⟨_, _, _, _, i, _, hi, rfl⟩ := Selector.code_element_eq_ok h
    rw [List.length_append] at hn
    exact (Expr.contained_code index hi (by omega)).append (.scaleIndex ..)
  | .field _, _, _, _, _, _, _, h, _ => by
    obtain ⟨_, _, _, _, _, rfl⟩ := Selector.code_field_eq_ok h
    exact .plain (by simp) .nil
  | .fieldElement _ index, _, _, _, _, _, _, h, hn => by
    obtain ⟨_, _, _, _, _, _, _, i, _, _, _, hi, rfl⟩ := Selector.code_fieldElement_eq_ok h
    rw [List.length_append] at hn
    exact (Expr.contained_code index hi (by omega)).append (.scaleIndex ..)

end

/-! ## Calls -/

/-- Behind the header of a frame no store is taken for one of the return address. -/
theorem Instruction.plain_behindHeader {offset : Int}
    (h : Frame.headerSize ≤ offset) (h' : offset ≤ Word.greatest)
    (reg : Register) : (Instruction.memory .st reg (Int64.ofInt offset) .top).Plain := by
  refine plain_st.mpr fun heq => absurd h ?_
  have hvalue := congrArg Int64.toInt heq
  rw [Machine.toInt_ofInt ⟨Int.le_trans (by decide) h, h'⟩] at hvalue
  rw [hvalue]
  decide

namespace Code.Contained

variable {start : Nat}

/-- A copy whose stores are plain. -/
theorem copyWords {count first : Int} {base : Register} (h : ∀ k < count.toNat,
      (Instruction.memory .st .ac1 (Int64.ofInt (first + k)) base).Plain) :
    (Code.copyWords count first base).Contained n start := by
  refine of_plain fun i hi => ?_
  obtain ⟨k, hk, hi⟩ := List.mem_flatMap.mp hi
  simp only [Code.copyWord, List.mem_cons, List.not_mem_nil, or_false] at hi
  rcases hi with rfl | rfl
  · simp
  · exact h k (List.mem_range.mp hk)

theorem saveRegisters (p : Procedure) : (Code.saveRegisters p).Contained n start :=
  of_plain (by simp [Code.saveRegisters, Frame.savedSp, Frame.savedAc, Frame.savedAc1,
      Frame.savedAc2, Frame.savedDisplay, Frame.levelSlot, Frame.returnAddress])

/-- The display lies behind the header. -/
theorem buildDisplay {p : Procedure} (hp : p.Laid a.symbols) :
    (Code.buildDisplay p).Contained n start := by
  have hdisplay := hp.display
  have hframe := hp.frame
  refine of_plain fun i hi => ?_
  rcases List.mem_append.mp hi with hi | hi
  · obtain ⟨k, hk, hi⟩ := List.mem_flatMap.mp hi
    have hlt := List.mem_range.mp hk
    simp only [Code.copyDisplay, List.mem_cons, List.not_mem_nil, or_false] at hi
    rcases hi with rfl | rfl
    · simp
    · exact Instruction.plain_behindHeader (by omega) (by omega) _
  · rw [List.mem_singleton.mp hi]
    exact Instruction.plain_behindHeader (by omega) (by omega) _

theorem enterFrame (p : Procedure) : (Code.enterFrame p).Contained n start :=
  of_plain (by simp [Code.enterFrame])

theorem restoreRegisters : Code.restoreRegisters.Contained n start :=
  of_plain (by simp [Code.restoreRegisters])

/-- Both the procedure's entry and the address behind the jump are in the code. -/
theorem transfer {p : Procedure} (hp : p.Laid a.symbols) {entry : Nat} (hentry : entry < n)
    (hn : start + (Code.transfer p entry start).length < n) :
    (Code.transfer p entry start).Contained n start := by
  let frame := Code.buildDisplay p ++ Code.enterFrame p
  let resume := start + (Code.saveRegisters p).length + 2 + frame.length + 1
  let before := Code.saveRegisters p ++ Code.saveReturn resume ++ frame
  have hresume : start + before.length + 1 = resume := by
    simp only [before, resume, List.length_append, Code.saveReturn, List.length_cons,
      List.length_nil]
    omega
  have hlt : resume < n := by
    have htotal : start + (before.length + 1) < n := by
      rw [← List.length_singleton, ← List.length_append]
      exact hn
    omega
  have hjump : Int64.ofNat resume = Int64.ofNat (start + before.length) + 1 := by
    rw [← hresume, Int64.ofNat_add]
    rfl
  have hbefore : Code.Contained n start before :=
    ((saveRegisters p).append (.saves (by omega) hlt .nil)).append
      ((buildDisplay hp).append (enterFrame p))
  refine hbefore.append ?_
  show Code.Contained n _ [.memory .lda .pc (Int64.ofNat entry - Int64.ofNat resume) .pc]
  rw [hjump]
  exact .jump (.inr (.inr ⟨rfl, rfl⟩)) hentry .nil

end Code.Contained

/-- The instructions that store may be looked at one by one. -/
theorem Expr.StoreCode.contained {type : TypeId} {first : Int} {b : Register} {e : Expr}
    {c : Code} {start : Nat} (h : Expr.StoreCode a type first b e c)
    (hplain : ∀ (reg : Register) (k : Nat), k < a.types.size type →
      (Instruction.memory .st reg (Int64.ofInt (first + k)) b).Plain)
    (hn : start + c.length < n) : c.Contained n start := by
  cases h with
  | word hsize hc =>
    rw [List.length_append] at hn
    have hst := hplain .ac 0 (by rw [hsize]; decide)
    rw [Int.natCast_zero, Int.add_zero] at hst
    exact (Expr.contained_code _ hc (by omega)).append (.plain hst .nil)
  | words _ hc =>
    rw [List.length_append] at hn
    exact (Reference.contained_code _ hc (by omega)).append
      (.copyWords fun k hk => hplain .ac1 k (by omega))

/-- An argument is stored behind the header. -/
theorem Expr.contained_argumentCode (ha : a.Consistent) {arg : Expr} {param : SymbolId}
    {v : Variable} (hv : a.symbols.variableAt? param = some v)
    (hoffset : Frame.headerSize ≤ v.offset) {c : Code} {start : Nat}
    (h : arg.argumentCode a param = .ok c) (hn : start + c.length < n) :
    c.Contained n start := by
  have hwords := (ha.variable_laid hv).words
  obtain ⟨v', hv', hform⟩ := Expr.argumentCode_eq_ok h
  cases hv.symm.trans hv'
  cases haccess : v.access with
  | indirect =>
    rw [haccess, Check.slotSize] at hwords
    rw [haccess] at hform
    obtain ⟨r, address, rfl, haddress, rfl⟩ := hform
    rw [List.length_append] at hn
    refine (Reference.contained_code r haddress (by omega)).append (.plain ?_ .nil)
    exact Instruction.plain_behindHeader hoffset (by omega) _
  | direct =>
    rw [haccess, Check.slotSize] at hwords
    rw [haccess] at hform
    exact hform.contained (fun _ k hk =>
      Instruction.plain_behindHeader (by omega) (by omega) _) hn

theorem Expr.contained_argumentsCode (ha : a.Consistent) :
    ∀ {args : List Expr} {params : List SymbolId} {c : Code} {start : Nat},
    (∀ id ∈ params, ∃ v, a.symbols.variableAt? id = some v ∧ Frame.headerSize ≤ v.offset) →
    Expr.argumentsCode a args params = .ok c → start + c.length < n → c.Contained n start
  | [], _, _, _, _, h, _ => by
    cases h
    exact .nil
  | _ :: _, [], _, _, _, h, _ => by
    cases h
    exact .nil
  | arg :: args, param :: params, _, _, hparams, h, hn => by
    obtain ⟨⟨v, hv, hoffset⟩, hparams⟩ := List.forall_mem_cons.mp hparams
    obtain ⟨first, rest, hfirst, hrest, rfl⟩ := Expr.argumentsCode_cons_eq_ok h
    rw [List.length_append] at hn
    exact (Expr.contained_argumentCode ha hv hoffset hfirst (by omega)).append
      (Expr.contained_argumentsCode ha hparams hrest (by omega))

/-- A call jumps to an entry. -/
theorem Call.contained_code (ha : a.Consistent) {entries : Entries}
    (hentries : ∀ x ∈ entries, x.2 < n) {call : Call} {c : Code} {start : Nat}
    (h : call.code a entries start = .ok c) (hn : start + c.length < n) :
    c.Contained n start := by
  obtain ⟨_, p, entry, args, _, hp, hentry, hargs, rfl⟩ := Call.exists_of_code h
  have hlaid := ha.procedure_laid hp
  simp only [List.length_append] at hn
  have hcode : Code.Contained n start args :=
    Expr.contained_argumentsCode ha hlaid.params hargs (by omega)
  refine (hcode.append (.transfer hlaid ?_ (by omega))).append .restoreRegisters
  exact hentries _ (Call.mem_of_entry hentry)

/-! ## Statements -/

/-- Assignments store nothing through `top`. -/
theorem Reference.contained_assignCode {target : VarRef}
    {value : Expr} {span : Span} {c : Code} {start : Nat}
    (h : target.assignCode a value span = .ok c) (hn : start + c.length < n) :
    c.Contained n start := by
  obtain ⟨_, address, store, _, haddress, hstore, rfl⟩ := Reference.assignCode_eq_ok h
  have hkeep : (Code.keep address).length = address.length + 1 := List.length_append
  rw [List.length_append, hkeep] at hn
  have htarget : (Code.keep address).Contained n start :=
    (Reference.contained_code target haddress (by omega)).append (.plain (by simp) .nil)
  exact htarget.append (hstore.contained (fun _ _ _ => by simp) (by omega))

mutual

/-- Statements jump within their own code and to entries. -/
theorem Stmt.contained_code (ha : a.Consistent)
    {entries : Entries} (hentries : ∀ x ∈ entries, x.2 < n) :
    ∀ (s : Stmt) {c : Code} {start : Nat}, s.code a entries start = .ok c →
    start + c.length < n → c.Contained n start
  | .assign target value span, _, _, h, hn => by
    rw [Stmt.code] at h
    exact Reference.contained_assignCode h hn
  | .ifElse condition thenBranch elseBranch span, _, start, h, hn => by
    obtain ⟨c, t, e, hc, ht, he, rfl⟩ := Stmt.code_ifElse_eq_ok h
    simp only [List.length_append, List.length_cons] at hn
    have hthen : Code.Contained n start (c ++ Code.skipIfZero (t.length + 1) :: t) :=
      (Expr.contained_code condition hc (by omega)).append
        (.skipIfZero (by omega) (Stmt.contained_codeAll ha hentries thenBranch ht (by omega)))
    have haddress : start + (c ++ Code.skipIfZero (t.length + 1) :: t).length =
        start + c.length + 1 + t.length := by
      simp only [List.length_append, List.length_cons]
      omega
    refine hthen.append ?_
    rw [haddress]
    exact .skip (by omega) (Stmt.contained_codeAll ha hentries elseBranch he (by omega))
  | .whileDo condition body span, _, start, h, hn => by
    obtain ⟨c, b, hc, hb, rfl⟩ := Stmt.code_whileDo_eq_ok h
    simp only [List.length_append, List.length_cons, List.length_nil] at hn
    have hbody : Code.Contained n start (c ++ Code.skipIfZero (b.length + 1) :: b) :=
      (Expr.contained_code condition hc (by omega)).append
        (.skipIfZero (by omega) (Stmt.contained_codeAll ha hentries body hb (by omega)))
    have hlength :
        (c ++ Code.skipIfZero (b.length + 1) :: b).length = c.length + b.length + 1 := by
      simp only [List.length_append, List.length_cons]
      omega
    refine hbody.append ?_
    rw [hlength]
    -- The jump back leads to the condition, where the statement starts.
    exact .back (by omega)
  | .read target span, _, _, h, hn => by
    obtain ⟨address, haddress, rfl⟩ := Stmt.code_read_eq_ok h
    rw [List.length_append] at hn
    exact (Reference.contained_code target haddress (by omega)).append
      (.of_plain (by simp [Opcode.form]))
  | .write value span, _, _, h, hn => by
    obtain ⟨v, hv, rfl⟩ := Stmt.code_write_eq_ok h
    rw [List.length_append] at hn
    exact (Expr.contained_code value hv (by omega)).append (.of_plain (by simp [Opcode.form]))
  | .call c, _, _, h, hn => by
    rw [Stmt.code] at h
    exact Call.contained_code ha hentries h hn
  | .ret span, _, _, h, _ => by
    rw [Stmt.code] at h
    cases h
    exact .returns .nil

theorem Stmt.contained_codeAll (ha : a.Consistent)
    {entries : Entries} (hentries : ∀ x ∈ entries, x.2 < n) :
    ∀ (ss : List Stmt) {c : Code} {start : Nat}, Stmt.codeAll a entries start ss = .ok c →
    start + c.length < n → c.Contained n start
  | [], _, _, h, _ => by
    rw [Stmt.codeAll] at h
    cases h
    exact .nil
  | s :: rest, _, _, h, hn => by
    obtain ⟨first, others, hfirst, hothers, rfl⟩ := Stmt.codeAll_cons_eq_ok h
    rw [List.length_append] at hn
    exact (Stmt.contained_code ha hentries s hfirst (by omega)).append
      (Stmt.contained_codeAll ha hentries rest hothers (by omega))

end

/-! ## Procedures and programs -/

mutual

/-- A procedure has its entry in the code. -/
theorem Decl.contained_code (ha : a.Consistent) :
    ∀ (d : Decl) {entries entries' : Entries} {c : Code} {start : Nat},
    (∀ x ∈ entries, x.2 < n) → d.code a entries start = .ok (c, entries') →
    start + c.length < n → c.Contained n start ∧ ∀ x ∈ entries', x.2 < n
  | .types .., _, _, _, _, hentries, h, _ => by
    rw [Decl.code] at h
    cases h
    exact ⟨.nil, hentries⟩
  | .vars .., _, _, _, _, hentries, h, _ => by
    rw [Decl.code] at h
    cases h
    exact ⟨.nil, hentries⟩
  | .procedure ⟨node, name, params, decls, body, span⟩, entries, _, _, start, hentries, h,
      hn => by
    obtain ⟨id, nested, b, _, hnested, hb, rfl⟩ := Decl.code_procedure_eq_ok h
    simp only [List.length_append] at hn
    have hown : ∀ x ∈ (id, start) :: entries, x.2 < n :=
      List.forall_mem_cons.mpr ⟨by omega, hentries⟩
    obtain ⟨hcode, hentries'⟩ := Decl.contained_nestedCode ha decls hown hnested (by omega)
    have hbody := Stmt.contained_codeAll ha hentries' body hb (by omega)
    exact ⟨(hcode.append hbody).append (.returns .nil), hentries'⟩

/-- The jumps over nested procedures stay in the code. -/
theorem Decl.contained_nestedCode (ha : a.Consistent) :
    ∀ (ds : List Decl) {entries entries' : Entries} {c : Code} {start : Nat},
    (∀ x ∈ entries, x.2 < n) → Decl.nestedCode a entries start ds = .ok (c, entries') →
    start + c.length < n → c.Contained n start ∧ ∀ x ∈ entries', x.2 < n
  | [], _, _, _, _, hentries, h, _ => by
    rw [Decl.nestedCode] at h
    cases h
    exact ⟨.nil, hentries⟩
  | .types .. :: rest, _, _, _, _, hentries, h, hn => by
    rw [Decl.nestedCode] at h
    · exact Decl.contained_nestedCode ha rest hentries h hn
    · intros; contradiction
  | .vars .. :: rest, _, _, _, _, hentries, h, hn => by
    rw [Decl.nestedCode] at h
    · exact Decl.contained_nestedCode ha rest hentries h hn
    · intros; contradiction
  | .procedure p :: rest, _, _, _, start, hentries, h, hn => by
    obtain ⟨c, entries₁, others, hc, hothers, rfl⟩ := Decl.nestedCode_procedure_eq_ok h
    simp only [List.length_append, List.length_cons] at hn
    obtain ⟨hcode, hentries₁⟩ := Decl.contained_code ha (.procedure p) hentries hc (by omega)
    obtain ⟨hrest, hentries'⟩ :=
      Decl.contained_nestedCode ha rest hentries₁ hothers (by omega)
    have haddress : start + (Code.skip c.length :: c).length = start + 1 + c.length := by
      rw [List.length_cons]
      omega
    exact ⟨(Code.Contained.skip (by omega) hcode).append (haddress ▸ hrest), hentries'⟩

end

theorem Decl.contained_codeAll (ha : a.Consistent) :
    ∀ (ds : List Decl) {entries entries' : Entries} {c : Code} {start : Nat},
    (∀ x ∈ entries, x.2 < n) → Decl.codeAll a entries start ds = .ok (c, entries') →
    start + c.length < n → c.Contained n start ∧ ∀ x ∈ entries', x.2 < n
  | [], _, _, _, _, hentries, h, _ => by
    cases h
    exact ⟨.nil, hentries⟩
  | d :: rest, _, _, _, _, hentries, h, hn => by
    obtain ⟨c, entries₁, others, hc, hothers, rfl⟩ := Decl.codeAll_cons_eq_ok h
    rw [List.length_append] at hn
    obtain ⟨hcode, hentries₁⟩ := Decl.contained_code ha d hentries hc (by omega)
    obtain ⟨hrest, hentries'⟩ := Decl.contained_codeAll ha rest hentries₁ hothers (by omega)
    exact ⟨hcode.append hrest, hentries'⟩

/-- The first instruction loads `mp`, the last one halts, and what stands behind the first one
is contained. -/
theorem Program.contained_code (ha : a.Consistent)
    {p : Program} {c : Code} (h : p.code a = .ok c) :
    ∃ inner, c = .memory .ld .mp 0 .ac :: (inner ++ [Code.halt]) ∧
      Code.Contained c.length 1 (inner ++ [Code.halt]) := by
  obtain ⟨procedures, entries, body, hprocedures, hbody, hparts, _, _⟩ := Program.code_eq_ok h
  let code := Code.skip procedures.length :: procedures
  refine ⟨.memory .st .ac 0 .ac :: (code ++ (Code.mainPrologue a ++ body)), ?_, ?_⟩
  · rw [hparts]
    simp only [code, Code.opening, List.cons_append, List.nil_append, List.append_assoc]
  have hlength :
      c.length = 3 + procedures.length + (Code.mainPrologue a).length + body.length + 1 := by
    rw [hparts]
    simp only [Code.opening, List.length_append, List.length_cons, List.length_nil]
    omega
  have hopening : Code.opening.length = 2 := rfl
  rw [hopening] at hprocedures hbody
  obtain ⟨hcode, hentries⟩ :=
    Decl.contained_codeAll (n := c.length) ha p.decls (by simp) hprocedures (by omega)
  have hbody := Stmt.contained_codeAll (n := c.length) ha hentries p.body hbody (by omega)
  have hprologue : Code.Contained c.length (3 + procedures.length) (Code.mainPrologue a) :=
    .of_plain (by simp [Code.mainPrologue])
  have haddress : 2 + code.length = 3 + procedures.length := by
    simp only [code, List.length_cons]
    omega
  refine Code.Contained.append
    (.plain (by simp) ((Code.Contained.skip (by omega) hcode).append ?_))
    (.plain (by simp [Code.halt, Opcode.form]) .nil)
  rw [haddress]
  exact hprologue.append hbody

end

/-! ## The code, instruction by instruction -/

/-- What stands at an address of contained code. -/
inductive Instruction.Stands (n address : Nat) : Instruction → Prop where
  | plain {i} : i.Plain → Stands n address i
  | jump {op reg target} : Opcode.Jumps op reg → target < n →
      Stands n address (.memory op reg (Int64.ofNat target - (Int64.ofNat address + 1)) .pc)
  | returns : Stands n address .returns
  | saves : Stands n address (.savesReturn .ac)

namespace Instruction.Stands

variable {n address : Nat} {i : Instruction}

/-- An instruction of the code has the form of its operation. -/
theorem form (h : i.Stands n address) : i.op.form = i.form := by
  cases h with
  | plain hi => exact hi.form
  | jump hop => rcases hop with rfl | rfl | ⟨rfl, rfl⟩ <;> rfl
  | returns => rfl
  | saves => rfl

/-- No instruction of the code writes `mp`, the first one apart. -/
theorem mp (h : i.Stands n address) : i.written? ≠ some .mp := by
  cases h with
  | plain hi => exact hi.mp
  | jump hop => rcases hop with rfl | rfl | ⟨rfl, rfl⟩ <;> simp [written?]
  | returns => simp [written?, Instruction.returns]
  | saves => simp [written?, savesReturn]

/-- What writes `pc` is a jump or a return. -/
theorem pc (h : i.Stands n address) (hpc : i.written? = some .pc) :
    (∃ op reg offset, Opcode.Jumps op reg ∧ i = .memory op reg offset .pc) ∨
    i = .returns := by
  cases h with
  | plain hi => exact absurd hpc hi.pc
  | jump hop => exact .inl ⟨_, _, _, hop, rfl⟩
  | returns => exact .inr rfl
  | saves => cases hpc

/-- A jump is relative, and its target is in the code. -/
theorem jump_inv {op : Opcode} {reg base : Register} {offset : Word}
    (h : (Instruction.memory op reg offset base).Stands n address) (hop : op.Jumps reg) :
    base = .pc ∧ ∃ target < n, offset = Int64.ofNat target - (Int64.ofNat address + 1) := by
  generalize hi : Instruction.memory op reg offset base = i at h
  cases h with
  | plain hplain =>
    subst hi
    refine absurd ?_ hplain.pc
    rcases hop with rfl | rfl | ⟨rfl, rfl⟩ <;> rfl
  | jump _ ht =>
    cases hi
    exact ⟨rfl, _, ht, rfl⟩
  | returns => cases hi; rcases hop with hop | hop | hop <;> simp at hop
  | saves => cases hi; rcases hop with hop | hop | hop <;> simp at hop

end Instruction.Stands

namespace Code.Contained

variable {n start : Nat} {code : Code}

/-- Every instruction of a contained piece is one of those that may stand there. -/
theorem stands (h : Contained n start code) :
    ∀ {k : Nat} {i : Instruction}, code[k]? = some i →
    i.Stands n (start + k) := by
  have later {start k d : Nat} {i : Instruction} (hi : i.Stands n (start + d + k)) :
      i.Stands n (start + (k + d)) := by
    rwa [Nat.add_comm k, ← Nat.add_assoc]
  induction h with
  | nil => simp
  | plain hplain _ ih =>
    rintro (_ | k) i hi
    · cases hi
      exact .plain hplain
    · exact later (ih hi)
  | jump hop ht _ ih =>
    rintro (_ | k) i hi
    · cases hi
      exact .jump hop ht
    · exact later (ih hi)
  | returns _ ih =>
    rintro (_ | k) i hi
    · cases hi
      exact .returns
    · exact later (ih hi)
  | saves _ _ _ ih =>
    rintro (_ | _ | k) i hi
    · cases hi
      exact .plain (by simp)
    · cases hi
      exact .saves
    · exact later (k := k) (d := 2) (ih hi)

end Code.Contained

/-- What is saved at `k` is a return address before `n`, loaded by the instruction in
front. -/
def Code.Saved (n : Nat) (code : Code) (k : Nat) (reg : Register) : Prop :=
  ∃ k' address, k = k' + 1 ∧ reg = .ac ∧
    code[k']? = some (.memory .ldc .ac (Int64.ofNat address) .ac) ∧
    0 < address ∧ address < n

theorem Code.Saved.cons {n k : Nat} {code : Code}
    {reg : Register} (h : code.Saved n k reg) (i : Instruction) :
    Code.Saved n (i :: code) (k + 1) reg := by
  obtain ⟨k', address, rfl, hrest⟩ := h
  exact ⟨k' + 1, address, rfl, hrest⟩

/-- A return address that is stored is one of the code. -/
theorem Code.Contained.saved {n start : Nat} {code : Code} (h : Contained n start code) :
    ∀ {k : Nat} {reg : Register},
    code[k]? = some (.savesReturn reg) → code.Saved n k reg := by
  induction h with
  | nil => simp
  | plain hplain _ ih =>
    rintro (_ | k) reg hi
    · cases hi
      exact absurd rfl (hplain.saves reg)
    · exact (ih hi).cons _
  | jump hop _ _ ih =>
    rintro (_ | k) reg hi
    · simp only [List.getElem?_cons_zero, Option.some.injEq, Instruction.savesReturn,
        Instruction.memory.injEq] at hi
      rcases hop with hop | hop | hop <;> simp [hop] at hi
    · exact (ih hi).cons _
  | returns _ ih =>
    rintro (_ | k) reg hi
    · cases hi
    · exact (ih hi).cons _
  | saves hpos hlt _ ih =>
    rintro (_ | _ | k) reg hi
    · cases hi
    · cases hi
      exact ⟨0, _, rfl, rfl, rfl, hpos, hlt⟩
    · exact ((ih hi).cons _).cons _

/-- Code in which the machine finds nothing illegal. It has one way to leave itself, by a
return. -/
structure Code.Legal (code : Code) : Prop where
  /-- Operations have operands of their form. -/
  form : ∀ i ∈ code, i.op.form = i.form
  /-- The first instruction writes `mp`, and no other does. -/
  mp : ∀ k i, code[k]? = some i → (i.written? = some .mp ↔ k = 0)
  /-- `pc` is written by jumps relative to it and by returns. -/
  pc : ∀ i ∈ code, i.written? = some .pc →
    (∃ op reg offset, Opcode.Jumps op reg ∧ i = .memory op reg offset .pc) ∨ i = .returns
  last : code.getLast? = some Code.halt

/-- Code that only gives addresses of its own. -/
structure Code.Closed (code : Code) : Prop where
  /-- Jumps are relative to `pc` and lead into the code. -/
  jump : ∀ (k : Nat) op reg offset base, code[k]? = some (.memory op reg offset base) →
    Opcode.Jumps op reg →
    base = .pc ∧ 0 ≤ k + 1 + offset.toInt ∧ k + 1 + offset.toInt < code.length
  /-- The return address in a frame is a constant, loaded right before it is saved. -/
  saved : ∀ k reg, code[k]? = some (.savesReturn reg) →
    ∃ (k' : Nat) (address : Word), k = k' + 1 ∧ reg = .ac ∧
    code[k']? = some (.memory .ldc .ac address .ac) ∧ 0 < address.toInt ∧
    address.toInt < code.length

section

variable {a : Analysis} {p : Program} {code : Code}

/-- Every instruction of a program is the first one or one of those that may stand there. -/
theorem Program.stands_code (ha : a.Consistent) (h : p.code a = .ok code)
    {k : Nat} {i : Instruction} (hi : code[k]? = some i) :
    k = 0 ∧ i = .memory .ld .mp 0 .ac ∨ k ≠ 0 ∧ i.Stands code.length k := by
  obtain ⟨inner, hc, hcontained⟩ := Program.contained_code ha h
  rw [hc] at hi
  cases k with
  | zero =>
    cases hi
    exact .inl ⟨rfl, rfl⟩
  | succ k =>
    rw [Nat.add_comm]
    exact .inr ⟨by omega, hcontained.stands hi⟩

/-- Every return address that a program stores is one of its code. -/
theorem Program.saved_code (ha : a.Consistent)
    (h : p.code a = .ok code) {k : Nat} {reg : Register}
    (hi : code[k]? = some (.savesReturn reg)) : code.Saved code.length k reg := by
  obtain ⟨inner, hc, hcontained⟩ := Program.contained_code ha h
  generalize code.length = n at hcontained ⊢
  subst hc
  cases k with
  | zero => cases hi
  | succ k => exact (hcontained.saved hi).cons _

/-- The code of a program is legal. -/
theorem Program.legal_code (ha : a.Consistent) (h : p.code a = .ok code) :
    Code.Legal code := by
  refine ⟨fun i hi => ?_, fun k i hi => ?_, fun i hi hpc => ?_, ?_⟩
  · obtain ⟨k, hk⟩ := List.mem_iff_getElem?.mp hi
    obtain ⟨_, rfl⟩ | ⟨_, hstands⟩ := Program.stands_code ha h hk
    · rfl
    · exact hstands.form
  · obtain ⟨rfl, rfl⟩ | ⟨hk, hstands⟩ := Program.stands_code ha h hi
    · simp [Instruction.written?]
    · exact iff_of_false hstands.mp hk
  · obtain ⟨k, hk⟩ := List.mem_iff_getElem?.mp hi
    obtain ⟨_, rfl⟩ | ⟨_, hstands⟩ := Program.stands_code ha h hk
    · cases hpc
    · exact hstands.pc hpc
  · obtain ⟨inner, hc, _⟩ := Program.contained_code ha h
    rw [hc, ← List.cons_append, List.getLast?_append]
    rfl

/-- The offset of a jump inside code that words can address. -/
theorem Code.toInt_offset {n k target : Nat}
    (hn : n < 2 ^ 63) (hk : k < n) (htarget : target < n) :
    (Int64.ofNat target - (Int64.ofNat k + 1)).toInt = target - (k + 1) := by
  have hoffset :
      Int64.ofNat target - (Int64.ofNat k + 1) = Int64.ofInt (target - (k + 1)) := by
    rw [Int64.ofInt_sub, Int64.ofInt_add, Int64.ofInt_eq_ofNat, Int64.ofInt_eq_ofNat]
    rfl
  rw [hoffset, Machine.toInt_ofInt]
  unfold Word.Fits Word.least Word.greatest
  omega

/-- The code of a program is closed. -/
theorem Program.closed_code (ha : a.Consistent)
    (h : p.code a = .ok code) (hlength : code.length < 2 ^ 63) :
    Code.Closed code := by
  constructor
  · intro k op reg offset base hi hop
    have hk : k < code.length := (List.getElem?_eq_some_iff.mp hi).1
    obtain ⟨_, hfirst⟩ | ⟨_, hstands⟩ := Program.stands_code ha h hi
    · cases hfirst
      rcases hop with hop | hop | hop <;> simp at hop
    · obtain ⟨hbase, target, htarget, rfl⟩ := hstands.jump_inv hop
      rw [Code.toInt_offset hlength hk htarget]
      exact ⟨hbase, by omega, by omega⟩
  · intro k reg hi
    obtain ⟨k', address, hk, hreg, hload, hpos, hlt⟩ := Program.saved_code ha h hi
    have haddress : (Int64.ofNat address).toInt = address :=
      Machine.toInt_ofNat (by unfold Word.greatest; omega)
    refine ⟨k', Int64.ofNat address, hk, hreg, hload, ?_⟩
    rw [haddress]
    omega

end

end BlockLang
