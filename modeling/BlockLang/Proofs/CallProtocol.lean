import BlockLang.Proofs.CallSites
import BlockLang.Proofs.Correctness

/-!
# The protocol of calls

What the code of a call does from any state of the machine, as long as there is room for
the new frame and for the temporaries and the arguments read nothing outside the frames.
It comes to the first instruction of the procedure that the call denotes. The new frame
has the caller's registers in its header, what the arguments pass in the slots of the
parameters, and the display of the level around the procedure. So a procedure finds the
variables that are visible where it is declared, whoever has called it.

`Program.calls_arrive` says so of every call of an accepted program.

* `Machine.Prepared` is what is asked of the machine, and `Machine.Arrives` what it is
  like at the entry.
* `Machine.Prepared.reaches_entry` goes through one call: the arguments are stored, then
  the header and the display, and the last of these leaves the words of the arguments
  alone.
* The parameters follow each other in the frame (`Block.Framed.lined_params`), which is
  what keeps one argument from overwriting another.
* `Program.Resolved.callee_stands`: the address that the call jumps to is where the code
  of the procedure stands that it denotes, since symbols of procedures are distinct.
-/

namespace BlockLang

/-! ## One call -/

/-- The machine is ready for a call: the frames end at `t` and the caller's display stands at
`d`, the new frame fits into memory, and the temporaries of the arguments lie behind it. -/
structure Machine.Prepared (P : Procedure) (level : Nat) (args : List Expr) (t d : Nat)
    (m : Machine) : Prop where
  size_le : (m.memory.size : Int) ≤ Word.greatest
  top : m.register .top = Int64.ofNat t
  displayOff : m.register .displayOff = Int64.ofNat d
  display_lt : d + level < t
  frame_le : t + P.frameSize ≤ m.memory.size
  temporaries : Expr.depthAll args = 0 ∨ ∃ q : Nat, m.register .mp = Int64.ofNat q ∧
    q ≤ m.memory.size ∧ t + P.frameSize + Expr.depthAll args ≤ q

/-- From `m` a call of `P` has come to `entry`; it was in `m₁` when it began to save the
registers, with all arguments stored. -/
structure Machine.Arrives (a : Analysis) (P : Procedure) (t d entry resume : Nat)
    (passed : List (List Word)) (m m₁ m' : Machine) : Prop where
  pc : m'.register .pc = Int64.ofNat entry
  sp : m'.register .sp = Int64.ofNat t
  top : m'.register .top = Int64.ofNat (t + P.frameSize.toNat)
  displayOff : m'.register .displayOff = Int64.ofNat (t + P.displayBase.toNat)
  mp : m'.register .mp = m.register .mp
  display : ∀ k, k < P.level → m'.word (t + P.displayBase.toNat + k) = m.word (d + k)
  own : m'.word (t + P.displayBase.toNat + P.level) = Int64.ofNat t
  kept : ∀ r, r ≠ .ac → r ≠ .ac1 → r ≠ .pc → m₁.register r = m.register r
  saved : ∀ j r, [Register.sp, .ac, .ac1, .ac2, .displayOff][j]? = some r →
    m'.word (t + j) = m₁.register r
  level : m'.word (t + 5) = Int64.ofNat P.level
  resume : m'.word (t + 6) = Int64.ofNat resume
  carries : List.Forall₂ (m'.Carries a t) (a.variables P.params) passed
  below : ∀ i, i < t → m'.word i = m.word i
  code : m'.code = m.code
  size : m'.memory.size = m.memory.size
  input : m'.input = m.input
  output : m'.output = m.output

/-- The transfer begins with the saving of the registers and ends with the jump. -/
theorem Code.at_transfer {code : Array Instruction} {P : Procedure} {entry start : Nat}
    (h : Code.At code start (Code.transfer P entry start)) :
    Code.At code start (Code.saveRegisters P) ∧
    ∃ jump, jump + 1 = start + (Code.transfer P entry start).length ∧
      Code.At code jump
      [.memory .lda .pc (Int64.ofNat entry - Int64.ofNat (jump + 1)) .pc] := by
  have hlength : start + (Code.transfer P entry start).length =
      start + (Code.saveRegisters P).length + 2 +
      (Code.buildDisplay P ++ Code.enterFrame P).length + 1 := by
    simp only [Code.transfer, Code.saveReturn, List.length_append, List.length_cons,
      List.length_nil]
    omega
  rw [hlength]
  obtain ⟨hat₁, hat₂⟩ := Code.at_append.mp h
  rw [List.append_assoc] at hat₁
  refine ⟨(Code.at_append.mp hat₁).1, _, rfl, ?_⟩
  convert hat₂ using 1
  simp only [Code.saveReturn, List.length_append, List.length_cons, List.length_nil]
  omega

section

variable {a : Analysis} {Γ : Names} {m : Machine} {P : Procedure}
    {t d level start entry : Nat}

open Machine in
/-- A call comes to its procedure. -/
theorem Machine.Prepared.reaches_entry {args : List Expr} (h : m.Prepared P level args t d)
    (hargs : List.Forall₂ (Expr.ResolvedFor a Γ) P.params args) {mid : Int}
    (hlined : a.Lined P.level Frame.headerSize (a.variables P.params) mid)
    (hmid : mid ≤ P.displayBase) (hframe : P.frameSize = P.displayBase + P.level + 1)
    (hlevel : P.level ≤ level + 1) {c : Code}
    (hc : Expr.argumentsCode a args P.params = .ok c) (hm : Code.Addressable m.code)
    (hat : Code.At m.code start (c ++ Code.transfer P entry (start + c.length)))
    {passed : List (List Word)}
    (hpassed : Expr.passedAll a ⟨m.word, t, d⟩ (a.variables P.params) args = .ok passed) :
    ∃ n₁ n₂ m₁ m₂, Reaches (m.goto start) n₁ m₁ ∧ Reaches m₁ n₂ m₂ ∧
      m₁.register .pc = Int64.ofNat (start + c.length) ∧ m.Arrives a P t d entry (start +
        c.length + (Code.transfer P entry (start + c.length)).length) passed m₁ m₂ := by
  have hsize := h.size_le
  have hdisplay := h.display_lt
  have hframe_le := h.frame_le
  have hheader : 7 ≤ mid := hlined.le
  obtain ⟨hi, hhi⟩ : ∃ hi : Nat, (t : Int) + mid = hi := Int.eq_ofNat_of_zero_le (by omega)
  obtain ⟨lo, hlo⟩ : ∃ lo : Nat, (t : Int) + P.frameSize = lo :=
    Int.eq_ofNat_of_zero_le (by omega)
  have hviews : m.Views ⟨m.word, t, d⟩ :=
    ⟨fun _ _ => rfl, h.displayOff, show t ≤ _ by omega, hsize⟩
  obtain ⟨q, hoffers⟩ : ∃ q, m.Offers 0 lo q (Expr.depthAll args) := by
    rcases h.temporaries with hzero | ⟨q, hmp, hq, hle⟩
    · exact ⟨0, .inl hzero⟩
    · exact ⟨q, .inr ⟨hmp, hq, by omega⟩⟩
  have hstart : (t : Int) + Frame.headerSize = (t + 7 : Nat) := rfl
  have hhi_le : hi ≤ lo := by omega
  -- Arguments are computed from the words below the new frame. Their slots lie in it, and the
  -- temporaries behind it.
  have hyields := hviews.yields_passedAll hhi (Nat.le_refl t) hhi_le hargs hoffers hc h.top
    (by omega) hlined (by exact Int.natCast_nonneg 7) hstart
  rw [hpassed] at hyields
  obtain ⟨m₁, hpass, hcarries, hwrites⟩ := hyields
  obtain ⟨hat₁, hat₂⟩ := Code.at_append.mp hat
  obtain ⟨n₁, hreaches₁⟩ := hpass.2 start hm hat₁
  have hkept : ∀ r, r ≠ .ac → r ≠ .ac1 → r ≠ .pc → m₁.register r = m.register r :=
    hwrites.register
  have hbelow : ∀ i, i < t → m₁.word i = m.word i :=
    fun i hi => hwrites.word i (by omega) (by omega)
  -- Header and display are stored before and behind the slots.
  obtain ⟨n₂, m₂, hreaches₂, henters⟩ :=
    reaches_transfer (hwrites.code ▸ hm) (hwrites.code ▸ hat₂)
    ((hkept .top (by decide) (by decide) (by decide)).trans h.top)
    ((hkept .displayOff (by decide) (by decide) (by decide)).trans h.displayOff) (by omega)
    (by omega) hframe (by rwa [hwrites.size]) (by rwa [hwrites.size])
  refine ⟨n₁, n₂ + 1, _, _, hreaches₁, hreaches₂, rfl, ?_⟩
  exact {
    pc := rfl
    sp := henters.sp
    top := henters.top
    displayOff := henters.displayOff
    mp := henters.mp.trans (hkept .mp (by decide) (by decide) (by decide))
    display := fun k hk => (henters.display k hk).trans (hbelow _ (by omega))
    own := henters.own
    kept := fun r hac hac1 hpc => (register_goto m₁ hpc _).trans (hkept r hac hac1 hpc)
    saved := fun j r hj => by
      have hpc : r ≠ .pc := fun heq => by simpa [heq] using List.mem_of_getElem? hj
      rw [register_goto m₁ hpc]
      exact henters.saved j r hj
    level := henters.level
    resume := henters.resume
    carries :=
        Carries.mono_all hcarries hlined (by exact Int.natCast_nonneg 7) fun i hi hi' =>
      henters.between i (by change (t : Int) + 7 ≤ i at hi; omega) (by omega)
    below := fun i hi => (henters.below i hi).trans (hbelow i hi)
    code := henters.code.trans hwrites.code
    size := henters.size.trans hwrites.size
    input := henters.input.trans hwrites.input
    output := henters.output.trans hwrites.output }

end

/-! ## The calls of a program -/

/-- The parameters stand side by side behind the header of the frame. -/
theorem Block.Framed.lined_params {a : Analysis} {b : Block} {id : SymbolId}
    {q : ProcDecl Decl} {P : Procedure} (h : b.Framed a id q P) :
    ∃ mid, a.Lined P.level Frame.headerSize (a.variables P.params) mid ∧
    mid ≤ P.displayBase := by
  obtain ⟨others, hothers⟩ := h.leading
  have hlined := h.lined
  rw [← hothers, Analysis.variables_append, ← h.level] at hlined
  obtain ⟨mid, hparams, hrest⟩ := hlined.of_append
  exact ⟨mid, hparams, hrest.le⟩

/-- Every parameter is a variable. -/
theorem Block.Framed.length_variables {a : Analysis} {b : Block}
    {id : SymbolId} {q : ProcDecl Decl} {P : Procedure}
    (h : b.Framed a id q P) : (a.variables P.params).length = P.params.length :=
  List.filterMap_length_eq_length.mpr fun param hparam =>
    Option.isSome_iff_exists.mpr (h.isVariable param hparam)

section

variable {p : Program} {a : Analysis} {l : Layer} {Γ : Names} {c : Code} {procedures : Code}
    {entries : Entries}

/-- The body of every block stands in the code, and so does the procedure that it belongs
to. -/
theorem Program.Resolved.blocks_stand (h : p.Resolved a l Γ) (hc : p.code a = .ok c)
    (hprocedures : Decl.codeAll a [] (Code.opening.length + 1) p.decls =
      .ok (procedures, entries)) :
    ∀ b ∈ p.blocks, (∃ entries₁ start body, Stmt.codeAll a entries₁ start b.body = .ok body ∧
        Code.At c.toArray start body ∧ entries₁ <:+ entries) ∧
      ∀ id q, b.owner = some (id, q) → q.Placed a (h.linkage hprocedures) c.toArray := by
  obtain ⟨procedures', entries', body, hprocedures', hbody, _, hat₁, hat₂⟩ :=
    Program.code_eq_ok hc
  rw [hprocedures] at hprocedures'
  cases hprocedures'
  have hplaced : ∀ q, .procedure q ∈ p.decls → q.Placed a (h.linkage hprocedures) c.toArray :=
    ProcDecl.placed_of_codeAll p.decls hprocedures hat₁ (List.suffix_refl _)
      (Nat.le_max_left ..)
  intro b hb
  rcases List.mem_append.mp hb with hb | hb
  · obtain ⟨id, q, howner, hbody, hq⟩ := Decl.placed_of_outlineAll p.decls hplaced b hb
    refine ⟨hbody ▸ hq.body, fun id' q' howner' => ?_⟩
    rw [howner] at howner'
    cases howner'
    exact hq
  · rw [List.mem_singleton.mp hb]
    obtain ⟨_, hat₂⟩ := Code.at_append.mp hat₂
    exact ⟨⟨entries, _, body, hbody, (Code.at_append.mp hat₂).1, List.suffix_refl _⟩, nofun⟩

/-- The procedure that a call jumps to is that of a block. -/
theorem Program.Resolved.callee_stands (h : p.Resolved a l Γ)
    (hnoted : ∀ b ∈ p.blocks, b.Noted a) (hc : p.code a = .ok c)
    (hprocedures : Decl.codeAll a [] (Code.opening.length + 1) p.decls =
      .ok (procedures, entries)) {call : Call}
    {id : SymbolId} {entry : Nat} (hentry : call.entry entries id = .ok entry) :
    ∃ b ∈ p.blocks, ∃ q, b.owner = some (id, q) ∧ q.StandsAt a c.toArray entry := by
  obtain ⟨new, hnew, hkeys⟩ := Decl.codeAll_entries p.decls hprocedures
  have hmem : id ∈ Decl.procedureSymbolsAll a p.decls := by
    have hkey := List.mem_map_of_mem (f := (·.1)) (Call.mem_of_entry hentry)
    rw [hnew, List.append_nil, hkeys, List.mem_reverse] at hkey
    exact hkey
  obtain ⟨b, hb, id', q, howner, hid⟩ := Decl.owner_of_procedureSymbolsAll p.decls hmem [] _ _
  have hb' : b ∈ p.blocks := List.mem_append_left _ hb
  rw [(hnoted b hb').owner howner] at hid
  cases hid
  have hplaced := (h.blocks_stand hc hprocedures b hb').2 id q howner
  have hsuffix : entries <:+ (h.linkage hprocedures).entries := List.suffix_refl _
  obtain ⟨entries₁, c', entries₂, hcode, hat, _⟩ :=
    hplaced.stands ((hnoted b hb').owner howner) hsuffix hentry
  exact ⟨b, hb', q, howner, entries₁, c', entries₂, hcode, hat⟩

end

/-- Every call of an accepted program whose nodes have distinct identities keeps the protocol:
wherever its code stands and whatever the machine holds, it comes to the procedure that it
denotes, with the frame that the procedure expects. How many steps this takes does not depend
on the limit. -/
theorem Program.calls_arrive {p : Program} {a : Analysis}
    (ha : p.analyze = .ok a) (hnodes : p.DistinctNodes) (o : Options) :
    ∃ code procedures entries, p.compile o = .ok code ∧
      Decl.codeAll a [] (Code.opening.length + 1) p.decls = .ok (procedures, entries) ∧
      (code.instructions.length < 2 ^ 63 → ∀ b ∈ p.blocks, ∀ c ∈ Stmt.callsAll b.body,
        ∃ id P entry, a.annotations.symbol? c.node = some id ∧
          a.symbols.procedureAt? id = some P ∧
          P.level ≤ b.level + 1 ∧ (a.variables P.params).length = c.args.length ∧
          entries.lookup id = some entry ∧ (∃ b' ∈ p.blocks, ∃ q, b'.owner = some (id, q) ∧
            q.StandsAt a code.instructions.toArray entry) ∧
          (∃ start, c.StandsAt a entries code.instructions.toArray start) ∧
          (∀ x, Readable (Expr.passedAll a x (a.variables P.params) c.args)) ∧
          ∀ start, c.StandsAt a entries code.instructions.toArray start →
          ∀ (m : Machine) (t d : Nat) (passed : List (List Word)),
          m.code = code.instructions.toArray →
            m.register .pc = Int64.ofNat start → m.Prepared P b.level c.args t d →
            Expr.passedAll a ⟨m.word, t, d⟩ (a.variables P.params) c.args = .ok passed →
            ∃ saving jump n₁ n₂ m₁ m₂, Code.At m.code saving (Code.saveRegisters P) ∧
              Code.At m.code jump
              [.memory .lda .pc (Int64.ofNat entry - Int64.ofNat (jump + 1)) .pc] ∧
              (∀ limit steps, steps + (n₁ + n₂) ≤ limit →
                Machine.Steps (m.timed limit steps) n₁ (m₁.timed limit (steps + n₁)) ∧
                Machine.Steps (m₁.timed limit (steps + n₁)) n₂
                (m₂.timed limit (steps + n₁ + n₂))) ∧
              m₁.register .pc = Int64.ofNat saving ∧
              m.Arrives a P t d entry (jump + 1) passed m₁ m₂) := by
  obtain ⟨code, l, Γ, hcompile, hcode, hresolved⟩ := Program.compile_of_analyze ha hnodes o
  obtain ⟨procedures, entries, _, hprocedures, _⟩ := Program.code_eq_ok hcode
  have hp := Program.analyzed_of_analyze ha
  have hnoted := hp.noted hnodes
  refine ⟨code, procedures, entries, hcompile, hprocedures, fun hlength b hb c hcall => ?_⟩
  obtain ⟨callee, P, hname, hP, hsymbol, hargs⟩ :=
    Stmt.Resolved.callsAll (hnoted b hb).body c hcall
  have hlevel : P.level ≤ b.level + 1 := by
    obtain ⟨i, _, _, _, _, hplaces⟩ :=
      (hp.laid b hb).places_of_mem (Names.mem_of_lookup hname)
    have := (hplaces.proc hP).1
    omega
  obtain ⟨⟨entries₁, _, _, hbody, hat, hsuffix⟩, _⟩ :=
    hresolved.blocks_stand hcode hprocedures b hb
  obtain ⟨start₀, hstands₀⟩ := Stmt.standsAt_of_codeAll b.body hbody hat c hcall
  have hstands :
      c.StandsAt a (hresolved.linkage hprocedures).entries code.instructions.toArray start₀ :=
    hstands₀.of_suffix hsuffix
  obtain ⟨_, hc, _⟩ := id hstands
  obtain ⟨entry, _, hentry, _⟩ := Call.code_eq_ok hsymbol hP hc
  -- The procedure that the call denotes owns a block, which says how the frame is laid out.
  obtain ⟨b', hb', q, howner, hq⟩ := hresolved.callee_stands hnoted hcode hprocedures hentry
  obtain ⟨P', hframed⟩ := (hp.laid b' hb').framed howner
  obtain rfl : P = P' :=
    Option.some.inj (hP.symm.trans (SymbolTable.procedureAt?_of_get? hframed.symbol))
  refine ⟨callee, P, entry, hsymbol, hP, hlevel,
    hframed.length_variables.trans hargs.length_eq,
    Call.lookup_of_entry hentry, ⟨b', hb', q, howner, hq⟩, ⟨start₀, hstands⟩,
    Expr.readable_passedAll hp.builtins hargs, ?_⟩
  -- The same code may stand elsewhere too; it jumps to the same entry.
  intro start hstart m t d passed hmcode hpc hprepared hpassed
  obtain ⟨c', hc', hat'⟩ := hstart
  obtain ⟨entry', args, hentry', hargsCode, rfl⟩ := Call.code_eq_ok hsymbol hP hc'
  obtain rfl : entry = entry' := Except.ok.inj (hentry.symm.trans hentry')
  rw [← hmcode] at hat'
  obtain ⟨hat', _⟩ := Code.at_append.mp hat'
  obtain ⟨mid, hlined, hmid⟩ := hframed.lined_params
  obtain ⟨n₁, n₂, m₁, m₂, hreaches₁, hreaches₂, hpc₁, harrives⟩ :=
    hprepared.reaches_entry hargs hlined hmid (by rw [hframed.frameSize, hframed.level])
    hlevel hargsCode (hmcode ▸ Code.addressable_of_length hlength) hat' hpassed
  rw [Machine.goto_eq_self hpc] at hreaches₁
  obtain ⟨hsaving, jump, hjump, hatJump⟩ := Code.at_transfer (Code.at_append.mp hat').2
  refine ⟨_, jump, n₁, n₂, m₁, m₂, hsaving, hatJump, fun limit steps hle => ?_, hpc₁,
    hjump ▸ harrives⟩
  exact ⟨hreaches₁.steps (by omega), hreaches₂.steps (by omega)⟩

/-- The memory of the nesting program before its main program calls `fill`: `v` holds three
and four. -/
def Program.nestingMemory : Memory where
  words := #[3, 4] ++ Array.replicate 38 0

/-- The array is passed word by word, and `n` by its address. -/
theorem Program.nesting_fill {a : Analysis} (ha : Program.nesting.analyze = .ok a) :
    ∃ b ∈ Program.nesting.blocks, ∃ c ∈ Stmt.callsAll b.body, ∃ P,
      (a.annotations.symbol? c.node).bind a.symbols.procedureAt? = some P ∧
      b.level = 0 ∧ c.callee.name = "fill" ∧
      Expr.depthAll c.args = 0 ∧ P.frameSize = 13 ∧ P.displayBase = 11 ∧ P.level = 1 ∧
      (a.variables P.params).map (·.offset) = [7, 9] ∧ Expr.passedAll a
      ⟨fun i => Program.nestingMemory.get i, 4, 3⟩ (a.variables P.params) c.args =
        .ok [[3, 4], [2]] := by
  have hcheck :
      (Program.nesting.analyze.toOption.any fun a => Program.nesting.blocks.any fun b =>
      (Stmt.callsAll b.body).any fun c =>
          ((a.annotations.symbol? c.node).bind a.symbols.procedureAt?).any fun P =>
        decide (b.level = 0 ∧ c.callee.name = "fill" ∧ Expr.depthAll c.args = 0 ∧
          P.frameSize = 13 ∧ P.displayBase = 11 ∧ P.level = 1 ∧
          (a.variables P.params).map (·.offset) = [7, 9] ∧ Expr.passedAll a ⟨fun i =>
            Program.nestingMemory.get i, 4, 3⟩ (a.variables P.params) c.args =
            .ok [[3, 4], [2]])) = true := by decide +kernel
  rw [ha, Except.toOption, Option.any_some] at hcheck
  obtain ⟨b, hb, hcheck⟩ := List.any_eq_true.mp hcheck
  obtain ⟨c, hc, hcheck⟩ := List.any_eq_true.mp hcheck
  obtain ⟨P, hP, hcheck⟩ := (Option.any_eq_true _ _).mp hcheck
  exact ⟨b, hb, c, hc, P, hP, of_decide_eq_true hcheck⟩

/-- The call of `fill` in the main program of the nesting program. -/
theorem Program.nesting_calls_arrive : ∃ (a : Analysis) (code : ObjectCode)
    (entries : Entries) (b : Block) (c : Call) (P : Procedure) (entry start : Nat)
      (m : Machine), Program.nesting.analyze = .ok a ∧ Program.nesting.DistinctNodes ∧
      Program.nesting.compile {} = .ok code ∧ code.instructions.length < 2 ^ 63 ∧
      b ∈ Program.nesting.blocks ∧ c ∈ Stmt.callsAll b.body ∧ c.callee.name = "fill" ∧
      c.StandsAt a entries code.instructions.toArray start ∧
      m.code = code.instructions.toArray ∧
      m.register .pc = Int64.ofNat start ∧ m.Prepared P b.level c.args 4 3 ∧
      Expr.passedAll a ⟨m.word, 4, 3⟩ (a.variables P.params) c.args = .ok [[3, 4], [2]] ∧
      ∃ (n₁ n₂ : Nat) (m₁ m₂ : Machine), (∀ limit steps, steps + (n₁ + n₂) ≤ limit →
          Machine.Steps (m.timed limit steps) n₁ (m₁.timed limit (steps + n₁)) ∧
          Machine.Steps (m₁.timed limit (steps + n₁)) n₂ (m₂.timed limit (steps + n₁ + n₂))) ∧
        m₂.register .pc = Int64.ofNat entry ∧ m₂.register .sp = 4 ∧ m₂.register .top = 17 ∧
        [11, 12, 13, 15, 16].map m₂.word = [3, 4, 2, 0, 4] := by
  obtain ⟨a, ha⟩ := Program.nesting_accepted
  have hnodes := Program.nesting_distinctNodes
  obtain ⟨code, procedures, entries, hcompile, _, hcalls⟩ := Program.calls_arrive ha hnodes {}
  have hlength : code.instructions.length < 2 ^ 63 := by
    have hcheck : (match Program.nesting.compile {} with
        | .ok code => decide (code.instructions.length < 2 ^ 63)
        | .error _ => false) = true := by decide +kernel
    rw [hcompile] at hcheck
    exact of_decide_eq_true hcheck
  obtain ⟨b, hb, c, hc, P, hP, hlevel, hcallee, hdepth, hframe, hbase, hP', hoffsets,
    hpassed⟩ := Program.nesting_fill ha
  obtain ⟨id, P₁, entry, hid, hP₁, _, _, _, _, ⟨start, hstands⟩, _, harrives⟩ :=
    hcalls hlength b hb c hc
  obtain rfl : P₁ = P := by
    rw [hid, Option.bind_some, hP₁] at hP
    exact Option.some.inj hP
  let m : Machine := { Machine.load code ⟨40, 0⟩ [] with
    memory := Program.nestingMemory, registers :=
      { mp := 39, displayOff := 3, top := 4, pc := Int64.ofNat start } }
  have hprepared : m.Prepared P₁ b.level c.args 4 3 := by
    have hsize : m.memory.size = 40 := by
      change Program.nestingMemory.size = 40
      decide
    exact ⟨by rw [hsize]; decide, rfl, rfl, by omega, by rw [hsize, hframe]; decide,
      .inl hdepth⟩
  obtain ⟨_, _, n₁, n₂, m₁, m₂, _, _, hsteps, _, h⟩ :=
    harrives start hstands m 4 3 _ rfl rfl hprepared hpassed
  refine ⟨a, code, entries, b, c, P₁, entry, start, m, ha, hnodes,
    hcompile, hlength, hb, hc, hcallee, hstands, rfl, rfl,
    hprepared, hpassed, n₁, n₂, m₁, m₂, hsteps, h.pc, h.sp, ?_, ?_⟩
  · rw [h.top, hframe]
    rfl
  · have hcarries := h.carries
    generalize a.variables P₁.params = vs at hoffsets hcarries
    cases hcarries with
    | @cons v₁ _ _ _ h₁ hcarries =>
    cases hcarries with
    | @cons v₂ _ _ _ h₂ hcarries =>
    cases hcarries
    obtain ⟨ho₁, ho₂⟩ : v₁.offset = 7 ∧ v₂.offset = 9 := by simpa using hoffsets
    have hfirst := h₁.2 0 3 rfl
    have hsecond := h₁.2 1 4 rfl
    have haddress := h₂.2 0 2 rfl
    have hdisplay := h.display 0 (by omega)
    have hown := h.own
    rw [ho₁] at hfirst hsecond
    rw [ho₂] at haddress
    rw [hbase] at hdisplay hown
    rw [hP'] at hown
    simp only [List.map_cons, List.map_nil, List.cons.injEq, and_true]
    exact ⟨hfirst, hsecond, haddress, hdisplay, hown⟩

end BlockLang
