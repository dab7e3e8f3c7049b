import BlockLang.Proofs.Execution

/-!
# What a step can change

An instruction is executed when the clock has been advanced and the program counter has
been moved past it. From there on it either faults, and changes nothing more, or does one
of five things: nothing, set a register, store a word, take an input value or write an
output value (`Machine.Does`). The case split over the operations is made once, for
`Machine.performs`; what a step and a run can change follows from the five cases.

`Machine.step_bounded` is the theorem.

* `Machine.step_cases`: a step is refused at the limit, finds no instruction, or performs
  one. `Machine.step_fault_cases` says what is known of the state when it faults.
* `Machine.perform_access`: a load or a store succeeds exactly if the exact sum of offset
  and base is an address of data memory. This goes through the chain of checks that an
  address passes, whose closed form is `Machine.slot_eq`.
* `Machine.perform_illegal`: an instruction is illegal exactly if its operands have
  another form than its operation.
* `Machine.Spends` counts what steps use up. One step spends one of each at most
  (`Machine.Does.stepsTo`), and so on along a run (`Machine.Steps.spends`).
-/

namespace BlockLang

/-- The address of the instruction that faults. There is none where the limit is reached or
nothing can be fetched. -/
def Fault.address? : Fault → Option Nat
  | .illegalInstruction pc | .dataOutOfRange _ pc | .divisionByZero pc | .inputExhausted pc =>
    some pc
  | .instructionOutOfRange _ | .stepLimitExceeded _ => none

namespace Outcome

/-- There is no fault: the machine goes on or has come to `HALT`. -/
def Succeeds (o : Outcome) : Prop := ∀ f, o ≠ .fault f

@[simp] theorem succeeds_running : Outcome.running.Succeeds := by simp [Succeeds]

@[simp] theorem succeeds_halted : Outcome.halted.Succeeds := by simp [Succeeds]

@[simp] theorem not_succeeds_fault (f : Fault) : ¬ (Outcome.fault f).Succeeds := by
  simp [Succeeds]

end Outcome

namespace Machine

/-! ## Instructions -/

/-- What an instruction can do without a fault. -/
inductive Does (m : Machine) : Machine → Prop where
  | nothing : m.Does m
  | set (reg : Register) (w : Word) : m.Does (m.setRegister reg w)
  | store (i : Nat) (w : Word) : m.Does (m.put i w)
  | take {w : Word} {rest : List Word} (reg : Register) : m.input = w :: rest →
      m.Does ({ m with input := rest }.setRegister reg w)
  | write (w : Word) : m.Does { m with output := m.output.push w }

/-- An instruction at the address `pc` succeeds and does one of these things, or faults and
does nothing. -/
inductive Performs (m : Machine) (pc : Nat) : Machine × Outcome → Prop where
  | done {m' : Machine} {o : Outcome} : m.Does m' → o.Succeeds → Performs m pc (m', o)
  | fails {f : Fault} : f.address? = some pc → Performs m pc (m, .fault f)

/-- Only an address outside of data memory is refused. -/
theorem slot_eq_error {m : Machine} {offset base : Word} {pc : Nat}
    {f : Fault} (h : m.slot offset base pc = .error f) :
    f = .dataOutOfRange (Word.clamp (offset.toInt + base.toInt)) pc := by
  rw [slot_eq] at h
  dsimp only at h
  split at h <;> cases h
  rfl

/-- What a register instruction can do. -/
theorem performsRegister (m : Machine) (pc : Nat) (op : Opcode) (dst src₁ src₂ : Register) :
    m.Performs pc (m.performRegister pc op dst src₁ src₂) := by
  cases op with
  | halt => exact .done .nothing (by simp)
  | inp =>
    cases hinput : m.input with
    | nil =>
      simp only [performRegister, hinput]
      exact .fails rfl
    | cons w rest =>
      simp only [performRegister, hinput]
      exact .done (.take dst hinput) (by simp)
  | out => exact .done (.write _) (by simp)
  | add | sub | mul => exact .done (.set dst _) (by simp)
  | div =>
    by_cases hzero : m.register src₂ = 0
    · simp only [performRegister, if_pos hzero]
      exact .fails rfl
    · simp only [performRegister, if_neg hzero]
      exact .done (.set dst _) (by simp)
  | ld | st | lda | ldc | jlt | jeq => exact .fails rfl

/-- What a memory instruction can do. -/
theorem performsMemory (m : Machine) (pc : Nat) (op : Opcode)
    (reg : Register) (offset : Word) (base : Register) :
    m.Performs pc (m.performMemory pc op reg offset base) := by
  cases op with
  | ld =>
    simp only [performMemory]
    split
    next hslot =>
      rw [slot_eq_error hslot]
      exact .fails rfl
    next => exact .done (.set reg _) (by simp)
  | st =>
    simp only [performMemory]
    split
    next hslot =>
      rw [slot_eq_error hslot]
      exact .fails rfl
    next => exact .done (.store _ _) (by simp)
  | lda | ldc => exact .done (.set reg _) (by simp)
  | jlt =>
    by_cases hneg : m.register reg < 0
    · simp only [performMemory, if_pos hneg]
      exact .done (.set .pc _) (by simp)
    · simp only [performMemory, if_neg hneg]
      exact .done .nothing (by simp)
  | jeq =>
    by_cases hzero : m.register reg = 0
    · simp only [performMemory, if_pos hzero]
      exact .done (.set .pc _) (by simp)
    · simp only [performMemory, if_neg hzero]
      exact .done .nothing (by simp)
  | halt | inp | out | add | sub | mul | div => exact .fails rfl

/-- What an instruction can do. -/
theorem performs (m : Machine) (pc : Nat) (i : Instruction) :
    m.Performs pc (m.perform pc i) := by
  cases i with
  | register op dst src₁ src₂ => exact m.performsRegister pc op dst src₁ src₂
  | memory op reg offset base => exact m.performsMemory pc op reg offset base

/-- A fault names the address of the instruction and changes nothing. -/
theorem Performs.fault {m : Machine} {pc : Nat} {r : Machine × Outcome} {f : Fault}
    (h : m.Performs pc r) (hf : r.2 = .fault f) : f.address? = some pc ∧ r.1 = m := by
  cases h with
  | done _ hsucceeds => exact absurd hf (hsucceeds f)
  | fails haddress =>
    cases hf
    exact ⟨haddress, rfl⟩

theorem Performs.does {m : Machine} {pc : Nat} {r : Machine × Outcome}
    (h : m.Performs pc r) (hr : r.2.Succeeds) :
    m.Does r.1 := by
  cases h with
  | done hdoes _ => exact hdoes
  | fails _ => exact absurd hr (by simp)

/-- No instruction changes the code. -/
theorem Performs.code_eq {m : Machine} {pc : Nat}
    {r : Machine × Outcome} (h : m.Performs pc r) :
    r.1.code = m.code := by
  cases h with
  | done hdoes _ => cases hdoes <;> rfl
  | fails _ => rfl

/-- A load or store succeeds where its exact address is one of data memory; otherwise the
nearest word is reported. -/
theorem perform_access (m : Machine) (pc : Nat) {op : Opcode} (hop : op = .ld ∨ op = .st)
    (reg : Register) (offset : Word) (base : Register) :
    let address := offset.toInt + (m.register base).toInt
    (m.perform pc (.memory op reg offset base)).2 =
      if 0 ≤ address ∧ address < m.memory.size then .running
      else .fault (.dataOutOfRange (Word.clamp address) pc) := by
  intro address
  by_cases haddress : 0 ≤ address ∧ address < m.memory.size
  · have hslot : m.slot offset (m.register base) pc = .ok address.toNat :=
      (m.slot_eq offset _ pc).trans (if_pos haddress)
    rcases hop with rfl | rfl <;> simp only [perform, performMemory, hslot, if_pos haddress]
  · have hslot : m.slot offset (m.register base) pc = .error _ :=
      (m.slot_eq offset _ pc).trans (if_neg haddress)
    rcases hop with rfl | rfl <;> simp only [perform, performMemory, hslot, if_neg haddress]
    all_goals rfl

/-- An instruction is illegal exactly if the operation does not go with the form of its
operands. -/
theorem perform_illegal (m : Machine) (pc : Nat) (i : Instruction) :
    (m.perform pc i).2 = .fault (.illegalInstruction pc) ↔ i.form ≠ i.op.form := by
  cases i with
  | register op dst src₁ src₂ =>
    cases op with
    | inp | div =>
      simp only [perform, performRegister]
      split <;> simp [Instruction.form, Instruction.op, Opcode.form]
    | _ => simp [perform, performRegister, Instruction.form, Instruction.op, Opcode.form]
  | memory op reg offset base =>
    cases op with
    | ld =>
      rw [m.perform_access pc (.inl rfl)]
      split <;> simp [Instruction.form, Instruction.op, Opcode.form]
    | st =>
      rw [m.perform_access pc (.inr rfl)]
      split <;> simp [Instruction.form, Instruction.op, Opcode.form]
    | _ => simp [perform, performMemory, Instruction.form, Instruction.op, Opcode.form]

/-! ## Steps -/

/-- The machine when an instruction has been fetched: one more step is counted and the program
counter points past the instruction. -/
def fetched (m : Machine) : Machine :=
  { m with steps := m.steps + 1, registers := { m.registers with pc := m.registers.pc + 1 } }

@[simp] theorem memory_fetched (m : Machine) : m.fetched.memory = m.memory := rfl

theorem register_fetched {reg : Register} (m : Machine) (h : reg ≠ .pc) :
    m.fetched.register reg = m.register reg := by
  cases reg <;> first | rfl | contradiction

/-- Where nothing can be fetched a step is counted, and nothing else changes. -/
theorem step_out_of_range {m : Machine} (hlt : m.steps < m.stepLimit)
    (hfetch : m.fetch? m.registers.pc = none) : m.step =
    ({ m with steps := m.steps + 1 }, .fault (.instructionOutOfRange m.registers.pc)) := by
  have hfetch' : fetch? { m with steps := m.steps + 1 } m.registers.pc = none := hfetch
  simp only [step, if_neg (Nat.not_le.mpr hlt), hfetch']

/-- A step performs the instruction that is fetched. -/
theorem step_fetched {m : Machine} {i : Instruction} (hlt : m.steps < m.stepLimit)
    (hfetch : m.fetch? m.registers.pc = some i) :
    m.step = m.fetched.perform m.registers.pc.toInt.toNat i := by
  have hfetch' : fetch? { m with steps := m.steps + 1 } m.registers.pc = some i := hfetch
  simp only [step, if_neg (Nat.not_le.mpr hlt), hfetch']
  rfl

/-- The three things that a step can be: out of time, out of the code, or an instruction. -/
theorem step_cases (m : Machine) :
    m.step = (m, .fault (.stepLimitExceeded m.stepLimit)) ∨
    m.fetch? m.registers.pc = none ∧
      m.step =
      ({ m with steps := m.steps + 1 }, .fault (.instructionOutOfRange m.registers.pc)) ∨
    ∃ i, m.fetch? m.registers.pc = some i ∧
    m.step = m.fetched.perform m.registers.pc.toInt.toNat i := by
  by_cases hle : m.stepLimit ≤ m.steps
  · exact .inl (if_pos hle)
  · have hlt := Nat.not_le.mp hle
    cases hfetch : m.fetch? m.registers.pc with
    | none => exact .inr (.inl ⟨rfl, step_out_of_range hlt hfetch⟩)
    | some i => exact .inr (.inr ⟨i, rfl, step_fetched hlt hfetch⟩)

/-- An instruction is fetched from an address of the code. -/
theorem fetch?_eq_some_iff {m : Machine} {w : Word} {i : Instruction} :
    m.fetch? w = some i ↔ 0 ≤ w.toInt ∧ m.code[w.toInt.toNat]? = some i := by
  unfold fetch?
  have hnonneg : (0 : Word) ≤ w ↔ 0 ≤ w.toInt := Int64.le_iff_toInt_le
  split
  next h => simp [hnonneg.mp h]
  next h => simp [mt hnonneg.mpr h]

/-- The three kinds of faults: at the limit, without an instruction and in an instruction. -/
theorem step_fault_cases {m : Machine} {f : Fault} (h : m.step.2 = .fault f) :
    (f = .stepLimitExceeded m.stepLimit ∧ m.step.1 = m) ∨
    (f = .instructionOutOfRange m.registers.pc ∧ m.fetch? m.registers.pc = none ∧
      m.step.1 = { m with steps := m.steps + 1 }) ∨
    (f.address? = some m.registers.pc.toInt.toNat ∧ m.step.1 = m.fetched ∧
      ∃ i, m.fetch? m.registers.pc = some i) := by
  rcases m.step_cases with hstep | ⟨hfetch, hstep⟩ | ⟨i, hfetch, hstep⟩
  · rw [hstep] at h ⊢
    cases h
    exact .inl ⟨rfl, rfl⟩
  · rw [hstep] at h ⊢
    cases h
    exact .inr (.inl ⟨rfl, hfetch, rfl⟩)
  · have hperforms := m.fetched.performs m.registers.pc.toInt.toNat i
    rw [← hstep] at hperforms
    obtain ⟨haddress, hm⟩ := hperforms.fault h
    exact .inr (.inr ⟨haddress, hm, i, hfetch⟩)

/-! ## Bounds -/

/-- What `n` steps can do at most to what is given to the machine from outside. -/
structure Spends (m : Machine) (n : Nat) (m' : Machine) : Prop where
  code : m'.code = m.code
  limit : m'.stepLimit = m.stepLimit
  steps : m'.steps = m.steps + n
  size : m'.memory.size = m.memory.size
  input : ∃ taken, m.input = taken ++ m'.input ∧ taken.length ≤ n
  output : ∃ written, m'.output.toList = m.output.toList ++ written ∧ written.length ≤ n

/-- What one step can do at most: it changes one register besides the program counter, and one
word. -/
structure StepsTo (m m' : Machine) : Prop extends m.Spends 1 m' where
  register : ∃ reg, ∀ other, other ≠ .pc → other ≠ reg → m'.register other = m.register other
  word : ∃ i : Nat, ∀ j, j ≠ i → m'.memory.words[j]? = m.memory.words[j]?

theorem Spends.refl (m : Machine) : m.Spends 0 m :=
  ⟨rfl, rfl, rfl, rfl, ⟨[], by simp⟩, ⟨[], by simp⟩⟩

theorem Spends.trans {m m' m'' : Machine} {n n' : Nat}
    (h : m.Spends n m') (h' : m'.Spends n' m'') :
    m.Spends (n + n') m'' := by
  obtain ⟨taken, htaken, hfew⟩ := h.input
  obtain ⟨taken', htaken', hfew'⟩ := h'.input
  obtain ⟨written, hwritten, hshort⟩ := h.output
  obtain ⟨written', hwritten', hshort'⟩ := h'.output
  constructor
  case code => rw [h'.code, h.code]
  case limit => rw [h'.limit, h.limit]
  case steps => rw [h'.steps, h.steps, Nat.add_assoc]
  case size => rw [h'.size, h.size]
  case input => exact ⟨taken ++ taken', by simp [htaken, htaken'], by simp; omega⟩
  case output => exact ⟨written ++ written', by simp [hwritten, hwritten'], by simp; omega⟩

/-- What an instruction does stays within the bounds. -/
theorem Does.stepsTo {m m' : Machine} (h : m.fetched.Does m') : m.StepsTo m' := by
  have hinput : ∃ taken, m.input = taken ++ m.input ∧ taken.length ≤ 1 := ⟨[], by simp⟩
  have houtput : ∃ written, m.output.toList = m.output.toList ++ written ∧
    written.length ≤ 1 := ⟨[], by simp⟩
  have hregister : ∀ other, other ≠ .pc → m.fetched.register other = m.register other :=
    fun other hpc => m.register_fetched hpc
  have hset : ∀ reg w other, other ≠ .pc → other ≠ reg →
      (m.fetched.setRegister reg w).register other = m.register other := by
    intro reg w other hpc hreg
    rw [register_setRegister_of_ne _ hreg, m.register_fetched hpc]
  cases h with
  | nothing =>
    exact ⟨⟨rfl, rfl, rfl, rfl, hinput, houtput⟩,
      ⟨.pc, fun other hpc _ => hregister other hpc⟩, ⟨0, fun _ _ => rfl⟩⟩
  | set reg w =>
    exact ⟨⟨rfl, rfl, rfl, rfl, hinput, houtput⟩, ⟨reg, hset reg w⟩, ⟨0, fun _ _ => rfl⟩⟩
  | store i w =>
    refine ⟨⟨rfl, rfl, rfl, size_put .., hinput, houtput⟩,
      ⟨.pc, fun other hpc _ => hregister other hpc⟩, ⟨i, ?_⟩⟩
    exact fun j hj => Memory.get?_set_of_ne m.memory hj.symm w
  | @take w rest reg hrest =>
    refine ⟨⟨rfl, rfl, rfl, rfl, ⟨[w], hrest, by simp⟩, houtput⟩, ⟨reg, ?_⟩,
      ⟨0, fun _ _ => rfl⟩⟩
    intro other hpc hreg
    rw [register_setRegister_of_ne _ hreg]
    exact hregister other hpc
  | write w =>
    exact ⟨⟨rfl, rfl, rfl, rfl, hinput, ⟨[w], Array.toList_push, by simp⟩⟩,
      ⟨.pc, fun other hpc _ => hregister other hpc⟩, ⟨0, fun _ _ => rfl⟩⟩

/-- A step that succeeds is bounded. -/
theorem stepsTo_of_succeeds {m : Machine} (h : m.step.2.Succeeds) : m.StepsTo m.step.1 := by
  rcases m.step_cases with hstep | ⟨_, hstep⟩ | ⟨i, _, hstep⟩
  · simp [hstep] at h
  · simp [hstep] at h
  · have hperforms := m.fetched.performs m.registers.pc.toInt.toNat i
    rw [← hstep] at hperforms
    exact (hperforms.does h).stepsTo

/-- A run spends at most as much as it has steps. -/
theorem Steps.spends {m m' : Machine} {n : Nat} (h : Steps m n m') : m.Spends n m' := by
  induction h with
  | refl => exact .refl _
  | @step m m' m'' n hstep _ ih =>
    have hfirst : m.StepsTo m.step.1 := stepsTo_of_succeeds (by simp [hstep])
    rw [hstep] at hfirst
    rw [Nat.add_comm]
    exact hfirst.toSpends.trans ih

/-- A step that faults has no partial effect. At the limit nothing changes; where nothing can
be fetched a step is counted; every other fault names the address of its instruction and
leaves one more step and the next address. A step that succeeds changes at most one register
besides the program counter and one word, takes at most one input value and writes at most one
output value, and so on for a run of `n` steps. Loads and stores succeed exactly where the
exact address is one of data memory, and an operation with operands of the wrong form never
does. -/
theorem step_bounded (m : Machine) :
    (∀ limit, m.step.2 = .fault (.stepLimitExceeded limit) → limit = m.stepLimit ∧
      m.step.1 = m) ∧ (∀ pc, m.step.2 = .fault (.instructionOutOfRange pc) →
      pc = m.registers.pc ∧ m.fetch? pc = none ∧ m.step.1 = { m with steps := m.steps + 1 }) ∧
    (∀ f, m.step.2 = .fault f → (∀ limit, f ≠ .stepLimitExceeded limit) →
        (∀ pc, f ≠ .instructionOutOfRange pc) →
      m.step.1 = { m with
        steps := m.steps + 1, registers := { m.registers with pc := m.registers.pc + 1 } } ∧
      ∃ (pc : Nat) (i : Instruction), f.address? = some pc ∧ pc = m.registers.pc.toInt ∧
      m.code[pc]? = some i) ∧
    (m.step.2.Succeeds → m.StepsTo m.step.1) ∧
    (∀ n m', Steps m n m' → m.Spends n m') ∧
    ∀ i, m.steps < m.stepLimit → m.fetch? m.registers.pc = some i →
      (∀ op reg offset base, i = .memory op reg offset base → op = .ld ∨ op = .st →
        (m.step.2.Succeeds ↔ 0 ≤ offset.toInt + (m.fetched.register base).toInt ∧
          offset.toInt + (m.fetched.register base).toInt < m.memory.size)) ∧
      (m.step.2 = .fault (.illegalInstruction m.registers.pc.toInt.toNat) ↔
        i.form ≠ i.op.form) := by
  refine ⟨?_, ?_, ?_, stepsTo_of_succeeds, fun n m' h => h.spends, ?_⟩
  · intro limit h
    rcases step_fault_cases h with ⟨hf, hm⟩ | ⟨hf, _⟩ | ⟨hf, _⟩
    · exact ⟨Fault.stepLimitExceeded.inj hf, hm⟩
    · cases hf
    · cases hf
  · intro pc h
    rcases step_fault_cases h with ⟨hf, _⟩ | ⟨hf, hfetch, hm⟩ | ⟨hf, _⟩
    · cases hf
    · cases hf
      exact ⟨rfl, hfetch, hm⟩
    · cases hf
  · intro f h hlimit hrange
    rcases step_fault_cases h with ⟨hf, _⟩ | ⟨hf, _⟩ | ⟨hf, hm, i, hfetch⟩
    · exact absurd hf (hlimit _)
    · exact absurd hf (hrange _)
    · obtain ⟨hpc, hcode⟩ := fetch?_eq_some_iff.mp hfetch
      exact ⟨hm, _, i, hf, Int.toNat_of_nonneg hpc, hcode⟩
  · intro i hlt hfetch
    rw [step_fetched hlt hfetch]
    -- Base registers are read after `pc` has moved on, hence in the state that has fetched.
    refine ⟨?_, m.fetched.perform_illegal _ i⟩
    rintro op reg offset base rfl hop
    rw [m.fetched.perform_access _ hop]
    split
    next haddress => simpa using haddress
    next haddress => simpa using haddress

/-- A load from the word behind the one that `ac1` points at, and an addition with the
operands of a load. -/
def loading (base : Word) : Machine where
  code := #[.memory .ld .ac 1 .ac1, .memory .add .ac 0 .ac]
  stepLimit := 2
  registers := { ac1 := base }
  memory := { words := #[5] }

/-- Behind the greatest word there is none, although the sum wraps around to the least one.
Behind the word `-1` there is the first word of memory. -/
theorem loading_step_bounded :
    (¬ (loading Int64.maxValue).step.2.Succeeds ∧
      (loading Int64.maxValue).step.1 =
        { loading Int64.maxValue with
          steps := 1, registers := { ac1 := Int64.maxValue, pc := 1 } }) ∧
    ((loading (-1)).step.2.Succeeds ∧ (loading (-1)).StepsTo (loading (-1)).step.1) ∧
    (loading (-1)).step.1.step.2 = .fault (.illegalInstruction 1) := by
  obtain ⟨_, _, hfault, _, _, haccess⟩ := step_bounded (loading Int64.maxValue)
  obtain ⟨_, _, _, hsucceeds, _, haccess'⟩ := step_bounded (loading (-1))
  obtain ⟨_, _, _, _, _, hform⟩ := step_bounded (loading (-1)).step.1
  have hbeyond : ¬ (loading Int64.maxValue).step.2.Succeeds := by
    rw [(haccess _ (by decide) rfl).1 _ _ _ _ rfl (.inl rfl)]
    decide
  have hfirst : (loading (-1)).step.2.Succeeds := by
    rw [(haccess' _ (by decide) rfl).1 _ _ _ _ rfl (.inl rfl)]
    decide
  refine ⟨⟨hbeyond, ?_⟩, ⟨hfirst, hsucceeds hfirst⟩, ?_⟩
  · exact (hfault (.dataOutOfRange Int64.maxValue 0) (by decide) (by simp) (by simp)).1
  · exact ((hform (.memory .add .ac 0 .ac) (by decide) (by decide)).2).mpr (by decide)

end Machine

end BlockLang
