import BlockLang.Proofs.Containment
import BlockLang.Proofs.StepEffects

/-!
# Runs of compiled code

A run of compiled code never meets an illegal instruction. It can leave the code only with
the step that a return makes, whatever its stores have done to memory before: every other
step leads from an instruction of the code to an instruction of the code.

`Program.compile_confined` says so of every compiled program, every input and every limit.

* One step: a step that goes on has performed an instruction of the code
  (`Machine.step_eq_running`). If the instruction writes `pc`, it is a return or a jump,
  and the jump leads to an address of the code (`Machine.pc_perform_jump`, `Code.Closed`).
  If it does not, `pc` has moved on by one, and this is an address of the code as well,
  since the last instruction is `HALT` (`Machine.succ_lt_length`). Together:
  `Machine.fetch?_of_step`.
* Faults: an instruction whose operands have the form of its operation is not illegal
  (`Machine.perform_fault`), and `Code.Legal` says this of all of them.
* Runs: `Machine.Steps.returned` looks at the last step before the machine finds no
  instruction. Nothing is assumed of memory and registers, so the induction needs only
  that steps keep the code (`Machine.Steps.code_eq`).
-/

namespace BlockLang

/-! ## Steps -/

namespace Machine

variable {m m' : Machine} {c : Code}

/-- A step that is made executes an instruction. -/
theorem step_eq_running (h : m.step = (m', .running)) :
    ∃ i, m.fetch? m.registers.pc = some i ∧
    ({ m with steps := m.steps + 1 }.setRegister .pc (m.registers.pc + 1)).perform
    m.registers.pc.toInt.toNat i =
      (m', .running) := by
  obtain hlimit | ⟨_, hrange⟩ | ⟨i, hi, hstep⟩ := m.step_cases
  · rw [h] at hlimit
    cases hlimit
  · rw [h] at hrange
    cases hrange
  · exact ⟨i, hi, hstep ▸ h⟩

/-- The faults of an instruction whose operation goes with its operands. -/
theorem perform_fault {pc : Nat} {i : Instruction} (hform : i.op.form = i.form) {f : Fault}
    (h : (m.perform pc i).2 = .fault f) :
    (∃ address, f = .dataOutOfRange address pc) ∨ f = .divisionByZero pc ∨
    f = .inputExhausted pc := by
  cases i with
  | register op dst src₁ src₂ =>
    cases op with
    | halt | out | add | sub | mul => cases h
    | inp =>
      simp only [perform, performRegister] at h
      split at h <;> cases h
      exact .inr (.inr rfl)
    | div =>
      simp only [perform, performRegister] at h
      split at h <;> cases h
      exact .inr (.inl rfl)
    | _ => cases hform
  | memory op reg offset base =>
    cases op with
    | lda | ldc | jlt | jeq => cases h
    | ld | st =>
      simp only [perform, performMemory] at h
      split at h <;> cases h
      exact .inl ⟨_, slot_eq_error ‹_›⟩
    | _ => cases hform

theorem code_step (h : m.step = (m', .running)) : m'.code = m.code := by
  obtain ⟨i, _, hperform⟩ := step_eq_running h
  have hcode :=
    (performs ({ m with steps := m.steps + 1 }.setRegister .pc (m.registers.pc + 1))
    m.registers.pc.toInt.toNat i).code_eq
  rw [hperform] at hcode
  exact hcode

/-- The other registers stay as they are. -/
theorem register_perform (m : Machine) (pc : Nat)
    (i : Instruction) {r : Register} (hr : i.written? ≠ some r) :
    (m.perform pc i).1.register r = m.register r := by
  have hset (m : Machine) {reg : Register} (h : some reg ≠ some r) (w : Word) :
      (m.setRegister reg w).register r = m.register r :=
    register_setRegister_of_ne m (fun heq => h (congrArg some heq.symm)) w
  cases i with
  | register op dst src₁ src₂ =>
    cases op with
    | inp =>
      simp only [perform, performRegister]
      split
      · rfl
      · exact hset _ hr _
    | div =>
      simp only [perform, performRegister]
      split
      · rfl
      · exact hset m hr _
    | add | sub | mul => exact hset m hr _
    | _ => rfl
  | memory op reg offset base =>
    cases op with
    | ld =>
      simp only [perform, performMemory]
      split
      · rfl
      · exact hset m hr _
    | st =>
      simp only [perform, performMemory]
      split <;> rfl
    | lda | ldc => exact hset m hr _
    | jlt | jeq =>
      simp only [perform, performMemory]
      split
      · exact hset m hr _
      · rfl
    | _ => rfl

/-- A jump is made or not. -/
theorem pc_perform_jump (m : Machine) (pc : Nat) {op : Opcode}
    {reg : Register} (hop : op.Jumps reg) (offset : Word) :
    (m.perform pc (.memory op reg offset .pc)).1.registers.pc = m.registers.pc ∨
      (m.perform pc (.memory op reg offset .pc)).1.registers.pc =
      offset + m.registers.pc := by
  rcases hop with rfl | rfl | ⟨rfl, rfl⟩
  · simp only [perform, performMemory]
    split
    · exact .inr rfl
    · exact .inl rfl
  · simp only [perform, performMemory]
    split
    · exact .inr rfl
    · exact .inl rfl
  · exact .inr rfl

/-- A run of one more step has a last step. -/
theorem Steps.last {n : Nat} (h : Steps m (n + 1) m') :
    ∃ m₀, Steps m n m₀ ∧ m₀.step = (m', .running) := by
  generalize hk : n + 1 = k at h
  induction h generalizing n with
  | refl => cases hk
  | @step m m₁ m' k hstep hrest ih =>
    cases hk
    cases hrest with
    | refl => exact ⟨m, .refl, hstep⟩
    | step hstep' hrest' =>
      obtain ⟨m₀, hm₀, hlast⟩ := ih rfl
      exact ⟨m₀, .step hstep hm₀, hlast⟩

theorem Steps.code_eq {n : Nat} (h : Steps m n m') : m'.code = m.code := by
  induction h with
  | refl => rfl
  | step hstep _ ih => exact ih.trans (code_step hstep)

/-- A sum that is a word is exact. -/
theorem toInt_add {w w' : Word} (h : Word.Fits (w.toInt + w'.toInt)) :
    (w + w').toInt = w.toInt + w'.toInt := by
  rw [← toInt_ofInt h, Int64.ofInt_add, Int64.ofInt_toInt, Int64.ofInt_toInt]

/-- There is an instruction at every address of the code. -/
theorem exists_fetch? (hm : m.code = c.toArray) {w : Word}
    (h : 0 ≤ w.toInt) (h' : w.toInt < c.length) :
    ∃ i, m.fetch? w = some i := by
  have hlt : w.toInt.toNat < c.length := by omega
  have hi := List.getElem?_eq_getElem hlt
  rw [← List.getElem?_toArray, ← hm] at hi
  exact ⟨_, fetch?_eq_some_iff.mpr ⟨h, hi⟩⟩

/-- The last instruction halts, so there is one behind an instruction after which the machine
goes on. -/
theorem succ_lt_length (hlegal : Code.Legal c) {k pc : Nat}
    {i : Instruction} (hi : c.toArray[k]? = some i)
    (h : m.perform pc i = (m', .running)) : k + 1 < c.length := by
  rw [List.getElem?_toArray] at hi
  have hlt : k < c.length := (List.getElem?_eq_some_iff.mp hi).1
  rcases Nat.eq_or_lt_of_le (Nat.succ_le_of_lt hlt) with hlast | hnext
  · have hhalt := hlegal.last
    rw [List.getLast?_eq_getElem?, ← hlast, Nat.succ_sub_one, hi] at hhalt
    cases hhalt
    have hhalted : Outcome.halted = .running := congrArg Prod.snd h
    cases hhalted
  · exact hnext

/-- After a step that was no return the machine finds a next instruction. -/
theorem fetch?_of_step (hlegal : Code.Legal c) (hclosed : Code.Closed c)
    (hlength : c.length < 2 ^ 63) (hm : m.code = c.toArray) (h : m.step = (m', .running))
    (hreturns : m.fetch? m.registers.pc ≠ some .returns) :
    ∃ i, m'.fetch? m'.registers.pc = some i := by
  obtain ⟨i, hfetch, hperform⟩ := step_eq_running h
  let m₁ := { m with steps := m.steps + 1 }.setRegister .pc (m.registers.pc + 1)
  let k := m.registers.pc.toInt.toNat
  have hperform : m₁.perform k i = (m', .running) := hperform
  obtain ⟨hnonneg, hi⟩ := fetch?_eq_some_iff.mp hfetch
  rw [hm] at hi
  have hnext : k + 1 < c.length := succ_lt_length hlegal hi hperform
  rw [List.getElem?_toArray] at hi
  have hpc : m₁.registers.pc.toInt = k + 1 := by
    have hk : m.registers.pc.toInt + (1 : Word).toInt = k + 1 :=
      congrArg (· + 1) (Int.toNat_of_nonneg hnonneg).symm
    refine (toInt_add ?_).trans hk
    rw [hk]
    unfold Word.Fits Word.least Word.greatest
    omega
  -- The machine goes on at an address of the code, which may be that of a jump or the next
  -- one.
  have hinside {w : Word} (heq : m'.registers.pc = w)
      (hlow : 0 ≤ w.toInt) (hhigh : w.toInt < c.length) :
      ∃ i, m'.fetch? m'.registers.pc = some i := by
    rw [heq]
    exact exists_fetch? ((code_step h).trans hm) hlow hhigh
  have hbehind (heq : m'.registers.pc = m₁.registers.pc) :
      ∃ i, m'.fetch? m'.registers.pc = some i :=
    hinside heq (by omega) (by omega)
  by_cases hwritten : i.written? = some .pc
  · obtain ⟨op, reg, offset, hop, rfl⟩ | rfl := hlegal.pc i (List.mem_of_getElem? hi) hwritten
    · obtain ⟨_, hlow, hhigh⟩ := hclosed.jump k op reg offset .pc hi hop
      have htarget : (offset + m₁.registers.pc).toInt = k + 1 + offset.toInt := by
        rw [toInt_add, hpc, Int.add_comm]
        rw [hpc]
        unfold Word.Fits Word.least Word.greatest
        omega
      have hmoved := pc_perform_jump m₁ k hop offset
      rw [hperform] at hmoved
      rcases hmoved with heq | heq
      · exact hbehind heq
      · exact hinside heq (by omega) (by omega)
    · exact absurd hfetch hreturns
  · have hkept := register_perform m₁ k i hwritten
    rw [hperform] at hkept
    exact hbehind hkept

/-! ## Runs -/

/-- The run of `n` steps to `m'` ends with a return. -/
def Returned (m : Machine) (n : Nat) (m' : Machine) : Prop :=
  ∃ n₀ m₀, n = n₀ + 1 ∧ Steps m n₀ m₀ ∧ m₀.fetch? m₀.registers.pc = some .returns ∧
    m₀.step = (m', .running)

/-- What a step of legal code does not fault with. -/
theorem step_fault (hlegal : Code.Legal c) (hm : m.code = c.toArray)
    {f : Fault} (h : m.step.2 = .fault f) :
    (∀ pc, f ≠ .illegalInstruction pc) ∧ ∀ w, f = .instructionOutOfRange w →
    m.fetch? m.registers.pc = none := by
  obtain hlimit | ⟨hnone, hrange⟩ | ⟨i, hi, hstep⟩ := m.step_cases
  · rw [hlimit] at h
    cases h
    exact ⟨nofun, nofun⟩
  · rw [hrange] at h
    cases h
    exact ⟨nofun, fun _ _ => hnone⟩
  · obtain ⟨_, hi⟩ := fetch?_eq_some_iff.mp hi
    rw [hm, List.getElem?_toArray] at hi
    rw [hstep] at h
    obtain ⟨_, rfl⟩ | rfl | rfl := perform_fault (hlegal.form i (List.mem_of_getElem? hi)) h
    · exact ⟨nofun, nofun⟩
    · exact ⟨nofun, nofun⟩
    · exact ⟨nofun, nofun⟩

/-- A run that starts inside the code is outside only after a return. -/
theorem Steps.returned (hlegal : Code.Legal c) (hclosed : Code.Closed c)
    (hlength : c.length < 2 ^ 63) (hm : m.code = c.toArray)
    (hstart : ∃ i, m.fetch? m.registers.pc = some i) {n : Nat} (h : Steps m n m')
    (hout : m'.fetch? m'.registers.pc = none) : m.Returned n m' := by
  rcases n with _ | n
  · cases h
    obtain ⟨i, hi⟩ := hstart
    rw [hi] at hout
    cases hout
  · obtain ⟨m₀, hsteps, hlast⟩ := h.last
    refine ⟨n, m₀, rfl, hsteps, ?_, hlast⟩
    by_contra hreturns
    obtain ⟨i, hi⟩ :=
      fetch?_of_step hlegal hclosed hlength (hsteps.code_eq.trans hm) hlast hreturns
    rw [hi] at hout
    cases hout

/-- The fault of a run is that of its last step, unless time is over. -/
theorem runFor_error {n : Nat} {f : Fault} (h : (runFor n m).2 = .error f) :
    (∃ limit, f = .stepLimitExceeded limit) ∨ ∃ k m', Steps m k m' ∧
    m'.step.2 = .fault f := by
  induction n generalizing m with
  | zero =>
    cases h
    exact .inl ⟨_, rfl⟩
  | succ n ih =>
    rw [runFor] at h
    split at h
    next m₁ hstep =>
      obtain hlimit | ⟨k, m', hsteps, hfault⟩ := ih h
      · exact .inl hlimit
      · exact .inr ⟨k + 1, m', .step hstep hsteps, hfault⟩
    next => cases h
    next hstep =>
      cases h
      exact .inr ⟨0, m, .refl, by rw [hstep]⟩

/-- No run finds an illegal instruction. -/
def NeverIllegal (m : Machine) : Prop :=
  (∀ pc, m.execute.2 ≠ .error (.illegalInstruction pc)) ∧
    ∀ n m', Steps m n m' → ∀ pc, m'.step.2 ≠ .fault (.illegalInstruction pc)

/-- A run is out of the code only after a return. -/
def LeavesByReturn (m : Machine) : Prop :=
  (∀ w, m.execute.2 = .error (.instructionOutOfRange w) →
      ∃ n m', m.Returned n m' ∧ m'.step.2 = .fault (.instructionOutOfRange w)) ∧
    ∀ n m', Steps m n m' → ∀ w, m'.step.2 = .fault (.instructionOutOfRange w) →
    m.Returned n m'

/-- Legal code never has the machine find an illegal instruction. -/
theorem neverIllegal (hlegal : Code.Legal c) (hm : m.code = c.toArray) : m.NeverIllegal := by
  have hsteps : ∀ n m', Steps m n m' → ∀ pc, m'.step.2 ≠ .fault (.illegalInstruction pc) := by
    intro n m' h pc hfault
    exact (step_fault hlegal (h.code_eq.trans hm) hfault).1 pc rfl
  refine ⟨fun pc h => ?_, hsteps⟩
  obtain ⟨limit, hlimit⟩ | ⟨n, m', hrun, hfault⟩ := runFor_error h
  · cases hlimit
  · exact hsteps n m' hrun pc hfault

/-- Closed code is left by a return only. -/
theorem leavesByReturn (hlegal : Code.Legal c)
    (hclosed : Code.Closed c) (hlength : c.length < 2 ^ 63)
    (hm : m.code = c.toArray) (hstart : ∃ i, m.fetch? m.registers.pc = some i) :
    m.LeavesByReturn := by
  have hsteps : ∀ n m', Steps m n m' → ∀ w, m'.step.2 = .fault (.instructionOutOfRange w) →
      m.Returned n m' := by
    intro n m' h w hfault
    have hout := (step_fault hlegal (h.code_eq.trans hm) hfault).2 w rfl
    exact h.returned hlegal hclosed hlength hm hstart hout
  refine ⟨fun w h => ?_, hsteps⟩
  obtain ⟨limit, hlimit⟩ | ⟨n, m', hrun, hfault⟩ := runFor_error h
  · cases hlimit
  · exact ⟨n, m', hsteps n m' hrun w hfault, hfault⟩

/-- A machine that is loaded finds its first instruction. -/
theorem exists_fetch?_load {code : ObjectCode}
    (h : Code.Legal code.instructions) (limits : Limits) (input : List Word) :
    ∃ i, (load code limits input).fetch? (load code limits input).registers.pc = some i := by
  have hpos : 0 < code.instructions.length :=
    List.length_pos_of_mem (List.mem_of_getLast? h.last)
  exact exists_fetch? (c := code.instructions) rfl (Int.le_refl 0) (Int.natCast_pos.mpr hpos)

end Machine

/-- The instructions of compiled code are those that the parts make. -/
theorem Program.code_of_compile {p : Program} {o : Options}
    {code : ObjectCode} (h : p.compile o = .ok code) :
    ∃ a, p.analyze = .ok a ∧ p.code a = .ok code.instructions := by
  unfold Program.compile at h
  split at h
  · cases h
  next a ha =>
    refine ⟨a, ha, ?_⟩
    rw [← Program.instructions_generate p a o]
    cases hgenerate : p.generate a o with
    | error e =>
      rw [hgenerate] at h
      cases h
    | ok code' =>
      rw [hgenerate] at h
      cases h
      rfl

/-- Compiled code is legal, and its addresses are its own. Whatever a run of it stores and
where, the machine finds no illegal instruction, and it finds no instruction at all only in
the step right after a return. What this says about addresses is about code that words can
address. -/
theorem Program.compile_confined {p : Program} {o : Options}
    {code : ObjectCode} (h : p.compile o = .ok code) :
    Code.Legal code.instructions ∧
      (∀ (limits : Limits) (input : List Word),
        (Machine.load code limits input).NeverIllegal) ∧
      (code.instructions.length < 2 ^ 63 → Code.Closed code.instructions ∧
        ∀ (limits : Limits) (input : List Word),
        (Machine.load code limits input).LeavesByReturn) := by
  obtain ⟨a, ha, hcode⟩ := Program.code_of_compile h
  have hconsistent := Program.consistent_of_analyze ha
  have hlegal := Program.legal_code hconsistent hcode
  refine ⟨hlegal, fun limits input => Machine.neverIllegal hlegal rfl, fun hlength => ?_⟩
  have hclosed := Program.closed_code hconsistent hcode hlength
  refine ⟨hclosed, fun limits input => ?_⟩
  exact Machine.leavesByReturn hlegal hclosed hlength rfl
    (Machine.exists_fetch?_load hlegal limits input)

theorem Program.doubling_compile_confined :
    ∃ code, Program.doubling.compile {} = .ok code ∧ Code.Legal code.instructions ∧
    Code.Closed code.instructions ∧
      ∀ (limits : Limits) (input : List Word),
        (Machine.load code limits input).NeverIllegal ∧
        (Machine.load code limits input).LeavesByReturn := by
  obtain ⟨a, ha⟩ := Program.doubling_accepted
  obtain ⟨code, _, _, hcompile, _⟩ :=
    Program.compile_of_analyze ha Program.doubling_distinctNodes {}
  obtain ⟨hlegal, hnever, hsmall⟩ := Program.compile_confined hcompile
  obtain ⟨hclosed, hleaves⟩ := hsmall (Program.doubling_code_length hcompile)
  exact ⟨code, hcompile, hlegal, hclosed, fun limits input =>
    ⟨hnever limits input, hleaves limits input⟩⟩

end BlockLang
