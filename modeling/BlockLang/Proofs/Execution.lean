import BlockLang.Machine.State
import BlockLang.Proofs.Assembly
import Mathlib.Tactic.Ring

/-!
# Running pieces of code

The machine counts its steps and stops when they reach a limit. `Machine.pace` is a step
without the clock, and `Machine.Reaches` chains such steps: from what a machine reaches,
the result of its run follows for every limit.

`Machine.Passes` is for code that is entered at its start and left behind its end. It says
nothing of the address, so pieces can be put together without looking at addresses.

* The clock: `Machine.step_timed` says that below the limit a step is a pace and a tick.
  `Machine.run_of_ends` gives the result of a run that reaches an end in time, and
  `Machine.run_of_reaches_of_lt` that of one that is cut off. Instructions do not look at
  the clock, and `Machine.performRegister_comm` and `Machine.performMemory_comm` say so in
  general, for any change of a machine that keeps what instructions look at.
* Code in place: `Code.At code base c` says that `c` stands at `base`. It splits as lists
  do (`Code.at_append`). Where addresses are words (`Code.Addressable`), a machine that is
  sent to the start of `c` fetches its first instruction (`Machine.pace_goto`).
* Pieces: `Machine.Passes.append` chains them, `Machine.Passes.faults` ends a chain with a
  fault.
* Single instructions: `Machine.passes_lda`, `Machine.passes_ld`, `Machine.passes_st`,
  `Machine.passes_arithmetic`, `Machine.passes_inp`, each with the machine that comes out.
* Data addresses: `Machine.slot_eq` is the closed form of the chain of checks that a load
  or a store goes through. The sum of offset and base is made with a checked addition, a
  sum that is no word is reported by the nearest word, and a word that is no index of the
  memory is reported as it is. In all, an address is good if the exact sum lies in the
  memory.
* Jumps: `Machine.pace_skip` for jumps ahead, `Machine.JumpsIf` for conditional ones, and
  `Machine.passes_compare` for the sequence that turns a comparison into a word.
* `Machine.Same`: what a piece of code leaves alone.
-/

namespace BlockLang

namespace Machine

/-! ## Steps without the clock -/

/-- Executes one instruction, whatever the limit. -/
def pace (m : Machine) : Machine × Outcome :=
  match m.fetch? m.registers.pc with
  | none => (m, .fault (.instructionOutOfRange m.registers.pc))
  | some i => (m.setRegister .pc (m.registers.pc + 1)).perform m.registers.pc.toInt.toNat i

section

variable {f : Machine → Machine} (hregisters : ∀ m, (f m).registers = m.registers)
  (hset : ∀ m reg w, (f m).setRegister reg w = f (m.setRegister reg w))

include hregisters hset

/-- Register instructions other than `IN` have to do with registers and output only. -/
theorem performRegister_comm (houtput : ∀ m, (f m).output = m.output)
    (hwrite : ∀ m output, { f m with output } = f { m with output }) (m : Machine) (pc : Nat)
    {op : Opcode} (hop : op ≠ .inp) (dst src₁ src₂ : Register) :
    (f m).performRegister pc op dst src₁ src₂ =
      (f (m.performRegister pc op dst src₁ src₂).1,
        (m.performRegister pc op dst src₁ src₂).2) := by
  have hregister (r : Register) : (f m).register r = m.register r :=
    congrArg (·.get r) (hregisters m)
  cases op with
  | inp => contradiction
  | div =>
    simp only [performRegister, hregister, hset]
    split <;> rfl
  | out => simp only [performRegister, hregister, houtput, hwrite]
  | add | sub | mul => simp only [performRegister, hregister, hset]
  | _ => rfl

/-- Memory instructions have to do with registers and memory only. -/
theorem performMemory_comm (hmemory : ∀ m, (f m).memory = m.memory)
    (hstore : ∀ (m : Machine) (memory : Memory), { f m with memory } = f { m with memory })
    (m : Machine) (pc : Nat) (op : Opcode)
    (reg : Register) (offset : Word) (base : Register) :
    (f m).performMemory pc op reg offset base =
      (f (m.performMemory pc op reg offset base).1,
        (m.performMemory pc op reg offset base).2) := by
  have hregister (r : Register) : (f m).register r = m.register r :=
    congrArg (·.get r) (hregisters m)
  have hslot :
      (f m).slot offset (m.register base) pc = m.slot offset (m.register base) pc := by
    simp only [slot, dataSlot, hmemory]
  cases op with
  | ld | st =>
    simp only [performMemory, hregister, hslot, hmemory, hset, hstore]
    split <;> rfl
  | jlt | jeq =>
    simp only [performMemory, hregister, hset]
    split <;> rfl
  | lda | ldc => simp only [performMemory, hregister, hset]
  | _ => rfl

end

/-- The machine with another clock. -/
def timed (m : Machine) (limit steps : Nat) : Machine := { m with stepLimit := limit, steps }

/-- Register instructions do not look at the clock. -/
theorem performRegister_timed (m : Machine) (limit steps pc : Nat)
    (op : Opcode) (dst src₁ src₂ : Register) :
    (m.timed limit steps).performRegister pc op dst src₁ src₂ =
      ((m.performRegister pc op dst src₁ src₂).1.timed limit steps,
        (m.performRegister pc op dst src₁ src₂).2) := by
  by_cases hop : op = .inp
  · subst hop
    cases hinput : m.input with
    | nil => simp only [performRegister, timed, hinput]
    | cons => simp only [performRegister, timed, hinput]; rfl
  · exact performRegister_comm (f := (·.timed limit steps)) (fun _ => rfl) (fun _ _ _ => rfl)
      (fun _ => rfl) (fun _ _ => rfl) m pc hop dst src₁ src₂

/-- Memory instructions do not look at the clock. -/
theorem performMemory_timed (m : Machine) (limit steps pc : Nat) (op : Opcode)
    (reg : Register) (offset : Word) (base : Register) :
    (m.timed limit steps).performMemory pc op reg offset base =
      ((m.performMemory pc op reg offset base).1.timed limit steps,
        (m.performMemory pc op reg offset base).2) :=
  performMemory_comm (f := (·.timed limit steps)) (fun _ => rfl) (fun _ _ _ => rfl)
    (fun _ => rfl) (fun _ _ => rfl) m pc op reg offset base

/-- A pace performs the instruction that `pc` is at, with `pc` moved on. -/
theorem pace_of_fetch? {m : Machine} {i : Instruction}
    (h : m.fetch? m.registers.pc = some i) : m.pace =
    (m.setRegister .pc (m.registers.pc + 1)).perform m.registers.pc.toInt.toNat i := by
  simp only [pace, h]

/-- A pace does not look at the clock. -/
theorem pace_timed (m : Machine) (limit steps : Nat) :
    (m.timed limit steps).pace = (m.pace.1.timed limit steps, m.pace.2) := by
  cases h : m.fetch? m.registers.pc with
  | none =>
    have h' : (m.timed limit steps).fetch? (m.timed limit steps).registers.pc = none := h
    simp only [pace, h, h']
    rfl
  | some i =>
    rw [pace_of_fetch? (m := m.timed limit steps) h, pace_of_fetch? h]
    cases i with
    | register op dst src₁ src₂ =>
      exact performRegister_timed
        (m.setRegister .pc (m.registers.pc + 1)) limit steps _ op dst src₁ src₂
    | memory op reg offset base =>
      exact performMemory_timed
        (m.setRegister .pc (m.registers.pc + 1)) limit steps _ op reg offset base

/-- Below the limit a step is a pace, and the clock ticks. -/
theorem step_timed (m : Machine) {limit steps : Nat} (h : steps < limit) :
    (m.timed limit steps).step = (m.pace.1.timed limit (steps + 1), m.pace.2) := by
  rw [← pace_timed]
  unfold step
  rw [if_neg (by exact Nat.not_le.mpr h)]
  rfl

/-- `m'` comes out of `m` in `n` steps. -/
inductive Reaches : Machine → Nat → Machine → Prop where
  | refl {m} : Reaches m 0 m
  | step {m m' m'' n} : m.pace = (m', .running) → Reaches m' n m'' → Reaches m (n + 1) m''

theorem Reaches.trans {m m' m'' : Machine} {n n' : Nat}
    (h : Reaches m n m') (h' : Reaches m' n' m'') :
    Reaches m (n + n') m'' := by
  induction h with
  | refl => rwa [Nat.zero_add]
  | step hpace _ ih =>
    rw [Nat.add_right_comm]
    exact .step hpace (ih h')

theorem Reaches.single {m m' : Machine} (h : m.pace = (m', .running)) : Reaches m 1 m' :=
  .step h .refl

/-- `m'` comes out of `m` in `n` steps on the clock. -/
inductive Steps : Machine → Nat → Machine → Prop where
  | refl {m} : Steps m 0 m
  | step {m m' m'' n} : m.step = (m', .running) → Steps m' n m'' → Steps m (n + 1) m''

/-- Where the limit leaves the steps, the clock does not matter. -/
theorem Reaches.steps {m m' : Machine} {n : Nat} (h : Reaches m n m')
    {limit steps : Nat} (hle : steps + n ≤ limit) :
    Steps (m.timed limit steps) n (m'.timed limit (steps + n)) := by
  induction h generalizing steps with
  | refl => exact .refl
  | @step m m' m'' n hpace _ ih =>
    have hstep : (m.timed limit steps).step = _ := m.step_timed (by omega)
    rw [hpace] at hstep
    have hrest : Steps (m'.timed limit (steps + 1)) n (m''.timed limit (steps + 1 + n)) :=
      ih (by omega)
    rw [Nat.add_right_comm, Nat.add_assoc] at hrest
    exact .step hstep hrest

/-! ## Results of runs -/

/-- A run goes on from what is reached within the limit. -/
theorem runFor_of_reaches {m m' : Machine} {n : Nat} (h : Reaches m n m') {limit steps : Nat}
    (hle : steps + n ≤ limit) : runFor (limit - steps) (m.timed limit steps) =
    runFor (limit - (steps + n)) (m'.timed limit (steps + n)) := by
  induction h generalizing steps with
  | refl => rfl
  | @step m m' m'' n hpace _ ih =>
    obtain ⟨k, hk⟩ : ∃ k, limit - steps = k + 1 := ⟨limit - steps - 1, by omega⟩
    have hstep : (m.timed limit steps).step = _ := m.step_timed (by omega)
    rw [hpace] at hstep
    have hk' : k = limit - (steps + 1) := by omega
    rw [hk, runFor, hstep]
    dsimp only
    rw [hk', ih (by omega), Nat.add_right_comm steps 1 n, Nat.add_assoc]

/-- A run is cut off where more paces are to come than the limit has left. -/
theorem runFor_of_reaches_of_lt {m m' : Machine} {n : Nat} (h : Reaches m n m')
    {limit steps : Nat} (hle : steps ≤ limit) (hlt : limit < steps + n) :
    (runFor (limit - steps) (m.timed limit steps)).2 = .error (.stepLimitExceeded limit) := by
  induction h generalizing steps with
  | refl => omega
  | @step m m' m'' n hpace _ ih =>
    rcases Nat.eq_or_lt_of_le hle with rfl | hlt'
    · rw [Nat.sub_self]
      rfl
    · obtain ⟨k, hk⟩ : ∃ k, limit - steps = k + 1 := ⟨limit - steps - 1, by omega⟩
      have hstep : (m.timed limit steps).step = _ := m.step_timed hlt'
      rw [hpace] at hstep
      have hk' : k = limit - (steps + 1) := by omega
      rw [hk, runFor, hstep]
      dsimp only
      rw [hk']
      exact ih (by omega) (by omega)

theorem run_eq (m : Machine) (limit : Nat) :
    (m.timed limit 0).run =
      match runFor (limit - 0) (m.timed limit 0) with
      | (m, .ok ()) => .ok m.output.toList
      | (_, .error f) => .error f := rfl

/-- A run with more paces than the limit exceeds it. -/
theorem run_of_reaches_of_lt {m m' : Machine} {n : Nat}
    (h : Reaches m n m') {limit : Nat} (hlt : limit < n) :
    (m.timed limit 0).run = .error (.stepLimitExceeded limit) := by
  have hresult := runFor_of_reaches_of_lt h (Nat.zero_le limit) (by omega)
  rw [run_eq]
  generalize runFor (limit - 0) (m.timed limit 0) = r at hresult
  obtain ⟨m'', result⟩ := r
  cases hresult
  rfl

/-- The next step is the last one, with the result `r`. -/
def Ends (m : Machine) (r : Except Fault (List Word)) : Prop :=
  match m.pace with
  | (_, .running) => False
  | (m', .halted) => r = .ok m'.output.toList
  | (_, .fault f) => r = .error f

/-- A machine that comes to an end has its result, provided that the limit leaves it the
steps. -/
theorem run_of_ends {m m' : Machine} {n : Nat} {r : Except Fault (List Word)}
    (h : Reaches m n m') (hends : m'.Ends r) (limit : Nat) :
    (m.timed limit 0).run = if n < limit then r else .error (.stepLimitExceeded limit) := by
  by_cases hlt : n < limit
  · obtain ⟨k, hk⟩ : ∃ k, limit - (0 + n) = k + 1 := ⟨limit - n - 1, by omega⟩
    have hstep : (m'.timed limit (0 + n)).step = _ := m'.step_timed (by omega)
    rw [if_pos hlt, run_eq, runFor_of_reaches h (by omega), hk, runFor, hstep]
    unfold Ends at hends
    generalize m'.pace = o at hends
    obtain ⟨m'', _ | _ | f⟩ := o
    · exact hends.elim
    · exact hends.symm
    · exact hends.symm
  · rw [if_neg hlt]
    rcases Nat.eq_or_lt_of_le (Nat.not_lt.mp hlt) with rfl | hlt'
    · rw [run_eq, runFor_of_reaches h (by omega), Nat.zero_add, Nat.sub_self]
      rfl
    · exact run_of_reaches_of_lt h hlt'

/-! ## Registers and memory -/

end Machine

namespace Memory

@[simp] theorem size_set (d : Memory) (i : Nat) (w : Word) : (d.set i w).size = d.size :=
  Array.size_setIfInBounds

/-- The word that was written is read. -/
theorem get_set_self {d : Memory} {i : Nat} (h : i < d.size) (w : Word) :
    (d.set i w).get i = w := by
  have hlt : i < d.words.size := h
  simp [get, set, Array.getD_eq_getD_getElem?, hlt]

theorem get?_set_of_ne (d : Memory) {i j : Nat} (h : i ≠ j) (w : Word) :
    (d.set i w).get? j = d.get? j :=
  Array.getElem?_setIfInBounds_ne h

theorem get_eq (d : Memory) (i : Nat) : d.get i = (d.get? i).getD 0 :=
  Array.getD_eq_getD_getElem? ..

end Memory

namespace Machine

/-- The word at an address. -/
def word (m : Machine) (i : Nat) : Word := m.memory.get i

/-- Writes a word to an address. -/
def put (m : Machine) (i : Nat) (w : Word) : Machine := { m with memory := m.memory.set i w }

/-- The machine with its program counter at an address. -/
def goto (m : Machine) (pc : Nat) : Machine := m.setRegister .pc (Int64.ofNat pc)

/-- A register has what it was set to. -/
@[simp] theorem register_setRegister_self (m : Machine) (r : Register) (w : Word) :
    (m.setRegister r w).register r = w := Registers.get_set_self ..

theorem register_setRegister_of_ne (m : Machine) {r r' : Register} (h : r' ≠ r) (w : Word) :
    (m.setRegister r w).register r' = m.register r' := Registers.get_set_of_ne _ h w

@[simp] theorem code_setRegister (m : Machine) (r : Register) (w : Word) :
    (m.setRegister r w).code = m.code := rfl

@[simp] theorem memory_setRegister (m : Machine) (r : Register) (w : Word) :
    (m.setRegister r w).memory = m.memory := rfl

@[simp] theorem word_setRegister (m : Machine) (r : Register) (w : Word) (i : Nat) :
    (m.setRegister r w).word i = m.word i := rfl

@[simp] theorem input_setRegister (m : Machine) (r : Register) (w : Word) :
    (m.setRegister r w).input = m.input := rfl

@[simp] theorem output_setRegister (m : Machine) (r : Register) (w : Word) :
    (m.setRegister r w).output = m.output := rfl

@[simp] theorem register_put (m : Machine) (i : Nat) (w : Word) (r : Register) :
    (m.put i w).register r = m.register r := rfl

@[simp] theorem code_put (m : Machine) (i : Nat) (w : Word) : (m.put i w).code = m.code := rfl

@[simp] theorem input_put (m : Machine) (i : Nat) (w : Word) :
    (m.put i w).input = m.input := rfl

@[simp] theorem output_put (m : Machine) (i : Nat) (w : Word) :
    (m.put i w).output = m.output := rfl

@[simp] theorem size_put (m : Machine) (i : Nat) (w : Word) :
    (m.put i w).memory.size = m.memory.size :=
  m.memory.size_set i w

theorem word_put_self {m : Machine} {i : Nat} (h : i < m.memory.size) (w : Word) :
    (m.put i w).word i = w :=
  Memory.get_set_self h w

theorem word_put_of_ne (m : Machine) {i j : Nat} (h : i ≠ j) (w : Word) :
    (m.put i w).word j = m.word j := by
  unfold word put
  rw [Memory.get_eq, Memory.get?_set_of_ne _ h, ← Memory.get_eq]

/-- Going somewhere and setting another register can be exchanged. -/
theorem setRegister_goto (m : Machine) {r : Register} (h : r ≠ .pc) (w : Word) (pc : Nat) :
    (m.goto pc).setRegister r w = (m.setRegister r w).goto pc := by
  cases r <;> first | rfl | contradiction

theorem register_goto (m : Machine) {r : Register} (h : r ≠ .pc) (pc : Nat) :
    (m.goto pc).register r = m.register r := register_setRegister_of_ne _ h _

theorem pc_goto (m : Machine) (pc : Nat) : (m.goto pc).registers.pc = Int64.ofNat pc := rfl

/-- A machine that is there already. -/
theorem goto_eq_self {m : Machine} {pc : Nat} (h : m.register .pc = Int64.ofNat pc) :
    m.goto pc = m := by
  unfold goto
  rw [← h]
  rfl

end Machine

/-! ## Code in place -/

/-- The code `c` stands in `code` from an address on. -/
def Code.At (code : Array Instruction) : Nat → Code → Prop
  | _, [] => True
  | base, i :: c => code[base]? = some i ∧ Code.At code (base + 1) c

/-- Code stands in place if its parts do, the second behind the first. -/
theorem Code.at_append {code : Array Instruction} {base : Nat} {c c' : Code} :
    Code.At code base (c ++ c') ↔ Code.At code base c ∧
    Code.At code (base + c.length) c' := by
  induction c generalizing base with
  | nil => simp [Code.At]
  | cons i c ih =>
    have hlength : base + (c.length + 1) = base + 1 + c.length := by omega
    simp only [List.cons_append, Code.At, ih, List.length_cons, hlength, and_assoc]

/-- A program stands in its own memory. -/
theorem Code.at_self (c : Code) : Code.At c.toArray 0 c := by
  have hat : ∀ before : Code, Code.At (before ++ c).toArray before.length c := by
    induction c with
    | nil => exact fun _ => trivial
    | cons i c ih =>
      intro before
      refine ⟨by simp, ?_⟩
      have h := ih (before ++ [i])
      rwa [List.append_assoc, List.length_append] at h
  exact hat []

/-- Where an instruction stands is an address of the program. -/
theorem Code.At.lt {code : Array Instruction} {base : Nat} {i : Instruction} {c : Code}
    (h : Code.At code base (i :: c)) : base < code.size :=
  (Array.getElem?_eq_some_iff.mp h.1).1

/-- Instructions have addresses that are words. -/
def Code.Addressable (code : Array Instruction) : Prop := (code.size : Int) ≤ Word.greatest

namespace Machine

theorem toInt_ofInt {n : Int} (h : Word.Fits n) : (Int64.ofInt n).toInt = n :=
  Int64.toInt_ofInt_of_le h.1 (Int.lt_add_one_iff.mpr h.2)

theorem toInt_ofNat {n : Nat} (h : (n : Int) ≤ Word.greatest) : (Int64.ofNat n).toInt = n :=
  Int64.toInt_ofNat_of_lt (by unfold Word.greatest at h; omega)

/-- At the start of code its first instruction is fetched. -/
theorem fetch?_goto {m : Machine} {base : Nat} {i : Instruction} {c : Code}
    (hm : Code.Addressable m.code) (h : Code.At m.code base (i :: c)) :
    (m.goto base).fetch? (m.goto base).registers.pc = some i := by
  have hbase : (Int64.ofNat base).toInt = base :=
    toInt_ofNat (by have := h.lt; unfold Code.Addressable at hm; omega)
  have hnonneg : (0 : Word) ≤ Int64.ofNat base :=
    Int64.le_iff_toInt_le.mpr (by rw [hbase]; exact Int.natCast_nonneg _)
  unfold fetch?
  rw [pc_goto, if_pos hnonneg, hbase]
  exact h.1

/-- The next step executes the instruction at the program counter. -/
theorem pace_goto {m : Machine} {base : Nat} {i : Instruction} {c : Code}
    (hm : Code.Addressable m.code) (h : Code.At m.code base (i :: c)) :
    (m.goto base).pace = (m.goto (base + 1)).perform base i := by
  have hbase : (Int64.ofNat base).toInt = base :=
    toInt_ofNat (by have := h.lt; unfold Code.Addressable at hm; omega)
  rw [pace_of_fetch? (fetch?_goto hm h), pc_goto, hbase, Int.toNat_natCast]
  congr 1
  unfold goto
  rw [Int64.ofNat_add]
  rfl

/-- From the start of `c` the machine comes to its end, and then it is `m'`, whatever the
address. -/
def Passes (m : Machine) (c : Code) (m' : Machine) : Prop :=
  m'.code = m.code ∧ ∀ base, Code.Addressable m.code → Code.At m.code base c →
    ∃ n, Reaches (m.goto base) n (m'.goto (base + c.length))

/-- Somewhere in `c` the machine faults. -/
def Faults (m : Machine) (c : Code) (f : Nat → Fault) : Prop :=
  ∀ base, Code.Addressable m.code → Code.At m.code base c →
    ∃ n m' pc, Reaches (m.goto base) n m' ∧ m'.Ends (.error (f pc))

/-- Wherever the instruction stands the machine faults there, and keeps everything but
`pc`. -/
def Fails (m : Machine) (i : Instruction) (f : Nat → Fault) : Prop :=
  ∀ base, Code.Addressable m.code → Code.At m.code base [i] →
    (m.goto base).pace = (m.goto (base + 1), .fault (f base))

/-- An instruction that fails is code that faults. -/
theorem Fails.faults {m : Machine} {i : Instruction} {f : Nat → Fault} (h : m.Fails i f) :
    m.Faults [i] f := by
  intro base hm hat
  refine ⟨0, m.goto base, base, .refl, ?_⟩
  unfold Ends
  rw [h base hm hat]

theorem Passes.nil (m : Machine) : m.Passes [] m := ⟨rfl, fun _ _ _ => ⟨0, .refl⟩⟩

theorem Passes.append {m m' m'' : Machine} {c c' : Code}
    (h : m.Passes c m') (h' : m'.Passes c' m'') :
    m.Passes (c ++ c') m'' := by
  refine ⟨h'.1.trans h.1, fun base hm hat => ?_⟩
  obtain ⟨hc, hc'⟩ := Code.at_append.mp hat
  obtain ⟨n, hn⟩ := h.2 base hm hc
  obtain ⟨n', hn'⟩ := h'.2 (base + c.length) (h.1 ▸ hm) (h.1 ▸ hc')
  rw [Nat.add_assoc, ← List.length_append] at hn'
  exact ⟨n + n', hn.trans hn'⟩

theorem Passes.cons {m m' m'' : Machine} {i : Instruction}
    {c : Code} (h : m.Passes [i] m') (h' : m'.Passes c m'') :
    m.Passes (i :: c) m'' := h.append h'

/-- A piece that is passed, and one that faults behind it. -/
theorem Passes.faults {m m' : Machine} {c c' : Code}
    {f : Nat → Fault} (h : m.Passes c m') (h' : m'.Faults c' f) :
    m.Faults (c ++ c') f := by
  intro base hm hat
  obtain ⟨hc, hc'⟩ := Code.at_append.mp hat
  obtain ⟨n, hn⟩ := h.2 base hm hc
  obtain ⟨n', m'', pc, hn', hends⟩ := h' (base + c.length) (h.1 ▸ hm) (h.1 ▸ hc')
  exact ⟨n + n', m'', pc, hn.trans hn', hends⟩

theorem Faults.append {m : Machine} {c c' : Code} {f : Nat → Fault} (h : m.Faults c f) :
    m.Faults (c ++ c') f :=
  fun base hm hat => h base hm (Code.at_append.mp hat).1

/-! ## Single instructions -/

/-- An instruction is passed if it keeps `pc` and does the same at every address. -/
theorem passes_of_perform {m m' : Machine} {i : Instruction} (hcode : m'.code = m.code)
    (h : ∀ base, (m.goto (base + 1)).perform base i = (m'.goto (base + 1), .running)) :
    m.Passes [i] m' := by
  refine ⟨hcode, fun base hm hat => ⟨1, .single ?_⟩⟩
  rw [pace_goto hm hat, h]
  rfl

theorem passes_ldc (m : Machine) {r : Register}
    (hr : r ≠ .pc) (offset : Word) (b : Register) :
    m.Passes [.memory .ldc r offset b] (m.setRegister r offset) :=
  passes_of_perform rfl fun base =>
    congrArg (·, Outcome.running) (setRegister_goto m hr offset (base + 1))

/-- `LDA` adds a register and an offset, and wraps around. -/
theorem passes_lda (m : Machine) {r b : Register}
    (hr : r ≠ .pc) (hb : b ≠ .pc) (offset : Word) :
    m.Passes [.memory .lda r offset b] (m.setRegister r (offset + m.register b)) := by
  refine passes_of_perform rfl fun base => ?_
  rw [← setRegister_goto m hr, ← register_goto m hb (base + 1)]
  rfl

/-- A word that is an address denotes the slot at it, if memory has one. -/
theorem dataSlot_eq (m : Machine) (address : Word) (pc : Nat) :
    m.dataSlot address pc =
      if 0 ≤ address.toInt ∧ address.toInt < m.memory.size then .ok address.toInt.toNat
      else .error (.dataOutOfRange address pc) := by
  have hnonneg : (0 : Word) ≤ address ↔ 0 ≤ address.toInt := Int64.le_iff_toInt_le
  unfold dataSlot Word.toNat?
  by_cases hpos : 0 ≤ address.toInt
  · rw [if_pos (hnonneg.mpr hpos), Option.filter_some]
    by_cases hlt : address.toInt < m.memory.size
    · rw [if_pos (decide_eq_true (by omega)), if_pos ⟨hpos, hlt⟩]
    · rw [if_neg (by rw [decide_eq_true_eq]; omega), if_neg (mt And.right hlt)]
  · rw [if_neg (mt hnonneg.mp hpos), if_neg (mt And.left hpos)]
    rfl

/-- The sum of offset and base counts exactly: where no word holds it, it is no address of
memory either, and the nearest word is reported. -/
theorem slot_eq (m : Machine) (offset base : Word) (pc : Nat) :
    m.slot offset base pc =
      let address := offset.toInt + base.toInt
      if 0 ≤ address ∧ address < m.memory.size then .ok address.toNat
      else .error (.dataOutOfRange (Word.clamp address) pc) := by
  have hsize : m.memory.size ≤ 2 ^ 63 := m.memory.size_le
  dsimp only
  unfold slot dataAddress Word.checkedAdd Word.saturatingAdd Word.checked
  by_cases hfits : Word.Fits (offset.toInt + base.toInt)
  · have hclamp :
        Word.clamp (offset.toInt + base.toInt) = Int64.ofInt (offset.toInt + base.toInt) := by
      unfold Word.clamp
      rw [min_eq_right hfits.2, max_eq_right hfits.1]
    rw [if_pos hfits, hclamp]
    show m.dataSlot (Int64.ofInt (offset.toInt + base.toInt)) pc = _
    rw [dataSlot_eq, toInt_ofInt hfits]
  · have hout :
        ¬ (0 ≤ offset.toInt + base.toInt ∧ offset.toInt + base.toInt < m.memory.size) := by
      rintro ⟨hnonneg, hlt⟩
      refine hfits ⟨?_, ?_⟩
      · unfold Word.least; omega
      · unfold Word.greatest; omega
    rw [if_neg hfits]
    exact (if_neg hout).symm

/-- An address in the memory is good. -/
theorem slot_ok {m : Machine} {offset base : Word}
    {i : Nat} (haddress : offset.toInt + base.toInt = i)
    (hi : i < m.memory.size) (pc : Nat) : m.slot offset base pc = .ok i := by
  rw [slot_eq, haddress]
  dsimp only
  rw [if_pos ⟨Int.natCast_nonneg i, Int.ofNat_lt.mpr hi⟩, Int.toNat_natCast]

/-- What a load from a good address does, wherever it stands. -/
theorem perform_ld {m : Machine} {r b : Register} {offset : Word} {i : Nat} (hr : r ≠ .pc)
    (hb : b ≠ .pc) (haddress : offset.toInt + (m.register b).toInt = i)
    (hi : i < m.memory.size) (base : Nat) :
    (m.goto (base + 1)).perform base (.memory .ld r offset b) =
      ((m.setRegister r (m.word i)).goto (base + 1), .running) := by
  have hslot :
      (m.goto (base + 1)).slot offset ((m.goto (base + 1)).register b) base = .ok i :=
    slot_ok (by rw [register_goto m hb]; exact haddress) hi base
  simp only [perform, performMemory, hslot, ← setRegister_goto m hr]
  rfl

/-- A load from a good address. -/
theorem passes_ld {m : Machine} {r b : Register}
    {offset : Word} {i : Nat} (hr : r ≠ .pc) (hb : b ≠ .pc)
    (haddress : offset.toInt + (m.register b).toInt = i) (hi : i < m.memory.size) :
    m.Passes [.memory .ld r offset b] (m.setRegister r (m.word i)) :=
  passes_of_perform rfl (perform_ld hr hb haddress hi)

/-- What a store to a good address does, wherever it stands. -/
theorem perform_st {m : Machine} {r b : Register} {offset : Word} {i : Nat} (hr : r ≠ .pc)
    (hb : b ≠ .pc) (haddress : offset.toInt + (m.register b).toInt = i)
    (hi : i < m.memory.size) (base : Nat) :
    (m.goto (base + 1)).perform base (.memory .st r offset b) =
    ((m.put i (m.register r)).goto (base + 1), .running) := by
  have hslot :
      (m.goto (base + 1)).slot offset ((m.goto (base + 1)).register b) base = .ok i :=
    slot_ok (by rw [register_goto m hb]; exact haddress) hi base
  simp only [perform, performMemory, hslot, register_goto m hr]
  rfl

/-- A store to a good address. -/
theorem passes_st {m : Machine} {r b : Register}
    {offset : Word} {i : Nat} (hr : r ≠ .pc) (hb : b ≠ .pc)
    (haddress : offset.toInt + (m.register b).toInt = i) (hi : i < m.memory.size) :
    m.Passes [.memory .st r offset b] (m.put i (m.register r)) :=
  passes_of_perform rfl (perform_st hr hb haddress hi)

/-- What the arithmetic operations do to two words. -/
def arithmetic : Opcode → Option (Word → Word → Word)
  | .add => some (· + ·)
  | .sub => some (· - ·)
  | .mul => some (· * ·)
  | _ => none

/-- An operation on two registers. -/
theorem passes_arithmetic (m : Machine) {op : Opcode}
    {f : Word → Word → Word} (hop : arithmetic op = some f)
    {r s s' : Register} (hr : r ≠ .pc) (hs : s ≠ .pc) (hs' : s' ≠ .pc) :
    m.Passes [.register op r s s'] (m.setRegister r (f (m.register s) (m.register s'))) := by
  refine passes_of_perform rfl fun base => ?_
  rw [← setRegister_goto m hr, ← register_goto m hs (base + 1), ← register_goto m hs'
    (base + 1)]
  cases op <;> cases hop <;> rfl

/-- A division by a word that is not zero. -/
theorem passes_div {m : Machine} {r s s' : Register} (hr : r ≠ .pc)
    (hs : s ≠ .pc) (hs' : s' ≠ .pc) (h : m.register s' ≠ 0) :
    m.Passes [.register .div r s s'] (m.setRegister r (m.register s / m.register s')) := by
  refine passes_of_perform rfl fun base => ?_
  simp only [perform, performRegister, register_goto m hs, register_goto m hs', if_neg h,
    setRegister_goto m hr]

/-- A division by zero fails. -/
theorem fails_div {m : Machine} {r s s' : Register} (hs' : s' ≠ .pc) (h : m.register s' = 0) :
    m.Fails (.register .div r s s') .divisionByZero := by
  intro base hm hat
  rw [pace_goto hm hat]
  simp only [perform, performRegister, register_goto m hs', if_pos h]

theorem passes_out (m : Machine) {r s s' : Register} (hr : r ≠ .pc) :
    m.Passes [.register .out r s s'] { m with output := m.output.push (m.register r) } := by
  refine passes_of_perform rfl fun base => ?_
  simp only [perform, performRegister, register_goto m hr]
  rfl

/-- The next word of the input is taken. -/
theorem passes_inp {m : Machine} {r s s' : Register} {w : Word}
    {rest : List Word} (hr : r ≠ .pc) (h : m.input = w :: rest) :
    m.Passes [.register .inp r s s'] ({ m with input := rest }.setRegister r w) := by
  refine passes_of_perform rfl fun base => ?_
  have hinput : (m.goto (base + 1)).input = w :: rest := h
  simp only [perform, performRegister, hinput, ← setRegister_goto { m with input := rest } hr]
  rfl

/-- Without input `IN` fails. -/
theorem fails_inp {m : Machine} {r s s' : Register} (h : m.input = []) :
    m.Fails (.register .inp r s s') .inputExhausted := by
  intro base hm hat
  have hinput : (m.goto (base + 1)).input = [] := h
  rw [pace_goto hm hat]
  simp only [perform, performRegister, hinput]

/-! ## Jumps -/

/-- The instruction behind the next `n` ones. -/
theorem jump_ahead (base n : Nat) :
    Int64.ofNat n + Int64.ofNat (base + 1) = Int64.ofNat (base + 1 + n) := by
  rw [Int64.ofNat_add (base + 1) n, Int64.add_comm]

/-- A jump over the next instructions. -/
theorem pace_skip {m : Machine} {base n : Nat} {c : Code} (hm : Code.Addressable m.code)
    (h : Code.At m.code base (Code.skip n :: c)) :
    (m.goto base).pace = (m.goto (base + 1 + n), .running) := by
  rw [pace_goto hm h]
  change (m.setRegister .pc (Int64.ofNat n + Int64.ofNat (base + 1)), Outcome.running) = _
  rw [jump_ahead]
  rfl

/-- A jump operation tests the accumulator by `p`. -/
def JumpsIf (op : Opcode) (p : Word → Prop) [DecidablePred p] : Prop :=
  ∀ (m : Machine) (base n : Nat) (c : Code), Code.Addressable m.code →
    Code.At m.code base (.memory op .ac (Int64.ofNat n) .pc :: c) → (m.goto base).pace =
    (m.goto (if p (m.register .ac) then base + 1 + n else base + 1), .running)

/-- An operation that sets `pc` on a condition is a conditional jump. -/
theorem jumpsIf {op : Opcode} {p : Word → Prop} [DecidablePred p]
    (hop : ∀ (m : Machine) pc offset, m.performMemory pc op .ac offset .pc =
      (if p (m.register .ac) then m.setRegister .pc (offset + m.register .pc)
        else m, .running)) : JumpsIf op p := by
  intro m base n c hm h
  rw [pace_goto hm h, perform, hop, register_goto m (by decide)]
  by_cases hp : p (m.register .ac)
  · rw [if_pos hp, if_pos hp]
    change (m.setRegister .pc (Int64.ofNat n + Int64.ofNat (base + 1)), Outcome.running) = _
    rw [jump_ahead]
    rfl
  · rw [if_neg hp, if_neg hp]

theorem jumpsIf_jeq : JumpsIf .jeq (· = 0) := jumpsIf fun _ _ _ => rfl

theorem jumpsIf_jlt : JumpsIf .jlt (· < 0) := jumpsIf fun _ _ _ => rfl

/-- A comparison leaves 1 or 0. -/
theorem passes_compare {op : Opcode} {p : Word → Prop} [DecidablePred p]
    (hop : JumpsIf op p) (m : Machine) : m.Passes (Code.compare op)
    (m.setRegister .ac (if p (m.register .ac1 - m.register .ac) then 1 else 0)) := by
  refine ⟨rfl, fun base hm hat => ?_⟩
  let m₁ := m.setRegister .ac (m.register .ac1 - m.register .ac)
  have hm₁ : Code.Addressable m₁.code := hm
  obtain ⟨_, hjump, hload₀, hskip, hload₁, _⟩ := id hat
  have hsub : Reaches (m.goto base) 1 (m₁.goto (base + 1)) := .single (pace_goto hm hat)
  have htest := hop m₁ (base + 1) 2 _ hm hat.2
  rw [show m₁.register .ac = m.register .ac1 - m.register .ac
    from register_setRegister_self ..] at htest
  by_cases hp : p (m.register .ac1 - m.register .ac)
  · rw [if_pos hp] at htest
    rw [if_pos hp]
    have hload : Reaches (m₁.goto (base + 4)) 1 ((m.setRegister .ac 1).goto (base + 5)) :=
      .single (pace_goto (c := []) hm₁ ⟨hload₁, trivial⟩)
    exact ⟨3, (hsub.trans (.single htest)).trans hload⟩
  · rw [if_neg hp] at htest
    rw [if_neg hp]
    have hload : Reaches (m₁.goto (base + 2)) 1 ((m.setRegister .ac 0).goto (base + 3)) :=
      .single (pace_goto hm₁ ⟨hload₀, hat.2.2.2⟩)
    have hend : Reaches ((m.setRegister .ac 0).goto (base + 3)) 1
        ((m.setRegister .ac 0).goto (base + 5)) :=
      .single (pace_skip (n := 1) (c := []) hm ⟨hskip, trivial⟩)
    exact ⟨4, ((hsub.trans (.single htest)).trans hload).trans hend⟩

/-! ## What code leaves alone -/

/-- Only registers for values and the words from `lo` up to `hi` are changed. -/
structure Same (lo hi : Nat) (m m' : Machine) : Prop where
  code : m'.code = m.code
  register : ∀ r, r ≠ .ac → r ≠ .ac1 → r ≠ .pc → m'.register r = m.register r
  input : m'.input = m.input
  output : m'.output = m.output
  size : m'.memory.size = m.memory.size
  word : ∀ i, i < lo ∨ hi ≤ i → m'.word i = m.word i

namespace Same

variable {lo lo' hi hi' : Nat} {m m' m'' : Machine}

theorem refl (lo hi : Nat) (m : Machine) : m.Same lo hi m :=
  ⟨rfl, fun _ _ _ _ => rfl, rfl, rfl, rfl, fun _ _ => rfl⟩

theorem trans (h : m.Same lo hi m') (h' : m'.Same lo hi m'') : m.Same lo hi m'' where
  code := h'.code.trans h.code
  register r h₁ h₂ h₃ := (h'.register r h₁ h₂ h₃).trans (h.register r h₁ h₂ h₃)
  input := h'.input.trans h.input
  output := h'.output.trans h.output
  size := h'.size.trans h.size
  word i hi := (h'.word i hi).trans (h.word i hi)

/-- What is left alone outside a range is left alone outside a wider one. -/
theorem mono (h : m.Same lo hi m') (hlo : lo' ≤ lo) (hhi : hi ≤ hi') : m.Same lo' hi' m' :=
  { h with word := fun i hi => h.word i (by omega) }

/-- Registers for values may be set. -/
theorem setRegister {r : Register} (h : r = .ac ∨ r = .ac1)
    (m : Machine) (w : Word) (lo hi : Nat) :
    m.Same lo hi (m.setRegister r w) := by
  refine ⟨rfl, fun r' h₁ h₂ _ => ?_, rfl, rfl, rfl, fun _ _ => rfl⟩
  refine register_setRegister_of_ne m ?_ w
  rcases h with rfl | rfl
  · exact h₁
  · exact h₂

/-- A word in the range may be written. -/
theorem put {i : Nat} (hlo : lo ≤ i) (hhi : i < hi) (m : Machine) (w : Word) :
    m.Same lo hi (m.put i w) where
  code := rfl
  register _ _ _ _ := rfl
  input := rfl
  output := rfl
  size := size_put ..
  word j hj := word_put_of_ne m (by omega) w

end Same

end Machine

end BlockLang
