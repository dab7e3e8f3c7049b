import BlockLang.Proofs.StepEffects

/-!
# Steps and input as resources

A run consumes two things that are given to it from outside: steps, of which there is a
limit, and input values. Since every call of `step` counts, a run ends whatever the code
is. A run that ends for another reason than lack of steps or input does not notice that
there is more of both: it comes to the same end and leaves the additional input unread. A
run that ends for lack of them has written a part of what it writes when it is given more.

`Machine.execute_ends_monotone` is the theorem. Apart from the clock, a step of the
machine is a pace, and a pace looks at the input only if it executes `IN`.

* Input: `Machine.pace_feed` says that a pace which does not lack input is the same with
  more.
* Output: `Machine.output_pace` says that a pace only adds to it, and nothing in the pace
  that is the last; so a run only adds to it (`Machine.output_runFor`).
* Clock: `Machine.runFor_eq_steps` describes a run as steps that go on and one that does
  not. The clock goes up with every step (`Machine.steps_step`), and no pace reports that
  the limit is exceeded (`Machine.pace_ne_stepLimitExceeded`).
* More of both: `Machine.step_supplied` for a step and `Machine.runFor_supplied` for a
  run, by induction on the steps that the smaller limit allows.
-/

namespace BlockLang

/-- The faults that more steps or more input could have avoided. -/
def Fault.IsLack : Fault → Prop
  | .stepLimitExceeded _ | .inputExhausted _ => True
  | .instructionOutOfRange _ | .illegalInstruction _ | .dataOutOfRange _ _
  | .divisionByZero _ => False

/-- The result of a run that a step ends. -/
def Outcome.result? : Outcome → Option (Except Fault Unit)
  | .running => none
  | .halted => some (.ok ())
  | .fault f => some (.error f)

namespace Machine

/-- The machine with another limit and with more values to be read. -/
def supplied (m : Machine) (limit : Nat) (values : List Word) : Machine :=
  { m with stepLimit := limit }.feed values

/-! ## Input -/

section

variable {m : Machine} (values : List Word)

/-- A register instruction that does not lack input is the same with more. -/
theorem performRegister_feed {pc : Nat} {op : Opcode} {dst src₁ src₂ : Register}
    (h : (m.performRegister pc op dst src₁ src₂).2 ≠ .fault (.inputExhausted pc)) :
    (m.feed values).performRegister pc op dst src₁ src₂ =
      ((m.performRegister pc op dst src₁ src₂).1.feed values,
        (m.performRegister pc op dst src₁ src₂).2) := by
  by_cases hop : op = .inp
  · subst hop
    cases hinput : m.input with
    | nil => simp [performRegister, hinput] at h
    | cons w rest => simp [performRegister, feed, hinput, setRegister]
  · exact performRegister_comm (f := (·.feed values)) (fun _ => rfl) (fun _ _ _ => rfl)
      (fun _ => rfl) (fun _ _ => rfl) m pc hop dst src₁ src₂

/-- Memory instructions do not look at the input. -/
theorem performMemory_feed (pc : Nat) (op : Opcode)
    (reg : Register) (offset : Word) (base : Register) :
    (m.feed values).performMemory pc op reg offset base =
      ((m.performMemory pc op reg offset base).1.feed values,
        (m.performMemory pc op reg offset base).2) :=
  performMemory_comm (f := (·.feed values)) (fun _ => rfl) (fun _ _ _ => rfl) (fun _ => rfl)
    (fun _ _ => rfl) m pc op reg offset base

/-- More input changes nothing unless there was none to be read. -/
theorem pace_feed (h : ∀ pc, m.pace.2 ≠ .fault (.inputExhausted pc)) :
    (m.feed values).pace = (m.pace.1.feed values, m.pace.2) := by
  cases hfetch : m.fetch? m.registers.pc with
  | none =>
    have hfetch' : (m.feed values).fetch? (m.feed values).registers.pc = none := hfetch
    simp only [pace, hfetch, hfetch']
    rfl
  | some i =>
    rw [pace_of_fetch? hfetch] at h
    rw [pace_of_fetch? (m := m.feed values) hfetch, pace_of_fetch? hfetch]
    cases i with
    | register op dst src₁ src₂ =>
      have hne := h m.registers.pc.toInt.toNat
      exact performRegister_feed (m := m.setRegister .pc (m.registers.pc + 1)) values hne
    | memory op reg offset base =>
      exact performMemory_feed (m := m.setRegister .pc (m.registers.pc + 1)) values _ op reg
        offset base

end

/-! ## Output -/

section

variable (m : Machine)

/-- What is written is appended, and only by an instruction after which the machine goes
on. -/
theorem output_perform (pc : Nat) (i : Instruction) :
    ∃ written, (m.perform pc i).1.output.toList = m.output.toList ++ written ∧
    ((m.perform pc i).2 ≠ .running → written = []) := by
  have hnone : ∀ m' : Machine, m'.output = m.output →
      ∃ written, m'.output.toList = m.output.toList ++ written ∧
      ((m.perform pc i).2 ≠ .running → written = []) := by
    intro m' h
    exact ⟨[], by simp [h], fun _ => rfl⟩
  cases i with
  | register op dst src₁ src₂ =>
    cases op with
    | out => exact ⟨[m.register dst], Array.toList_push, fun h => absurd rfl h⟩
    | inp | div =>
      apply hnone
      simp only [perform, performRegister]
      split <;> rfl
    | _ => exact hnone _ rfl
  | memory op reg offset base =>
    cases op with
    | ld | st | jlt | jeq =>
      apply hnone
      simp only [perform, performMemory]
      split <;> rfl
    | _ => exact hnone _ rfl

/-- A pace adds to the output, and not if it is the last. -/
theorem output_pace : ∃ written, m.pace.1.output.toList = m.output.toList ++ written ∧
    (m.pace.2 ≠ .running → written = []) := by
  cases hfetch : m.fetch? m.registers.pc with
  | none => exact ⟨[], by simp [pace, hfetch], fun _ => rfl⟩
  | some i =>
    rw [pace_of_fetch? hfetch]
    exact output_perform (m.setRegister .pc (m.registers.pc + 1)) m.registers.pc.toInt.toNat i

end

/-! ## The clock -/

section

variable (m : Machine)

/-- At the limit a step changes nothing. -/
theorem step_of_le {m : Machine} (h : m.stepLimit ≤ m.steps) :
    m.step = (m, .fault (.stepLimitExceeded m.stepLimit)) := if_pos h

/-- Within the limit a step is a pace that is counted. -/
theorem step_of_lt {m : Machine} (h : m.steps < m.stepLimit) :
    m.step = (m.pace.1.timed m.stepLimit (m.steps + 1), m.pace.2) := m.step_timed h

theorem perform_ne_stepLimitExceeded (pc : Nat) (i : Instruction) (limit : Nat) :
    (m.perform pc i).2 ≠ .fault (.stepLimitExceeded limit) := by
  intro h
  obtain ⟨haddress, _⟩ := (m.performs pc i).fault h
  cases haddress

/-- Only the clock ends a run for lack of steps. -/
theorem pace_ne_stepLimitExceeded (limit : Nat) :
    m.pace.2 ≠ .fault (.stepLimitExceeded limit) := by
  cases hfetch : m.fetch? m.registers.pc with
  | none => simp [pace, hfetch]
  | some i =>
    rw [pace_of_fetch? hfetch]
    exact perform_ne_stepLimitExceeded _ _ i limit

end

/-! ## Runs -/

section

variable {m m' : Machine} {n : Nat}

theorem runFor_running (h : m.step = (m', .running)) (n : Nat) :
    runFor (n + 1) m = runFor n m' := by
  rw [runFor, h]

/-- A run ends with a step that does not go on. -/
theorem runFor_last {o : Outcome} {r : Except Fault Unit}
    (h : m.step = (m', o)) (hr : o.result? = some r) (n : Nat) :
    runFor (n + 1) m = (m', r) := by
  cases o with
  | running => cases hr
  | halted =>
    cases hr
    rw [runFor, h]
  | fault f =>
    cases hr
    rw [runFor, h]

/-- A run is as many steps as the machine goes on for, and one more call of `step`, with which
it ends. -/
theorem runFor_eq_steps (hn : m.steps + n = m.stepLimit) :
    ∃ k last o, k ≤ n ∧ Steps m k last ∧ last.steps = m.steps + k ∧
    last.stepLimit = m.stepLimit ∧
      last.step = ((runFor n m).1, o) ∧ o.result? = some (runFor n m).2 := by
  induction n generalizing m with
  | zero => exact ⟨0, m, _, Nat.le_refl 0, .refl, rfl, rfl, step_of_le (by omega), rfl⟩
  | succ n ih =>
    have hstep := step_of_lt (m := m) (by omega)
    cases ho : m.pace.2 with
    | running =>
      rw [ho] at hstep
      have hn' : m.steps + 1 + n = m.stepLimit := by omega
      obtain ⟨k, last, o, hk, hsteps, hcount, hlimit, hlast⟩ :=
        ih (m := m.pace.1.timed m.stepLimit (m.steps + 1)) hn'
      have hcount' : last.steps = m.steps + 1 + k := hcount
      rw [runFor_running hstep]
      exact ⟨k + 1, last, o, Nat.succ_le_succ hk, .step hstep hsteps, by omega, hlimit, hlast⟩
    | halted | fault =>
      rw [ho] at hstep
      rw [runFor_last hstep rfl]
      exact ⟨0, m, _, Nat.zero_le _, .refl, rfl, rfl, hstep, rfl⟩

/-- The clock does not pass the limit, and it stands at the limit when there is lack of
steps. -/
theorem steps_step {o : Outcome} (h : m.step = (m', o)) (hle : m.steps ≤ m.stepLimit) :
    m'.steps ≤ m.stepLimit ∧ ∀ limit, o = .fault (.stepLimitExceeded limit) →
    m'.steps = m.stepLimit := by
  rcases Nat.lt_or_ge m.steps m.stepLimit with hlt | hge
  · rw [step_of_lt hlt] at h
    injection h with hm ho
    subst hm ho
    exact ⟨hlt, fun limit hlack => absurd hlack (m.pace_ne_stepLimitExceeded limit)⟩
  · rw [step_of_le hge] at h
    injection h with hm
    subst hm
    exact ⟨hle, fun _ _ => Nat.le_antisymm hle hge⟩

/-- What has been written stays, whatever comes after. -/
theorem output_runFor (n : Nat) (m : Machine) :
    m.output.toList <+: (runFor n m).1.output.toList := by
  induction n generalizing m with
  | zero => exact List.prefix_rfl
  | succ n ih =>
    rcases Nat.lt_or_ge m.steps m.stepLimit with hlt | hge
    · have hstep := step_of_lt hlt
      obtain ⟨written, hwritten, -⟩ := m.output_pace
      have hpace :
        m.output.toList <+: (m.pace.1.timed m.stepLimit (m.steps + 1)).output.toList :=
        ⟨written, hwritten.symm⟩
      cases ho : m.pace.2 with
      | running =>
        rw [ho] at hstep
        rw [runFor_running hstep]
        exact hpace.trans (ih _)
      | halted | fault =>
        rw [ho] at hstep
        rw [runFor_last hstep rfl]
        exact hpace
    · exact ⟨[], by rw [runFor_last (step_of_le hge) rfl, List.append_nil]⟩

end

/-! ## More steps and more input -/

section

variable {m : Machine} (limit : Nat) (values : List Word)

/-- A step that does not end for lack is the same step where there is more of everything. -/
theorem step_supplied (hlt : m.steps < m.stepLimit) (hle : m.stepLimit ≤ limit)
    (h : ∀ pc, m.pace.2 ≠ .fault (.inputExhausted pc)) :
    (m.supplied limit values).step = (m.step.1.supplied limit values, m.step.2) := by
  have hstep : ((m.feed values).timed limit m.steps).step = _ :=
    (m.feed values).step_timed (by omega)
  rw [pace_feed values h] at hstep
  rw [step_of_lt hlt]
  exact hstep

/-- A run with more steps and more input: the run itself if it does not end for lack of them,
else one that goes on writing where it stopped. -/
theorem runFor_supplied {n k : Nat} (hn : m.steps + n = m.stepLimit)
    (hk : m.steps + k = limit) (hle : n ≤ k) :
    ((∀ f, (runFor n m).2 = .error f → ¬ f.IsLack) →
      runFor k (m.supplied limit values) =
      ((runFor n m).1.supplied limit values, (runFor n m).2)) ∧
    (runFor n m).1.output.toList <+:
    (runFor k (m.supplied limit values)).1.output.toList := by
  induction n generalizing m k with
  | zero =>
    constructor
    · intro h
      -- At the limit a run ends for lack of steps.
      exact absurd trivial (h _ rfl)
    · exact output_runFor k (m.supplied limit values)
  | succ n ih =>
    obtain ⟨k, rfl⟩ : ∃ j, k = j + 1 := ⟨k - 1, by omega⟩
    have hstep := step_of_lt (m := m) (by omega)
    have hsame := step_supplied (m := m) limit values (by omega) (by omega)
    cases ho : m.pace.2 with
    | running =>
      have hsame' := hsame (by simp [ho])
      rw [ho] at hstep
      rw [hstep] at hsame'
      rw [runFor_running hstep, runFor_running hsame']
      have hn' : m.steps + 1 + n = m.stepLimit := by omega
      have hk' : m.steps + 1 + k = limit := by omega
      exact ih (m := m.pace.1.timed m.stepLimit (m.steps + 1)) hn' hk' (by omega)
    | halted =>
      have hsame' := hsame (by simp [ho])
      rw [ho] at hstep
      rw [hstep] at hsame'
      rw [runFor_last hstep rfl, runFor_last hsame' rfl]
      exact ⟨fun _ => rfl, List.prefix_rfl⟩
    | fault f =>
      rw [ho] at hstep
      rw [runFor_last hstep rfl]
      by_cases hlack : f.IsLack
      · -- Nothing is written by the step that fails.
        obtain ⟨written, hwritten, hnil⟩ := m.output_pace
        rw [hnil (by simp [ho]), List.append_nil] at hwritten
        have hfirst : (m.pace.1.timed m.stepLimit (m.steps + 1)).output.toList =
          m.output.toList := hwritten
        refine ⟨fun h => absurd hlack (h f rfl), ?_⟩
        rw [hfirst]
        exact output_runFor (k + 1) (m.supplied limit values)
      · have hsame' := hsame (by
          intro pc h
          rw [ho] at h
          cases h
          exact hlack trivial)
        rw [hstep] at hsame'
        rw [runFor_last hsame' rfl]
        exact ⟨fun _ => rfl, List.prefix_rfl⟩

/-- Every run ends: it is at most as many calls of `step` as the limit leaves, and one more,
and the clock does not pass the limit. With a higher limit and with more input at the end of
the queue a run that did not end for lack of either is the same run, to the same result, with
the additional input left in the queue; one that did ended after a part of the output it now
has. -/
theorem execute_ends_monotone (m : Machine) (hle : m.steps ≤ m.stepLimit) :
    (∃ n last o, n + 1 ≤ m.stepLimit - m.steps + 1 ∧ Steps m n last ∧
      last.step = (m.execute.1, o) ∧
        o.result? = some m.execute.2) ∧
      m.execute.1.steps ≤ m.stepLimit ∧
      (∀ limit, m.execute.2 = .error (.stepLimitExceeded limit) →
        m.execute.1.steps = m.stepLimit) ∧
      ∀ (limit : Nat) (values : List Word), m.stepLimit ≤ limit →
        let more : Machine := { m with stepLimit := limit, input := m.input ++ values }
        ((∀ f, m.execute.2 = .error f → ¬ f.IsLack) →
          more.execute =
            ({ m.execute.1 with stepLimit := limit, input := m.execute.1.input ++ values },
              m.execute.2)) ∧
        ((∃ f, m.execute.2 = .error f ∧ f.IsLack) →
          m.execute.1.output.toList <+: more.execute.1.output.toList) := by
  obtain ⟨n, last, o, hn, hsteps, hcount, hlimit, hlast, hresult⟩ :=
    runFor_eq_steps (m := m) (n := m.stepLimit - m.steps) (by omega)
  obtain ⟨hclock, hlack⟩ := steps_step hlast (by omega)
  rw [hlimit] at hclock hlack
  refine ⟨⟨n, last, o, by omega, hsteps, hlast, hresult⟩, hclock, ?_, ?_⟩
  · intro limit h
    apply hlack limit
    have hresult' : o.result? = some (.error (.stepLimitExceeded limit)) :=
      hresult.trans (congrArg some h)
    cases o with
    | running | halted => cases hresult'
    | fault f =>
      cases hresult'
      rfl
  · intro limit values hlimit
    have hrun := runFor_supplied (m := m) (n := m.stepLimit - m.steps)
      (k := limit - m.steps) limit values (by omega) (by omega) (by omega)
    exact ⟨hrun.1, fun _ => hrun.2⟩

/-- A machine that writes what it reads, up to the first zero. -/
def echoing (limit : Nat) (input : List Word) : Machine where
  code := #[.register .inp .ac .ac .ac, .register .out .ac .ac .ac, .memory .jeq .ac 1 .pc,
    .memory .lda .pc (-4) .pc, .register .halt .ac .ac .ac]
  stepLimit := limit
  memory := { words := #[0] }
  input := input

/-- Eight steps are enough to echo two values, and then more steps and a third value change
nothing. Five are not. -/
theorem echoing_execute_ends_monotone :
    ((echoing 8 [3, 0]).execute.2 = .ok () ∧
      (echoing 20 [3, 0, 7]).execute =
        ({ (echoing 8 [3, 0]).execute.1 with
          stepLimit := 20, input := (echoing 8 [3, 0]).execute.1.input ++ [7] }, .ok ())) ∧
    (echoing 5 [3, 0]).execute.2 = .error (.stepLimitExceeded 5) ∧
      (echoing 5 [3, 0]).execute.1.output.toList = [3] ∧
      (echoing 5 [3, 0]).execute.1.steps = 5 ∧
      (echoing 5 [3, 0]).execute.1.output.toList <+:
        (echoing 20 [3, 0, 7]).execute.1.output.toList := by
  have hlong : (echoing 8 [3, 0]).execute.2 = .ok () := rfl
  have hshort : (echoing 5 [3, 0]).execute.2 = .error (.stepLimitExceeded 5) := rfl
  have long := execute_ends_monotone (echoing 8 [3, 0]) (by decide)
  have short := execute_ends_monotone (echoing 5 [3, 0]) (by decide)
  -- the machine with more of everything is the one that had it from the beginning
  have hsame {m : Machine} {r : Machine × Except Fault Unit} (h : m.execute = r)
      (hm : m = echoing 20 [3, 0, 7]) : (echoing 20 [3, 0, 7]).execute = r := hm ▸ h
  have hpart {m : Machine} {written : List Word} (h : written <+: m.execute.1.output.toList)
      (hm : m = echoing 20 [3, 0, 7]) :
      written <+: (echoing 20 [3, 0, 7]).execute.1.output.toList := hm ▸ h
  have hmore := hsame ((long.2.2.2 20 [7] (by decide)).1 (by simp [hlong])) rfl
  rw [hlong] at hmore
  exact ⟨⟨hlong, hmore⟩, hshort, rfl, short.2.2.1 5 hshort,
    hpart ((short.2.2.2 20 [7] (by decide)).2 ⟨_, hshort, trivial⟩) rfl⟩

end

end Machine

end BlockLang
