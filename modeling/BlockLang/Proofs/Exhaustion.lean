import BlockLang.Proofs.Correctness

/-!
# When memory runs out

The frames of the active procedures grow upwards from the first word of memory and the
temporaries downwards from the last one. A frame that does not fit is noticed, since its
own words are stored when a procedure is entered. Nothing notices where temporaries run
into frames. As long as the two keep apart, a program that comes to its end either writes
what it should or ends in a fault: this is `Program.exhaustion_reported`.

`World.Apart` says that they keep apart, in terms of what the interpreter demands of
memory at each statement. It cannot be left out: `Program.clash_silent` has a program that
comes to its end with wrong output, and nothing is reported.
-/

namespace BlockLang

/-- Frames and temporaries keep apart in a memory of the given size: where there were
temporaries, they had room behind the frames, unless the frames themselves did not fit. -/
def World.Apart (size : Nat) (w : World) : Prop :=
  ∀ x ∈ w.demands, x.Fits size ∨ (size : Int) < x.used

instance (size : Nat) (w : World) : Decidable (w.Apart size) := by
  unfold World.Apart
  infer_instance

/-- Where frames and temporaries keep apart there is room for the temporaries of every frame
that fits. -/
theorem World.Apart.roomy {size : Nat} {w : World} (h : w.Apart size) (depth : Nat) :
    w.Roomy size depth :=
  fun x hx _ => h x hx

open Build in
/-- A procedure with one temporary: it writes the sum of a constant and a variable of the main
program. -/
def Build.clash : Build Program := do
  let d ← varDecl ["x", "y"] (← integer)
  let p ← procedure "p" [] [] [← write (← binary .add (← const 1) (.ref (← var "x")))]
  let c ← call "p" []
  program "clash" [← vars [d], .procedure p]
    [← assign (← var "x") (← const 5), ← assign (← var "y") (← const 7), .call c]

def Program.clash : Program := (StateT.run (m := Id) Build.clash {}).1

theorem Program.clash_distinctNodes : Program.clash.DistinctNodes := by decide +kernel

/-- The program writes six. A memory of twelve words holds its frames, and one of fourteen the
temporary as well. -/
theorem Program.clash_interpret : ∃ a, Program.clash.analyze = .ok a ∧
    let r := Program.clash.interpret a.frameSize (a.mainDisplayBase + 1) [] 2
    r.ending = .finished ∧ r.world.output = [6] ∧ r.world.peak = 12 ∧ r.world.Apart 14 ∧
    r.world.Apart 11 := by
  have hcheck : (match Program.clash.analyze with
      | .ok a =>
        let r := Program.clash.interpret a.frameSize (a.mainDisplayBase + 1) [] 2
        decide (r.ending = .finished ∧ r.world.output = [6] ∧ r.world.peak = 12 ∧
          r.world.Apart 14 ∧ r.world.Apart 11)
      | .error _ => false) = true := by decide +kernel
  cases ha : Program.clash.analyze with
  | ok a =>
    rw [ha] at hcheck
    exact ⟨a, rfl, of_decide_eq_true hcheck⟩
  | error e =>
    rw [ha] at hcheck
    cases hcheck

/-- In twelve words the temporary takes the place of a word of the display, and `y` is read
for `x`. -/
theorem Program.clash_silent :
    ∃ a, Program.clash.analyze = .ok a ∧ Program.clash.DistinctNodes ∧
    (Program.clash.interpret a.frameSize (a.mainDisplayBase + 1) [] 2).ending = .finished ∧
    (Program.clash.interpret a.frameSize (a.mainDisplayBase + 1) [] 2).world.output = [6] ∧
    Program.clash.run [] {} ⟨12, 100⟩ = .ok [8] := by
  obtain ⟨a, ha, hending, houtput, _⟩ := Program.clash_interpret
  exact ⟨a, ha, Program.clash_distinctNodes, hending, houtput, by decide +kernel⟩

/-- A program that comes to its end writes what it should where its frames fit into memory,
and ends in a fault where they do not, whatever the size of the memory, as long as frames and
temporaries keep apart. -/
theorem Program.exhaustion_reported {p : Program} {a : Analysis}
    (ha : p.analyze = .ok a) (hnodes : p.DistinctNodes) (o : Options) :
    ∃ code, p.compile o = .ok code ∧ (code.instructions.length < 2 ^ 63 →
      ∀ (input : List Word) (fuel memorySize : Nat), memorySize < 2 ^ 63 →
        let r := p.interpret a.frameSize (a.mainDisplayBase + 1) input fuel
        r.ending = .finished → r.world.Apart (max memorySize 1) →
        (r.world.peak ≤ (max memorySize 1 : Nat) →
          ∃ n, ∀ limit, p.run input o ⟨memorySize, limit⟩ =
          if n < limit then .ok r.world.output
          else .error (.fault (.stepLimitExceeded limit))) ∧
        ((max memorySize 1 : Nat) < r.world.peak →
            ∃ n f, ∀ limit, p.run input o ⟨memorySize, limit⟩ =
          if n < limit then .error (.fault f)
          else .error (.fault (.stepLimitExceeded limit)))) := by
  obtain ⟨code, l, Γ, hcompile, hcode, hresolved⟩ := Program.compile_of_analyze ha hnodes o
  refine ⟨code, hcompile, ?_⟩
  intro hlength input fuel memorySize hmemory r hending hapart
  obtain ⟨k, hk⟩ : ∃ k, max memorySize 1 = k + 1 := ⟨max memorySize 1 - 1, by omega⟩
  rw [hk] at hapart ⊢
  rcases hresolved.tells_or_exhausts hcompile hcode (Code.addressable_of_length hlength) hk
    (by unfold Word.greatest; omega) (hapart.roomy p.depth) with
    ⟨htells, hpeak⟩ | ⟨hlt, hfault⟩
  · exact ⟨fun _ => htells.finished hending, fun hlt =>
      absurd (hpeak hending) (Int.not_le.mpr hlt)⟩
  · exact ⟨fun hle => absurd hle (Int.not_le.mpr hlt), fun _ => hfault⟩

/-- With two words more than the frames take the sum is right, and with one word less the
frame of the procedure does not fit. -/
theorem Program.clash_exhaustion_reported :
    ∃ a code, Program.clash.analyze = .ok a ∧ Program.clash.DistinctNodes ∧
    Program.clash.compile {} = .ok code ∧
      code.instructions.length < 2 ^ 63 ∧
      (Program.clash.interpret a.frameSize (a.mainDisplayBase + 1) [] 2).ending = .finished ∧
      (Program.clash.interpret a.frameSize (a.mainDisplayBase + 1) [] 2).world.Apart 14 ∧
      (Program.clash.interpret a.frameSize (a.mainDisplayBase + 1) [] 2).world.Apart 11 ∧
      (∃ n, ∀ limit, Program.clash.run [] {} ⟨14, limit⟩ =
        if n < limit then .ok [6] else .error (.fault (.stepLimitExceeded limit))) ∧
      ∃ n f, ∀ limit, Program.clash.run [] {} ⟨11, limit⟩ =
        if n < limit then .error (.fault f)
        else .error (.fault (.stepLimitExceeded limit)) := by
  obtain ⟨a, ha, hending, houtput, hpeak, hapart, hapart'⟩ := Program.clash_interpret
  obtain ⟨code, hcompile, hrun⟩ :=
    Program.exhaustion_reported ha Program.clash_distinctNodes {}
  have hlength : code.instructions.length < 2 ^ 63 := by
    have hcheck : (match Program.clash.compile {} with
        | .ok code => decide (code.instructions.length < 2 ^ 63)
        | .error _ => false) = true := by decide +kernel
    rw [hcompile] at hcheck
    exact of_decide_eq_true hcheck
  have hfit := (hrun hlength [] 2 14 (by decide) hending hapart).1 (by rw [hpeak]; decide)
  have hfault := (hrun hlength [] 2 11 (by decide) hending hapart').2 (by rw [hpeak]; decide)
  rw [houtput] at hfit
  exact ⟨a, code, ha, Program.clash_distinctNodes, hcompile, hlength, hending, hapart,
    hapart', hfit, hfault⟩

end BlockLang
