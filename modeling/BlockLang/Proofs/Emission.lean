import BlockLang.Proofs.Assembly

/-!
# The one-pass generator makes the code of the parts

`Program.generate` threads one buffer through the tree: it reserves addresses, writes on,
goes back to fill them and resumes at the frontier. `Program.code` puts pieces together.
`Program.instructions_generate` says that they agree, for every tree, every analysis and
all options: they fail with the same defect or give the same instructions.

How the proof goes. The proof looks at an emitter through its contents, a list in which a
reserved address is a hole. Generating a construct at the frontier appends its code to the
contents and fills no hole of anyone else.

1. Emitters: what `write`, `note`, `skip`, `reserve` and `resume` do to contents and
   cursor. `Emitter.AtEnd` says that the cursor is at the frontier and that both arrays
   end there.
2. Generator states: `GenState.Grown s c s'` says that between `s` and `s'` the code `c`
   was appended. It composes (`GenState.Grown.trans`) and tells where the cursor is by now
   (`GenState.Grown.cursor`), from which every relative address follows.
3. Generators: `Gen.Completes s g s' r` follows a generator and the code that it is to
   make in step. Both fail at the same places (`Gen.Completes.bind`,
   `Gen.Completes.lookup`), so one induction proves that they succeed together, fail
   together and agree.
4. Holes: `Gen.Completes.reserve` leaves one, `Gen.Completes.patch` and
   `Gen.Completes.fill` go back to it, and `Gen.Completes.resume` comes back to the
   frontier. The code in between is arbitrary, which is why the contents and not the array
   are looked at.
5. The tree: `Expr.generate_completes`, `Call.generate_completes`,
   `Stmt.generate_completes` and `Decl.generate_declares`, by mutual recursion as the
   generator itself. Conditionals and loops share the condition with the hole behind it
   (`Expr.generate_test`).

A statement finds no temporary in use and leaves none, so whatever is done only while
temporaries are in use is never done: `Gen.Harmless` says this of the checks between
statements, and the theorems hold for all checks that are harmless.
-/

namespace BlockLang

/-! ## Relative addresses -/

/-- The distance to a later address, from behind the jump. -/
theorem offset_forward (k n : Nat) :
    Int64.ofNat (k + 1 + n) - (Int64.ofNat k + 1) = Int64.ofNat n := by
  rw [Int64.ofNat_add, Int64.ofNat_add]
  grind

/-- The distance to an earlier address, from behind the jump. -/
theorem offset_back (k n : Nat) :
    Int64.ofNat k - (Int64.ofNat (k + n) + 1) = -Int64.ofNat (n + 1) := by
  rw [Int64.ofNat_add, Int64.ofNat_add]
  grind

/-! ## Emitters -/

namespace Emitter

/-- What stands below the frontier; a reserved address holds nothing yet. -/
def contents (e : Emitter) : List (Option Instruction) := e.code.toList

/-- Every address below the frontier has a place for a comment. -/
def Aligned (e : Emitter) : Prop := e.comments.size = e.code.size

/-- The cursor is at the frontier. -/
structure AtEnd (e : Emitter) : Prop where
  cursor : e.cursor = e.contents.length
  aligned : e.Aligned

@[simp] theorem length_contents (e : Emitter) : e.contents.length = e.code.size := by
  simp [contents]

/-! ### Writing -/

@[simp] theorem cursor_write (e : Emitter) (i : Instruction) (c : String) :
    (e.write i c).cursor = e.cursor + 1 := by
  unfold write
  split <;> rfl

/-- A write keeps both arrays at one length. -/
theorem Aligned.write {e : Emitter} (h : e.Aligned) (i : Instruction) (c : String) :
    (e.write i c).Aligned := by
  unfold Aligned at h ⊢
  unfold Emitter.write
  split <;> simp [h]

/-- At the frontier a write appends. -/
theorem contents_write_of_atEnd {e : Emitter} (h : e.AtEnd) (i : Instruction) (c : String) :
    (e.write i c).contents = e.contents ++ [some i] := by
  have hc : e.cursor = e.code.size := by simpa using h.cursor
  simp [contents, write, hc]

/-- Below the frontier a write replaces. -/
theorem contents_write_of_lt {e : Emitter}
    (h : e.cursor < e.contents.length) (i : Instruction)
    (c : String) : (e.write i c).contents = e.contents.set e.cursor (some i) := by
  have hc : e.cursor ≠ e.code.size := by rw [length_contents] at h; omega
  simp [contents, write, hc]

/-- After a write at the frontier the cursor is at the frontier. -/
theorem atEnd_write {e : Emitter} (h : e.AtEnd) (i : Instruction) (c : String) :
    (e.write i c).AtEnd := by
  refine ⟨?_, h.aligned.write i c⟩
  rw [contents_write_of_atEnd h, cursor_write, h.cursor]
  simp

/-! ### Notes -/

@[simp] theorem contents_note (e : Emitter) (text : String) :
    (e.note text).contents = e.contents := by
  unfold note
  split <;> rfl

@[simp] theorem cursor_note (e : Emitter) (text : String) :
    (e.note text).cursor = e.cursor := by
  unfold note
  split <;> rfl

theorem Aligned.note {e : Emitter} (h : e.Aligned) (text : String) :
    (e.note text).Aligned := by
  unfold Emitter.note
  split <;> exact h

theorem atEnd_note {e : Emitter} (h : e.AtEnd) (text : String) : (e.note text).AtEnd :=
  ⟨by simpa using h.cursor, h.aligned.note text⟩

/-! ### Skipping -/

@[simp] theorem cursor_skip (e : Emitter) : e.skip.cursor = e.cursor + 1 := by
  unfold skip
  split <;> rfl

@[simp] theorem cursor_skipMany (e : Emitter) (n : Nat) :
    (e.skipMany n).cursor = e.cursor + n := by
  induction n generalizing e with
  | zero => rfl
  | succ n ih =>
    rw [skipMany, ih, cursor_skip]
    omega

/-- The cursor is behind what is reserved. -/
@[simp] theorem cursor_reserve (e : Emitter) (n : Nat) :
    (e.reserve n).2.cursor = e.cursor + n := cursor_skipMany e n

/-- What a skip preserves, many skips preserve. -/
theorem skipMany_of_skip {P : Emitter → Prop} (hskip : ∀ {e : Emitter}, P e → P e.skip)
    {e : Emitter} (h : P e) (n : Nat) : P (e.skipMany n) := by
  induction n generalizing e with
  | zero => exact h
  | succ n ih => exact ih (hskip h)

theorem Aligned.skip {e : Emitter} (h : e.Aligned) : e.skip.Aligned := by
  unfold Aligned at h ⊢
  unfold Emitter.skip
  split <;> simp [h]

/-- At the frontier a skip leaves a hole. -/
theorem contents_skip {e : Emitter} (h : e.AtEnd) :
    e.skip.contents = e.contents ++ [none] := by
  have hc : e.cursor = e.code.size := by simpa using h.cursor
  simp [contents, skip, hc]

theorem atEnd_skip {e : Emitter} (h : e.AtEnd) : e.skip.AtEnd := by
  refine ⟨?_, h.aligned.skip⟩
  rw [contents_skip h, cursor_skip, h.cursor]
  simp

theorem contents_skipMany {e : Emitter} (h : e.AtEnd) (n : Nat) :
    (e.skipMany n).contents = e.contents ++ List.replicate n none := by
  induction n generalizing e with
  | zero => simp [skipMany]
  | succ n ih =>
    rw [skipMany, ih (atEnd_skip h), contents_skip h, List.replicate_succ]
    simp

/-- Reserved addresses are holes. -/
theorem contents_reserve {e : Emitter} (h : e.AtEnd) (n : Nat) :
    (e.reserve n).2.contents = e.contents ++ List.replicate n none := contents_skipMany h n

theorem atEnd_reserve {e : Emitter} (h : e.AtEnd) (n : Nat) : (e.reserve n).2.AtEnd :=
  skipMany_of_skip (P := AtEnd) atEnd_skip h n

/-! ### Resuming and handing over -/

theorem Aligned.moved {e : Emitter} (h : e.Aligned) (cursor : Nat) :
    Emitter.Aligned { e with cursor } := h

/-- After resuming the cursor is at the frontier. -/
theorem Aligned.resume {e : Emitter} (h : e.Aligned) : e.resume.AtEnd :=
  ⟨by simp [Emitter.resume, frontier, contents], h⟩

/-- An emitter without holes hands over what it holds. -/
theorem finish_of_contents {e : Emitter} (haligned : e.Aligned) {c : Code}
    (h : e.contents = c.map some) : ∃ o, e.finish = .ok o ∧ o.instructions = c := by
  have hcode : e.code.toList = c.map some := h
  have hlength : c.length = e.comments.toList.length := by
    have hsize : e.comments.toList.length = e.code.toList.length := haligned
    rw [hsize, hcode, List.length_map]
  have hall : (c.map some).findIdx? Option.isNone = none :=
    List.findIdx?_eq_none_iff.mpr (by simp)
  unfold finish
  rw [hcode, hall]
  refine ⟨_, rfl, ?_⟩
  show (List.zipWith Line.mk ((c.map some).filterMap id) e.comments.toList).map
    (·.instruction) = c
  have hlines : (·.instruction) ∘ Function.uncurry Line.mk = Prod.fst := rfl
  rw [List.filterMap_map, ← List.map_uncurry_zip_eq_zipWith, List.map_map, hlines]
  have hfst := List.map_fst_zip (Nat.le_of_eq hlength)
  simpa using hfst

end Emitter

/-! ## Generator states -/

namespace GenState

/-- Code `c` was appended at the frontier. -/
structure Grown (s : GenState) (c : Code) (s' : GenState) : Prop where
  atEnd : s'.emitter.AtEnd
  contents : s'.emitter.contents = s.emitter.contents ++ c.map some

/-- The state after an instruction. -/
def emit (s : GenState) (i : Instruction) (comment : String) : GenState :=
  { s with emitter := s.emitter.write i comment }

/-- The state after a note. -/
def noted (s : GenState) (text : String) : GenState :=
  { s with emitter := s.emitter.note text }

@[simp] theorem temporaries_emit (s : GenState) (i : Instruction) (c : String) :
    (s.emit i c).temporaries = s.temporaries := rfl

@[simp] theorem entries_emit (s : GenState) (i : Instruction) (c : String) :
    (s.emit i c).entries = s.entries := rfl

@[simp] theorem temporaries_noted (s : GenState) (text : String) :
    (s.noted text).temporaries = s.temporaries := rfl

@[simp] theorem entries_noted (s : GenState) (text : String) :
    (s.noted text).entries = s.entries := rfl

theorem Grown.refl {s : GenState} (h : s.emitter.AtEnd) : s.Grown [] s := ⟨h, by simp⟩

theorem Grown.trans {s₁ s₂ s₃ : GenState} {c₁ c₂ : Code}
    (h₁ : s₁.Grown c₁ s₂) (h₂ : s₂.Grown c₂ s₃) :
    s₁.Grown (c₁ ++ c₂) s₃ :=
  ⟨h₂.atEnd, by rw [h₂.contents, h₁.contents]; simp⟩

/-- An instruction at the frontier. -/
theorem Grown.emit {s t : GenState} {c : Code}
    (h : s.Grown c t) (i : Instruction) (comment : String) :
    s.Grown (c ++ [i]) (t.emit i comment) := by
  refine ⟨Emitter.atEnd_write h.atEnd i comment, ?_⟩
  simp [GenState.emit, Emitter.contents_write_of_atEnd h.atEnd, h.contents]

theorem Grown.noted {s t : GenState} {c : Code} (h : s.Grown c t) (text : String) :
    s.Grown c (t.noted text) :=
  ⟨Emitter.atEnd_note h.atEnd text, by simpa [GenState.noted] using h.contents⟩

/-- The address at the cursor is the number of addresses below it. -/
theorem Grown.cursor {s s' : GenState} {c : Code} (hs : s.emitter.AtEnd) (h : s.Grown c s') :
    s'.emitter.cursor = s.emitter.cursor + c.length := by
  rw [h.atEnd.cursor, h.contents, hs.cursor]
  simp

end GenState

/-! ## Generators step by step

`Completes s g s' r` follows a generator and the construction of its code in step: `s` is the
state in which the construct was begun and `s'` the one reached by now. -/

namespace Gen

/-- From `s'` on, `g` completes the code `r` that was begun in `s`, or fails as `r` does. -/
def Completes (s : GenState) (g : Gen Unit) (s' : GenState) (r : Except Defect Code) : Prop :=
  match r with
  | .ok c => ∃ s'', g.run s' = .ok ((), s'') ∧ s.Grown c s'' ∧
      s''.temporaries = s.temporaries ∧ s''.entries = s.entries
  | .error d => g.run s' = .error d

/-- Where there is code the generator succeeds. -/
theorem Completes.run_ok {s s' : GenState} {g : Gen Unit} {r : Except Defect Code} {c : Code}
    (h : Completes s g s' r) (hr : r = .ok c) : ∃ s'', g.run s' = .ok ((), s'') := by
  subst hr
  obtain ⟨s'', hrun, _⟩ := h
  exact ⟨s'', hrun⟩

/-- What has been generated is the code. -/
theorem Completes.grown {s s' s'' : GenState} {g : Gen Unit}
    {r : Except Defect Code} (h : Completes s g s' r)
    (hrun : g.run s' = .ok ((), s'')) : ∃ c, r = .ok c ∧ s.Grown c s'' := by
  cases r with
  | error d => cases hrun.symm.trans h
  | ok c =>
    obtain ⟨u, hrun', hgrown, _⟩ := h
    cases hrun.symm.trans hrun'
    exact ⟨c, rfl, hgrown⟩

theorem Completes.of_run {α : Type} {s t u : GenState} {g : Gen α} {h : α → Gen Unit} {x : α}
    {r : Except Defect Code} (hrun : g.run t = .ok (x, u)) (hh : Completes s (h x) u r) :
    Completes s (g >>= h) t r := by
  have hrest : (g >>= h).run t = (h x).run u := by
    rw [StateT.run_bind, hrun]
    rfl
  unfold Completes at hh ⊢
  rw [hrest]
  exact hh

/-- A part of the construct. -/
theorem Completes.bind {s s' : GenState} {g h : Gen Unit} {r : Except Defect Code}
    {f : Code → Except Defect Code} (hg : Completes s' g s' r) (hh : ∀ c s'', s'.Grown c s'' →
      s''.temporaries = s'.temporaries → s''.entries = s'.entries →
      Completes s h s'' (f c)) :
    Completes s (g >>= fun _ => h) s' (r >>= f) := by
  cases r with
  | error d =>
    have hrun : g.run s' = .error d := hg
    show (g >>= fun _ => h).run s' = .error d
    rw [StateT.run_bind, hrun]
    rfl
  | ok c =>
    obtain ⟨s'', hrun, hgrown, ht, he⟩ := hg
    exact .of_run hrun (hh c s'' hgrown ht he)

/-- The last part of the construct. -/
theorem Completes.tail {s s' : GenState} {g : Gen Unit} {c : Code} {r : Except Defect Code}
    (hg : Completes s' g s' r) (hs : s.Grown c s') (ht : s'.temporaries = s.temporaries)
    (he : s'.entries = s.entries) : Completes s g s' (r >>= fun d => Pure.pure (c ++ d)) := by
  cases r with
  | error d => exact hg
  | ok d =>
    obtain ⟨s'', hrun, hgrown, ht', he'⟩ := hg
    exact ⟨s'', hrun, hs.trans hgrown, ht'.trans ht, he'.trans he⟩

/-- A look-up that both sides make. -/
theorem Completes.lookup {α : Type} {s s' : GenState} {l : Gen α} {x : Except Defect α}
    {g : α → Gen Unit} {f : α → Except Defect Code} (hrun : l.run s' = x.map (·, s'))
    (h : ∀ v, x = .ok v → Completes s (g v) s' (f v)) :
    Completes s (l >>= g) s' (x >>= f) := by
  cases x with
  | error d =>
    show (l >>= g).run s' = .error d
    rw [StateT.run_bind, hrun]
    rfl
  | ok v => exact .of_run hrun (h v rfl)

/-- A first step that may fail, in both ways of making code alike. -/
theorem Completes.lift {α : Type} {s s' : GenState} {x : Except Defect α} {g : α → Gen Unit}
    {f : α → Except Defect Code} (h : ∀ v, x = .ok v → Completes s (g v) s' (f v)) :
    Completes s (liftM x >>= g) s' (x >>= f) :=
  .lookup (by cases x <;> rfl) h

/-- Code that is complete. -/
theorem Completes.pure {s s' : GenState} {c : Code}
    (h : s.Grown c s') (ht : s'.temporaries = s.temporaries)
    (he : s'.entries = s.entries) : Completes s (Pure.pure ()) s' (.ok c) :=
  ⟨s', rfl, h, ht, he⟩

/-- A note in front changes no code. -/
theorem Completes.noted {s : GenState} {text : String} {g : Gen Unit} {r : Except Defect Code}
    (h : Completes (s.noted text) g (s.noted text) r) :
    Completes s (note text >>= fun _ => g) s r := by
  refine .of_run (u := s.noted text) rfl ?_
  cases r with
  | error d => exact h
  | ok c =>
    obtain ⟨s', hrun, hgrown, ht, he⟩ := h
    exact ⟨s', hrun, ⟨hgrown.atEnd, by simpa [GenState.noted] using hgrown.contents⟩, ht, he⟩

/-! ### Look-ups and single steps -/

theorem sum_eq (n : Int) : (Lookups.sum n : Gen Int) = Pure.pure n := rfl

theorem sizeOf_eq (a : Analysis) (type : TypeId) :
    (Lookups.sizeOf a type : Gen Int) = Pure.pure (a.types.size type) := rfl

/-- A write in the form that its operation has succeeds. -/
theorem emitting_run {write : Emitter → Option Emitter} {h : ∀ e, (write e).isSome}
    {s : GenState} {e : Emitter} (hw : write s.emitter = some e) :
    (emitting write h).run s = .ok ((), { s with emitter := e }) := by
  show Except.ok ((), { s with emitter := (write s.emitter).get (h s.emitter) }) = _
  rw [Option.get_of_eq_some (h s.emitter) hw]

/-- A memory instruction is written at the cursor. -/
theorem memory_run {s : GenState} {op : Opcode} (hop : op.form = .memory) {reg : Register}
    {offset : Word} {base : Register} {comment : String} :
    (memory op reg offset base comment hop).run s =
      .ok ((), s.emit (.memory op reg offset base) comment) :=
  emitting_run (s.emitter.memory?_of_form hop ..)

/-- A register instruction is written at the cursor. -/
theorem register_run {s : GenState} {op : Opcode} (hop : op.form = .register)
    {dst src1 src2 : Register} {comment : String} :
    (register op dst src1 src2 comment hop).run s =
      .ok ((), s.emit (.register op dst src1 src2) comment) :=
  emitting_run (s.emitter.register?_of_form hop ..)

/-- A jump is written with the distance to its target. -/
theorem relative_run {s : GenState} {op : Opcode} (hop : op.form = .memory) {reg : Register}
    {target : Nat} {comment : String} :
    (relative op reg target comment hop).run s =
      .ok ((), s.emit (.memory op reg (s.emitter.offsetTo target) .pc) comment) :=
  emitting_run (s.emitter.relative?_of_form hop ..)

theorem here_run (s : GenState) : here.run s = .ok (s.emitter.cursor, s) := rfl

theorem here_run_emit (s : GenState) (i : Instruction) (comment : String) :
    here.run (s.emit i comment) = .ok (s.emitter.cursor + 1, s.emit i comment) := by
  rw [here_run]
  simp [GenState.emit]

/-- A temporary is made below the last one, and `ac` is stored there. -/
theorem push_run (comment : String) (s : GenState) :
    (push comment).run s = .ok ((), { s with temporaries := s.temporaries - 1 }.emit
      (.memory .st .ac (Int64.ofInt (s.temporaries - 1)) .mp) comment) := rfl

/-- The temporary made last is loaded and given up. -/
theorem pop_run (reg : Register) (comment : String) (s : GenState) :
    (pop reg comment).run s = .ok ((), { s.emit
      (.memory .ld reg (Int64.ofInt s.temporaries) .mp) comment with
        temporaries := s.temporaries + 1 }) := rfl

/-! ### Holes -/

/-- The state with the cursor elsewhere. -/
def moved (s : GenState) (address : Nat) : GenState :=
  { s with emitter := { s.emitter with cursor := address } }

/-- The cursor goes to any address up to the frontier. -/
theorem seek_run {s : GenState} {address : Nat} (h : address ≤ s.emitter.contents.length) :
    (seek address).run s = .ok ((), moved s address) := by
  rw [Emitter.length_contents] at h
  have hseek : s.emitter.seek address = (.ok (), { s.emitter with cursor := address }) := by
    unfold Emitter.seek
    exact if_neg (Nat.not_lt.mpr h)
  show (do
    set { s with emitter := (s.emitter.seek address).2 }
    (liftM (s.emitter.seek address).1 : Gen Unit)).run s = .ok ((), moved s address)
  rw [hseek]
  rfl

/-- A write into a hole fills it and nothing else. -/
theorem contents_write_hole {e : Emitter} {before after : List (Option Instruction)}
    (h : e.contents = before ++ none :: after)
    (hc : e.cursor = before.length) (i : Instruction) (comment : String) :
    (e.write i comment).contents = before ++ some i :: after := by
  rw [Emitter.contents_write_of_lt (by rw [h, hc]; simp), h, hc]
  simp

/-- Addresses are kept free for later. -/
theorem Completes.reserve {s s' : GenState} {g : Nat → Gen Unit} {n : Nat}
    {r : Except Defect Code} (hs : s'.emitter.AtEnd) (hg : ∀ s'', s''.emitter.AtEnd →
      s''.emitter.contents = s'.emitter.contents ++ List.replicate n none →
      s''.temporaries = s'.temporaries → s''.entries = s'.entries →
      Completes s (g s'.emitter.contents.length) s'' r) :
    Completes s (Gen.reserve n >>= g) s' r := by
  have hrun : (Gen.reserve n).run s' =
      .ok (s'.emitter.cursor, { s' with emitter := (s'.emitter.reserve n).2 }) := rfl
  refine .of_run hrun ?_
  rw [hs.cursor]
  exact hg _ (Emitter.atEnd_reserve hs n) (Emitter.contents_reserve hs n) rfl rfl

/-- A jump is put into the hole that was kept for it. -/
theorem Completes.patch {s t : GenState} {g : Gen Unit} {r : Except Defect Code} {op : Opcode}
    {hop : op.form = .memory} {reg : Register} {target : Nat} {comment : String}
    {b c : List (Option Instruction)} (h : t.emitter.contents = b ++ none :: c)
    (ha : t.emitter.Aligned)
    (hg : ∀ u, u.emitter.contents = b ++
        some (.memory op reg (Int64.ofNat target - (Int64.ofNat b.length + 1)) .pc) :: c →
      u.emitter.Aligned → u.temporaries = t.temporaries → u.entries = t.entries →
      Completes s g u r) :
    Completes s (seek b.length >>= fun _ => relative op reg target comment hop >>=
      fun _ => g) t
      r := by
  refine .of_run (seek_run (by rw [h]; simp)) (.of_run (relative_run hop) ?_)
  refine hg _ ?_ (ha.moved b.length |>.write _ comment) rfl rfl
  exact contents_write_hole (e := (moved t b.length).emitter) h rfl _ comment

/-- An instruction is put into the hole at the cursor. -/
theorem Completes.fill {s t : GenState} {g : Gen Unit} {r : Except Defect Code} {op : Opcode}
    {hop : op.form = .memory} {reg : Register}
    {offset : Word} {base : Register} {comment : String}
    {b c : List (Option Instruction)} (h : t.emitter.contents = b ++ none :: c)
    (hc : t.emitter.cursor = b.length) (ha : t.emitter.Aligned)
    (hg : ∀ u, u.emitter.contents = b ++ some (.memory op reg offset base) :: c →
      u.emitter.cursor = b.length + 1 → u.emitter.Aligned → u.temporaries = t.temporaries →
      u.entries = t.entries → Completes s g u r) :
    Completes s (memory op reg offset base comment hop >>= fun _ => g) t r := by
  refine .of_run (memory_run hop) ?_
  refine hg _ (contents_write_hole h hc _ comment) ?_ (ha.write _ comment) rfl rfl
  rw [← hc]
  exact Emitter.cursor_write ..

/-- Back at the frontier, the holes being filled. -/
theorem Completes.resume {s s' : GenState} {g : Gen Unit} {c : Code} {r : Except Defect Code}
    (h : s'.emitter.contents = s.emitter.contents ++ c.map some) (ha : s'.emitter.Aligned)
    (hg : ∀ s'', s.Grown c s'' → s''.temporaries = s'.temporaries → s''.entries = s'.entries →
      Completes s g s'' r) :
    Completes s (Gen.resume >>= fun _ => g) s' r := by
  have hrun : Gen.resume.run s' = .ok ((), { s' with emitter := s'.emitter.resume }) := rfl
  exact .of_run hrun (hg _ ⟨ha.resume, h⟩ rfl rfl)

/-! ## Fixed sequences -/

/-- Wherever it starts, `g` appends the code `c` and changes nothing else. -/
def Emits (g : Gen Unit) (c : Code) : Prop := ∀ s : GenState, s.emitter.AtEnd →
    Completes s g s (.ok c)

theorem emits_memory {op : Opcode} {hop : op.form = .memory} {reg : Register} {offset : Word}
    {base : Register} {comment : String} :
    Emits (memory op reg offset base comment hop) [.memory op reg offset base] :=
  fun _ h => ⟨_, memory_run hop, (GenState.Grown.refl h).emit _ comment, rfl, rfl⟩

theorem emits_register {op : Opcode} {hop : op.form = .register} {dst src1 src2 : Register}
    {comment : String} :
    Emits (register op dst src1 src2 comment hop) [.register op dst src1 src2] :=
  fun _ h => ⟨_, register_run hop, (GenState.Grown.refl h).emit _ comment, rfl, rfl⟩

theorem emits_note {text : String} : Emits (note text) [] :=
  fun s h => ⟨s.noted text, rfl, (GenState.Grown.refl h).noted text, rfl, rfl⟩

theorem emits_pure : Emits (pure ()) [] := fun _ h => .pure (.refl h) rfl rfl

/-- What a fixed sequence appends becomes part of the code that grows since `b`. -/
theorem Emits.next {b s s' : GenState} {g h : Gen Unit} {c d : Code} {r : Except Defect Code}
    (hg : Emits g d) (hs : b.Grown c s') (hh : ∀ s'', b.Grown (c ++ d) s'' →
      s''.temporaries = s'.temporaries → s''.entries = s'.entries →
      Completes s h s'' r) :
    Completes s (g >>= fun _ => h) s' r := by
  obtain ⟨s'', hrun, hgrown, ht, he⟩ := hg s' hs.atEnd
  exact .of_run hrun (hh s'' (hs.trans hgrown) ht he)

/-- A fixed sequence completes the code under way. -/
theorem Emits.last {s t : GenState} {g : Gen Unit} {c d total : Code} (hg : Emits g d)
    (hs : s.Grown c t) (ht : t.temporaries = s.temporaries)
    (he : t.entries = s.entries) (htotal : c ++ d = total) :
    Completes s g t (.ok total) := by
  obtain ⟨u, hrun, hgrown, ht', he'⟩ := hg t hs.atEnd
  exact ⟨u, hrun, htotal ▸ hs.trans hgrown, ht'.trans ht, he'.trans he⟩

theorem Emits.seq {g h : Gen Unit} {c d : Code} (hg : Emits g c) (hh : Emits h d) :
    Emits (g >>= fun _ => h) (c ++ d) := fun _ hs =>
  hg.next (.refl hs) fun _ hs' ht he => hh.last hs' ht he rfl

/-- A fixed sequence for each item of a list. -/
theorem emits_forM {α : Type} {g : α → Gen Unit}
    {c : α → Code} (h : ∀ x, Emits (g x) (c x)) (l : List α) :
    Emits (l.forM g) (l.flatMap c) := by
  induction l with
  | nil => exact emits_pure
  | cons x rest ih =>
    rw [List.flatMap_cons]
    exact (h x).seq ih

theorem emits_relativeAddress {name : Ident} {constantPart : Int} :
    Emits (relativeAddress name constantPart)
      [.memory .ldc .ac (Int64.ofInt constantPart) .ac] := by
  unfold relativeAddress
  exact emits_memory

theorem emits_scaleIndex {name : Ident} {low : Word} {size constantPart : Int} :
    Emits (scaleIndex name low size constantPart)
    (Code.scaleIndex low size constantPart) := by
  unfold scaleIndex Code.scaleIndex
  split
  · exact emits_memory.seq (emits_memory.seq (emits_register.seq emits_memory))
  · exact emits_memory.seq emits_memory

/-- The base of a variable is added to an offset. -/
theorem emits_addBase (v : Variable) (name : Ident) :
    Emits (addBase v name) (Code.addBase v) := by
  unfold addBase Code.addBase
  split
  · exact emits_memory.seq (emits_memory.seq emits_register)
  · exact emits_memory.seq emits_register

theorem emits_compare {jump : Opcode} {hjump : jump.form = .memory} {comment : String} :
    Emits (operate.compare jump comment hjump) (Code.compare jump) :=
  emits_register.seq (emits_memory.seq (emits_memory.seq (emits_memory.seq emits_memory)))

/-- An operation on two values. -/
theorem emits_operate (op : BinaryOp) : Emits (operate op) (Code.operate op) := by
  unfold operate
  cases op with
  | add => exact emits_register
  | sub => exact emits_register
  | mul => exact emits_register
  | div => exact emits_register
  | less => exact emits_compare
  | equal => exact emits_compare

theorem emits_copyWords {count start : Int} {base : Register} {comment : String} :
    Emits (copyWords count start base comment) (Code.copyWords count start base) := by
  refine emits_forM (fun k => ?_) _
  show Emits (do
    memory .ld .ac1 (Int64.ofNat k) .ac comment
    memory .st .ac1 (Int64.ofInt (start + k)) base "") _
  exact emits_memory.seq emits_memory

theorem emits_saveRegisters (p : Procedure) :
    Emits (saveRegisters p) (Code.saveRegisters p) :=
  emits_memory.seq (emits_memory.seq (emits_memory.seq (emits_memory.seq
    (emits_memory.seq (emits_memory.seq emits_memory)))))

/-- The display of a new frame. -/
theorem emits_buildDisplay (p : Procedure) :
    Emits (buildDisplay p) (Code.buildDisplay p) := by
  show Emits (do
    (List.range p.level).forM fun k => do
      memory .ld .ac (Int64.ofNat k) .displayOff "caller display entry"
      memory .st .ac (Int64.ofInt (p.displayBase + k)) .top "copy to callee display"
    memory .st .top (Int64.ofInt (p.displayBase + p.level)) .top "callee display entry") _
  exact (emits_forM (fun _ => emits_memory.seq emits_memory) _).seq emits_memory

theorem emits_enterFrame (p : Procedure) : Emits (enterFrame p) (Code.enterFrame p) :=
  emits_memory.seq (emits_memory.seq emits_memory)

theorem emits_restoreRegisters : Emits restoreRegisters Code.restoreRegisters :=
  emits_memory.seq (emits_memory.seq (emits_memory.seq (emits_memory.seq
    (emits_memory.seq emits_memory))))

/-- The prologue of the main program. -/
theorem emits_mainPrologue (a : Analysis) : Emits (mainPrologue a) (Code.mainPrologue a) :=
  emits_note.seq (emits_memory.seq (emits_memory.seq (emits_memory.seq (emits_memory.seq
    (emits_memory.seq (emits_memory.seq emits_memory))))))

end Gen

open Gen

variable {checks : Checks}

/-! ## References and expressions -/

mutual

/-- An expression is generated as its code says, with as many temporaries in use afterwards as
before. -/
theorem Expr.generate_completes (a : Analysis) :
    ∀ (e : Expr) {s : GenState}, s.emitter.AtEnd →
    Completes s (e.generate a) s (e.code a s.temporaries)
  | .const _ value _, s, hs => by
    rw [Expr.generate, Expr.code]
    exact emits_memory s hs
  | .ref r, s, hs => by
    rw [Expr.generate, Expr.code]
    refine (Reference.generateAddress_completes a r hs).bind fun c s' hs' ht he => ?_
    exact emits_memory.last hs' ht he rfl
  | .binary _ op left right _, s, hs => by
    rw [Expr.generate, Expr.code]
    refine (Expr.generate_completes a left hs).bind fun l s₁ hs₁ ht₁ he₁ => ?_
    -- the temporary that holds the left operand is made before the right operand is looked at
    refine .of_run (push_run _ s₁) ?_
    have hs₂ : s.Grown (l ++ [.memory .st .ac (Int64.ofInt (s.temporaries - 1)) .mp])
        ({ s₁ with temporaries := s₁.temporaries - 1 }.emit
          (.memory .st .ac (Int64.ofInt (s₁.temporaries - 1)) .mp) "op: push left") := by
      rw [← ht₁]
      exact GenState.Grown.emit (t := { s₁ with temporaries := s₁.temporaries - 1 })
        ⟨hs₁.atEnd, hs₁.contents⟩ _ _
    generalize hpushed : GenState.emit { s₁ with temporaries := s₁.temporaries - 1 } _ _ = s₂
      at hs₂ ⊢
    have ht₂ : s₂.temporaries = s.temporaries - 1 := by rw [← hpushed, ← ht₁]; rfl
    have he₂ : s₂.entries = s.entries := by rw [← hpushed, ← he₁]; rfl
    rw [← ht₂]
    refine (Expr.generate_completes a right hs₂.atEnd).bind fun r s₃ hs₃ ht₃ he₃ => ?_
    refine .of_run (pop_run _ _ s₃) ?_
    have hs₄ :=
      (hs₂.trans hs₃).emit (.memory .ld .ac1 (Int64.ofInt s₃.temporaries) .mp) "op: load left"
    refine (emits_operate op).last (t := { s₃.emit _ _ with
        temporaries := s₃.temporaries + 1 }) ⟨hs₄.atEnd, hs₄.contents⟩ ?_ (he₃.trans he₂) ?_
    · show s₃.temporaries + 1 = s.temporaries
      omega
    · rw [ht₃, ht₂]
      simp

/-- The address of a reference. -/
theorem Reference.generateAddress_completes (a : Analysis) :
    ∀ (r : Reference Expr) {s : GenState},
    s.emitter.AtEnd → Completes s (r.generateAddress a) s (r.code a s.temporaries)
  | ⟨node, name, selector, span⟩, s, hs => by
    rw [Reference.generateAddress, Reference.code]
    refine .lift fun symbol _ => .lift fun v _ => ?_
    refine (Selector.generateRelative_completes a v name span selector hs).bind
      fun c s' hs' ht he => ?_
    exact (emits_addBase v name).last hs' ht he rfl

/-- The offset of a part within its variable. -/
theorem Selector.generateRelative_completes (a : Analysis)
    (v : Variable) (name : Ident) (span : Span) :
    ∀ (selector : Selector Expr) {s : GenState}, s.emitter.AtEnd →
      Completes s (selector.generateRelative a v name span) s
      (selector.code a s.temporaries v name span)
  | .whole, s, hs => by
    rw [Selector.generateRelative, Selector.code]
    exact emits_relativeAddress s hs
  | .element index, s, hs => by
    rw [Selector.generateRelative, Selector.code]
    refine .lift fun ⟨low, size⟩ _ => ?_
    refine (Expr.generate_completes a index hs).bind fun c s' hs' ht he => ?_
    exact emits_scaleIndex.last hs' ht he rfl
  | .field field, s, hs => by
    rw [Selector.generateRelative, Selector.code]
    exact .lift fun f _ => emits_relativeAddress s hs
  | .fieldElement field index, s, hs => by
    rw [Selector.generateRelative, Selector.code]
    refine .lift fun f _ => .lift fun ⟨low, size⟩ _ => ?_
    refine (Expr.generate_completes a index hs).bind fun c s' hs' ht he => ?_
    exact emits_scaleIndex.last hs' ht he rfl

end

/-! ## Calls -/

/-- An argument, by value or by address. -/
theorem Gen.passArgument_completes (a : Analysis) (arg : Expr) (param : SymbolId)
    {s : GenState} (hs : s.emitter.AtEnd) (ht : s.temporaries = 0) :
    Completes s (passArgument a arg param) s (arg.argumentCode a param) := by
  unfold passArgument Expr.argumentCode
  refine .lift fun v _ => ?_
  cases v.access with
  | indirect =>
    cases arg.asRef? with
    | none => rfl
    | some r =>
      rw [← ht]
      refine (Reference.generateAddress_completes a r hs).bind fun c s' hs' ht' he' => ?_
      exact emits_memory.last hs' ht' he' rfl
  | direct =>
    refine .of_run (x := a.types.size v.type) (u := s) rfl ?_
    split
    · rw [← ht]
      refine (Expr.generate_completes a arg hs).bind fun c s' hs' ht' he' => ?_
      exact emits_memory.last hs' ht' he' rfl
    · cases arg.asRef? with
      | none => rfl
      | some r =>
        rw [← ht]
        refine (Reference.generateAddress_completes a r hs).bind fun c s' hs' ht' he' => ?_
        exact emits_copyWords.last hs' ht' he' rfl

theorem Gen.passArguments_completes (a : Analysis) :
    ∀ (args : List Expr) (params : List SymbolId) {s : GenState},
    s.emitter.AtEnd → s.temporaries = 0 →
    Completes s (passArguments a args params) s (Expr.argumentsCode a args params)
  | [], _, s, hs, _ => .pure (.refl hs) rfl rfl
  | _ :: _, [], s, hs, _ => .pure (.refl hs) rfl rfl
  | arg :: args, param :: params, s, hs, ht => by
    rw [passArguments, Expr.argumentsCode]
    refine (passArgument_completes a arg param hs ht).bind fun c s' hs' ht' he' => ?_
    exact (Gen.passArguments_completes a args params hs'.atEnd (ht'.trans ht)).tail
      hs' ht' he'

/-- The entry of a procedure is found or missing in both ways of making code alike. -/
theorem Gen.entryOf_run (call : Call) (symbol : SymbolId) (s : GenState) :
    (entryOf call symbol).run s = (call.entry s.entries symbol).map (·, s) := by
  unfold entryOf Call.entry
  rw [StateT.run_bind, StateT.run_get, pure_bind]
  cases s.entries.lookup symbol <;> rfl

/-- The part of a call between its arguments and the return: the return address is known only
after the jump. -/
theorem Gen.Completes.transfer {s s₁ : GenState} {g : Gen Unit} {r : Except Defect Code}
    {p : Procedure} {entry : Nat} {comment : String} (hs : s₁.emitter.AtEnd)
    (hg : ∀ s', s₁.Grown (Code.transfer p entry s₁.emitter.cursor) s' →
      s'.temporaries = s₁.temporaries →
      s'.entries = s₁.entries → Completes s g s' r) :
    Completes s (do
      saveRegisters p
      let slot ← Gen.reserve 2
      buildDisplay p
      enterFrame p
      relative .lda .pc entry comment
      let returnAddress ← here
      seek slot
      memory .ldc .ac (Int64.ofNat returnAddress) .ac "return address"
      memory .st .ac Frame.returnAddress .top "save return address"
      Gen.resume
      g) s₁ r := by
  refine (emits_saveRegisters p).next (.refl hs) fun s₂ hs₂ ht₂ he₂ => ?_
  refine .reserve hs₂.atEnd fun s₃ hend₃ hcontents₃ ht₃ he₃ => ?_
  refine (emits_buildDisplay p).next (.refl hend₃) fun s₄ hs₄ ht₄ he₄ => ?_
  refine (emits_enterFrame p).next hs₄ fun s₅ hs₅ ht₅ he₅ => ?_
  have hcursor₅ : s₅.emitter.cursor = s₁.emitter.cursor + (Code.saveRegisters p).length + 2 +
      (Code.buildDisplay p ++ Code.enterFrame p).length := by
    rw [hs₅.atEnd.cursor, hs₅.contents, hcontents₃, hs₂.contents, hs.cursor]
    simp
    omega
  let jump : Instruction :=
    .memory .lda .pc (Int64.ofNat entry - (Int64.ofNat s₅.emitter.cursor + 1)) .pc
  refine .of_run (u := s₅.emit jump comment) (relative_run rfl) ?_
  refine .of_run (here_run_emit ..) ?_
  -- the address after the jump goes into the two holes
  have hholes : (s₅.emit jump comment).emitter.contents = s₂.emitter.contents ++
      none :: none :: (Code.buildDisplay p ++ Code.enterFrame p ++ [jump]).map some := by
    rw [(hs₅.emit jump comment).contents, hcontents₃]
    simp
  have haligned : (s₅.emit jump comment).emitter.Aligned :=
    hs₅.atEnd.aligned.write jump comment
  refine .of_run (seek_run (by rw [hholes]; simp)) ?_
  refine .fill (t := moved (s₅.emit jump comment) s₂.emitter.contents.length) hholes rfl
    haligned fun s₆ hcontents₆ hcursor₆ ha₆ ht₆ he₆ => ?_
  refine .fill (b := s₂.emitter.contents ++
    [some (.memory .ldc .ac (Int64.ofNat (s₅.emitter.cursor + 1)) .ac)])
    (c := (Code.buildDisplay p ++ Code.enterFrame p ++ [jump]).map some)
    (by rw [hcontents₆]; simp) (by rw [hcursor₆]; simp) ha₆
    fun s₇ hcontents₇ _ ha₇ ht₇ he₇ => ?_
  have htotal : s₇.emitter.contents =
      s₁.emitter.contents ++ (Code.transfer p entry s₁.emitter.cursor).map some := by
    rw [hcontents₇, hs₂.contents, Code.transfer, ← hcursor₅]
    simp [Code.saveReturn, jump]
  refine .of_run (u := { s₇ with emitter := s₇.emitter.resume }) rfl ?_
  refine hg _ ⟨ha₇.resume, htotal⟩ ?_ ?_
  · exact ht₇.trans (ht₆.trans (ht₅.trans (ht₄.trans (ht₃.trans ht₂))))
  · exact he₇.trans (he₆.trans (he₅.trans (he₄.trans (he₃.trans he₂))))

/-- A call: arguments and transfer of control. -/
theorem Call.generate_completes (a : Analysis) (call : Call)
    {s : GenState} (hs : s.emitter.AtEnd) (ht : s.temporaries = 0) :
    Completes s (call.generate a) s (call.code a s.entries s.emitter.cursor) := by
  unfold Call.generate Call.code
  refine .lift fun symbol _ => .lift fun p _ => ?_
  refine .lookup (entryOf_run call symbol s) fun entry _ => ?_
  refine emits_note.next (.refl hs) fun s₀ hs₀ ht₀ he₀ => ?_
  refine (passArguments_completes a call.args p.params hs₀.atEnd (ht₀.trans ht)).bind
    fun args s₁ hs₁ ht₁ he₁ => ?_
  refine .transfer hs₁.atEnd fun s₂ hs₂ ht₂ he₂ => ?_
  have hcursor : s₁.emitter.cursor = s.emitter.cursor + args.length := by
    simpa using (hs₀.trans hs₁).cursor hs
  rw [hcursor] at hs₂
  refine emits_restoreRegisters.next ((hs₀.trans hs₁).trans hs₂) fun s₃ hs₃ ht₃ he₃ => ?_
  exact emits_note.last hs₃ (ht₃.trans (ht₂.trans (ht₁.trans ht₀)))
    (he₃.trans (he₂.trans (he₁.trans he₀))) (by simp)

/-! ## Statements -/

/-- An assignment, of one word or of many. -/
theorem Gen.storeValue_completes (a : Analysis) (target : VarRef) (value : Expr) (span : Span)
    {s : GenState} (hs : s.emitter.AtEnd) (ht : s.temporaries = 0) :
    Completes s (storeValue a target value span) s (target.assignCode a value span) := by
  unfold storeValue Reference.assignCode
  refine .lift fun type _ => ?_
  rw [← ht]
  refine (Reference.generateAddress_completes a target hs).bind
    fun address s₁ hs₁ ht₁ he₁ => ?_
  refine emits_memory.next hs₁ fun s₂ hs₂ ht₂ he₂ => ?_
  have ht' : s₂.temporaries = s.temporaries := ht₂.trans ht₁
  dsimp only
  split
  · rw [← ht']
    refine (Expr.generate_completes a value hs₂.atEnd).bind fun v s₃ hs₃ ht₃ he₃ => ?_
    exact emits_memory.last (hs₂.trans hs₃) (ht₃.trans ht') (he₃.trans (he₂.trans he₁)) rfl
  · cases value.asRef? with
    | none => rfl
    | some source =>
      rw [← ht']
      refine (Reference.generateAddress_completes a source hs₂.atEnd).bind
        fun v s₃ hs₃ ht₃ he₃ => ?_
      exact emits_copyWords.last (hs₂.trans hs₃) (ht₃.trans ht')
        (he₃.trans (he₂.trans he₁)) rfl

/-- Where no temporary is in use, `g` does nothing; elsewhere it may do anything. -/
def Gen.Idle (g : Gen Unit) : Prop :=
  ∀ ⦃s : GenState⦄, s.temporaries = 0 → g.run s = .ok ((), s)

/-- The checks do nothing where no temporary is in use. -/
structure Gen.Harmless (checks : Checks) : Prop where
  before : ∀ span, Idle (checks.before span)
  after : ∀ span, Idle (checks.after span)

/-- The check for temporaries in use is harmless. -/
theorem Gen.harmless_checks (o : Options) : Harmless o.checks := by
  refine ⟨fun _ _ _ => rfl, fun span s hs => ?_⟩
  unfold Options.checks
  cases o.checkTemporaries with
  | false => rfl
  | true =>
    show (if s.temporaries = 0 then pure ()
      else throw (.unbalancedTemporaries s.temporaries span) : Gen Unit).run s = _
    rw [if_pos hs]
    rfl

/-- Wherever they are begun, the statements are generated as their code says. -/
def Stmt.Generated (a : Analysis) (checks : Checks) (ss : List Stmt) : Prop :=
  ∀ {s : GenState}, s.emitter.AtEnd → s.temporaries = 0 →
    Completes s (Stmt.generateAll a checks ss) s
    (Stmt.codeAll a s.entries s.emitter.cursor ss)

/-- A condition, and a hole behind it for the jump that depends on it. -/
theorem Expr.generate_test (a : Analysis) (condition : Expr) {s s₀ : GenState}
    {g : Nat → Gen Unit} {f : Code → Except Defect Code} (hs : s.emitter.AtEnd)
    (hs₀ : s.Grown [] s₀) (ht₀ : s₀.temporaries = 0) (hg : ∀ c s₁, s₁.emitter.AtEnd →
      s₁.emitter.contents = s.emitter.contents ++ c.map some ++ [none] →
      s₁.emitter.cursor = s.emitter.cursor + c.length + 1 → s₁.temporaries = s₀.temporaries →
      s₁.entries = s₀.entries →
      Completes s (g (s.emitter.contents ++ c.map some).length) s₁ (f c)) :
    Completes s (condition.generate a >>= fun _ => Gen.reserve 1 >>= g) s₀
    (condition.code a 0 >>= f) := by
  rw [← ht₀]
  refine (Expr.generate_completes a condition hs₀.atEnd).bind fun c s₁ hs₁ ht₁ he₁ => ?_
  refine .reserve hs₁.atEnd fun s₂ hend₂ hcontents₂ ht₂ he₂ => ?_
  have hcontents₁ : s₁.emitter.contents = s.emitter.contents ++ c.map some := by
    rw [hs₁.contents, hs₀.contents]
    simp
  rw [hcontents₁] at hcontents₂ ⊢
  refine hg c s₂ hend₂ hcontents₂ ?_ (ht₂.trans ht₁) (he₂.trans he₁)
  rw [hend₂.cursor, hcontents₂, hs.cursor]
  simp [Nat.add_assoc]

/-- A conditional has two holes, each filled once what it jumps over is there. -/
theorem Stmt.generate_ifElse_completes {a : Analysis} {checks : Checks}
    {thenBranch elseBranch : List Stmt} (hthen : Stmt.Generated a checks thenBranch)
    (helse : Stmt.Generated a checks elseBranch) (condition : Expr) (span : Span)
    {s : GenState} (hs : s.emitter.AtEnd) (ht : s.temporaries = 0) :
    Completes s ((Stmt.ifElse condition thenBranch elseBranch span).generate a checks) s
      ((Stmt.ifElse condition thenBranch elseBranch span).code a s.entries
        s.emitter.cursor) := by
  rw [Stmt.generate, Stmt.code]
  refine emits_note.next (.refl hs) fun s₀ hs₀ ht₀ he₀ => ?_
  refine condition.generate_test a hs hs₀
    (ht₀.trans ht) fun c s₁ hend₁ hcontents₁ hcursor₁ ht₁ he₁ => ?_
  rw [← hcursor₁, ← he₁.trans he₀]
  refine (hthen hend₁ (ht₁.trans (ht₀.trans ht))).bind fun t s₂ hs₂ ht₂ he₂ => ?_
  refine .reserve hs₂.atEnd fun s₃ hend₃ hcontents₃ ht₃ he₃ => ?_
  have hcursor₃ : s₃.emitter.cursor = s₁.emitter.cursor + t.length + 1 := by
    rw [hend₃.cursor, hcontents₃, hs₂.contents, hend₁.cursor]
    simp [Nat.add_assoc]
  refine .of_run (x := s₃.emitter.cursor) (u := s₃) rfl ?_
  rw [← hcursor₃, ← he₃.trans he₂]
  have ht₃' : s₃.temporaries = s.temporaries := ht₃.trans (ht₂.trans (ht₁.trans ht₀))
  refine (helse hend₃ (ht₃'.trans ht)).bind fun e s₄ hs₄ ht₄ he₄ => ?_
  refine .of_run (x := s₄.emitter.cursor) (u := s₄) rfl ?_
  -- both jumps are patched once the two branches stand
  refine .patch (c := t.map some ++ none :: e.map some) ?_ hs₄.atEnd.aligned
    fun s₅ hcontents₅ ha₅ ht₅ he₅ => ?_
  · rw [hs₄.contents, hcontents₃, hs₂.contents, hcontents₁]
    simp
  have hbefore : s₂.emitter.contents.length = (s.emitter.contents ++ c.map some ++
      some (.memory .jeq .ac (Int64.ofNat s₃.emitter.cursor - (Int64.ofNat
        (s.emitter.contents ++ c.map some).length + 1)) .pc) ::
        t.map some).length := by
    rw [hs₂.contents, hcontents₁]
    simp
  rw [hbefore]
  refine .patch (c := e.map some) ?_ ha₅ fun s₆ hcontents₆ ha₆ ht₆ he₆ => ?_
  · rw [hcontents₅]
    simp
  have htotal : s₆.emitter.contents = s.emitter.contents ++
      (c ++ Code.skipIfZero (t.length + 1) :: t ++ Code.skip e.length :: e).map some := by
    have hto : s₃.emitter.cursor = (s.emitter.contents ++ c.map some).length + 1 +
        (t.length + 1) := by
      rw [hcursor₃, hcursor₁, hs.cursor]
      simp
      omega
    have hend : s₄.emitter.cursor = s₂.emitter.contents.length + 1 + e.length := by
      rw [hs₄.atEnd.cursor, hs₄.contents, hcontents₃]
      simp
      omega
    rw [hcontents₆, ← hbefore, hto, hend, offset_forward, offset_forward]
    simp [Code.skipIfZero, Code.skip]
  refine .resume htotal ha₆ fun s₇ hs₇ ht₇ he₇ => ?_
  refine emits_note.last hs₇ ?_ ?_ (by simp)
  · exact ht₇.trans (ht₆.trans (ht₅.trans (ht₄.trans ht₃')))
  · exact he₇.trans
      (he₆.trans (he₅.trans (he₄.trans (he₃.trans (he₂.trans (he₁.trans he₀))))))

/-- A loop has one hole, filled once the jump back is written. -/
theorem Stmt.generate_whileDo_completes {a : Analysis} {checks : Checks} {body : List Stmt}
    (hbody : Stmt.Generated a checks body) (condition : Expr) (span : Span)
    {s : GenState} (hs : s.emitter.AtEnd) (ht : s.temporaries = 0) :
    Completes s ((Stmt.whileDo condition body span).generate a checks) s
      ((Stmt.whileDo condition body span).code a s.entries s.emitter.cursor) := by
  rw [Stmt.generate, Stmt.code]
  refine emits_note.next (.refl hs) fun s₀ hs₀ ht₀ he₀ => ?_
  refine .of_run (x := s₀.emitter.cursor) (u := s₀) rfl ?_
  refine condition.generate_test a hs hs₀
    (ht₀.trans ht) fun c s₁ hend₁ hcontents₁ hcursor₁ ht₁ he₁ => ?_
  rw [← hcursor₁, ← he₁.trans he₀]
  refine (hbody hend₁ (ht₁.trans (ht₀.trans ht))).bind fun b s₂ hs₂ ht₂ he₂ => ?_
  -- The jump back is written at the frontier, and only then the one out of the loop is
  -- patched.
  let jump : Instruction :=
    .memory .lda .pc (Int64.ofNat s₀.emitter.cursor - (Int64.ofNat s₂.emitter.cursor + 1)) .pc
  refine .of_run (u := s₂.emit jump "while: jmp back to test") (relative_run rfl) ?_
  have hs₃ := hs₂.emit jump "while: jmp back to test"
  refine .of_run (here_run_emit ..) ?_
  refine .patch (c := (b ++ [jump]).map some) ?_ hs₃.atEnd.aligned
    fun s₄ hcontents₄ ha₄ ht₄ he₄ => ?_
  · rw [hs₃.contents, hcontents₁]
    simp
  have htotal : s₄.emitter.contents = s.emitter.contents ++
      (c ++ Code.skipIfZero (b.length + 1) :: b ++ [Code.back (c.length + b.length + 2)]).map
      some := by
    have hcursor₀ : s₀.emitter.cursor = s.emitter.cursor := by simpa using hs₀.cursor hs
    have hcursor₂ : s₂.emitter.cursor = s.emitter.cursor + (c.length + b.length + 1) := by
      rw [hs₂.cursor hend₁, hcursor₁]
      omega
    have hto : s₂.emitter.cursor + 1 = (s.emitter.contents ++ c.map some).length + 1 +
        (b.length + 1) := by
      rw [hcursor₂, hs.cursor]
      simp
      omega
    have hjump : jump = Code.back (c.length + b.length + 2) := by
      simp only [jump]
      rw [hcursor₀, hcursor₂, offset_back]
      rfl
    rw [hcontents₄, hto, offset_forward, hjump]
    simp [Code.skipIfZero]
  refine .resume htotal ha₄ fun s₅ hs₅ ht₅ he₅ => ?_
  refine emits_note.last hs₅ ?_ ?_ (by simp)
  · exact ht₅.trans (ht₄.trans (ht₂.trans (ht₁.trans ht₀)))
  · exact he₅.trans (he₄.trans (he₂.trans (he₁.trans he₀)))

mutual

/-- A statement is generated as its code says, and leaves no temporary in use. -/
theorem Stmt.generate_completes (a : Analysis) (hchecks : Harmless checks) :
    ∀ (st : Stmt) {s : GenState}, s.emitter.AtEnd → s.temporaries = 0 →
    Completes s (st.generate a checks) s (st.code a s.entries s.emitter.cursor)
  | .assign target value span, s, hs, ht => by
    rw [Stmt.generate, Stmt.code]
    exact .noted
      (storeValue_completes a target value span ((GenState.Grown.refl hs).noted _).atEnd ht)
  | .ifElse condition thenBranch elseBranch span, _, hs, ht =>
    Stmt.generate_ifElse_completes (Stmt.generateAll_completes a hchecks thenBranch)
      (Stmt.generateAll_completes a hchecks elseBranch) condition span hs ht
  | .whileDo condition body span, _, hs, ht =>
    Stmt.generate_whileDo_completes
      (Stmt.generateAll_completes a hchecks body) condition span hs ht
  | .read target _, s, hs, ht => by
    rw [Stmt.generate, Stmt.code]
    refine emits_note.next (.refl hs) fun s₀ hs₀ ht₀ he₀ => ?_
    rw [← ht₀.trans ht]
    refine (Reference.generateAddress_completes a target hs₀.atEnd).bind
      fun address s₁ hs₁ ht₁ he₁ => ?_
    refine emits_memory.next (hs₀.trans hs₁) fun s₂ hs₂ ht₂ he₂ => ?_
    refine emits_register.next hs₂ fun s₃ hs₃ ht₃ he₃ => ?_
    exact emits_memory.last hs₃ (ht₃.trans (ht₂.trans (ht₁.trans ht₀)))
      (he₃.trans (he₂.trans (he₁.trans he₀))) (by simp)
  | .write value _, s, hs, ht => by
    rw [Stmt.generate, Stmt.code]
    refine emits_note.next (.refl hs) fun s₀ hs₀ ht₀ he₀ => ?_
    rw [← ht₀.trans ht]
    refine (Expr.generate_completes a value hs₀.atEnd).bind fun v s₁ hs₁ ht₁ he₁ => ?_
    exact emits_register.last (hs₀.trans hs₁) (ht₁.trans ht₀) (he₁.trans he₀) (by simp)
  | .call c, s, hs, ht => by
    rw [Stmt.generate, Stmt.code]
    exact c.generate_completes a hs ht
  | .ret _, s, hs, ht => by
    rw [Stmt.generate, Stmt.code]
    exact emits_memory s hs

theorem Stmt.generateAll_completes (a : Analysis) (hchecks : Harmless checks) :
    ∀ ss : List Stmt, Stmt.Generated a checks ss
  | [], s, hs, _ => by
    rw [Stmt.generateAll, Stmt.codeAll]
    exact .pure (.refl hs) rfl rfl
  | st :: rest, s, hs, ht => by
    rw [Stmt.generateAll, Stmt.codeAll]
    refine .of_run (hchecks.before st.span ht) ?_
    refine (Stmt.generate_completes a hchecks st hs ht).bind fun c s₁ hs₁ ht₁ he₁ => ?_
    refine .of_run (hchecks.after st.span (ht₁.trans ht)) ?_
    rw [← hs₁.cursor hs, ← he₁]
    exact (Stmt.generateAll_completes a hchecks rest hs₁.atEnd (ht₁.trans ht)).tail
      hs₁ ht₁ he₁

end

/-! ## Procedures

A procedure adds entries as well as code. -/

namespace Gen

/-- From `s'` on, `g` completes the code that was begun in `s` and has the entries that `r`
gives, or fails as `r` does. -/
def Declares (s : GenState) (g : Gen Unit) (s' : GenState)
    (r : Except Defect (Code × Entries)) : Prop :=
  match r with
  | .ok (c, entries) => ∃ s'', g.run s' = .ok ((), s'') ∧
      s.Grown c s'' ∧ s''.temporaries = s.temporaries ∧
      s''.entries = entries
  | .error d => g.run s' = .error d

theorem Declares.of_run {α : Type} {s t u : GenState} {g : Gen α} {h : α → Gen Unit} {x : α}
    {r : Except Defect (Code × Entries)}
    (hrun : g.run t = .ok (x, u)) (hh : Declares s (h x) u r) :
    Declares s (g >>= h) t r := by
  have hrest : (g >>= h).run t = (h x).run u := by
    rw [StateT.run_bind, hrun]
    rfl
  unfold Declares at hh ⊢
  rw [hrest]
  exact hh

theorem Declares.of_error {s s' : GenState} {g h : Gen Unit}
    {d : Defect} (hrun : g.run s' = .error d) :
    Declares s (g >>= fun _ => h) s' (.error d) := by
  show (g >>= fun _ => h).run s' = .error d
  rw [StateT.run_bind, hrun]
  rfl

theorem Declares.lift {α : Type} {s s' : GenState} {x : Except Defect α} {g : α → Gen Unit}
    {f : α → Except Defect (Code × Entries)}
    (h : ∀ v, x = .ok v → Declares s (g v) s' (f v)) :
    Declares s (liftM x >>= g) s' (x >>= f) := by
  cases x with
  | error d =>
    exact (rfl : (liftM (Except.error d : Except Defect α) >>= g).run s' = .error d)
  | ok v => exact h v rfl

/-- A body, which adds no entries. -/
theorem Completes.bindDeclares {s s' : GenState} {g h : Gen Unit} {r : Except Defect Code}
    {f : Code → Except Defect (Code × Entries)} (hg : Completes s' g s' r)
    (hh : ∀ c s'', s'.Grown c s'' → s''.temporaries = s'.temporaries →
      s''.entries = s'.entries →
      Declares s h s'' (f c)) :
    Declares s (g >>= fun _ => h) s' (r >>= f) := by
  cases r with
  | error d => exact .of_error hg
  | ok c =>
    obtain ⟨s'', hrun, hgrown, ht, he⟩ := hg
    exact .of_run hrun (hh c s'' hgrown ht he)

/-- Procedures one after the other; the second finds the entries of the first. -/
theorem Declares.bind {s s' : GenState} {g h : Gen Unit} {r : Except Defect (Code × Entries)}
    {f : Code × Entries → Except Defect (Code × Entries)} (hg : Declares s' g s' r)
    (hh : ∀ c s'', s'.Grown c s'' → s''.temporaries = s'.temporaries →
      Declares s h s'' (f (c, s''.entries))) :
    Declares s (g >>= fun _ => h) s' (r >>= f) := by
  cases r with
  | error d => exact .of_error hg
  | ok r =>
    obtain ⟨s'', hrun, hgrown, ht, he⟩ := hg
    refine .of_run hrun ?_
    have hnext := hh r.1 s'' hgrown ht
    rw [he] at hnext
    exact hnext

/-- Procedures behind code that is there already. -/
theorem Declares.tail {s s' : GenState} {g : Gen Unit}
    {c : Code} {r : Except Defect (Code × Entries)}
    (hg : Declares s' g s' r) (hs : s.Grown c s') (ht : s'.temporaries = s.temporaries) :
    Declares s g s' (r >>= fun d => Pure.pure (c ++ d.1, d.2)) := by
  cases r with
  | error d => exact hg
  | ok d =>
    obtain ⟨s'', hrun, hgrown, ht', he'⟩ := hg
    exact ⟨s'', hrun, hs.trans hgrown, ht'.trans ht, he'⟩

/-- The jump over code that now stands behind the hole that was kept for it at `b`. -/
theorem Declares.patchSkip {s b s' : GenState} {g : Gen Unit}
    {c : Code} {r : Except Defect (Code × Entries)}
    {comment : String} (hb : b.emitter.AtEnd) (hend : s'.emitter.AtEnd)
    (hholes : s'.emitter.contents = b.emitter.contents ++ none :: c.map some)
    (hg : ∀ s'', b.Grown (Code.skip c.length :: c) s'' → s''.temporaries = s'.temporaries →
      s''.entries = s'.entries → Declares s g s'' r) :
    Declares s (do
      let after ← here
      seek b.emitter.cursor
      relative .lda .pc after comment
      Gen.resume
      g) s' r := by
  have hskip : Int64.ofNat s'.emitter.cursor - (Int64.ofNat b.emitter.cursor + 1) =
      Int64.ofNat c.length := by
    have hcursor : s'.emitter.cursor = b.emitter.cursor + 1 + c.length := by
      rw [hend.cursor, hholes, hb.cursor]
      simp
      omega
    rw [hcursor, offset_forward]
  refine .of_run (here_run s') ?_
  refine .of_run (seek_run (by rw [hholes, hb.cursor]; simp)) ?_
  let jump : Instruction :=
    .memory .lda .pc (Int64.ofNat s'.emitter.cursor - (Int64.ofNat b.emitter.cursor + 1)) .pc
  let s₁ : GenState := (moved s' b.emitter.cursor).emit jump comment
  have hcontents :
      s₁.emitter.contents = b.emitter.contents ++ (Code.skip c.length :: c).map some := by
    have hfilled :=
      contents_write_hole (e := (moved s' b.emitter.cursor).emitter) hholes hb.cursor
        jump comment
    simpa [s₁, jump, GenState.emit, hskip, Code.skip] using hfilled
  have haligned : s₁.emitter.Aligned :=
    (hend.aligned.moved b.emitter.cursor).write jump comment
  refine .of_run (u := s₁) (relative_run rfl) ?_
  refine .of_run (x := ()) (u := { s₁ with emitter := s₁.emitter.resume }) rfl ?_
  exact hg _ ⟨haligned.resume, hcontents⟩ rfl rfl

/-- A fixed sequence at the end of a procedure. -/
theorem Emits.declares {s s' : GenState} {g : Gen Unit} {c d total : Code} (hg : Emits g d)
    (hs : s.Grown c s') (ht : s'.temporaries = s.temporaries) (htotal : c ++ d = total) :
    Declares s g s' (.ok (total, s'.entries)) := by
  obtain ⟨s'', hrun, hgrown, ht', he'⟩ := hg s' hs.atEnd
  exact ⟨s'', hrun, htotal ▸ hs.trans hgrown, ht'.trans ht, he'⟩

end Gen

mutual

/-- A declaration is generated as its code says, with the same entries. -/
theorem Decl.generate_declares (a : Analysis) (hchecks : Harmless checks) :
    ∀ (d : Decl) {s : GenState}, s.emitter.AtEnd → s.temporaries = 0 →
    Declares s (d.generate a checks) s (d.code a s.entries s.emitter.cursor)
  | .types .., s, hs, _ => by
    rw [Decl.generate, Decl.code]
    exact emits_pure.declares (.refl hs) rfl rfl
  | .vars .., s, hs, _ => by
    rw [Decl.generate, Decl.code]
    exact emits_pure.declares (.refl hs) rfl rfl
  | .procedure ⟨node, name, _, decls, body, _⟩, s, hs, ht => by
    rw [Decl.generate, Decl.code]
    refine .lift fun symbol _ => .lift fun p _ => ?_
    let s₁ : GenState := { s with entries := (symbol, s.emitter.cursor) :: s.entries }
    let s₂ : GenState := s₁.noted s!"-> procedure {name.name}"
    have hs₂ : s.Grown [] s₂ :=
      GenState.Grown.noted (t := s₁) ⟨hs, (List.append_nil _).symm⟩ _
    refine .of_run (x := ()) (u := s₁) rfl (.of_run (x := ()) (u := s₂) rfl ?_)
    have hcursor₂ : s₂.emitter.cursor = s.emitter.cursor := by simpa using hs₂.cursor hs
    have hnested := Decl.generateNested_declares a hchecks decls hs₂.atEnd ht
    rw [hcursor₂] at hnested
    refine hnested.bind fun nested s₃ hs₃ ht₃ => ?_
    have hcursor₃ : s₃.emitter.cursor = s.emitter.cursor + nested.length := by
      simpa using (hs₂.trans hs₃).cursor hs
    have hbody := Stmt.generateAll_completes a hchecks body hs₃.atEnd (ht₃.trans ht)
    rw [hcursor₃] at hbody
    refine hbody.bindDeclares fun b s₄ hs₄ ht₄ he₄ => ?_
    rw [← he₄]
    have hleave : Emits (do
        memory .ld .pc Frame.returnAddress .sp s!"return from {name.name}"
        note s!"<- procedure {name.name}") Code.leave := emits_memory.seq emits_note
    exact hleave.declares ((hs₂.trans hs₃).trans hs₄) (ht₄.trans ht₃) rfl

/-- Procedures nested in another one. -/
theorem Decl.generateNested_declares (a : Analysis) (hchecks : Harmless checks) :
    ∀ (ds : List Decl) {s : GenState}, s.emitter.AtEnd → s.temporaries = 0 →
    Declares s (Decl.generateNested a checks ds) s
    (Decl.nestedCode a s.entries s.emitter.cursor ds)
  | [], s, hs, _ => by
    rw [Decl.generateNested, Decl.nestedCode]
    exact emits_pure.declares (.refl hs) rfl rfl
  | .types .. :: rest, s, hs, ht => by
    rw [Decl.generateNested, Decl.nestedCode]
    · exact Decl.generateNested_declares a hchecks rest hs ht
    · intros; contradiction
  | .vars .. :: rest, s, hs, ht => by
    rw [Decl.generateNested, Decl.nestedCode]
    · exact Decl.generateNested_declares a hchecks rest hs ht
    · intros; contradiction
  | .procedure p :: rest, s, hs, ht => by
    rw [Decl.generateNested, Decl.nestedCode]
    let s₁ : GenState := { s with emitter := (s.emitter.reserve 1).2 }
    have hend₁ : s₁.emitter.AtEnd := Emitter.atEnd_reserve hs 1
    have hcontents₁ : s₁.emitter.contents = s.emitter.contents ++ [none] :=
      Emitter.contents_reserve hs 1
    have hcursor₁ : s₁.emitter.cursor = s.emitter.cursor + 1 := Emitter.cursor_reserve _ 1
    refine .of_run (x := s.emitter.cursor) (u := s₁) rfl ?_
    have hp := Decl.generate_declares a hchecks (.procedure p) hend₁ ht
    rw [hcursor₁] at hp
    refine hp.bind fun c s₂ hs₂ ht₂ => ?_
    have hholes : s₂.emitter.contents = s.emitter.contents ++ none :: c.map some := by
      rw [hs₂.contents, hcontents₁]
      simp
    refine .patchSkip hs hs₂.atEnd hholes fun s₃ hs₃ ht₃ he₃ => ?_
    have hcursor₃ : s₃.emitter.cursor = s.emitter.cursor + 1 + c.length := by
      rw [hs₃.cursor hs, List.length_cons]
      omega
    have hrest :=
      Decl.generateNested_declares a hchecks rest hs₃.atEnd (ht₃.trans (ht₂.trans ht))
    rw [hcursor₃, he₃] at hrest
    exact hrest.tail hs₃ (ht₃.trans ht₂)

end

/-! ## Programs -/

theorem Decl.forM_generate_declares (a : Analysis) (hchecks : Harmless checks)
    (ds : List Decl) {s : GenState} (hs : s.emitter.AtEnd) (ht : s.temporaries = 0) :
    Declares s (ds.forM (Decl.generate a checks)) s
    (Decl.codeAll a s.entries s.emitter.cursor ds) := by
  induction ds generalizing s with
  | nil => exact emits_pure.declares (.refl hs) rfl rfl
  | cons d rest ih =>
    refine (Decl.generate_declares a hchecks d hs ht).bind fun c s₁ hs₁ ht₁ => ?_
    have hrest := ih hs₁.atEnd (ht₁.trans ht)
    rw [hs₁.cursor hs] at hrest
    exact hrest.tail hs₁ ht₁

/-- A whole program, in an emitter that is still empty. -/
theorem Program.generateCode_declares (p : Program) (a : Analysis)
    (hchecks : Harmless checks) {s : GenState} (hs : s.emitter.AtEnd)
    (hcursor : s.emitter.cursor = 0) (ht : s.temporaries = 0) (he : s.entries = []) :
    Declares s (p.generateCode a checks) s (do
      let (procedures, entries) ← Decl.codeAll a [] (Code.opening.length + 1) p.decls
      let start := Code.opening.length + 1 + procedures.length + (Code.mainPrologue a).length
      let body ← Stmt.codeAll a entries start p.body
      return (Code.opening ++ Code.skip procedures.length :: procedures ++
        Code.mainPrologue a ++ body ++ [Code.halt], entries)) := by
  unfold Program.generateCode
  let s₀ : GenState :=
    (s.noted s!"TM code for program {p.name.name}").noted "standard prelude"
  have hs₀ : s.Grown [] s₀ := ((GenState.Grown.refl hs).noted _).noted _
  let s₁ : GenState :=
    (s₀.emit (.memory .ld .mp 0 .ac) "load maxaddress from location 0").emit
    (.memory .st .ac 0 .ac) "clear location 0"
  have hs₁ : s.Grown Code.opening s₁ := (hs₀.emit _ _).emit _ _
  refine .of_run (x := ()) rfl (.of_run (x := ()) (u := s₀) rfl (.of_run (memory_run rfl)
    (.of_run (u := s₁) (memory_run rfl) ?_)))
  -- One address is reserved for the jump over the procedures.
  let s₂ : GenState := { s₁ with emitter := (s₁.emitter.reserve 1).2 }
  have hend₂ : s₂.emitter.AtEnd := Emitter.atEnd_reserve hs₁.atEnd 1
  have hcontents₂ : s₂.emitter.contents = s₁.emitter.contents ++ [none] :=
    Emitter.contents_reserve hs₁.atEnd 1
  have hcursor₂ : s₂.emitter.cursor = Code.opening.length + 1 := by
    rw [Emitter.cursor_reserve, hs₁.cursor hs, hcursor, Nat.zero_add]
  refine .of_run (x := s₁.emitter.cursor) (u := s₂) rfl ?_
  have hprocedures := Decl.forM_generate_declares a hchecks p.decls hend₂ ht
  have he₂ : s₂.entries = [] := he
  rw [hcursor₂, he₂] at hprocedures
  refine hprocedures.bind fun procedures s₃ hs₃ ht₃ => ?_
  have hholes : s₃.emitter.contents = s₁.emitter.contents ++ none :: procedures.map some := by
    rw [hs₃.contents, hcontents₂]
    simp
  -- The jump is filled in once the length of the procedures is known.
  refine .patchSkip hs₁.atEnd hs₃.atEnd hholes fun s₄ hs₄ ht₄ he₄ => ?_
  obtain ⟨s₅, hrun₅, hs₅, ht₅, he₅⟩ := emits_mainPrologue a s₄ hs₄.atEnd
  refine .of_run hrun₅ ?_
  have hgrown : s.Grown
      (Code.opening ++ Code.skip procedures.length :: procedures ++ Code.mainPrologue a) s₅ :=
    (hs₁.trans hs₄).trans hs₅
  have hcursor₅ : s₅.emitter.cursor =
      Code.opening.length + 1 + procedures.length + (Code.mainPrologue a).length := by
    rw [hgrown.cursor hs, hcursor]
    simp
    omega
  have hbody := Stmt.generateAll_completes a hchecks p.body hs₅.atEnd
    (ht₅.trans (ht₄.trans (ht₃.trans ht)))
  rw [hcursor₅, he₅.trans he₄] at hbody
  refine hbody.bindDeclares fun body s₆ hs₆ ht₆ he₆ => ?_
  have hhalt : Emits (do
      note "end of execution"
      register .halt .ac .ac .ac "") [Code.halt] := emits_note.seq emits_register
  have hdone := hhalt.declares (hgrown.trans hs₆) (ht₆.trans (ht₅.trans (ht₄.trans ht₃))) rfl
  rw [he₆.trans (he₅.trans he₄)] at hdone
  exact hdone

/-- What an empty emitter has at the end of a generation is the code. -/
theorem Gen.Declares.finish {s : GenState} {g : Gen Unit} {r : Except Defect (Code × Entries)}
    (h : Declares s g s r) (hs : s.emitter.contents = []) :
    ((g.run s).bind fun x => x.2.emitter.finish).map (·.instructions) = r.map (·.1) := by
  cases r with
  | error d =>
    have hrun : g.run s = .error d := h
    rw [hrun]
    rfl
  | ok r =>
    obtain ⟨s', hrun, hgrown, -, -⟩ := h
    obtain ⟨code, hfinish, hcode⟩ :=
      Emitter.finish_of_contents (c := r.1) hgrown.atEnd.aligned
        (by rw [hgrown.contents, hs]; rfl)
    rw [hrun]
    show (s'.emitter.finish).map (·.instructions) = .ok r.1
    rw [hfinish, ← hcode]
    rfl

/-- Generation gives the code of the parts, or fails as their construction does; the options
play no role. -/
theorem Program.instructions_generate (p : Program) (a : Analysis) (o : Options) :
    (p.generate a o).map (·.instructions) = p.code a := by
  have h := (p.generateCode_declares a (harmless_checks o)
    (s := { emitter := { trace := o.trace } }) ⟨rfl, rfl⟩ rfl rfl rfl).finish rfl
  refine Eq.trans h ?_
  unfold Program.code
  cases Decl.codeAll a [] (Code.opening.length + 1) p.decls with
  | error d => rfl
  | ok r =>
    obtain ⟨procedures, entries⟩ := r
    simp only [bind, Except.bind]
    cases Stmt.codeAll a entries _ p.body <;> rfl

end BlockLang
