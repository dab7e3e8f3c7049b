import BlockLang.Proofs.StrictGeneration

/-!
# Options of the generator

The options of the generator decide whether it keeps comments and notes, and whether it
insists after every statement that no temporary is in use. Neither changes an instruction,
and the second changes nothing at all: between statements no temporary is ever in use.

To say the latter, `Program.generateWith` leaves open what the generator does before and
after a statement. Anything will do, as long as it does nothing where no temporary is in
use, because it never sees another state. `Program.generate_options` has all of this.

* `Gen.Tidy g`: wherever it starts, `g` gives back the temporaries that it takes, and
  keeps no comment unless comments were kept before (`GenState.Keeps`). It is proved of
  every part of the generator, by the way in which parts are put together
  (`Gen.Tidy.bind`, `Gen.Tidy.bracket`). A push and the pop that belongs to it are tidy
  only together.
* `Gen.Agree g g'`: from a state without temporaries `g` and `g'` do the same, and come to
  a state without temporaries again. Tidy generators agree with themselves, checks that
  are harmless agree with each other (`Gen.Idle.agree`), and agreement is kept by putting
  parts together (`Gen.Agree.bind`), where the state between two parts is seen to have no
  temporary in use. The tree follows: `Stmt.agree_generate`, `Decl.agree_generate`.
* `Program.generate_alike` compares any two choices of options through the code of the
  parts, which knows no options.
-/

namespace BlockLang

open Gen

/-! ## What generating leaves as it was -/

/-- No comment and no note has been kept, and none will be. -/
structure Emitter.Quiet (e : Emitter) : Prop where
  trace : e.trace = false
  notes : e.notes = #[]
  comments : ∀ comment ∈ e.comments, comment = none

namespace Emitter.Quiet

variable {e : Emitter}

theorem write (h : e.Quiet) (i : Instruction) (comment : String) :
    (e.write i comment).Quiet := by
  have hnew : e.kept comment = none := by simp [Emitter.kept, h.trace]
  unfold Emitter.write
  rw [hnew]
  split
  · refine ⟨h.trace, h.notes, fun c hc => ?_⟩
    rcases Array.mem_push.mp hc with hc | rfl
    · exact h.comments c hc
    · rfl
  · refine ⟨h.trace, h.notes, fun c hc => ?_⟩
    rcases Array.mem_or_eq_of_mem_setIfInBounds hc with hc | rfl
    · exact h.comments c hc
    · rfl

theorem note (h : e.Quiet) (text : String) : (e.note text).Quiet := by
  simpa [Emitter.note, h.trace] using h

theorem skip (h : e.Quiet) : e.skip.Quiet := by
  unfold Emitter.skip
  split
  · refine ⟨h.trace, h.notes, fun c hc => ?_⟩
    rcases Array.mem_push.mp hc with hc | rfl
    · exact h.comments c hc
    · rfl
  · exact ⟨h.trace, h.notes, h.comments⟩

theorem reserve (h : e.Quiet) (count : Nat) : (e.reserve count).2.Quiet :=
  Emitter.skipMany_of_skip (P := Emitter.Quiet) skip h count

theorem moved (h : e.Quiet) (cursor : Nat) : { e with cursor }.Quiet :=
  ⟨h.trace, h.notes, h.comments⟩

/-- What is handed over has no comments and no notes. -/
theorem finish (h : e.Quiet) {code : ObjectCode} (hfinish : e.finish = .ok code) :
    code.notes = [] ∧ ∀ l ∈ code.lines, l.comment = none := by
  unfold Emitter.finish at hfinish
  split at hfinish
  · cases hfinish
  · cases hfinish
    refine ⟨by simp [h.notes, Note.sort], fun l hl => ?_⟩
    rw [← List.map_uncurry_zip_eq_zipWith] at hl
    obtain ⟨⟨i, comment⟩, hmem, rfl⟩ := List.mem_map.mp hl
    exact h.comments comment (Array.mem_toList_iff.mp (List.of_mem_zip hmem).2)

end Emitter.Quiet

/-- From `s` to `s'` the temporaries are the same again, and comments are kept only if they
were before. -/
structure GenState.Keeps (s s' : GenState) : Prop where
  temporaries : s'.temporaries = s.temporaries
  quiet : s.emitter.Quiet → s'.emitter.Quiet

theorem GenState.Keeps.refl (s : GenState) : s.Keeps s := ⟨rfl, id⟩

theorem GenState.Keeps.trans {s s' s'' : GenState} (h : s.Keeps s') (h' : s'.Keeps s'') :
    s.Keeps s'' :=
  ⟨h'.temporaries.trans h.temporaries, fun hs => h'.quiet (h.quiet hs)⟩

namespace Gen

variable {α β : Type}

theorem run_bind_eq_ok {g : Gen α} {f : α → Gen β} {s s'' : GenState}
    {y : β} (h : (g >>= f).run s = .ok (y, s'')) :
    ∃ x s', g.run s = .ok (x, s') ∧ (f x).run s' = .ok (y, s'') := by
  rw [StateT.run_bind] at h
  obtain ⟨⟨x, s'⟩, hg, hf⟩ := Except.bind_eq_ok h
  exact ⟨x, s', hg, hf⟩

/-- Wherever it starts, `g` ends with the temporaries that it found. -/
def Tidy (g : Gen α) : Prop :=
  ∀ ⦃s : GenState⦄ ⦃x : α⦄ ⦃s' : GenState⦄, g.run s = .ok (x, s') → s.Keeps s'

theorem Tidy.bind {g : Gen α} {f : α → Gen β} (hg : Tidy g) (hf : ∀ x, Tidy (f x)) :
    Tidy (g >>= f) := by
  intro s y s'' h
  obtain ⟨x, s', hrun, hrest⟩ := run_bind_eq_ok h
  exact (hg hrun).trans (hf x hrest)

theorem tidy_pure (x : α) : Tidy (pure x) := by
  intro s y s' h
  cases h
  exact .refl s

theorem tidy_sum {n : Int} : Tidy (Lookups.sum n : Gen Int) := tidy_pure n

theorem tidy_sizeOf {a : Analysis} {type : TypeId} : Tidy (Lookups.sizeOf a type : Gen Int) :=
  tidy_pure _

theorem tidy_throw (d : Defect) : Tidy (throw d : Gen α) := by
  intro s y s' h
  cases h

/-- A look-up changes nothing. -/
theorem tidy_lift (x : Except Defect α) : Tidy (liftM x : Gen α) := by
  intro s y s' h
  cases x with
  | error d => cases h
  | ok x =>
    cases h
    exact .refl s

theorem tidy_memory {op : Opcode} {hop : op.form = .memory} {reg : Register} {offset : Word}
    {base : Register} {comment : String} : Tidy (memory op reg offset base comment hop) := by
  intro s y s' h
  cases (memory_run hop).symm.trans h
  exact ⟨rfl, fun hs => hs.write _ comment⟩

theorem tidy_register {op : Opcode} {hop : op.form = .register} {dst src₁ src₂ : Register}
    {comment : String} : Tidy (register op dst src₁ src₂ comment hop) := by
  intro s y s' h
  cases (register_run hop).symm.trans h
  exact ⟨rfl, fun hs => hs.write _ comment⟩

theorem tidy_relative {op : Opcode} {hop : op.form = .memory} {reg : Register} {target : Nat}
    {comment : String} : Tidy (relative op reg target comment hop) := by
  intro s y s' h
  cases (relative_run hop).symm.trans h
  exact ⟨rfl, fun hs => hs.write _ comment⟩

theorem tidy_note {text : String} : Tidy (note text) := by
  intro s y s' h
  cases h
  exact ⟨rfl, fun hs => hs.note text⟩

theorem tidy_here : Tidy here := by
  intro s y s' h
  cases h
  exact .refl s

theorem tidy_reserve {count : Nat} : Tidy (reserve count) := by
  intro s y s' h
  cases h
  exact ⟨rfl, fun hs => hs.reserve count⟩

/-- Moving the cursor leaves temporaries alone. -/
theorem tidy_seek {address : Nat} : Tidy (seek address) := by
  intro s y s' h
  obtain ⟨_, _, hget, h⟩ := run_bind_eq_ok h
  cases hget
  obtain ⟨_, s₁, hset, h⟩ := run_bind_eq_ok h
  cases hset
  have hkeeps : s.Keeps { s with emitter := (s.emitter.seek address).2 } := by
    refine ⟨rfl, fun hs => ?_⟩
    unfold Emitter.seek
    split
    · exact hs
    · exact hs.moved address
  exact hkeeps.trans (tidy_lift _ h)

theorem tidy_resume : Tidy resume := by
  intro s y s' h
  cases h
  exact ⟨rfl, fun hs => hs.moved _⟩

theorem tidy_enterProcedure {symbol : SymbolId} : Tidy (enterProcedure symbol) := by
  intro s y s' h
  cases h
  exact ⟨rfl, id⟩

theorem tidy_entryOf {call : Call} {symbol : SymbolId} : Tidy (entryOf call symbol) := by
  intro s y s' h
  obtain ⟨_, _, hget, h⟩ := run_bind_eq_ok h
  cases hget
  split at h
  · cases h
    exact .refl s
  · cases h

theorem Tidy.forM {γ : Type} {f : γ → Gen Unit} (hf : ∀ x, Tidy (f x)) :
    ∀ xs : List γ, Tidy (xs.forM f)
  | [] => tidy_pure ()
  | x :: xs => by
    show Tidy (f x >>= fun _ => xs.forM f)
    exact (hf x).bind fun _ => Tidy.forM hf xs

/-- A temporary that is free again. -/
theorem Tidy.bracket {g h : Gen Unit} (hg : Tidy g)
    (hh : Tidy h) (reg : Register) (comment comment' : String) :
    Tidy (do push comment; g; pop reg comment'; h) := by
  intro s y s' hrun
  obtain ⟨_, s₁, hpush, hrun⟩ := run_bind_eq_ok hrun
  obtain ⟨_, s₂, hrun₂, hrun⟩ := run_bind_eq_ok hrun
  obtain ⟨_, s₃, hpop, hrun⟩ := run_bind_eq_ok hrun
  have hkept := hg hrun₂
  cases hpush
  cases hpop
  refine GenState.Keeps.trans ⟨?_, ?_⟩ (hh hrun)
  · show s₂.temporaries + 1 = s.temporaries
    rw [hkept.temporaries]
    exact Int.sub_add_cancel ..
  · exact fun hs => (hkept.quiet (hs.write _ comment)).write _ comment'

theorem tidy_relativeAddress {name : Ident} {k : Int} : Tidy (relativeAddress name k) := by
  unfold relativeAddress
  exact tidy_memory

theorem tidy_scaleIndex {name : Ident} {low : Word} {size k : Int} :
    Tidy (scaleIndex name low size k) := by
  unfold scaleIndex
  refine tidy_memory.bind fun _ => ?_
  dsimp only
  split
  · exact tidy_memory.bind fun _ => tidy_register.bind fun _ => tidy_memory
  · exact tidy_memory

theorem tidy_addBase {v : Variable} {name : Ident} : Tidy (addBase v name) := by
  unfold addBase
  refine tidy_memory.bind fun _ => ?_
  dsimp only
  split
  · exact tidy_memory.bind fun _ => tidy_register
  · exact tidy_register

theorem tidy_compare {jump : Opcode} {hjump : jump.form = .memory} {comment : String} :
    Tidy (operate.compare jump comment hjump) :=
  tidy_register.bind fun _ => tidy_memory.bind fun _ => tidy_memory.bind fun _ =>
    tidy_memory.bind fun _ => tidy_memory

theorem tidy_operate (op : BinaryOp) : Tidy (operate op) := by
  unfold operate
  cases op with
  | add => exact tidy_register
  | sub => exact tidy_register
  | mul => exact tidy_register
  | div => exact tidy_register
  | less => exact tidy_compare
  | equal => exact tidy_compare

theorem tidy_copyWords {count start : Int} {base : Register} {comment : String} :
    Tidy (copyWords count start base comment) :=
  .forM (fun _ => tidy_memory.bind fun _ => tidy_sum.bind fun _ => tidy_memory) _

end Gen

section

variable (a : Analysis)

mutual

/-- Expressions give back the temporaries that they take. -/
theorem Expr.tidy_generate : ∀ e : Expr, Tidy (e.generate a)
  | .const .. => by
    rw [Expr.generate]
    exact tidy_memory
  | .ref r => by
    rw [Expr.generate]
    exact (Reference.tidy_generateAddress r).bind fun _ => tidy_memory
  | .binary _ op left right _ => by
    rw [Expr.generate]
    exact (Expr.tidy_generate left).bind fun _ =>
      (Expr.tidy_generate right).bracket (tidy_operate op) _ _ _

/-- Addresses give back the temporaries that they take. -/
theorem Reference.tidy_generateAddress : ∀ r : Reference Expr, Tidy (r.generateAddress a)
  | ⟨_, name, selector, span⟩ => by
    rw [Reference.generateAddress]
    exact (tidy_lift _).bind fun _ => (tidy_lift _).bind fun v =>
      (Selector.tidy_generateRelative v name span selector).bind fun _ => tidy_addBase

/-- Selectors give back the temporaries that they take. -/
theorem Selector.tidy_generateRelative (v : Variable) (name : Ident) (span : Span) :
    ∀ selector : Selector Expr, Tidy (selector.generateRelative a v name span)
  | .whole => by
    rw [Selector.generateRelative]
    exact tidy_sum.bind fun _ => tidy_relativeAddress
  | .element index => by
    rw [Selector.generateRelative]
    exact (tidy_lift _).bind fun _ => (Expr.tidy_generate index).bind fun _ =>
      tidy_sum.bind fun _ => tidy_scaleIndex
  | .field _ => by
    rw [Selector.generateRelative]
    exact (tidy_lift _).bind fun _ => tidy_sum.bind fun _ => tidy_relativeAddress
  | .fieldElement _ index => by
    rw [Selector.generateRelative]
    exact (tidy_lift _).bind fun _ => (tidy_lift _).bind fun _ =>
      (Expr.tidy_generate index).bind fun _ => tidy_sum.bind fun _ => tidy_scaleIndex

end

namespace Gen

/-- An argument gives back the temporaries that it takes. -/
theorem tidy_passArgument (arg : Expr) (param : SymbolId) :
    Tidy (passArgument a arg param) := by
  refine (tidy_lift _).bind fun v => ?_
  cases v.access with
  | indirect =>
    cases arg.asRef? with
    | none => exact tidy_throw _
    | some r => exact (Reference.tidy_generateAddress a r).bind fun _ => tidy_memory
  | direct =>
    refine tidy_sizeOf.bind fun size => ?_
    split
    · exact (Expr.tidy_generate a arg).bind fun _ => tidy_memory
    · cases arg.asRef? with
      | none => exact tidy_throw _
      | some r => exact (Reference.tidy_generateAddress a r).bind fun _ => tidy_copyWords

theorem tidy_passArguments :
    ∀ (args : List Expr) (params : List SymbolId), Tidy (passArguments a args params)
  | [], _ => tidy_pure ()
  | _ :: _, [] => tidy_pure ()
  | arg :: args, param :: params =>
    (tidy_passArgument a arg param).bind fun _ => tidy_passArguments args params

/-- An assignment gives back the temporaries that it takes. -/
theorem tidy_storeValue (target : VarRef) (value : Expr) (span : Span) :
    Tidy (storeValue a target value span) := by
  refine (tidy_lift _).bind fun type => tidy_sizeOf.bind fun size =>
    (Reference.tidy_generateAddress a target).bind fun _ => tidy_memory.bind fun _ => ?_
  split
  · exact (Expr.tidy_generate a value).bind fun _ => tidy_memory
  · cases value.asRef? with
    | none => exact tidy_throw _
    | some r => exact (Reference.tidy_generateAddress a r).bind fun _ => tidy_copyWords

theorem tidy_saveRegisters (p : Procedure) : Tidy (saveRegisters p) :=
  tidy_memory.bind fun _ => tidy_memory.bind fun _ => tidy_memory.bind fun _ =>
      tidy_memory.bind fun _ =>
    tidy_memory.bind fun _ => tidy_memory.bind fun _ => tidy_memory

theorem tidy_buildDisplay (p : Procedure) : Tidy (buildDisplay p) :=
  (Tidy.forM (fun _ => tidy_memory.bind fun _ => tidy_sum.bind fun _ => tidy_memory) _).bind
      fun _ =>
    tidy_sum.bind fun _ => tidy_memory

theorem tidy_enterFrame (p : Procedure) : Tidy (enterFrame p) :=
  tidy_memory.bind fun _ => tidy_memory.bind fun _ => tidy_memory

theorem tidy_restoreRegisters : Tidy restoreRegisters :=
  tidy_memory.bind fun _ => tidy_memory.bind fun _ => tidy_memory.bind fun _ =>
      tidy_memory.bind fun _ =>
    tidy_memory.bind fun _ => tidy_memory

theorem tidy_mainPrologue : Tidy (mainPrologue a) :=
  tidy_note.bind fun _ => tidy_memory.bind fun _ => tidy_memory.bind fun _ =>
      tidy_memory.bind fun _ =>
    tidy_memory.bind fun _ => tidy_memory.bind fun _ => tidy_memory.bind fun _ => tidy_memory

end Gen

/-- A call gives back the temporaries that it takes. -/
theorem Call.tidy_generate (call : Call) : Tidy (call.generate a) :=
  (tidy_lift _).bind fun _ => (tidy_lift _).bind fun p => tidy_entryOf.bind fun _ =>
      tidy_note.bind fun _ =>
    (tidy_passArguments a _ _).bind fun _ => (tidy_saveRegisters p).bind fun _ =>
        tidy_reserve.bind fun _ =>
    (tidy_buildDisplay p).bind fun _ => (tidy_enterFrame p).bind fun _ =>
        tidy_relative.bind fun _ =>
    tidy_here.bind fun _ => tidy_seek.bind fun _ => tidy_memory.bind fun _ =>
        tidy_memory.bind fun _ =>
    tidy_resume.bind fun _ => tidy_restoreRegisters.bind fun _ => tidy_note

end

/-! ## Checks around statements -/

namespace Gen

variable {α β : Type}

/-- Where no temporary is in use, `g` and `g'` do the same, and none is in use afterwards. -/
def Agree (g g' : Gen α) : Prop :=
  ∀ ⦃s : GenState⦄, s.temporaries = 0 →
    g.run s = g'.run s ∧ ∀ ⦃x : α⦄ ⦃s' : GenState⦄, g.run s = .ok (x, s') → s.Keeps s'

/-- A tidy generator agrees with itself. -/
theorem Tidy.agree {g : Gen α} (h : Tidy g) : Agree g g :=
  fun _ _ => ⟨rfl, fun _ _ hrun => h hrun⟩

theorem Agree.bind {g g' : Gen α} {f f' : α → Gen β}
    (hg : Agree g g') (hf : ∀ x, Agree (f x) (f' x)) :
    Agree (g >>= f) (g' >>= f') := by
  intro s hs
  obtain ⟨hrun, hkeeps⟩ := hg hs
  cases hr : g.run s with
  | error d =>
    have hfails {g : Gen α} {f : α → Gen β} (hd : g.run s = .error d) :
        (g >>= f).run s = .error d := by
      rw [StateT.run_bind, hd]
      rfl
    refine ⟨(hfails hr).trans (hfails (hrun ▸ hr)).symm, fun y s'' h => ?_⟩
    rw [hfails hr] at h
    cases h
  | ok r =>
    obtain ⟨x, s₁⟩ := r
    have hgoes {g : Gen α} {f : α → Gen β} (hd : g.run s = .ok (x, s₁)) :
        (g >>= f).run s = (f x).run s₁ := by
      rw [StateT.run_bind, hd]
      rfl
    have hkept := hkeeps hr
    obtain ⟨hrest, hkeeps'⟩ := hf x (hkept.temporaries.trans hs)
    rw [hgoes hr, hgoes (hrun ▸ hr)]
    exact ⟨hrest, fun y s'' h => hkept.trans (hkeeps' h)⟩

theorem Tidy.bindAgree {g : Gen α} {f f' : α → Gen β}
    (hg : Tidy g) (hf : ∀ x, Agree (f x) (f' x)) :
    Agree (g >>= f) (g >>= f') := hg.agree.bind hf

/-- Where no temporary is in use, checks that do nothing there agree. -/
theorem Idle.agree {g g' : Gen Unit} (h : Idle g) (h' : Idle g') : Agree g g' := by
  intro s hs
  rw [h hs, h' hs]
  refine ⟨rfl, fun x s' hrun => ?_⟩
  cases hrun
  exact .refl s

theorem Agree.forM {γ : Type} {f f' : γ → Gen Unit} (hf : ∀ x, Agree (f x) (f' x)) :
    ∀ xs : List γ, Agree (xs.forM f) (xs.forM f')
  | [] => (tidy_pure ()).agree
  | x :: xs => (hf x).bind fun _ => Agree.forM hf xs

end Gen

section

variable (a : Analysis) {checks checks' : Checks}

mutual

/-- Statements are generated alike, whatever harmless checks stand around them. -/
theorem Stmt.agree_generate (h : Harmless checks) (h' : Harmless checks') : ∀ s : Stmt,
    Agree (s.generate a checks) (s.generate a checks')
  | .assign target value span => by
    rw [Stmt.generate, Stmt.generate]
    exact (tidy_note.bind fun _ => tidy_storeValue a target value span).agree
  | .ifElse condition thenBranch elseBranch _ => by
    rw [Stmt.generate, Stmt.generate]
    refine tidy_note.bindAgree fun _ => (Expr.tidy_generate a condition).bindAgree fun _ =>
      tidy_reserve.bindAgree fun _ => (Stmt.agree_generateAll h h' thenBranch).bind fun _ =>
      tidy_reserve.bindAgree fun _ => tidy_here.bindAgree fun _ =>
      (Stmt.agree_generateAll h h' elseBranch).bind fun _ => ?_
    exact (tidy_here.bind fun _ => tidy_seek.bind fun _ => tidy_relative.bind fun _ =>
        tidy_seek.bind fun _ =>
      tidy_relative.bind fun _ => tidy_resume.bind fun _ => tidy_note).agree
  | .whileDo condition body _ => by
    rw [Stmt.generate, Stmt.generate]
    refine tidy_note.bindAgree fun _ => tidy_here.bindAgree fun _ =>
        (Expr.tidy_generate a condition).bindAgree fun _ =>
      tidy_reserve.bindAgree fun _ => (Stmt.agree_generateAll h h' body).bind fun _ => ?_
    exact (tidy_relative.bind fun _ => tidy_here.bind fun _ => tidy_seek.bind fun _ =>
        tidy_relative.bind fun _ =>
      tidy_resume.bind fun _ => tidy_note).agree
  | .read target _ => by
    rw [Stmt.generate, Stmt.generate]
    exact (tidy_note.bind fun _ => (Reference.tidy_generateAddress a target).bind fun _ =>
        tidy_memory.bind fun _ =>
      tidy_register.bind fun _ => tidy_memory).agree
  | .write value _ => by
    rw [Stmt.generate, Stmt.generate]
    exact (tidy_note.bind fun _ => (Expr.tidy_generate a value).bind fun _ =>
      tidy_register).agree
  | .call c => by
    rw [Stmt.generate, Stmt.generate]
    exact (Call.tidy_generate a c).agree
  | .ret _ => by
    rw [Stmt.generate, Stmt.generate]
    exact tidy_memory.agree

theorem Stmt.agree_generateAll (h : Harmless checks) (h' : Harmless checks') :
    ∀ ss : List Stmt, Agree (Stmt.generateAll a checks ss) (Stmt.generateAll a checks' ss)
  | [] => by
    rw [Stmt.generateAll, Stmt.generateAll]
    exact (tidy_pure ()).agree
  | s :: rest => by
    rw [Stmt.generateAll, Stmt.generateAll]
    exact ((h.before _).agree (h'.before _)).bind fun _ =>
        (Stmt.agree_generate h h' s).bind fun _ =>
      ((h.after _).agree (h'.after _)).bind fun _ => Stmt.agree_generateAll h h' rest

end

mutual

/-- Procedures are generated alike. -/
theorem Decl.agree_generate (h : Harmless checks) (h' : Harmless checks') : ∀ d : Decl,
    Agree (d.generate a checks) (d.generate a checks')
  | .types .. => by
    rw [Decl.generate, Decl.generate]
    exact (tidy_pure ()).agree
  | .vars .. => by
    rw [Decl.generate, Decl.generate]
    exact (tidy_pure ()).agree
  | .procedure ⟨_, _, _, decls, body, _⟩ => by
    rw [Decl.generate, Decl.generate]
    exact (tidy_lift _).bindAgree fun _ => (tidy_lift _).bindAgree fun _ =>
        tidy_enterProcedure.bindAgree fun _ =>
      tidy_note.bindAgree fun _ => (Decl.agree_generateNested h h' decls).bind fun _ =>
      (Stmt.agree_generateAll a h h' body).bind fun _ =>
        (tidy_memory.bind fun _ => tidy_note).agree

/-- Nested procedures are generated alike. -/
theorem Decl.agree_generateNested (h : Harmless checks)
    (h' : Harmless checks') : ∀ ds : List Decl,
    Agree (Decl.generateNested a checks ds) (Decl.generateNested a checks' ds)
  | [] => by
    rw [Decl.generateNested, Decl.generateNested]
    exact (tidy_pure ()).agree
  | d :: rest => by
    rw [Decl.generateNested, Decl.generateNested]
    dsimp only
    cases d.asProcedure? with
    | none => exact Decl.agree_generateNested h h' rest
    | some p =>
      exact tidy_reserve.bindAgree fun _ => (Decl.agree_generate h h' d).bind fun _ =>
          tidy_here.bindAgree fun _ =>
        tidy_seek.bindAgree fun _ => tidy_relative.bindAgree fun _ =>
            tidy_resume.bindAgree fun _ =>
        Decl.agree_generateNested h h' rest

end

/-- Programs are generated alike. -/
theorem Program.agree_generateCode (h : Harmless checks)
    (h' : Harmless checks') (p : Program) :
    Agree (p.generateCode a checks) (p.generateCode a checks') :=
  tidy_note.bindAgree fun _ => tidy_note.bindAgree fun _ => tidy_memory.bindAgree fun _ =>
    tidy_memory.bindAgree fun _ => tidy_reserve.bindAgree fun _ =>
        (Agree.forM (Decl.agree_generate a h h') p.decls).bind fun _ =>
    tidy_here.bindAgree fun _ => tidy_seek.bindAgree fun _ => tidy_relative.bindAgree fun _ =>
    tidy_resume.bindAgree fun _ => (tidy_mainPrologue a).bindAgree fun _ =>
    (Stmt.agree_generateAll a h h' p.body).bind fun _ =>
      (tidy_note.bind fun _ => tidy_register).agree

/-- Harmless checks make no difference to a whole program. -/
theorem Program.generateWith_eq (h : Harmless checks)
    (h' : Harmless checks') (p : Program) (trace : Bool) :
    p.generateWith a trace checks = p.generateWith a trace checks' := by
  have hagree := Program.agree_generateCode a h h' p (s := { emitter := { trace } }) rfl
  unfold Program.generateWith
  rw [hagree.1]

end

/-- Without trace, all that generation gives is instructions. -/
theorem Program.generate_quiet {p : Program} {a : Analysis} {o : Options}
    (ho : o.trace = false) {code : ObjectCode} (h : p.generate a o = .ok code) :
    code.notes = [] ∧ ∀ l ∈ code.lines, l.comment = none := by
  obtain ⟨⟨_, s⟩, hrun, hfinish⟩ := Except.bind_eq_ok h
  have hstart : Emitter.Quiet { trace := o.trace } := ⟨ho, rfl, by simp⟩
  have hkeeps :=
    Program.agree_generateCode a (harmless_checks o) (harmless_checks o) p rfl |>.2 hrun
  exact (hkeeps.quiet hstart).finish hfinish

/-- Both generations have the instructions of `Program.code`, or its defect. -/
theorem Program.generate_alike (p : Program) (a : Analysis) (o o' : Options) :
    (∃ d, p.generate a o = .error d ∧ p.generate a o' = .error d) ∨
      ∃ code code', p.generate a o = .ok code ∧ p.generate a o' = .ok code' ∧
        code.instructions = code'.instructions := by
  have hsame :=
    (Program.instructions_generate p a o).trans (Program.instructions_generate p a o').symm
  generalize p.generate a o = x, p.generate a o' = x' at hsame ⊢
  cases x with
  | error d =>
    cases x' with
    | error d' =>
      cases hsame
      exact .inl ⟨d, rfl, rfl⟩
    | ok code' => cases hsame
  | ok code =>
    cases x' with
    | error d' => cases hsame
    | ok code' => exact .inr ⟨code, code', rfl, rfl, Except.ok.inj hsame⟩

/-- The options change no instruction and no defect, and without trace there is nothing
besides the instructions. Nor does it matter what the generator does before and after a
statement where temporaries are in use, because there never are any: the check for them can be
left out, and no generation stops at it. -/
theorem Program.generate_options (p : Program) (a : Analysis) (o o' : Options) :
    ((∃ d, p.generate a o = .error d ∧ p.generate a o' = .error d) ∨
      ∃ code code', p.generate a o = .ok code ∧ p.generate a o' = .ok code' ∧
        code.instructions = code'.instructions) ∧
    (∀ code, p.generate a { o with trace := false } = .ok code →
      code.notes = [] ∧ ∀ l ∈ code.lines, l.comment = none) ∧
    (∀ checks, Harmless checks → p.generateWith a o.trace checks = p.generate a o) ∧
    p.generate a { o with checkTemporaries := o'.checkTemporaries } = p.generate a o ∧
    ∀ offset span, p.generate a o ≠ .error (.unbalancedTemporaries offset span) := by
  have hchecks : ∀ checks, Harmless checks →
      p.generateWith a o.trace checks = p.generate a o := by
    intro checks h
    exact Program.generateWith_eq a h (harmless_checks o) p o.trace
  refine ⟨?_, fun code h => Program.generate_quiet rfl h, hchecks, ?_,
    fun offset span h => ?_⟩
  · exact p.generate_alike a o o'
  · exact hchecks _ (harmless_checks _)
  · have hd := Program.instructions_generate p a o
    rw [h] at hd
    exact Defect.OnlyOfTree.program p a _ hd.symm

/-- A program whose code has comments and notes under one choice of options and none under
another. -/
theorem Program.doubling_generate_options :
    ∃ a code code', Program.doubling.analyze = .ok a ∧
    Program.doubling.generate a {} = .ok code ∧
      Program.doubling.generate a { trace := false, checkTemporaries := false } = .ok code' ∧
      code ≠ code' ∧ code.instructions = code'.instructions ∧ code'.notes = [] ∧
      ∀ l ∈ code'.lines, l.comment = none := by
  obtain ⟨a, ha⟩ := Program.doubling_accepted
  have hcheck : (match Program.doubling.analyze with
      | .ok a =>
        match Program.doubling.generate a {} with
        | .ok code => decide (code.notes ≠ [])
        | .error _ => false
      | .error _ => false) = true := by decide +kernel
  rw [ha] at hcheck
  dsimp only at hcheck
  obtain ⟨d, hd, _⟩ | ⟨code, code', hcode, hcode', hinstructions⟩ :=
    (Program.generate_options Program.doubling a {}
      { trace := false, checkTemporaries := false }).1
  · rw [hd] at hcheck
    cases hcheck
  · rw [hcode] at hcheck
    have hnotes : code.notes ≠ [] := of_decide_eq_true hcheck
    obtain ⟨hnotes', hcomments⟩ :=
      (Program.generate_options Program.doubling a { checkTemporaries := false } {}).2.1
        code' hcode'
    exact ⟨a, code, code', ha, hcode, hcode', fun h => hnotes (h ▸ hnotes'), hinstructions,
      hnotes', hcomments⟩

end BlockLang
