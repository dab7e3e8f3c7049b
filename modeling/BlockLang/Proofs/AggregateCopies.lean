import BlockLang.Proofs.Addressing
import BlockLang.Proofs.Comparisons

/-!
# Copies of arrays and records

A value that does not take one word is copied word for word, where it is assigned and
where it is passed to a parameter that holds a value. Two addresses are computed for an
assignment: that of the target waits in `ac2`, which the computation of the other one
leaves alone. The target of an argument is found through `top`.

If source and target are the same words or have none in common, all words arrive as they
were. Otherwise the words touched are still those of the source and those of the target.

`Program.copies_at_once` says so of every assignment and every argument. It asks for room
for the temporaries even if no word is to be copied: `Program.cramped_stops` has a program
in which there is no such room, and the machine stops at the index.

* `Machine.ComesTo` says that the machine comes to an address if it is given steps enough,
  and what it is like there. A machine that faults first does not
  (`Machine.not_comesTo_of_fault`).
* `Machine.Alters P` bounds what a piece of code changes: registers for intermediate
  results and words that satisfy `P`. It composes, and so the pieces of a copy do.
* `Machine.touches_copy` is the copy itself, from both addresses on, and
  `Machine.CopiesAfter` a copy with code before it. `Machine.Poised.copiesAfter_keep` has
  the address of the target in `ac2`, `Machine.Poised.copiesAfter_top` finds it through
  `top`.
* `Stmt.Resolved.storeValue_ok` and `Call.Resolved.passArgument_ok`: there is code for
  every assignment and every argument of an accepted program whose nodes have distinct
  identities.
-/

namespace BlockLang

namespace Machine

/-- The machine makes `n` steps on every clock that leaves them, and then it is `m'`. -/
def Runs (m : Machine) (n : Nat) (m' : Machine) : Prop :=
  ∀ limit steps, steps + n ≤ limit →
    Steps (m.timed limit steps) n (m'.timed limit (steps + n))

/-- The machine comes to an address, and then `P` holds. -/
def ComesTo (m : Machine) (stop : Nat) (P : Machine → Prop) : Prop :=
  ∃ n m', m.Runs n m' ∧ m'.register .pc = Int64.ofNat stop ∧ P m'

/-- The `n` words from `start` on are in data memory, and none of them is among those from
`lo` up to `hi`. -/
def Houses (m : Machine) (start n lo hi : Int) : Prop :=
  ∀ i, start ≤ i → i < start + n → (0 ≤ i ∧ i < m.memory.size) ∧ (i < lo ∨ hi ≤ i)

/-- Nothing has changed but registers for intermediate results and words at addresses in
`P`. -/
structure Alters (P : Int → Prop) (m m' : Machine) : Prop where
  code : m'.code = m.code
  register : ∀ r, r ≠ .ac → r ≠ .ac1 → r ≠ .ac2 → r ≠ .pc → m'.register r = m.register r
  input : m'.input = m.input
  output : m'.output = m.output
  size : m'.memory.size = m.memory.size
  word : ∀ i : Nat, ¬P i → m'.word i = m.word i

/-- The `n` words from `src` on have come to `dst`, as they were. Nothing else has changed but
registers for intermediate results and words from `lo` up to `hi`. -/
structure Copied (n : Nat) (src dst lo hi : Int) (m m' : Machine) : Prop where
  copied : ∀ k : Nat, k < n → m'.word (dst + k).toNat = m.word (src + k).toNat
  alters : m.Alters (fun i => (lo ≤ i ∧ i < hi) ∨ dst ≤ i ∧ i < dst + n) m'

variable {m m' m'' : Machine} {c : Code} {start : Nat} {lo hi : Int} {P Q : Int → Prop}

theorem Reaches.runs {n : Nat} (h : Reaches m n m') : m.Runs n m' :=
  fun _ _ hle => h.steps hle

/-- A machine that passes code comes to its end. -/
theorem Passes.comesTo (h : m.Passes c m') (hm : Code.Addressable m.code)
    (hat : Code.At m.code start c) (hpc : m.register .pc = Int64.ofNat start)
    {P : Machine → Prop} (hP : P (m'.goto (start + c.length))) :
    m.ComesTo (start + c.length) P := by
  obtain ⟨n, hreaches⟩ := h.2 start hm hat
  rw [goto_eq_self hpc] at hreaches
  exact ⟨n, _, hreaches.runs, rfl, hP⟩

/-- A machine that faults in its second step comes to no other address than its first two. -/
theorem not_comesTo_of_fault {stop : Nat} {P : Machine → Prop} {f : Fault}
    (hpc : m.register .pc ≠ Int64.ofNat stop) (hpace : m.pace = (m', .running))
    (hpc' : m'.register .pc ≠ Int64.ofNat stop) (hfault : m'.pace.2 = .fault f) :
    ¬m.ComesTo stop P := by
  rintro ⟨n, last, hruns, hstop, _⟩
  have hsteps := hruns n 0 (by omega)
  generalize hlast : last.timed n (0 + n) = x at hsteps
  have hregister : x.register .pc = Int64.ofNat stop := hlast ▸ hstop
  cases hsteps with
  | refl => exact hpc hregister
  | @step _ m₁ _ k hstep hrest =>
    rw [m.step_timed (by omega), hpace] at hstep
    cases hstep
    cases hrest with
    | refl => exact hpc' hregister
    | step hstep _ =>
      rw [m'.step_timed (by omega), hfault] at hstep
      cases hstep

/-! ## What is altered -/

namespace Alters

theorem trans (h : m.Alters P m') (h' : m'.Alters P m'') : m.Alters P m'' where
  code := h'.code.trans h.code
  register r h₁ h₂ h₃ h₄ := (h'.register r h₁ h₂ h₃ h₄).trans (h.register r h₁ h₂ h₃ h₄)
  input := h'.input.trans h.input
  output := h'.output.trans h.output
  size := h'.size.trans h.size
  word i hi := (h'.word i hi).trans (h.word i hi)

theorem mono (h : m.Alters P m') (hP : ∀ i, P i → Q i) : m.Alters Q m' where
  code := h.code
  register := h.register
  input := h.input
  output := h.output
  size := h.size
  word i hi := h.word i fun hPi => hi (hP i hPi)

theorem setRegister {r : Register} (hr : r = .ac2 ∨ r = .pc) (m : Machine) (w : Word) :
    m.Alters P (m.setRegister r w) where
  code := rfl
  register r' _ _ h₃ h₄ := by
    rcases hr with rfl | rfl
    · exact register_setRegister_of_ne m h₃ w
    · exact register_setRegister_of_ne m h₄ w
  input := rfl
  output := rfl
  size := rfl
  word _ _ := rfl

end Alters

/-- Code that changes temporaries only. -/
theorem Same.alters (h : m.Same lo.toNat hi.toNat m') :
    m.Alters (fun i => lo ≤ i ∧ i < hi) m' where
  code := h.code
  register r h₁ h₂ _ h₄ := h.register r h₁ h₂ h₄
  input := h.input
  output := h.output
  size := h.size
  word i hi := h.word i (by omega)

/-- Words in memory stay in memory. -/
theorem Houses.alters {src n : Int} (h : m.Houses src n lo hi) (halters : m.Alters P m') :
    m'.Houses src n lo hi := by
  unfold Houses
  rw [halters.size]
  exact h

/-- Temporaries that are to be had stay so. -/
theorem Spares.alters {t : Int} {lo hi n : Nat}
    (h : m.Spares t lo hi n) (halters : m.Alters P m') :
    m'.Spares t lo hi n := by
  unfold Spares
  rw [halters.register .mp (by decide) (by decide) (by decide) (by decide), halters.size]
  exact h

theorem Serves.setRegister {x : Source} {lo hi : Nat} (h : m.Serves x lo hi) {r : Register}
    (hr : r ≠ .displayOff) (w : Word) : (m.setRegister r w).Serves x lo hi where
  word := h.word
  refused := h.refused
  displayOff hread := by
    rw [register_setRegister_of_ne m hr.symm]
    exact h.displayOff hread

/-! ## The code of a copy -/

/-- The machine goes through `pre`, where it alters intermediate results only, and then
through the code of a copy. -/
def CopiesAfter (m : Machine) (pre : Code) (b : Register) (offset : Int) (n : Nat)
    (src dst lo hi : Int) : Prop :=
  ∃ m₁ m', m.Passes pre m₁ ∧ m.Alters (fun i => lo ≤ i ∧ i < hi) m₁ ∧
    m₁.Touches (Code.copyWords n offset b) (copying b src dst n) m' ∧
    m₁.Same dst.toNat (dst + n).toNat m' ∧ (dst = src ∨ dst + n ≤ src ∨ src + n ≤ dst →
      ∀ k : Nat, k < n → m'.word (dst + k).toNat = m₁.word (src + k).toNat)

variable {b : Register} {offset src dst : Int} {n : Nat}

/-- As `touches_copyWords`, for addresses of which nothing is known if there is no word to
copy. -/
theorem touches_copy (hb : b ≠ .ac ∧ b ≠ .ac1 ∧ b ≠ .pc) (hac : (m.register .ac).toInt = src)
    (hdst : ∀ k : Nat, k < n → (Int64.ofInt (offset + k)).toInt + (m.register b).toInt =
      dst + k) (hn : (n : Int) ≤ Word.greatest)
    (hsource : m.Houses src n lo hi) (htarget : m.Houses dst n lo hi) :
    ∃ m', m.Touches (Code.copyWords n offset b) (copying b src dst n) m' ∧
    m.Same dst.toNat (dst + n).toNat m' ∧
      (dst = src ∨ dst + n ≤ src ∨ src + n ≤ dst →
        ∀ k : Nat, k < n → m'.word (dst + k).toNat = m.word (src + k).toNat) := by
  cases n with
  | zero => exact ⟨m, .nil m, .refl .., fun _ k hk => absurd hk (Nat.not_lt_zero k)⟩
  | succ n =>
    have hsrc_last := (hsource (src + n) (by omega) (by omega)).1
    have hdst_last := (htarget (dst + n) (by omega) (by omega)).1
    obtain ⟨i, rfl⟩ := Int.eq_ofNat_of_zero_le (hsource src (by omega) (by omega)).1.1
    obtain ⟨j, rfl⟩ := Int.eq_ofNat_of_zero_le (htarget dst (by omega) (by omega)).1.1
    obtain ⟨m', htouches, hsame, hcopied⟩ :=
      touches_copyWords hb hac hdst hn (by omega) (by omega)
    refine ⟨m', htouches, hsame, ?_⟩
    intro hapart k hk
    refine hcopied ?_ k hk
    unfold Layout.Aligned
    omega

/-- The address of the source is computed, and then its words are copied. -/
theorem Serves.copiesAfter {a : Analysis} {x : Source} {r : VarRef} {S : Word}
    (h : m.Serves x lo.toNat hi.toNat) (hspares : m.Spares 0 lo.toNat hi.toNat r.depth)
    (hlevels : (Expr.ref r).Levelled a x) (hc : r.code a 0 = .ok c)
    (hS : r.addressIn a x = .ok S) (hb : b ≠ .ac ∧ b ≠ .ac1 ∧ b ≠ .pc) (hdst : ∀ k : Nat,
      k < n → (Int64.ofInt (offset + k)).toInt + (m.register b).toInt = dst + k)
    (hn : (n : Int) ≤ Word.greatest) (hsource : m.Houses S.toInt n lo hi)
    (htarget : m.Houses dst n lo hi) : m.CopiesAfter c b offset n S.toInt dst lo hi := by
  have hyields := (Expr.evaluates hlevels (Int.le_refl 0) h hspares).2 r rfl c hc
  rw [hS] at hyields
  obtain ⟨m₁, hpass, hac, hsame⟩ := hyields
  have hregister := hsame.register b hb.1 hb.2.1 hb.2.2
  obtain ⟨m', htouches, hsame', hcopied⟩ :=
    touches_copy hb (congrArg Int64.toInt hac) (by rwa [hregister]) hn
    (hsource.alters hsame.alters) (htarget.alters hsame.alters)
  exact ⟨m₁, m', hpass, hsame.alters, htouches, hsame', hcopied⟩

/-- What comes before may be more than the address of the source. -/
theorem CopiesAfter.before {c' : Code} (hpass : m.Passes c m')
    (halters : m.Alters (fun i => lo ≤ i ∧ i < hi) m')
    (h : m'.CopiesAfter c' b offset n src dst lo hi) :
    m.CopiesAfter (c ++ c') b offset n src dst lo hi := by
  obtain ⟨m₁, m₂, hpass', halters', hrest⟩ := h
  exact ⟨m₁, m₂, hpass.append hpass', halters.trans halters', hrest⟩

/-- A copy is done at its end. -/
theorem CopiesAfter.comesTo (h : m.CopiesAfter c b offset n src dst lo hi)
    (hm : Code.Addressable m.code)
    (hat : Code.At m.code start (c ++ Code.copyWords n offset b))
    (hpc : m.register .pc = Int64.ofNat start)
    (hsource : m.Houses src n lo hi) (hapart : dst = src ∨ dst + n ≤ src ∨ src + n ≤ dst) :
    m.ComesTo (start + (c ++ Code.copyWords n offset b).length)
    (m.Copied n src dst lo hi) := by
  obtain ⟨m₁, m', hpass, halters, htouches, hsame, hcopied⟩ := h
  refine (hpass.append htouches.passes).comesTo hm hat hpc ⟨?_, ?_⟩
  · intro k hk
    have hplace := hsource (src + k) (by omega) (by omega)
    have hword := hcopied hapart k hk
    rw [halters.word _ (by omega)] at hword
    exact hword
  · refine (halters.mono fun i => .inl).trans ((hsame.alters.mono fun i => .inr).trans ?_)
    exact .setRegister (.inr rfl) m' _

/-- The address of a target is kept in `ac2`. -/
theorem Poised.keeps {a : Analysis} {r : VarRef} {d : Nat}
    {w : Word} (h : m.Poised 0 d start lo hi) (hd : r.depth ≤ d)
    (hlevels : (Expr.ref r).Levelled a (m.data.without lo hi)) (hc : r.code a 0 = .ok c)
    (hw : r.addressIn a (m.data.without lo hi) = .ok w) :
    ∃ m', m.Passes (Code.keep c) m' ∧ m.Alters (fun i => lo ≤ i ∧ i < hi) m' ∧
    m'.register .ac2 = w ∧
      m'.Serves (m.data.without lo hi) lo.toNat hi.toNat := by
  have hserves := m.serves_data lo hi
  have hyields :=
    (Expr.evaluates hlevels (Int.le_refl 0) hserves (h.spares.mono hd)).2 r rfl c hc
  rw [hw] at hyields
  obtain ⟨m₁, hpass, hac, hsame⟩ := hyields
  refine ⟨m₁.setRegister .ac2 (0 + m₁.register .ac),
    hpass.append (passes_lda m₁ (by decide) (by decide) 0),
    hsame.alters.trans (.setRegister (.inl rfl) m₁ _), ?_,
    (hserves.same hsame).setRegister (by decide) _⟩
  rw [register_setRegister_self, hac, Int64.zero_add]

/-- The address of the target of an assignment waits while that of the source is computed. -/
theorem Poised.copiesAfter_keep {a : Analysis} {target source : VarRef} {c c' : Code}
    {T S : Word} (h : m.Poised 0 (max target.depth source.depth) start lo hi)
    (hlevels : ∀ e : Expr, e.Levelled a (m.data.without lo hi)) (hc : target.code a 0 = .ok c)
    (hc' : source.code a 0 = .ok c') (hT : target.addressIn a (m.data.without lo hi) = .ok T)
    (hS : source.addressIn a (m.data.without lo hi) = .ok S) (hn : (n : Int) ≤ Word.greatest)
    (hsource : m.Houses S.toInt n lo hi) (htarget : m.Houses T.toInt n lo hi) :
    m.CopiesAfter (Code.keep c ++ c') .ac2 0 n S.toInt T.toInt lo hi := by
  obtain ⟨m₁, hpass, halters, hac2, hserves⟩ := h.keeps (Nat.le_max_left ..) (hlevels _) hc hT
  have hspares := (h.spares.mono (Nat.le_max_right ..)).alters halters
  refine .before hpass halters (hserves.copiesAfter hspares (hlevels _) hc' hS (by decide) ?_
    hn (hsource.alters halters) (htarget.alters halters))
  intro k hk
  rw [hac2, toInt_ofInt ⟨by unfold Word.least; omega, by omega⟩]
  omega

/-- The target of an argument is found through `top`. -/
theorem Poised.copiesAfter_top {a : Analysis} {source : VarRef}
    {S : Word} (h : m.Poised 0 source.depth start lo hi)
    (hlevels : (Expr.ref source).Levelled a (m.data.without lo hi))
    (hc : source.code a 0 = .ok c)
    (hS : source.addressIn a (m.data.without lo hi) = .ok S) (hoffset : 0 ≤ offset)
    (hn : offset + n ≤ Word.greatest) (hsource : m.Houses S.toInt n lo hi)
    (htarget : m.Houses ((m.register .top).toInt + offset) n lo hi) :
    m.CopiesAfter c .top offset n S.toInt ((m.register .top).toInt + offset) lo hi := by
  refine (m.serves_data lo hi).copiesAfter h.spares hlevels hc hS (by decide) ?_
    (by omega) hsource htarget
  intro k hk
  rw [toInt_ofInt ⟨by unfold Word.least; omega, by omega⟩]
  omega

end Machine

/-! ## Statements of a program -/

section

variable {a : Analysis} {Γ : Names} {level : Nat}

mutual

/-- The statements within a resolved statement are resolved. -/
theorem Stmt.Resolved.within : ∀ {s : Stmt}, s.Resolved a Γ level →
    ∀ s' ∈ s.within, s'.Resolved a Γ level
  | .ifElse .., h => by
    cases h with
    | ifElse hcondition hthen helse =>
      rw [Stmt.within]
      exact List.forall_mem_cons.mpr
        ⟨.ifElse hcondition hthen helse, List.forall_mem_append.mpr
        ⟨Stmt.Resolved.withinAll hthen, Stmt.Resolved.withinAll helse⟩⟩
  | .whileDo .., h => by
    cases h with
    | whileDo hcondition hbody =>
      rw [Stmt.within]
      exact List.forall_mem_cons.mpr ⟨.whileDo hcondition hbody,
        Stmt.Resolved.withinAll hbody⟩
  | .assign .., h | .read .., h | .write .., h | .call _, h | .ret _, h => by
    rw [Stmt.within]
    exact List.forall_mem_singleton.mpr h

theorem Stmt.Resolved.withinAll : ∀ {ss : List Stmt}, (∀ s ∈ ss, s.Resolved a Γ level) →
    ∀ s' ∈ Stmt.withinAll ss, s'.Resolved a Γ level
  | [], _ => by simp [Stmt.withinAll]
  | s :: rest, h => by
    obtain ⟨hs, hrest⟩ := List.forall_mem_cons.mp h
    rw [Stmt.withinAll]
    exact List.forall_mem_append.mpr ⟨Stmt.Resolved.within hs, Stmt.Resolved.withinAll hrest⟩

end

variable {s : GenState}

/-- Code for an assignment is generated. -/
theorem Stmt.Resolved.storeValue_ok (hbuiltins : ({} : TypeTable) ≤ a.types) {target : VarRef}
    {value : Expr} {span : Span} (h : (Stmt.assign target value span).Resolved a Γ level)
    (hs : s.emitter.AtEnd) (ht : s.temporaries = 0) :
    ∃ s', (Gen.storeValue a target value span : Gen Unit).run s = .ok ((), s') := by
  cases h with
  | assign htarget hvalue =>
    obtain ⟨c, hc⟩ := Reference.assignCode_ok hbuiltins htarget hvalue span
    exact (Gen.storeValue_completes a target value span hs ht).run_ok hc

/-- Code for all arguments of a call is generated. -/
theorem Call.Resolved.passArgument_ok (hbuiltins : ({} : TypeTable) ≤ a.types) {call : Call}
    (h : call.Resolved a Γ) (hs : s.emitter.AtEnd) (ht : s.temporaries = 0) :
    ∃ id P, a.annotations.symbol? call.node = some id ∧ a.symbols.procedureAt? id = some P ∧
      P.params.length = call.args.length ∧
      ∀ param arg, (param, arg) ∈ P.params.zip call.args →
      ∃ s', (Gen.passArgument a arg param : Gen Unit).run s = .ok ((), s') := by
  obtain ⟨id, P, _, hP, hid, hargs⟩ := h
  obtain ⟨hlength, hzip⟩ := List.forall₂_iff_zip.mp hargs
  refine ⟨id, P, hid, hP, hlength, ?_⟩
  intro param arg hmem
  obtain ⟨c, hc⟩ := (hzip hmem).code_ok hbuiltins
  exact (Gen.passArgument_completes a arg param hs ht).run_ok hc

end

/-- **Arrays and records are copied at once.** Let code for an assignment or an argument be
generated from the analysis of an accepted program, as it is for every one of them if the
nodes of the program have distinct identities. If the value does not take one word, it is a
reference. Let the machine enter the code where there is room for the temporaries, source and
target are in data memory, as are the words that are read for their addresses, and no
temporary is among these. If source and target are the same words or have none in common, the
machine comes to the end of the code with the words of the source in the target, as they were
at the start, and has changed nothing else but temporaries and registers for intermediate
results. -/
theorem Program.copies_at_once {p : Program} {a : Analysis} (ha : p.analyze = .ok a) :
    (p.DistinctNodes → ∀ b ∈ p.blocks, ∀ st ∈ Stmt.withinAll b.body, ∀ s : GenState,
      s.emitter.AtEnd →
      s.temporaries = 0 →
      (∀ target value span, st = .assign target value span →
        ∃ s', (Gen.storeValue a target value span : Gen Unit).run s = .ok ((), s')) ∧
      ∀ call, st = .call call → ∃ id P, a.annotations.symbol? call.node = some id ∧
        a.symbols.procedureAt? id = some P ∧ P.params.length = call.args.length ∧
        ∀ param arg, (param, arg) ∈ P.params.zip call.args →
        ∃ s', (Gen.passArgument a arg param : Gen Unit).run s = .ok ((), s')) ∧
    (∀ (target : VarRef) (value : Expr) (span : Span) (type : TypeId) (n : Nat)
      (s s' : GenState),
      a.annotations.type? target.node = some type → a.types.size type = n →
      n ≠ 1 → s.emitter.AtEnd → s.temporaries = 0 →
      (Gen.storeValue a target value span : Gen Unit).run s = .ok ((), s') →
      ∃ source c, value = .ref source ∧ s.Grown c s' ∧
        ∀ (m : Machine) (start : Nat) (lo hi : Int) (T S : Word), Code.Addressable m.code →
          Code.At m.code start c →
          m.Poised 0 (max target.depth source.depth) start lo hi →
          target.addressIn a (m.data.without lo hi) = .ok T →
          source.addressIn a (m.data.without lo hi) = .ok S →
          m.Houses T.toInt n lo hi → m.Houses S.toInt n lo hi →
          (T.toInt = S.toInt ∨ T.toInt + n ≤ S.toInt ∨ S.toInt + n ≤ T.toInt) →
          m.ComesTo (start + c.length) (m.Copied n S.toInt T.toInt lo hi)) ∧
    ∀ (arg : Expr) (param : SymbolId) (v : Variable) (n : Nat) (s s' : GenState),
      a.symbols.variableAt? param = some v → v.access = .direct →
      a.types.size v.type = n → n ≠ 1 → s.emitter.AtEnd → s.temporaries = 0 →
      (Gen.passArgument a arg param : Gen Unit).run s = .ok ((), s') →
      ∃ source c, arg = .ref source ∧ s.Grown c s' ∧
        ∀ (m : Machine) (start : Nat) (lo hi T : Int) (S : Word), Code.Addressable m.code →
          Code.At m.code start c →
          m.Poised 0 source.depth start lo hi → T = (m.register .top).toInt + v.offset →
          source.addressIn a (m.data.without lo hi) = .ok S →
          m.Houses T n lo hi → m.Houses S.toInt n lo hi →
          (T = S.toInt ∨ T + n ≤ S.toInt ∨ S.toInt + n ≤ T) →
          m.ComesTo (start + c.length) (m.Copied n S.toInt T lo hi) := by
  have hp := Program.analyzed_of_analyze ha
  have hconsistent := Program.consistent_of_analyze ha
  refine ⟨?_, ?_, ?_⟩
  · intro hnodes b hb st hst s hs ht
    have hresolved := Stmt.Resolved.withinAll (hp.noted hnodes b hb).body st hst
    constructor
    · rintro target value span rfl
      exact hresolved.storeValue_ok hp.builtins hs ht
    · rintro call rfl
      cases hresolved with
      | call hcall => exact hcall.passArgument_ok hp.builtins hs ht
  · intro target value span type n s s' htype hsize hn hs ht hrun
    obtain ⟨c, hc, hgrown⟩ := (Gen.storeValue_completes a target value span hs ht).grown hrun
    obtain ⟨type', address, store, htype', haddress, hstore, rfl⟩ :=
      Reference.assignCode_eq_ok hc
    cases htype.symm.trans htype'
    cases hstore with
    -- A value of one word is stored from `ac`, and such a size is excluded here.
    | word hone => omega
    | @words source c' _ hc' =>
      refine ⟨source, _, rfl, hgrown, ?_⟩
      intro m start lo hi T S hm hat hpoised hT hS htarget hsource hapart
      have hle := hconsistent.size_le type
      have hcopies := hpoised.copiesAfter_keep (n := n)
        (Program.levelled ha _) haddress hc' hT hS (by omega) hsource htarget
      rw [← List.append_assoc, hsize] at hat ⊢
      exact hcopies.comesTo hm hat hpoised.pc hsource hapart
  · intro arg param v n s s' hv haccess hsize hn hs ht hrun
    obtain ⟨c, hc, hgrown⟩ := (Gen.passArgument_completes a arg param hs ht).grown hrun
    obtain ⟨v', hv', hform⟩ := Expr.argumentCode_eq_ok hc
    cases hv.symm.trans hv'
    rw [haccess] at hform
    cases hform with
    | word hone => omega
    | @words source c' _ hc' =>
      refine ⟨source, _, rfl, hgrown, ?_⟩
      rintro m start lo hi T S hm hat hpoised rfl hS htarget hsource hapart
      have hlaid := hconsistent.variable_laid hv
      have hwords := hlaid.words
      rw [haccess, Check.slotSize, hsize] at hwords
      have hcopies := hpoised.copiesAfter_top
        (Program.levelled ha _ _) hc' hS hlaid.offset hwords hsource htarget
      rw [hsize] at hat ⊢
      exact hcopies.comesTo hm hat hpoised.pc hsource hapart

open Build in
/-- A row of a table is copied to the next one. -/
def Build.shifting : Build Program := do
  let rows ← varDecl ["rows"] (← array 1 2 (← array 1 3 (← integer)))
  let k ← varDecl ["k"] (← integer)
  let next ← binary .add (.ref (← var "k")) (← const 1)
  program "shifting" [← vars [rows, k]]
    [← assign (← index "rows" next) (.ref (← index "rows" (.ref (← var "k"))))]

def Program.shifting : Program := (StateT.run (m := Id) Build.shifting {}).1

/-- The memory of that program, with 1 for `k`. -/
def Program.shiftingMemory : Memory where
  words := #[7, 8, 9, 0, 0, 0, 1, 0, 0, 0, 0, 0]

/-- The target and the source of an assignment from a reference. -/
def Stmt.copies? : Stmt → Option (VarRef × VarRef × Span)
  | .assign target (.ref source) span => some (target, source, span)
  | _ => none

/-- An assignment of a reference, recognized as such. -/
theorem Stmt.eq_of_copies? {s : Stmt} {target source : VarRef} {span : Span}
    (h : s.copies? = some (target, source, span)) :
    s = .assign target (.ref source) span := by
  cases s with
  | assign target value span =>
    cases value with
    | ref source =>
      cases h
      rfl
    | const | binary => cases h
  | ifElse | whileDo | read | write | call | ret => cases h

/-- An assignment of one row of an array to another. -/
theorem Program.shifting_assignment :
    ∃ (a : Analysis) (target source : VarRef) (span : Span) (type : TypeId) (s' : GenState),
    Program.shifting.analyze = .ok a ∧
      (Gen.storeValue a target (.ref source) span : Gen Unit).run .blank = .ok ((), s') ∧
      a.annotations.type? target.node = some type ∧ s'.emitter.contents.length < 100 ∧
      a.types.size type = 3 ∧ max target.depth source.depth = 1 ∧
      target.addressIn a ((Source.ofMemory Program.shiftingMemory 7).without 10 11) = .ok 3 ∧
      source.addressIn a ((Source.ofMemory Program.shiftingMemory 7).without 10 11) =
      .ok 0 := by
  have hcheck :
      (Program.shifting.analyze.toOption.any fun a => Program.shifting.body.any fun st =>
      st.copies?.any fun y => (a.annotations.type? y.1.node).any fun type =>
        ((Gen.storeValue a y.1 (.ref y.2.1) y.2.2 : Gen Unit).run .blank).toOption.any
            fun x =>
        decide (x.2.emitter.contents.length < 100 ∧
          a.types.size type = 3 ∧ max y.1.depth y.2.1.depth = 1 ∧
          y.1.addressIn a ((Source.ofMemory Program.shiftingMemory 7).without 10 11) = .ok 3 ∧
          y.2.1.addressIn a ((Source.ofMemory Program.shiftingMemory 7).without 10 11) =
          .ok 0)) = true := by
    decide +kernel
  obtain ⟨a, ha, hcheck⟩ := Except.exists_of_any_toOption hcheck
  obtain ⟨_, _, hcheck⟩ := List.any_eq_true.mp hcheck
  obtain ⟨⟨target, source, span⟩, _, hcheck⟩ := (Option.any_eq_true ..).mp hcheck
  obtain ⟨type, htype, hcheck⟩ := (Option.any_eq_true ..).mp hcheck
  obtain ⟨x, hrun, hcheck⟩ := Except.exists_of_any_toOption hcheck
  exact ⟨a, target, source, span, type, x.2, ha, hrun, htype, of_decide_eq_true hcheck⟩

/-- The row at address 0 comes to address 3. -/
theorem Program.shifting_copies_at_once :
    ∃ (a : Analysis) (target source : VarRef) (m : Machine) (c : Code),
    Program.shifting.analyze = .ok a ∧
      target.addressIn a (m.data.without 10 11) = .ok 3 ∧
      source.addressIn a (m.data.without 10 11) = .ok 0 ∧
      m.Poised 0 (max target.depth source.depth) 0 10 11 ∧
      m.Houses 3 3 10 11 ∧ m.Houses 0 3 10 11 ∧
      Code.At m.code 0 c ∧ m.ComesTo c.length (m.Copied 3 0 3 10 11) := by
  obtain ⟨a, target, source, span, type, s', ha, hrun, htype, hlength, hsize, hdepth,
      hT, hS⟩ :=
    Program.shifting_assignment
  obtain ⟨_, c, hsource, hgrown, hcopies⟩ :=
    (Program.copies_at_once ha).2.1 target (.ref source) span type 3 .blank s' htype hsize
      (by decide) ⟨rfl, rfl⟩ rfl hrun
  cases hsource
  let m : Machine := { Machine.load ⟨[], []⟩ ⟨12, 0⟩ [] with
    code := c.toArray, memory := Program.shiftingMemory, registers :=
      { mp := 11, displayOff := 7 } }
  have hwords : m.memory.size = 12 := by
    change Program.shiftingMemory.size = 12
    decide
  have hpoised : m.Poised 0 (max target.depth source.depth) 0 10 11 := by
    rw [hdepth]
    exact ⟨rfl, Int.le_refl 0, rfl, rfl, fun i hlo hhi => by omega⟩
  have htarget : m.Houses 3 3 10 11 := fun i h h' => ⟨by omega, by omega⟩
  have hsource : m.Houses 0 3 10 11 := fun i h h' => ⟨by omega, by omega⟩
  have hcomes := hcopies m 0 10 11 3 0 (hgrown.addressable hlength)
    (Code.at_self _) hpoised hT hS htarget hsource (.inr (.inr (by decide)))
  rw [Nat.zero_add] at hcomes
  exact ⟨a, target, source, m, c, ha, hT, hS, hpoised, htarget, hsource,
    Code.at_self _, hcomes⟩

/-! ## No room for temporaries -/

open Build in
/-- An empty record is assigned to another one, each at the place of a sum. -/
def Build.cramped : Build Program := do
  let a ← varDecl ["a"] (← array 0 1 (← record []))
  let target ← index "a" (← binary .add (← const 0) (← const 1))
  let source ← index "a" (← binary .add (← const 1) (← const 0))
  program "cramped" [← vars [a]] [← assign target (.ref source)]

def Program.cramped : Program := (StateT.run (m := Id) Build.cramped {}).1

/-- The state of that program when it comes to the assignment. Its display takes the only
word. -/
def Program.crampedState (code : ObjectCode) : Machine :=
  { Machine.load code ⟨1, 100⟩ [] with registers := { top := 1, pc := 10 } }

/-- No word is to be copied, and all words that are read are there and are no temporaries. Yet
the machine does not come to the end of the assignment: there is no word for the temporary
that the index of the target needs. -/
theorem Program.cramped_stops : ∃ (a : Analysis) (code : ObjectCode) (target source : VarRef)
    (span : Span) (type : TypeId)
      (c : Code), Program.cramped.analyze = .ok a ∧ Program.cramped.DistinctNodes ∧
      Program.cramped.compile {} = .ok code ∧
      .assign target (.ref source) span ∈ Program.cramped.body ∧
      a.annotations.type? target.node = some type ∧ a.types.size type = 0 ∧
      (Stmt.assign target (.ref source) span).StandsAt a []
      (Program.crampedState code).code 10 c ∧ max target.depth source.depth = 1 ∧
      ((Program.crampedState code).register .mp).toInt = 0 ∧
      target.addressIn a ((Program.crampedState code).data.without (-1) 0) = .ok 0 ∧
      source.addressIn a ((Program.crampedState code).data.without (-1) 0) = .ok 0 ∧
      (Program.crampedState code).Houses 0 0 (-1) 0 ∧
      ¬(Program.crampedState code).ComesTo (10 + c.length)
        ((Program.crampedState code).Copied 0 0 0 (-1) 0) ∧
      Program.cramped.run [] {} ⟨1, 100⟩ = .error (.fault (.dataOutOfRange (-1) 11)) := by
  have hcheck : (Program.cramped.analyze.toOption.any fun a =>
      (Program.cramped.compile {}).toOption.any fun code => Program.cramped.body.any fun st =>
        st.copies?.any fun y => (a.annotations.type? y.1.node).any fun type =>
          (Stmt.code a [] 10 (.assign y.1 (.ref y.2.1) y.2.2)).toOption.any fun c =>
            decide (a.types.size type = 0 ∧ max y.1.depth y.2.1.depth = 1 ∧ c.length = 23 ∧
              y.1.addressIn a ((Program.crampedState code).data.without (-1) 0) = .ok 0 ∧
              y.2.1.addressIn a ((Program.crampedState code).data.without (-1) 0) = .ok 0) &&
            decide (Code.At (Program.crampedState code).code 10 c ∧
              (Program.crampedState code).pace.2 = .running ∧
              (Program.crampedState code).pace.1.register .pc = 11 ∧
              (Program.crampedState code).pace.1.pace.2 = .fault (.dataOutOfRange (-1) 11))) =
      true := by
    decide +kernel
  obtain ⟨a, ha, hcheck⟩ := Except.exists_of_any_toOption hcheck
  obtain ⟨code, hcompile, hcheck⟩ := Except.exists_of_any_toOption hcheck
  obtain ⟨st, hst, hcheck⟩ := List.any_eq_true.mp hcheck
  obtain ⟨⟨target, source, span⟩, hcopies, hcheck⟩ := (Option.any_eq_true ..).mp hcheck
  obtain ⟨type, htype, hcheck⟩ := (Option.any_eq_true ..).mp hcheck
  obtain ⟨c, hc, hcheck⟩ := Except.exists_of_any_toOption hcheck
  simp only [Bool.and_eq_true, decide_eq_true_eq] at hcheck
  obtain ⟨⟨hsize, hdepth, hlength, hT, hS⟩, hat, hrunning, hpc, hfault⟩ := hcheck
  rw [Stmt.eq_of_copies? hcopies] at hst
  have hstops : ¬(Program.crampedState code).ComesTo (10 + c.length)
      ((Program.crampedState code).Copied 0 0 0 (-1) 0) := by
    rw [hlength]
    have hfirst : (Program.crampedState code).register .pc ≠ Int64.ofNat 33 := by
      change (10 : Word) ≠ Int64.ofNat 33
      decide
    refine Machine.not_comesTo_of_fault hfirst (Prod.ext rfl hrunning) ?_ hfault
    rw [hpc]
    decide
  exact ⟨a, code, target, source, span, type, c, ha, by decide +kernel, hcompile, hst, htype,
    hsize, ⟨hc, hat⟩, hdepth, rfl, hT, hS, fun i h h' => by omega, hstops, by decide +kernel⟩

end BlockLang
