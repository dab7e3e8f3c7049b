import BlockLang.Proofs.ExpressionCode

/-!
# Comparisons and the choices made by them

The machine has no comparison. The code for one subtracts and looks at the difference,
which wraps around, so `<` is the order of the integers only for operands whose difference
is a word. For operands further apart it is the opposite order. Equality is not affected,
since the difference wraps to zero for equal words only.

Conditions and loops go by the word that the comparison leaves. `Stmt.Chooses` says where
the code of both ways stands.

* `Word.Below` is the order by differences in terms of integers, and
  `Word.sub_neg_iff_below` says that it is what the sign of the difference tells.
* `Program.comparisons_decide`: the code of a comparison leaves one or zero accordingly,
  and the machine goes on to the statements of the case. `Program.farApart_against_order`
  has operands for which this is not the order of the integers.
* Where statements stand: `Stmt.StandsAt.chooses` takes the code of a conditional or a
  loop apart, and `Stmt.StandsAt.within` finds that of every statement in another one, by
  mutual recursion. `Stmt.condition_mem_parts` relates their conditions to the expressions
  of the program.
* `Stmt.Chooses.reaches`: from the end of the condition to the first statement of the
  case, one jump.
-/

namespace BlockLang

/-! ## What a comparison decides -/

/-- The order that the sign of a difference gives. -/
def Word.Below (u v : Word) : Prop :=
  if Fits (u.toInt - v.toInt) then u.toInt < v.toInt else v.toInt < u.toInt

instance (u v : Word) : Decidable (Word.Below u v) :=
  inferInstanceAs (Decidable (if Word.Fits (u.toInt - v.toInt) then u.toInt < v.toInt
      else v.toInt < u.toInt))

/-- The wrapped difference is negative. -/
theorem Word.sub_neg_iff_below (u v : Word) : u - v < 0 ↔ Word.Below u v := by
  have hu := u.le_toInt
  have hu' := u.toInt_lt
  have hv := v.le_toInt
  have hv' := v.toInt_lt
  rw [Int64.lt_iff_toInt_lt, Int64.toInt_sub, Int64.toInt_zero, Word.Below]
  by_cases hfits : Fits (u.toInt - v.toInt)
  · rw [if_pos hfits, Int.bmod_eq_of_le hfits.1 (Int.lt_of_le_of_lt hfits.2 (by decide))]
    omega
  · rw [if_neg hfits, Int.bmod_def]
    simp only [Fits, least, greatest] at hfits
    -- the exact difference leaves the words on one side, and the wrapped one comes back from
    -- the other
    omega

namespace BinaryOp

/-- What a comparison decides. -/
def Holds : BinaryOp → Word → Word → Prop
  | .less, u, v => Word.Below u v
  | .equal, u, v => u = v
  | .add, _, _ | .sub, _, _ | .mul, _, _ | .div, _, _ => False

instance : ∀ (op : BinaryOp) (u v : Word), Decidable (op.Holds u v)
  | .less, u, v => inferInstanceAs (Decidable (Word.Below u v))
  | .equal, u, v => inferInstanceAs (Decidable (u = v))
  | .add, _, _ | .sub, _, _ | .mul, _, _ | .div, _, _ => isFalse id

/-- A comparison as a word. -/
def truth (op : BinaryOp) (u v : Word) : Word := if op.Holds u v then 1 else 0

/-- A comparison gives one or zero. -/
theorem apply_of_isComparison {op : BinaryOp} (h : op.isComparison) (u v : Word) :
    op.apply u v = .ok (op.truth u v) := by
  cases op with
  | less => exact congrArg Except.ok (if_congr (Word.sub_neg_iff_below u v) rfl rfl)
  | equal => rfl
  | add | sub | mul | div => cases h

end BinaryOp

/-- A comparison has the value that it decides. -/
theorem Expr.valueIn_comparison {a : Analysis} {x : Source} {node : NodeId} {op : BinaryOp}
    {l r : Expr} {span : Span} {u v : Word} (h : op.isComparison)
    (hl : l.valueIn a x = .ok u) (hr : r.valueIn a x = .ok v) :
    (Expr.binary node op l r span).valueIn a x = .ok (op.truth u v) := by
  rw [Expr.valueIn, hl, hr]
  exact BinaryOp.apply_of_isComparison h u v

/-! ## Where statements stand -/

mutual

/-- A statement and the statements in it. -/
def Stmt.within : Stmt → List Stmt
  | .ifElse condition thenBranch elseBranch span =>
    .ifElse condition thenBranch elseBranch span ::
      (Stmt.withinAll thenBranch ++ Stmt.withinAll elseBranch)
  | .whileDo condition body span => .whileDo condition body span :: Stmt.withinAll body
  | .assign target value span => [.assign target value span]
  | .read target span => [.read target span]
  | .write value span => [.write value span]
  | .call c => [.call c]
  | .ret span => [.ret span]

def Stmt.withinAll : List Stmt → List Stmt
  | [] => []
  | s :: rest => Stmt.within s ++ Stmt.withinAll rest

end

/-- The code of a statement stands at an address. -/
def Stmt.StandsAt (a : Analysis) (entries : Entries) (code : Array Instruction) (start : Nat)
    (s : Stmt) (c : Code) : Prop :=
  s.code a entries start = .ok c ∧ Code.At code start c

/-- The condition of a statement and the statements it chooses between. A loop that ends goes
on after itself. -/
def Stmt.choice? : Stmt → Option (Expr × List Stmt × List Stmt)
  | .ifElse condition thenBranch elseBranch _ => some (condition, thenBranch, elseBranch)
  | .whileDo condition body _ => some (condition, body, [])
  | _ => none

/-- The code of a choice: a test at `start`, statements at `yesAt` for when it holds and
statements at `noAt`, up to `stop`, for when it does not. -/
structure Stmt.Chooses (a : Analysis) (entries : Entries)
    (code : Array Instruction) (condition : Expr) (yes no : List Stmt)
    (start : Nat) (test : Code) (yesAt noAt stop : Nat) : Prop where
  conditionCode : condition.code a 0 = .ok test
  testAt : Code.At code start (test ++ [Code.skipIfZero (noAt - yesAt)])
  testLength : yesAt = start + test.length + 1
  yesCode : ∃ c, Stmt.codeAll a entries yesAt yes = .ok c ∧ Code.At code yesAt c ∧
    noAt = yesAt + c.length + 1
  noCode : ∃ c, Stmt.codeAll a entries noAt no = .ok c ∧ Code.At code noAt c ∧
    stop = noAt + c.length

section

variable {a : Analysis} {entries : Entries} {code : Array Instruction} {start : Nat}

/-- The code of both `if` and `while` has this form. A loop ends in a jump back with nothing
after it. -/
theorem Stmt.chooses_of_code {condition : Expr} {yes no : List Stmt} {c₁ c₂ c₃ : Code}
    {jump : Instruction} (hc₁ : condition.code a 0 = .ok c₁)
    (hc₂ : Stmt.codeAll a entries (start + c₁.length + 1) yes = .ok c₂)
    (hc₃ : Stmt.codeAll a entries (start + c₁.length + 1 + c₂.length + 1) no = .ok c₃)
    (hat : Code.At code start (c₁ ++ Code.skipIfZero (c₂.length + 1) :: c₂ ++ jump :: c₃)) :
    Stmt.Chooses a entries code condition yes no start c₁ (start + c₁.length + 1)
    (start + c₁.length + 1 + c₂.length + 1)
      (start + (c₁ ++ Code.skipIfZero (c₂.length + 1) :: c₂ ++ jump :: c₃).length) := by
  rw [List.append_assoc, List.cons_append] at hat
  obtain ⟨hat₁, hskip, hat⟩ := Code.at_append.mp hat
  obtain ⟨hat₂, _, hat₃⟩ := Code.at_append.mp hat
  refine ⟨hc₁, ?_, rfl, ⟨c₂, hc₂, hat₂, rfl⟩, c₃, hc₃, hat₃, by simp; omega⟩
  rw [show start + c₁.length + 1 + c₂.length + 1 - (start + c₁.length + 1) = c₂.length + 1
    by omega]
  exact Code.at_append.mpr ⟨hat₁, hskip, trivial⟩

/-- A statement that chooses has the code of a choice. -/
theorem Stmt.StandsAt.chooses {s : Stmt} {c : Code} (h : s.StandsAt a entries code start c)
    {condition : Expr} {yes no : List Stmt} (hs : s.choice? = some (condition, yes, no)) :
    ∃ test yesAt noAt, Stmt.Chooses a entries code condition yes no start test yesAt noAt
    (start + c.length) := by
  obtain ⟨hc, hat⟩ := h
  cases s with
  | ifElse _ _ _ _ =>
    cases hs
    obtain ⟨c₁, c₂, c₃, hc₁, hc₂, hc₃, rfl⟩ := Stmt.code_ifElse_eq_ok hc
    exact ⟨_, _, _, Stmt.chooses_of_code hc₁ hc₂ hc₃ hat⟩
  | whileDo _ _ _ =>
    cases hs
    obtain ⟨c₁, c₂, hc₁, hc₂, rfl⟩ := Stmt.code_whileDo_eq_ok hc
    exact ⟨_, _, _, Stmt.chooses_of_code hc₁ hc₂ rfl hat⟩
  | assign | read | write | call | ret => cases hs

mutual

/-- With a statement the statements in it stand in the code. -/
theorem Stmt.StandsAt.within {code : Array Instruction} :
    ∀ {s : Stmt} {start : Nat} {c : Code}, s.StandsAt a entries code start c →
    ∀ s' ∈ s.within, ∃ start' c', s'.StandsAt a entries code start' c'
  | .ifElse condition thenBranch elseBranch span, start, c, h => by
    obtain ⟨_, yesAt, noAt, hchooses⟩ := h.chooses rfl
    obtain ⟨c₂, hc₂, hat₂, _⟩ := hchooses.yesCode
    obtain ⟨c₃, hc₃, hat₃, _⟩ := hchooses.noCode
    rw [Stmt.within]
    exact List.forall_mem_cons.mpr ⟨⟨start, c, h⟩, List.forall_mem_append.mpr
      ⟨Stmt.StandsAt.withinAll hc₂ hat₂, Stmt.StandsAt.withinAll hc₃ hat₃⟩⟩
  | .whileDo condition body span, start, c, h => by
    obtain ⟨_, yesAt, _, hchooses⟩ := h.chooses rfl
    obtain ⟨c₂, hc₂, hat₂, _⟩ := hchooses.yesCode
    rw [Stmt.within]
    exact List.forall_mem_cons.mpr ⟨⟨start, c, h⟩, Stmt.StandsAt.withinAll hc₂ hat₂⟩
  | .assign .., start, c, h | .read .., start, c, h | .write .., start, c, h | .call _,
    start, c, h
  | .ret _, start, c, h => by
    rw [Stmt.within]
    exact List.forall_mem_singleton.mpr ⟨start, c, h⟩

theorem Stmt.StandsAt.withinAll {code : Array Instruction} :
    ∀ {ss : List Stmt} {start : Nat} {c : Code},
    Stmt.codeAll a entries start ss = .ok c → Code.At code start c →
      ∀ s' ∈ Stmt.withinAll ss, ∃ start' c', s'.StandsAt a entries code start' c'
  | [], _, _, _, _ => by simp [Stmt.withinAll]
  | s :: rest, start, c, hc, hat => by
    obtain ⟨c₁, c₂, hc₁, hc₂, rfl⟩ := Stmt.codeAll_cons_eq_ok hc
    obtain ⟨hat₁, hat₂⟩ := Code.at_append.mp hat
    rw [Stmt.withinAll]
    exact List.forall_mem_append.mpr ⟨Stmt.StandsAt.within ⟨hc₁, hat₁⟩,
      Stmt.StandsAt.withinAll hc₂ hat₂⟩

end

end

theorem Expr.mem_parts_self (e : Expr) : e ∈ e.parts := by
  cases e with
  | const | binary => simp [Expr.parts]
  | ref r =>
    cases r
    simp [Expr.parts]

mutual

/-- The conditions of the statements in a statement are among its expressions. -/
theorem Stmt.condition_mem_parts {condition : Expr} {yes no : List Stmt} :
    ∀ {s s' : Stmt}, s' ∈ s.within →
    s'.choice? = some (condition, yes, no) → condition ∈ s.parts
  | .ifElse condition' thenBranch elseBranch span, s', hs', hchoice => by
    rw [Stmt.within] at hs'
    rw [Stmt.parts, List.mem_append, List.mem_append]
    rcases List.mem_cons.mp hs' with rfl | hs'
    · cases hchoice
      exact .inl (Expr.mem_parts_self _)
    · rcases List.mem_append.mp hs' with hs' | hs'
      · exact .inr (.inl (Stmt.condition_mem_partsAll hs' hchoice))
      · exact .inr (.inr (Stmt.condition_mem_partsAll hs' hchoice))
  | .whileDo condition' body span, s', hs', hchoice => by
    rw [Stmt.within] at hs'
    rw [Stmt.parts, List.mem_append]
    rcases List.mem_cons.mp hs' with rfl | hs'
    · cases hchoice
      exact .inl (Expr.mem_parts_self _)
    · exact .inr (Stmt.condition_mem_partsAll hs' hchoice)
  | .assign .., s', hs', hchoice | .read .., s', hs', hchoice | .write .., s', hs', hchoice |
    .call _, s', hs', hchoice
  | .ret _, s', hs', hchoice => by
    rw [Stmt.within, List.mem_singleton] at hs'
    subst hs'
    cases hchoice

theorem Stmt.condition_mem_partsAll {condition : Expr} {yes no : List Stmt} :
    ∀ {ss : List Stmt} {s' : Stmt}, s' ∈ Stmt.withinAll ss →
    s'.choice? = some (condition, yes, no) → condition ∈ Stmt.partsAll ss
  | [], _, hs', _ => by simp [Stmt.withinAll] at hs'
  | s :: rest, s', hs', hchoice => by
    rw [Stmt.withinAll] at hs'
    rw [Stmt.partsAll, List.mem_append]
    rcases List.mem_append.mp hs' with hs' | hs'
    · exact .inl (Stmt.condition_mem_parts hs' hchoice)
    · exact .inr (Stmt.condition_mem_partsAll hs' hchoice)

end

/-! ## Comparisons of a program -/

/-- The machine is about to compute an expression whose code starts at `start`, with `t` for
the temporaries in use. Its own ones are the words from `lo` up to `hi`, which are in data
memory, and so are the words read, which are none of them. -/
structure Machine.ReadyFor (m : Machine) (a : Analysis) (e : Expr) (t : Int) (start : Nat)
    (lo hi : Int) : Prop where
  pc : m.register .pc = Int64.ofNat start
  counter : t ≤ 0
  upper : hi = (m.register .mp).toInt + t
  lower : lo = hi - e.depth
  window : ∀ i, lo ≤ i → i < hi → 0 ≤ i ∧ i < m.memory.size
  apart : e.valueIn a (m.data.without lo hi) ≠ .error .outOfBounds

section

variable {a : Analysis} {Γ : Names} {m : Machine} {t : Int} {start : Nat} {lo hi : Int}
  {type : TypeId} {node : NodeId} {op : BinaryOp} {l r : Expr} {span : Span} {u v : Word}

/-- The code of a comparison leaves what the comparison decides. -/
theorem Machine.ReadyFor.compares (h : m.ReadyFor a (.binary node op l r span) t start lo hi)
    (he : (Expr.binary node op l r span).Resolved a Γ type) (hlevels : ∀ x, a.Levelled Γ x)
    (hm : Code.Addressable m.code) {c : Code}
    (hc : (Expr.binary node op l r span).code a t = .ok c) (hat : Code.At m.code start c)
    {stop : Word → Nat} (hstop : ∀ m' : Machine, m'.code = m.code →
      ∃ n, Machine.Reaches (m'.goto (start + c.length)) n (m'.goto (stop (m'.register .ac))))
    (hop : op.isComparison) (hl : l.valueIn a m.data = .ok u)
    (hr : r.valueIn a m.data = .ok v) :
    m.Computes (.ok (op.truth u v)) lo hi stop := by
  have hcomputes :=
    (he.computes hlevels hm h.pc h.counter h.upper h.lower h.window hat hstop).1 hc h.apart
  rwa [Expr.valueIn_comparison hop hl hr] at hcomputes

/-- After the test of a choice the machine goes one way or the other. -/
theorem Stmt.Chooses.reaches {entries : Entries} {condition : Expr}
    {yes no : List Stmt} {test : Code} {yesAt noAt stop : Nat}
    (h : Stmt.Chooses a entries m.code condition yes no start test yesAt noAt stop)
    (hm : Code.Addressable m.code) : ∃ n, Machine.Reaches (m.goto (start + test.length)) n
    (m.goto (if m.register .ac = 0 then noAt else yesAt)) := by
  obtain ⟨_, _, _, hnoAt⟩ := h.yesCode
  have hjump := Machine.jumpsIf_jeq m (start + test.length) (noAt - yesAt) [] hm
    (Code.at_append.mp h.testAt).2
  rw [← h.testLength, show yesAt + (noAt - yesAt) = noAt by omega] at hjump
  exact ⟨1, .single hjump⟩

end

/-- **Comparisons decide by the sign of the difference.** In an accepted program whose nodes
have distinct identities every comparison and every statement stands in the code. Let the code
of a comparison stand anywhere, let the machine be ready for it and let its operands have
values. Then it leaves one in `ac` if `=` finds the values equal or `<` finds the first one
below the second one, and zero if not. If it is the condition of an `if` or a `while`, the
machine goes on to the statements for the one case or the other. -/
theorem Program.comparisons_decide {p : Program} {a : Analysis}
    (ha : p.analyze = .ok a) (hnodes : p.DistinctNodes) (o : Options) :
    ∃ code, p.compile o = .ok code ∧ (code.instructions.length < 2 ^ 63 →
      ∀ b ∈ p.blocks,
        (∀ node op l r span, .binary node op l r span ∈ Stmt.partsAll b.body →
            op.isComparison →
          Expr.Stands a code.instructions.toArray (.binary node op l r span) ∧
          ∀ (m : Machine) (t : Int) (start : Nat) (c : Code) (lo hi : Int) (u v : Word),
            m.code = code.instructions.toArray →
            m.ReadyFor a (.binary node op l r span) t start lo hi →
            (Expr.binary node op l r span).code a t = .ok c → Code.At m.code start c →
            l.valueIn a m.data = .ok u → r.valueIn a m.data = .ok v →
            m.Computes (.ok (if op.Holds u v then 1 else 0)) lo hi fun _ =>
            start + c.length) ∧
        ∀ s ∈ Stmt.withinAll b.body, ∀ node op l r span yes no,
          s.choice? = some (.binary node op l r span, yes, no) → op.isComparison →
          ∃ entries start c test yesAt noAt,
          s.StandsAt a entries code.instructions.toArray start c ∧
            Stmt.Chooses a entries code.instructions.toArray
              (.binary node op l r span) yes no start test yesAt noAt
              (start + c.length) ∧
            ∀ (m : Machine) (lo hi : Int) (u v : Word),
              m.code = code.instructions.toArray →
              m.ReadyFor a (.binary node op l r span) 0 start lo hi →
              l.valueIn a m.data = .ok u → r.valueIn a m.data = .ok v →
              m.Computes (.ok (if op.Holds u v then 1 else 0)) lo hi fun _ => if op.Holds u v
              then yesAt else noAt) := by
  obtain ⟨code, l, Γ, hcompile, hcode, hresolved⟩ := Program.compile_of_analyze ha hnodes o
  obtain ⟨procedures, entries, _, hprocedures, _⟩ := Program.code_eq_ok hcode
  have hp := Program.analyzed_of_analyze ha
  refine ⟨code, hcompile, ?_⟩
  intro hlength b hb
  have hbody := (hp.noted hnodes b hb).body
  obtain ⟨⟨_, _, _, hbodyCode, hat, _⟩, _⟩ := hresolved.blocks_stand hcode hprocedures b hb
  have hlevels := (hp.laid b hb).levelled (Program.level_le hp.laid b hb)
  have hcodes : Code.Addressable code.instructions.toArray :=
    Code.addressable_of_length hlength
  constructor
  · intro node op l r span he hop
    refine ⟨Stmt.Resolved.partsAll_stand hbody hbodyCode hat _ he, ?_⟩
    obtain ⟨type, htype⟩ := Stmt.Resolved.partsAll hbody _ he
    intro m t start c lo hi u v hmcode hready hc hatc hl hr
    exact hready.compares htype hlevels (hmcode ▸ hcodes) hc hatc
      (fun _ _ => ⟨0, .refl⟩) hop hl hr
  · intro s hs node op l r span yes no hchoice hop
    obtain ⟨start, c, hstands⟩ := Stmt.StandsAt.withinAll hbodyCode hat s hs
    obtain ⟨test, yesAt, noAt, hchooses⟩ := hstands.chooses hchoice
    refine ⟨_, start, c, test, yesAt, noAt, hstands, hchooses, ?_⟩
    intro m lo hi u v hmcode hready hl hr
    obtain ⟨type, htype⟩ :=
      Stmt.Resolved.partsAll hbody _ (Stmt.condition_mem_partsAll hs hchoice)
    have hm : Code.Addressable m.code := hmcode ▸ hcodes
    have htest : Code.At m.code start test := hmcode ▸ (Code.at_append.mp hchooses.testAt).1
    -- Behind the condition stands a jump, and where it leads depends on `ac` alone.
    let way : Word → Nat := fun w => if w = 0 then noAt else yesAt
    have hway : ∀ m' : Machine, m'.code = m.code → ∃ n,
        Machine.Reaches (m'.goto (start + test.length)) n (m'.goto (way (m'.register .ac))) :=
      fun m' hm' => Stmt.Chooses.reaches (m := m') (hm'.trans hmcode ▸ hchooses)
        (hm'.trans hmcode ▸ hcodes)
    have hdecides :=
      hready.compares htype hlevels hm hchooses.conditionCode htest hway hop hl hr
    simpa [Machine.Computes, way, BinaryOp.truth] using hdecides

/-- The memory of the nesting program while `count` runs, with the least word for `k`. -/
def Program.farMemory : Memory := Program.countingMemory.set 30 (-9223372036854775808)

/-- The procedure `count` compares zero with `k`, and one word is needed for zero
meanwhile. -/
theorem Program.nesting_test {a : Analysis} (ha : Program.nesting.analyze = .ok a) :
    ∃ b ∈ Program.nesting.blocks, ∃ s ∈ Stmt.withinAll b.body, ∃ node l r span yes no,
      s.choice? = some (.binary node .less l r span, yes, no) ∧
      (Expr.binary node .less l r span).depth = 1 ∧
      (Expr.binary node .less l r span).valueIn a
      ((Source.ofMemory Program.farMemory 20).without 38 39) = .ok 1 ∧
      l.valueIn a (.ofMemory Program.farMemory 20) = .ok 0 ∧
      r.valueIn a (.ofMemory Program.farMemory 20) = .ok (-9223372036854775808) := by
  have hcheck :
      (Program.nesting.analyze.toOption.any fun a => Program.nesting.blocks.any fun b =>
      (Stmt.withinAll b.body).any fun s => s.choice?.any fun choice =>
        match choice.1 with
        | .binary node .less l r span =>
          decide ((Expr.binary node .less l r span).depth = 1 ∧
            (Expr.binary node .less l r span).valueIn a
            ((Source.ofMemory Program.farMemory 20).without 38 39) = .ok 1 ∧
            l.valueIn a (.ofMemory Program.farMemory 20) = .ok 0 ∧
            r.valueIn a (.ofMemory Program.farMemory 20) = .ok (-9223372036854775808))
        | _ => false) = true := by decide +kernel
  rw [ha] at hcheck
  simp only [Except.toOption, Option.any_some] at hcheck
  obtain ⟨b, hb, hcheck⟩ := List.any_eq_true.mp hcheck
  obtain ⟨s, hs, hcheck⟩ := List.any_eq_true.mp hcheck
  cases hchoice : s.choice? with
  | none => simp [hchoice] at hcheck
  | some choice =>
    obtain ⟨condition, yes, no⟩ := choice
    simp only [hchoice, Option.any_some] at hcheck
    split at hcheck
    next node l r span =>
      exact ⟨b, hb, s, hs, node, l, r, span, yes, no, hchoice, of_decide_eq_true hcheck⟩
    · cases hcheck

/-- Zero is not less than the least word, but their difference is no word: `count` in the
nesting program finds it negative and goes the way of a `k` above zero. -/
theorem Program.nesting_comparisons_decide :
    ∃ (a : Analysis) (code : ObjectCode) (b : Block) (s : Stmt) (node : NodeId) (l r : Expr)
    (span : Span)
      (yes no : List Stmt) (start : Nat) (test : Code) (yesAt : Nat) (m : Machine),
      Program.nesting.analyze = .ok a ∧ Program.nesting.DistinctNodes ∧
      Program.nesting.compile {} = .ok code ∧ code.instructions.length < 2 ^ 63 ∧
      b ∈ Program.nesting.blocks ∧ s ∈ Stmt.withinAll b.body ∧
      s.choice? = some (.binary node .less l r span, yes, no) ∧
      .binary node .less l r span ∈ Stmt.partsAll b.body ∧
      m.code = code.instructions.toArray ∧
      m.ReadyFor a (.binary node .less l r span) 0 start 38 39 ∧
      l.valueIn a m.data = .ok 0 ∧ r.valueIn a m.data = .ok (-9223372036854775808) ∧
      Code.At m.code start test ∧ m.Computes (.ok 1) 38 39 (fun _ => start + test.length) ∧
      m.Computes (.ok 1) 38 39 fun _ => yesAt := by
  obtain ⟨a, ha⟩ := Program.nesting_accepted
  have hnodes := Program.nesting_distinctNodes
  obtain ⟨code, hcompile, hdecide⟩ := Program.comparisons_decide ha hnodes {}
  have hlength := Program.nesting_length hcompile
  obtain ⟨b, hb, s, hs, node, l, r, span, yes, no, hchoice, hdepth, hwithout, hl, hr⟩ :=
    Program.nesting_test ha
  have hmem := Stmt.condition_mem_partsAll hs hchoice
  obtain ⟨hcomparisons, hchoices⟩ := hdecide hlength b hb
  obtain ⟨entries, start, c, test, yesAt, noAt, _, hchooses, hgoes⟩ :=
    hchoices s hs _ _ _ _ _ _ _ hchoice rfl
  let m : Machine := { Machine.load code ⟨40, 0⟩ [] with
    memory := Program.farMemory, registers :=
      { mp := 39, displayOff := 20, pc := Int64.ofNat start } }
  have hready : m.ReadyFor a (.binary node .less l r span) 0 start 38 39 := by
    refine ⟨rfl, Int.le_refl 0, rfl, by rw [hdepth]; rfl, ?_, ?_⟩
    · change ∀ i : Int, 38 ≤ i → i < 39 → 0 ≤ i ∧ i < (40 : Nat)
      omega
    · change (Expr.binary node .less l r span).valueIn a
        ((Source.ofMemory Program.farMemory 20).without 38 39) ≠ _
      simp [hwithout]
  have htest : Code.At m.code start test := (Code.at_append.mp hchooses.testAt).1
  have hholds : BinaryOp.Holds .less 0 (-9223372036854775808) := by decide
  have hleaves := (hcomparisons _ _ _ _ _ hmem rfl).2 m 0 start test 38 39 0
    (-9223372036854775808) rfl hready hchooses.conditionCode htest hl hr
  have hgoes := hgoes m 38 39 0 (-9223372036854775808) rfl hready hl hr
  simp only [if_pos hholds] at hleaves hgoes
  exact ⟨a, code, b, s, node, l, r, span, yes, no, start, test, yesAt, m, ha, hnodes,
    hcompile, hlength, hb, hs, hchoice, hmem, rfl, hready, hl, hr, htest, hleaves, hgoes⟩

open Build in
/-- A test of two constants whose difference is no word. -/
def Build.farApart : Build Program := do
  let test ← binary .less (← const (-9223372036854775808)) (← const 1)
  program "farApart" [] [← ifElse test [← write (← const 1)] [← write (← const 0)]]

def Program.farApart : Program := (StateT.run (m := Id) Build.farApart {}).1

/-- The least word is less than one, and the program writes zero. -/
theorem Program.farApart_against_order :
    (∃ a, Program.farApart.analyze = .ok a) ∧ Program.farApart.DistinctNodes ∧
    (-9223372036854775808 : Word) < 1 ∧ Program.farApart.run [] {} ⟨100, 100⟩ = .ok [0] := by
  have hcheck : Program.farApart.analyze.toOption.isSome = true := by decide +kernel
  refine ⟨?_, by decide +kernel, by decide, by decide +kernel⟩
  cases ha : Program.farApart.analyze with
  | ok a => exact ⟨a, rfl⟩
  | error d => simp [ha, Except.toOption] at hcheck

end BlockLang
