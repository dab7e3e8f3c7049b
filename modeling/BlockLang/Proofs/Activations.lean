import BlockLang.Proofs.Calls

/-!
# Running procedures

What a procedure finds when its body begins, and what its caller finds when it is back.
The names that the procedure sees from outside are those around its declaration; their
variables stand in the frames that the display leads to.

* `Stage.enter`: the frame of the procedure is the running one, with the rooms of the
  frames below it. `Stage.Above` compares the two stages.
* `Machine.Hosts.begins`: after a call has transferred control, memory stands for what the
  interpreter makes of it. The display that the call has built leads to the frames of the
  levels around the procedure (`Machine.Hosts.builds_enter`), the parameters stand in
  their slots, and the sections are declared behind them.
* `Machine.Hosts.returns`: the caller's registers come back from the header of the frame
  that is left, which nothing has changed in the meantime (`Machine.Keeps.header`).
* `Machine.Follows.leave`: what the body does, and the return behind it, is what the call
  does. The storage of the procedure is given up, and the caller's still stands
  (`Machine.Holds.take`).
-/

namespace BlockLang

/-- `s'` runs in a frame behind that of `s`: its rooms are those of `s` and some behind the
header of the new frame. -/
structure Stage.Above (s s' : Stage) : Prop where
  rooms : ∃ new : Rooms, s'.rooms = s.rooms ++ new ∧ ∀ r ∈ new, s.top + 7 ≤ r.base
  sp : s'.sp = s.top
  top : s.top + 7 ≤ s'.top

/-- The stage of a procedure of which no variable stands yet. -/
def Stage.enter (s : Stage) (p : Procedure) : Stage where
  rooms := s.rooms
  bases k := if k = p.level then s.top else s.bases k
  level := p.level
  sp := s.top
  display := s.top + p.displayBase.toNat
  top := s.top + 7

section

variable {a : Analysis} {final : Linkage} {s s' : Stage} {m m' m'' : Machine} {env : Env}
  {Γ : Names} {σ : Storage} {p : ProcDecl Decl} {P : Procedure} {resume : Nat}

/-! ## The body begins -/

/-- The names around a procedure, seen from inside. -/
theorem Machine.Hosts.builds_enter (h : m.Hosts a final s env Γ σ) {around : Env} {Γ' : Names}
    {level : Nat} (haround : Env.Matches a final s m around Γ')
    (hwithin : Γ'.Within a level) (hlevel : P.level = level + 1)
    (hcode : m'.code = m.code) (hbelow : ∀ i, i < s.top → m'.word i = m.word i) :
    m'.Builds a final (s.enter P) ⟨Γ', Frame.headerSize⟩ ⟨around, σ⟩ where
  env := by
    refine haround.mono hcode (fun _ _ hp => hp) fun x hx v address hv hstands => ?_
    have hle := (hwithin x hx).1 v hv
    have hbases : (s.enter P).bases v.level = s.bases v.level := if_neg (by omega)
    unfold Variable.Stands at *
    rw [hbases]
    split at hstands
    · exact hstands
    · obtain ⟨hnonneg, slot, hslot, hlt, hfree, hword⟩ := hstands
      exact ⟨hnonneg, slot, hslot, Nat.lt_add_right 7 hlt, hfree,
        (hbelow slot hlt).trans hword⟩
  within := hwithin.mono (show level ≤ P.level by omega)
  holds := h.holds.mono fun r hr i hi =>
    hbelow i (Nat.lt_of_lt_of_le hi.2 (h.ordered.le r hr))
  ordered := h.ordered.mono (Nat.le_add_right ..)
  nonneg := show (0 : Int) ≤ 7 by decide
  top := by
    change ((s.top + 7 : Nat) : Int) =
      ((if P.level = P.level then s.top else s.bases P.level : Nat) : Int) + 7
    rw [if_pos rfl]
    rfl

/-- The arguments are there, so the procedure gets its variables and its body can begin. -/
theorem Machine.Hosts.begins (hbuiltins : ({} : TypeTable) ≤ a.types)
    (h : m.Hosts a final s env Γ σ)
    {around : Env} {Γ' Γ'' : Names} {level : Nat} {l l' : Layer} {args : List Argument}
    (haround : Env.Matches a final s m around Γ') (hwithin : Γ'.Within a level)
    (hlevel : P.level = level + 1) (hlevel_le : level ≤ s.level)
    (hsections : Decl.SectionsResolved a (level + 1) l p.decls l')
    (hbase : P.displayBase = l'.offset) (hframe : P.frameSize = l'.offset + (level + 2))
    (hle : s.top + P.frameSize ≤ m.memory.size)
    (hprocedures : Decl.ProceduresResolved a (level + 1) l'.names p.decls Γ'')
    (hplaced : ∀ q, .procedure q ∈ p.decls → q.Placed a final m.code)
    (henters : m.Enters s.top s.display P resume m')
    (hargs : m.Receives a s.rooms s.top (level + 1) ⟨Γ', Frame.headerSize⟩ p.formals args l) :
    ∃ s' x, p.activate around σ args = .ok x ∧ m'.Hosts a final s' x.env Γ'' x.storage ∧
    s.Above s' ∧
      s'.level = level + 1 ∧ (s'.top : Int) = s.top + P.frameSize := by
  have hself : (s.enter P).bases (level + 1) = s.top := if_pos hlevel.symm
  have hgrow := hsections.offset_mono
  have hargs' :
      m'.Receives a s.rooms s.top (level + 1) ⟨Γ', Frame.headerSize⟩ p.formals args l := by
    refine hargs.mono fun i hi hi' => ?_
    change (s.top : Int) + 7 ≤ i at hi
    exact henters.between i (by omega) (by omega)
  -- The new frame grows in three stretches: parameters, variables and display.
  have h₀ := h.builds_enter haround hwithin hlevel henters.code henters.below
  obtain ⟨s₁, hs₁, h₁⟩ := h₀.pass hargs' hlevel hself fun _ _ hp => hp
  have hinit : ∀ w, (none : Option Word) = some w → ∀ i, m'.word i = w := nofun
  obtain ⟨s₂, x, hx, hs₂, h₂⟩ :=
    h₁.declareSections hbuiltins hinit hsections (hs₁.level.trans hlevel)
  have hs := hs₁.trans hs₂
  have hlevel₂ : s₂.level = level + 1 := hs.level.trans hlevel
  have hbases : s₂.bases = (s.enter P).bases := hs.bases
  have htop : (s₂.top : Int) = s.top + P.displayBase := by
    rw [h₂.top, hlevel₂, hbases, hself, hbase]
  obtain ⟨henv, hwithin'⟩ := Env.Matches.declareProcedures p.decls hprocedures
    (henters.code ▸ hplaced) (hlevel₂ ▸ h₂.within) h₂.env
  have hsp : s₂.sp = s.top := by rw [hs.rest]; rfl
  have hdisplay : s₂.display = s.top + P.displayBase.toNat := by rw [hs.rest]; rfl
  have hnonneg := h₂.nonneg
  refine ⟨{ s₂ with top := s₂.top + (level + 2) }, ⟨Decl.declareProcedures p.decls x.env,
      x.storage⟩, ?_, ?_, ⟨hs.rooms, hsp, ?_⟩, hlevel₂, ?_⟩
  · unfold ProcDecl.activate
    rw [hx]
    rfl
  · exact {
      env := henv.extends (s₂.extends_grow (level + 2))
      within := by rwa [hlevel₂]
      holds := h₂.holds
      ordered := h₂.ordered.mono (Nat.le_add_right ..)
      sp := by rw [hsp]; exact henters.sp
      top := by
        have heq : s.top + P.frameSize.toNat = s₂.top + (level + 2) := by omega
        rw [henters.top, heq]
      displayOff := by rw [hdisplay]; exact henters.displayOff
      mp := by rw [henters.mp, h.mp, henters.size]
      display := fun k hk => by
        change k ≤ s₂.level at hk
        refine ⟨h₂.ordered.free (show s₂.top ≤ s₂.display + k by omega), ?_⟩
        rw [hdisplay, hbases]
        -- The entry of the own level is new, and those below it are copies of the caller's.
        by_cases hk' : k = P.level
        · rw [hk', henters.own, hlevel, hself]
        · rw [henters.display k (by omega), (h.display k (by omega)).2]
          exact congrArg Int64.ofNat (if_neg hk').symm
      display_lt := by
        change s₂.display + s₂.level < s₂.top + (level + 2)
        omega
      header := fun _ k hk => by
        change (k : Int) < 7 at hk
        rw [hsp]
        have hlt : s.top + k < (s.enter P).top := show s.top + k < s.top + 7 by omega
        refine ⟨hs.free hlt (h.ordered.free (Nat.le_add_right ..)), ?_⟩
        have := hs.top
        change s.top + k < s₂.top + (level + 2)
        omega
      top_le := by
        rw [henters.size]
        change s₂.top + (level + 2) ≤ m.memory.size
        omega
      size_le := by rw [henters.size]; exact h.size_le }
  · have := hs.top
    change s.top + 7 ≤ s₂.top at this
    exact Nat.le_add_right_of_le this
  · change ((s₂.top + (level + 2) : Nat) : Int) = _
    omega

/-! ## The caller goes on -/

/-- Words that are free below the variables of the new frame stay free. -/
theorem Stage.Above.free (hs : s.Above s') {i : Nat} (hi : i < s.top + 7)
    (hfree : s.rooms.Free i) : s'.rooms.Free i := by
  obtain ⟨new, hnew, hbase⟩ := hs.rooms
  rw [hnew]
  exact Rooms.free_append hfree fun r hr => Nat.lt_of_lt_of_le hi (hbase r hr)

/-- The first rooms hold the first blocks. -/
theorem Machine.Holds.take {rooms new : Rooms} (h : m.Holds (rooms ++ new) σ) :
    m.Holds rooms (σ.take rooms.length) := by
  have hlength := h.length
  rw [List.length_append] at hlength
  refine ⟨by rw [List.length_take]; omega, fun {i r b} hr hb => ?_⟩
  have hi := (List.getElem?_eq_some_iff.mp hr).1
  rw [List.getElem?_take_of_lt hi] at hb
  exact h.block (by rw [List.getElem?_append_left hi, hr]) hb

namespace Machine

/-- A procedure keeps the header of its frame. -/
theorem Keeps.header (h : m'.Keeps s' m'') (hs : s.Above s')
    (hordered : s.rooms.Ordered s.top) {k : Nat} (hk : k < 7) :
    m''.word (s.top + k) = m'.word (s.top + k) :=
  h.word _ (Nat.lt_of_lt_of_le (by omega) hs.top)
    (hs.free (by omega) (hordered.free (Nat.le_add_right ..)))

/-- The registers come back from the header of the frame that `sp` points to. -/
theorem passes_restoreRegisters {t : Nat} (hsp : m.register .sp = Int64.ofNat t)
    (hlt : t + 6 < m.memory.size) (hsize : (m.memory.size : Int) ≤ Word.greatest) :
    ∃ m', m.Passes Code.restoreRegisters m' ∧ m'.memory = m.memory ∧ m'.input = m.input ∧
    m'.output = m.output ∧
      m'.register .sp = m.word t ∧ m'.register .top = Int64.ofNat t ∧
      m'.register .displayOff = m.word (t + 4) ∧ m'.register .mp = m.register .mp := by
  have hld : ∀ {m₁ : Machine} {r : Register} (k : Nat), r ≠ .pc →
      m₁.register .sp = Int64.ofNat t → m₁.memory = m.memory → k < 7 →
      m₁.Passes [.memory .ld r (Int64.ofNat k) .sp] (m₁.setRegister r (m.word (t + k))) := by
    intro m₁ r k hr hsp₁ hmemory hk
    have hword : m₁.word (t + k) = m.word (t + k) := by unfold word; rw [hmemory]
    rw [← hword]
    refine passes_ld hr (by decide) ?_ (by rw [hmemory]; omega)
    rw [hsp₁, toInt_ofNat (by omega), toInt_ofNat (by omega)]
    omega
  let m₁ := m.setRegister .ac (m.word (t + 1))
  let m₂ := m₁.setRegister .ac1 (m.word (t + 2))
  let m₃ := m₂.setRegister .ac2 (m.word (t + 3))
  let m₄ := m₃.setRegister .displayOff (m.word (t + 4))
  let m₅ := m₄.setRegister .top (0 + m₄.register .sp)
  have h₁ : m.Passes [.memory .ld .ac 1 .sp] m₁ := hld 1 (by decide) hsp rfl (by decide)
  have h₂ : m₁.Passes [.memory .ld .ac1 2 .sp] m₂ := hld 2 (by decide) hsp rfl (by decide)
  have h₃ : m₂.Passes [.memory .ld .ac2 3 .sp] m₃ := hld 3 (by decide) hsp rfl (by decide)
  have h₄ : m₃.Passes [.memory .ld .displayOff 4 .sp] m₄ :=
    hld 4 (by decide) hsp rfl (by decide)
  have h₅ : m₄.Passes [.memory .lda .top 0 .sp] m₅ := passes_lda m₄ (by decide) (by decide) 0
  have h₆ : m₅.Passes [.memory .ld .sp 0 .sp] (m₅.setRegister .sp (m.word (t + 0))) :=
    hld 0 (by decide) hsp rfl (by decide)
  refine ⟨_, h₁.cons (h₂.cons (h₃.cons (h₄.cons (h₅.cons h₆)))), rfl, rfl, rfl, rfl, ?_,
    rfl, rfl⟩
  exact (Int64.zero_add _).trans hsp

/-- The procedure is left: its frame and its storage are given back. -/
theorem Hosts.returns (h : m.Hosts a final s env Γ σ)
    (henters : m.Enters s.top s.display P resume m') (hs : s.Above s')
    {env' : Env} {Γ' : Names} {σ' : Storage} (h' : m'.Hosts a final s' env' Γ' σ') {w : World}
    (hbecomes : m'.Becomes s' w m'') : ∃ m₁, m''.Passes Code.restoreRegisters m₁ ∧
    m.Becomes s { w with storage := w.storage.take σ.length } m₁ := by
  have hkeeps := hbecomes.keeps
  have hsize : m''.memory.size = m.memory.size := hkeeps.size.trans henters.size
  have htop := hs.top
  have htop' := h'.top_le
  have hgreatest := h.size_le
  rw [← hkeeps.size] at htop'
  obtain ⟨m₁, hpass, hmemory, hinput, houtput, hsp, htop₁, hdisplay, hmp⟩ :=
    passes_restoreRegisters (m := m'')
    (hkeeps.sp.trans henters.sp) (by omega) (by rwa [hsize])
  have hword : ∀ i, m₁.word i = m''.word i := fun i => by unfold word; rw [hmemory]
  refine ⟨m₁, hpass, ?_⟩
  exact {
    keeps := {
      code := hpass.1.trans (hkeeps.code.trans henters.code)
      sp := hsp.trans
        ((hkeeps.header hs h.ordered (k := 0) (by decide)).trans (henters.saved 0 .sp rfl))
      top := htop₁.trans h.top.symm
      displayOff := hdisplay.trans
        ((hkeeps.header hs h.ordered (by decide)).trans (henters.saved 4 .displayOff rfl))
      mp := hmp.trans (hkeeps.mp.trans henters.mp)
      size := (congrArg Memory.size hmemory).trans hsize
      word := fun i hi hfree => by
        rw [hword, hkeeps.word i (by omega) (hs.free (by omega) hfree), henters.below i hi] }
    holds := by
      obtain ⟨new, hnew, _⟩ := hs.rooms
      have hholds := hbecomes.holds
      rw [hnew] at hholds
      rw [h.holds.length]
      exact hholds.take.mono fun _ _ i _ => hword i
    input := hinput.trans hbecomes.input
    output := by rw [houtput]; exact hbecomes.output
    peak := by rw [hmemory]; exact hbecomes.peak }

/-- A return goes to the address in the header. -/
theorem pace_leave {t base : Nat} {c : Code} (hm : Code.Addressable m.code)
    (h : Code.At m.code base (Code.leave ++ c)) (hsp : m.register .sp = Int64.ofNat t)
    (hlt : t + 6 < m.memory.size) (hsize : (m.memory.size : Int) ≤ Word.greatest) :
    (m.goto base).pace = (m.setRegister .pc (m.word (t + 6)), .running) := by
  have hslot : (m.goto (base + 1)).slot Frame.returnAddress
      ((m.goto (base + 1)).register .sp) base = .ok (t + 6) := by
    refine slot_ok ?_ hlt base
    rw [register_goto m (by decide), hsp, toInt_ofNat (by omega)]
    change (6 : Int) + t = (t + 6 : Nat)
    omega
  rw [pace_goto hm h]
  simp only [perform, performMemory, hslot]
  rfl

/-- After the body of a procedure, however it is left, the caller goes on. -/
theorem Follows.leave (h : m.Hosts a final s env Γ σ)
    (henters : m.Enters s.top s.display P resume m') (hs : s.Above s')
    {env' : Env} {Γ' : Names} {σ' : Storage} (h' : m'.Hosts a final s' env' Γ' σ')
    (hm : Code.Addressable m.code) {n fuel start entry stop : Nat}
    (hreaches : Reaches (m.goto start) (n + 1) (m'.goto entry))
    (hleave : Code.At m.code stop Code.leave)
    (hrestore : Code.At m.code resume Code.restoreRegisters) {r : Result}
    (hr : m'.Follows s' fuel entry stop r) :
    m.Follows s (fuel + 1) start (resume + Code.restoreRegisters.length)
    (r.leave σ.length) := by
  have hback : ∀ {m'' : Machine} {k : Nat}, m'.Becomes s' r.world m'' →
      Reaches (m'.goto entry) k (m''.goto resume) →
      m.Follows s (fuel + 1) start (resume + Code.restoreRegisters.length)
        ⟨.finished, { r.world with storage := r.world.storage.take σ.length }⟩ := by
    intro m'' k hbecomes hreaches'
    have hcode : m''.code = m.code := hbecomes.keeps.code.trans henters.code
    obtain ⟨m₁, hpass, hbecomes'⟩ := h.returns henters hs h' hbecomes
    obtain ⟨k', hreaches''⟩ := hpass.2 resume (hcode ▸ hm) (hcode ▸ hrestore)
    exact ⟨_, m₁, (hreaches.trans hreaches').trans hreaches'', hbecomes'⟩
  unfold Result.leave
  unfold Follows at hr
  -- A body that comes to its end meets the return that stands behind it; a return in its
  -- midst has gone the same way already.
  cases hending : r.ending with
  | finished =>
    rw [hending] at hr
    obtain ⟨k, m'', hreaches', hbecomes⟩ := hr
    have hkeeps := hbecomes.keeps
    have hcode : m''.code = m.code := hkeeps.code.trans henters.code
    have htop := h'.top_le
    have hlt := hs.top
    have hpace :=
      pace_leave (c := []) (hcode ▸ hm) (hcode ▸ hleave) (hkeeps.sp.trans henters.sp)
      (by rw [hkeeps.size]; omega) (by rw [hkeeps.size]; exact h'.size_le)
    rw [hkeeps.header hs h.ordered (by decide), henters.resume] at hpace
    exact hback hbecomes (hreaches'.trans (.single hpace))
  | returned =>
    rw [hending] at hr
    obtain ⟨_, k, m'', hreaches', hbecomes⟩ := hr
    rw [hs.sp, henters.resume] at hreaches'
    exact hback hbecomes hreaches'
  | stopped x =>
    rw [hending] at hr
    change m.Follows s (fuel + 1) start _ r
    unfold Follows
    rw [hending]
    refine Stop.Shows.mono hr ?_
    rintro f ⟨k, m'', pc, hreaches', hends⟩
    exact ⟨_, m'', pc, hreaches.trans hreaches', hends⟩
  | timeout =>
    rw [hending] at hr
    obtain ⟨k, m'', hle, hreaches'⟩ := hr
    change m.Follows s (fuel + 1) start _ r
    unfold Follows
    rw [hending]
    exact ⟨_, m'', by omega, hreaches.trans hreaches'⟩

end Machine

end

end BlockLang
