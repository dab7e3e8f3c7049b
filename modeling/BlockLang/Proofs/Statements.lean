import BlockLang.Proofs.Evaluation

/-!
# Code of simple statements

A statement changes the words of the places that it writes to and nothing else below the
end of the running frame. `Machine.Follows` says that the machine does what statements do,
with the same values written and the same end.

* `Machine.Presents` adds input and output to what `Machine.Hosts` says: memory stands for
  the storage, and the machine has the input that is left and the output so far.
  `Machine.Becomes` is how it has changed when statements have been run.
* `Machine.Follows` has a case for each way in which statements end: at their end, with a
  return, with a stop, or because fuel runs out, where it says only that the machine has
  taken as many steps. `Machine.Follows.before`, `Machine.Follows.attempt` and
  `Machine.Follows.finish` follow the interpreter through a statement.
* `Stmt.follows_assign`, `Stmt.follows_read` and `Stmt.follows_write`: the simple
  statements. For the first two the address of the target is computed first and kept in
  `ac2` (`Machine.Presents.yields_target`), and the words that are stored are those of a
  place (`Machine.Presents.stored`).
-/

namespace BlockLang

/-! ## Following statements -/

/-- The machine stands for bindings and for a world. -/
structure Machine.Presents (a : Analysis) (final : Linkage) (m : Machine) (s : Stage)
    (env : Env) (Γ : Names) (w : World) : Prop where
  hosts : m.Hosts a final s env Γ w.storage
  input : m.input = w.input
  output : m.output.toList = w.output
  peak : w.peak ≤ m.memory.size
  addressable : Code.Addressable m.code

/-- `m'` stands for a world and has kept what statements leave alone. -/
structure Machine.Becomes (s : Stage) (w : World) (m m' : Machine) : Prop where
  keeps : m.Keeps s m'
  holds : m'.Holds s.rooms w.storage
  input : m'.input = w.input
  output : m'.output.toList = w.output
  peak : w.peak ≤ m'.memory.size

/-- From `base` the machine does what statements do. At their end it has come to `stop`, and
it has taken at least as many steps as fuel was used up. -/
def Machine.Follows (s : Stage) (fuel base stop : Nat) (m : Machine) (r : Result) : Prop :=
  match r.ending with
  | .finished => ∃ n m', Reaches (m.goto base) n (m'.goto stop) ∧ m.Becomes s r.world m'
  | .returned => 0 < s.level ∧ ∃ n m',
      Reaches (m.goto base) n (m'.setRegister .pc (m.word (s.sp + 6))) ∧
      m.Becomes s r.world m'
  | .stopped x =>
    x.Shows fun f => ∃ n m' pc, Reaches (m.goto base) n m' ∧ m'.Ends (.error (f pc))
  | .timeout => ∃ n m', fuel ≤ n ∧ Reaches (m.goto base) n m'

section

variable {a : Analysis} {final : Linkage} {s : Stage} {m m' : Machine} {env : Env} {Γ : Names}
  {w w' : World} {fuel base stop : Nat}

/-- What a machine presents when it has changed. -/
theorem Machine.Presents.becomes (h : m.Presents a final s env Γ w) (h' : m.Becomes s w' m') :
    m'.Presents a final s env Γ w' where
  hosts := h.hosts.keeps h'.keeps h'.holds
  input := h'.input
  output := h'.output
  peak := h'.peak
  addressable := h'.keeps.code ▸ h.addressable

/-- A change behind code that computes. -/
theorem Machine.Becomes.after {m₁ : Machine} (h : m₁.Becomes s w m') (hkeeps : m.Keeps s m₁) :
    m.Becomes s w m' :=
  { h with keeps := hkeeps.trans h.keeps }

namespace Machine.Follows

/-- Steps before the code that follows the statements. -/
theorem before {σ : Storage} (h : m.Hosts a final s env Γ σ) {n base₁ : Nat} {m₁ : Machine}
    {r : Result} (hreaches : Reaches (m.goto base) n (m₁.goto base₁)) (hkeeps : m.Keeps s m₁)
    (hfollows : m₁.Follows s fuel base₁ stop r) : m.Follows s (n + fuel) base stop r := by
  unfold Follows at *
  split at hfollows
  · obtain ⟨n', m', hreaches', hbecomes⟩ := hfollows
    exact ⟨n + n', m', hreaches.trans hreaches', hbecomes.after hkeeps⟩
  · obtain ⟨hlevel, n', m', hreaches', hbecomes⟩ := hfollows
    obtain ⟨hfree, hlt⟩ := h.header hlevel 6 (by decide)
    rw [hkeeps.word _ hlt hfree] at hreaches'
    exact ⟨hlevel, n + n', m', hreaches.trans hreaches', hbecomes.after hkeeps⟩
  · refine Stop.Shows.mono hfollows ?_
    rintro f ⟨n', m', pc, hreaches', hends⟩
    exact ⟨n + n', m', pc, hreaches.trans hreaches', hends⟩
  · obtain ⟨n', m', hle, hreaches'⟩ := hfollows
    exact ⟨n + n', m', by omega, hreaches.trans hreaches'⟩

theorem mono {fuel' : Nat} {r : Result}
    (h : m.Follows s fuel base stop r) (hle : fuel' ≤ fuel) :
    m.Follows s fuel' base stop r := by
  unfold Follows at *
  split at h
  · exact h
  · exact h
  · exact h
  · obtain ⟨n, m', hn, hreaches⟩ := h
    exact ⟨n, m', by omega, hreaches⟩

/-- A value is computed first. -/
theorem attempt {α : Type} {σ : Storage} (h : m.Hosts a final s env Γ σ)
    (hm : Code.Addressable m.code) {c : Code} (hat : Code.At m.code base c)
    {x : Except Stop α} {P : α → Machine → Prop} (hx : m.Yields c x P)
    (hkeeps : ∀ v m', P v m' → m.Keeps s m') {next : α → Result}
    (hnext : ∀ v m', x = .ok v → P v m' → m'.Follows s fuel (base + c.length) stop (next v)) :
    m.Follows s fuel base stop (.attempt w x next) := by
  rcases hx.reaches hm hat with ⟨x, rfl, hshows⟩ | ⟨v, m', n, rfl, hv, hreaches⟩
  · exact hshows
  · exact (before h hreaches (hkeeps v m' hv) (hnext v m' rfl hv)).mono (by omega)

/-- The statement ends when a value is computed. -/
theorem finish {α : Type} (hm : Code.Addressable m.code)
    {c : Code} (hat : Code.At m.code base c) {x : Except Stop α}
    {P : α → Machine → Prop} (hx : m.Yields c x P) {next : α → World}
    (hnext : ∀ v m', P v m' → m.Becomes s (next v) m') :
    m.Follows s fuel base (base + c.length) (.attempt w x fun v => ⟨.finished, next v⟩) := by
  rcases hx.reaches hm hat with ⟨x, rfl, hshows⟩ | ⟨v, m', n, rfl, hv, hreaches⟩
  · exact hshows
  · exact ⟨n, m', hreaches, hnext v m' hv⟩

end Machine.Follows

/-! ## Assignment, input and output -/

/-- Keeps an address as the target. -/
def Code.keep (address : Code) : Code := address ++ [.memory .lda .ac2 0 .ac]

/-- A store into rooms, or beyond the top, keeps all that statements keep. -/
theorem Machine.Writes.keeps {lo dst n : Nat} (h : m.Writes lo dst n m') (hlo : s.top ≤ lo)
    (hdst : ∀ i, dst ≤ i → i < dst + n → i < s.top → ¬ s.rooms.Free i) : m.Keeps s m' where
  code := h.code
  sp := h.register .sp (by decide) (by decide) (by decide)
  top := h.register .top (by decide) (by decide) (by decide)
  displayOff := h.register .displayOff (by decide) (by decide) (by decide)
  mp := h.register .mp (by decide) (by decide) (by decide)
  size := h.size
  word i hi hfree := h.word i (by omega) (by
    by_contra hin
    exact hdst i (by omega) (by omega) hi hfree)

/-- The words of a place are in its room. -/
theorem Place.At.not_free {rooms : Rooms} {p : Place}
    {address i : Nat} (h : p.At rooms address) (hle : address ≤ i)
    (hlt : i < address + p.layout.size) : ¬ rooms.Free i := by
  obtain ⟨r, hr, hpart, rfl⟩ := h
  have := hpart.le
  exact fun hfree => hfree r (List.mem_of_getElem? hr) ⟨by omega, by omega⟩

/-- A value that was stored in a place. -/
theorem Machine.Presents.stored (h : m.Presents a final s env Γ w) {p : Place} {address : Nat}
    (hp : p.At s.rooms address) {words : List Word} (hlength : words.length ≤ p.layout.size)
    (hwrites : m.Writes s.top address words.length m')
    (hwords : ∀ k x, words[k]? = some x → m'.word (address + k) = x) :
    m.Becomes s { w with storage := w.storage.write p words } m' where
  keeps := hwrites.keeps (Nat.le_refl _) fun i hle hlt _ => hp.not_free hle (by omega)
  holds := h.hosts.holds.write h.hosts.ordered hp hlength hwords fun i hout hlt =>
    hwrites.word i hlt hout
  input := hwrites.input.trans h.input
  output := by rw [hwrites.output]; exact h.output
  peak := by rw [hwrites.size]; exact h.peak

/-- Code that changes temporaries only changes nothing of what is presented. -/
theorem Machine.Presents.same (h : m.Presents a final s env Γ w) {lo hi : Nat}
    (hsame : m.Same lo hi m') (hlo : s.top ≤ lo) : m.Becomes s w m' where
  keeps := hsame.keeps hlo
  holds := (h.hosts.same hsame hlo).holds
  input := hsame.input.trans h.input
  output := by rw [hsame.output]; exact h.output
  peak := by rw [hsame.size]; exact h.peak

/-- The address of a target is kept in `ac2`. -/
theorem Machine.Presents.yields_target (h : m.Presents a final s env Γ w) {target : VarRef}
    {type : TypeId} (htarget : Expr.Resolved a Γ (.ref target) type)
    (hfits : Demand.Fits m.memory.size ⟨s.top, Reference.depth target⟩)
    {c : Code} (hc : target.code a 0 = .ok c) :
    m.Yields (Code.keep c) (target.place env w.storage) fun p m' => m.Becomes s w m' ∧
      ∃ address, p.At s.rooms address ∧ m'.register .ac2 = Int64.ofNat address ∧
      a.types.Lays p.layout type := by
  refine (h.hosts.yields_place htarget (Nat.le_refl _) hfits hc).append ?_
  rintro p m₁ ⟨⟨address, hat, hac, hlays⟩, hsame⟩
  have hbecomes := h.same hsame (Nat.le_refl _)
  refine ⟨m₁.setRegister .ac2 (0 + m₁.register .ac), passes_lda m₁ (by decide) (by decide) 0,
    ?_, address, hat, ?_, hlays⟩
  · exact { hbecomes with
      keeps := hbecomes.keeps.trans ⟨rfl, rfl, rfl, rfl, rfl, rfl, fun _ _ _ => rfl⟩
      holds := hbecomes.holds.mono fun _ _ _ _ => rfl }
  · rw [register_setRegister_self, hac, Int64.zero_add]

/-- An assignment computes the address, keeps it, and stores the value. -/
theorem Reference.assignCode_eq_ok {target : VarRef} {value : Expr} {span : Span} {c : Code}
    (hc : target.assignCode a value span = .ok c) :
    ∃ type address store, a.annotations.type? target.node = some type ∧
    target.code a 0 = .ok address ∧
      Expr.StoreCode a type 0 .ac2 value store ∧ c = Code.keep address ++ store := by
  unfold Reference.assignCode at hc
  obtain ⟨type, htype, hc⟩ := Except.bind_eq_ok hc
  obtain ⟨address, haddress, hc⟩ := Except.bind_eq_ok hc
  refine ⟨type, address, ?_⟩
  by_cases hsize : a.types.size type = 1
  · rw [if_pos hsize] at hc
    obtain ⟨cv, hcv, hc⟩ := Except.bind_eq_ok hc
    cases hc
    exact ⟨_, Annotations.type_ok htype, haddress, .word hsize hcv, List.append_assoc ..⟩
  · rw [if_neg hsize] at hc
    cases value with
    | ref source =>
      obtain ⟨cr, hcr, hc⟩ := Except.bind_eq_ok hc
      cases hc
      exact ⟨_, Annotations.type_ok htype, haddress, .words hsize hcr, List.append_assoc ..⟩
    | const => cases hc
    | binary => cases hc

/-- The machine follows an assignment. -/
theorem Stmt.follows_assign (hbuiltins : ({} : TypeTable) ≤ a.types)
    (h : m.Presents a final s env Γ w) {frame : ProcDecl Decl → Int} {again : Executor}
    {used : Int} {target : VarRef} {value : Expr} {type : TypeId}
    (htarget : Expr.Resolved a Γ (.ref target) type)
    (hvalue : value.Resolved a Γ type) {span : Span}
    (hfits : Demand.Fits m.memory.size ⟨s.top, max (Reference.depth target) value.depth⟩)
    {c : Code} (hc : target.assignCode a value span = .ok c) (hat : Code.At m.code base c) :
    m.Follows s fuel base (base + c.length)
    (Stmt.exec frame again env used (.assign target value span) w) := by
  obtain ⟨_, address, store, htype, haddress, hstore, rfl⟩ := Reference.assignCode_eq_ok hc
  cases htarget.type?_node.symm.trans htype
  obtain ⟨hat₁, hat₂⟩ := Code.at_append.mp hat
  rw [Stmt.exec]
  refine .attempt h.hosts h.addressable hat₁
    (h.yields_target htarget (hfits.mono (Nat.le_max_left ..)) haddress)
    (fun _ _ hp => hp.1.keeps) ?_
  rintro p m₁ - ⟨hbecomes₁, dst, hp, hac2, hlays⟩
  have h₁ := h.becomes hbecomes₁
  have hsize₁ := hbecomes₁.keeps.size
  have hn := hlays.size_eq
  have hle := hp.le h.hosts.ordered
  have htop := h.hosts.top_le
  have hgreatest := h.hosts.size_le
  have hfits₁ : Demand.Fits m₁.memory.size ⟨s.top, value.depth⟩ :=
    hsize₁ ▸ hfits.mono (Nat.le_max_right ..)
  have htargets : m₁.Targets .ac2 0 dst p.layout.size := by
    intro k hk
    rw [hac2, Int.zero_add, Int64.ofInt_eq_ofNat, Machine.toInt_ofNat (by omega),
      Machine.toInt_ofNat (by omega)]
    omega
  -- Source and target are places of one size: they coincide, or no word is in both.
  have hyields := h₁.hosts.yields_store hbuiltins hvalue (Nat.le_refl _) hfits₁ hstore
    (by decide) hn htargets (by omega) fun q src hq hsize => by
      have haligned := Place.At.aligned h.hosts.ordered hq hp hsize
      rwa [hsize] at haligned
  rw [List.length_append, ← Nat.add_assoc]
  refine .finish h₁.addressable (hbecomes₁.keeps.code ▸ hat₂) hyields ?_
  rintro ⟨l, words⟩ m' ⟨_, hlength, hwords, hwrites⟩
  exact h₁.stored hp (Nat.le_of_eq hlength) (by rwa [hlength]) hwords

open Machine in
/-- The machine follows a `read`. -/
theorem Stmt.follows_read (h : m.Presents a final s env Γ w) {frame : ProcDecl Decl → Int}
    {again : Executor} {used : Int} {target : VarRef} {type : TypeId}
    (htarget : Expr.Resolved a Γ (.ref target) type) {span : Span}
    (hfits : Demand.Fits m.memory.size ⟨s.top, Reference.depth target⟩) {address : Code}
    (hc : target.code a 0 = .ok address) (hat : Code.At m.code base
      (Code.keep address ++ [.register .inp .ac .ac .ac, .memory .st .ac 0 .ac2])) :
    m.Follows s fuel base (base + (Code.keep address).length + 2)
      (Stmt.exec frame again env used (.read target span) w) := by
  obtain ⟨hat₁, hat₂⟩ := Code.at_append.mp hat
  rw [Stmt.exec]
  have hyields :=
      (h.yields_target htarget hfits hc).andThen (f := Place.nonempty) (Q := fun p m' =>
    m.Becomes s w m' ∧ 0 < p.layout.size ∧ ∃ address, p.At s.rooms address ∧
        m'.register .ac2 = Int64.ofNat address) (by
      rintro p m' ⟨hbecomes, address, hp, hac2, _⟩
      unfold Place.nonempty
      by_cases hsize : p.layout.size = 0
      · rw [if_pos hsize]
        trivial
      · rw [if_neg hsize]
        exact ⟨m', .nil m', hbecomes, by omega, address, hp, hac2⟩)
  refine .attempt h.hosts h.addressable hat₁ hyields (fun _ _ hp => hp.1.keeps) ?_
  rintro p m₁ - ⟨hbecomes₁, hsize, dst, hp, hac2⟩
  have h₁ := h.becomes hbecomes₁
  have hat₂ : Code.At m₁.code _ _ := hbecomes₁.keeps.code ▸ hat₂
  have hle := hp.le h₁.hosts.ordered
  have htop := h₁.hosts.top_le
  have hgreatest := h₁.hosts.size_le
  -- The address is computed first, so a reference that has none stops before the input is
  -- looked at.
  cases hinput : w.input with
  | nil =>
    have hfaults : m₁.Faults [.register .inp .ac .ac .ac] .inputExhausted :=
      (fails_inp (h₁.input.trans hinput)).faults
    exact hfaults _ h₁.addressable ⟨hat₂.1, trivial⟩
  | cons x rest =>
    let m₂ := { m₁ with input := rest }.setRegister .ac x
    have hbecomes₂ : m₁.Becomes s { w with input := rest } m₂ :=
      ⟨⟨rfl, rfl, rfl, rfl, rfl, rfl, fun _ _ _ => rfl⟩,
        h₁.hosts.holds.mono fun _ _ _ _ => rfl, rfl, h₁.output, h₁.peak⟩
    have hread : m₁.Passes [.register .inp .ac .ac .ac] m₂ :=
      passes_inp (by decide) (h₁.input.trans hinput)
    have hstore : m₂.Passes [.memory .st .ac 0 .ac2] (m₂.put dst (m₂.register .ac)) := by
      refine passes_st (by decide) (by decide) ?_ (show dst < m₁.memory.size by omega)
      rw [show m₂.register .ac2 = m₁.register .ac2 from rfl, hac2, toInt_ofNat (by omega)]
      exact Int.zero_add _
    obtain ⟨n, hreaches⟩ := (hread.append hstore).2 _ h₁.addressable hat₂
    have hwrites : m₂.Writes s.top dst [x].length (m₂.put dst (m₂.register .ac)) :=
      .of_same (.refl _ m₂.memory.size m₂) (.put (Nat.le_refl _) (Nat.lt_succ_self _) ..)
    have hword : ∀ k y, [x][k]? = some y →
        (m₂.put dst (m₂.register .ac)).word (dst + k) = y := by
      intro k y hk
      cases k with
      | zero =>
        cases hk
        exact word_put_self (m := m₂) (show dst < m₁.memory.size by omega) _
      | succ k => cases hk
    exact ⟨n, _, hreaches,
      ((h₁.becomes hbecomes₂).stored hp (by exact hsize) hwrites hword).after hbecomes₂.keeps⟩

/-- The machine follows a `write`. -/
theorem Stmt.follows_write (h : m.Presents a final s env Γ w)
    {frame : ProcDecl Decl → Int} {again : Executor} {used : Int} {value : Expr}
    {type : TypeId} (hvalue : value.Resolved a Γ type) {span : Span}
    (hfits : Demand.Fits m.memory.size ⟨s.top, value.depth⟩)
    {c : Code} (hc : value.code a 0 = .ok c)
    (hat : Code.At m.code base (c ++ [.register .out .ac .ac .ac])) :
    m.Follows s fuel base (base + (c ++ [.register .out .ac .ac .ac] : Code).length)
      (Stmt.exec frame again env used (.write value span) w) := by
  rw [Stmt.exec]
  refine .finish (P := fun x m' => m.Becomes s { w with output := w.output ++ [x] } m')
    h.addressable hat ?_ fun _ _ hx => hx
  refine (h.hosts.yields_eval hvalue (Nat.le_refl _) hfits hc).append ?_
  rintro x m₁ ⟨rfl, hsame⟩
  have hbecomes := h.same hsame (Nat.le_refl _)
  refine ⟨_, Machine.passes_out m₁ (by decide), ?_⟩
  exact { hbecomes with
    keeps := hbecomes.keeps.trans ⟨rfl, rfl, rfl, rfl, rfl, rfl, fun _ _ _ => rfl⟩
    holds := hbecomes.holds.mono fun _ _ _ _ => rfl
    output := by simp [hbecomes.output] }

end

end BlockLang
