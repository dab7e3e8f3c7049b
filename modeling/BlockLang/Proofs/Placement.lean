import BlockLang.Proofs.Generation
import BlockLang.Proofs.Hosting
import Mathlib.Data.List.Nodup

/-!
# Procedures in the code

The code of a procedure begins with its nested procedures, each behind a jump that skips
it, and its address is noted before any of them is made. Symbols of procedures are
distinct, so an address that a call looks up is that of the procedure which the call
denotes.

* `Machine.passes_nestedCode`: from the entry of a procedure the machine jumps over the
  nested ones to the body.
* Addresses: `Decl.code_entries` says which entries are added, one for each procedure,
  nested ones included. A call finds an entry among those made so far, and the same among
  all of them (`Call.entry_of_suffix`), since symbols are distinct.
* `ProcDecl.Placed`: a procedure has its code at its entry, and so have those nested in
  it, to any depth. It holds of every procedure of a program
  (`ProcDecl.placed_of_codeAll`) and gives the code of the body (`ProcDecl.Placed.body`)
  and the entry (`ProcDecl.Placed.entry`).
* `Env.Matches.declareProcedures`: procedures that are declared have their code.
-/

namespace BlockLang

variable {a : Analysis} {entries entries' : Entries} {final : Linkage} {start : Nat}
    {c : Code} {code : Array Instruction}

/-- The temporaries of a procedure: its own and those of nested procedures. -/
theorem Decl.depth_procedure (p : ProcDecl Decl) :
    Decl.depth (.procedure p) = max (Decl.depthAll p.decls) (Stmt.depthAll p.body) := by
  cases p
  rw [Decl.depth]

/-- The nested procedures are skipped. -/
theorem Machine.passes_nestedCode (m : Machine) :
    ∀ (decls : List Decl) {entries : Entries} {start : Nat} {c : Code},
    Decl.nestedCode a entries start decls = .ok (c, entries') → m.Passes c m
  | [], _, _, _, h => by
    cases h
    exact .nil m
  | .types .. :: rest, _, _, _, h => m.passes_nestedCode rest h
  | .vars .. :: rest, _, _, _, h => m.passes_nestedCode rest h
  | .procedure p :: rest, _, _, _, h => by
    obtain ⟨c₁, entries₁, others, _, hothers, rfl⟩ := Decl.nestedCode_procedure_eq_ok h
    have hskip : m.Passes (Code.skip c₁.length :: c₁) m := by
      refine ⟨rfl, fun base hm hat => ⟨1, .single ?_⟩⟩
      rw [pace_skip hm hat, List.length_cons]
      congr 2
      omega
    exact hskip.append (m.passes_nestedCode rest hothers)

/-! ## Addresses -/

mutual

/-- The procedures of a declaration get their addresses one after the other. -/
theorem Decl.code_entries :
    ∀ (d : Decl) {entries entries' : Entries} {start : Nat} {c : Code},
    d.code a entries start = .ok (c, entries') →
    ∃ new, entries' = new ++ entries ∧ new.map (·.1) = (Decl.procedureSymbols a d).reverse
  | .types .., _, _, _, _, h => by
    rw [Decl.code] at h
    cases h
    exact ⟨[], rfl, rfl⟩
  | .vars .., _, _, _, _, h => by
    rw [Decl.code] at h
    cases h
    exact ⟨[], rfl, rfl⟩
  | .procedure ⟨node, name, params, decls, body, span⟩, _, _, start, _, h => by
    obtain ⟨id, nested, b, hid, hnested, _, rfl⟩ := Decl.code_procedure_eq_ok h
    obtain ⟨new, rfl, hnew⟩ := Decl.nestedCode_entries decls hnested
    refine ⟨new ++ [(id, start)], by simp, ?_⟩
    rw [List.map_append, hnew, Decl.procedureSymbols, hid]
    simp

theorem Decl.nestedCode_entries :
    ∀ (decls : List Decl) {entries entries' : Entries} {start : Nat} {c : Code},
    Decl.nestedCode a entries start decls = .ok (c, entries') →
    ∃ new, entries' = new ++ entries ∧
    new.map (·.1) = (Decl.procedureSymbolsAll a decls).reverse
  | [], _, _, _, _, h => by
    cases h
    exact ⟨[], rfl, rfl⟩
  | .types .. :: rest, _, _, _, _, h => Decl.nestedCode_entries rest h
  | .vars .. :: rest, _, _, _, _, h => Decl.nestedCode_entries rest h
  | .procedure p :: rest, _, _, _, _, h => by
    obtain ⟨c₁, entries₁, others, hc₁, hothers, rfl⟩ := Decl.nestedCode_procedure_eq_ok h
    obtain ⟨new₁, rfl, hnew₁⟩ := Decl.code_entries (.procedure p) hc₁
    obtain ⟨new₂, rfl, hnew₂⟩ := Decl.nestedCode_entries rest hothers
    exact ⟨new₂ ++ new₁, (List.append_assoc ..).symm,
      by simp [hnew₁, hnew₂, Decl.procedureSymbolsAll]⟩

end

theorem Decl.codeAll_entries :
    ∀ (decls : List Decl) {entries entries' : Entries} {start : Nat} {c : Code},
    Decl.codeAll a entries start decls = .ok (c, entries') →
    ∃ new, entries' = new ++ entries ∧
    new.map (·.1) = (Decl.procedureSymbolsAll a decls).reverse
  | [], _, _, _, _, h => by
    cases h
    exact ⟨[], rfl, rfl⟩
  | d :: rest, _, _, _, _, h => by
    obtain ⟨c₁, entries₁, others, hc₁, hothers, rfl⟩ := Decl.codeAll_cons_eq_ok h
    obtain ⟨new₁, rfl, hnew₁⟩ := Decl.code_entries d hc₁
    obtain ⟨new₂, rfl, hnew₂⟩ := Decl.codeAll_entries rest hothers
    exact ⟨new₂ ++ new₁, (List.append_assoc ..).symm,
      by simp [hnew₁, hnew₂, Decl.procedureSymbolsAll]⟩

theorem Call.lookup_of_entry {call : Call} {id : SymbolId}
    {entry : Nat} (h : call.entry entries id = .ok entry) :
    entries.lookup id = some entry := by
  unfold Call.entry at h
  split at h <;> cases h
  assumption

/-- An entry that a call finds is among the entries. -/
theorem Call.mem_of_entry {call : Call} {id : SymbolId}
    {entry : Nat} (h : call.entry entries id = .ok entry) :
    (id, entry) ∈ entries := by
  obtain ⟨before, after, rfl, _⟩ := List.lookup_eq_some_iff.mp (Call.lookup_of_entry h)
  exact List.mem_append_right _ List.mem_cons_self

/-- Procedures that are made later do not change the address that a call finds. -/
theorem Call.entry_of_suffix {call : Call} {id : SymbolId}
    {entry : Nat} (h : call.entry entries id = .ok entry)
    (hentries : entries <:+ final.entries) : call.entry final.entries id = .ok entry := by
  have hmem := hentries.subset (Call.mem_of_entry h)
  unfold Call.entry
  split
  next entry' hlookup =>
    obtain ⟨before, after, heq, _⟩ := List.lookup_eq_some_iff.mp hlookup
    have hmem' : (id, entry') ∈ final.entries := by simp [heq]
    cases List.inj_on_of_nodup_map final.distinct hmem hmem' rfl
    rfl
  next hlookup =>
    have hne := List.lookup_eq_none_iff.mp hlookup _ hmem
    simp at hne

namespace ProcDecl

/-- Nested procedures are placed. -/
theorem placed_of_nestedCode :
    ∀ (decls : List Decl) {entries : Entries} {start : Nat} {c : Code},
    Decl.nestedCode a entries start decls = .ok (c, entries') →
    Code.At code start c → entries' <:+ final.entries →
    Decl.depthAll decls ≤ final.depth → ∀ p, .procedure p ∈ decls → p.Placed a final code
  | [], _, _, _, _, _, _, _ => nofun
  | .types .. :: rest, _, _, _, h, hat, hfinal, hdepth => fun p hp =>
    placed_of_nestedCode rest h hat hfinal (Nat.le_trans (Nat.le_max_right ..) hdepth) p
      (by simpa using hp)
  | .vars .. :: rest, _, _, _, h, hat, hfinal, hdepth => fun p hp =>
    placed_of_nestedCode rest h hat hfinal (Nat.le_trans (Nat.le_max_right ..) hdepth) p
      (by simpa using hp)
  | .procedure q :: rest, entries, start, _, h, hat, hfinal, hdepth => by
    obtain ⟨c₁, entries₁, others, hc₁, hothers, rfl⟩ := Decl.nestedCode_procedure_eq_ok h
    obtain ⟨⟨_, hat₁⟩, hat₂⟩ := Code.at_append.mp hat
    have hentries : entries₁ <:+ entries' := by
      obtain ⟨new, rfl, _⟩ := Decl.nestedCode_entries rest hothers
      exact List.suffix_append ..
    have hdepth' := Nat.max_le.mp hdepth
    intro p hp
    rcases List.mem_cons.mp hp with heq | hp
    · cases heq
      exact ⟨hdepth'.1, entries, start + 1, c₁, entries₁, hc₁, hat₁, hentries.trans hfinal⟩
    · refine placed_of_nestedCode rest hothers ?_ hfinal hdepth'.2 p hp
      rwa [List.length_cons, Nat.add_comm c₁.length, ← Nat.add_assoc] at hat₂

/-- The procedures of a program are placed. -/
theorem placed_of_codeAll :
    ∀ (decls : List Decl) {entries : Entries} {start : Nat} {c : Code},
    Decl.codeAll a entries start decls = .ok (c, entries') →
    Code.At code start c → entries' <:+ final.entries →
    Decl.depthAll decls ≤ final.depth → ∀ p, .procedure p ∈ decls → p.Placed a final code
  | [], _, _, _, _, _, _, _ => nofun
  | d :: rest, entries, start, _, h, hat, hfinal, hdepth => by
    obtain ⟨c₁, entries₁, others, hc₁, hothers, rfl⟩ := Decl.codeAll_cons_eq_ok h
    obtain ⟨hat₁, hat₂⟩ := Code.at_append.mp hat
    have hentries : entries₁ <:+ entries' := by
      obtain ⟨new, rfl, _⟩ := Decl.codeAll_entries rest hothers
      exact List.suffix_append ..
    have hdepth' := Nat.max_le.mp hdepth
    intro p hp
    rcases List.mem_cons.mp hp with rfl | hp
    · exact ⟨hdepth'.1, entries, start, c₁, entries₁, hc₁, hat₁, hentries.trans hfinal⟩
    · exact placed_of_codeAll rest hothers hat₂ hfinal hdepth'.2 p hp

theorem Placed.nested {p : ProcDecl Decl} (h : p.Placed a final code)
    (q : ProcDecl Decl) (hq : .procedure q ∈ p.decls) :
    q.Placed a final code := by
  obtain ⟨hdepth, _, start, c, entries₂, hc, hat, hfinal⟩ := h
  obtain ⟨_, nested, body, _, hnested, _, rfl⟩ := Decl.code_procedure_eq_ok hc
  rw [List.append_assoc] at hat
  rw [Decl.depth_procedure, Nat.max_le] at hdepth
  exact placed_of_nestedCode p.decls hnested (Code.at_append.mp hat).1 hfinal hdepth.1 q hq

/-- The body of a placed procedure has its code. -/
theorem Placed.body {p : ProcDecl Decl} (h : p.Placed a final code) :
    ∃ entries start c, Stmt.codeAll a entries start p.body = .ok c ∧ Code.At code start c ∧
      entries <:+ final.entries := by
  obtain ⟨_, _, start, c, entries₂, hc, hat, hfinal⟩ := h
  obtain ⟨_, nested, body, _, _, hbody, rfl⟩ := Decl.code_procedure_eq_ok hc
  obtain ⟨hat, _⟩ := Code.at_append.mp hat
  exact ⟨entries₂, _, body, hbody, (Code.at_append.mp hat).2, hfinal⟩

/-- The address that a call finds for a procedure is where its code starts. -/
theorem Placed.stands {p : ProcDecl Decl} (h : p.Placed a final code) {id : SymbolId}
    (hid : a.annotations.symbol? p.node = some id) (hentries : entries <:+ final.entries)
    {call : Call} {entry : Nat} (hentry : call.entry entries id = .ok entry) :
    ∃ entries₁ c entries₂, Decl.code a entries₁ entry (.procedure p) = .ok (c, entries₂) ∧
    Code.At code entry c ∧
      entries₂ <:+ final.entries := by
  obtain ⟨_, entries₀, start, c, entries₂, hc, hat, hfinal⟩ := h
  obtain ⟨id', nested, body, hid', hnested, _, _⟩ := Decl.code_procedure_eq_ok hc
  rw [hid] at hid'
  cases hid'
  obtain ⟨new, rfl, _⟩ := Decl.nestedCode_entries p.decls hnested
  have hstart : (id, start) ∈ final.entries :=
    hfinal.subset (List.mem_append_right _ List.mem_cons_self)
  have hmem : (id, entry) ∈ final.entries := hentries.subset (Call.mem_of_entry hentry)
  cases List.inj_on_of_nodup_map final.distinct hstart hmem rfl
  exact ⟨_, c, _, hc, hat, hfinal⟩

/-- A call finds the entry of a placed procedure. -/
theorem Placed.entry {p : ProcDecl Decl} (h : p.Placed a final code) {id : SymbolId}
    (hid : a.annotations.symbol? p.node = some id) (hentries : entries <:+ final.entries)
    {call : Call} {entry : Nat} (hentry : call.entry entries id = .ok entry) :
    ∃ nested body entries₁ entries₂, Decl.nestedCode a entries₁ entry p.decls =
    .ok (nested, entries₂) ∧
      Stmt.codeAll a entries₂ (entry + nested.length) p.body = .ok body ∧
      entries₂ <:+ final.entries ∧ Code.At code entry (nested ++ body ++ Code.leave) := by
  obtain ⟨_, c, entries₂, hc, hat, hfinal⟩ := h.stands hid hentries hentry
  obtain ⟨_, nested, body, _, hnested, hbody, rfl⟩ := Decl.code_procedure_eq_ok hc
  exact ⟨nested, body, _, _, hnested, hbody, hfinal, hat⟩

end ProcDecl

/-- The procedures of a declaration part are bound to their code. -/
theorem Env.Matches.declareProcedures {s : Stage} {m : Machine} {level : Nat} {Γ' : Names} :
    ∀ (decls : List Decl) {Γ : Names} {env : Env},
    Decl.ProceduresResolved a level Γ decls Γ' →
    (∀ p, .procedure p ∈ decls → p.Placed a final m.code) →
    Γ.Within a level → Env.Matches a final s m env Γ →
    Env.Matches a final s m (Decl.declareProcedures decls env) Γ' ∧ Γ'.Within a level
  | [], _, _, .nil, _, hwithin, henv => ⟨henv, hwithin⟩
  | .types .. :: rest, _, _, .types h, hplaced, hwithin, henv =>
    Env.Matches.declareProcedures rest h (fun p hp =>
      hplaced p (List.mem_cons_of_mem _ hp)) hwithin henv
  | .vars .. :: rest, _, _, .vars h, hplaced, hwithin, henv =>
    Env.Matches.declareProcedures rest h (fun p hp =>
      hplaced p (List.mem_cons_of_mem _ hp)) hwithin henv
  | .procedure p :: rest, _, _, @Decl.ProceduresResolved.procedure _ _ Γ _ id _ _ hp h,
      hplaced, hwithin, henv => by
    have hwithin' : Names.Within a level ((p.name.name, id) :: Γ) := by
      have hresolved := hp
      cases hresolved with
      | intro _ hprocedure hlevel =>
        refine hwithin.cons (fun v hv => ?_) fun q hq => ?_
        · rw [SymbolTable.procedureAt?_of_variableAt? hv] at hprocedure
          cases hprocedure
        · rw [hprocedure] at hq
          cases hq
          exact Nat.le_of_eq hlevel
    exact Env.Matches.declareProcedures rest h
      (fun p hp => hplaced p (List.mem_cons_of_mem _ hp)) hwithin'
      (.cons ⟨level, hp, hplaced p List.mem_cons_self, hwithin'⟩ henv)

end BlockLang
