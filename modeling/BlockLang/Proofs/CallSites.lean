import BlockLang.Proofs.Annotated
import BlockLang.Proofs.Placement

/-!
# Where calls stand

Every block of a program has its body in the code, and every call of a body has its own
piece there. The procedure that a call denotes is that of some block, and the address that
the call jumps to is where the code of this procedure begins.

* Blocks: the procedures of a program are gone through twice, once for its blocks
  (`Decl.outline`) and once for its code. `Decl.placed_of_outline` says that what owns a
  block has code, and `Decl.owner_of_procedureSymbols` that every symbol of a procedure
  owns a block. Both follow the nesting, by mutual recursion over a declaration and a list
  of them.
* Calls: `Stmt.standsAt_of_code` finds the code of every call of a statement, in the
  branches of conditionals and the bodies of loops as well. A call knows the entries of
  the procedures made before it; in those of the whole program it finds the same
  (`Call.StandsAt.of_suffix`).
-/

namespace BlockLang

variable {a : Analysis} {final : Linkage} {code : Array Instruction}

/-! ## Blocks -/

mutual

/-- With a procedure everything that is nested in it has its place. -/
theorem Decl.placed_of_outline :
    ∀ (d : Decl), (∀ q, d = .procedure q → q.Placed a final code) →
    ∀ {outer : List Names} {scope : Names} {next : Nat},
    ∀ b ∈ (d.outline outer scope next).blocks,
      ∃ id q, b.owner = some (id, q) ∧ b.body = q.body ∧ q.Placed a final code
  | .types .., _ => by
    rw [Decl.outline]
    nofun
  | .vars .., _ => by
    rw [Decl.outline]
    nofun
  | .procedure ⟨node, name, params, decls, body, span⟩, h => by
    intro b hb
    have hplaced := h _ rfl
    rw [Decl.outline] at hb
    rcases List.mem_append.mp hb with hb | hb
    · exact Decl.placed_of_outlineAll decls hplaced.nested b hb
    · rw [List.mem_singleton.mp hb]
      exact ⟨_, _, rfl, rfl, hplaced⟩

theorem Decl.placed_of_outlineAll :
    ∀ (decls : List Decl), (∀ q, .procedure q ∈ decls → q.Placed a final code) →
    ∀ {outer : List Names} {scope : Names} {next : Nat},
    ∀ b ∈ (Decl.outlineAll outer scope next decls).blocks,
      ∃ id q, b.owner = some (id, q) ∧ b.body = q.body ∧ q.Placed a final code
  | [], _ => by
    rw [Decl.outlineAll]
    nofun
  | d :: rest, h => by
    intro b hb
    rw [Decl.outlineAll] at hb
    rcases List.mem_append.mp hb with hb | hb
    · exact Decl.placed_of_outline d (fun q hq => h q (hq ▸ List.mem_cons_self)) b hb
    · exact Decl.placed_of_outlineAll rest (fun q hq => h q (List.mem_cons_of_mem _ hq)) b hb

end

mutual

/-- Every procedure has a block. -/
theorem Decl.owner_of_procedureSymbols {id : SymbolId} :
    ∀ (d : Decl), id ∈ Decl.procedureSymbols a d →
    ∀ (outer : List Names) (scope : Names) (next : Nat),
    ∃ b ∈ (d.outline outer scope next).blocks,
      ∃ id' q, b.owner = some (id', q) ∧ a.annotations.symbol? q.node = some id
  | .types .., h => by
    rw [Decl.procedureSymbols] at h
    cases h
  | .vars .., h => by
    rw [Decl.procedureSymbols] at h
    cases h
  | .procedure ⟨node, name, params, decls, body, span⟩, h => by
    intro outer scope next
    rw [Decl.outline]
    rw [Decl.procedureSymbols] at h
    rcases List.mem_append.mp h with h | h
    · exact ⟨_, List.mem_append_right _ (List.mem_singleton_self _), _, _, rfl,
        Option.mem_toList.mp h⟩
    · obtain ⟨b, hb, howner⟩ := Decl.owner_of_procedureSymbolsAll decls h _ _ _
      exact ⟨b, List.mem_append_left _ hb, howner⟩

theorem Decl.owner_of_procedureSymbolsAll {id : SymbolId} : ∀ (decls : List Decl),
    id ∈ Decl.procedureSymbolsAll a decls →
    ∀ (outer : List Names) (scope : Names) (next : Nat),
    ∃ b ∈ (Decl.outlineAll outer scope next decls).blocks,
      ∃ id' q, b.owner = some (id', q) ∧ a.annotations.symbol? q.node = some id
  | [], h => by
    rw [Decl.procedureSymbolsAll] at h
    cases h
  | d :: rest, h => by
    intro outer scope next
    rw [Decl.outlineAll]
    rw [Decl.procedureSymbolsAll] at h
    rcases List.mem_append.mp h with h | h
    · obtain ⟨b, hb, howner⟩ := Decl.owner_of_procedureSymbols d h outer scope next
      exact ⟨b, List.mem_append_left _ hb, howner⟩
    · obtain ⟨b, hb, howner⟩ := Decl.owner_of_procedureSymbolsAll rest h outer _ _
      exact ⟨b, List.mem_append_right _ hb, howner⟩

end

/-- The code of a procedure stands at an address. -/
def ProcDecl.StandsAt (a : Analysis) (code : Array Instruction) (q : ProcDecl Decl)
    (entry : Nat) : Prop :=
  ∃ entries c entries', Decl.code a entries entry (.procedure q) = .ok (c, entries') ∧
    Code.At code entry c

/-! ## Calls -/

/-- The code of a call stands at an address. -/
def Call.StandsAt (a : Analysis) (entries : Entries) (code : Array Instruction) (call : Call)
    (start : Nat) : Prop :=
  ∃ c, call.code a entries start = .ok c ∧ Code.At code start c

/-- A call stands where it does with the entries of the whole program, too. -/
theorem Call.StandsAt.of_suffix {entries : Entries} {call : Call} {start : Nat}
    (h : call.StandsAt a entries code start) (hentries : entries <:+ final.entries) :
    call.StandsAt a final.entries code start := by
  obtain ⟨c, hc, hat⟩ := h
  refine ⟨c, ?_, hat⟩
  unfold Call.code at hc ⊢
  obtain ⟨id, hid, hc⟩ := Except.bind_eq_ok hc
  obtain ⟨P, hP, hc⟩ := Except.bind_eq_ok hc
  obtain ⟨entry, hentry, hc⟩ := Except.bind_eq_ok hc
  rw [hid]
  change a.procedureOf id >>= _ = _
  rw [hP]
  change call.entry final.entries id >>= _ = _
  rw [Call.entry_of_suffix hentry hentries]
  exact hc

mutual

/-- In the code of a statement every call has its own piece. -/
theorem Stmt.standsAt_of_code {entries : Entries} : ∀ (s : Stmt) {start : Nat} {c : Code},
    s.code a entries start = .ok c → Code.At code start c →
    ∀ call ∈ s.calls, ∃ start', call.StandsAt a entries code start'
  | .assign .., _, _, _, _ => by
    rw [Stmt.calls]
    nofun
  | .ifElse condition thenBranch elseBranch _, start, c, h, hat => by
    intro call hcall
    obtain ⟨c₁, t, e, _, ht, he, rfl⟩ := Stmt.code_ifElse_eq_ok h
    rw [List.append_assoc, List.cons_append] at hat
    obtain ⟨_, _, hat⟩ := Code.at_append.mp hat
    obtain ⟨hat₁, _, hat₂⟩ := Code.at_append.mp hat
    rw [Stmt.calls] at hcall
    rcases List.mem_append.mp hcall with hcall | hcall
    · exact Stmt.standsAt_of_codeAll thenBranch ht hat₁ call hcall
    · exact Stmt.standsAt_of_codeAll elseBranch he hat₂ call hcall
  | .whileDo condition body _, start, c, h, hat => by
    intro call hcall
    obtain ⟨c₁, b, _, hb, rfl⟩ := Stmt.code_whileDo_eq_ok h
    rw [List.append_assoc, List.cons_append] at hat
    obtain ⟨_, _, hat⟩ := Code.at_append.mp hat
    rw [Stmt.calls] at hcall
    exact Stmt.standsAt_of_codeAll body hb (Code.at_append.mp hat).1 call hcall
  | .read .., _, _, _, _ => by
    rw [Stmt.calls]
    nofun
  | .write .., _, _, _, _ => by
    rw [Stmt.calls]
    nofun
  | .call q, start, c, h, hat => by
    intro call hcall
    rw [Stmt.calls, List.mem_singleton] at hcall
    rw [Stmt.code] at h
    exact ⟨start, c, hcall ▸ h, hat⟩
  | .ret _, _, _, _, _ => by
    rw [Stmt.calls]
    nofun

theorem Stmt.standsAt_of_codeAll {entries : Entries} :
    ∀ (body : List Stmt) {start : Nat} {c : Code},
    Stmt.codeAll a entries start body = .ok c → Code.At code start c →
    ∀ call ∈ Stmt.callsAll body, ∃ start', call.StandsAt a entries code start'
  | [], _, _, _, _ => by
    rw [Stmt.callsAll]
    nofun
  | s :: rest, start, c, h, hat => by
    intro call hcall
    obtain ⟨c₁, c₂, hc₁, hc₂, rfl⟩ := Stmt.codeAll_cons_eq_ok h
    obtain ⟨hat₁, hat₂⟩ := Code.at_append.mp hat
    rw [Stmt.callsAll] at hcall
    rcases List.mem_append.mp hcall with hcall | hcall
    · exact Stmt.standsAt_of_code s hc₁ hat₁ call hcall
    · exact Stmt.standsAt_of_codeAll rest hc₂ hat₂ call hcall

end

end BlockLang
