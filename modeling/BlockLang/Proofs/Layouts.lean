import BlockLang.Proofs.Interpreter
import BlockLang.Proofs.Checking

/-!
# Parts of a layout

A reference denotes a part of a variable, and a `var` parameter may stand for a part of a
part. Two parts of one variable that take the same number of words are the same words or
have none in common, which is what makes a copy word by word as good as a copy of the
whole value.

* `Layout.Part l k l'`: the layout `l'` stands in `l`, `k` words from its start. Parts of
  parts are parts (`Layout.Part.trans`) and lie within the whole (`Layout.Part.le`).
* `Layout.Part.aligned`: two parts of the same size coincide or are disjoint. The
  induction is over the two derivations at once. Two elements of one array either have
  different indices, and then a whole element lies between their starts, or they lie in
  the same element.
* `TypeTable.Lays`: the type table describes a layout by sizes and offsets, and does so
  rightly. Then sizes agree (`TypeTable.Lays.size_eq`), and an array or a record of the
  table is one of the layout (`TypeTable.Lays.array`, `TypeTable.Lays.record`).
-/

namespace BlockLang

/-! ## Parts -/

namespace Layout

mutual

/-- `l` has a part of layout `l'` from word `k` on. -/
inductive Part : Layout → Nat → Layout → Prop where
  | whole {l} : Part l 0 l
  | element {low high element i k l} : i < (high.toInt - low.toInt + 1).toNat →
      Part element k l → Part (.array low high element) (i * element.size + k) l
  | field {fields k l} : PartOfAll fields k l → Part (.record fields) k l

/-- One of the fields has a part. -/
inductive PartOfAll : List (String × Layout) → Nat → Layout → Prop where
  | here {name f rest k l} : Part f k l → PartOfAll ((name, f) :: rest) k l
  | there {name f rest k l} : PartOfAll rest k l →
    PartOfAll ((name, f) :: rest) (f.size + k) l

end

mutual

/-- A part lies within the whole. -/
theorem Part.le : ∀ {l l' : Layout} {k : Nat}, Part l k l' → k + l'.size ≤ l.size
  | _, _, _, .whole => by omega
  | .array low high element, l', _, .element (i := i) (k := k) hi hpart => by
    have hle := Part.le hpart
    calc i * element.size + k + l'.size ≤ (i + 1) * element.size := by
          rw [Nat.succ_mul]; omega
      _ ≤ (high.toInt - low.toInt + 1).toNat * element.size := Nat.mul_le_mul_right _ hi
  | .record _, _, _, .field hpart => PartOfAll.le hpart

theorem PartOfAll.le :
    ∀ {fields : List (String × Layout)} {l' : Layout} {k : Nat}, PartOfAll fields k l' →
    k + l'.size ≤ sizeAll fields
  | (_, f) :: rest, _, _, .here hpart => by
    have hle := Part.le hpart
    simp only [sizeAll]
    omega
  | (_, f) :: rest, _, _, .there hpart => by
    have hle := PartOfAll.le hpart
    simp only [sizeAll]
    omega

end

mutual

/-- A part of a part is a part. -/
theorem Part.trans {l' l'' : Layout} {k' : Nat} (h : Part l' k' l'') :
    ∀ {l : Layout} {k : Nat}, Part l k l' → Part l (k + k') l''
  | _, _, .whole => by rwa [Nat.zero_add]
  | _, _, .element hi hpart => by
    rw [Nat.add_assoc]
    exact .element hi (Part.trans h hpart)
  | _, _, .field hpart => .field (PartOfAll.trans h hpart)

theorem PartOfAll.trans {l' l'' : Layout} {k' : Nat} (h : Part l' k' l'') :
    ∀ {fields : List (String × Layout)} {k : Nat}, PartOfAll fields k l' →
    PartOfAll fields (k + k') l''
  | _, _, .here hpart => .here (Part.trans h hpart)
  | _, _, .there hpart => by
    rw [Nat.add_assoc]
    exact .there (PartOfAll.trans h hpart)

end

/-- The words `k, …, k + n - 1` and `k', …, k' + n - 1` are the same ones, or they have none
in common. -/
def Aligned (n k k' : Nat) : Prop := k = k' ∨ k + n ≤ k' ∨ k' + n ≤ k

/-- Parts that coincide or are disjoint stay so when both are moved. -/
theorem Aligned.add {n k k' : Nat} (h : Aligned n k k') (m : Nat) :
    Aligned n (m + k) (m + k') := by
  unfold Aligned at *
  omega

/-- A whole element lies between parts of elements with different indices. -/
theorem aligned_of_lt {i i' s n k k' : Nat} (h : i < i') (hk : k + n ≤ s) :
    i * s + k + n ≤ i' * s + k' := by
  calc i * s + k + n ≤ (i + 1) * s := by rw [Nat.succ_mul]; omega
    _ ≤ i' * s := Nat.mul_le_mul_right _ h
    _ ≤ i' * s + k' := Nat.le_add_right _ _

mutual

/-- Parts of the same size do not overlap partially. -/
theorem Part.aligned : ∀ {l l₁ l₂ : Layout} {k₁ k₂ : Nat}, Part l k₁ l₁ → Part l k₂ l₂ →
    l₁.size = l₂.size → Aligned l₁.size k₁ k₂
  | _, _, _, _, _, .whole, h₂, hsize => by
    have hle := Part.le h₂
    unfold Aligned
    omega
  | _, _, _, _, _, .element hi h₁, .whole, hsize => by
    have hle := Part.le (.element hi h₁)
    unfold Aligned
    omega
  | _, _, _, _, _, .field h₁, .whole, hsize => by
    have hle := Part.le (.field h₁)
    unfold Aligned
    omega
  | .array _ _ element, l₁, l₂, _, _, .element (i := i) (k := k) _ h₁,
      .element (i := i') (k := k') _ h₂, hsize => by
    have hle₁ := Part.le h₁
    have hle₂ := Part.le h₂
    rcases Nat.lt_trichotomy i i' with hlt | rfl | hgt
    · exact .inr (.inl (aligned_of_lt hlt hle₁))
    · exact (Part.aligned h₁ h₂ hsize).add _
    · exact .inr (.inr (aligned_of_lt hgt (hsize ▸ hle₂)))
  | .record _, _, _, _, _, .field h₁, .field h₂, hsize => PartOfAll.aligned h₁ h₂ hsize

theorem PartOfAll.aligned :
    ∀ {fields : List (String × Layout)} {l₁ l₂ : Layout} {k₁ k₂ : Nat},
    PartOfAll fields k₁ l₁ → PartOfAll fields k₂ l₂ → l₁.size = l₂.size →
    Aligned l₁.size k₁ k₂
  | _ :: _, _, _, _, _, .here h₁, .here h₂, hsize => Part.aligned h₁ h₂ hsize
  | _ :: _, _, _, _, _, .here h₁, .there h₂, hsize => by
    have hle := Part.le h₁
    unfold Aligned
    omega
  | _ :: _, _, _, _, _, .there h₁, .here h₂, hsize => by
    have hle := Part.le h₂
    unfold Aligned
    omega
  | _ :: _, _, _, _, _, .there h₁, .there h₂, hsize => (PartOfAll.aligned h₁ h₂ hsize).add _

end

/-- A field that is found is a part of the record. -/
theorem field?_part {name : String} {fields : List (String × Layout)} {k : Nat} {l : Layout}
    (h : field? name fields = some (k, l)) : PartOfAll fields k l := by
  induction fields generalizing k l with
  | nil => cases h
  | cons f rest ih =>
    obtain ⟨n, f⟩ := f
    rw [field?] at h
    split at h
    · cases h
      exact .here .whole
    · obtain ⟨⟨k', l'⟩, hrest, heq⟩ := Option.map_eq_some_iff.mp h
      cases heq
      exact .there (ih hrest)

end Layout

/-! ## Layouts of types -/

namespace TypeTable

mutual

/-- The table gives a type the layout `l`. -/
def Lays (t : TypeTable) : Layout → TypeId → Prop
  | .word, type => t.isScalar type = true
  | .array low high element, type => low ≤ high ∧ ∃ elementType, t.get? type =
      some (.array elementType low high ((high.toInt - low.toInt + 1) * t.size elementType)) ∧
      Lays t element elementType
  | .record fields, type =>
    ∃ fs size, t.get? type = some (.record fs size) ∧ LaysAll t fields fs 0 size

/-- The table gives fields the layouts `fields`, from `offset` to `size`. -/
def LaysAll (t : TypeTable) : List (String × Layout) → List Field → Int → Int → Prop
  | [], fs, offset, size => fs = [] ∧ offset = size
  | (name, l) :: rest, fs, offset, size => ∃ f fs', fs = f :: fs' ∧ f.name = name ∧
      f.offset = offset ∧ Lays t l f.type ∧ LaysAll t rest fs' (offset + t.size f.type) size

end

variable {t : TypeTable}

mutual

/-- The table has the size of a layout. -/
theorem Lays.size_eq : ∀ {l : Layout} {type : TypeId}, t.Lays l type → t.size type = l.size
  | .word, type, h => by
    simp only [Lays, isScalar, Option.any_eq_true] at h
    obtain ⟨d, hget, hscalar⟩ := h
    rw [size_of_get? hget, Layout.size]
    cases d <;> simp_all [TypeDescriptor.isScalar, TypeDescriptor.size]
  | .array low high element, type, ⟨hle, elementType, hget, helement⟩ => by
    have hcount : low.toInt ≤ high.toInt := Int64.le_iff_toInt_le.mp hle
    rw [size_of_get? hget, Layout.size, TypeDescriptor.size, Lays.size_eq helement,
      Int.natCast_mul, Int.toNat_of_nonneg (by omega)]
  | .record fields, type, ⟨fs, size, hget, hfields⟩ => by
    have hsize := LaysAll.size_eq hfields
    rw [size_of_get? hget, Layout.size, TypeDescriptor.size]
    omega

theorem LaysAll.size_eq :
    ∀ {fields : List (String × Layout)} {fs : List Field} {offset size : Int},
    t.LaysAll fields fs offset size → size = offset + Layout.sizeAll fields
  | [], _, _, _, ⟨_, h⟩ => by simp [Layout.sizeAll, h]
  | (_, l) :: rest, _, _, _, ⟨f, fs', _, _, _, hl, hrest⟩ => by
    have hsize := LaysAll.size_eq hrest
    rw [Lays.size_eq hl] at hsize
    rw [hsize, Layout.sizeAll, Int.natCast_add, Int.add_assoc]

end

/-- A type that the table describes as an array has the layout of an array. -/
theorem Lays.array {l : Layout} {type element : TypeId} {low high : Word} {size : Int}
    (h : t.Lays l type) (hget : t.get? type = some (.array element low high size)) :
    ∃ l', l = .array low high l' ∧ t.Lays l' element := by
  cases l with
  | word => simp [Lays, isScalar, hget, TypeDescriptor.isScalar] at h
  | array low' high' l' =>
    obtain ⟨_, elementType, hget', helement⟩ := h
    rw [hget] at hget'
    cases hget'
    exact ⟨l', rfl, helement⟩
  | record fields =>
    obtain ⟨fs, size', hget', _⟩ := h
    rw [hget] at hget'
    cases hget'

/-- A type that the table describes as a record has the layout of a record. -/
theorem Lays.record {l : Layout} {type : TypeId} {fs : List Field} {size : Int}
    (h : t.Lays l type) (hget : t.get? type = some (.record fs size)) :
    ∃ fields, l = .record fields ∧ t.LaysAll fields fs 0 size := by
  cases l with
  | word => simp [Lays, isScalar, hget, TypeDescriptor.isScalar] at h
  | array low' high' l' =>
    obtain ⟨_, elementType, hget', _⟩ := h
    rw [hget] at hget'
    cases hget'
  | record fields =>
    obtain ⟨fs', size', hget', hfields⟩ := h
    rw [hget] at hget'
    cases hget'
    exact ⟨fields, rfl, hfields⟩

/-- A field stands where the table says. -/
theorem LaysAll.field? {fields : List (String × Layout)}
    {fs : List Field} {offset size : Int} {name : String} {f : Field}
    (h : t.LaysAll fields fs offset size) (hf : fs.find? (·.name == name) = some f) :
    ∃ k l, Layout.field? name fields = some (k, l) ∧ f.offset = offset + k ∧
    t.Lays l f.type := by
  induction fields generalizing fs offset with
  | nil =>
    obtain ⟨rfl, _⟩ := h
    cases hf
  | cons field rest ih =>
    obtain ⟨n, l⟩ := field
    obtain ⟨f', fs', rfl, rfl, hoffset, hl, hrest⟩ := h
    rw [Layout.field?]
    by_cases hname : (f'.name == name) = true
    · rw [List.find?_cons_of_pos (by exact hname)] at hf
      cases hf
      exact ⟨0, l, if_pos hname, by simp [hoffset], hl⟩
    · rw [List.find?_cons_of_neg (by exact hname)] at hf
      obtain ⟨k, l', hfield, hk, hl'⟩ := ih hrest hf
      refine ⟨l.size + k, l', ?_, ?_, hl'⟩
      · rw [if_neg hname, hfield]
        rfl
      · rw [hk, hl.size_eq, Int.natCast_add, Int.add_assoc]

end TypeTable

end BlockLang
