import RobotCode.Json.Storing

/-!
# What the parser stores is not always of the kind of its field

The parser keeps strings, tables and vectors alike as untyped offsets. A table field takes any
offset, and so does a field of strings; a vector field takes the offset of a table. `fits` says of
a document which offsets are of the right kind: a table field has an object, and neither a string
nor an array; a string field has no array, which can only be empty; a vector of tables has an array,
not an object, and no string in it. Of a field that is given more than once the first value counts,
since the others are dropped.
-/

namespace RobotCode.Json

open Flatbuffers List Option

section

variable (S : Schema)

mutual

/-- The value is of the kind of the field, if it is stored at all. -/
def fits (k i : Nat) : Document → Bool
  | .literal _ => true
  | .string _ => !fieldIsSequence S k i
  | .array items => if fieldIsRepeating S k i then itemsFit k i items else !isOffsetType (fieldElementaryType S k i)
  | .object fields => !fieldIsRepeating S k i && fieldsFit (fieldType S k i) [] fields

def itemsFit (k i : Nat) : List Document → Bool
  | [] => true
  | .string _ :: items => !fieldIsSequence S k i && itemsFit k i items
  | .object fields :: items => fieldsFit (fieldType S k i) [] fields && itemsFit k i items
  | _ :: items => itemsFit k i items

def fieldsFit (k : Nat) (inUse : List Nat) : List (List Char × Option Document) → Bool
  | [] => true
  | (_, none) :: fields => fieldsFit k inUse fields
  | (name, some d) :: fields =>
    match fieldIndex S k (cStr name) with
    | some i => (decide (i ∈ inUse) || fits k i d) && fieldsFit k (i :: inUse) fields
    | none => true

end

def documentFits (root : Nat) : Document → Bool
  | .object fields => fieldsFit S root [] fields
  | _ => true

def textFits (root : Nat) (data : List Char) : Bool := (document data).all (documentFits S root)

end

section

variable {S : Schema} {k i : Nat} {code : TypeCode} (h : S.typeCode k i = some code)

include h

theorem fieldElementaryType_eq : fieldElementaryType S k i = code.baseType := by
  rw [fieldElementaryType, h]
  rfl

theorem fieldIsRepeating_eq : fieldIsRepeating S k i = code.isRepeating := by
  rw [fieldIsRepeating, h]
  rfl

theorem fieldType_eq : fieldType S k i = code.typeRef := by
  rw [fieldType, h]
  rfl

theorem kind_of_not_repeating (hrepeating : fieldIsRepeating S k i = false) : code.kind = code.elementKind := by
  rw [fieldIsRepeating_eq h] at hrepeating
  rw [TypeCode.kind, hrepeating]
  rfl

theorem kind_of_repeating (hrepeating : fieldIsRepeating S k i = true) : code.kind = .vector code.elementKind := by
  rw [fieldIsRepeating_eq h] at hrepeating
  rw [TypeCode.kind, hrepeating]
  rfl

theorem elementKind_of_sequence (hsequence : fieldIsSequence S k i = true) :
    code.elementKind = .table (fieldType S k i) := by
  rw [fieldIsSequence, fieldElementaryType_eq h, beq_iff_eq] at hsequence
  rw [TypeCode.elementKind, hsequence, fieldType_eq h]

theorem elementKind_of_string (hoffset : isOffsetType (fieldElementaryType S k i) = true)
    (hsequence : fieldIsSequence S k i = false) : code.elementKind = .string := by
  rw [fieldIsSequence, fieldElementaryType_eq h] at hsequence
  rw [fieldElementaryType_eq h] at hoffset
  obtain ⟨type, repeating, ref⟩ := code
  cases type with
  | string => rfl
  | sequence => cases hsequence
  | _ => exact absurd hoffset (by simp [isOffsetType])

end

theorem exists_typeCode {S : Schema} {k i : Nat}
    (h : isOffsetType (fieldElementaryType S k i) = true) : ∃ code, S.typeCode k i = some code := by
  cases hcode : S.typeCode k i with
  | none =>
    rw [fieldElementaryType, hcode] at h
    exact absurd h (by simp [isOffsetType])
  | some code => exact ⟨code, rfl⟩

theorem isOffsetType_of_sequence {S : Schema} {k i : Nat} (h : fieldIsSequence S k i = true) :
    isOffsetType (fieldElementaryType S k i) = true := by
  rw [fieldIsSequence, beq_iff_eq] at h
  rw [h]
  rfl

section

variable {F : FloatOps} {S : Schema}

variable {type : ElementaryType}

theorem inRange_wrapSigned {w : Nat} (hw : 0 < w) (hrange : type.range = (-2 ^ (w - 1), 2 ^ (w - 1))) (x : Int) :
    type.InRange (wrapSigned w x) := by
  have hpow : (2 : Int) ^ w = 2 * 2 ^ (w - 1) := by
    rw [← Int.pow_succ']
    congr 1
    omega
  have hpos : (0 : Int) < 2 ^ (w - 1) := Int.pow_pos (by decide)
  unfold ElementaryType.InRange wrapSigned
  rw [hrange, hpow]
  have hlow := Int.emod_nonneg (x + 2 ^ (w - 1)) (b := 2 * 2 ^ (w - 1)) (by omega)
  have hhigh := Int.emod_lt_of_pos (x + 2 ^ (w - 1)) (b := 2 * 2 ^ (w - 1)) (by omega)
  constructor
  · dsimp only
    omega
  · dsimp only
    omega

theorem inRange_emod {w : Nat} (hrange : type.range = (0, 2 ^ w)) (x : Int) : type.InRange (x % 2 ^ w) := by
  have hpos : (0 : Int) < 2 ^ w := Int.pow_pos (by decide)
  unfold ElementaryType.InRange
  rw [hrange]
  exact ⟨Int.emod_nonneg x (by omega), Int.emod_lt_of_pos x hpos⟩

theorem hasKind_intScalar {x : Int} {v : Value}
    (h : intScalar F type x = some v) : type.IsScalar ∧ v.HasKind S (.scalar type) := by
  cases type with
  | bool =>
    cases h
    refine ⟨trivial, .scalar ?_⟩
    by_cases hx : x = 0
    · rw [if_pos hx]
      decide
    · rw [if_neg hx]
      decide
  | char =>
    cases h
    exact ⟨trivial, .scalar (inRange_wrapSigned (w := 8) (by decide) rfl x)⟩
  | uchar =>
    cases h
    exact ⟨trivial, .scalar (inRange_emod (w := 8) rfl x)⟩
  | short =>
    cases h
    exact ⟨trivial, .scalar (inRange_wrapSigned (w := 16) (by decide) rfl x)⟩
  | ushort =>
    cases h
    exact ⟨trivial, .scalar (inRange_emod (w := 16) rfl x)⟩
  | int =>
    cases h
    exact ⟨trivial, .scalar (inRange_wrapSigned (w := 32) (by decide) rfl x)⟩
  | uint =>
    cases h
    exact ⟨trivial, .scalar (inRange_emod (w := 32) rfl x)⟩
  | long =>
    cases h
    exact ⟨trivial, .scalar (inRange_wrapSigned (w := 64) (by decide) rfl x)⟩
  | ulong =>
    cases h
    exact ⟨trivial, .scalar (inRange_emod (w := 64) rfl x)⟩
  | float =>
    cases h
    exact ⟨trivial, .scalar (F.intToFloat_inRange x)⟩
  | double =>
    cases h
    exact ⟨trivial, .scalar (F.intToDouble_inRange x)⟩
  | _ => exact absurd h (by simp [intScalar])

theorem hasKind_doubleScalar {x : Int} {v : Value}
    (hx : ElementaryType.double.InRange x) (h : doubleScalar F type x = some v) :
    type.IsScalar ∧ v.HasKind S (.scalar type) := by
  cases type with
  | float =>
    cases h
    exact ⟨trivial, .scalar (F.doubleToFloat_inRange x)⟩
  | double =>
    cases h
    exact ⟨trivial, .scalar hx⟩
  | _ => exact absurd h (by simp [doubleScalar])

def Stored.IsNumber : Stored → Prop
  | .int _ => True
  | .double x => ElementaryType.double.InRange x
  | .object _ => False

theorem isNumber_literalStored {value : Literal} {s : Stored} (h : literalStored F value = some s) : s.IsNumber := by
  cases value with
  | true | false =>
    cases h
    trivial
  | number text =>
    rw [literalStored] at h
    split at h
    · cases h
      trivial
    · obtain ⟨x, hx, rfl⟩ := map_eq_some_iff.mp h
      exact F.fieldAsDouble_inRange text x hx

end

/-! ### Values of a field -/

section

variable (F : FloatOps) (S : Schema) (k i : Nat)

def SlotFits (s : Stored) : Prop :=
  ∀ v code, fieldValue F S k i s = some v → S.typeCode k i = some code → v.HasKind S code.kind

def ElementFits (s : Stored) : Prop :=
  ∀ v code, elementValue F S k i s = some v → S.typeCode k i = some code →
    v.HasKind S code.elementKind

end

section

variable {F : FloatOps} {S : Schema} {k i : Nat}

variable {stored : List Stored} {values : List Value} {s : Stored}

theorem elementValue_eq_fieldValue (h : s.IsNumber) : elementValue F S k i s = fieldValue F S k i s := by
  cases s with
  | object v => exact absurd h id
  | _ => rfl

theorem elementFits_of_isNumber (h : s.IsNumber) : ElementFits F S k i s := by
  intro v code hv hcode
  have hscalar : code.baseType.IsScalar ∧ v.HasKind S (.scalar code.baseType) := by
    rw [← fieldElementaryType_eq hcode]
    cases s with
    | int x => exact hasKind_intScalar hv
    | double x => exact hasKind_doubleScalar h hv
    | object v => exact absurd h id
  rw [TypeCode.elementKind_of_isScalar hscalar.1]
  exact hscalar.2

theorem slotFits_of_isNumber (hrepeating : fieldIsRepeating S k i = false) (h : s.IsNumber) : SlotFits F S k i s := by
  intro v code hv hcode
  rw [kind_of_not_repeating hcode hrepeating]
  exact elementFits_of_isNumber h v code ((elementValue_eq_fieldValue h).trans hv) hcode

theorem slotFits_object_iff {v : Value} (hrepeating : fieldIsRepeating S k i = false) :
    SlotFits F S k i (.object v) ↔ ElementFits F S k i (.object v) := by
  unfold SlotFits ElementFits fieldValue elementValue
  rw [hrepeating, Bool.false_or]
  apply forall₂_congr
  intro w code
  apply forall₂_congr
  intro _ hcode
  rw [kind_of_not_repeating hcode hrepeating]

theorem elementFits_string_iff {text : List Char} :
    ElementFits F S k i (.object (.string text)) ↔ fieldIsSequence S k i = false := by
  apply Iff.intro
  · intro h
    rw [← Bool.not_eq_true]
    intro hsequence
    have hoffset := isOffsetType_of_sequence hsequence
    obtain ⟨code, hcode⟩ := exists_typeCode hoffset
    have hkind := h (.string text) code (if_pos hoffset) hcode
    rw [elementKind_of_sequence hcode hsequence] at hkind
    cases hkind
  · intro hsequence v code hv hcode
    rw [elementValue] at hv
    split at hv
    · next hoffset =>
      cases hv
      rw [elementKind_of_string hcode hoffset hsequence]
      exact .string
    · cases hv

theorem fieldIsSequence_of_isIntegerType (h : isIntegerType (fieldElementaryType S k i) = true) :
    fieldIsSequence S k i = false := by
  rw [fieldIsSequence]
  cases htype : fieldElementaryType S k i with
  | sequence =>
    rw [htype] at h
    exact absurd h (by simp [isIntegerType])
  | _ => rfl

theorem stringStored_cases {text : List Char} (h : stringStored S k i text = some s) :
    (s.IsNumber ∧ fieldIsSequence S k i = false) ∨ s = .object (.string text) := by
  rw [stringStored] at h
  split at h
  · next henum =>
    rw [Bool.and_eq_true] at henum
    split at h
    · obtain ⟨x, _, rfl⟩ := map_eq_some_iff.mp h
      exact .inl ⟨trivial, fieldIsSequence_of_isIntegerType henum.1⟩
    · cases h
  · exact .inr (some.inj h).symm

theorem elementFits_table_iff {v : Value} (hsequence : fieldIsSequence S k i = true) :
    ElementFits F S k i (.object v) ↔ v.HasKind S (.table (fieldType S k i)) := by
  have hoffset := isOffsetType_of_sequence hsequence
  obtain ⟨code, hcode⟩ := exists_typeCode hoffset
  have hkind := elementKind_of_sequence hcode hsequence
  apply Iff.intro
  · intro h
    exact hkind ▸ h v code (if_pos hoffset) hcode
  · intro h w code' hw hcode'
    rw [elementValue, if_pos hoffset] at hw
    cases hw
    rw [elementKind_of_sequence hcode' hsequence]
    exact h

theorem slotFits_vector_iff_of_not_repeating (hrepeating : fieldIsRepeating S k i = false) :
    SlotFits F S k i (.object (.vector values)) ↔ isOffsetType (fieldElementaryType S k i) = false := by
  rw [slotFits_object_iff hrepeating]
  apply Iff.intro
  · intro h
    rw [← Bool.not_eq_true]
    intro hoffset
    obtain ⟨code, hcode⟩ := exists_typeCode hoffset
    have hkind := h (.vector values) code (if_pos hoffset) hcode
    unfold TypeCode.elementKind at hkind
    split at hkind <;> cases hkind
  · intro hoffset v code hv
    rw [elementValue, hoffset] at hv
    cases hv

theorem not_slotFits_table_of_repeating {slots : List (Option Value)}
    (hsequence : fieldIsSequence S k i = true) (hrepeating : fieldIsRepeating S k i = true) :
    ¬ SlotFits F S k i (.object (.table slots)) := by
  intro h
  obtain ⟨code, hcode⟩ := exists_typeCode (isOffsetType_of_sequence hsequence)
  have hkind := h (.table slots) code (by rw [fieldValue, hrepeating]; rfl) hcode
  rw [kind_of_repeating hcode hrepeating] at hkind
  cases hkind

theorem hasKind_mapM {code : TypeCode} (hcode : S.typeCode k i = some code)
    (h : stored.mapM (elementValue F S k i) = some values) :
    (∀ v ∈ values, v.HasKind S code.elementKind) ↔ ∀ s ∈ stored, ElementFits F S k i s := by
  induction stored generalizing values with
  | nil =>
    cases h
    simp
  | cons s stored ih =>
    rw [mapM_cons] at h
    obtain ⟨v, hv, h⟩ := bind_eq_some_iff.mp h
    obtain ⟨values', hvalues, h⟩ := bind_eq_some_iff.mp h
    cases h
    have hhead : v.HasKind S code.elementKind ↔ ElementFits F S k i s := by
      apply Iff.intro
      · intro hkind w code' hw hcode'
        rw [hv] at hw
        rw [hcode] at hcode'
        cases hw
        cases hcode'
        exact hkind
      · intro hfits
        exact hfits v code hv hcode
    rw [forall_mem_cons, forall_mem_cons, hhead, ih hvalues]

theorem slotFits_vector_iff_of_repeating (hrepeating : fieldIsRepeating S k i = true)
    (h : stored.mapM (elementValue F S k i) = some values) :
    SlotFits F S k i (.object (.vector values)) ↔ ∀ s ∈ stored, ElementFits F S k i s := by
  have hvalue : fieldValue F S k i (.object (.vector values)) = some (.vector values) := by
    rw [fieldValue, hrepeating]
    rfl
  obtain ⟨code, hcode⟩ : ∃ code, S.typeCode k i = some code := by
    cases hcode : S.typeCode k i with
    | none =>
      rw [fieldIsRepeating, hcode] at hrepeating
      cases hrepeating
    | some code => exact ⟨code, rfl⟩
  rw [← hasKind_mapM hcode h]
  apply Iff.intro
  · intro hfits
    have hkind := hfits _ code hvalue hcode
    rw [kind_of_repeating hcode hrepeating] at hkind
    cases hkind with
    | vector helements => exact helements
  · intro helements v code' hv hcode'
    rw [hvalue] at hv
    rw [hcode] at hcode'
    cases hv
    cases hcode'
    rw [kind_of_repeating hcode hrepeating]
    exact .vector helements

theorem hasKind_storedTable {stored : List (Nat × Stored)} : (storedTable F S k stored).HasKind S (.table k)
      ↔ ∀ i s, firstOf i stored = some s → SlotFits F S k i s := by
  have hslot : ∀ {i : Nat} {code : TypeCode}, S.typeCode k i = some code →
      (storedTable F S k stored).slots[i]? = some ((firstOf i stored).bind (fieldValue F S k i)) := by
    intro i code hcode
    have hi : i < (S.typeTable k).numElems := (List.getElem?_eq_some_iff.mp hcode).1
    rw [storedTable, Value.slots, getElem?_map, getElem?_range hi]
    rfl
  apply Iff.intro
  · intro h i s hs v code hv hcode
    cases h with
    | table _ hfields =>
      apply hfields i v code ?_ hcode
      have := hslot hcode
      rw [hs, bind_some, hv] at this
      exact this
  · intro h
    refine .table (by simp) ?_
    intro i v code hv hcode
    have := (hslot hcode).symm.trans hv
    obtain ⟨s, hs, hvalue⟩ := bind_eq_some_iff.mp (some.inj this)
    exact h i s hs v code hvalue hcode

/-! ### Documents -/

theorem itemsFit_cons (d : Document) (items : List Document) :
    itemsFit S k i (d :: items) = (itemsFit S k i [d] && itemsFit S k i items) := by
  cases d <;> simp [itemsFit]

section

variable (F S)

structure StoresFit (d : Document) : Prop where
  slot : ∀ {k i : Nat} {s : Stored}, store F S k i false d = some s →
    (SlotFits F S k i s ↔ fits S k i d = true)
  element : ∀ {k i : Nat} {s : Stored}, store F S k i true d = some s →
    (ElementFits F S k i s ↔ itemsFit S k i [d] = true)

end

theorem elementFits_storeItems {items : List Document} (h : ∀ d ∈ items, StoresFit F S d)
    (hstored : storeItems F S k i items = some stored) :
    (∀ s ∈ stored, ElementFits F S k i s) ↔ itemsFit S k i items = true := by
  induction items generalizing stored with
  | nil =>
    rw [storeItems] at hstored
    cases hstored
    simp [itemsFit]
  | cons d items ih =>
    rw [storeItems] at hstored
    obtain ⟨s, hs, hstored⟩ := bind_eq_some_iff.mp hstored
    obtain ⟨rest, hrest, hstored⟩ := bind_eq_some_iff.mp hstored
    cases hstored
    rw [forall_mem_cons, itemsFit_cons, Bool.and_eq_true,
      (h d mem_cons_self).element hs, ih (fun d hd => h d (mem_cons_of_mem _ hd)) hrest]

theorem slotFits_storeFields {fields : List (List Char × Option Document)}
    (h : ∀ name d, (name, some d) ∈ fields → StoresFit F S d) {stored : List (Nat × Stored)}
    (inUse : List Nat) (hstored : storeFields F S k fields = some stored) :
    (∀ i s, i ∉ inUse → firstOf i stored = some s → SlotFits F S k i s) ↔ fieldsFit S k inUse fields = true := by
  induction fields generalizing stored inUse with
  | nil =>
    rw [storeFields] at hstored
    cases hstored
    simp [fieldsFit, firstOf]
  | cons field fields ih =>
    obtain ⟨name, value⟩ := field
    have hrest : ∀ name d, (name, some d) ∈ fields → StoresFit F S d :=
      fun name d hd => h name d (mem_cons_of_mem _ hd)
    cases value with
    | none =>
      rw [storeFields] at hstored
      obtain ⟨_, _, hstored⟩ := bind_eq_some_iff.mp hstored
      rw [fieldsFit]
      exact ih hrest inUse hstored
    | some d =>
      rw [storeFields] at hstored
      obtain ⟨j, hj, hstored⟩ := bind_eq_some_iff.mp hstored
      obtain ⟨e, he, hstored⟩ := bind_eq_some_iff.mp hstored
      obtain ⟨rest, hstoredRest, hstored⟩ := bind_eq_some_iff.mp hstored
      cases hstored
      rw [fieldsFit, hj]
      dsimp only
      rw [Bool.and_eq_true, Bool.or_eq_true, decide_eq_true_eq,
        ← (h name d mem_cons_self).slot he, ← ih hrest (j :: inUse) hstoredRest]
      apply Iff.intro
      · intro hfits
        apply And.intro
        · by_cases hmem : j ∈ inUse
          · exact .inl hmem
          · exact .inr (hfits j e hmem lookup_cons_self)
        · intro i s hi hs
          obtain ⟨hne, hmem⟩ := not_or.mp (mt mem_cons.mpr hi)
          apply hfits i s hmem
          rw [firstOf, lookup_cons, beq_false_of_ne hne]
          exact hs
      · intro hfits i s hmem hs
        by_cases hij : i = j
        · subst hij
          rw [firstOf, lookup_cons_self] at hs
          cases hs
          exact hfits.1.resolve_left hmem
        · rw [firstOf, lookup_cons, beq_false_of_ne hij] at hs
          exact hfits.2 i s (by simp [hij, hmem]) hs

theorem storesFit_object {fields : List (List Char × Option Document)}
    (h : ∀ name d, (name, some d) ∈ fields → StoresFit F S d) : StoresFit F S (.object fields) := by
  have htable : ∀ {k i : Nat} {b : Bool} {s : Stored}, store F S k i b (.object fields) = some s →
      fieldIsSequence S k i = true ∧ ∃ slots, s = .object (.table slots) ∧
        ((Value.table slots).HasKind S (.table (fieldType S k i))
          ↔ fieldsFit S (fieldType S k i) [] fields = true) := by
    intro k i b s hs
    rw [store] at hs
    split at hs
    · next hsequence =>
      obtain ⟨stored, hstored, hs⟩ := bind_eq_some_iff.mp hs
      cases hs
      refine ⟨hsequence, _, rfl, ?_⟩
      rw [← slotFits_storeFields h [] hstored]
      simp only [not_mem_nil, not_false_eq_true, forall_true_left]
      exact hasKind_storedTable
    · cases hs
  constructor
  · intro k i s hs
    obtain ⟨hsequence, slots, rfl, hkind⟩ := htable hs
    rw [fits, Bool.and_eq_true, Bool.not_eq_true', ← hkind]
    cases hrepeating : fieldIsRepeating S k i with
    | false =>
      rw [slotFits_object_iff hrepeating, elementFits_table_iff hsequence]
      simp
    | true => simp [not_slotFits_table_of_repeating hsequence hrepeating]
  · intro k i s hs
    obtain ⟨hsequence, slots, rfl, hkind⟩ := htable hs
    rw [elementFits_table_iff hsequence, hkind]
    simp [itemsFit]

theorem storesFit_array {items : List Document} (h : ∀ d ∈ items, StoresFit F S d) :
    StoresFit F S (.array items) := by
  constructor
  · intro k i s hs
    rw [store] at hs
    obtain ⟨stored, hstored, hs⟩ := bind_eq_some_iff.mp hs
    obtain ⟨values, hvalues, hs⟩ := bind_eq_some_iff.mp hs
    cases hs
    rw [fits]
    cases hrepeating : fieldIsRepeating S k i with
    | false => simp [slotFits_vector_iff_of_not_repeating hrepeating]
    | true =>
      rw [slotFits_vector_iff_of_repeating hrepeating hvalues, elementFits_storeItems h hstored]
      simp
  · intro k i s hs
    rw [store] at hs
    cases hs

theorem storesFit_string (text : List Char) : StoresFit F S (.string text) := by
  have helement : ∀ {k i : Nat} {s : Stored}, stringStored S k i text = some s →
      (ElementFits F S k i s ↔ fieldIsSequence S k i = false) := by
    intro k i s hs
    obtain hnumber | hstring := stringStored_cases hs
    · simp [elementFits_of_isNumber hnumber.1, hnumber.2]
    · rw [hstring, elementFits_string_iff]
  constructor
  · intro k i s hs
    rw [store] at hs
    split at hs
    · next hrepeating =>
      rw [fits, Bool.not_eq_true', ← helement hs]
      obtain hnumber | hstring := stringStored_cases hs
      · simp [elementFits_of_isNumber hnumber.1, slotFits_of_isNumber hrepeating hnumber.1]
      · rw [hstring, slotFits_object_iff hrepeating]
    · cases hs
  · intro k i s hs
    rw [store] at hs
    split at hs
    · rw [helement hs]
      simp [itemsFit]
    · cases hs

theorem storesFit_literal (value : Literal) : StoresFit F S (.literal value) := by
  constructor
  · intro k i s hs
    rw [store] at hs
    split at hs
    · next hrepeating =>
      simp [fits, slotFits_of_isNumber hrepeating (isNumber_literalStored hs)]
    · cases hs
  · intro k i s hs
    rw [store] at hs
    split at hs
    · simp [itemsFit, elementFits_of_isNumber (isNumber_literalStored hs)]
    · cases hs

theorem storesFit (d : Document) : StoresFit F S d := by
  induction d using Document.induct with
  | literal value => exact storesFit_literal value
  | string text => exact storesFit_string text
  | array items ih => exact storesFit_array ih
  | object fields ih => exact storesFit_object ih

theorem hasKind_storeRoot {root : Nat} {d : Document} {v : Value} (h : storeRoot F S root d = some v) :
    v.HasKind S (.table root) ↔ documentFits S root d = true := by
  cases d with
  | object fields =>
    obtain ⟨stored, hstored, rfl⟩ := map_eq_some_iff.mp h
    rw [hasKind_storedTable, documentFits, ← slotFits_storeFields (fun _ d _ => storesFit d) [] hstored]
    simp
  | _ => exact absurd h (by simp [storeRoot])

/-- The table that the parser builds is of its type exactly when the text fits. -/
theorem jsonToFlatbuffer_hasKind_iff {root : Nat} {data : List Char} {v : Value}
    (h : jsonToFlatbuffer F S root data = some v) :
    v.HasKind S (.table root) ↔ textFits S root data = true := by
  rw [jsonToFlatbuffer_eq] at h
  obtain ⟨d, hd, hv⟩ := bind_eq_some_iff.mp h
  rw [hasKind_storeRoot hv, textFits, hd]
  rfl

end

/-- Conversions for texts without floating point numbers. -/
def noFloats : FloatOps where
  fieldAsDouble := fun _ => none
  intToFloat := fun _ => 0
  intToDouble := fun _ => 0
  doubleToFloat := fun _ => 0
  intToFloat_inRange := fun _ => by decide
  intToDouble_inRange := fun _ => by decide
  doubleToFloat_inRange := fun _ => by decide
  fieldAsDouble_inRange := fun _ _ h => absurd h (by simp)

/-- A table `t`, a vector of tables `v` and a string `s`, where the tables have a number `x`. -/
def nestedSchema : Schema :=
  [⟨.table, [⟨.sequence, false, some 1⟩, ⟨.sequence, true, some 1⟩, ⟨.string, false, none⟩],
      [['t'], ['v'], ['s']], none⟩,
    ⟨.table, [⟨.int, false, none⟩], [['x']], none⟩]

/-- A text that fits, with its table. -/
theorem jsonToFlatbuffer_hasKind_nested :
    (Value.table [some (.table [some (.scalar .int 1)]), some (.vector [.table [none]]),
        some (.string ['a'])]).HasKind nestedSchema (.table 0)
      ↔ textFits nestedSchema 0
        "\x7b\"t\": \x7b\"x\": true\x7d, \"v\": [\x7b\x7d], \"s\": \"a\"\x7d".toList = true :=
  jsonToFlatbuffer_hasKind_iff (F := noFloats) (by rfl)

def Mistyped (text : List Char) (t : Value) : Prop :=
  jsonToFlatbuffer noFloats nestedSchema 0 text = some t ∧ ¬ t.HasKind nestedSchema (.table 0)

/-- A string as a table and in a vector of tables, a table as a vector, and vectors as a table and as
a string. -/
theorem jsonToFlatbuffer_mistyped :
    Mistyped "\x7b\"t\": \"a\"\x7d".toList (.table [some (.string ['a']), none, none]) ∧
    Mistyped "\x7b\"v\": [\"a\"]\x7d".toList
      (.table [none, some (.vector [.string ['a']]), none]) ∧
    Mistyped "\x7b\"v\": \x7b\x7d\x7d".toList (.table [none, some (.table [none]), none]) ∧
    Mistyped "\x7b\"t\": [\x7b\x7d]\x7d".toList
      (.table [some (.vector [.table [none]]), none, none]) ∧
    Mistyped "\x7b\"s\": []\x7d".toList (.table [none, none, some (.vector [])]) :=
  ⟨⟨by rfl, by decide⟩, ⟨by rfl, by decide⟩, ⟨by rfl, by decide⟩, ⟨by rfl, by decide⟩, ⟨by rfl, by decide⟩⟩

end RobotCode.Json
