import RobotCode.Json.Printed
import RobotCode.Json.WellTyped

/-!
# Printing and parsing

Parsing what was printed gives the table back exactly when
no string in a vector holds a quote, a backslash or a zero and no `uint64` is `2 ^ 63` or more. The
printer does not escape strings in vectors. The parser reads a number that `strtoll` cannot represent
as a floating point number, which is left out of an integer field and refused in an integer vector.
-/

namespace RobotCode.Json

open Flatbuffers List Option

mutual

/-- Every `uint64` is below `2 ^ 63`. -/
def smallNumbers : Value → Bool
  | .scalar type x => decide (type ≠ .ulong ∨ x < 2 ^ 63)
  | .string _ => true
  | .vector elements => smallElements elements
  | .table slots => smallSlots slots

def smallElements : List Value → Bool
  | [] => true
  | v :: elements => smallNumbers v && smallElements elements

def smallSlots : List (Option Value) → Bool
  | [] => true
  | none :: slots => smallSlots slots
  | some v :: slots => smallNumbers v && smallSlots slots

end

theorem smallElements_iff {elements : List Value} :
    smallElements elements = true ↔ ∀ v ∈ elements, smallNumbers v = true := by
  induction elements with
  | nil => simp [smallElements]
  | cons v elements ih => simp [smallElements, ih]

variable {slots : List (Option Value)} {fields : List (List Char × Option Document)} {d d' : Document}
  {stored : List (Nat × Stored)} {ts ts' more' : List Token} {before after : List Present} {v : Value}
  {type : ElementaryType} {a a' : Token} {name : List Char} {p : Present}

theorem smallSlots_iff : smallSlots slots = true ↔ ∀ v, some v ∈ slots → smallNumbers v = true := by
  induction slots with
  | nil => simp [smallSlots]
  | cons slot slots ih =>
    cases slot with
    | none => simp [smallSlots, ih]
    | some w => rw [smallSlots, Bool.and_eq_true, ih, forall_some_mem_cons]

theorem digitsValue_toDigits (n : Nat) : digitsValue (Nat.toDigits 10 n) = n := Nat.ofDigitChars_ten_toDigits

theorem all_isDigit_toDigits (n : Nat) : (Nat.toDigits 10 n).all isDigit = true :=
  all_eq_true.mpr fun _ hc => isDigit_toDigits hc

theorem fieldAsInt_appendInt (x : Int) :
    fieldAsInt (appendInt x) = if ElementaryType.long.InRange x then some x else none := by
  cases x with
  | ofNat n =>
    have hsign : (Nat.toDigits 10 n).head? ≠ some '-' := by
      intro hhead
      have := isDigit_toDigits (mem_of_head? hhead)
      exact absurd this (by decide)
    rw [fieldAsInt, appendInt]
    simp only [hsign, if_false, digitsValue_toDigits, all_isDigit_toDigits,
      Nat.toDigits_ne_nil, ne_eq, not_false_eq_true, true_and]
    rfl
  | negSucc n =>
    have hvalue : -((n + 1 : Nat) : Int) = Int.negSucc n := rfl
    rw [fieldAsInt, appendInt]
    simp only [head?_cons, if_true, tail_cons, digitsValue_toDigits, all_isDigit_toDigits,
      Nat.toDigits_ne_nil, ne_eq, not_false_eq_true, true_and, hvalue]

/-! ### Storing the document of a value -/

section

variable (F : FloatOps) (S : Schema)

def storedValue (k i : Nat) (inVector : Bool) (s : Stored) : Option Value :=
  if inVector then elementValue F S k i s else fieldValue F S k i s

def Stores (k i : Nat) (inVector : Bool) (d : Document) (v : Value) : Prop :=
  ∃ s, store F S k i inVector d = some s ∧ storedValue F S k i inVector s = some v

end

variable {F : FloatOps} {S : Schema} {k i : Nat} {code : TypeCode} {b : Bool}

theorem storedValue_int (x : Int) : storedValue F S k i b (.int x) = intScalar F (fieldElementaryType S k i) x := by
  cases b <;> rfl

theorem storedValue_double (x : Int) :
    storedValue F S k i b (.double x) = doubleScalar F (fieldElementaryType S k i) x := by
  cases b <;> rfl

theorem storedValue_object (h : isOffsetType (fieldElementaryType S k i) = true) :
    storedValue F S k i b (.object v) = some v := by
  cases b with
  | false =>
    change fieldValue F S k i (.object v) = some v
    rw [fieldValue, h, Bool.or_true]
    rfl
  | true => exact if_pos h

theorem intScalar_of_inRange {x : Int} (htype : type ∉ [.utype, .float, .double, .bool]) (hscalar : type.IsScalar)
    (hx : type.InRange x) : intScalar F type x = some (.scalar type x) := by
  unfold ElementaryType.InRange at hx
  cases type with
  | utype | float | double | bool => exact absurd htype (by simp)
  | string | sequence => exact absurd hscalar id
  | _ =>
    simp only [ElementaryType.range] at hx
    simp only [intScalar]
    congr 2
    try unfold wrapSigned
    omega

theorem doubleScalar_eq_none (h : type ∉ [.utype, .float, .double, .bool])
    (x : Int) : doubleScalar F type x = none := by
  cases type with
  | float | double => exact absurd h (by simp)
  | _ => rfl

theorem inRange_long {x : Int} (htype : type ∉ [.utype, .float, .double, .bool]) (hscalar : type.IsScalar)
    (hx : type.InRange x) : ElementaryType.long.InRange x ↔ type ≠ .ulong ∨ x < 2 ^ 63 := by
  unfold ElementaryType.InRange at *
  cases type with
  | utype | float | double | bool => exact absurd htype (by simp)
  | string | sequence => exact absurd hscalar id
  | ulong =>
    simp only [ElementaryType.range] at *
    simp only [ne_eq, not_true_eq_false, false_or]
    omega
  | _ =>
    simp only [ElementaryType.range] at *
    omega

theorem stores_scalar {x : Int} (hcode : S.typeCode k i = some code) (hprintable : PrintableCode S code)
    (hscalar : code.baseType.IsScalar) (hx : code.baseType.InRange x) (hb : fieldIsRepeating S k i = b) :
    Stores F S k i b (.literal (scalarLiteral code.baseType x)) (.scalar code.baseType x)
      ↔ smallNumbers (.scalar code.baseType x) = true := by
  have hstore : ∀ value, store F S k i b (.literal value) = literalStored F value := by
    intro value
    rw [store, if_pos hb]
  have hbase := hprintable.baseType
  have htype := fieldElementaryType_eq hcode
  rw [smallNumbers, decide_eq_true_eq, Stores, hstore]
  by_cases hbool : code.baseType = .bool
  · have hx' : x = 0 ∨ x = 1 := by
      rw [hbool] at hx
      unfold ElementaryType.InRange at hx
      simp only [ElementaryType.range] at hx
      omega
    rw [hbool] at htype ⊢
    obtain hx | hx := hx'
    · subst hx
      refine iff_of_true ⟨.int 0, rfl, ?_⟩ (.inl (by simp))
      rw [storedValue_int, htype]
      rfl
    · subst hx
      refine iff_of_true ⟨.int 1, rfl, ?_⟩ (.inl (by simp))
      rw [storedValue_int, htype]
      rfl
  · have hint : code.baseType ∉ [.utype, .float, .double, .bool] := by
      simp only [mem_cons, not_mem_nil, or_false, not_or] at hbase ⊢
      exact ⟨hbase.1, hbase.2.1, hbase.2.2, hbool⟩
    have hliteral : scalarLiteral code.baseType x = .number (appendInt x) := by
      unfold scalarLiteral
      split
      · next h => exact absurd h hbool
      · rfl
    rw [hliteral, literalStored, fieldAsInt_appendInt, ← inRange_long hint hscalar hx]
    by_cases hlong : ElementaryType.long.InRange x
    · rw [if_pos hlong]
      refine iff_of_true ⟨.int x, rfl, ?_⟩ hlong
      rw [storedValue_int, htype, intScalar_of_inRange hint hscalar hx]
    · rw [if_neg hlong]
      refine iff_of_false ?_ hlong
      intro h
      obtain ⟨s, hs, hvalue⟩ := h
      obtain ⟨y, _, rfl⟩ := map_eq_some_iff.mp hs
      rw [storedValue_double, htype, doubleScalar_eq_none hint] at hvalue
      cases hvalue

theorem stores_string {text : List Char} (hcode : S.typeCode k i = some code)
    (hbase : code.baseType = .string) (hb : fieldIsRepeating S k i = b) :
    Stores F S k i b (.string text) (.string text) := by
  have htype := fieldElementaryType_eq hcode
  rw [hbase] at htype
  refine ⟨.object (.string text), ?_, storedValue_object (by rw [htype]; rfl)⟩
  rw [store, if_pos hb, stringStored, htype]
  rfl

theorem storeItems_iff {items : List Document} {values : List Value} :
    (∃ stored, storeItems F S k i items = some stored ∧ stored.mapM (elementValue F S k i) = some values)
      ↔ Forall₂ (Stores F S k i true) items values := by
  induction items generalizing values with
  | nil =>
    rw [storeItems]
    simp [eq_comm]
  | cons d items ih =>
    rw [forall₂_cons_left_iff]
    simp only [← ih]
    apply Iff.intro
    · intro h
      obtain ⟨stored, hstored, hvalues⟩ := h
      obtain ⟨s, hs, hstored⟩ := bind_eq_some_iff.mp hstored
      obtain ⟨rest, hrest, hstored⟩ := bind_eq_some_iff.mp hstored
      cases hstored
      rw [mapM_cons] at hvalues
      obtain ⟨w, hw, hvalues⟩ := bind_eq_some_iff.mp hvalues
      obtain ⟨ws, hws, hvalues⟩ := bind_eq_some_iff.mp hvalues
      exact ⟨w, ws, ⟨s, hs, hw⟩, ⟨rest, hrest, hws⟩, (some.inj hvalues).symm⟩
    · intro h
      obtain ⟨w, ws, ⟨s, hs, hw⟩, ⟨rest, hrest, hws⟩, rfl⟩ := h
      refine ⟨s :: rest, ?_, ?_⟩
      · rw [storeItems, hs, hrest]
        rfl
      · have hw : elementValue F S k i s = some w := hw
        rw [mapM_cons, hw, hws]
        rfl

theorem stores_vector {elements : List Value} {d : Value → Document} (hrepeating : fieldIsRepeating S k i = true) :
    Stores F S k i false (.array (elements.map d)) (.vector elements)
      ↔ ∀ v ∈ elements, Stores F S k i true (d v) v := by
  have hitems : Forall₂ (Stores F S k i true) (elements.map d) elements ↔ ∀ v ∈ elements, _ :=
    forall₂_map_left_iff.trans forall₂_same
  rw [← hitems, ← storeItems_iff, Stores]
  have hvalue : ∀ values, storedValue F S k i false (.object (.vector values)) = some (.vector values) := by
    intro values
    change fieldValue F S k i (.object (.vector values)) = _
    rw [fieldValue, hrepeating, Bool.true_or]
    rfl
  apply Iff.intro
  · intro h
    obtain ⟨s, hs, hv⟩ := h
    obtain ⟨stored, hstored, hs⟩ := bind_eq_some_iff.mp hs
    obtain ⟨values, hvalues, hs⟩ := bind_eq_some_iff.mp hs
    cases hs
    rw [hvalue] at hv
    cases hv
    exact ⟨stored, hstored, hvalues⟩
  · intro h
    obtain ⟨stored, hstored, hvalues⟩ := h
    refine ⟨.object (.vector elements), ?_, hvalue elements⟩
    rw [store, hstored]
    simp [Bool.false_eq_true, bind_eq_bind, bind_some, hvalues]

/-! ### Storing the fields of a table -/

theorem storeFields_cons_eq_some (h : storeFields F S k ((name, some d) :: fields) = some stored) :
    ∃ i s rest, fieldIndex S k (cStr name) = some i ∧ store F S k i false d = some s ∧
      storeFields F S k fields = some rest ∧ stored = (i, s) :: rest := by
  obtain ⟨i, hi, h⟩ := bind_eq_some_iff.mp h
  obtain ⟨s, hs, h⟩ := bind_eq_some_iff.mp h
  obtain ⟨rest, hrest, h⟩ := bind_eq_some_iff.mp h
  exact ⟨i, s, rest, hi, hs, hrest, (some.inj h).symm⟩

section

variable (S k)

def documentField (p : Present) : List Char × Option Document :=
  (fieldName S k p.index, some (valueDocument S p.code p.value))

def Found (p : Present) : Prop := fieldIndex S k (cStr (fieldName S k p.index)) = some p.index

end

theorem firstOf_storeFields {after : List (List Char × Option Document)} (hbefore : ∀ p ∈ before, Found S k p)
    (hname : fieldIndex S k (cStr name) = some i) (hi : i ∉ before.map Present.index)
    (h : storeFields F S k (before.map (documentField S k) ++ (name, some d) :: after) = some stored) :
    ∃ s, store F S k i false d = some s ∧ firstOf i stored = some s := by
  induction before generalizing stored with
  | nil =>
    obtain ⟨j, s, rest, hj, hs, _, rfl⟩ := storeFields_cons_eq_some h
    rw [hname] at hj
    cases hj
    exact ⟨s, hs, lookup_cons_self⟩
  | cons p before ih =>
    obtain ⟨j, s, rest, hj, _, hrest, rfl⟩ := storeFields_cons_eq_some h
    cases hj.symm.trans (hbefore p mem_cons_self)
    rw [map_cons, mem_cons, not_or] at hi
    obtain ⟨s', hs', hfirst⟩ := ih (fun p hp => hbefore p (mem_cons_of_mem _ hp)) hi.2 hrest
    refine ⟨s', hs', ?_⟩
    rw [firstOf, lookup_cons, beq_false_of_ne hi.1]
    exact hfirst

theorem firstOf_storeFields_eq_none {fields : List Present}
    (hfields : ∀ p ∈ fields, Found S k p) (hi : i ∉ fields.map Present.index)
    (h : storeFields F S k (fields.map (documentField S k)) = some stored) : firstOf i stored = none := by
  induction fields generalizing stored with
  | nil =>
    cases h
    rfl
  | cons p fields ih =>
    obtain ⟨j, s, rest, hj, _, hrest, rfl⟩ := storeFields_cons_eq_some h
    cases hj.symm.trans (hfields p mem_cons_self)
    rw [map_cons, mem_cons, not_or] at hi
    rw [firstOf, lookup_cons, beq_false_of_ne hi.1]
    exact ih (fun p hp => hfields p (mem_cons_of_mem _ hp)) hi.2 hrest

theorem exists_storeFields {fields : List Present} (hfields : ∀ p ∈ fields, Found S k p)
    (h : ∀ p ∈ fields, ∃ s, store F S k p.index false (valueDocument S p.code p.value) = some s) :
    ∃ stored, storeFields F S k (fields.map (documentField S k)) = some stored := by
  induction fields with
  | nil => exact ⟨[], rfl⟩
  | cons p fields ih =>
    obtain ⟨s, hs⟩ := h p mem_cons_self
    obtain ⟨rest, hrest⟩ := ih (fun p hp => hfields p (mem_cons_of_mem _ hp))
      fun p hp => h p (mem_cons_of_mem _ hp)
    have hp : fieldIndex S k (cStr (fieldName S k p.index)) = some p.index := hfields p mem_cons_self
    refine ⟨(p.index, s) :: rest, ?_⟩
    rw [map_cons, documentField, storeFields, hp]
    simp [bind_eq_bind, bind_some, hs, hrest]

theorem found_presentFields (hS : PrintableSchema S) : ∀ p ∈ presentFields S k slots, Found S k p :=
  fun _ hp => hS.fieldIndex (mem_presentFields.mp hp).1

theorem fieldValue_of_storedTable {s : Stored} (h : storedTable F S k stored = .table slots)
    (hv : slots[i]?.join = some v) (hs : firstOf i stored = some s) : fieldValue F S k i s = some v := by
  have hslot := join_eq_some_iff.mp hv
  obtain rfl := Value.table.inj h
  rw [getElem?_map] at hslot
  obtain ⟨j, hj, hslot⟩ := map_eq_some_iff.mp hslot
  obtain ⟨_, rfl⟩ := List.getElem?_eq_some_iff.mp hj
  rw [getElem_range, hs] at hslot
  exact hslot

theorem firstOf_of_split (hS : PrintableSchema S) {rest : List (List Char × Option Document)}
    (hsplit : presentFields S k slots = before ++ p :: after) (hstored : storeFields F S k
      (before.map (documentField S k) ++ (fieldName S k p.index, some d) :: rest) = some stored) :
    ∃ s, store F S k p.index false d = some s ∧ firstOf p.index stored = some s := by
  have hfound : ∀ q ∈ before ++ p :: after, Found S k q := by
    rw [← hsplit]
    exact found_presentFields hS
  have hnodup := nodup_index_presentFields (S := S) k slots
  rw [hsplit, map_append, map_cons, nodup_append] at hnodup
  have hnot : p.index ∉ before.map Present.index := fun h => hnodup.2.2 _ h _ mem_cons_self rfl
  exact firstOf_storeFields (fun q hq => hfound q (mem_append_left _ hq))
    (hfound p (mem_append_right _ mem_cons_self)) hnot hstored

theorem stores_of_split (hS : PrintableSchema S) {rest : List (List Char × Option Document)}
    (hsplit : presentFields S k slots = before ++ p :: after) (hstored : storeFields F S k
      (before.map (documentField S k) ++ (fieldName S k p.index, some d) :: rest) = some stored)
    (htable : storedTable F S k stored = .table slots) : Stores F S k p.index false d p.value := by
  have hmem : p ∈ presentFields S k slots := by
    rw [hsplit]
    exact mem_append_right _ mem_cons_self
  obtain ⟨s, hs, hfirst⟩ := firstOf_of_split hS hsplit hstored
  exact ⟨s, hs, fieldValue_of_storedTable htable (mem_presentFields.mp hmem).2 hfirst⟩

theorem tableFields_eq_split (hsplit : presentFields S k slots = before ++ p :: after) :
    tableFields S k slots = before.map (documentField S k)
      ++ (fieldName S k p.index, some (valueDocument S p.code p.value)) :: after.map (documentField S k) := by
  rw [tableFields, hsplit, map_append, map_cons]
  rfl

theorem storeFields_tableFields (hS : PrintableSchema S) (hlength : slots.length = (S.typeTable k).numElems) :
    (∃ stored, storeFields F S k (tableFields S k slots) = some stored ∧ storedTable F S k stored = .table slots)
      ↔ ∀ p ∈ presentFields S k slots, Stores F S k p.index false (valueDocument S p.code p.value) p.value := by
  apply Iff.intro
  · intro h p hp
    obtain ⟨stored, hstored, htable⟩ := h
    obtain ⟨before, after, hsplit⟩ := append_of_mem hp
    rw [tableFields_eq_split hsplit] at hstored
    exact stores_of_split hS hsplit hstored htable
  · intro h
    obtain ⟨stored, hstored⟩ := exists_storeFields (found_presentFields hS)
      fun p hp => (h p hp).imp fun _ hs => hs.1
    refine ⟨stored, hstored, ?_⟩
    rw [storedTable]
    congr 1
    apply ext_getElem?
    intro i
    by_cases hi : i < (S.typeTable k).numElems
    · have hslot : slots[i]? = some slots[i] := getElem?_eq_getElem (hlength ▸ hi)
      rw [getElem?_map, getElem?_range hi, hslot, map_some]
      congr 1
      cases hv : slots[i] with
      | none =>
        have hnot : i ∉ (presentFields S k slots).map Present.index := by
          intro hmem
          obtain ⟨p, hp, rfl⟩ := mem_map.mp hmem
          have := (mem_presentFields.mp hp).2
          rw [hslot, hv] at this
          cases this
        rw [firstOf_storeFields_eq_none (found_presentFields hS) hnot hstored]
        rfl
      | some v =>
        have hcode : S.typeCode k i = some (S.typeTable k).typeCodes[i] := getElem?_eq_getElem hi
        have hp : ⟨i, _, v⟩ ∈ presentFields S k slots := mem_presentFields.mpr ⟨hcode, by rw [hslot, hv]; rfl⟩
        obtain ⟨before, after, hsplit⟩ := append_of_mem hp
        obtain ⟨s, hs, hvalue⟩ := h _ hp
        have hstored : storeFields F S k (tableFields S k slots) = some stored := hstored
        rw [tableFields_eq_split hsplit] at hstored
        obtain ⟨s', hs', hfirst⟩ := firstOf_of_split hS hsplit hstored
        rw [hs] at hs'
        cases hs'
        rw [hfirst]
        exact hvalue
    · rw [getElem?_eq_none (by simpa using Nat.le_of_not_lt hi),
        getElem?_eq_none (by rw [hlength]; exact Nat.le_of_not_lt hi)]

/-! ### The document of a table is stored as the table -/

theorem store_object (hsequence : fieldIsSequence S k i = true) :
    store F S k i b (.object fields) = (storeFields F S (fieldType S k i) fields).map fun stored =>
      .object (storedTable F S (fieldType S k i) stored) := by
  rw [store, if_pos hsequence]
  cases storeFields F S (fieldType S k i) fields <;> rfl

theorem stores_object (hsequence : fieldIsSequence S k i = true) : Stores F S k i b (.object fields) v ↔
      ∃ stored, storeFields F S (fieldType S k i) fields = some stored ∧
        storedTable F S (fieldType S k i) stored = v := by
  have hoffset := isOffsetType_of_sequence hsequence
  rw [Stores, store_object hsequence]
  apply Iff.intro
  · intro h
    obtain ⟨s, hs, hv⟩ := h
    obtain ⟨stored, hstored, rfl⟩ := map_eq_some_iff.mp hs
    rw [storedValue_object hoffset] at hv
    exact ⟨stored, hstored, some.inj hv⟩
  · intro h
    obtain ⟨stored, hstored, rfl⟩ := h
    exact ⟨_, by rw [hstored]; rfl, storedValue_object hoffset⟩

section

variable (F S)

structure StoresValue (v : Value) : Prop where
  field : ∀ {k i : Nat} {code : TypeCode}, S.typeCode k i = some code → v.HasKind S code.kind →
    (Stores F S k i false (valueDocument S code v) v ↔ smallNumbers v = true)
  element : ∀ {k i : Nat} {code : TypeCode}, S.typeCode k i = some code →
    fieldIsRepeating S k i = true → v.HasKind S code.elementKind →
    (Stores F S k i true (valueDocument S code v) v ↔ smallNumbers v = true)

end

theorem StoresValue.of_element (hvector : ∀ elements, v ≠ .vector elements)
    (h : ∀ {k i : Nat} {code : TypeCode} {b : Bool}, S.typeCode k i = some code →
      fieldIsRepeating S k i = b → v.HasKind S code.elementKind →
      (Stores F S k i b (valueDocument S code v) v ↔ smallNumbers v = true)) : StoresValue F S v := by
  constructor
  · intro k i code hcode hkind
    cases hrepeating : fieldIsRepeating S k i with
    | false => exact h hcode hrepeating (kind_of_not_repeating hcode hrepeating ▸ hkind)
    | true =>
      rw [kind_of_repeating hcode hrepeating] at hkind
      cases hkind with
      | vector _ => exact absurd rfl (hvector _)
  · intro k i code hcode hrepeating hkind
    exact h hcode hrepeating hkind

theorem storeFields_iff_smallSlots (hS : PrintableSchema S)
    (h : (Value.table slots).HasKind S (.table k)) (ih : ∀ v, some v ∈ slots → StoresValue F S v) :
    (∃ stored, storeFields F S k (tableFields S k slots) = some stored ∧
        storedTable F S k stored = .table slots) ↔ smallSlots slots = true := by
  have hlength : slots.length = (S.typeTable k).numElems := h.length_slots
  rw [storeFields_tableFields hS hlength, smallSlots_iff, forall_slots_iff_presentFields hlength]
  apply forall₂_congr
  intro p hp
  obtain ⟨hcode, hvalue⟩ := mem_presentFields.mp hp
  have hslot := join_eq_some_iff.mp hvalue
  apply (ih p.value (mem_of_getElem? hslot)).field hcode
  cases h with
  | table _ hfields => exact hfields p.index p.value p.code hslot hcode

theorem storesValue (hS : PrintableSchema S) (v : Value) : StoresValue F S v := by
  induction v using Value.induct with
  | scalar type x =>
    apply StoresValue.of_element (by simp)
    intro k i code b hcode hb hkind
    generalize helement : code.elementKind = kind at hkind
    cases hkind with
    | scalar hx =>
      obtain ⟨rfl, hstring, hsequence⟩ := elementKind_eq_scalar helement
      have hprintable := hS.printableCode hcode
      exact stores_scalar hcode hprintable (hprintable.isScalar hstring hsequence) hx hb
  | string data =>
    apply StoresValue.of_element (by simp)
    intro k i code b hcode hb hkind
    generalize helement : code.elementKind = kind at hkind
    cases hkind with
    | string => exact iff_of_true (stores_string hcode (elementKind_eq_string helement) hb) rfl
  | vector elements ih =>
    constructor
    · intro k i code hcode hkind
      cases hrepeating : fieldIsRepeating S k i with
      | false =>
        rw [kind_of_not_repeating hcode hrepeating] at hkind
        generalize helement : code.elementKind = kind at hkind
        cases hkind with
        | vector _ => exact absurd helement (elementKind_ne_vector code _)
      | true =>
        rw [kind_of_repeating hcode hrepeating] at hkind
        cases hkind with
        | vector helements =>
          rw [valueDocument, elementDocuments_eq, stores_vector hrepeating, smallNumbers, smallElements_iff]
          apply forall₂_congr
          intro v hv
          exact (ih v hv).element hcode hrepeating (helements v hv)
    · intro k i code hcode hrepeating hkind
      generalize helement : code.elementKind = kind at hkind
      cases hkind with
      | vector _ => exact absurd helement (elementKind_ne_vector code _)
  | table slots ih =>
    apply StoresValue.of_element (by simp)
    intro k i code b hcode hb hkind
    generalize helement : code.elementKind = kind at hkind
    cases hkind with
    | table hlength hfields =>
      obtain ⟨hbase, rfl⟩ := elementKind_eq_table helement
      have hsequence : fieldIsSequence S k i = true := by
        rw [fieldIsSequence, fieldElementaryType_eq hcode, hbase]
        rfl
      rw [valueDocument_table, stores_object hsequence, fieldType_eq hcode, smallNumbers]
      exact storeFields_iff_smallSlots hS (.table hlength hfields) ih

/-! ### Documents that differ in a string -/

def AgreeUpTo {α : Type} (R : α → α → Prop) (l l' : List α) : Prop :=
  ∃ before a a' after after', l = before ++ a :: after ∧ l' = before ++ a' :: after' ∧ R a a'

theorem AgreeUpTo.here {α : Type} {R : α → α → Prop} {a a' : α} (h : R a a') (l l' : List α) :
    AgreeUpTo R (a :: l) (a' :: l') :=
  ⟨[], a, a', l, l', rfl, rfl, h⟩

theorem AgreeUpTo.cons {α : Type} {R : α → α → Prop} {l l' : List α} (h : AgreeUpTo R l l') (b : α) :
    AgreeUpTo R (b :: l) (b :: l') := by
  obtain ⟨before, a, a', after, after', rfl, rfl, ha⟩ := h
  exact ⟨b :: before, a, a', after, after', rfl, rfl, ha⟩

inductive DocumentsDiffer : Document → Document → Prop
  | string {s s' : List Char} : s ≠ s' → DocumentsDiffer (.string s) (.string s')
  | item {before after after' : List Document} {d d' : Document} : DocumentsDiffer d d' →
      DocumentsDiffer (.array (before ++ d :: after)) (.array (before ++ d' :: after'))
  | field {before after after' : List (List Char × Option Document)} {name : List Char}
      {d d' : Document} : DocumentsDiffer d d' →
      DocumentsDiffer (.object (before ++ (name, some d) :: after))
        (.object (before ++ (name, some d') :: after'))

section

variable (h : Differs (a :: ts) (a' :: ts'))

include h

theorem Differs.cons_inv : (a = a' ∧ Differs ts ts') ∨ ∃ s s', s ≠ s' ∧ a = .string s ∧ a' = .string s' := by
  obtain ⟨start, s, s', rest, rest', hne, hts, hts'⟩ := h
  cases start with
  | nil =>
    cases hts
    cases hts'
    exact .inr ⟨s, s', hne, rfl, rfl⟩
  | cons b start =>
    cases hts
    cases hts'
    exact .inl ⟨rfl, start, s, s', rest, rest', hne, rfl, rfl⟩

theorem Differs.inj (ha : ∀ s, a ≠ .string s) : a = a' ∧ Differs ts ts' := by
  obtain heq | hstring := h.cons_inv
  · exact heq
  · obtain ⟨s, _, _, hs, _⟩ := hstring
    exact absurd hs (ha s)

def Token.StartsValue : Token → Prop
  | .startObject | .startArray | .number _ | .string _ | .true | .false => True
  | _ => False

theorem Differs.startsValue : a.StartsValue ↔ a'.StartsValue := by
  obtain heq | hstring := h.cons_inv
  · rw [heq.1]
  · obtain ⟨s, s', _, rfl, rfl⟩ := hstring
    exact Iff.rfl

end

theorem tokens_cons (d : Document) : ∃ a ts, d.tokens = a :: ts ∧ a.StartsValue := by
  cases d with
  | literal value => exact ⟨_, _, rfl, by cases value <;> trivial⟩
  | string text => exact ⟨_, _, rfl, trivial⟩
  | array items => exact ⟨.startArray, _, by rw [Document.tokens], trivial⟩
  | object fields => exact ⟨.startObject, _, by rw [Document.tokens], trivial⟩

theorem eq_literal_of_tokens {value : Literal} (h : d.tokens = value.token :: ts) : d = .literal value := by
  cases d with
  | literal value' =>
    rw [Document.tokens] at h
    cases value <;> cases value' <;> simp_all [Literal.token]
  | _ => cases value <;> exact absurd h (by simp [Document.tokens, Literal.token])

theorem eq_string_of_tokens {s : List Char} (h : d.tokens = .string s :: ts) : d = .string s := by
  cases d with
  | literal value => cases value <;> exact absurd h (by simp [Document.tokens, Literal.token])
  | string text =>
    cases h
    rfl
  | _ => exact absurd h (by simp [Document.tokens])

theorem eq_array_of_tokens (h : d.tokens = .startArray :: ts) : ∃ items, d = .array items := by
  cases d with
  | literal value => cases value <;> exact absurd h (by simp [Document.tokens, Literal.token])
  | array items => exact ⟨items, rfl⟩
  | _ => exact absurd h (by simp [Document.tokens])

theorem eq_object_of_tokens (h : d.tokens = .startObject :: ts) : ∃ fields, d = .object fields := by
  cases d with
  | literal value => cases value <;> exact absurd h (by simp [Document.tokens, Literal.token])
  | object fields => exact ⟨fields, rfl⟩
  | _ => exact absurd h (by simp [Document.tokens])

theorem fieldsTokens_cons (fields : List (List Char × Option Document)) (more : List Token) :
    ∃ a ts, fieldsTokens fields ++ .endObject :: more = a :: ts ∧ ¬ a.StartsValue := by
  cases fields with
  | nil => exact ⟨_, _, rfl, id⟩
  | cons field fields =>
    obtain ⟨name, value⟩ := field
    cases value with
    | none | some => exact ⟨.field name, _, by rw [fieldsTokens]; rfl, id⟩

def Splits (d : Document) : Prop :=
  ∀ (d' : Document) {more more' : List Token}, Differs (d.tokens ++ more) (d'.tokens ++ more') →
    DocumentsDiffer d d' ∨ (d = d' ∧ Differs more more')

theorem Differs.cons_eq (h : Differs (a :: ts) (d'.tokens ++ more')) (ha : ∀ s, a ≠ .string s) :
    ∃ ts', d'.tokens = a :: ts' ∧ Differs ts (ts' ++ more') := by
  obtain ⟨a', ts', hd', _⟩ := tokens_cons d'
  rw [hd', cons_append] at h
  obtain ⟨rfl, hts⟩ := h.inj ha
  exact ⟨ts', hd', hts⟩

theorem splits_literal (value : Literal) : Splits (.literal value) := by
  intro d' more more' h
  obtain ⟨ts', hd', hmore⟩ := h.cons_eq (by cases value <;> simp [Literal.token])
  obtain rfl := eq_literal_of_tokens hd'
  cases hd'
  exact .inr ⟨rfl, hmore⟩

theorem splits_string (s : List Char) : Splits (.string s) := by
  intro d' more more' h
  obtain ⟨a', ts', hd', _⟩ := tokens_cons d'
  rw [hd', Document.tokens, singleton_append, cons_append] at h
  obtain heq | hstring := h.cons_inv
  · obtain ⟨rfl, hmore⟩ := heq
    obtain rfl := eq_string_of_tokens hd'
    cases hd'
    exact .inr ⟨rfl, hmore⟩
  · obtain ⟨t, t', hne, ht, rfl⟩ := hstring
    cases ht
    obtain rfl := eq_string_of_tokens hd'
    exact .inl (.string hne)

theorem splits_items {items : List Document} (h : ∀ d ∈ items, Splits d) (items' : List Document) {more : List Token}
    (hdiffers : Differs (itemsTokens items ++ .endArray :: more) (itemsTokens items' ++ .endArray :: more')) :
    AgreeUpTo DocumentsDiffer items items' ∨ (items = items' ∧ Differs more more') := by
  induction items generalizing items' with
  | nil =>
    cases items' with
    | nil => exact .inr ⟨rfl, (hdiffers.inj (by simp)).2⟩
    | cons d' items' =>
      obtain ⟨a, ts, hd', ha⟩ := tokens_cons d'
      rw [itemsTokens, itemsTokens, hd'] at hdiffers
      exact absurd (hdiffers.startsValue.mpr ha) id
  | cons d items ih =>
    cases items' with
    | nil =>
      obtain ⟨a, ts, hd, ha⟩ := tokens_cons d
      rw [itemsTokens, itemsTokens, hd] at hdiffers
      exact absurd (hdiffers.startsValue.mp ha) id
    | cons d' items' =>
      rw [itemsTokens, itemsTokens, append_assoc, append_assoc] at hdiffers
      obtain hd | hd := h d mem_cons_self d' hdiffers
      · exact .inl (.here hd items items')
      · obtain ⟨rfl, hrest⟩ := hd
        obtain hsplit | heq := ih (fun d hd => h d (mem_cons_of_mem _ hd)) items' hrest
        · exact .inl (hsplit.cons d)
        · exact .inr ⟨by rw [heq.1], heq.2⟩

theorem splits_array {items : List Document} (h : ∀ d ∈ items, Splits d) : Splits (.array items) := by
  intro d' more more' hdiffers
  rw [Document.tokens, cons_append, append_assoc] at hdiffers
  obtain ⟨ts', hd', hrest⟩ := hdiffers.cons_eq (by simp)
  obtain ⟨items', rfl⟩ := eq_array_of_tokens hd'
  cases hd'
  rw [append_assoc] at hrest
  obtain hsplit | heq := splits_items h items' hrest
  · obtain ⟨before, d, d', after, after', rfl, rfl, hd⟩ := hsplit
    exact .inl (.item hd)
  · exact .inr ⟨by rw [heq.1], heq.2⟩

theorem fieldsTokens_cons_eq (field : List Char × Option Document) (fields : List (List Char × Option Document)) :
    fieldsTokens (field :: fields)
      = .field field.1 :: ((field.2.map Document.tokens).getD [] ++ fieldsTokens fields) := by
  obtain ⟨name, value⟩ := field
  cases value <;> rw [fieldsTokens] <;> rfl

def FieldsDiffer (f f' : List Char × Option Document) : Prop :=
  ∃ name d d', f = (name, some d) ∧ f' = (name, some d') ∧ DocumentsDiffer d d'

theorem splits_fields (h : ∀ name d, (name, some d) ∈ fields → Splits d)
    (fields' : List (List Char × Option Document)) {more : List Token}
    (hdiffers : Differs (fieldsTokens fields ++ .endObject :: more) (fieldsTokens fields' ++ .endObject :: more')) :
    AgreeUpTo FieldsDiffer fields fields' ∨ (fields = fields' ∧ Differs more more') := by
  induction fields generalizing fields' with
  | nil =>
    cases fields' with
    | nil => exact .inr ⟨rfl, (hdiffers.inj (by simp)).2⟩
    | cons field' fields' =>
      rw [fieldsTokens, fieldsTokens_cons_eq] at hdiffers
      exact absurd (hdiffers.inj (by simp)).1 (by simp)
  | cons field fields ih =>
    rw [fieldsTokens_cons_eq] at hdiffers
    cases fields' with
    | nil => exact absurd (hdiffers.inj (by simp)).1 (by simp)
    | cons field' fields' =>
      obtain ⟨name, value⟩ := field
      obtain ⟨name', value'⟩ := field'
      rw [fieldsTokens_cons_eq, cons_append, cons_append, append_assoc, append_assoc] at hdiffers
      obtain ⟨hname, hvalues⟩ := hdiffers.inj (by simp)
      obtain rfl := Token.field.inj hname
      have hnext : ∀ (d : Option Document),
          Differs (fieldsTokens fields ++ .endObject :: more)
            (fieldsTokens fields' ++ .endObject :: more') →
          AgreeUpTo FieldsDiffer ((name, d) :: fields) ((name, d) :: fields') ∨
            ((name, d) :: fields = (name, d) :: fields' ∧ Differs more more') := by
        intro d hrest
        obtain hsplit | heq := ih (fun name d hd => h name d (mem_cons_of_mem _ hd)) fields' hrest
        · exact .inl (hsplit.cons _)
        · exact .inr ⟨by rw [heq.1], heq.2⟩
      cases value with
      | none =>
        cases value' with
        | none => exact hnext none hvalues
        | some d' =>
          obtain ⟨a, ts, hfields, ha⟩ := fieldsTokens_cons fields more
          obtain ⟨a', ts', hd', ha'⟩ := tokens_cons d'
          simp only [map_none, map_some, getD_none, getD_some, hd', nil_append, cons_append, hfields] at hvalues
          exact absurd (hvalues.startsValue.mpr ha') ha
      | some d =>
        cases value' with
        | none =>
          obtain ⟨a, ts, hfields, ha⟩ := fieldsTokens_cons fields' more'
          obtain ⟨a', ts', hd, ha'⟩ := tokens_cons d
          simp only [map_none, map_some, getD_none, getD_some, hd, nil_append, cons_append, hfields] at hvalues
          exact absurd (hvalues.startsValue.mp ha') ha
        | some d' =>
          obtain hd | hd := h name d mem_cons_self d' hvalues
          · exact .inl (.here ⟨name, d, d', rfl, rfl, hd⟩ fields fields')
          · obtain ⟨rfl, hrest⟩ := hd
            exact hnext (some d) hrest

theorem splits_object (h : ∀ name d, (name, some d) ∈ fields → Splits d) : Splits (.object fields) := by
  intro d' more more' hdiffers
  rw [Document.tokens, cons_append, append_assoc] at hdiffers
  obtain ⟨ts', hd', hrest⟩ := hdiffers.cons_eq (by simp)
  obtain ⟨fields', rfl⟩ := eq_object_of_tokens hd'
  cases hd'
  rw [append_assoc] at hrest
  obtain hsplit | heq := splits_fields h fields' hrest
  · obtain ⟨before, _, _, after, after', rfl, rfl, name, d, d', rfl, rfl, hd⟩ := hsplit
    exact .inl (.field hd)
  · exact .inr ⟨by rw [heq.1], heq.2⟩

theorem splits (d : Document) : Splits d := by
  induction d using Document.induct with
  | literal value => exact splits_literal value
  | string text => exact splits_string text
  | array items ih => exact splits_array ih
  | object fields ih => exact splits_object ih

theorem documentsDiffer_of_tokens (h : Differs d.tokens d'.tokens) : DocumentsDiffer d d' := by
  have hdiffers : Differs (d.tokens ++ []) (d'.tokens ++ []) := by simpa using h
  obtain hd | heq := splits d d' hdiffers
  · exact hd
  · obtain ⟨start, s, _, rest, _, _, hnil, _⟩ := heq.2
    exact absurd hnil (by simp)

/-! ### A document that differs is stored as something else -/

theorem storedValue_ne_string {s : Stored} (h : s.IsNumber) (text : List Char) :
    storedValue F S k i b s ≠ some (.string text) := by
  intro hvalue
  have hkind : (Value.string text).HasKind S (.scalar (fieldElementaryType S k i)) := by
    cases s with
    | int x =>
      rw [storedValue_int] at hvalue
      exact (hasKind_intScalar hvalue).2
    | double x =>
      rw [storedValue_double] at hvalue
      exact (hasKind_doubleScalar h hvalue).2
    | object v => exact absurd h id
  cases hkind

theorem storedValue_object_eq {w : Value} (h : storedValue F S k i b (.object v) = some w) : v = w := by
  cases b with
  | false =>
    change fieldValue F S k i (.object v) = some w at h
    rw [fieldValue] at h
    split at h
    · exact some.inj h
    · cases h
  | true =>
    change elementValue F S k i (.object v) = some w at h
    rw [elementValue] at h
    split at h
    · exact some.inj h
    · cases h

theorem exists_split_of_tableFields {before after : List (List Char × Option Document)}
    (h : tableFields S k slots = before ++ (name, some d) :: after) :
    ∃ ps p ps', presentFields S k slots = ps ++ p :: ps' ∧ before = ps.map (documentField S k) ∧
      name = fieldName S k p.index ∧ d = valueDocument S p.code p.value := by
  obtain ⟨ps, l, hsplit, hbefore, hl⟩ := map_eq_append_iff.mp h
  obtain ⟨p, ps', rfl, hp, _⟩ := map_eq_cons_iff.mp hl
  cases hp
  exact ⟨ps, p, ps', hsplit, hbefore.symm, rfl, rfl⟩

theorem not_stores_of_differ (hS : PrintableSchema S) (h : DocumentsDiffer d d')
    {k i : Nat} {code : TypeCode} {b : Bool} (hcode : S.typeCode k i = some code)
    (hd : valueDocument S code v = d) : ¬ Stores F S k i b d' v := by
  induction h generalizing k i code b v with
  | @string s s' hne =>
    intro hstores
    obtain ⟨e, he, hvalue⟩ := hstores
    obtain rfl : v = .string s := by
      cases v with
      | string data =>
        rw [Document.string.inj hd]
      | _ => exact absurd hd (by simp [valueDocument])
    rw [store] at he
    split at he
    · obtain hnumber | hstring := stringStored_cases he
      · exact storedValue_ne_string hnumber.1 s hvalue
      · subst hstring
        exact hne (Value.string.inj (storedValue_object_eq hvalue)).symm
    · cases he
  | @item before after after' d d' _ ih =>
    intro hstores
    obtain ⟨e, he, hvalue⟩ := hstores
    cases v with
    | vector elements =>
      rw [valueDocument, elementDocuments_eq] at hd
      obtain ⟨values, l, rfl, rfl, hl⟩ := map_eq_append_iff.mp (Document.array.inj hd)
      obtain ⟨w, values', rfl, hw, _⟩ := map_eq_cons_iff.mp hl
      rw [store] at he
      split at he
      · cases he
      · obtain ⟨stored, hstored, he⟩ := bind_eq_some_iff.mp he
        obtain ⟨us, hus, he⟩ := bind_eq_some_iff.mp he
        cases he
        obtain rfl := Value.vector.inj (storedValue_object_eq hvalue)
        have hitems := forall₂_drop values.length (storeItems_iff.mp ⟨stored, hstored, hus⟩)
        rw [drop_left' (by simp), drop_left] at hitems
        exact ih hcode hw (forall₂_cons.mp hitems).1
    | _ => exact absurd hd (by simp [valueDocument])
  | @field before after after' name d d' _ ih =>
    intro hstores
    cases v with
    | table slots =>
      rw [valueDocument_table] at hd
      obtain ⟨ps, p, ps', hsplit, rfl, rfl, rfl⟩ := exists_split_of_tableFields (Document.object.inj hd)
      have hsequence : fieldIsSequence S k i = true := by
        obtain ⟨e, he, _⟩ := hstores
        rw [store] at he
        split at he
        · assumption
        · cases he
      obtain ⟨stored, hstored, htable⟩ := (stores_object hsequence).mp hstores
      rw [fieldType_eq hcode] at hstored htable
      have hp : p ∈ presentFields S code.typeRef slots := by
        rw [hsplit]
        exact mem_append_right _ mem_cons_self
      exact ih (mem_presentFields.mp hp).1 rfl (stores_of_split hS hsplit hstored htable)
    | _ => exact absurd hd (by simp [valueDocument])

theorem storeRoot_ne_of_differ (hS : PrintableSchema S) {root : Nat}
    (h : DocumentsDiffer (.object (tableFields S root slots)) d) :
    storeRoot F S root d ≠ some (.table slots) := by
  intro hstore
  generalize hfields : Document.object (tableFields S root slots) = d0 at h
  cases h with
  | string | item => cases hfields
  | @field before after after' name d d' hd =>
    obtain ⟨ps, p, ps', hsplit, rfl, rfl, rfl⟩ := exists_split_of_tableFields (Document.object.inj hfields)
    obtain ⟨stored, hstored, htable⟩ := map_eq_some_iff.mp hstore
    have hp : p ∈ presentFields S root slots := by
      rw [hsplit]
      exact mem_append_right _ mem_cons_self
    exact not_stores_of_differ hS hd (mem_presentFields.mp hp).1 rfl
      (stores_of_split hS hsplit hstored htable)

/-- Parsing what was printed gives the table back exactly when the strings in its vectors are plain
and its numbers are small. -/
theorem jsonToFlatbuffer_flatbufferToJson_iff {fmt : ElementaryType → Int → List Char}
    (hS : PrintableSchema S) {root : Nat} {t : Value} (ht : t.HasKind S (.table root))
    (hlimit : vectorsWithin ({} : JsonOptions).maxVectorSize t = true) :
    jsonToFlatbuffer F S root (flatbufferToJson S {} fmt root (some t)) = some t
      ↔ plainStrings t = true ∧ smallNumbers t = true := by
  rw [jsonToFlatbuffer_eq]
  cases hplain : plainStrings t with
  | true =>
    rw [document_flatbufferToJson hS ht hlimit hplain, bind_some]
    obtain ⟨slots, rfl⟩ : ∃ slots, t = .table slots := ⟨_, ht.eq_table⟩
    rw [Value.slots, storeRoot, map_eq_some_iff, storeFields_iff_smallSlots hS ht fun v _ => storesValue hS v,
      smallNumbers]
    simp
  | false =>
    refine iff_of_false ?_ (by simp)
    intro h
    obtain ⟨d, hd, hstore⟩ := bind_eq_some_iff.mp h
    have hdiffers := documentsDiffer_of_tokens (differs_flatbufferToJson hS ht hlimit hplain hd)
    rw [ht.eq_table] at hstore
    exact storeRoot_ne_of_differ hS hdiffers hstore

/-- A vector of strings, a `uint64`, a table and a vector of tables. -/
def recordSchema : Schema :=
  [⟨.table, [⟨.string, true, none⟩, ⟨.ulong, false, none⟩, ⟨.sequence, false, some 1⟩,
      ⟨.sequence, true, some 1⟩], [['v'], ['n'], ['t'], ['a']], none⟩,
    ⟨.table, [⟨.bool, true, none⟩, ⟨.string, false, none⟩], [['b'], ['s']], none⟩]

def recordTable : Value :=
  .table [some (.vector [.string ['x'], .string []]), some (.scalar .ulong 7),
    some (.table [none, some (.string ['"', '\n'])]),
    some (.vector [.table [some (.vector [.scalar .bool 1, .scalar .bool 0]), none],
      .table [none, none]])]

theorem jsonToFlatbuffer_flatbufferToJson_record :
    jsonToFlatbuffer noFloats recordSchema 0
      (flatbufferToJson recordSchema {} (fun _ _ => []) 0 (some recordTable)) = some recordTable :=
  (jsonToFlatbuffer_flatbufferToJson_iff (by decide) (by decide) (by decide)).mpr
    ⟨by decide, by decide⟩

/-- Conversions that know the number `2 ^ 63`. -/
def bigFloats : FloatOps where
  __ := noFloats
  fieldAsDouble := fun text => if text = appendInt (2 ^ 63) then some (1086 * 2 ^ 52) else none
  fieldAsDouble_inRange := by
    intro text x h
    split at h
    · cases h
      decide
    · exact absurd h (by simp)

def reparsed (strings : List (List Char)) (n : Int) : Option Value :=
  jsonToFlatbuffer bigFloats recordSchema 0 (flatbufferToJson recordSchema {} (fun _ _ => []) 0
    (some (.table [some (.vector (strings.map .string)), some (.scalar .ulong n), none, none])))

def stringsAndNumber (t : Value) : List (List Char) × Bool :=
  (((getAddressOf (some t) 0).map fun v => v.elements.map Value.data).getD [],
    (getAddressOf (some t) 1).isSome)

/-- A quote makes the parser fail, a backslash changes the string, a zero cuts it off, and `2 ^ 63` is
left out. -/
theorem jsonToFlatbuffer_flatbufferToJson_lossy : (reparsed [['a', '"', 'b']] 7).isNone = true ∧
    (reparsed [['a', '\\', 'b']] 7).map stringsAndNumber = some ([['a', '\x08']], true) ∧
    (reparsed [['a', Char.ofNat 0, 'b']] 7).map stringsAndNumber = some ([['a']], true) ∧
    (reparsed [] (2 ^ 63)).map stringsAndNumber = some ([], false) := by
  decide +kernel

end RobotCode.Json
