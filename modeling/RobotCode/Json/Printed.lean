import RobotCode.Json.Reading
import RobotCode.Json.Storing

/-!
# The document of a printed table

`valueDocument` is the document that the printer means to write. `reads_field` and `reads_element`:
the tokenizer reads it back, as far as every string in a vector is plain; else it reads a document
with another string in it.
-/

namespace RobotCode.Json

open Flatbuffers List Tokenizer

/-- The field is a boolean, an integer, a string or a table of the schema, or a vector of one. -/
structure PrintableCode (S : Schema) (code : TypeCode) : Prop where
  baseType : code.baseType ∉ [.utype, .float, .double]
  noEnum : code.baseType ≠ .sequence → code.sequenceRef = none
  objectIndex : code.baseType = .sequence → objectIndex S code = some code.typeRef

instance (S : Schema) (code : TypeCode) : Decidable (PrintableCode S code) :=
  decidable_of_iff (code.baseType ∉ [.utype, .float, .double] ∧
      (code.baseType ≠ .sequence → code.sequenceRef = none) ∧
      (code.baseType = .sequence → objectIndex S code = some code.typeRef))
    ⟨fun h => ⟨h.1, h.2.1, h.2.2⟩, fun h => ⟨h.baseType, h.noEnum, h.objectIndex⟩⟩

def isIdentifier (c : Char) : Bool := c.isAlphanum || c == '_'

/-- A schema without floating point numbers, enumerations, structs and unions, whose field names are
different identifiers. -/
structure PrintableSchema (S : Schema) : Prop where
  code : ∀ tt ∈ S, ∀ code ∈ tt.typeCodes, PrintableCode S code
  length_names : ∀ tt ∈ S, tt.names.length = tt.typeCodes.length
  nodup_names : ∀ tt ∈ S, tt.names.Nodup
  identifier : ∀ tt ∈ S, ∀ name ∈ tt.names, name.all isIdentifier = true

instance (S : Schema) : Decidable (PrintableSchema S) :=
  decidable_of_iff ((∀ tt ∈ S, ∀ code ∈ tt.typeCodes, PrintableCode S code) ∧
      (∀ tt ∈ S, tt.names.length = tt.typeCodes.length) ∧ (∀ tt ∈ S, tt.names.Nodup) ∧
      ∀ tt ∈ S, ∀ name ∈ tt.names, name.all isIdentifier = true)
    ⟨fun h => ⟨h.1, h.2.1, h.2.2.1, h.2.2.2⟩,
      fun h => ⟨h.code, h.length_names, h.nodup_names, h.identifier⟩⟩

mutual

def vectorsWithin (limit : Nat) : Value → Bool
  | .scalar _ _ => true
  | .string _ => true
  | .vector elements => decide (elements.length ≤ limit) && elementsWithin limit elements
  | .table slots => slotsWithin limit slots

def elementsWithin (limit : Nat) : List Value → Bool
  | [] => true
  | v :: elements => vectorsWithin limit v && elementsWithin limit elements

def slotsWithin (limit : Nat) : List (Option Value) → Bool
  | [] => true
  | none :: slots => slotsWithin limit slots
  | some v :: slots => vectorsWithin limit v && slotsWithin limit slots

end

mutual

def plainStrings : Value → Bool
  | .scalar _ _ => true
  | .string _ => true
  | .vector elements => plainElements elements
  | .table slots => plainSlots slots

def plainElements : List Value → Bool
  | [] => true
  | .string text :: elements => plainText text && plainElements elements
  | v :: elements => plainStrings v && plainElements elements

def plainSlots : List (Option Value) → Bool
  | [] => true
  | none :: slots => plainSlots slots
  | some v :: slots => plainStrings v && plainSlots slots

end

/-- `plainStrings` for an element of a vector. -/
def plainElement : Value → Bool
  | .string text => plainText text
  | v => plainStrings v

theorem plainElements_iff {elements : List Value} :
    plainElements elements = true ↔ ∀ v ∈ elements, plainElement v = true := by
  induction elements with
  | nil => simp [plainElements]
  | cons v elements ih => cases v <;> simp [plainElements, plainElement, ih]

variable {slots : List (Option Value)}

theorem forall_some_mem_cons {P : Value → Prop} {w : Value} :
    (∀ v, some v ∈ some w :: slots → P v) ↔ P w ∧ ∀ v, some v ∈ slots → P v := by
  simp only [mem_cons, Option.some.injEq, or_imp, forall_and, forall_eq]

theorem plainSlots_iff : plainSlots slots = true ↔ ∀ v, some v ∈ slots → plainStrings v = true := by
  induction slots with
  | nil => simp [plainSlots]
  | cons slot slots ih =>
    cases slot with
    | none => simp [plainSlots, ih]
    | some w => rw [plainSlots, Bool.and_eq_true, ih, forall_some_mem_cons]

theorem elementsWithin_iff {limit : Nat} {elements : List Value} :
    elementsWithin limit elements = true ↔ ∀ v ∈ elements, vectorsWithin limit v = true := by
  induction elements with
  | nil => simp [elementsWithin]
  | cons v elements ih => simp [elementsWithin, ih]

theorem slotsWithin_iff {limit : Nat} :
    slotsWithin limit slots = true ↔ ∀ v, some v ∈ slots → vectorsWithin limit v = true := by
  induction slots with
  | nil => simp [slotsWithin]
  | cons slot slots ih =>
    cases slot with
    | none => simp [slotsWithin, ih]
    | some w => rw [slotsWithin, Bool.and_eq_true, ih, forall_some_mem_cons]

/-! ### The document -/

def scalarLiteral (type : ElementaryType) (x : Int) : Literal :=
  match type with
  | .bool => if x != 0 then .true else .false
  | _ => .number (appendInt x)

section

variable (S : Schema)

mutual

def valueDocument (code : TypeCode) : Value → Document
  | .scalar type x => .literal (scalarLiteral type x)
  | .string data => .string data
  | .vector elements => .array (elementDocuments code elements)
  | .table slots =>
    .object ((inNameOrder S code.typeRef
      (slotDocuments (S.typeTable code.typeRef).typeCodes slots)).map fun f => (f.1, some f.2))

def elementDocuments (code : TypeCode) : List Value → List Document
  | [] => []
  | v :: elements => valueDocument code v :: elementDocuments code elements

def slotDocuments : List TypeCode → List (Option Value) → List (Option Document)
  | code :: codes, some v :: slots => some (valueDocument code v) :: slotDocuments codes slots
  | _ :: codes, none :: slots => none :: slotDocuments codes slots
  | _, _ => []

end

theorem elementDocuments_eq (code : TypeCode) (elements : List Value) :
    elementDocuments S code elements = elements.map (valueDocument S code) := by
  induction elements with
  | nil => rfl
  | cons v elements ih => rw [elementDocuments, ih, map_cons]

theorem slotDocuments_eq (codes : List TypeCode) (slots : List (Option Value)) : slotDocuments S codes slots
      = zipWith (fun code slot => slot.map (valueDocument S code)) codes slots := by
  induction codes generalizing slots with
  | nil => cases slots <;> rfl
  | cons code codes ih =>
    cases slots with
    | nil => rfl
    | cons slot slots => cases slot <;> rw [slotDocuments, ih] <;> rfl

structure Present where
  index : Nat
  code : TypeCode
  value : Value

def presentFields (k : Nat) (slots : List (Option Value)) : List Present :=
  (fieldsByName S k).filterMap fun i =>
    (S.typeCode k i).bind fun code => slots[i]?.join.map fun v => ⟨i, code, v⟩

variable {S}

theorem inNameOrder_zipWith {α : Type} (f : TypeCode → Value → α) (k : Nat) (slots : List (Option Value)) :
    inNameOrder S k (zipWith (fun code slot => slot.map (f code)) (S.typeTable k).typeCodes slots)
      = (presentFields S k slots).map fun p => (fieldName S k p.index, f p.code p.value) := by
  rw [inNameOrder, presentFields, map_filterMap]
  apply filterMap_congr
  intro i _
  rw [getElem?_zipWith, Schema.typeCode]
  cases (S.typeTable k).typeCodes[i]? with
  | none => rfl
  | some code =>
    cases slots[i]? with
    | none => rfl
    | some slot => cases slot <;> rfl

theorem perm_fieldsByName (k : Nat) : (fieldsByName S k).Perm (range (S.typeTable k).numElems) :=
  perm_insertionSort _ _

variable {code : TypeCode} {slots : List (Option Value)} {k i : Nat}

theorem mem_presentFields {p : Present} : p ∈ presentFields S k slots
      ↔ S.typeCode k p.index = some p.code ∧ slots[p.index]?.join = some p.value := by
  rw [presentFields, mem_filterMap]
  apply Iff.intro
  · intro h
    obtain ⟨i, _, h⟩ := h
    obtain ⟨code, hcode, h⟩ := Option.bind_eq_some_iff.mp h
    obtain ⟨v, hv, rfl⟩ := Option.map_eq_some_iff.mp h
    exact ⟨hcode, hv⟩
  · intro h
    have hlt : p.index < (S.typeTable k).numElems := (List.getElem?_eq_some_iff.mp h.1).1
    refine ⟨p.index, (perm_fieldsByName k).mem_iff.mpr (mem_range.mpr hlt), ?_⟩
    rw [h.1, Option.bind_some, h.2]
    rfl

theorem forall_slots_iff_presentFields {P : Value → Prop} (hlength : slots.length = (S.typeTable k).numElems) :
    (∀ v, some v ∈ slots → P v) ↔ ∀ p ∈ presentFields S k slots, P p.value := by
  apply Iff.intro
  · intro h p hp
    exact h p.value (mem_of_getElem? (Option.join_eq_some_iff.mp (mem_presentFields.mp hp).2))
  · intro h v hv
    obtain ⟨i, hi⟩ := mem_iff_getElem?.mp hv
    have hlt : i < (S.typeTable k).numElems := hlength ▸ (List.getElem?_eq_some_iff.mp hi).1
    exact h ⟨i, _, v⟩ (mem_presentFields.mpr
      ⟨getElem?_eq_getElem hlt, Option.join_eq_some_iff.mpr hi⟩)

theorem nodup_index_presentFields (k : Nat) (slots : List (Option Value)) :
    ((presentFields S k slots).map Present.index).Nodup := by
  have hnodup : (fieldsByName S k).Nodup := (perm_fieldsByName k).nodup_iff.mpr nodup_range
  apply List.Nodup.sublist _ hnodup
  rw [presentFields]
  induction fieldsByName S k with
  | nil => exact List.Sublist.slnil
  | cons i is ih =>
    rw [filterMap_cons]
    split
    · exact ih.cons i
    · next p hp =>
      obtain ⟨code, _, hp⟩ := Option.bind_eq_some_iff.mp hp
      obtain ⟨v, _, rfl⟩ := Option.map_eq_some_iff.mp hp
      exact ih.cons_cons i

theorem typeTable_mem (h : S.typeCode k i = some code) : S.typeTable k ∈ S := by
  cases hk : S[k]? with
  | none =>
    rw [Schema.typeCode, Schema.typeTable, getD_eq_getElem?_getD, hk] at h
    exact absurd h (by simp [TypeTable.empty])
  | some tt =>
    rw [Schema.typeTable, getD_eq_getElem?_getD, hk]
    exact mem_of_getElem? hk

section

variable (hS : PrintableSchema S) (h : S.typeCode k i = some code)

include hS h

theorem PrintableSchema.printableCode : PrintableCode S code :=
  hS.code _ (typeTable_mem h) code (mem_of_getElem? h)

theorem PrintableSchema.name : (S.typeTable k).names[i]? = some (fieldName S k i) := by
  have hlt : i < (S.typeTable k).names.length := by
    rw [hS.length_names _ (typeTable_mem h)]
    exact (List.getElem?_eq_some_iff.mp h).1
  rw [fieldName, getD_eq_getElem?_getD, getElem?_eq_getElem hlt]
  rfl

theorem PrintableSchema.fieldName_chars : ∀ c ∈ fieldName S k i, c ≠ '"' ∧ c ≠ '\\' ∧ c ≠ Char.ofNat 0 := by
  intro c hc
  have hname := hS.identifier _ (typeTable_mem h) _ (mem_of_getElem? (hS.name h))
  have hc := all_eq_true.mp hname c hc
  refine ⟨?_, ?_, ?_⟩ <;>
  · intro heq
    subst heq
    exact absurd hc (by decide)

theorem PrintableSchema.fieldIndex : fieldIndex S k (cStr (fieldName S k i)) = some i := by
  rw [cStr_eq_self fun hc => (hS.fieldName_chars h _ hc).2.2 rfl, Json.fieldIndex]
  have hname := hS.name h
  obtain ⟨hlt, hget⟩ := List.getElem?_eq_some_iff.mp hname
  rw [findIdx?_eq_some_iff_getElem]
  refine ⟨hlt, by simp [hget], ?_⟩
  intro j hj
  have hne : (S.typeTable k).names[j] ≠ fieldName S k i := by
    rw [← hget]
    intro heq
    have := (List.Nodup.getElem_inj_iff (hS.nodup_names _ (typeTable_mem h))).mp heq
    omega
  simp [hne]

end

theorem scalarToString_eq {fmt : ElementaryType → Int → List Char} {x : Int}
    (hcode : PrintableCode S code) (hscalar : code.baseType.IsScalar)
    (hx : code.baseType.InRange x) :
    scalarToString S fmt code x
      = match code.baseType with
        | .bool => appendBool (x != 0)
        | _ => appendInt x := by
  obtain ⟨type, repeating, ref⟩ := code
  have href : ref = none := hcode.noEnum fun h => absurd hscalar (by
    subst h
    exact id)
  have htype := hcode.baseType
  subst href
  dsimp only [scalarToString, intOrEnumToString, getAnyValueI] at *
  unfold ElementaryType.InRange at hx
  cases type with
  | bool =>
    have hwrap : wrapSigned 64 x = x := by
      simp only [ElementaryType.range] at hx
      unfold wrapSigned
      omega
    simp only [intToString, hwrap]
  | utype | float | double => exact absurd htype (by simp)
  | string | sequence => exact absurd hscalar id
  | _ =>
    simp only [ElementaryType.range] at hx
    simp only [intToString]
    congr 1
    unfold wrapSigned
    omega

theorem elementKind_ne_vector (code : TypeCode) (kind : Kind) : code.elementKind ≠ .vector kind := by
  unfold TypeCode.elementKind
  split <;> simp

theorem kind_eq_vector {kind : Kind} (h : code.kind = .vector kind) :
    code.isRepeating = true ∧ code.elementKind = kind := by
  rw [TypeCode.kind] at h
  split at h
  · next hrepeating => exact ⟨hrepeating, Kind.vector.inj h⟩
  · exact absurd h (elementKind_ne_vector code kind)

theorem hasKind_elementKind {v : Value} (h : v.HasKind S code.kind) (hv : ∀ elements, v ≠ .vector elements) :
    v.HasKind S code.elementKind := by
  rw [TypeCode.kind] at h
  split at h
  · cases h
    exact absurd rfl (hv _)
  · exact h

theorem elementKind_eq_scalar {type : ElementaryType} (h : code.elementKind = .scalar type) :
    code.baseType = type ∧ type ≠ .string ∧ type ≠ .sequence := by
  unfold TypeCode.elementKind at h
  split at h
  · cases h
  · cases h
  · next hstring hsequence =>
    obtain rfl := Kind.scalar.inj h
    exact ⟨rfl, hstring, hsequence⟩

theorem elementKind_eq_table (h : code.elementKind = .table k) : code.baseType = .sequence ∧ code.typeRef = k := by
  unfold TypeCode.elementKind at h
  split at h
  · cases h
  · next hbase => exact ⟨hbase, Kind.table.inj h⟩
  · cases h

theorem elementKind_eq_string (h : code.elementKind = .string) : code.baseType = .string := by
  unfold TypeCode.elementKind at h
  split at h
  · assumption
  · cases h
  · cases h

theorem PrintableCode.isScalar (hcode : PrintableCode S code)
    (hstring : code.baseType ≠ .string) (hsequence : code.baseType ≠ .sequence) : code.baseType.IsScalar := by
  have hbase := hcode.baseType
  cases htype : code.baseType with
  | utype =>
    rw [htype] at hbase
    exact absurd hbase (by simp)
  | string => exact absurd htype hstring
  | sequence => exact absurd htype hsequence
  | _ => trivial

/-! ### Reading what is printed -/

variable {fmt : ElementaryType → Int → List Char}

theorem reads_scalar {x : Int} (hcode : PrintableCode S code)
    (hscalar : code.baseType.IsScalar) (hx : code.baseType.InRange x) :
    Reads .expectValue (scalarToString S fmt code x)
      (Document.literal (scalarLiteral code.baseType x)).tokens true := by
  rw [scalarToString_eq hcode hscalar hx]
  generalize code.baseType = type
  cases type with
  | bool => exact reads_bool (x != 0)
  | _ => exact reads_number x

theorem elementTexts_eq (depth : Nat) (code : TypeCode) (elements : List Value) :
    elementTexts S {} fmt depth code elements = elements.map (elementToString S {} fmt depth code) := by
  induction elements with
  | nil => rfl
  | cons v elements ih => rw [elementTexts, ih, map_cons]

theorem slotTexts_eq (depth : Nat) (codes : List TypeCode) (slots : List (Option Value)) :
    slotTexts S {} fmt depth codes slots
      = List.zipWith (fun code slot => slot.map (fieldToString S {} fmt depth code)) codes slots := by
  induction codes generalizing slots with
  | nil => cases slots <;> rfl
  | cons code codes ih =>
    cases slots with
    | nil => rfl
    | cons slot slots => cases slot <;> rw [slotTexts, ih] <;> rfl

theorem itemsTokens_eq (items : List Document) : itemsTokens items = items.flatMap Document.tokens := by
  induction items with
  | nil => rfl
  | cons d items ih => rw [itemsTokens, ih, flatMap_cons]

theorem fieldsTokens_map {α : Type} (name : α → List Char) (d : α → Document) (l : List α) :
    fieldsTokens (l.map fun a => (name a, some (d a))) = l.flatMap fun a => .field (name a) :: (d a).tokens := by
  induction l with
  | nil => rfl
  | cons a l ih => rw [map_cons, fieldsTokens, ih, flatMap_cons, cons_append]

section

variable (S fmt)

def slotPiece (depth k : Nat) (p : Present) : Piece where
  text := namedField (fieldName S k p.index) (fieldToString S {} fmt depth p.code p.value)
  tokens := .field (fieldName S k p.index) :: (valueDocument S p.code p.value).tokens
  faithful := plainStrings p.value

def tableFields (k : Nat) (slots : List (Option Value)) : List (List Char × Option Document) :=
  (presentFields S k slots).map fun p =>
    (fieldName S k p.index, some (valueDocument S p.code p.value))

def elementPiece (depth : Nat) (code : TypeCode) (v : Value) : Piece where
  text := elementToString S {} fmt depth code v
  tokens := (valueDocument S code v).tokens
  faithful := plainElement v

end

theorem objectText_eq (depth k : Nat) (slots : List (Option Value)) :
    objectText S {} depth k (slotTexts S {} fmt (depth + 1) (S.typeTable k).typeCodes slots)
      = '{' :: (joined false (depth + 1)
        (((presentFields S k slots).map (slotPiece S fmt (depth + 1) k)).map Piece.text) ++ ['}']) := by
  rw [slotTexts_eq, objectText, inNameOrder_zipWith, map_map, map_map]
  rfl

theorem vectorText_eq (depth : Nat) (code : TypeCode) (elements : List Value) :
    vectorText {} depth code (elementTexts S {} fmt (depth + 1) code elements) = '[' :: (joined false (depth + 1)
        ((elements.map (elementPiece S fmt (depth + 1) code)).map Piece.text) ++ [']']) := by
  rw [elementTexts_eq, map_map]
  rfl

theorem valueDocument_table (code : TypeCode) (slots : List (Option Value)) :
    valueDocument S code (.table slots) = .object (tableFields S code.typeRef slots) := by
  rw [valueDocument, slotDocuments_eq, inNameOrder_zipWith, map_map]
  rfl

theorem tokens_table (fmt : ElementaryType → Int → List Char) (depth k : Nat) (slots : List (Option Value)) :
    (Document.object (tableFields S k slots)).tokens
      = .startObject :: (((presentFields S k slots).map (slotPiece S fmt depth k)).flatMap Piece.tokens
        ++ [.endObject]) := by
  rw [Document.tokens, tableFields, fieldsTokens_map, flatMap_map]
  rfl

theorem plainSlots_iff_presentFields (fmt : ElementaryType → Int → List Char) (depth : Nat)
    (hlength : slots.length = (S.typeTable k).numElems) : plainSlots slots = true ↔
      ∀ p ∈ (presentFields S k slots).map (slotPiece S fmt depth k), p.faithful = true := by
  rw [plainSlots_iff, forall_mem_map, forall_slots_iff_presentFields hlength]
  rfl

structure ReadsValue (S : Schema) (fmt : ElementaryType → Int → List Char) (v : Value) : Prop where
  field : ∀ (depth : Nat) {code : TypeCode}, PrintableCode S code → v.HasKind S code.kind →
    Reads .expectValue (fieldToString S {} fmt depth code v) (valueDocument S code v).tokens
      (plainStrings v)
  element : ∀ (depth : Nat) {code : TypeCode}, PrintableCode S code → v.HasKind S code.elementKind →
    Reads .expectValue (elementToString S {} fmt depth code v) (valueDocument S code v).tokens
      (plainElement v)

theorem reads_slotPiece (hS : PrintableSchema S) (depth : Nat)
    (h : (Value.table slots).HasKind S (.table k)) (ih : ∀ v, some v ∈ slots → ReadsValue S fmt v) :
    ∀ p ∈ (presentFields S k slots).map (slotPiece S fmt depth k), Reads .expectField p.text p.tokens p.faithful := by
  rw [forall_mem_map]
  intro p hp
  obtain ⟨hcode, hvalue⟩ := mem_presentFields.mp hp
  have hslot := Option.join_eq_some_iff.mp hvalue
  have hkind : p.value.HasKind S p.code.kind := by
    cases h with
    | table _ hfields => exact hfields p.index p.value p.code hslot hcode
  have hreads := (ih p.value (mem_of_getElem? hslot)).field depth (hS.printableCode hcode) hkind
  exact hreads.field fun c hc => ⟨(hS.fieldName_chars hcode c hc).1, (hS.fieldName_chars hcode c hc).2.1⟩

theorem head_slotPiece (fmt : ElementaryType → Int → List Char) (depth k : Nat) (slots : List (Option Value)) :
    ∀ p ∈ (presentFields S k slots).map (slotPiece S fmt depth k), p.text.head? = some '"' := by
  rw [forall_mem_map]
  intro p _
  rfl

theorem reads_table (hS : PrintableSchema S) (depth : Nat)
    (h : (Value.table slots).HasKind S (.table k)) (ih : ∀ v, some v ∈ slots → ReadsValue S fmt v) :
    Reads .expectValue (objectText S {} depth k (slotTexts S {} fmt (depth + 1) (S.typeTable k).typeCodes slots))
      (Document.object (tableFields S k slots)).tokens (plainSlots slots) := by
  rw [objectText_eq, tokens_table fmt (depth + 1) k slots]
  exact reads_object (reads_slotPiece hS _ h ih) (head_slotPiece fmt _ _ _)
    (plainSlots_iff_presentFields fmt _ h.length_slots)

theorem readsValue_table (hS : PrintableSchema S)
    (ih : ∀ v, some v ∈ slots → ReadsValue S fmt v) : ReadsValue S fmt (.table slots) := by
  have helement : ∀ {code : TypeCode}, PrintableCode S code →
      (Value.table slots).HasKind S code.elementKind →
      objectIndex S code = some code.typeRef ∧ (Value.table slots).HasKind S (.table code.typeRef) := by
    intro code hcode h
    have htable := h
    generalize hkind : code.elementKind = kind at h
    cases h
    obtain ⟨hbase, rfl⟩ := elementKind_eq_table hkind
    exact ⟨hcode.objectIndex hbase, hkind ▸ htable⟩
  constructor
  · intro depth code hcode h
    obtain ⟨hindex, htable⟩ := helement hcode (hasKind_elementKind h (by simp))
    rw [fieldToString, hindex, valueDocument_table, plainStrings]
    exact reads_table hS depth htable ih
  · intro depth code hcode h
    obtain ⟨hindex, htable⟩ := helement hcode h
    rw [elementToString, hindex, valueDocument_table]
    exact reads_table hS depth htable ih

theorem readsValue_vector {elements : List Value} (hlength : elements.length ≤ ({} : JsonOptions).maxVectorSize)
    (ih : ∀ v ∈ elements, ReadsValue S fmt v) : ReadsValue S fmt (.vector elements) := by
  constructor
  · intro depth code hcode h
    generalize hkind : code.kind = kind at h
    cases h with
    | vector helements =>
      obtain ⟨_, rfl⟩ := kind_eq_vector hkind
      have htokens : (valueDocument S code (.vector elements)).tokens
          = .startArray :: ((elements.map (elementPiece S fmt (depth + 1) code)).flatMap Piece.tokens
            ++ [.endArray]) := by
        rw [valueDocument, Document.tokens, elementDocuments_eq, itemsTokens_eq, flatMap_map, flatMap_map]
        rfl
      rw [fieldToString, if_neg (Nat.not_lt.mpr hlength), vectorText_eq, htokens, plainStrings]
      apply reads_array
      · rw [forall_mem_map]
        intro v hv
        exact (ih v hv).element _ hcode (helements v hv)
      · rw [plainElements_iff, forall_mem_map]
        rfl
  · intro depth code hcode h
    generalize hkind : code.elementKind = kind at h
    cases h
    exact absurd hkind (elementKind_ne_vector code _)

theorem readsValue (hS : PrintableSchema S) (v : Value)
    (hlimit : vectorsWithin ({} : JsonOptions).maxVectorSize v = true) : ReadsValue S fmt v := by
  induction v using Value.induct with
  | scalar type x =>
    have hread : ∀ {code : TypeCode}, PrintableCode S code →
        (Value.scalar type x).HasKind S code.elementKind →
        Reads .expectValue (scalarToString S fmt code x)
          (valueDocument S code (.scalar type x)).tokens true := by
      intro code hcode h
      generalize hkind : code.elementKind = kind at h
      cases h with
      | scalar hx =>
        obtain ⟨rfl, hstring, hsequence⟩ := elementKind_eq_scalar hkind
        exact reads_scalar hcode (hcode.isScalar hstring hsequence) hx
    constructor
    · intro depth code hcode h
      exact hread hcode (hasKind_elementKind h (by simp))
    · intro depth code hcode h
      exact hread hcode h
  | string data =>
    constructor
    · intro depth code _ _
      exact reads_string data
    · intro depth code _ _
      exact reads_rawString data
  | vector elements ih =>
    rw [vectorsWithin, Bool.and_eq_true, decide_eq_true_eq, elementsWithin_iff] at hlimit
    exact readsValue_vector hlimit.1 fun v hv => ih v hv (hlimit.2 v hv)
  | table slots ih =>
    rw [vectorsWithin, slotsWithin_iff] at hlimit
    exact readsValue_table hS fun v hv => ih v hv (hlimit v hv)

def Completes (d : Document) : Prop :=
  ∀ frames root, d.tokens.foldlM readStep ⟨frames, root⟩ = complete d frames

theorem foldlM_items {items : List Document} (h : ∀ d ∈ items, Completes d)
    (before : List Document) (frames : List Frame) :
    (itemsTokens items).foldlM readStep ⟨.array before :: frames, none⟩
      = some ⟨.array (before ++ items) :: frames, none⟩ := by
  induction items generalizing before with
  | nil => simp [itemsTokens]
  | cons d items ih =>
    rw [itemsTokens, foldlM_append, h d mem_cons_self]
    refine (ih (fun d hd => h d (mem_cons_of_mem _ hd)) (before ++ [d])).trans ?_
    rw [append_assoc]
    rfl

theorem completes_array {items : List Document} (h : ∀ d ∈ items, Completes d) : Completes (.array items) := by
  intro frames root
  rw [Document.tokens, foldlM_bracket]
  have hstart : readStep ⟨frames, root⟩ .startArray = some ⟨.array [] :: frames, none⟩ := rfl
  rw [hstart, Option.bind_some, foldlM_items h]
  rfl

theorem foldlM_fields {α : Type} {name : α → List Char} {d : α → Document} {l : List α}
    (h : ∀ a ∈ l, Completes (d a)) (before : List (List Char × Option Document)) (frames : List Frame) :
    (fieldsTokens (l.map fun a => (name a, some (d a)))).foldlM readStep ⟨.object before none :: frames, none⟩
      = some ⟨.object (before ++ l.map fun a => (name a, some (d a))) none :: frames, none⟩ := by
  induction l generalizing before with
  | nil => simp [fieldsTokens]
  | cons a l ih =>
    have hfield : readStep ⟨.object before none :: frames, none⟩ (.field (name a))
        = some ⟨.object before (some (name a)) :: frames, none⟩ := rfl
    rw [map_cons, fieldsTokens, foldlM_cons, hfield]
    change foldlM readStep _ _ = _
    rw [foldlM_append, h a mem_cons_self]
    refine (ih (fun a ha => h a (mem_cons_of_mem _ ha)) _).trans ?_
    rw [append_assoc]
    rfl

theorem completes_tableFields (h : ∀ p ∈ presentFields S k slots, Completes (valueDocument S p.code p.value)) :
    Completes (.object (tableFields S k slots)) := by
  intro frames root
  rw [Document.tokens, foldlM_bracket]
  have hstart : readStep ⟨frames, root⟩ .startObject = some ⟨.object [] none :: frames, none⟩ := rfl
  rw [hstart, Option.bind_some, tableFields, foldlM_fields h]
  simp [readStep, closeFields]

theorem completes_valueDocument (v : Value) (code : TypeCode) : Completes (valueDocument S code v) := by
  induction v using Value.induct generalizing code with
  | scalar type x =>
    intro frames root
    rw [valueDocument, Document.tokens, foldlM_single]
    cases scalarLiteral type x <;> rfl
  | string data =>
    intro frames root
    rw [valueDocument, Document.tokens, foldlM_single]
    rfl
  | vector elements ih =>
    rw [valueDocument, elementDocuments_eq]
    apply completes_array
    rw [forall_mem_map]
    exact fun v hv => ih v hv code
  | table slots ih =>
    rw [valueDocument_table]
    apply completes_tableFields
    intro p hp
    have hslot := Option.join_eq_some_iff.mp (mem_presentFields.mp hp).2
    exact ih p.value (mem_of_getElem? hslot) p.code

section

variable {root : Nat} {t : Value}

theorem next_flatbufferToJson (fmt : ElementaryType → Int → List Char) (hS : PrintableSchema S)
    (ht : t.HasKind S (.table root)) (hlimit : vectorsWithin ({} : JsonOptions).maxVectorSize t = true) :
    ∃ t', (new (flatbufferToJson S {} fmt root (some t))).next = some (.startObject, t') ∧
      Outcome (plainStrings t = true) (Clean []) t' (fieldsTokens (tableFields S root t.slots) ++ [.endObject])
        ⟨.expectEnd, [], []⟩ := by
  obtain ⟨slots, rfl⟩ : ∃ slots, t = .table slots := ⟨_, ht.eq_table⟩
  rw [vectorsWithin, slotsWithin_iff] at hlimit
  have hfields : fieldsTokens (tableFields S root slots)
      = ((presentFields S root slots).map (slotPiece S fmt 1 root)).flatMap Piece.tokens := by
    rw [tableFields, fieldsTokens_map, flatMap_map]
    rfl
  have hplain : plainSlots slots = true ↔
      ∀ p ∈ (presentFields S root slots).map (slotPiece S fmt 1 root), p.faithful = true :=
    plainSlots_iff_presentFields fmt 1 ht.length_slots
  obtain ⟨t', hopen, houtcome⟩ := openObject_joined 1 []
    (reads_slotPiece hS 1 ht fun v hv => readsValue hS v (hlimit v hv))
    (head_slotPiece fmt 1 root slots) noSpace_nil
  rw [flatbufferToJson, Value.slots, objectText_eq, hfields, plainStrings, hplain]
  exact ⟨t', hopen, houtcome.then_steps (.single rfl (by simp))⟩

section

variable (hS : PrintableSchema S) (ht : t.HasKind S (.table root)) (hlimit : vectorsWithin ({} : JsonOptions).maxVectorSize t = true)

include hS ht hlimit

theorem document_flatbufferToJson (hplain : plainStrings t = true) :
    document (flatbufferToJson S {} fmt root (some t)) = some (.object (tableFields S root t.slots)) := by
  obtain ⟨t', hnext, houtcome⟩ := next_flatbufferToJson fmt hS ht hlimit
  have hall : Steps (new (flatbufferToJson S {} fmt root (some t)))
      (Document.object (tableFields S root t.slots)).tokens ⟨.expectEnd, [], []⟩ := by
    exact .cons hnext (by simp) (houtcome.steps hplain)
  have htokens := hall.tokens_eq rfl
    (size (new (flatbufferToJson S {} fmt root (some t))))
  rw [tokens_of_le (InStep.new _) (m := tokenBound (flatbufferToJson S {} fmt root (some t)))
    (by omega) (by simp [size, new, tokenBound])] at htokens
  have hcompletes : Completes (.object (tableFields S root t.slots)) :=
    completes_tableFields fun p _ => completes_valueDocument p.value p.code
  exact runTokens_eq_some.mpr ⟨_, _, htokens, hcompletes [] none, rfl⟩

theorem differs_flatbufferToJson (hplain : plainStrings t = false) {d : Document}
    (hd : document (flatbufferToJson S {} fmt root (some t)) = some d) :
    Differs (Document.object (tableFields S root t.slots)).tokens d.tokens := by
  obtain ⟨t', hnext, houtcome⟩ := next_flatbufferToJson fmt hS ht hlimit
  obtain ⟨fields, rfl, htokens⟩ := tokens_of_document hd
  rw [tokenBound, tokens_succ_of_ne hnext (by simp)] at htokens
  obtain ⟨ts, hts, hcons⟩ := Option.map_eq_some_iff.mp htokens
  rw [← hcons, Document.tokens]
  exact (houtcome.differs (Bool.eq_false_iff.mp hplain) (by simp [Clean]) hts).append_left [.startObject]

end

end

end

end RobotCode.Json
