import Mathlib

/-!
# Flatbuffer schemas and the values of a buffer

A schema is the list of its type tables, the mini reflection data that `flatbuffers::TypeTable`
holds: a type code per field, with the field names and, for an enumeration, its values. A
`sequence_ref` is kept as the place of the type table it leads to.

A buffer is seen through its reader: a `Value` is what an offset leads to, with every nested offset
followed. A table has one slot per field of its type table, and a slot is empty when `GetAddressOf`
gives a null pointer. `HasKind` says that a value is of the kind a schema gives it, all the way down.
-/

namespace RobotCode.Flatbuffers

open List

/-- `flatbuffers::ElementaryType`. -/
inductive ElementaryType where
  | utype | bool | char | uchar | short | ushort | int | uint | long | ulong | float | double
  | string | sequence
  deriving DecidableEq, Repr

namespace ElementaryType

/-- The types stored inline in a table or a vector. A `utype` tags a union. -/
def IsScalar : ElementaryType → Prop
  | utype | string | sequence => False
  | _ => True

instance : DecidablePred IsScalar := fun t => by cases t <;> unfold IsScalar <;> infer_instance

/-- The numbers a scalar of the type can hold. A floating point scalar is its bit pattern. -/
def range : ElementaryType → Int × Int
  | bool => (0, 2)
  | char => (-2 ^ 7, 2 ^ 7)
  | utype | uchar => (0, 2 ^ 8)
  | short => (-2 ^ 15, 2 ^ 15)
  | ushort => (0, 2 ^ 16)
  | int => (-2 ^ 31, 2 ^ 31)
  | uint | float => (0, 2 ^ 32)
  | long => (-2 ^ 63, 2 ^ 63)
  | ulong | double => (0, 2 ^ 64)
  | string | sequence => (0, 0)

def InRange (t : ElementaryType) (x : Int) : Prop := t.range.1 ≤ x ∧ x < t.range.2

instance (t : ElementaryType) (x : Int) : Decidable (t.InRange x) :=
  inferInstanceAs (Decidable (_ ∧ _))

end ElementaryType

/-- `flatbuffers::TypeCode`, with the type table that `type_refs[sequence_ref]` leads to. -/
structure TypeCode where
  baseType : ElementaryType
  isRepeating : Bool
  sequenceRef : Option Nat
  deriving DecidableEq, Repr

/-- `flatbuffers::SequenceType`, without structs and unions. -/
inductive SequenceType where
  | table | enum
  deriving DecidableEq, Repr

/-- `flatbuffers::TypeTable`. -/
structure TypeTable where
  st : SequenceType
  typeCodes : List TypeCode
  names : List (List Char)
  /-- The values of an enumeration, or null when they count from zero. -/
  values : Option (List Int)
  deriving DecidableEq, Repr

namespace TypeTable

def numElems (tt : TypeTable) : Nat := tt.typeCodes.length

def empty : TypeTable := ⟨.table, [], [], none⟩

end TypeTable

abbrev Schema := List TypeTable

namespace Schema

def typeTable (S : Schema) (k : Nat) : TypeTable := S.getD k TypeTable.empty

def typeCode (S : Schema) (k i : Nat) : Option TypeCode := (S.typeTable k).typeCodes[i]?

/-- No field of the schema is a union, whose tag is a field of type `utype`. -/
def NoUnions (S : Schema) : Prop := ∀ tt ∈ S, ∀ code ∈ tt.typeCodes, code.baseType ≠ .utype

instance (S : Schema) : Decidable S.NoUnions := inferInstanceAs (Decidable (∀ tt ∈ S, _))

theorem mem_of_typeCode {S : Schema} {k i : Nat} {code : TypeCode}
    (h : S.typeCode k i = some code) : ∃ tt ∈ S, code ∈ tt.typeCodes := by
  cases hk : S[k]? with
  | none =>
    have htt : S.typeTable k = TypeTable.empty := by
      rw [typeTable, getD_eq_getElem?_getD, hk]
      rfl
    rw [typeCode, htt] at h
    exact absurd h (by simp [TypeTable.empty])
  | some tt =>
    have htt : S.typeTable k = tt := by
      rw [typeTable, getD_eq_getElem?_getD, hk]
      rfl
    rw [typeCode, htt] at h
    exact ⟨tt, mem_of_getElem? hk, mem_of_getElem? h⟩

theorem NoUnions.baseType {S : Schema} (hS : S.NoUnions) {k i : Nat} {code : TypeCode}
    (h : S.typeCode k i = some code) : code.baseType ≠ .utype := by
  obtain ⟨tt, htt, hcode⟩ := mem_of_typeCode h
  exact hS tt htt code hcode

end Schema

/-- What a schema says about a value. -/
inductive Kind where
  | scalar (type : ElementaryType)
  | string
  | table (typeRef : Nat)
  | vector (element : Kind)
  deriving DecidableEq, Repr

namespace TypeCode

def typeRef (code : TypeCode) : Nat := code.sequenceRef.getD 0

def elementKind (code : TypeCode) : Kind :=
  match code.baseType with
  | .string => .string
  | .sequence => .table code.typeRef
  | type => .scalar type

def kind (code : TypeCode) : Kind :=
  if code.isRepeating then .vector code.elementKind else code.elementKind

theorem elementKind_of_isScalar {code : TypeCode} (h : code.baseType.IsScalar) :
    code.elementKind = .scalar code.baseType := by
  rcases code with ⟨type, repeating, ref⟩
  cases type <;> first | rfl | exact absurd h id

end TypeCode

/-- What an offset leads to. -/
inductive Value where
  | scalar (type : ElementaryType) (value : Int)
  | string (data : List Char)
  | vector (elements : List Value)
  | table (slots : List (Option Value))

namespace Value

/-- A property of values that passes from the elements of a vector and the fields of a table to the
whole holds of every value. -/
theorem induct {P : Value → Prop} (scalar : ∀ type x, P (.scalar type x)) (string : ∀ data, P (.string data))
    (vector : ∀ elements, (∀ v ∈ elements, P v) → P (.vector elements))
    (table : ∀ slots, (∀ v, some v ∈ slots → P v) → P (.table slots)) (v : Value) : P v :=
  match v with
  | .scalar type x => scalar type x
  | .string data => string data
  | .vector elements => vector elements fun v _ => induct scalar string vector table v
  | .table slots => table slots fun v hv => by
    have : sizeOf (some v) < sizeOf slots := sizeOf_lt_of_mem hv
    exact induct scalar string vector table v
  termination_by sizeOf v
  decreasing_by
    · have := sizeOf_lt_of_mem ‹v ∈ elements›
      simp only [Value.vector.sizeOf_spec]
      omega
    · simp only [Value.table.sizeOf_spec, Option.some.sizeOf_spec] at *
      omega

mutual

def depth : Value → Nat
  | .scalar _ _ => 0
  | .string _ => 0
  | .vector elements => depthElements elements + 1
  | .table slots => depthSlots slots + 1

def depthElements : List Value → Nat
  | [] => 0
  | v :: elements => max v.depth (depthElements elements)

def depthSlots : List (Option Value) → Nat
  | [] => 0
  | none :: slots => depthSlots slots
  | some v :: slots => max v.depth (depthSlots slots)

end

theorem depth_le_of_mem_elements {v : Value} {elements : List Value} (h : v ∈ elements) :
    v.depth ≤ depthElements elements := by
  induction elements with
  | nil => exact absurd h not_mem_nil
  | cons w elements ih =>
    rw [depthElements]
    obtain hw | hv := mem_cons.mp h
    · exact hw ▸ Nat.le_max_left _ _
    · exact Nat.le_trans (ih hv) (Nat.le_max_right _ _)

theorem depth_le_of_mem_slots {v : Value} {slots : List (Option Value)} (h : some v ∈ slots) :
    v.depth ≤ depthSlots slots := by
  induction slots with
  | nil => exact absurd h not_mem_nil
  | cons slot slots ih =>
    cases slot with
    | none =>
      rw [depthSlots]
      exact ih ((mem_cons.mp h).resolve_left (by simp))
    | some w =>
      rw [depthSlots]
      obtain hw | hv := mem_cons.mp h
      · exact Option.some.inj hw ▸ Nat.le_max_left _ _
      · exact Nat.le_trans (ih hv) (Nat.le_max_right _ _)

def data : Value → List Char
  | .string data => data
  | _ => []

def elements : Value → List Value
  | .vector elements => elements
  | _ => []

def slots : Value → List (Option Value)
  | .table slots => slots
  | _ => []

end Value

/-- `GetAddressOf`, which reads nothing from a null pointer. -/
def getAddressOf (t : Option Value) (i : Nat) : Option Value :=
  t.bind fun v => v.slots[i]?.join

@[simp] theorem getAddressOf_none (i : Nat) : getAddressOf none i = none := rfl

theorem mem_slots_of_getAddressOf {t v : Value} {i : Nat} (h : getAddressOf (some t) i = some v) :
    some v ∈ t.slots := by
  have hjoin : t.slots[i]?.join = some v := h
  exact mem_of_getElem? (Option.join_eq_some_iff.mp hjoin)

/-! ### Values of a kind -/

inductive Value.HasKind (S : Schema) : Value → Kind → Prop
  | scalar {type : ElementaryType} {x : Int} : type.InRange x →
      HasKind S (.scalar type x) (.scalar type)
  | string {data : List Char} : HasKind S (.string data) .string
  | vector {elements : List Value} {kind : Kind} : (∀ v ∈ elements, HasKind S v kind) →
      HasKind S (.vector elements) (.vector kind)
  | table {k : Nat} {slots : List (Option Value)} :
      slots.length = (S.typeTable k).numElems →
      (∀ i v code, slots[i]? = some (some v) → S.typeCode k i = some code →
        HasKind S v code.kind) →
      HasKind S (.table slots) (.table k)

namespace Value

mutual

def hasKind (S : Schema) : Value → Kind → Bool
  | .scalar type x, .scalar type' => decide (type = type') && decide (type.InRange x)
  | .string _, .string => true
  | .vector elements, .vector kind => elementsHaveKind S elements kind
  | .table slots, .table k =>
    decide (slots.length = (S.typeTable k).numElems) &&
      slotsHaveKind S slots (S.typeTable k).typeCodes
  | _, _ => false

def elementsHaveKind (S : Schema) : List Value → Kind → Bool
  | [], _ => true
  | v :: elements, kind => hasKind S v kind && elementsHaveKind S elements kind

def slotsHaveKind (S : Schema) : List (Option Value) → List TypeCode → Bool
  | none :: slots, _ :: codes => slotsHaveKind S slots codes
  | some v :: slots, code :: codes => hasKind S v code.kind && slotsHaveKind S slots codes
  | _, _ => true

end

variable {S : Schema}

theorem elementsHaveKind_iff {elements : List Value} {kind : Kind} :
    elementsHaveKind S elements kind ↔ ∀ v ∈ elements, hasKind S v kind := by
  induction elements with
  | nil => simp [elementsHaveKind]
  | cons v elements ih => simp [elementsHaveKind, ih]

theorem slotsHaveKind_iff {slots : List (Option Value)} {codes : List TypeCode} :
    slotsHaveKind S slots codes ↔ ∀ (i : Nat) (v : Value) (code : TypeCode),
      slots[i]? = some (some v) → codes[i]? = some code → hasKind S v code.kind := by
  induction slots generalizing codes with
  | nil => simp [slotsHaveKind]
  | cons slot slots ih =>
    cases codes with
    | nil => simp [slotsHaveKind]
    | cons code codes =>
      cases slot with
      | none =>
        rw [slotsHaveKind, ih]
        apply Iff.intro
        · intro h i v code' hv hcode
          cases i with
          | zero => cases hv
          | succ i => exact h i v code' hv hcode
        · intro h i v code' hv hcode
          exact h (i + 1) v code' hv hcode
      | some w =>
        rw [slotsHaveKind, Bool.and_eq_true, ih]
        apply Iff.intro
        · intro h i v code' hv hcode
          cases i with
          | zero =>
            cases hv
            cases hcode
            exact h.1
          | succ i => exact h.2 i v code' hv hcode
        · intro h
          exact ⟨h 0 w code rfl rfl, fun i v code' hv hcode => h (i + 1) v code' hv hcode⟩

theorem hasKind_iff {v : Value} {kind : Kind} : v.hasKind S kind ↔ v.HasKind S kind := by
  induction v using induct generalizing kind with
  | scalar type x =>
    apply Iff.intro
    · intro h
      cases kind with
      | scalar type' =>
        simp only [hasKind, Bool.and_eq_true, decide_eq_true_eq] at h
        exact h.1 ▸ HasKind.scalar h.2
      | _ => exact absurd h (by simp [hasKind])
    · intro h
      cases h with
      | scalar hrange => simp [hasKind, hrange]
  | string data =>
    apply Iff.intro
    · intro h
      cases kind with
      | string => exact HasKind.string
      | _ => exact absurd h (by simp [hasKind])
    · intro h
      cases h
      simp [hasKind]
  | vector elements ih =>
    apply Iff.intro
    · intro h
      cases kind with
      | vector kind =>
        rw [hasKind, elementsHaveKind_iff] at h
        exact HasKind.vector fun v hv => (ih v hv).mp (h v hv)
      | _ => exact absurd h (by simp [hasKind])
    · intro h
      cases h with
      | vector helements =>
        rw [hasKind, elementsHaveKind_iff]
        exact fun v hv => (ih v hv).mpr (helements v hv)
  | table slots ih =>
    have hmem : ∀ {i : Nat} {v : Value}, slots[i]? = some (some v) → some v ∈ slots :=
      fun h => mem_of_getElem? h
    apply Iff.intro
    · intro h
      cases kind with
      | table k =>
        rw [hasKind, Bool.and_eq_true, decide_eq_true_eq, slotsHaveKind_iff] at h
        exact HasKind.table h.1 fun i v code hv hcode =>
          (ih v (hmem hv)).mp (h.2 i v code hv hcode)
      | _ => exact absurd h (by simp [hasKind])
    · intro h
      cases h with
      | table hlength hfields =>
        rw [hasKind, Bool.and_eq_true, decide_eq_true_eq, slotsHaveKind_iff]
        exact ⟨hlength, fun i v code hv hcode => (ih v (hmem hv)).mpr (hfields i v code hv hcode)⟩

instance (S : Schema) (v : Value) (kind : Kind) : Decidable (v.HasKind S kind) :=
  decidable_of_iff (v.hasKind S kind = true) hasKind_iff

end Value

def TableOf (S : Schema) (k : Nat) (t : Option Value) : Prop := ∀ v ∈ t, v.HasKind S (.table k)

section

variable {S : Schema} {k i : Nat} {t : Option Value} {v : Value}

theorem Value.HasKind.length_slots (h : v.HasKind S (.table k)) : v.slots.length = (S.typeTable k).numElems := by
  cases h with
  | table hlength _ => exact hlength

theorem Value.HasKind.eq_table (h : v.HasKind S (.table k)) : v = .table v.slots := by
  cases h
  rfl

theorem TableOf.field {code : TypeCode} (h : TableOf S k t) (hcode : S.typeCode k i = some code)
    (hv : getAddressOf t i = some v) : v.HasKind S code.kind := by
  obtain ⟨w, hw, hjoin⟩ := Option.bind_eq_some_iff.mp hv
  have hslot := Option.join_eq_some_iff.mp hjoin
  cases h w hw with
  | table _ hfields => exact hfields i v code hslot hcode

theorem TableOf.none : TableOf S k none := fun _ h => absurd h (by simp)

theorem TableOf.some (h : v.HasKind S (.table k)) : TableOf S k (some v) := by
  intro w hw
  exact Option.some.inj hw ▸ h

end

end RobotCode.Flatbuffers
