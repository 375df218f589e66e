import RobotCode.Flatbuffers.Schema

/-!
# Overlaying one value on another

What a merge of tables is for: the second table is laid over the first. A scalar or a string of the
second hides the one of the first, vectors are put one after the other, and nested tables are
overlaid field by field. On the values of one kind this is associative, and the table without any
field is neutral.
-/

namespace RobotCode.Flatbuffers

open List

namespace Value

mutual

def overlay : Value → Value → Value
  | .table slots₁, .table slots₂ => .table (overlaySlots slots₁ slots₂)
  | .vector elements₁, .vector elements₂ => .vector (elements₁ ++ elements₂)
  | _, v => v

def overlaySlots : List (Option Value) → List (Option Value) → List (Option Value)
  | [], slots₂ => slots₂
  | slots₁, [] => slots₁
  | slot₁ :: slots₁, slot₂ :: slots₂ => overlaySlot slot₁ slot₂ :: overlaySlots slots₁ slots₂

/-- The same for what may be absent. -/
def overlaySlot : Option Value → Option Value → Option Value
  | none, slot => slot
  | slot, none => slot
  | some v₁, some v₂ => some (v₁.overlay v₂)

end

@[simp] theorem overlaySlot_none_left (slot : Option Value) : overlaySlot none slot = slot := by
  rw [overlaySlot]

@[simp] theorem overlaySlot_none_right (slot : Option Value) : overlaySlot slot none = slot := by
  cases slot <;> rw [overlaySlot]
  exact Option.some_ne_none _

@[simp] theorem overlaySlot_some (v₁ v₂ : Value) : overlaySlot (some v₁) (some v₂) = some (v₁.overlay v₂) := by
  rw [overlaySlot]

@[simp] theorem overlay_scalar (v : Value) (type : ElementaryType) (x : Int) :
    v.overlay (.scalar type x) = .scalar type x := by
  cases v <;> simp [overlay]

@[simp] theorem overlay_string (v : Value) (data : List Char) : v.overlay (.string data) = .string data := by
  cases v <;> simp [overlay]

theorem overlaySlot_eq_some_right {slot : Option Value} {v : Value}
    (h : ∀ w, overlay w v = v) : overlaySlot slot (some v) = some v := by
  cases slot with
  | none => exact overlaySlot_none_left _
  | some w => rw [overlaySlot_some, h]

theorem overlaySlot_eq_none {slot₁ slot₂ : Option Value} :
    overlaySlot slot₁ slot₂ = none ↔ slot₁ = none ∧ slot₂ = none := by
  cases slot₁ <;> cases slot₂ <;> simp

theorem length_overlaySlots {slots₁ slots₂ : List (Option Value)} (h : slots₁.length = slots₂.length) :
    (overlaySlots slots₁ slots₂).length = slots₁.length := by
  induction slots₁ generalizing slots₂ with
  | nil =>
    rw [overlaySlots]
    exact h.symm
  | cons slot₁ slots₁ ih =>
    cases slots₂ with
    | nil => cases h
    | cons slot₂ slots₂ =>
      rw [overlaySlots, length_cons, length_cons, ih (Nat.succ.inj h)]

theorem getElem?_overlaySlots (slots₁ slots₂ : List (Option Value)) (i : Nat) :
    (overlaySlots slots₁ slots₂)[i]?.join = overlaySlot slots₁[i]?.join slots₂[i]?.join := by
  induction slots₁ generalizing slots₂ i with
  | nil => simp [overlaySlots]
  | cons slot₁ slots₁ ih =>
    cases slots₂ with
    | nil => simp [overlaySlots]
    | cons slot₂ slots₂ =>
      rw [overlaySlots]
      cases i with
      | zero => rfl
      | succ i => exact ih slots₂ i

end Value

open Value

variable {S : Schema} {k : Nat} {a b c : Option Value}

theorem getAddressOf_overlaySlot (ha : TableOf S k a) (hb : TableOf S k b) (i : Nat) :
    getAddressOf (overlaySlot a b) i = overlaySlot (getAddressOf a i) (getAddressOf b i) := by
  cases a with
  | none => simp
  | some v₁ =>
    cases b with
    | none => simp
    | some v₂ =>
      rw [overlaySlot_some, (ha v₁ rfl).eq_table, (hb v₂ rfl).eq_table, overlay]
      exact getElem?_overlaySlots _ _ _

theorem table_ext {v w : Value} (hv : v.HasKind S (.table k)) (hw : w.HasKind S (.table k))
    (h : ∀ i, getAddressOf (some v) i = getAddressOf (some w) i) : v = w := by
  rw [hv.eq_table, hw.eq_table]
  congr 1
  apply ext_getElem (hv.length_slots.trans hw.length_slots.symm)
  intro i hi1 hi2
  have hi : v.slots[i]?.join = w.slots[i]?.join := h i
  rwa [getElem?_eq_getElem hi1, getElem?_eq_getElem hi2] at hi

theorem hasKind_table {slots : List (Option Value)} (hlength : slots.length = (S.typeTable k).numElems)
    (h : ∀ i v code, getAddressOf (some (.table slots)) i = some v → S.typeCode k i = some code →
      v.HasKind S code.kind) : (table slots).HasKind S (.table k) := by
  apply HasKind.table hlength
  intro i v code hv hcode
  apply h i v code _ hcode
  exact Option.join_eq_some_iff.mpr hv

theorem hasKind_overlay {v₁ v₂ : Value} {kind : Kind} (h1 : v₁.HasKind S kind)
    (h2 : v₂.HasKind S kind) : (v₁.overlay v₂).HasKind S kind := by
  induction v₁ using induct generalizing v₂ kind with
  | scalar | string =>
    rw [overlay]
    · exact h2
    · intro _ _ h
      cases h
    · intro _ _ h
      cases h
  | vector elements ih =>
    cases h1 with
    | vector helements1 =>
      cases h2 with
      | vector helements2 =>
        rw [overlay]
        apply HasKind.vector
        intro v hv
        obtain hv | hv := mem_append.mp hv
        · exact helements1 v hv
        · exact helements2 v hv
  | table slots ih =>
    have ht1 := h1
    have ht2 := h2
    cases h1 with
    | table hlength1 hfields1 =>
      cases h2 with
      | table hlength2 hfields2 =>
        rw [overlay]
        apply hasKind_table ((length_overlaySlots (hlength1.trans hlength2.symm)).trans hlength1)
        intro i v code hv hcode
        rename_i k slots₂
        have hslot : overlaySlot (getAddressOf (some (.table slots)) i)
            (getAddressOf (some (.table slots₂)) i) = some v := by
          rw [← getAddressOf_overlaySlot (TableOf.some ht1) (TableOf.some ht2), overlaySlot_some, overlay]
          exact hv
        cases hv1 : getAddressOf (some (.table slots)) i with
        | none =>
          rw [hv1, overlaySlot_none_left] at hslot
          exact (TableOf.some ht2).field hcode hslot
        | some w1 =>
          have hkind1 := (TableOf.some ht1).field hcode hv1
          cases hv2 : getAddressOf (some (.table slots₂)) i with
          | none =>
            rw [hv1, hv2, overlaySlot_none_right] at hslot
            exact Option.some.inj hslot ▸ hkind1
          | some w2 =>
            rw [hv1, hv2, overlaySlot_some] at hslot
            rw [← Option.some.inj hslot]
            exact ih w1 (mem_slots_of_getAddressOf hv1) hkind1
              ((TableOf.some ht2).field hcode hv2)

theorem tableOf_overlaySlot (ha : TableOf S k a) (hb : TableOf S k b) : TableOf S k (overlaySlot a b) := by
  cases a with
  | none => simpa using hb
  | some v₁ =>
    cases b with
    | none => simpa using ha
    | some v₂ =>
      rw [overlaySlot_some]
      exact TableOf.some (hasKind_overlay (ha v₁ rfl) (hb v₂ rfl))

theorem overlaySlot_assoc_of {a b c : Option Value}
    (h : ∀ v₁ ∈ a, ∀ v₂ ∈ b, ∀ v3 ∈ c, (v₁.overlay v₂).overlay v3 = v₁.overlay (v₂.overlay v3)) :
    overlaySlot (overlaySlot a b) c = overlaySlot a (overlaySlot b c) := by
  cases a with
  | none => simp
  | some v₁ =>
    cases b with
    | none => simp
    | some v₂ =>
      cases c with
      | none => simp
      | some v3 =>
        simp only [overlaySlot_some]
        exact congrArg some (h v₁ rfl v₂ rfl v3 rfl)

theorem overlay_assoc {v₁ v₂ v3 : Value} {kind : Kind} (h1 : v₁.HasKind S kind)
    (h2 : v₂.HasKind S kind) (h3 : v3.HasKind S kind) : (v₁.overlay v₂).overlay v3 = v₁.overlay (v₂.overlay v3) := by
  induction v₁ using induct generalizing v₂ v3 kind with
  | scalar | string =>
    cases h1
    cases h2
    cases h3
    simp [overlay]
  | vector elements _ =>
    cases h1
    cases h2
    cases h3
    simp [overlay, append_assoc]
  | table slots ih =>
    obtain ⟨k, rfl⟩ : ∃ k, kind = .table k := by
      cases h1
      exact ⟨_, rfl⟩
    have h12 := hasKind_overlay h1 h2
    have h23 := hasKind_overlay h2 h3
    apply table_ext (hasKind_overlay h12 h3) (hasKind_overlay h1 h23)
    intro i
    simp only [← overlaySlot_some]
    rw [getAddressOf_overlaySlot (tableOf_overlaySlot (TableOf.some h1) (TableOf.some h2))
        (TableOf.some h3),
      getAddressOf_overlaySlot (TableOf.some h1)
        (tableOf_overlaySlot (TableOf.some h2) (TableOf.some h3)),
      getAddressOf_overlaySlot (TableOf.some h1) (TableOf.some h2),
      getAddressOf_overlaySlot (TableOf.some h2) (TableOf.some h3)]
    apply overlaySlot_assoc_of
    intro w1 hw1 w2 hw2 w3 hw3
    cases hcode : S.typeCode k i with
    | none =>
      -- beyond the fields of the type there is no slot
      have hi : (S.typeTable k).numElems ≤ i := getElem?_eq_none_iff.mp hcode
      have hslot : (table slots).slots[i]?.join = some w1 := hw1
      rw [getElem?_eq_none (h1.length_slots ▸ hi)] at hslot
      cases hslot
    | some code =>
      exact ih w1 (mem_slots_of_getAddressOf hw1) ((TableOf.some h1).field hcode hw1)
        ((TableOf.some h2).field hcode hw2) ((TableOf.some h3).field hcode hw3)

theorem overlaySlot_assoc (ha : TableOf S k a) (hb : TableOf S k b) (hc : TableOf S k c) :
    overlaySlot (overlaySlot a b) c = overlaySlot a (overlaySlot b c) := by
  apply overlaySlot_assoc_of
  intro v₁ hv1 v₂ hv2 v3 hv3
  exact overlay_assoc (ha v₁ hv1) (hb v₂ hv2) (hc v3 hv3)

def emptyTable (S : Schema) (k : Nat) : Value :=
  .table (replicate (S.typeTable k).numElems none)

theorem getAddressOf_emptyTable (i : Nat) : getAddressOf (some (emptyTable S k)) i = none := by
  change (replicate _ none)[i]?.join = none
  rw [getElem?_replicate]
  split <;> rfl

theorem hasKind_emptyTable : (emptyTable S k).HasKind S (.table k) := by
  apply hasKind_table length_replicate
  intro i v code hv
  exact absurd ((getAddressOf_emptyTable i).symm.trans hv) (by simp)

end RobotCode.Flatbuffers
