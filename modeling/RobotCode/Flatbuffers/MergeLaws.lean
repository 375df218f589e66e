import RobotCode.Flatbuffers.Merge
import RobotCode.Flatbuffers.Overlay

/-!
# What a merge of tables writes

`mergeTable_spec`: whatever the builder held before, `MergeFlatBuffers` adds the overlay of the two
tables to it and returns its offset. The two passes together give every field of the type once: the
first those that are offsets, the second the scalars, and the offsets remembered in between still
lead to what was written for their field. The laws of the merge are then those of the overlay.
-/

namespace RobotCode.Flatbuffers

open Value List Builder.Extends

/-- The merge of two tables, either of which may be absent. -/
def merged (S : Schema) (k : Nat) (t1 t2 : Option Value) : Value :=
  (overlaySlot t1 t2).getD (emptyTable S k)

theorem writeAll_spec {α : Type} {write : α → Builder → Offset × Builder} (value : α → Value)
    {xs : List α} (hwrite : ∀ x ∈ xs, ∀ fbb, Writes fbb (write x fbb) (value x)) (fbb : Builder) :
    Builder.Extends fbb (writeAll write xs fbb).2 ∧
      (writeAll write xs fbb).1.map (writeAll write xs fbb).2.read = xs.map (some ∘ value) := by
  induction xs generalizing fbb with
  | nil => exact ⟨refl fbb, rfl⟩
  | cons x xs ih =>
    have hx := hwrite x mem_cons_self fbb
    obtain ⟨hkept, hfound⟩ := ih (fun y hy => hwrite y (mem_cons_of_mem x hy)) (write x fbb).2
    refine ⟨hx.kept.trans hkept, ?_⟩
    rw [writeAll, map_cons, map_cons, hfound, hkept.read hx.found]
    rfl

variable {S : Schema} {k i : Nat} {t1 t2 : Option Value}

theorem length_vectors : (vectorOf i t1 ++ vectorOf i t2).length = vectorSize i t1 t2 := length_append

theorem reverse_packOrder : (packOrder i t1 t2).reverse = vectorOf i t1 ++ vectorOf i t2 := by
  simp [packOrder]

variable {t : Option Value} {element : Kind} {v : Value}

theorem overlaySlot_vectors (h1 : ∀ v ∈ getAddressOf t1 i, v.HasKind S (.vector element))
    (h2 : ∀ v ∈ getAddressOf t2 i, v.HasKind S (.vector element))
    (hhas : (getAddressOf t1 i).isSome || (getAddressOf t2 i).isSome) :
    overlaySlot (getAddressOf t1 i) (getAddressOf t2 i)
      = some (.vector (vectorOf i t1 ++ vectorOf i t2)) := by
  unfold vectorOf
  cases hv1 : getAddressOf t1 i with
  | none =>
    cases hv2 : getAddressOf t2 i with
    | none => exact absurd hhas (by simp [hv1, hv2])
    | some v2 =>
      cases h2 v2 hv2
      simp [elements]
  | some v1 =>
    cases h1 v1 hv1
    cases hv2 : getAddressOf t2 i with
    | none => simp [elements]
    | some v2 =>
      cases h2 v2 hv2
      simp [elements, overlay]

theorem addVector_spec (p : Pass) (h1 : ∀ v ∈ getAddressOf t1 i, v.HasKind S (.vector element))
    (h2 : ∀ v ∈ getAddressOf t2 i, v.HasKind S (.vector element))
    (hhas : (getAddressOf t1 i).isSome || (getAddressOf t2 i).isSome) :
    ∃ r v, addVector i t1 t2 p = p.emplaceBack i r ∧ Writes p.fbb r v ∧
      overlaySlot (getAddressOf t1 i) (getAddressOf t2 i) = some v := by
  rw [addVector, if_pos hhas]
  refine ⟨_, _, rfl, ?_, overlaySlot_vectors h1 h2 hhas⟩
  have hread : ∀ fbb : Builder, fbb.readInline ∘ Inline.scalar = some := fun _ => rfl
  set fbb := (packOrder i t1 t2).foldl (fun fbb v => fbb.pushElement (.scalar v)) p.fbb.startVector
    with hfbb
  have hpushed : fbb.pushed.map fbb.readInline = (vectorOf i t1 ++ vectorOf i t2).map some := by
    have : fbb.pushed = ((packOrder i t1 t2).map Inline.scalar).reverse := by simp [hfbb]
    rw [this, ← map_reverse, reverse_packOrder, map_map, hread]
  have hspec := endVector_spec fbb hpushed length_vectors
  have hobjects : fbb.objects = p.fbb.objects := by simp [hfbb]
  exact ⟨(of_eq hobjects).trans hspec.kept, hspec.found⟩

theorem addVectorOf_spec {write : Value → Builder → Offset × Builder} (p : Pass)
    (h1 : ∀ v ∈ getAddressOf t1 i, v.HasKind S (.vector element))
    (h2 : ∀ v ∈ getAddressOf t2 i, v.HasKind S (.vector element))
    (hwrite : ∀ v ∈ packOrder i t1 t2, ∀ fbb, Writes fbb (write v fbb) v)
    (hhas : (getAddressOf t1 i).isSome || (getAddressOf t2 i).isSome) :
    ∃ r v, addVectorOf i t1 t2 write p = p.emplaceBack i r ∧ Writes p.fbb r v ∧
      overlaySlot (getAddressOf t1 i) (getAddressOf t2 i) = some v := by
  rw [addVectorOf, if_pos hhas]
  refine ⟨_, _, rfl, ?_, overlaySlot_vectors h1 h2 hhas⟩
  obtain ⟨hkept, hfound⟩ := writeAll_spec id hwrite p.fbb
  set written := writeAll write (packOrder i t1 t2) p.fbb
  set fbb := written.1.foldl (fun fbb o => fbb.pushElement (.offset o)) written.2.startVector
    with hfbb
  -- pushing offsets writes nothing, so the offsets still lead to their objects
  have hobjects : fbb.objects = written.2.objects := by simp [hfbb]
  have hread : fbb.readInline ∘ Inline.offset = written.2.read := by
    funext o
    cases o with
    | zero => rfl
    | succ o => exact congrArg (fun objects => objects[o]?) hobjects
  have hpushed : fbb.pushed.map fbb.readInline = (vectorOf i t1 ++ vectorOf i t2).map some := by
    have : fbb.pushed = (written.1.map Inline.offset).reverse := by simp [hfbb]
    rw [this, map_reverse, map_map, hread, hfound, ← map_reverse, reverse_packOrder]
    rfl
  have hspec := endVector_spec fbb hpushed length_vectors
  exact ⟨hkept.trans ((of_eq hobjects).trans hspec.kept), hspec.found⟩

/-! ### The first pass -/

def TypeCode.IsOffset (code : TypeCode) : Prop :=
  code.isRepeating = true ∨ ¬ code.baseType.IsScalar

instance (code : TypeCode) : Decidable code.IsOffset := inferInstanceAs (Decidable (_ ∨ _))

def mergedField (t1 t2 : Option Value) (i : Nat) : Option Value :=
  overlaySlot (getAddressOf t1 i) (getAddressOf t2 i)

theorem isSome_mergedField (t1 t2 : Option Value) (i : Nat) : (mergedField t1 t2 i).isSome
    = ((getAddressOf t1 i).isSome || (getAddressOf t2 i).isSome) := by
  unfold mergedField
  cases getAddressOf t1 i <;> cases getAddressOf t2 i <;> simp

def MergesBelow (S : Schema) (t1 t2 : Option Value)
    (merge : Nat → Option Value → Option Value → Builder → Offset × Builder) : Prop :=
  ∀ k' u1 u2 fbb, TableOf S k' u1 → TableOf S k' u2 → nesting u1 < max (nesting t1) (nesting t2) →
    nesting u2 < max (nesting t1) (nesting t2) → Writes fbb (merge k' u1 u2 fbb) (merged S k' u1 u2)

theorem depth_lt_of_getAddressOf (h : getAddressOf t i = some v) : v.depth < nesting t := by
  cases t with
  | none => cases h
  | some w =>
    have hmem := mem_slots_of_getAddressOf h
    cases w with
    | table slots => exact Nat.lt_succ_of_le (depth_le_of_mem_slots hmem)
    | scalar | string | vector => exact absurd hmem not_mem_nil

theorem depth_lt_of_mem_vectorOf (h : v ∈ vectorOf i t) : v.depth < nesting t := by
  unfold vectorOf at h
  cases hw : getAddressOf t i with
  | none => exact absurd h (by simp [hw])
  | some w =>
    have hle := depth_lt_of_getAddressOf hw
    rw [hw] at h
    cases w with
    | vector elements =>
      have hv := depth_le_of_mem_elements (show v ∈ elements from h)
      have hdepth : depth (.vector elements) = depthElements elements + 1 := rfl
      omega
    | scalar | string | table => exact absurd h not_mem_nil

theorem hasKind_of_mem_vectorOf (ht : ∀ w ∈ getAddressOf t i, w.HasKind S (.vector element)) (h : v ∈ vectorOf i t) :
    v.HasKind S element := by
  unfold vectorOf at h
  cases hw : getAddressOf t i with
  | none => exact absurd h (by simp [hw])
  | some w =>
    rw [hw] at h
    cases ht w hw with
    | vector helements => exact helements v h

theorem nesting_field_lt_max (hv : mergedField t1 t2 i = some v) :
    nesting (getAddressOf t1 i) < max (nesting t1) (nesting t2) ∧
      nesting (getAddressOf t2 i) < max (nesting t1) (nesting t2) := by
  have hlt : ∀ t, nesting (getAddressOf t i) < nesting t ∨ getAddressOf t i = none ∧ nesting (getAddressOf t i) = 0 := by
    intro t
    cases hw : getAddressOf t i with
    | none => exact .inr ⟨rfl, rfl⟩
    | some w => exact .inl (depth_lt_of_getAddressOf hw)
  rcases hlt t1 with h1 | ⟨hnone1, h1⟩ <;> rcases hlt t2 with h2 | ⟨hnone2, h2⟩
  any_goals omega
  cases (overlaySlot_eq_none.mpr ⟨hnone1, hnone2⟩).symm.trans hv

section

variable {merge : Nat → Option Value → Option Value → Builder → Offset × Builder} {code : TypeCode}
  {v : Value}

theorem TableOf.vectorField (h : TableOf S k t) (hcode : S.typeCode k i = Option.some code)
    (hrepeating : code.isRepeating = true) : ∀ w ∈ getAddressOf t i, w.HasKind S (.vector code.elementKind) :=
  fun _ hw => (show code.kind = .vector code.elementKind from if_pos hrepeating) ▸ h.field hcode hw

section

variable (h1 : TableOf S k t1) (h2 : TableOf S k t2) (hmerge : MergesBelow S t1 t2 merge) (hcode : S.typeCode k i = some code) (hutype : code.baseType ≠ .utype)

include h1 h2 hmerge hcode hutype

theorem firstPass_vector (hrepeating : code.isRepeating = true) (hv : mergedField t1 t2 i = some v) (p : Pass) :
    ∃ r, firstPass merge t1 t2 p (code, i) = p.emplaceBack i r ∧ Writes p.fbb r v := by
  have hf1 := h1.vectorField hcode hrepeating
  have hf2 := h2.vectorField hcode hrepeating
  have hhas : ((getAddressOf t1 i).isSome || (getAddressOf t2 i).isSome) = true := by
    rw [← isSome_mergedField, hv]
    rfl
  have hmem : ∀ w ∈ packOrder i t1 t2, w.HasKind S code.elementKind ∧
      w.depth < max (nesting t1) (nesting t2) := by
    intro w hw
    obtain hw | hw := mem_append.mp hw
    · have hw := mem_reverse.mp hw
      exact ⟨hasKind_of_mem_vectorOf hf2 hw,
        Nat.lt_of_lt_of_le (depth_lt_of_mem_vectorOf hw) (Nat.le_max_right _ _)⟩
    · have hw := mem_reverse.mp hw
      exact ⟨hasKind_of_mem_vectorOf hf1 hw,
        Nat.lt_of_lt_of_le (depth_lt_of_mem_vectorOf hw) (Nat.le_max_left _ _)⟩
  have hpick : ∀ {p' : Pass}, (∃ r w, p' = p.emplaceBack i r ∧ Writes p.fbb r w ∧
      mergedField t1 t2 i = some w) → ∃ r, p' = p.emplaceBack i r ∧ Writes p.fbb r v := by
    intro p' h
    obtain ⟨r, w, hp, hw, hfield⟩ := h
    exact ⟨r, hp, Option.some.inj (hfield.symm.trans hv) ▸ hw⟩
  rcases code with ⟨type, repeating, ref⟩
  cases hrepeating
  cases type with
  | utype => exact absurd rfl hutype
  | string =>
    apply hpick
    apply addVectorOf_spec p hf1 hf2 _ hhas
    intro w hw fbb
    cases (hmem w hw).1
    exact fbb.writes _
  | sequence =>
    apply hpick
    apply addVectorOf_spec p hf1 hf2 _ hhas
    intro w hw fbb
    obtain ⟨hkind, hdepth⟩ := hmem w hw
    have hspec := hmerge _ (some w) none fbb (TableOf.some hkind) TableOf.none hdepth
      (Nat.lt_of_le_of_lt (Nat.zero_le _) hdepth)
    rwa [merged, overlaySlot_none_right] at hspec
  | _ => exact hpick (addVector_spec p hf1 hf2 hhas)

theorem firstPass_single (hrepeating : code.isRepeating = false)
    (hscalar : ¬ code.baseType.IsScalar) (hv : mergedField t1 t2 i = some v) (p : Pass) :
    ∃ r, firstPass merge t1 t2 p (code, i) = p.emplaceBack i r ∧ Writes p.fbb r v := by
  have hf1 := fun w hw => h1.field (v := w) hcode hw
  have hf2 := fun w hw => h2.field (v := w) hcode hw
  rcases code with ⟨type, repeating, ref⟩
  cases hrepeating
  cases type with
  | utype => exact absurd rfl hutype
  | string =>
    change ∃ r, mergeString i t1 t2 p = _ ∧ _
    unfold mergeString
    unfold mergedField at hv
    cases hw2 : getAddressOf t2 i with
    | some w2 =>
      cases hf2 w2 hw2
      rw [hw2, overlaySlot_eq_some_right fun w => overlay_string w _] at hv
      cases hv
      exact ⟨_, rfl, p.fbb.writes _⟩
    | none =>
      rw [hw2, overlaySlot_none_right] at hv
      cases hf1 v hv
      rw [hv]
      exact ⟨_, rfl, p.fbb.writes _⟩
  | sequence =>
    have hhas : ((getAddressOf t1 i).isSome || (getAddressOf t2 i).isSome) = true := by
      rw [← isSome_mergedField, hv]
      rfl
    have hdepth := nesting_field_lt_max hv
    change ∃ r, mergeTables i t1 t2 (merge _) p = _ ∧ _
    rw [mergeTables, if_pos hhas]
    refine ⟨_, rfl, ?_⟩
    have hspec := hmerge _ _ _ p.fbb hf1 hf2 hdepth.1 hdepth.2
    rwa [merged, show overlaySlot _ _ = some v from hv, Option.getD_some] at hspec
  | _ => exact absurd trivial hscalar

end

theorem firstPass_skip (hskip : mergedField t1 t2 i = none ∨ ¬ code.IsOffset) (p : Pass) :
    firstPass merge t1 t2 p (code, i) = p := by
  obtain hnone | hscalar := hskip
  · obtain ⟨h1, h2⟩ := overlaySlot_eq_none.mp hnone
    rcases code with ⟨type, repeating, ref⟩
    cases type <;> cases repeating <;>
      simp [firstPass, addVectorOfStrings, addVectorOfObjects, addVectorOf, addVector, mergeString,
        mergeTables, h1, h2]
  · rcases code with ⟨type, repeating, ref⟩
    cases repeating with
    | true => exact absurd (.inl rfl) hscalar
    | false =>
      cases type with
      | utype | string | sequence => exact absurd (.inr id) hscalar
      | _ => rfl

def offsetField (t1 t2 : Option Value) (field : TypeCode × Nat) : Option Value :=
  if field.1.IsOffset then mergedField t1 t2 field.2 else none

def scalarField (t1 t2 : Option Value) (field : TypeCode × Nat) : Option Value :=
  if field.1.IsOffset then none else mergedField t1 t2 field.2

def present (value : TypeCode × Nat → Option Value) (fields : List (TypeCode × Nat)) :
    List (Nat × Value) :=
  fields.filterMap fun field => (value field).map (field.2, ·)

theorem present_cons_none {value : TypeCode × Nat → Option Value} {field : TypeCode × Nat}
    (h : value field = none) (fields : List (TypeCode × Nat)) :
    present value (field :: fields) = present value fields :=
  filterMap_cons_none (by rw [h]; rfl)

theorem present_cons_some {value : TypeCode × Nat → Option Value} {field : TypeCode × Nat}
    (h : value field = some v) (fields : List (TypeCode × Nat)) :
    present value (field :: fields) = (field.2, v) :: present value fields :=
  filterMap_cons_some (by rw [h]; rfl)

section

variable (value : TypeCode × Nat → Option Value) (codes : List TypeCode)

theorem lookup_present_zipIdx_of_lt
    {start j : Nat} (hj : j < start) : (present value (codes.zipIdx start)).lookup j = none := by
  induction codes generalizing start with
  | nil => rfl
  | cons code codes ih =>
    have hrest := ih (Nat.lt_succ_of_lt hj)
    rw [zipIdx_cons]
    cases hv : value (code, start) with
    | none =>
      rw [present_cons_none hv]
      exact hrest
    | some v =>
      have hne : (j == start) = false := beq_false_of_ne (Nat.ne_of_lt hj)
      rw [present_cons_some hv, lookup_cons, hne]
      exact hrest

theorem lookup_present_zipIdx (start i : Nat) : (present value (codes.zipIdx start)).lookup (start + i)
      = codes[i]?.bind fun code => value (code, start + i) := by
  induction codes generalizing start i with
  | nil => rfl
  | cons code codes ih =>
    rw [zipIdx_cons]
    cases i with
    | zero =>
      cases hv : value (code, start) with
      | none =>
        rw [present_cons_none hv, Nat.add_zero, lookup_present_zipIdx_of_lt value codes (Nat.lt_succ_self _)]
        exact hv.symm
      | some v =>
        rw [present_cons_some hv]
        simp [hv]
    | succ i =>
      have hrest : (present value (codes.zipIdx (start + 1))).lookup (start + (i + 1))
          = (code :: codes)[i + 1]?.bind fun code => value (code, start + (i + 1)) := by
        have := ih (start + 1) i
        rwa [show start + 1 + i = start + (i + 1) by omega] at this
      cases hv : value (code, start) with
      | none =>
        rw [present_cons_none hv]
        exact hrest
      | some v =>
        rw [present_cons_some hv, lookup_cons]
        have hne : (start + (i + 1) == start) = false := by simp
        rw [hne]
        exact hrest

end

def Remembers (fbb : Builder) (elements : List (Nat × Offset)) (values : List (Nat × Value)) : Prop :=
  List.Forall₂ (fun e w => e.1 = w.1 ∧ fbb.read e.2 = some w.2) elements values

theorem Remembers.mono {fbb fbb' : Builder} {elements : List (Nat × Offset)}
    {values : List (Nat × Value)} (h : Remembers fbb elements values)
    (hext : Builder.Extends fbb fbb') : Remembers fbb' elements values :=
  List.Forall₂.imp (fun _ _ he => ⟨he.1, hext.read he.2⟩) h

/-- The first pass over fields of the type remembers an offset for each offset field that is
present, and keeps what was there. -/
theorem foldl_firstPass (hS : S.NoUnions) (h1 : TableOf S k t1) (h2 : TableOf S k t2)
    (hmerge : MergesBelow S t1 t2 merge) (fields : List (TypeCode × Nat))
    (hfields : ∀ field ∈ fields, S.typeCode k field.2 = some field.1) (p : Pass)
    {values : List (Nat × Value)} (hp : Remembers p.fbb p.elements values) :
    Builder.Extends p.fbb (fields.foldl (firstPass merge t1 t2) p).fbb ∧
      Remembers (fields.foldl (firstPass merge t1 t2) p).fbb
        (fields.foldl (firstPass merge t1 t2) p).elements (values ++ present (offsetField t1 t2) fields) := by
  induction fields generalizing p values with
  | nil => exact ⟨refl _, by simpa [present] using hp⟩
  | cons field fields ih =>
    have hfield := hfields field mem_cons_self
    have hrest := fun f hf => hfields f (mem_cons_of_mem field hf)
    rw [foldl_cons]
    by_cases hskip : mergedField t1 t2 field.2 = none ∨ ¬ field.1.IsOffset
    · have hnone : offsetField t1 t2 field = none := by
        unfold offsetField
        obtain hnone | hscalar := hskip
        · simp [hnone]
        · exact if_neg hscalar
      rw [firstPass_skip hskip, present_cons_none hnone]
      exact ih hrest p hp
    · obtain ⟨hpresent, hoffset⟩ := not_or.mp hskip
      obtain ⟨v, hv⟩ := Option.ne_none_iff_exists'.mp hpresent
      have hoffset := Decidable.not_not.mp hoffset
      have hstep : ∃ r, firstPass merge t1 t2 p field = p.emplaceBack field.2 r ∧ Writes p.fbb r v := by
        cases hrepeating : field.1.isRepeating with
        | true => exact firstPass_vector h1 h2 hmerge hfield (hS.baseType hfield) hrepeating hv p
        | false =>
          have hscalar : ¬ field.1.baseType.IsScalar := hoffset.resolve_left (by simp [hrepeating])
          exact firstPass_single h1 h2 hmerge hfield (hS.baseType hfield) hrepeating hscalar hv p
      obtain ⟨r, hr, hwrites⟩ := hstep
      have hsome : offsetField t1 t2 field = some v := (if_pos hoffset).trans hv
      have hp' : Remembers r.2 (p.elements ++ [(field.2, r.1)]) (values ++ [(field.2, v)]) :=
        rel_append (hp.mono hwrites.kept) (.cons ⟨rfl, hwrites.found⟩ .nil)
      obtain ⟨hext, hremembers⟩ := ih hrest (p.emplaceBack field.2 r) hp'
      rw [hr, present_cons_some hsome]
      refine ⟨hwrites.kept.trans hext, ?_⟩
      rwa [append_assoc] at hremembers

end

theorem secondPass_offset {code : TypeCode} (hoffset : code.IsOffset) (fbb : Builder) :
    secondPass t1 t2 fbb (code, i) = fbb := by
  rcases code with ⟨type, repeating, ref⟩
  obtain hrepeating | hscalar := hoffset
  · cases hrepeating
    rfl
  · cases repeating with
    | true => rfl
    | false =>
      cases type with
      | utype | string | sequence => rfl
      | _ => exact absurd trivial hscalar

theorem secondPass_scalar {code : TypeCode} (h2 : TableOf S k t2)
    (hcode : S.typeCode k i = some code) (hscalar : ¬ code.IsOffset) (fbb : Builder) :
    secondPass t1 t2 fbb (code, i) = match mergedField t1 t2 i with
      | some v => fbb.addElement i v
      | none => fbb := by
  obtain ⟨hrepeating, htype⟩ := not_or.mp hscalar
  have htype := Decidable.not_not.mp htype
  have hkind : code.kind = .scalar code.baseType :=
    (if_neg hrepeating).trans (TypeCode.elementKind_of_isScalar htype)
  have hstep : secondPass t1 t2 fbb (code, i) = mergeElement i t1 t2 fbb := by
    rcases code with ⟨type, repeating, ref⟩
    cases repeating with
    | true => exact absurd rfl hrepeating
    | false =>
      cases type with
      | utype | string | sequence => exact absurd htype id
      | _ => rfl
  rw [hstep, mergeElement, mergedField]
  cases hw2 : getAddressOf t2 i with
  | some w2 =>
    have hw2 := h2.field hcode hw2
    rw [hkind] at hw2
    cases hw2
    rw [overlaySlot_eq_some_right fun w => overlay_scalar w _ _]
  | none => cases getAddressOf t1 i <;> simp only [overlaySlot_none_right]

theorem foldl_secondPass (t1 : Option Value) (h2 : TableOf S k t2) (fields : List (TypeCode × Nat))
    (hfields : ∀ field ∈ fields, S.typeCode k field.2 = some field.1) (fbb : Builder) :
    (fields.foldl (secondPass t1 t2) fbb).objects = fbb.objects ∧
      (fields.foldl (secondPass t1 t2) fbb).fields = fbb.fields ++
        (present (scalarField t1 t2) fields).map fun field => (field.1, .scalar field.2) := by
  induction fields generalizing fbb with
  | nil => exact ⟨rfl, by simp [present]⟩
  | cons field fields ih =>
    have hrest := fun f hf => hfields f (mem_cons_of_mem field hf)
    obtain ⟨hobjects, hadded⟩ := ih hrest (secondPass t1 t2 fbb field)
    rw [foldl_cons, hobjects, hadded]
    by_cases hoffset : field.1.IsOffset
    · rw [present_cons_none (if_pos hoffset), secondPass_offset hoffset]
      exact ⟨rfl, rfl⟩
    · rw [secondPass_scalar h2 (hfields field mem_cons_self) hoffset]
      have hvalue : scalarField t1 t2 field = mergedField t1 t2 field.2 := if_neg hoffset
      cases hv : mergedField t1 t2 field.2 with
      | none =>
        rw [present_cons_none (hvalue.trans hv)]
        exact ⟨rfl, rfl⟩
      | some v =>
        rw [present_cons_some (hvalue.trans hv), map_cons, ← singleton_append, ← append_assoc]
        exact ⟨rfl, rfl⟩

theorem tableOf_merged (h1 : TableOf S k t1) (h2 : TableOf S k t2) : (merged S k t1 t2).HasKind S (.table k) := by
  unfold merged
  cases hslot : overlaySlot t1 t2 with
  | none => exact hasKind_emptyTable
  | some v => exact tableOf_overlaySlot h1 h2 v hslot

theorem getAddressOf_merged (h1 : TableOf S k t1) (h2 : TableOf S k t2) (i : Nat) :
    getAddressOf (some (merged S k t1 t2)) i = mergedField t1 t2 i := by
  rw [mergedField, ← getAddressOf_overlaySlot h1 h2, merged]
  cases hslot : overlaySlot t1 t2 with
  | none => exact getAddressOf_emptyTable i
  | some v => rfl

theorem lookup_scalars_append (fbb : Builder) (values : List (Nat × Value)) (rest : List (Nat × Inline)) (i : Nat) :
    (((values.map fun field => (field.1, Inline.scalar field.2)) ++ rest).lookup i).bind fbb.readInline
      = (values.lookup i).or ((rest.lookup i).bind fbb.readInline) := by
  induction values with
  | nil => rfl
  | cons field values ih =>
    rw [map_cons, cons_append, lookup_cons, lookup_cons]
    cases i == field.1 with
    | true => rfl
    | false => exact ih

theorem lookup_remembered {fbb : Builder} {elements : List (Nat × Offset)}
    {values : List (Nat × Value)} (h : Remembers fbb elements values) (i : Nat) :
    ((elements.map fun e => (e.1, Inline.offset e.2)).lookup i).bind fbb.readInline = values.lookup i := by
  induction h with
  | nil => rfl
  | cons he _ ih =>
    rw [map_cons, lookup_cons, lookup_cons, he.1]
    split
    · exact he.2
    · exact ih

theorem builtTable_eq {fbb : Builder} {elements : List (Nat × Offset)} (h1 : TableOf S k t1) (h2 : TableOf S k t2)
    (hremembers : Remembers fbb elements (present (offsetField t1 t2) (S.typeTable k).typeCodes.zipIdx))
    (hfields : fbb.fields = (present (scalarField t1 t2) (S.typeTable k).typeCodes.zipIdx).map
      (fun field => (field.1, .scalar field.2)) ++ elements.map fun e => (e.1, .offset e.2)) :
    fbb.builtTable (S.typeTable k).numElems = merged S k t1 t2 := by
  have hkind := tableOf_merged h1 h2
  rw [hkind.eq_table, Builder.builtTable]
  congr 1
  apply ext_getElem
  · rw [length_map, length_range, hkind.length_slots]
  · intro i hi hi'
    rw [getElem_map, getElem_range]
    have hslot : (merged S k t1 t2).slots[i]?.join = mergedField t1 t2 i := getAddressOf_merged h1 h2 i
    rw [getElem?_eq_getElem hi'] at hslot
    refine Eq.trans ?_ hslot.symm
    have hi : i < (S.typeTable k).typeCodes.length := by
      rwa [hkind.length_slots] at hi'
    have hlookup := fun value => lookup_present_zipIdx value (S.typeTable k).typeCodes 0 i
    simp only [Nat.zero_add, getElem?_eq_getElem hi, Option.bind_some] at hlookup
    rw [hfields, lookup_scalars_append, lookup_remembered hremembers, hlookup, hlookup]
    unfold scalarField offsetField
    split
    · exact Option.none_or
    · exact Option.or_none

theorem mergeTable_spec (hS : S.NoUnions) (depth : Nat) {k : Nat} {t1 t2 : Option Value}
    (h1 : TableOf S k t1) (h2 : TableOf S k t2) (hd1 : nesting t1 < depth) (hd2 : nesting t2 < depth)
    (fbb : Builder) : Writes fbb (mergeTable S depth k t1 t2 fbb) (merged S k t1 t2) := by
  induction depth generalizing k t1 t2 fbb with
  | zero => exact absurd hd1 (Nat.not_lt_zero _)
  | succ depth ih =>
    have hmerge : MergesBelow S t1 t2 (mergeTable S depth) := by
      intro k' u1 u2 fbb hu1 hu2 hlt1 hlt2
      exact ih hu1 hu2 (by omega) (by omega) fbb
    have hfields : ∀ field ∈ (S.typeTable k).typeCodes.zipIdx, S.typeCode k field.2 = some field.1 := by
      intro field hfield
      exact mem_zipIdx_iff_getElem?.mp hfield
    obtain ⟨hext, hremembers⟩ := foldl_firstPass hS h1 h2 hmerge _ hfields ⟨fbb, []⟩ .nil
    rw [mergeTable]
    set p := (S.typeTable k).typeCodes.zipIdx.foldl (firstPass (mergeTable S depth) t1 t2) ⟨fbb, []⟩
    obtain ⟨hobjects, hscalars⟩ := foldl_secondPass t1 h2 _ hfields p.fbb.startTable
    set fbb2 := (S.typeTable k).typeCodes.zipIdx.foldl (secondPass t1 t2) p.fbb.startTable
    set fbb3 := p.elements.foldl (fun fbb e => fbb.addOffset e.1 e.2) fbb2 with hfbb3
    have hobjects3 : fbb3.objects = p.fbb.objects := by
      rw [hfbb3, Builder.objects_foldl_addOffset, hobjects, Builder.objects_startTable]
    have hkept := of_eq hobjects3
    have hbuilt : fbb3.builtTable (S.typeTable k).numElems = merged S k t1 t2 := by
      apply builtTable_eq h1 h2 (hremembers.mono hkept)
      rw [hfbb3, Builder.fields_foldl_addOffset, hscalars, Builder.fields_startTable, nil_append]
    have hwrites := fbb3.writes (merged S k t1 t2)
    rw [Builder.endTable, hbuilt]
    exact ⟨hext.trans (hkept.trans hwrites.kept), hwrites.found⟩

theorem decodeMerge_eq (hS : S.NoUnions) (h1 : TableOf S k t1) (h2 : TableOf S k t2)
    (fbb : Builder) : decodeMerge S k fbb t1 t2 = some (merged S k t1 t2) :=
  (mergeTable_spec hS _ h1 h2 (by omega) (by omega) fbb).found

/-! ### The laws of the merge -/

section

variable {a b c : Option Value}

theorem merged_assoc (ha : TableOf S k a) (hb : TableOf S k b) (hc : TableOf S k c) :
    merged S k (some (merged S k a b)) c = merged S k a (some (merged S k b c)) := by
  have hab := TableOf.some (tableOf_merged ha hb)
  have hbc := TableOf.some (tableOf_merged hb hc)
  apply table_ext (tableOf_merged hab hc) (tableOf_merged ha hbc)
  intro i
  rw [getAddressOf_merged hab hc, getAddressOf_merged ha hbc, mergedField, mergedField,
    getAddressOf_merged ha hb, getAddressOf_merged hb hc, mergedField, mergedField,
    ← getAddressOf_overlaySlot ha hb, ← getAddressOf_overlaySlot hb hc,
    ← getAddressOf_overlaySlot (tableOf_overlaySlot ha hb) hc,
    ← getAddressOf_overlaySlot ha (tableOf_overlaySlot hb hc), overlaySlot_assoc ha hb hc]

theorem merged_neutral (ha : TableOf S k a) (hb : ∀ i, getAddressOf b i = none)
    (hb' : TableOf S k b) : merged S k a b = a.getD (emptyTable S k) ∧ merged S k b a = a.getD (emptyTable S k) := by
  have hgetD : (a.getD (emptyTable S k)).HasKind S (.table k) := by
    cases a with
    | none => exact hasKind_emptyTable
    | some v => exact ha v rfl
  have hfield : ∀ i, getAddressOf (some (a.getD (emptyTable S k))) i = getAddressOf a i := by
    intro i
    cases a with
    | none => exact getAddressOf_emptyTable i
    | some v => rfl
  apply And.intro
  · apply table_ext (tableOf_merged ha hb') hgetD
    intro i
    rw [getAddressOf_merged ha hb', mergedField, hb, overlaySlot_none_right, hfield]
  · apply table_ext (tableOf_merged hb' ha) hgetD
    intro i
    rw [getAddressOf_merged hb' ha, mergedField, hb, overlaySlot_none_left, hfield]

theorem isSome_vectorField {code : TypeCode} (ha : TableOf S k a) (hb : TableOf S k b)
    (hcode : S.typeCode k i = some code) (hrepeating : code.isRepeating = true)
    (hhas : (getAddressOf a i).isSome || (getAddressOf b i).isSome) :
    mergedField a b i = some (.vector (vectorOf i a ++ vectorOf i b)) :=
  overlaySlot_vectors (ha.vectorField hcode hrepeating) (hb.vectorField hcode hrepeating) hhas

theorem mergedField_single {code : TypeCode} (hS : S.NoUnions) (hb : TableOf S k b)
    (hcode : S.typeCode k i = some code) (hrepeating : code.isRepeating = false)
    (hsequence : code.baseType ≠ .sequence) : mergedField a b i = (getAddressOf b i).or (getAddressOf a i) := by
  unfold mergedField
  cases hv : getAddressOf b i with
  | none => exact overlaySlot_none_right _
  | some v =>
    apply overlaySlot_eq_some_right
    intro w
    have hutype := hS.baseType hcode
    have hkind := hb.field hcode hv
    rw [TypeCode.kind, if_neg (by simp [hrepeating])] at hkind
    rcases code with ⟨type, repeating, ref⟩
    cases type with
    | utype => exact absurd rfl hutype
    | sequence => exact absurd rfl hsequence
    | string =>
      cases hkind
      exact overlay_string w _
    | _ =>
      cases hkind
      exact overlay_scalar w _ _

end

/-- Merging is associative with the absent and the empty table as neutral elements, and acts field by field: the later
scalar or string, the vectors one after the other, nested tables merged. What the builder held before does not matter. -/
theorem mergeFlatBuffers_monoid (S : Schema) (hS : S.NoUnions) (k : Nat) (a b c : Option Value)
    (ha : TableOf S k a) (hb : TableOf S k b) (hc : TableOf S k c) (fbb : Builder) :
    (∃ ab, decodeMerge S k fbb a b = some ab ∧ ab.HasKind S (.table k) ∧
      ∀ fbb', decodeMerge S k fbb' a b = some ab) ∧
    decodeMerge S k fbb (decodeMerge S k fbb a b) c
      = decodeMerge S k fbb a (decodeMerge S k fbb b c) ∧
    (decodeMerge S k fbb a none = some (a.getD (emptyTable S k)) ∧
      decodeMerge S k fbb none a = some (a.getD (emptyTable S k)) ∧
      decodeMerge S k fbb a (some (emptyTable S k)) = some (a.getD (emptyTable S k)) ∧
      decodeMerge S k fbb (some (emptyTable S k)) a = some (a.getD (emptyTable S k))) ∧
    ∀ i code, S.typeCode k i = some code →
      ((getAddressOf (decodeMerge S k fbb a b) i).isSome
        = ((getAddressOf a i).isSome || (getAddressOf b i).isSome)) ∧
      (code.isRepeating = false → code.baseType ≠ .sequence →
        getAddressOf (decodeMerge S k fbb a b) i = (getAddressOf b i).or (getAddressOf a i)) ∧
      (code.isRepeating = true → (getAddressOf a i).isSome || (getAddressOf b i).isSome →
        getAddressOf (decodeMerge S k fbb a b) i
          = some (.vector (vectorOf i a ++ vectorOf i b))) ∧
      (code.isRepeating = false → code.baseType = .sequence →
        (getAddressOf a i).isSome || (getAddressOf b i).isSome →
        getAddressOf (decodeMerge S k fbb a b) i
          = decodeMerge S code.typeRef fbb (getAddressOf a i) (getAddressOf b i)) := by
  have hab := TableOf.some (tableOf_merged ha hb)
  have hbc := TableOf.some (tableOf_merged hb hc)
  have hnone : TableOf S k none := TableOf.none
  have hempty : TableOf S k (some (emptyTable S k)) := TableOf.some hasKind_emptyTable
  refine ⟨⟨merged S k a b, decodeMerge_eq hS ha hb fbb, tableOf_merged ha hb,
    decodeMerge_eq hS ha hb⟩, ?_, ?_, ?_⟩
  · rw [decodeMerge_eq hS ha hb, decodeMerge_eq hS hb hc, decodeMerge_eq hS hab hc,
      decodeMerge_eq hS ha hbc, merged_assoc ha hb hc]
  · rw [decodeMerge_eq hS ha hnone, decodeMerge_eq hS hnone ha, decodeMerge_eq hS ha hempty,
      decodeMerge_eq hS hempty ha]
    obtain ⟨hn1, hn2⟩ := merged_neutral ha getAddressOf_none hnone
    obtain ⟨he1, he2⟩ := merged_neutral ha getAddressOf_emptyTable hempty
    exact ⟨congrArg some hn1, congrArg some hn2, congrArg some he1, congrArg some he2⟩
  · intro i code hcode
    rw [decodeMerge_eq hS ha hb, getAddressOf_merged ha hb]
    refine ⟨isSome_mergedField a b i, mergedField_single hS hb hcode, isSome_vectorField ha hb hcode, ?_⟩
    intro hrepeating hsequence hhas
    have hkind : code.kind = .table code.typeRef := by
      rw [TypeCode.kind, if_neg (by simp [hrepeating]), TypeCode.elementKind, hsequence]
    have hfa : TableOf S code.typeRef (getAddressOf a i) := fun v hv => hkind ▸ ha.field hcode hv
    have hfb : TableOf S code.typeRef (getAddressOf b i) := fun v hv => hkind ▸ hb.field hcode hv
    rw [decodeMerge_eq hS hfa hfb, merged]
    cases hslot : mergedField a b i with
    | none =>
      have := isSome_mergedField a b i
      rw [hslot, hhas] at this
      cases this
    | some v => rw [show overlaySlot _ _ = some v from hslot, Option.getD_some]

/-- A table of a number, a name, a list of numbers and a nested table of the same type. -/
def treeSchema : Schema :=
  [⟨.table, [⟨.int, false, none⟩, ⟨.string, false, none⟩, ⟨.int, true, none⟩,
    ⟨.sequence, false, some 0⟩], [['n'], ['s'], ['v'], ['t']], none⟩]

def treeBelow : Value :=
  .table [some (.scalar .int 1), none, some (.vector [.scalar .int 5]),
    some (.table [some (.scalar .int 2), some (.string ['x']), none, none])]

def treeAbove : Value :=
  .table [none, some (.string ['y']), some (.vector [.scalar .int (-6)]),
    some (.table [some (.scalar .int 3), none, none, none])]

theorem mergeFlatBuffers_monoid_tree :
    getAddressOf (decodeMerge treeSchema 0 .new (some treeBelow) (some treeAbove)) 2
        = some (.vector [.scalar .int 5, .scalar .int (-6)]) ∧
      decodeMerge treeSchema 0 .new (decodeMerge treeSchema 0 .new (some treeBelow) (some treeAbove))
          none
        = decodeMerge treeSchema 0 .new (some treeBelow)
          (decodeMerge treeSchema 0 .new (some treeAbove) none) := by
  have h := mergeFlatBuffers_monoid treeSchema (by decide) 0 (some treeBelow) (some treeAbove) none
    (TableOf.some (by decide)) (TableOf.some (by decide)) TableOf.none .new
  exact ⟨(h.2.2.2 2 ⟨.int, true, none⟩ rfl).2.2.1 rfl rfl, h.2.1⟩

end RobotCode.Flatbuffers
