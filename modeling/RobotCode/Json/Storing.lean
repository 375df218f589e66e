import RobotCode.Json.Tokens

/-!
# The parser stores the document

`jsonToFlatbuffer_eq`: the parser, with its stack and its queues of untyped elements, does what
`storeRoot` does with the document of the text. The elements on the stack stand for those that the
document gives, with every offset leading to its object (`Realises`), and a context takes the
elements of the fields of its object in turn. A value either gives one element more, or it makes the
parser fail.
-/

namespace RobotCode.Json

open Flatbuffers List Option Builder.Extends

inductive Realises (fbb : Builder) : Element → Stored → Prop
  | int {x : Int} : Realises fbb (.int x) (.int x)
  | double {x : Int} : Realises fbb (.double x) (.double x)
  | offset {o : Offset} {v : Value} : fbb.read o = some v → Realises fbb (.offset o) (.object v)

variable {fbb : Builder} {elements : List (Nat × Element)} {stored : List (Nat × Stored)} {e : Element}
  {s : Stored}

theorem Realises.mono {fbb' : Builder}
    (hext : Builder.Extends fbb fbb') (h : Realises fbb e s) : Realises fbb' e s := by
  cases h with
  | int => exact .int
  | double => exact .double
  | offset ho => exact .offset (hext.read ho)

def RealisesFields (fbb : Builder) : List (Nat × Element) → List (Nat × Stored) → Prop :=
  List.Forall₂ fun e s => e.1 = s.1 ∧ Realises fbb e.2 s.2

theorem RealisesFields.mono {fbb' : Builder} (hext : Builder.Extends fbb fbb')
    (h : RealisesFields fbb elements stored) : RealisesFields fbb' elements stored :=
  List.Forall₂.imp (fun _ _ he => ⟨he.1, he.2.mono hext⟩) h

variable {F : FloatOps} {S : Schema} {k i : Nat}

theorem addSingleElement_spec (h : Realises fbb e s) :
    ∃ added, addSingleElement F S k i e fbb
        = ({ fbb with fields := fbb.fields ++ added } : Builder) ∧
      ((added = [] ∧ fieldValue F S k i s = none) ∨
        ∃ x, added = [(i, x)] ∧ fbb.readInline x = fieldValue F S k i s) := by
  cases h with
  | int =>
    unfold addSingleElement fieldValue
    dsimp only
    cases intScalar F (fieldElementaryType S k i) _ with
    | none => exact ⟨[], by simp, .inl ⟨rfl, rfl⟩⟩
    | some v => exact ⟨[(i, .scalar v)], rfl, .inr ⟨_, rfl, rfl⟩⟩
  | double =>
    unfold addSingleElement fieldValue
    dsimp only
    cases doubleScalar F (fieldElementaryType S k i) _ with
    | none => exact ⟨[], by simp, .inl ⟨rfl, rfl⟩⟩
    | some v => exact ⟨[(i, .scalar v)], rfl, .inr ⟨_, rfl, rfl⟩⟩
  | offset ho =>
    unfold addSingleElement fieldValue
    dsimp only
    split
    · exact ⟨[(i, .offset _)], rfl, .inr ⟨_, rfl, ho⟩⟩
    · exact ⟨[], by simp, .inl ⟨rfl, rfl⟩⟩

theorem addElements_spec (inUse : List Nat) (fbb : Builder) (h : RealisesFields fbb elements stored) :
    ∃ added, addElements F S k elements inUse fbb
        = ({ fbb with fields := fbb.fields ++ added } : Builder) ∧
      ∀ i, (added.lookup i).bind fbb.readInline
        = if i ∈ inUse then none else (firstOf i stored).bind (fieldValue F S k i) := by
  induction elements generalizing stored inUse fbb with
  | nil =>
    cases h
    exact ⟨[], by simp [addElements], fun i => by simp [firstOf]⟩
  | cons element elements ih =>
    obtain ⟨j, e⟩ := element
    cases h with
    | @cons _ head _ stored' he hrest =>
      obtain ⟨j', s⟩ := head
      obtain ⟨hj, he⟩ := he
      dsimp only at hj he
      subst hj
      rw [addElements]
      by_cases hmem : j ∈ inUse
      · rw [if_pos hmem]
        obtain ⟨added, hadded, hlookup⟩ := ih inUse fbb hrest
        refine ⟨added, hadded, ?_⟩
        intro i
        rw [hlookup i]
        by_cases hi : i ∈ inUse
        · rw [if_pos hi, if_pos hi]
        · have hne : (i == j) = false := beq_false_of_ne fun h => hi (h ▸ hmem)
          rw [if_neg hi, if_neg hi, firstOf, firstOf, lookup_cons, hne]
      · rw [if_neg hmem]
        obtain ⟨first, hfirst, hvalue⟩ := addSingleElement_spec (F := F) (S := S) (k := k) (i := j) he
        rw [hfirst]
        have hkept : Builder.Extends fbb { fbb with fields := fbb.fields ++ first } := of_eq rfl
        obtain ⟨added, hadded, hlookup⟩ := ih (j :: inUse) { fbb with fields := fbb.fields ++ first }
          (RealisesFields.mono hkept hrest)
        refine ⟨first ++ added, ?_, ?_⟩
        · rw [hadded]
          simp
        · intro i
          have hlookup := hlookup i
          change (added.lookup i).bind fbb.readInline = _ at hlookup
          by_cases hi : i = j
          · subst hi
            rw [if_pos mem_cons_self] at hlookup
            rw [if_neg hmem, firstOf, lookup_cons_self, bind_some]
            obtain hvalue | hvalue := hvalue
            · rw [hvalue.1, hvalue.2]
              exact hlookup
            · obtain ⟨x, rfl, hx⟩ := hvalue
              rw [singleton_append, lookup_cons_self]
              exact hx
          · have hne : (i == j) = false := beq_false_of_ne hi
            have hskip : (first ++ added).lookup i = added.lookup i := by
              obtain hvalue | hvalue := hvalue
              · rw [hvalue.1, nil_append]
              · obtain ⟨x, rfl, _⟩ := hvalue
                rw [singleton_append, lookup_cons, hne]
            rw [hskip, hlookup, firstOf, firstOf, lookup_cons, hne]
            simp [hi]

theorem writeTable_spec (h : RealisesFields fbb elements stored) :
    Writes fbb (writeTable F S k elements fbb) (storedTable F S k stored) := by
  obtain ⟨added, hadded, hlookup⟩ := addElements_spec (F := F) (S := S) (k := k) [] fbb.startTable
    (h.mono (startTable fbb))
  have htable : (addElements F S k elements [] fbb.startTable).builtTable (S.typeTable k).numElems
      = storedTable F S k stored := by
    rw [hadded, Builder.builtTable, storedTable]
    congr 1
    apply map_congr_left
    intro i _
    have := hlookup i
    rw [if_neg (by simp)] at this
    exact this
  rw [writeTable, Builder.endTable, htable]
  have hwrites := Builder.writes (addElements F S k elements [] fbb.startTable)
    (storedTable F S k stored)
  refine ⟨trans (of_eq ?_) hwrites.kept, hwrites.found⟩
  rw [hadded]
  rfl

section Rel

variable {α β γ δ : Type} {R : α → β → Prop} {T : γ → δ → Prop} {a : Option α} {b : Option β}

theorem rel_bind {f : α → Option γ} {g : β → Option δ} (h : Rel R a b) (hfg : ∀ x y, R x y → Rel T (f x) (g y)) :
    Rel T (a.bind f) (b.bind g) := by
  cases h with
  | none => exact .none
  | some h => exact hfg _ _ h

theorem rel_bind_left {f : α → Option γ} {T : γ → β → Prop} (h : Rel R a b) (hf : ∀ x y, R x y → Rel T (f x) (some y)) :
    Rel T (a.bind f) b := bind_fun_some b ▸ rel_bind h hf

theorem rel_ite {p : Prop} [Decidable p] (h : p → Rel R a b) : Rel R (if p then a else none) (if p then b else none) := by
  split
  · exact h ‹_›
  · exact .none

end Rel

theorem pushElement_spec {type : ElementaryType} (htype : fieldElementaryType S k i = type) (h : Realises fbb e s) :
    Rel (fun v fbb' => ∃ x, fbb.readInline x = some v ∧ fbb.pushElement x = fbb') (elementValue F S k i s)
      (pushElement F type fbb e) := by
  subst htype
  unfold pushElement elementValue
  cases h with
  | int =>
    dsimp only
    cases intScalar F (fieldElementaryType S k i) _ with
    | none => exact .none
    | some v => exact .some ⟨.scalar v, rfl, rfl⟩
  | double =>
    dsimp only
    cases doubleScalar F (fieldElementaryType S k i) _ with
    | none => exact .none
    | some v => exact .some ⟨.scalar v, rfl, rfl⟩
  | @offset o _ ho => exact rel_ite fun _ => .some ⟨.offset o, ho, rfl⟩

theorem foldrM_pushElement {type : ElementaryType} (htype : fieldElementaryType S k i = type)
    (hpushed : fbb.pushed = []) {elements : List Element} {stored : List Stored}
    (h : List.Forall₂ (Realises fbb) elements stored) :
    Rel (fun values fbb' => fbb'.objects = fbb.objects ∧ fbb'.pushed.map fbb'.readInline = values.map some ∧
        values.length = elements.length)
      (stored.mapM (elementValue F S k i)) (elements.foldrM (fun e fbb => pushElement F type fbb e) fbb) := by
  induction h with
  | nil => exact .some ⟨rfl, by rw [hpushed]; rfl, rfl⟩
  | @cons e s elements stored he _ ih =>
    have hcomm : (s :: stored).mapM (elementValue F S k i) = (stored.mapM (elementValue F S k i)).bind fun values =>
        (elementValue F S k i s).bind fun v => some (v :: values) := mapM_cons.trans (bind_comm ..)
    rw [hcomm, foldrM_cons]
    refine rel_bind ih fun values fbb' hfold => ?_
    obtain ⟨hobjects, hread, hlength⟩ := hfold
    refine rel_bind_left (pushElement_spec (F := F) htype (he.mono (of_eq hobjects))) fun v fbb'' hpush => .some ?_
    obtain ⟨x, hx, rfl⟩ := hpush
    refine ⟨hobjects, ?_, congrArg (· + 1) hlength⟩
    change (x :: fbb'.pushed).map fbb'.readInline = _
    rw [map_cons, hx, hread, map_cons]

theorem finishVector_spec {c : Context} {stored : List Stored}
    (h : List.Forall₂ (Realises fbb) c.vectorElements stored) :
    Rel (fun values p => ∃ r, Writes fbb r (.vector values) ∧
        ({ c with elements := c.elements ++ [(i, .offset r.1)], vectorElements := [] }, r.2) = p)
      (stored.mapM (elementValue F S c.type i)) (finishVector F S c i fbb) := by
  have hstart : List.Forall₂ (Realises fbb.startVector) c.vectorElements stored :=
    List.Forall₂.imp (fun _ _ he => he.mono (startVector fbb)) h
  have hfold := foldrM_pushElement (F := F) (S := S) (k := c.type) (i := i) rfl
    fbb.pushed_startVector hstart
  unfold finishVector
  dsimp only
  rw [foldlM_reverse, ← bind_fun_some (stored.mapM _)]
  refine rel_bind hfold fun values fbb' hread => .some ?_
  obtain ⟨hobjects, hread, hlength⟩ := hread
  have hwrites := endVector_spec fbb' hread hlength
  exact ⟨_, ⟨(of_eq hobjects).trans hwrites.kept, hwrites.found⟩, rfl⟩

/-! ### The tokens of a value -/

section

variable (F S) (root : Nat)

/-- The tokens of the value make the parser queue its element, or fail with it. -/
def Parses (d : Document) : Prop :=
  ∀ (fbb : Builder) (c : Context) (rest : List Context) (o : Offset) (i : Nat),
    c.fieldIndex = some i → (c.inVector = false → c.vectorElements = []) →
    (store F S c.type i c.inVector d = none ∧
      d.tokens.foldlM (parseStep F S root) ⟨fbb, c :: rest, o⟩ = none) ∨
    ∃ s fbb' e, store F S c.type i c.inVector d = some s ∧ Builder.Extends fbb fbb' ∧
      Realises fbb' e s ∧
      d.tokens.foldlM (parseStep F S root) ⟨fbb, c :: rest, o⟩ = some ⟨fbb', c.add i e :: rest, o⟩

end

variable {root : Nat}

def Queues (fbb : Builder) (c : Context) (rest : List Context) (o : Offset) (i : Nat) (s : Stored) (p : Parser) : Prop :=
  ∃ fbb' e, Builder.Extends fbb fbb' ∧ Realises fbb' e s ∧ ⟨fbb', c.add i e :: rest, o⟩ = p

theorem parses_iff_rel {d : Document} : Parses F S root d ↔ ∀ fbb c rest o i, c.fieldIndex = some i →
    (c.inVector = false → c.vectorElements = []) → Rel (Queues fbb c rest o i) (store F S c.type i c.inVector d)
      (d.tokens.foldlM (parseStep F S root) ⟨fbb, c :: rest, o⟩) := by
  refine forall₅_congr fun fbb c rest o i => forall₂_congr fun _ _ => ⟨fun h => ?_, fun h => ?_⟩
  · obtain ⟨hstore, hfold⟩ | ⟨s, fbb', e, hstore, hext, he, hfold⟩ := h
    · rw [hstore, hfold]
      exact .none
    · rw [hstore, hfold]
      exact .some ⟨fbb', e, hext, he, rfl⟩
  · generalize store F S c.type i c.inVector d = a, d.tokens.foldlM (parseStep F S root) ⟨fbb, c :: rest, o⟩ = b at h ⊢
    cases h with
    | none => exact .inl ⟨rfl, rfl⟩
    | some h =>
      obtain ⟨fbb', e, hext, he, rfl⟩ := h
      exact .inr ⟨_, fbb', e, rfl, hext, he, rfl⟩

theorem foldlM_single {σ : Type} (step : σ → Token → Option σ) (s : σ) (token : Token) :
    [token].foldlM step s = step s token := by
  rw [foldlM_cons]
  cases step s token <;> rfl

theorem foldlM_bracket {σ : Type} (step : σ → Token → Option σ) (s : σ) (first last : Token)
    (ts : List Token) : (first :: (ts ++ [last])).foldlM step s
      = (step s first).bind fun s => (ts.foldlM step s).bind fun s => step s last := by
  rw [foldlM_cons]
  simp only [foldlM_append, foldlM_single]
  rfl

theorem parses_number {value : Literal} (hs : literalStored F value = some s) (he : ∀ fbb, Realises fbb e s)
    (hstep : ∀ p, parseStep F S root p value.token = addNumber S p e) : Parses F S root (.literal value) := by
  refine parses_iff_rel.mpr fun fbb c rest o i hi _ => ?_
  rw [Document.tokens, foldlM_single, hstep, store, hs]
  simp only [addNumber, hi, bind_eq_bind, bind_some]
  exact rel_ite fun _ => .some ⟨fbb, e, refl fbb, he fbb, rfl⟩

theorem parses_fail {value : Literal} (hs : literalStored F value = none)
    (hstep : ∀ p, parseStep F S root p value.token = none) : Parses F S root (.literal value) := by
  intro fbb c rest o i _ _
  rw [Document.tokens, foldlM_single, hstep, store, hs, ite_self]
  exact .inl ⟨rfl, rfl⟩

theorem parses_literal (value : Literal) : Parses F S root (.literal value) := by
  cases value with
  | true | false => exact parses_number rfl (fun _ => .int) fun _ => rfl
  | number text =>
    cases hint : fieldAsInt text with
    | some x =>
      apply parses_number (e := .int x) (s := .int x)
      · simp [literalStored, hint]
      · exact fun _ => .int
      · intro p
        simp [parseStep, Literal.token, numberElement, hint]
    | none =>
      cases hdouble : F.fieldAsDouble text with
      | some x =>
        apply parses_number (e := .double x) (s := .double x)
        · simp [literalStored, hint, hdouble]
        · exact fun _ => .double
        · intro p
          simp [parseStep, Literal.token, numberElement, hint, hdouble]
      | none =>
        apply parses_fail
        · simp [literalStored, hint, hdouble]
        · intro p
          simp [parseStep, Literal.token, numberElement, hint, hdouble]

theorem stringElement_spec (fbb : Builder) (text : List Char) :
    Rel (fun s r => Builder.Extends fbb r.2 ∧ Realises r.2 r.1 s) (stringStored S k i text)
      (stringElement S k i text fbb) := by
  unfold stringStored stringElement
  split
  · refine rel_ite fun _ => ?_
    cases enumValue S (fieldType S k i) text with
    | none => exact .none
    | some x => exact .some ⟨refl fbb, .int⟩
  · have hwrites := fbb.writes (.string text)
    exact .some ⟨hwrites.kept, .offset hwrites.found⟩

theorem parses_string (text : List Char) : Parses F S root (.string text) := by
  refine parses_iff_rel.mpr fun fbb c rest o i hi _ => ?_
  rw [Document.tokens, foldlM_single, store]
  have hstep : parseStep F S root ⟨fbb, c :: rest, o⟩ (.string text)
      = if fieldIsRepeating S c.type i = c.inVector then
          (stringElement S c.type i text fbb).bind fun r =>
            some ⟨r.2, c.add i r.1 :: rest, o⟩
        else none := by
    simp [parseStep, addString, hi, bind_eq_bind, bind_some]
  rw [hstep, ← bind_fun_some (stringStored ..)]
  exact rel_ite fun _ => rel_bind (stringElement_spec fbb text) fun s r hr => .some ⟨r.2, r.1, hr.1, hr.2, rfl⟩

theorem parses_items {items : List Document} (h : ∀ d ∈ items, Parses F S root d) (fbb : Builder)
    (elements : List (Nat × Element)) (queued : List Element) (rest : List Context) (o : Offset) :
    Rel (fun stored p => ∃ fbb' added, Builder.Extends fbb fbb' ∧ List.Forall₂ (Realises fbb') added stored ∧
        ⟨fbb', ⟨k, true, some i, elements, queued ++ added⟩ :: rest, o⟩ = p) (storeItems F S k i items)
      ((itemsTokens items).foldlM (parseStep F S root) ⟨fbb, ⟨k, true, some i, elements, queued⟩ :: rest, o⟩) := by
  induction items generalizing fbb queued with
  | nil => exact .some ⟨fbb, [], refl fbb, .nil, by rw [append_nil]⟩
  | cons d items ih =>
    obtain ⟨hd, hrest⟩ := forall_mem_cons.mp h
    rw [itemsTokens, foldlM_append, storeItems]
    refine rel_bind (parses_iff_rel.mp hd fbb ⟨k, true, some i, elements, queued⟩ rest o i rfl (by simp)) fun s p hp => ?_
    obtain ⟨fbb1, e, hext, he, rfl⟩ := hp
    refine rel_bind_left (ih hrest fbb1 (queued ++ [e])) fun stored p hp => .some ?_
    obtain ⟨fbb2, added, hext2, hrealises, rfl⟩ := hp
    exact ⟨fbb2, e :: added, hext.trans hext2, .cons (he.mono hext2) hrealises, by rw [append_assoc]; rfl⟩

theorem parses_fields {fields : List (List Char × Option Document)}
    (h : ∀ name d, (name, some d) ∈ fields → Parses F S root d) (fbb : Builder)
    (index : Option Nat) (elements : List (Nat × Element)) (rest : List Context) (o : Offset) :
    Rel (fun stored p => ∃ fbb' added index', Builder.Extends fbb fbb' ∧ RealisesFields fbb' added stored ∧
        ⟨fbb', ⟨k, false, index', elements ++ added, []⟩ :: rest, o⟩ = p) (storeFields F S k fields)
      ((fieldsTokens fields).foldlM (parseStep F S root) ⟨fbb, ⟨k, false, index, elements, []⟩ :: rest, o⟩) := by
  induction fields generalizing fbb index elements with
  | nil => exact .some ⟨fbb, [], index, refl fbb, .nil, by rw [append_nil]⟩
  | cons field fields ih =>
    obtain ⟨name, value⟩ := field
    have hrest := fun name d hd => h name d (mem_cons_of_mem _ hd)
    have hfield : parseStep F S root ⟨fbb, ⟨k, false, index, elements, []⟩ :: rest, o⟩ (.field name)
        = (fieldIndex S k (cStr name)).bind fun i =>
          some ⟨fbb, ⟨k, false, some i, elements, []⟩ :: rest, o⟩ := rfl
    cases value with
    | none =>
      rw [fieldsTokens, foldlM_cons, hfield, storeFields]
      cases fieldIndex S k (cStr name) with
      | none => exact .none
      | some i => exact ih hrest fbb (some i) elements
    | some d =>
      rw [fieldsTokens, foldlM_cons, hfield, storeFields]
      cases fieldIndex S k (cStr name) with
      | none => exact .none
      | some i =>
        simp only [bind_eq_bind, bind_some, foldlM_append]
        refine rel_bind (parses_iff_rel.mp (h name d mem_cons_self) fbb ⟨k, false, some i, elements, []⟩ rest o i rfl
          fun _ => rfl) fun s p hp => ?_
        obtain ⟨fbb1, e, hext, he, rfl⟩ := hp
        refine rel_bind_left (ih hrest fbb1 (some i) (elements ++ [(i, e)])) fun stored p hp => .some ?_
        obtain ⟨fbb2, added, index', hext2, hrealises, rfl⟩ := hp
        exact ⟨fbb2, (i, e) :: added, index', hext.trans hext2, .cons ⟨rfl, he.mono hext2⟩ hrealises,
          by rw [append_assoc]; rfl⟩

theorem parses_array {items : List Document} (h : ∀ d ∈ items, Parses F S root d) :
    Parses F S root (.array items) := by
  refine parses_iff_rel.mpr fun fbb c rest o i hi hempty => ?_
  obtain ⟨k, inVector, index, elements, queued⟩ := c
  cases hi
  rw [Document.tokens, foldlM_bracket, store]
  cases inVector with
  | true => exact .none
  | false =>
    cases hempty rfl
    show Rel _ _ (Option.bind (foldlM (parseStep F S root) ⟨fbb, ⟨k, true, some i, elements, []⟩ :: rest, o⟩ _) _)
    refine rel_bind (parses_items h fbb elements [] rest o) fun stored p hp => ?_
    obtain ⟨fbb1, added, hext, hrealises, rfl⟩ := hp
    refine rel_bind (finishVector_spec (F := F) (S := S) (i := i) (c := ⟨k, true, some i, elements, added⟩) hrealises)
      fun values p hp => .some ?_
    obtain ⟨r, hwrites, rfl⟩ := hp
    exact ⟨r.2, .offset r.1, hext.trans hwrites.kept, .offset hwrites.found, rfl⟩

theorem parses_object {fields : List (List Char × Option Document)}
    (h : ∀ name d, (name, some d) ∈ fields → Parses F S root d) : Parses F S root (.object fields) := by
  refine parses_iff_rel.mpr fun fbb c rest o i hi _ => ?_
  rw [Document.tokens, foldlM_bracket, store]
  have hstart : parseStep F S root ⟨fbb, c :: rest, o⟩ .startObject
      = if fieldIsSequence S c.type i then
          some ⟨fbb, ⟨fieldType S c.type i, false, none, [], []⟩ :: c :: rest, o⟩
        else none := by
    simp only [parseStep, startObject, hi, bind_eq_bind, bind_some]
    rfl
  rw [hstart]
  split
  · rw [bind_some]
    refine rel_bind (parses_fields h fbb none [] (c :: rest) o) fun stored p hp => ?_
    obtain ⟨fbb1, added, index, hext, hrealises, rfl⟩ := hp
    have hwrites := writeTable_spec (F := F) (S := S) (k := fieldType S c.type i) hrealises
    simp only [parseStep, endObject, hi, bind_eq_bind, bind_some, nil_append]
    exact .some ⟨_, _, hext.trans hwrites.kept, .offset hwrites.found, rfl⟩
  · exact .none

/-- The parser does with the tokens of every value what the document says. -/
theorem parses (d : Document) : Parses F S root d := by
  induction d using Document.induct with
  | literal value => exact parses_literal value
  | string text => exact parses_string text
  | array items ih => exact parses_array ih
  | object fields ih => exact parses_object ih

theorem foldlM_root (F : FloatOps) (S : Schema) (root : Nat) (fields : List (List Char × Option Document)) :
    Rel (fun v p => p.stack = [] ∧ p.fbb.read p.tableEnd = some v) (storeRoot F S root (.object fields))
      ((Document.object fields).tokens.foldlM (parseStep F S root) ⟨.new, [], 0⟩) := by
  rw [Document.tokens, foldlM_bracket, storeRoot, map_eq_bind]
  show Rel _ _ (Option.bind (foldlM (parseStep F S root) ⟨.new, [⟨root, false, none, [], []⟩], 0⟩ _) _)
  refine rel_bind (parses_fields (fun _ d _ => parses d) .new none [] [] 0) fun stored p hp => ?_
  obtain ⟨fbb, added, index, -, hrealises, rfl⟩ := hp
  exact .some ⟨rfl, (writeTable_spec hrealises).found⟩

/-- The parser stores the document of the text. -/
theorem jsonToFlatbuffer_eq (data : List Char) :
    jsonToFlatbuffer F S root data = (document data).bind (storeRoot F S root) := by
  apply ext
  intro v
  rw [jsonToFlatbuffer, runTokens_eq_some, bind_eq_some_iff]
  apply Iff.intro
  · intro h
    obtain ⟨ts, p, hts, hfold, hfinish⟩ := h
    obtain ⟨fields, hdocument, rfl⟩ := tokens_eq_document hts
    have hrel := foldlM_root F S root fields
    rw [hfold] at hrel
    refine ⟨_, hdocument, ?_⟩
    generalize storeRoot F S root (.object fields) = stored at hrel ⊢
    cases hrel with
    | some hread => rwa [if_pos hread.1, hread.2] at hfinish
  · intro h
    obtain ⟨d, hdocument, hv⟩ := h
    obtain ⟨fields, rfl, hts⟩ := tokens_of_document hdocument
    have hrel := foldlM_root F S root fields
    rw [hv] at hrel
    generalize hfold : (Document.object fields).tokens.foldlM (parseStep F S root) ⟨.new, [], 0⟩ = result at hrel
    cases hrel with
    | some hread => exact ⟨_, _, hts, hfold, by rw [if_pos hread.1, hread.2]⟩

end RobotCode.Json
