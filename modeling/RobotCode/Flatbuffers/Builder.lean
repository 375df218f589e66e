import RobotCode.Flatbuffers.Schema

/-!
# The flatbuffer builder

`flatbuffers::FlatBufferBuilder` with `ForceDefaults(true)`: it stores exactly what it is given, a
default value too. Strings, vectors and tables are written one after another and named by their
offset; what was written before stays where it is. A vector is pushed back to front, since the
buffer grows downwards. A table is the scalars and offsets added since `StartTable`.

The builder keeps, for every offset, the value a reader finds there. Offset `0` leads nowhere.
-/

namespace RobotCode.Flatbuffers

open List

/-- `flatbuffers::Offset<T>`. -/
abbrev Offset := Nat

/-- What a table or a vector holds in place: a scalar, or an offset to something written before. -/
inductive Inline where
  | scalar (value : Value)
  | offset (offset : Offset)

/-- The state of a `FlatBufferBuilder`. -/
structure Builder where
  /-- What the offsets `1, 2, …` lead to. -/
  objects : List Value
  pushed : List Inline
  fields : List (Nat × Inline)

namespace Builder

def new : Builder := ⟨[], [], []⟩

variable (fbb : Builder)

def read : Offset → Option Value
  | 0 => none
  | o + 1 => fbb.objects[o]?

def readInline : Inline → Option Value
  | .scalar v => some v
  | .offset o => fbb.read o

def write (v : Value) : Offset × Builder :=
  (fbb.objects.length + 1, { fbb with objects := fbb.objects ++ [v] })

def createString (data : List Char) : Offset × Builder := fbb.write (.string data)

def startVector : Builder := { fbb with pushed := [] }

def pushElement (x : Inline) : Builder := { fbb with pushed := x :: fbb.pushed }

/-- `EndVector(size)`: the vector is `size` elements from the last one pushed on. -/
def endVector (size : Nat) : Offset × Builder :=
  fbb.write (.vector ((fbb.pushed.take size).filterMap fbb.readInline))

def startTable : Builder := { fbb with fields := [] }

def addElement (i : Nat) (v : Value) : Builder :=
  { fbb with fields := fbb.fields ++ [(i, .scalar v)] }

def addOffset (i : Nat) (o : Offset) : Builder :=
  { fbb with fields := fbb.fields ++ [(i, .offset o)] }

/-- The table of the fields added, with a slot for each of the `size` fields of its type. -/
def builtTable (size : Nat) : Value :=
  .table ((range size).map fun i => (fbb.fields.lookup i).bind fbb.readInline)

def endTable (size : Nat) : Offset × Builder := fbb.write (fbb.builtTable size)

/-- Everything written before is still there. -/
def Extends (fbb fbb' : Builder) : Prop := fbb.objects <+: fbb'.objects

section

variable {fbb fbb₁ fbb₂ : Builder}

theorem Extends.refl (fbb : Builder) : Extends fbb fbb := prefix_refl _

theorem Extends.trans (h1 : Extends fbb fbb₁) (h2 : Extends fbb₁ fbb₂) : Extends fbb fbb₂ :=
  List.IsPrefix.trans h1 h2

theorem Extends.of_eq (h : fbb₁.objects = fbb.objects) : Extends fbb fbb₁ := ⟨[], by rw [h, append_nil]⟩

theorem Extends.startTable (fbb : Builder) : Extends fbb fbb.startTable := of_eq rfl

theorem Extends.startVector (fbb : Builder) : Extends fbb fbb.startVector := of_eq rfl

theorem Extends.write (fbb : Builder) (v : Value) : Extends fbb (fbb.write v).2 := prefix_append _ _

theorem Extends.read {o : Offset} {v : Value} (h : Extends fbb fbb₁) (hv : fbb.read o = some v) :
    fbb₁.read o = some v := by
  cases o with
  | zero => exact absurd hv (by simp [Builder.read])
  | succ o =>
    obtain ⟨later, hlater⟩ := h
    have ho := (List.getElem?_eq_some_iff.mp hv).1
    rw [Builder.read, ← hlater, getElem?_append_left ho]
    exact hv

@[simp] theorem read_write (fbb : Builder) (v : Value) : (fbb.write v).2.read (fbb.write v).1 = some v := by
  simp [write, read]

end

@[simp] theorem pushed_startVector : fbb.startVector.pushed = [] := rfl

@[simp] theorem objects_startVector : fbb.startVector.objects = fbb.objects := rfl

@[simp] theorem fields_startTable : fbb.startTable.fields = [] := rfl

@[simp] theorem objects_startTable : fbb.startTable.objects = fbb.objects := rfl

@[simp] theorem objects_foldl_pushElement {α : Type} (f : α → Inline) (xs : List α) (fbb : Builder) :
    (xs.foldl (fun fbb x => fbb.pushElement (f x)) fbb).objects = fbb.objects := by
  induction xs generalizing fbb with
  | nil => rfl
  | cons x xs ih => exact ih _

@[simp] theorem pushed_foldl_pushElement {α : Type} (f : α → Inline) (xs : List α) (fbb : Builder) :
    (xs.foldl (fun fbb x => fbb.pushElement (f x)) fbb).pushed = (xs.map f).reverse ++ fbb.pushed := by
  induction xs generalizing fbb with
  | nil => rfl
  | cons x xs ih =>
    rw [foldl_cons, ih, map_cons, reverse_cons, append_assoc]
    rfl

@[simp] theorem objects_foldl_addOffset (xs : List (Nat × Offset)) (fbb : Builder) :
    (xs.foldl (fun fbb x => fbb.addOffset x.1 x.2) fbb).objects = fbb.objects := by
  induction xs generalizing fbb with
  | nil => rfl
  | cons x xs ih => exact ih _

@[simp] theorem fields_foldl_addOffset (xs : List (Nat × Offset)) (fbb : Builder) :
    (xs.foldl (fun fbb x => fbb.addOffset x.1 x.2) fbb).fields
      = fbb.fields ++ xs.map fun x => (x.1, .offset x.2) := by
  induction xs generalizing fbb with
  | nil => simp
  | cons x xs ih =>
    rw [foldl_cons, ih, map_cons, ← singleton_append, ← append_assoc]
    rfl

end Builder

structure Writes (fbb : Builder) (r : Offset × Builder) (v : Value) : Prop where
  kept : Builder.Extends fbb r.2
  found : r.2.read r.1 = some v

theorem Builder.writes (fbb : Builder) (v : Value) : Writes fbb (fbb.write v) v :=
  ⟨Builder.Extends.write fbb v, read_write fbb v⟩

theorem endVector_spec (fbb : Builder) {values : List Value} {size : Nat}
    (hpushed : fbb.pushed.map fbb.readInline = values.map some) (hsize : values.length = size) :
    Writes fbb (fbb.endVector size) (.vector values) := by
  have hlength : fbb.pushed.length = size := by
    have := congrArg length hpushed
    simpa [hsize] using this
  have hvalues : (fbb.pushed.take size).filterMap fbb.readInline = values := by
    rw [take_of_length_le (Nat.le_of_eq hlength)]
    have hmap : fbb.pushed.filterMap fbb.readInline = (fbb.pushed.map fbb.readInline).filterMap id := by
      rw [filterMap_map]
      rfl
    rw [hmap, hpushed, filterMap_map]
    exact filterMap_some
  rw [Builder.endVector, hvalues]
  exact fbb.writes _

end RobotCode.Flatbuffers
