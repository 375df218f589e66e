import RobotCode.Flatbuffers.Builder

/-!
# Merging two tables

`MergeFlatBuffers` of `aos/flatbuffer_merge.cc`. It goes over the fields of the type table twice. The
first pass writes what the merged table refers to, strings, vectors and nested tables, and remembers
the offset of each with its field. The second pass opens the table and adds the scalars, and then the
remembered offsets are added. Either of the two tables may be a null pointer, and then the other one
is copied.

The recursion follows the nesting of the two tables, so `mergeTable` counts it down; `mergeFlatBuffers`
starts it with the nesting there is.
-/

namespace RobotCode.Flatbuffers

/-- The builder and the `OffsetAndFieldOffset` list of the first pass. -/
structure Pass where
  fbb : Builder
  elements : List (Nat × Offset)

/-- `elements->emplace_back(field_offset, …)`. -/
def Pass.emplaceBack (p : Pass) (i : Nat) (r : Offset × Builder) : Pass :=
  ⟨r.2, p.elements ++ [(i, r.1)]⟩

/-- Writes the objects `xs` in turn and collects their offsets. -/
def writeAll {α : Type} (write : α → Builder → Offset × Builder) : List α → Builder → List Offset × Builder
  | [], fbb => ([], fbb)
  | x :: xs, fbb =>
    let r := write x fbb
    let rs := writeAll write xs r.2
    (r.1 :: rs.1, rs.2)

section

variable (i : Nat) (t1 t2 : Option Value)

/-- `MergeElement<T>`, the same for every scalar type. -/
def mergeElement (fbb : Builder) : Builder :=
  match getAddressOf t2 i with
  | some val2 => fbb.addElement i val2
  | none =>
    match getAddressOf t1 i with
    | some val1 => fbb.addElement i val1
    | none => fbb

def mergeString (p : Pass) : Pass :=
  match getAddressOf t2 i with
  | some val2 => p.emplaceBack i (p.fbb.createString val2.data)
  | none =>
    match getAddressOf t1 i with
    | some val1 => p.emplaceBack i (p.fbb.createString val1.data)
    | none => p

/-- `MergeTables`, given the merge of the nested tables. -/
def mergeTables (merge : Option Value → Option Value → Builder → Offset × Builder) (p : Pass) : Pass :=
  if (getAddressOf t1 i).isSome || (getAddressOf t2 i).isSome then
    p.emplaceBack i (merge (getAddressOf t1 i) (getAddressOf t2 i) p.fbb)
  else p

def vectorOf (t : Option Value) : List Value := ((getAddressOf t i).map Value.elements).getD []

def vectorSize : Nat := (vectorOf i t1).length + (vectorOf i t2).length

def packOrder : List Value := (vectorOf i t2).reverse ++ (vectorOf i t1).reverse

/-- `AddVector<T>`, the same for every scalar type. -/
def addVector (p : Pass) : Pass :=
  if (getAddressOf t1 i).isSome || (getAddressOf t2 i).isSome then
    let fbb := (packOrder i t1 t2).foldl (fun fbb v => fbb.pushElement (.scalar v)) p.fbb.startVector
    p.emplaceBack i (fbb.endVector (vectorSize i t1 t2))
  else p

/-- `AddVectorOfStrings` and `AddVectorOfObjects`, which differ in how an element is written. -/
def addVectorOf (write : Value → Builder → Offset × Builder) (p : Pass) : Pass :=
  if (getAddressOf t1 i).isSome || (getAddressOf t2 i).isSome then
    let written := writeAll write (packOrder i t1 t2) p.fbb
    let fbb := written.1.foldl (fun fbb o => fbb.pushElement (.offset o)) written.2.startVector
    p.emplaceBack i (fbb.endVector (vectorSize i t1 t2))
  else p

def addVectorOfStrings (p : Pass) : Pass :=
  addVectorOf i t1 t2 (fun s fbb => fbb.createString s.data) p

def addVectorOfObjects (merge : Option Value → Option Value → Builder → Offset × Builder)
    (p : Pass) : Pass :=
  addVectorOf i t1 t2 (fun t fbb => merge (some t) none fbb) p

end

def firstPass (merge : Nat → Option Value → Option Value → Builder → Offset × Builder)
    (t1 t2 : Option Value) (p : Pass) (field : TypeCode × Nat) : Pass :=
  match field.1.baseType with
  | .utype => p
  | .string =>
    if field.1.isRepeating then addVectorOfStrings field.2 t1 t2 p else mergeString field.2 t1 t2 p
  | .sequence =>
    if field.1.isRepeating then addVectorOfObjects field.2 t1 t2 (merge field.1.typeRef) p
    else mergeTables field.2 t1 t2 (merge field.1.typeRef) p
  | _ => if field.1.isRepeating then addVector field.2 t1 t2 p else p

def secondPass (t1 t2 : Option Value) (fbb : Builder) (field : TypeCode × Nat) : Builder :=
  if field.1.isRepeating then fbb
  else
    match field.1.baseType with
    | .utype | .string | .sequence => fbb
    | _ => mergeElement field.2 t1 t2 fbb

/-- `MergeFlatBuffers` of tables nested less deep than the first argument says. -/
def mergeTable (S : Schema) : Nat → Nat → Option Value → Option Value → Builder → Offset × Builder
  | 0, _, _, _, fbb => (0, fbb)
  | depth + 1, k, t1, t2, fbb =>
    let typetable := S.typeTable k
    let p := typetable.typeCodes.zipIdx.foldl (firstPass (mergeTable S depth) t1 t2) ⟨fbb, []⟩
    let fbb := typetable.typeCodes.zipIdx.foldl (secondPass t1 t2) p.fbb.startTable
    let fbb := p.elements.foldl (fun fbb e => fbb.addOffset e.1 e.2) fbb
    fbb.endTable typetable.numElems

def nesting (t : Option Value) : Nat := (t.map Value.depth).getD 0

def mergeFlatBuffers (S : Schema) (k : Nat) (t1 t2 : Option Value) (fbb : Builder) :
    Offset × Builder :=
  mergeTable S (nesting t1 + nesting t2 + 1) k t1 t2 fbb

/-- The table a reader finds where `MergeFlatBuffers` has written the merge. -/
def decodeMerge (S : Schema) (k : Nat) (fbb : Builder) (t1 t2 : Option Value) : Option Value :=
  (mergeFlatBuffers S k t1 t2 fbb).2.read (mergeFlatBuffers S k t1 t2 fbb).1

end RobotCode.Flatbuffers
