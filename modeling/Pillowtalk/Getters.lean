import Pillowtalk.Library.Binary64
import Pillowtalk.Located

/-!
# Reading a node (`pillowtalk_impl.c:167-174`, `278-322`)

The getters take any pointer and answer for the wrong type with a default.
A number is read as an `int` or as a `double` whichever of them it was stored as.
-/

namespace Pillowtalk
open Addressed

/-- `(int) d`, undefined where the truncated value is no `int`. -/
def Double.toInt32 (d : Double) : Option Int32 :=
  if Binary64.IsFinite d.bits ∧ -2 ^ 31 ≤ Binary64.truncate d.bits ∧
      Binary64.truncate d.bits < 2 ^ 31 then
    some (Int32.ofInt (Binary64.truncate d.bits))
  else none

/-- `(double) i`. -/
def Double.ofInt32 (i : Int32) : Double := ⟨Binary64.ofInt i.toInt⟩

def Double.value (d : Double) : ℚ := Binary64.value d.bits

theorem Double.truncate_eq (d : Double) :
    Binary64.truncate d.bits = if d.value < 0 then ⌈d.value⌉ else ⌊d.value⌋ :=
  Binary64.truncate_eq d.bits

theorem Double.toInt32_eq_some {d : Double} {i : Int32} :
    d.toInt32 = some i ↔ Binary64.IsFinite d.bits ∧ Binary64.truncate d.bits = i.toInt := by
  have hlow := i.le_toInt
  have hhigh := i.toInt_lt
  unfold toInt32
  constructor
  · intro h
    split at h
    · next hc =>
      have hi : Int32.ofInt (Binary64.truncate d.bits) = i := Option.some.inj h
      constructor
      · exact hc.1
      · rw [← hi, Int32.toInt_ofInt_of_le hc.2.1 hc.2.2]
    · cases h
  · rintro ⟨hf, ht⟩
    rw [ht, Int32.ofInt_toInt, if_pos]
    exact ⟨hf, by omega, by omega⟩

theorem natAbs_toInt_lt (i : Int32) : i.toInt.natAbs < 2 ^ 53 := by
  have hlow := i.le_toInt
  have hhigh := i.toInt_lt
  omega

/-! ### The getters -/

section
variable [HashFcn]

def scalarAt (h : Heap) (node : Ptr) : Option Scalar :=
  match node.bind h.cell with
  | some (.scalar v) => some v
  | _ => none

def ptIsNull (h : Heap) (null : Ptr) : Bool := null == none || typeOf h null == some .null

def ptBooleanGet (h : Heap) (boolean : Ptr) : Int32 :=
  match scalarAt h boolean with
  | some (.boolean value) => value
  | _ => 0

-- `none` is no answer of the function: it is the conversion that is undefined
def ptIntegerGet (h : Heap) (integer : Ptr) : Option Int32 :=
  match scalarAt h integer with
  | some (.integer value) => some value
  | some (.double value) => value.toInt32
  | _ => some 0

def ptDoubleGet (h : Heap) (dbl : Ptr) : Double :=
  match scalarAt h dbl with
  | some (.double value) => value
  | some (.integer value) => .ofInt32 value
  | _ => ⟨0⟩

/-- `none` is `NULL`. -/
def ptStringGet (h : Heap) (string : Ptr) : Option Bytes :=
  match scalarAt h string with
  | some (.string value) => some value
  | _ => none

/-- `node` points to a node with the scalar `v`. -/
def StoredAt (h : Heap) (node : Ptr) (v : Scalar) : Prop :=
  ∃ a, node = some a ∧ h.cell a = some (.scalar v)

theorem scalarAt_eq_some {h : Heap} {node : Ptr} {v : Scalar} :
    scalarAt h node = some v ↔ StoredAt h node v := by
  unfold scalarAt
  constructor
  · intro hv
    split at hv
    · next w hw =>
      cases hv
      exact Option.bind_eq_some_iff.mp hw
    · cases hv
  · rintro ⟨a, rfl, hc⟩
    simp only [Option.bind_some, hc]

/-- What the answer `i` of `pt_integer_get` says of the scalar at a node. -/
def ReadsInt (i : Int32) : Option Scalar → Prop
  | some (.integer value) => value = i
  | some (.double value) => Binary64.IsFinite value.bits ∧ Binary64.truncate value.bits = i.toInt
  | _ => i = 0

theorem ptIntegerGet_reads {h : Heap} {node : Ptr} {i : Int32} :
    ptIntegerGet h node = some i ↔ ReadsInt i (scalarAt h node) := by
  have hdefault : some (0 : Int32) = some i ↔ i = 0 := by
    rw [Option.some_inj]
    exact eq_comm
  unfold ptIntegerGet
  cases scalarAt h node with
  | none => exact hdefault
  | some v =>
    cases v with
    | null => exact hdefault
    | boolean value => exact hdefault
    | string value => exact hdefault
    | double value => exact Double.toInt32_eq_some
    | integer value => exact Option.some_inj

omit [HashFcn] in
theorem readsInt_iff {o : Option Scalar} {i : Int32} :
    ReadsInt i o ↔ o = some (.integer i) ∨
      (∃ d : Double, o = some (.double d) ∧ Binary64.IsFinite d.bits ∧
        Binary64.truncate d.bits = i.toInt) ∨
      ((¬∃ n, o = some (.integer n)) ∧ (¬∃ d, o = some (.double d)) ∧ i = 0) := by
  cases o with
  | none => simp [ReadsInt]
  | some v => cases v <;> simp [ReadsInt]

/-- `pt_double_get` converts an `int` exactly, and answers 0 where `pt_integer_get` does. -/
theorem ptIntegerGet_ptDoubleGet {h : Heap} {node : Ptr} {i : Int32} :
    ptIntegerGet h node = some i ↔ Binary64.IsFinite (ptDoubleGet h node).bits ∧
      Binary64.truncate (ptDoubleGet h node).bits = i.toInt := by
  have hzero : Binary64.IsFinite 0 ∧ Binary64.truncate 0 = 0 :=
    ⟨Binary64.ofInt_zero ▸ Binary64.isFinite_ofInt (by decide),
      Binary64.ofInt_zero ▸ Binary64.truncate_ofInt (by decide)⟩
  have hdefault : i = 0 ↔
      Binary64.IsFinite (⟨0⟩ : Double).bits ∧ Binary64.truncate (⟨0⟩ : Double).bits = i.toInt := by
    rw [hzero.2]
    constructor
    · rintro rfl
      exact ⟨hzero.1, rfl⟩
    · rintro ⟨-, he⟩
      exact Int32.toInt_inj.mp he.symm
  rw [ptIntegerGet_reads]
  unfold ptDoubleGet
  cases scalarAt h node with
  | none => exact hdefault
  | some v =>
    cases v with
    | null => exact hdefault
    | boolean value => exact hdefault
    | string value => exact hdefault
    | double value => exact Iff.rfl
    | integer value =>
      have hn := natAbs_toInt_lt value
      simp only [ReadsInt, Double.ofInt32, Binary64.truncate_ofInt hn]
      constructor
      · rintro rfl
        exact ⟨Binary64.isFinite_ofInt hn, rfl⟩
      · rintro ⟨-, he⟩
        exact Int32.toInt_inj.mp he

/-- `pt_integer_get` gives the `int` of an integer node, the value of a double rounded toward
zero where that is an `int`, and 0 for any other node or none; on every node it is
`pt_double_get` rounded toward zero. -/
theorem ptIntegerGet_eq_some_iff (h : Heap) (node : Ptr) (i : Int32) :
    (ptIntegerGet h node = some i ↔
      StoredAt h node (.integer i) ∨
      (∃ d, StoredAt h node (.double d) ∧ Binary64.IsFinite d.bits ∧
        (if d.value < 0 then ⌈d.value⌉ else ⌊d.value⌋) = i.toInt) ∨
      ((¬∃ n, StoredAt h node (.integer n)) ∧ (¬∃ d, StoredAt h node (.double d)) ∧ i = 0)) ∧
    (ptIntegerGet h node = some i ↔
      Binary64.IsFinite (ptDoubleGet h node).bits ∧
        (if (ptDoubleGet h node).value < 0 then ⌈(ptDoubleGet h node).value⌉
          else ⌊(ptDoubleGet h node).value⌋) = i.toInt) := by
  simp only [← scalarAt_eq_some, ← Double.truncate_eq]
  exact ⟨ptIntegerGet_reads.trans readsInt_iff, ptIntegerGet_ptDoubleGet⟩

end

/-! ### Everything a caller can read at a node -/

structure Reading where
  type : Option PtType
  isNull : Bool
  boolean : Int32
  integer : Option Int32
  dbl : Double
  string : Option Bytes
  len : UInt32

namespace Tree

def scalar? : Tree → Option Scalar
  | .scalar v => some v
  | _ => none

def reading (t : Tree) : Reading where
  type := t.type
  isNull := t.type == none || t.type == some .null
  boolean := match t.scalar? with
    | some (.boolean value) => value
    | _ => 0
  integer := match t.scalar? with
    | some (.integer value) => some value
    | some (.double value) => value.toInt32
    | _ => some 0
  dbl := match t.scalar? with
    | some (.double value) => value
    | some (.integer value) => .ofInt32 value
    | _ => ⟨0⟩
  string := match t.scalar? with
    | some (.string value) => some value
    | _ => none
  len := match t with
    | .array len _ => len
    | _ => 0

end Tree

variable [HashFcn]

def readNode (h : Heap) (node : Ptr) : Reading where
  type := typeOf h node
  isNull := ptIsNull h node
  boolean := ptBooleanGet h node
  integer := ptIntegerGet h node
  dbl := ptDoubleGet h node
  string := ptStringGet h node
  len := ptArrayLen h node

namespace Located

theorem scalarAt_eq {h : Heap} {l : Located} (hl : In h l) :
    scalarAt h l.ptr = l.tree.scalar? := by
  cases hl with
  | nil => rfl
  | scalar hc => simp only [scalarAt, ptr, Option.bind_some, hc, tree, Tree.scalar?]
  | array hc he => simp only [scalarAt, ptr, Option.bind_some, hc, tree, Tree.scalar?]
  | map hc hi hk hm => simp only [scalarAt, ptr, Option.bind_some, hc, tree, Tree.scalar?]

/-- What is read at a node depends on its tree alone. -/
theorem readNode_eq {h : Heap} {l : Located} (hl : In h l) :
    readNode h l.ptr = l.tree.reading := by
  have hscalar := scalarAt_eq hl
  have htype := typeOf_ptr hl
  have hnull : (l.ptr == none) = (l.tree.type == none) := by
    cases l <;> rfl
  have hlen : ptArrayLen h l.ptr = l.tree.reading.len := by
    cases hl with
    | nil => rfl
    | scalar hc => simp only [ptArrayLen, asArray, ptr, hc, tree, Tree.reading]
    | array hc he => simp only [ptArrayLen, asArray, ptr, hc, tree, Tree.reading]
    | map hc hi hk hm => simp only [ptArrayLen, asArray, ptr, hc, tree, Tree.reading]
  simp only [readNode, ptIsNull, ptBooleanGet, ptIntegerGet, ptDoubleGet, ptStringGet, hscalar,
    htype, hnull, hlen]
  rfl

end Located
end Pillowtalk
