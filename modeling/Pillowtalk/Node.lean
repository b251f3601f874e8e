import Mathlib.Data.List.TakeWhile
import Pillowtalk.Library.Memory
import Pillowtalk.Uthash.Hash

/-!
# Nodes in memory (`pillowtalk.h`, `pillowtalk_impl.h`)

A `pt_node_t*` is an address or `NULL`, and the memory holds one node under
each live address. The members of a map lie in nodes of their own, of type
`PT_KEY_VALUE`; the links of an array (`TAILQ_ENTRY`) are the order of a list.
A `char*` is given by the bytes the code wrote before its closing NUL, so a
NUL among them ends the string early for every reader that uses `strlen`.
-/

namespace Pillowtalk
open Addressed

-- A double is moved and compared to nothing; only its bits matter here.
structure Double where
  bits : UInt64
deriving DecidableEq

def Double.isFinite (d : Double) : Bool := (d.bits >>> 52) &&& 0x7ff != 0x7ff

inductive PtType where
  | map
  | array
  | null
  | boolean
  | integer
  | double
  | string
  | keyValue
deriving DecidableEq

/-- The payload of the five node types that hold no other node. -/
inductive Scalar where
  | null
  | boolean (value : Int32)
  | integer (value : Int32)
  | double (value : Double)
  | string (value : Bytes)
deriving DecidableEq

def Scalar.type : Scalar → PtType
  | .null => .null
  | .boolean _ => .boolean
  | .integer _ => .integer
  | .double _ => .double
  | .string _ => .string

abbrev Ptr := Option ℕ

/-- The C string that starts where `s` was written. -/
def cstr (s : Bytes) : Bytes := s.takeWhile (· ≠ 0)

theorem cstr_of_not_mem {s : Bytes} (h : 0 ∉ s) : cstr s = s := by
  apply List.takeWhile_eq_self_iff.mpr
  intro b hb
  have hne : b ≠ 0 := fun he => h (he ▸ hb)
  exact decide_eq_true hne

theorem zero_not_mem_cstr (s : Bytes) : 0 ∉ cstr s := by
  intro h
  have hp := List.mem_takeWhile_imp h
  simp at hp

variable [HashFcn]

inductive Node where
  | scalar (v : Scalar)
  | array (head : List Ptr) (len : UInt32)
  | map (keyValues : Uthash ℕ)
  | keyValue (key : Bytes) (value : Ptr)

def Node.type : Node → PtType
  | .scalar v => v.type
  | .array _ _ => .array
  | .map _ => .map
  | .keyValue _ _ => .keyValue

abbrev Heap := Memory Node

def heapEmpty : Heap := Memory.empty

/-! ### Looking through a pointer -/

def asMap (h : Heap) (p : Ptr) : Option (ℕ × Uthash ℕ) :=
  match p with
  | none => none
  | some a => match h.cell a with
    | some (.map kvs) => some (a, kvs)
    | _ => none

def asArray (h : Heap) (p : Ptr) : Option (ℕ × List Ptr × UInt32) :=
  match p with
  | none => none
  | some a => match h.cell a with
    | some (.array head len) => some (a, head, len)
    | _ => none

/-- `node->type`. -/
def typeOf (h : Heap) (p : Ptr) : Option PtType := (p.bind h.cell).map Node.type

/-- `kv->value`. -/
def kvValue (h : Heap) (kv : ℕ) : Ptr :=
  match h.cell kv with
  | some (.keyValue _ value) => value
  | _ => none

/-- `kv->value = value`. -/
def Node.setValue (value : Ptr) : Node → Node
  | .keyValue key _ => .keyValue key value
  | n => n

def Node.setKeyValues (kvs : Uthash ℕ) : Node → Node
  | .map _ => .map kvs
  | n => n

def Node.setArray (head : List Ptr) (len : UInt32) : Node → Node
  | .array _ _ => .array head len
  | n => n

theorem asMap_eq_some {h : Heap} {p : Ptr} {a : ℕ} {kvs : Uthash ℕ} :
    asMap h p = some (a, kvs) ↔ p = some a ∧ h.cell a = some (.map kvs) := by
  cases p with
  | none => simp [asMap]
  | some b =>
    simp only [asMap]
    constructor
    · intro hm
      split at hm
      · next hc =>
        cases hm
        exact ⟨rfl, hc⟩
      · cases hm
    · rintro ⟨he, hc⟩
      cases he
      rw [hc]

theorem asArray_eq_some {h : Heap} {p : Ptr} {a : ℕ} {head : List Ptr} {len : UInt32} :
    asArray h p = some (a, head, len) ↔ p = some a ∧ h.cell a = some (.array head len) := by
  cases p with
  | none => simp [asArray]
  | some b =>
    simp only [asArray]
    constructor
    · intro hm
      split at hm
      · next hc =>
        cases hm
        exact ⟨rfl, hc⟩
      · cases hm
    · rintro ⟨he, hc⟩
      cases he
      rw [hc]

theorem kvValue_of_cell {h : Heap} {kv : ℕ} {key : Bytes} {value : Ptr}
    (hc : h.cell kv = some (.keyValue key value)) : kvValue h kv = value := by
  simp only [kvValue, hc]

/-! ### Constructors (`pillowtalk_impl.c:324-361`, `399-413`) -/

def newNode (h : Heap) (n : Node) : Heap × Ptr := (h.alloc n, some h.next)

def ptMapNew (h : Heap) : Heap × Ptr := newNode h (.map hashNull)
def ptNullNew (h : Heap) : Heap × Ptr := newNode h (.scalar .null)
def ptBoolNew (h : Heap) (boolean : Int32) : Heap × Ptr := newNode h (.scalar (.boolean boolean))
def ptIntegerNew (h : Heap) (integer : Int32) : Heap × Ptr :=
  newNode h (.scalar (.integer integer))
def ptDoubleNew (h : Heap) (dbl : Double) : Heap × Ptr := newNode h (.scalar (.double dbl))
-- `strdup` copies what `strlen` sees
def ptStringNew (h : Heap) (str : Bytes) : Heap × Ptr := newNode h (.scalar (.string (cstr str)))
def ptArrayNew (h : Heap) : Heap × Ptr := newNode h (.array [] 0)

/-! ### Lookup (`pillowtalk_impl.c:151-190`) -/

-- The key is a `const char*`: `none` is `NULL`.
def ptMapGet (h : Heap) (map : Ptr) (key : Option Bytes) : Ptr :=
  match asMap h map, key with
  | some (_, kvs), some key =>
    match kvs.hashFind (cstr key) with
    | some searchResult => kvValue h searchResult.elt
    | none => none
  | _, _ => none

def ptArrayLen (h : Heap) (array : Ptr) : UInt32 :=
  match asArray h array with
  | some (_, _, len) => len
  | none => 0

-- `index` is an `int` and is compared as an `unsigned int`.
def arrayGetFrom (idx : UInt32) : Int32 → List Ptr → Ptr
  | _, [] => none
  | index, cur :: rest =>
    if index.toUInt32 = idx then cur else arrayGetFrom idx (index + 1) rest

def ptArrayGet (h : Heap) (array : Ptr) (idx : UInt32) : Ptr :=
  match asArray h array with
  | some (_, head, _) => arrayGetFrom idx 0 head
  | none => none

omit [HashFcn] in
/-- The walk of `pt_array_get` from `index` on. An index that has wrapped around
has passed `idx` before. -/
theorem arrayGetFrom_eq (idx : UInt32) (l : List Ptr) (k : ℕ) (hk : k ≤ idx.toNat) :
    arrayGetFrom idx (Int32.ofNat k) l = (l[idx.toNat - k]?).getD none := by
  have hlt := idx.toNat_lt
  induction l generalizing k with
  | nil => rfl
  | cons cur rest ih =>
    have hindex : (UInt32.ofNat k).toNat = k := by
      rw [UInt32.toNat_ofNat', Nat.mod_eq_of_lt (by omega)]
    simp only [arrayGetFrom, Int32.toUInt32_ofNat']
    split
    · next he =>
      have hidx : idx.toNat - k = 0 := by
        rw [← he, hindex]
        omega
      rw [hidx]
      rfl
    · next hne =>
      have hneq : k ≠ idx.toNat := by
        intro he
        exact hne (UInt32.toNat_inj.mp (hindex.trans he))
      have hnext : Int32.ofNat k + 1 = Int32.ofNat (k + 1) := (Int32.ofNat_add k 1).symm
      have hsub : idx.toNat - k = (idx.toNat - (k + 1)) + 1 := by omega
      rw [hnext, ih (k + 1) (by omega), hsub, List.getElem?_cons_succ]

end Pillowtalk
