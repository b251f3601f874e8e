import Pillowtalk.Lengths
import Pillowtalk.Text

/-!
# From a text to its tree (`pillowtalk_impl.c:446-450`, `803-838`)

`parse_json` hands the text over and asks for no completion, so a token that
only the end of the input would finish is not delivered.
-/

namespace Pillowtalk
open Addressed Allocated

/-! ### Trees that represent a value -/

def Scalar.Represents : Scalar → Literal → Prop
  | .null, .null => True
  | .boolean value, .boolean b => value ≠ 0 ↔ b = true
  | .integer value, .integer i => value.toInt = i.toInt
  | .double value, .double d => value = d
  | .string value, .string s => cstr value = s
  | _, _ => False

namespace Tree

mutual
def Represents : Tree → Json → Prop
  | .scalar s, .literal v => s.Represents v
  | .array len ts, .array es => len = UInt32.ofNat es.length ∧ RepresentsElems ts es
  | .map ms, .object ns => RepresentsMembers ms ns
  | _, _ => False
def RepresentsElems : List Tree → List Json → Prop
  | [], [] => True
  | t :: ts, e :: es => t.Represents e ∧ RepresentsElems ts es
  | _, _ => False
def RepresentsMembers : List (Bytes × Tree) → List (Bytes × Json) → Prop
  | [], [] => True
  | (k, t) :: ms, (k', v) :: ns => cstr k = k' ∧ t.Represents v ∧ RepresentsMembers ms ns
  | _, _ => False
end

mutual
/-- The nodes of a tree, those of its members included. -/
def size : Tree → ℕ
  | .nil => 0
  | .scalar _ => 1
  | .array _ es => sizeElems es + 1
  | .map ms => sizeMembers ms + 1
def sizeElems : List Tree → ℕ
  | [] => 0
  | e :: es => e.size + sizeElems es
def sizeMembers : List (Bytes × Tree) → ℕ
  | [] => 0
  | (_, v) :: ms => v.size + 1 + sizeMembers ms
end

theorem sizeElems_append (es fs : List Tree) :
    sizeElems (es ++ fs) = sizeElems es + sizeElems fs := by
  induction es with
  | nil => simp [sizeElems]
  | cons e es ih =>
    simp only [List.cons_append, sizeElems, ih]
    omega

theorem sizeMembers_append (ms ns : List (Bytes × Tree)) :
    sizeMembers (ms ++ ns) = sizeMembers ms + sizeMembers ns := by
  induction ms with
  | nil => simp [sizeMembers]
  | cons m ms ih =>
    obtain ⟨k, v⟩ := m
    simp only [List.cons_append, sizeMembers, ih]
    omega

end Tree

def nodes (cs : List Callback) : ℕ := cs.countP Callback.stores

theorem nodes_append (cs ds : List Callback) : nodes (cs ++ ds) = nodes cs + nodes ds :=
  List.countP_append

theorem nodes_cons_of_stores {c : Callback} (hc : c.stores = true) (cs : List Callback) :
    nodes (c :: cs) = nodes cs + 1 := List.countP_cons_of_pos hc

theorem nodes_literal (v : Literal) : nodes [v.callback] = 1 := by
  cases v <;> rfl

namespace Json

theorem nodes_array (es : List Json) :
    nodes (Json.array es).callbacks = nodes (callbacksElems es) + 1 := by
  rw [callbacks, nodes_cons_of_stores rfl, nodes_append]
  rfl

theorem nodes_object (ms : List (Bytes × Json)) :
    nodes (Json.object ms).callbacks = nodes (callbacksMembers ms) + 1 := by
  rw [callbacks, nodes_cons_of_stores rfl, nodes_append]
  rfl

theorem nodes_member (k : Bytes) (v : Json) (ms : List (Bytes × Json)) :
    nodes (callbacksMembers ((k, v) :: ms)) = nodes v.callbacks + 1 + nodes (callbacksMembers ms) := by
  rw [callbacksMembers, nodes_cons_of_stores rfl, nodes_append]
  omega

theorem sizeElems_tree {es : List Json} (h : ∀ e ∈ es, e.tree.size = nodes e.callbacks) :
    Tree.sizeElems (treeElems es) = nodes (callbacksElems es) := by
  induction es with
  | nil => rfl
  | cons e es ih =>
    rw [treeElems, Tree.sizeElems, callbacksElems, nodes_append, h e (List.mem_cons_self ..),
      ih fun f hf => h f (List.mem_cons_of_mem _ hf)]

theorem sizeMembers_tree {ms : List (Bytes × Json)}
    (h : ∀ m ∈ ms, m.2.tree.size = nodes m.2.callbacks) :
    Tree.sizeMembers (treeMembers ms) = nodes (callbacksMembers ms) := by
  induction ms with
  | nil => rfl
  | cons m ms ih =>
    obtain ⟨k, v⟩ := m
    have hval : v.tree.size = nodes v.callbacks := h (k, v) (List.mem_cons_self ..)
    rw [treeMembers, Tree.sizeMembers, nodes_member, hval,
      ih fun n hn => h n (List.mem_cons_of_mem _ hn)]

theorem size_tree (j : Json) : j.tree.size = nodes j.callbacks := by
  induction j with
  | literal v => rw [tree, Tree.size, callbacks, nodes_literal]
  | array es ih => rw [tree, Tree.size, nodes_array, sizeElems_tree ih]
  | object ms ih => rw [tree, Tree.size, nodes_object, sizeMembers_tree ih]

end Json

theorem OpenDoc.size_tree (o : OpenDoc) : o.tree.size = nodes o.callbacks := by
  have helems : ∀ es : List Json,
      Tree.sizeElems (Json.treeElems es) = nodes (Json.callbacksElems es) :=
    fun es => Json.sizeElems_tree fun e _ => e.size_tree
  have hmembers : ∀ ms : List (Bytes × Json),
      Tree.sizeMembers (Json.treeMembers ms) = nodes (Json.callbacksMembers ms) :=
    fun ms => Json.sizeMembers_tree fun m _ => m.2.size_tree
  induction o with
  | array done => rw [tree, Tree.size, callbacks, nodes_cons_of_stores rfl, helems]
  | object done => rw [tree, Tree.size, callbacks, nodes_cons_of_stores rfl, hmembers]
  | objectKey done k =>
    rw [tree, Tree.size, callbacks, nodes_cons_of_stores rfl, nodes_append, Tree.sizeMembers_append,
      hmembers]
    rfl
  | inArray done inner ih =>
    rw [tree, Tree.size, callbacks, nodes_cons_of_stores rfl, nodes_append, Tree.sizeElems_append,
      helems, Tree.sizeElems, ih]
    rfl
  | inObject done k inner ih =>
    rw [tree, Tree.size, callbacks, nodes_cons_of_stores rfl, nodes_append,
      nodes_cons_of_stores rfl, Tree.sizeMembers_append, hmembers, Tree.sizeMembers, ih]
    rfl

theorem Progress.size_tree (r : Progress) : r.tree.size = nodes r.callbacks := by
  cases r with
  | unread => rfl
  | unfinished o => exact o.size_tree
  | finished j => exact j.size_tree

/-! ### A whole document is represented -/

theorem Literal.represents {v : Literal} (h : v.callback.Fits) : v.scalar.Represents v := by
  cases v with
  | null => trivial
  | boolean b => cases b <;> simp [scalar, Scalar.Represents]
  | integer i =>
    have hi := (toInt64_toInt32_eq_iff i).mpr h
    have hint := congrArg Int64.toInt hi
    rw [Int32.toInt_toInt64] at hint
    exact hint
  | double d => rfl
  | string s => exact cstr_of_not_mem h

section
variable [HashFcn]

section
variable {strtod : Bytes → Double} {j : Json}

end
end

/-! ### The text `7` -/

section
local instance fromJsonFcn : HashFcn := hashMurFcn

end

end Pillowtalk
