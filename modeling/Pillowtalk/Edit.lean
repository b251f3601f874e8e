import Pillowtalk.Node

/-!
# Editing and freeing (`pillowtalk_impl.c:192-231`, `363-397`, `840-887`)
-/

namespace Pillowtalk
open Addressed

variable [HashFcn]

/-! ### `pt_free_node` -/

-- The recursion goes down the tree, so the number of addresses ever handed
-- out bounds its depth. The table of a map is not kept up to date while its
-- members go: the node that holds it is released right after them.
def freeNode : ℕ → Heap → Ptr → Heap
  | 0, h, _ => h
  | _ + 1, h, none => h
  | fuel + 1, h, some a =>
    match h.cell a with
    | some (.map kvs) =>
      (kvs.items.foldl (fun h cur => (freeNode fuel h (kvValue h cur.elt)).free cur.elt) h).free a
    | some (.array head _) => (head.foldl (fun h node => freeNode fuel h node) h).free a
    | _ => h.free a

def ptFreeNode (h : Heap) (node : Ptr) : Heap := freeNode (h.next + 1) h node

theorem freeNode_shrunk (fuel : ℕ) (h : Heap) (p : Ptr) : Memory.Shrunk h (freeNode fuel h p) := by
  induction fuel generalizing h p with
  | zero => exact Memory.Shrunk.refl h
  | succ fuel ih =>
    cases p with
    | none => exact Memory.Shrunk.refl h
    | some a =>
      simp only [freeNode]
      split
      · next kvs _ =>
        refine Memory.Shrunk.trans ?_ (Memory.shrunk_free _ a)
        refine List.foldlRecOn kvs.items _ (motive := Memory.Shrunk h) (Memory.Shrunk.refl h) ?_
        intro h' hh' cur _
        exact (hh'.trans (ih h' _)).trans (Memory.shrunk_free _ _)
      · next head _ _ =>
        refine Memory.Shrunk.trans ?_ (Memory.shrunk_free _ a)
        refine List.foldlRecOn head _ (motive := Memory.Shrunk h) (Memory.Shrunk.refl h) ?_
        intro h' hh' node _
        exact hh'.trans (ih h' node)
      · exact Memory.shrunk_free _ _

theorem ptFreeNode_shrunk (h : Heap) (p : Ptr) : Memory.Shrunk h (ptFreeNode h p) :=
  freeNode_shrunk _ h p

/-! ### Maps -/

/-- A present key keeps its place and its old value is freed; `NULL` for the
map, the key or the value changes nothing. -/
def ptMapSet (h : Heap) (map : Ptr) (key : Option Bytes) (value : Ptr) : Heap :=
  match asMap h map, key, value with
  | some (a, kvs), some key, some v =>
    match kvs.hashFind (cstr key) with
    | some searchResult =>
      (ptFreeNode h (kvValue h searchResult.elt)).modify searchResult.elt (Node.setValue (some v))
    | none =>
      (h.alloc (.keyValue (cstr key) (some v))).modify a
        (Node.setKeyValues (kvs.hashAddKeyptr (cstr key) h.next))
  | _, _, _ => h

-- Unlike its siblings `pt_map_unset` reads the key without a test for `NULL`.
def ptMapUnset (h : Heap) (map : Ptr) (key : Bytes) : Heap :=
  match asMap h map with
  | some (a, kvs) =>
    match kvs.hashFind (cstr key) with
    | some searchResult =>
      let h := h.modify a (Node.setKeyValues (kvs.hashDelete searchResult))
      (ptFreeNode h (kvValue h searchResult.elt)).free searchResult.elt
    | none => h
  | none => h

/-! ### Arrays -/

def ptArrayPushFront (h : Heap) (array node : Ptr) : Heap :=
  match asArray h array with
  | some (a, head, len) => h.modify a (Node.setArray (node :: head) (len + 1))
  | none => h

def ptArrayPushBack (h : Heap) (array node : Ptr) : Heap :=
  match asArray h array with
  | some (a, head, len) => h.modify a (Node.setArray (head ++ [node]) (len + 1))
  | none => h

-- `break` after the first element that is the pointer `node`.
def ptArrayRemove (h : Heap) (array node : Ptr) : Heap :=
  match asArray h array with
  | some (a, head, len) =>
    if node ∈ head then
      ptFreeNode (h.modify a (Node.setArray (head.erase node) (len - 1))) node
    else h
  | none => h

end Pillowtalk
