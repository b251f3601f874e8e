import Pillowtalk.Edit

/-!
# Cloning and merging (`pillowtalk_impl.c:452-523`)

Both functions recurse over nodes, so they take a bound on the depth; the
public entry points pass the number of addresses handed out, which no tree in
memory exceeds. Each loop is a function of its own that takes the recursive
call as an argument.
-/

namespace Pillowtalk
open Addressed

variable [HashFcn]

/-! ### `pt_clone` -/

def cloneScalar (h : Heap) : Scalar → Heap × Ptr
  | .null => ptNullNew h
  | .boolean value => ptBoolNew h value
  | .integer value => ptIntegerNew h value
  | .double value => ptDoubleNew h value
  | .string value => ptStringNew h value

def cloneMembers (clone : Heap → Ptr → Heap × Ptr) (target : Ptr) :
    Heap → List (HashHandle ℕ) → Heap
  | h, [] => h
  | h, keyValue :: rest =>
    match h.cell keyValue.elt with
    | some (.keyValue key value) =>
      let v := clone h value
      cloneMembers clone target (ptMapSet v.1 target (some key) v.2) rest
    | _ => cloneMembers clone target h rest

def cloneElems (clone : Heap → Ptr → Heap × Ptr) (target : Ptr) : Heap → List Ptr → Heap
  | h, [] => h
  | h, elem :: rest =>
    let v := clone h elem
    cloneElems clone target (ptArrayPushBack v.1 target v.2) rest

def cloneNode : ℕ → Heap → Ptr → Heap × Ptr
  | 0, h, _ => (h, none)
  | _ + 1, h, none => (h, none)
  | fuel + 1, h, some a =>
    match h.cell a with
    | some (.map kvs) =>
      let clone := ptMapNew h
      (cloneMembers (cloneNode fuel) clone.2 clone.1 kvs.items, clone.2)
    | some (.array head _) =>
      let clone := ptArrayNew h
      (cloneElems (cloneNode fuel) clone.2 clone.1 head, clone.2)
    | some (.scalar v) => cloneScalar h v
    | _ => (h, none)

def ptClone (h : Heap) (root : Ptr) : Heap × Ptr := cloneNode (h.next + 1) h root

/-! ### `pt_map_update` -/

/-- `key_value->hh.next`, which is read after the body. The body may have added members to
the map it walks, when the additions lie within `root`; if it has freed the member, there is
no next one to go on with. -/
def nextMember (h : Heap) (additions : ℕ) (keyValue : HashHandle ℕ) : Option (HashHandle ℕ) :=
  match h.cell additions with
  | some (.map kvs) => (kvs.items.dropWhile fun hd => hd.elt ≠ keyValue.elt).tail.head?
  | _ => none

theorem nextMember_of_items {h : Heap} {a : ℕ} {kvs : Uthash ℕ} {pre post : List (HashHandle ℕ)}
    {keyValue : HashHandle ℕ} (hc : h.cell a = some (.map kvs))
    (hi : kvs.items = pre ++ keyValue :: post) (hpre : ∀ hd ∈ pre, hd.elt ≠ keyValue.elt) :
    nextMember h a keyValue = post.head? := by
  have hdrop : (pre ++ keyValue :: post).dropWhile (fun hd => hd.elt ≠ keyValue.elt) =
      keyValue :: post := by
    rw [List.dropWhile_append_of_pos fun hd hm => decide_eq_true (hpre hd hm),
      List.dropWhile_cons_of_neg (by simp)]
  simp only [nextMember, hc, hi, hdrop, List.tail_cons]

/-- The body of the loop; none is its `return 1`. `existing` keeps its value then, and the
members after it are not looked at. The result of the recursive call is dropped. -/
def updateMember (update : Heap → Ptr → Ptr → Heap × Int32) (root : Ptr) (h : Heap)
    (keyValue : HashHandle ℕ) : Option Heap :=
  match h.cell keyValue.elt with
  | some (.keyValue key (some value)) =>
    let existing := ptMapGet h root (some key)
    if existing = none then
      let v := ptClone h (some value)
      some (ptMapSet v.1 root (some key) v.2)
    else if typeOf h (some value) ≠ typeOf h existing then none
    else if typeOf h (some value) = some .map then some (update h existing (some value)).1
    else
      let v := ptClone h (some value)
      some (ptMapSet v.1 root (some key) v.2)
  | _ => some h

def updateFrom (update : Heap → Ptr → Ptr → Heap × Int32) (root : Ptr) (additions : ℕ) :
    ℕ → Heap → Option (HashHandle ℕ) → Heap × Int32
  | _, h, none => (h, 0)
  | 0, h, some _ => (h, 1)
  | fuel + 1, h, some keyValue =>
    match updateMember update root h keyValue with
    | none => (h, 1)
    | some h => updateFrom update root additions fuel h (nextMember h additions keyValue)

-- `fuel` bounds the depth and every walk. `append` is handed down and never read.
def updateMap : ℕ → Heap → Ptr → Ptr → Int32 → Heap × Int32
  | 0, h, _, _, _ => (h, 1)
  | fuel + 1, h, root, additions, append =>
    match asMap h root, asMap h additions with
    | some _, some (a, kvs) =>
      updateFrom (fun h existing value => updateMap fuel h existing value append) root a
        (fuel + 1) h kvs.items.head?
    | _, _ => (h, 1)

/-- Two trees without a common node have fewer members than there are addresses. -/
def ptMapUpdate (h : Heap) (root additions : Ptr) (append : Int32) : Heap × Int32 :=
  updateMap (h.next + 1) h root additions append

end Pillowtalk
