import Pillowtalk.Library.Iteration
import Pillowtalk.Located

/-!
# Iterators (`pillowtalk_impl.c:233-276`)

The cursor of an iterator points to an element or a member. While nobody edits
the container, what it can still reach is the rest of the list.
-/

namespace Pillowtalk
open Addressed Iteration

inductive PtIterator where
  | array (nextArrayElem : List Ptr)
  | map (nextMapPair : List (HashHandle ℕ))

/-- What a call of `pt_iterator_next` gives: the node it returns and what it
stores in `*key`, if it stores anything. -/
abbrev Visit := Ptr × Option Bytes

variable [HashFcn]

-- A member that is no longer allocated has nothing to read.
def visitPair (h : Heap) (kv : HashHandle ℕ) : Visit :=
  match h.cell kv.elt with
  | some (.keyValue key value) => (value, some key)
  | _ => (none, none)

def ptIterator (h : Heap) (node : Ptr) : Option PtIterator :=
  match node.bind h.cell with
  | some (.array head _) => some (.array head)
  | some (.map kvs) => some (.map kvs.items)
  | _ => none

/-- `NULL` is the answer both for a member without a node and at the end. -/
def ptIteratorNext (h : Heap) : Option PtIterator → Option PtIterator × Visit
  | some (.map (kv :: next)) => (some (.map next), visitPair h kv)
  | some (.array (elem :: next)) => (some (.array next), (elem, none))
  | iter => (iter, (none, none))

/-- `while (pt_iterator_next(iter,&key))` stops here. -/
def Visit.Stops (v : Visit) : Prop := v.1 = none

/-- What the iterator has still to visit. -/
def PtIterator.view (h : Heap) : Option PtIterator → List Visit
  | none => []
  | some (.array next) => next.map fun node => (node, none)
  | some (.map next) => next.map (visitPair h)

theorem ptIterator_walks (h : Heap) :
    Walks (ptIteratorNext h) Visit.Stops (PtIterator.view h) where
  empty
    | none, _ => ⟨rfl, rfl⟩
    | some (.array []), _ => ⟨rfl, rfl⟩
    | some (.map []), _ => ⟨rfl, rfl⟩
  more
    | some (.array (elem :: next)), r, rs, hv => by
      simp only [PtIterator.view, List.map_cons, List.cons.injEq] at hv
      exact hv
    | some (.map (kv :: next)), r, rs, hv => by
      simp only [PtIterator.view, List.map_cons, List.cons.injEq] at hv
      exact hv

/-! ### What there is to visit -/

namespace Located

/-- The members of a container in their order, as `pt_iterator_next` should give them. -/
def visits : Located → List Visit
  | .array _ _ es => es.map fun e => (e.ptr, none)
  | .map _ ms => ms.map fun m => (m.2.ptr, some m.1.key)
  | _ => []

theorem view_ptIterator {h : Heap} {l : Located} (hl : In h l) :
    PtIterator.view h (ptIterator h l.ptr) = l.visits := by
  cases hl with
  | nil => rfl
  | scalar hc =>
    simp only [ptr, ptIterator, Option.bind_some, hc]
    rfl
  | array hc he =>
    simp only [ptr, ptIterator, Option.bind_some, hc, PtIterator.view, visits, List.map_map]
    rfl
  | map hc hi hk hm =>
    simp only [ptr, ptIterator, Option.bind_some, hc, PtIterator.view, visits, hi, List.map_map]
    refine List.map_congr_left fun m hmem => ?_
    have hpair : visitPair h m.1 = (m.2.ptr, some m.1.key) := by
      simp only [visitPair, hk m hmem]
    exact hpair

end Located
end Pillowtalk
