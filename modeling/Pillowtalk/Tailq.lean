import Pillowtalk.Library.Links
import Pillowtalk.Library.Regions
import Pillowtalk.Edit

/-!
# Arrays as tail queues (`bsd_queue.h:410-580`, `pillowtalk_impl.c:176-231`, `851-861`)

An array is a `TAILQ` of elements that are allocated one by one and linked both
ways; the link back points at the field that holds the link forward. The
macros are those of a build with `_KERNEL` and `INVARIANTS`, where a broken link is a panic.
All arrays of a program share the memory of the elements.
-/

namespace Pillowtalk
open Addressed Links

/-- `struct pt_array_elem_t**`: `&head->tqh_first` of an array, or
`&elem->entries.tqe_next` of an element. -/
inductive Slot where
  | first (array : ℕ)
  | next (elem : ℕ)
deriving DecidableEq

/-- `pt_array_elem_t`. -/
structure ArrayElem where
  node : Ptr
  tqeNext : Option ℕ
  tqePrev : Slot

/-- `pt_array_t`. -/
structure ArrayHead where
  tqhFirst : Option ℕ
  tqhLast : Slot
  len : UInt32

structure Queues where
  heads : Memory ArrayHead
  elems : Memory ArrayElem

namespace Queues

def empty : Queues := ⟨Memory.empty, Memory.empty⟩

/-! ### Fields -/

def first (q : Queues) (a : ℕ) : Option ℕ := (q.heads.cell a).bind ArrayHead.tqhFirst

def last (q : Queues) (a : ℕ) : Slot := ((q.heads.cell a).map ArrayHead.tqhLast).getD (.first a)

def next (q : Queues) (e : ℕ) : Option ℕ := (q.elems.cell e).bind ArrayElem.tqeNext

def prev (q : Queues) (e : ℕ) : Slot := ((q.elems.cell e).map ArrayElem.tqePrev).getD (.next e)

def node (q : Queues) (e : ℕ) : Ptr := (q.elems.cell e).bind ArrayElem.node

def setFirst (q : Queues) (a : ℕ) (p : Option ℕ) : Queues :=
  { q with heads := q.heads.modify a fun hd => { hd with tqhFirst := p } }

def setLast (q : Queues) (a : ℕ) (s : Slot) : Queues :=
  { q with heads := q.heads.modify a fun hd => { hd with tqhLast := s } }

def setLen (q : Queues) (a : ℕ) (len : UInt32) : Queues :=
  { q with heads := q.heads.modify a fun hd => { hd with len := len } }

def setNext (q : Queues) (e : ℕ) (p : Option ℕ) : Queues :=
  { q with elems := q.elems.modify e fun x => { x with tqeNext := p } }

def setPrev (q : Queues) (e : ℕ) (s : Slot) : Queues :=
  { q with elems := q.elems.modify e fun x => { x with tqePrev := s } }

def load (q : Queues) : Slot → Option ℕ
  | .first a => q.first a
  | .next e => q.next e

def store (q : Queues) : Slot → Option ℕ → Queues
  | .first a, p => q.setFirst a p
  | .next e, p => q.setNext e p

/-! ### The macros (`bsd_queue.h:434-560`) -/

def checkHead (q : Queues) (a : ℕ) : Bool :=
  match q.first a with
  | some f => q.prev f == .first a
  | none => true

def checkTail (q : Queues) (a : ℕ) : Bool := q.load (q.last a) == none

def checkNext (q : Queues) (e : ℕ) : Bool :=
  match q.next e with
  | some n => q.prev n == .next e
  | none => true

def checkPrev (q : Queues) (e : ℕ) : Bool := q.load (q.prev e) == some e

-- `none` is a panic
def tailqInsertHead (q : Queues) (a e : ℕ) : Option Queues :=
  if q.checkHead a then
    let q := q.setNext e (q.first a)
    let q := match q.next e with
      | some f => q.setPrev f (.next e)
      | none => q.setLast a (.next e)
    let q := q.setFirst a (some e)
    some (q.setPrev e (.first a))
  else none

def tailqInsertTail (q : Queues) (a e : ℕ) : Option Queues :=
  if q.checkTail a then
    let q := q.setNext e none
    let q := q.setPrev e (q.last a)
    let q := q.store (q.last a) (some e)
    some (q.setLast a (.next e))
  else none

/-- What comes after an element that leaves, or the head, gets its link back. -/
def linkBack (q : Queues) (a : ℕ) (next : Option ℕ) (prev : Slot) : Queues :=
  match next with
  | some n => q.setPrev n prev
  | none => q.setLast a prev

def tailqRemove (q : Queues) (a e : ℕ) : Option Queues :=
  if q.checkNext e && q.checkPrev e then
    let q := q.linkBack a (q.next e) (q.prev e)
    some (q.store (q.prev e) (q.next e))
  else none

/-! ### The functions on arrays -/

-- `malloc` leaves the links as they are; the macros write both
def newElem (q : Queues) (a : ℕ) (node : Ptr) : Queues :=
  { q with elems := q.elems.alloc ⟨node, none, .first a⟩ }

def freeElem (q : Queues) (e : ℕ) : Queues := { q with elems := q.elems.free e }

def arrayNew (q : Queues) : Queues :=
  { q with heads := q.heads.alloc ⟨none, .first q.heads.next, 0⟩ }

def pushFront (q : Queues) (a : ℕ) (node : Ptr) : Option Queues :=
  match q.heads.cell a with
  | some hd => ((q.newElem a node).setLen a (hd.len + 1)).tailqInsertHead a q.elems.next
  | none => some q

def pushBack (q : Queues) (a : ℕ) (node : Ptr) : Option Queues :=
  match q.heads.cell a with
  | some hd => ((q.newElem a node).setLen a (hd.len + 1)).tailqInsertTail a q.elems.next
  | none => some q

/-- The loop of `pt_array_remove` from `cur` on; the second component is what it
passes to `pt_free_node`. -/
def removeFrom (q : Queues) (a : ℕ) (node : Ptr) : ℕ → Option ℕ → Option (Queues × List Ptr)
  | 0, _ => some (q, [])
  | _ + 1, none => some (q, [])
  | fuel + 1, some cur =>
    if q.node cur = node then
      (q.tailqRemove a cur).map fun q =>
        (((q.freeElem cur).setLen a (((q.heads.cell a).map ArrayHead.len).getD 0 - 1)),
          [q.node cur])
    else removeFrom q a node fuel (q.next cur)

def remove (q : Queues) (a : ℕ) (node : Ptr) : Option (Queues × List Ptr) :=
  q.removeFrom a node q.elems.next (q.first a)

/-- The loop of `pt_array_get`. -/
def getFrom (q : Queues) (idx : UInt32) : ℕ → Int32 → Option ℕ → Ptr
  | 0, _, _ => none
  | _, _, none => none
  | fuel + 1, index, some cur =>
    if index.toUInt32 = idx then q.node cur else getFrom q idx fuel (index + 1) (q.next cur)

def get (q : Queues) (a : ℕ) (idx : UInt32) : Ptr :=
  q.getFrom idx q.elems.next 0 (q.first a)

/-- `TAILQ_FOREACH`. -/
def nodesFrom (q : Queues) : ℕ → Option ℕ → List Ptr
  | 0, _ => []
  | _, none => []
  | fuel + 1, some cur => q.node cur :: nodesFrom q fuel (q.next cur)

def nodes (q : Queues) (a : ℕ) : List Ptr := q.nodesFrom q.elems.next (q.first a)

/-- `free_array_node`: what each round removes goes to `pt_free_node`. -/
def freeElems (q : Queues) (a : ℕ) : ℕ → Option (Queues × List Ptr)
  | 0 => some (q, [])
  | fuel + 1 =>
    match q.first a with
    | none => some (q, [])
    | some elem =>
      (q.tailqRemove a elem).bind fun q =>
        (freeElems (q.freeElem elem) a fuel).map fun r => (r.1, q.node elem :: r.2)

def freeArray (q : Queues) (a : ℕ) : Option (Queues × List Ptr) :=
  (q.freeElems a q.elems.next).map fun r => ({ r.1 with heads := r.1.heads.free a }, r.2)

/-! ### Stores -/

theorem elems_store (q : Queues) (s : Slot) (p : Option ℕ) (e : ℕ) :
    (q.store s p).elems.cell e = if s = .next e then
      (q.elems.cell e).map fun x => { x with tqeNext := p } else q.elems.cell e := by
  cases s with
  | first a => rfl
  | next b => simp only [store, setNext, Memory.modify_cell, Slot.next.injEq, eq_comm]

theorem heads_store (q : Queues) (s : Slot) (p : Option ℕ) (b : ℕ) :
    (q.store s p).heads.cell b = if s = .first b then
      (q.heads.cell b).map fun hd => { hd with tqhFirst := p } else q.heads.cell b := by
  cases s with
  | first a => simp only [store, setFirst, Memory.modify_cell, Slot.first.injEq, eq_comm]
  | next e => rfl

theorem elems_linkBack (q : Queues) (a : ℕ) (n : Option ℕ) (s : Slot) (e : ℕ) :
    (q.linkBack a n s).elems.cell e = if n = some e then
      (q.elems.cell e).map fun x => { x with tqePrev := s } else q.elems.cell e := by
  cases n with
  | none => rfl
  | some b => simp only [linkBack, setPrev, Memory.modify_cell, Option.some.injEq, eq_comm]

theorem heads_linkBack (q : Queues) (a : ℕ) (n : Option ℕ) (s : Slot) (b : ℕ) :
    (q.linkBack a n s).heads.cell b = if n = none ∧ b = a then
      (q.heads.cell b).map fun hd => { hd with tqhLast := s } else q.heads.cell b := by
  cases n with
  | none => simp only [linkBack, setLast, Memory.modify_cell, true_and]
  | some e => simp only [linkBack, setPrev, reduceCtorEq, false_and, if_false]

theorem heads_next_store (q : Queues) (s : Slot) (p : Option ℕ) :
    (q.store s p).heads.next = q.heads.next := by
  cases s <;> rfl

theorem elems_next_store (q : Queues) (s : Slot) (p : Option ℕ) :
    (q.store s p).elems.next = q.elems.next := by
  cases s <;> rfl

theorem heads_next_linkBack (q : Queues) (a : ℕ) (n : Option ℕ) (s : Slot) :
    (q.linkBack a n s).heads.next = q.heads.next := by
  cases n <;> rfl

theorem elems_next_linkBack (q : Queues) (a : ℕ) (n : Option ℕ) (s : Slot) :
    (q.linkBack a n s).elems.next = q.elems.next := by
  cases n <;> rfl

/-! ### A queue -/

/-- The address of the pointer that an element holds to the one after it. -/
def slot (x : ℕ × Ptr) : Slot := .next x.1

/-- The element `x.1` holds the node `x.2` and is linked to `p` and `n`. -/
def Linked (m : Memory ArrayElem) (x : ℕ × Ptr) (p : Slot) (n : Option (ℕ × Ptr)) : Prop :=
  m.cell x.1 = some ⟨x.2, n.map Prod.fst, p⟩

theorem lastLink_eq_next {a e : ℕ} {l : List (ℕ × Ptr)} :
    lastLink slot (.first a) l = .next e ↔ l.getLast?.map Prod.fst = some e := by
  rw [lastLink_eq]
  cases l.getLast? <;> simp [slot]

theorem lastLink_eq_first {a b : ℕ} {l : List (ℕ × Ptr)} :
    lastLink slot (.first a) l = .first b ↔ l = [] ∧ a = b := by
  rcases List.eq_nil_or_concat' l with rfl | ⟨l, x, rfl⟩
  · simp [lastLink]
  · simp [lastLink_eq, slot]

/-- The array at `a` is made up of the elements `l`. -/
structure Holds (q : Queues) (a : ℕ) (l : List (ℕ × Ptr)) (len : UInt32) : Prop where
  head : q.heads.cell a = some ⟨l.head?.map Prod.fst, lastLink slot (.first a) l, len⟩
  chain : Chain slot (Linked q.elems) (.first a) l none
  nodup : (l.map Prod.fst).Nodup

/-- What changes lies in the array `a` and the elements `es`. -/
structure Within (q q' : Queues) (a : ℕ) (es : List ℕ) : Prop where
  heads_next : q'.heads.next = q.heads.next
  heads : ∀ b, b ≠ a → q'.heads.cell b = q.heads.cell b
  elems_next : q'.elems.next = q.elems.next
  elems : ∀ x, x ∉ es → q'.elems.cell x = q.elems.cell x

namespace Holds
variable {q : Queues} {a e : ℕ} {x : ℕ × Ptr} {l l₁ l₂ : List (ℕ × Ptr)} {len : UInt32}

theorem first (h : Holds q a l len) : q.first a = l.head?.map Prod.fst := by
  rw [Queues.first, h.head]
  rfl

theorem last (h : Holds q a l len) : q.last a = lastLink slot (.first a) l := by
  rw [Queues.last, h.head]
  rfl

theorem live (h : Holds q a l len) {x : ℕ × Ptr} (hx : x ∈ l) :
    ∃ c, q.elems.cell x.1 = some c := by
  obtain ⟨pre, post, rfl⟩ := List.append_of_mem hx
  exact ⟨_, h.chain.mid⟩

theorem checkHead (h : Holds q a l len) : q.checkHead a = true := by
  rw [Queues.checkHead, h.first]
  cases l with
  | nil => rfl
  | cons x l =>
    have hx : q.elems.cell x.1 = some ⟨x.2, (l.head?.or none).map Prod.fst, .first a⟩ := h.chain.1
    simp only [List.head?_cons, Option.map_some, prev, hx, Option.getD_some, BEq.rfl]

theorem checkTail (h : Holds q a l len) : q.checkTail a = true := by
  rw [Queues.checkTail, h.last]
  rcases List.eq_nil_or_concat' l with rfl | ⟨l, x, rfl⟩
  · rw [lastLink, load, h.first]
    rfl
  · have hx : q.elems.cell x.1 = some ⟨x.2, none, lastLink slot (.first a) l⟩ := h.chain.mid
    rw [lastLink_append, lastLink, lastLink, slot, load, next, hx]
    rfl

theorem node_eq (h : Holds q a (l₁ ++ x :: l₂) len) :
    q.node x.1 = x.2 ∧ q.next x.1 = l₂.head?.map Prod.fst ∧
      q.prev x.1 = lastLink slot (.first a) l₁ := by
  have hx := h.chain.mid
  simp only [Linked, Option.or_none] at hx
  rw [node, next, prev, hx]
  exact ⟨rfl, rfl, rfl⟩

theorem checkNext (h : Holds q a (l₁ ++ x :: l₂) len) : q.checkNext x.1 = true := by
  rw [Queues.checkNext, h.node_eq.2.1]
  cases l₂ with
  | nil => rfl
  | cons y l₂ =>
    have hy : q.elems.cell y.1 = some ⟨y.2, (l₂.head?.or none).map Prod.fst, slot x⟩ :=
      (chain_append.mp h.chain).2.2.1
    simp only [List.head?_cons, Option.map_some, prev, hy, Option.getD_some, slot, BEq.rfl]

theorem checkPrev (h : Holds q a (l₁ ++ x :: l₂) len) : q.checkPrev x.1 = true := by
  rw [Queues.checkPrev, h.node_eq.2.2]
  rcases List.eq_nil_or_concat' l₁ with rfl | ⟨l₁, y, rfl⟩
  · rw [lastLink, load, h.first]
    exact BEq.rfl
  · have hy : q.elems.cell y.1 = some ⟨y.2, some x.1, lastLink slot (.first a) l₁⟩ := by
      have hsplit := h.chain
      rw [List.append_assoc] at hsplit
      exact hsplit.mid
    rw [lastLink_append, lastLink, lastLink, slot, load, next, hy]
    exact BEq.rfl

/-! ### What the macros do to a queue -/

theorem insertHead (h : Holds q a l len) {c : ArrayElem} (hc : q.elems.cell e = some c)
    (he : e ∉ l.map Prod.fst) :
    ∃ q', q.tailqInsertHead a e = some q' ∧ Holds q' a ((e, c.node) :: l) len ∧
      Within q q' a (e :: l.map Prod.fst) := by
  have hnext : (q.setNext e (l.head?.map Prod.fst)).next e = l.head?.map Prod.fst := by
    rw [next, setNext, Memory.modify_cell_self _ hc]
    rfl
  simp only [tailqInsertHead, h.checkHead, if_true, h.first, hnext]
  cases l with
  | nil =>
    refine ⟨_, rfl, ⟨?_, ⟨?_, trivial⟩, List.nodup_singleton _⟩, ⟨rfl, ?_, rfl, ?_⟩⟩
    · simp [setNext, setLast, setFirst, setPrev, Memory.modify_cell, h.head, lastLink, slot]
    · simp [Linked, setNext, setLast, setFirst, setPrev, Memory.modify_cell, hc]
    · intro b hb
      simp [setNext, setLast, setFirst, setPrev, Memory.modify_cell, hb]
    · intro x hx
      simp only [List.map_nil, List.mem_singleton] at hx
      simp [setNext, setLast, setFirst, setPrev, Memory.modify_cell, hx]
  | cons f l =>
    have hfe : f.1 ≠ e := fun hf => he (hf ▸ List.mem_cons_self ..)
    refine ⟨_, rfl, ⟨?_, ?_, List.nodup_cons.mpr ⟨he, h.nodup⟩⟩, ⟨rfl, ?_, rfl, ?_⟩⟩
    · simp [setNext, setFirst, setPrev, Memory.modify_cell, h.head, lastLink, slot]
    · apply h.chain.push
      · simp [Linked, setNext, setFirst, setPrev, Memory.modify_cell, hc, hfe.symm]
      · rintro b n hb hlink
        cases hb
        simp only [Linked] at hlink ⊢
        simp [setNext, setFirst, setPrev, Memory.modify_cell, hlink, hfe, slot]
      · intro b hb p n hlink
        have hbe : b.1 ≠ e := fun hbe =>
          he (hbe ▸ List.mem_map_of_mem (List.mem_cons_of_mem _ hb))
        have hbf : b.1 ≠ f.1 := fun hbf =>
          (List.nodup_cons.mp h.nodup).1 (hbf ▸ List.mem_map_of_mem hb)
        simp only [Linked] at hlink ⊢
        simp [setNext, setFirst, setPrev, Memory.modify_cell, hlink, hbe, hbf]
    · intro b hb
      simp [setNext, setFirst, setPrev, Memory.modify_cell, hb]
    · intro x hx
      simp only [List.map_cons, List.mem_cons, not_or] at hx
      simp [setNext, setFirst, setPrev, Memory.modify_cell, hx.1, hx.2.1]

theorem insertTail (h : Holds q a l len) {c : ArrayElem} (hc : q.elems.cell e = some c)
    (he : e ∉ l.map Prod.fst) :
    ∃ q', q.tailqInsertTail a e = some q' ∧ Holds q' a (l ++ [(e, c.node)]) len ∧
      Within q q' a (e :: l.map Prod.fst) := by
  have hprev : (q.setNext e none).last a = lastLink slot (.first a) l := h.last
  have hlast : ((q.setNext e none).setPrev e (lastLink slot (.first a) l)).last a =
      lastLink slot (.first a) l := h.last
  have hnd : ((l ++ [(e, c.node)]).map Prod.fst).Nodup := by
    rw [List.map_append]
    apply List.nodup_append.mpr ⟨h.nodup, List.nodup_singleton _, _⟩
    intro x hx y hy
    rw [List.mem_singleton.mp hy]
    rintro rfl
    exact he hx
  simp only [tailqInsertTail, h.checkTail, if_true, hprev, hlast]
  rcases List.eq_nil_or_concat' l with rfl | ⟨l, f, rfl⟩
  · refine ⟨_, rfl, ⟨?_, ⟨?_, trivial⟩, hnd⟩, ⟨rfl, ?_, rfl, ?_⟩⟩
    · simp [setNext, setLast, setFirst, setPrev, store, Memory.modify_cell, h.head, lastLink, slot]
    · simp [Linked, setNext, setLast, setFirst, setPrev, store, lastLink, Memory.modify_cell, hc]
    · intro b hb
      simp [setNext, setLast, setFirst, setPrev, store, lastLink, Memory.modify_cell, hb]
    · intro x hx
      simp only [List.map_nil, List.mem_singleton] at hx
      simp [setNext, setLast, setFirst, setPrev, store, lastLink, Memory.modify_cell, hx]
  · have hstore : lastLink slot (.first a) (l ++ [f]) = .next f.1 := by
      rw [lastLink_append]
      rfl
    have hmem : f.1 ∈ (l ++ [f]).map Prod.fst := by simp
    have hfe : f.1 ≠ e := fun hf => he (hf ▸ hmem)
    have hends : (l ++ [f]).map Prod.fst = l.map Prod.fst ++ [f.1] := by simp
    rw [hstore]
    refine ⟨_, rfl, ⟨?_, ?_, hnd⟩, ⟨rfl, ?_, rfl, ?_⟩⟩
    · rw [lastLink_append, lastLink, lastLink, List.head?_append_of_ne_nil _ (by simp)]
      simp [setNext, setLast, setPrev, store, Memory.modify_cell, h.head, slot]
    · apply h.chain.snoc
      · simp [Linked, setNext, setLast, setPrev, store, Memory.modify_cell, hc, hfe.symm, hstore]
      · intro b p hb hlink
        rw [List.getLast?_concat] at hb
        cases hb
        simp only [Linked] at hlink ⊢
        simp [setNext, setLast, setPrev, store, Memory.modify_cell, hlink, hfe]
      · intro b hb p n hlink
        rw [List.dropLast_concat] at hb
        have hbm : b.1 ∈ l.map Prod.fst := List.mem_map_of_mem hb
        have hbe : b.1 ≠ e := by
          rintro hbe
          exact he (hends ▸ List.mem_append_left _ (hbe ▸ hbm))
        have hbf : b.1 ≠ f.1 := by
          have hnodup := h.nodup
          rw [hends] at hnodup
          exact (List.nodup_append.mp hnodup).2.2 b.1 hbm f.1 (List.mem_singleton_self _)
        simp only [Linked] at hlink ⊢
        simp [setNext, setLast, setPrev, store, Memory.modify_cell, hlink, hbe, hbf]
    · intro b hb
      simp [setNext, setLast, setPrev, store, Memory.modify_cell, hb]
    · intro x hx
      simp only [hends, List.mem_cons, List.mem_append, not_or] at hx
      simp [setNext, setLast, setPrev, store, Memory.modify_cell, hx.1, hx.2.2]

theorem remove (h : Holds q a (l₁ ++ x :: l₂) len) :
    ∃ q', q.tailqRemove a x.1 = some q' ∧ Holds q' a (l₁ ++ l₂) len ∧
      Within q q' a ((l₁ ++ l₂).map Prod.fst) := by
  obtain ⟨-, hnext, hprev⟩ := h.node_eq
  have hnd := h.nodup
  simp only [List.map_append, List.map_cons] at hnd
  obtain ⟨hnd₁, hnd₂, hdis⟩ := List.nodup_append.mp hnd
  obtain ⟨hx₂, hnd₂⟩ := List.nodup_cons.mp hnd₂
  have hx₁ : x.1 ∉ l₁.map Prod.fst := fun hm => hdis _ hm _ (List.mem_cons_self ..) rfl
  have hapart : ∀ y ∈ l₁.map Prod.fst, ∀ z ∈ l₂.map Prod.fst, y ≠ z :=
    fun y hy z hz => hdis y hy z (List.mem_cons_of_mem _ hz)
  have hhead : ∀ b, l₂.head?.map Prod.fst = some b → b ∈ l₂.map Prod.fst := by
    intro b hb
    rw [← List.head?_map] at hb
    exact List.mem_of_head? hb
  have hlastMem : ∀ b, lastLink slot (.first a) l₁ = .next b → b ∈ l₁.map Prod.fst := by
    intro b hb
    rw [lastLink_eq_next, ← List.getLast?_map] at hb
    exact List.mem_of_getLast? hb
  -- the first of the two stores leaves the links of `x` alone
  have hsame : (q.linkBack a (l₂.head?.map Prod.fst) (lastLink slot (.first a) l₁)).elems.cell x.1 =
      q.elems.cell x.1 := by
    rw [elems_linkBack, if_neg fun hb => hx₂ (hhead _ hb)]
  have hprev' : (q.linkBack a (l₂.head?.map Prod.fst) (lastLink slot (.first a) l₁)).prev x.1 =
      lastLink slot (.first a) l₁ := by
    rw [prev, hsame]
    exact hprev
  have hnext' : (q.linkBack a (l₂.head?.map Prod.fst) (lastLink slot (.first a) l₁)).next x.1 =
      l₂.head?.map Prod.fst := by
    rw [next, hsame]
    exact hnext
  simp only [tailqRemove, h.checkNext, h.checkPrev, Bool.and_self, if_true, hnext, hprev, hprev',
    hnext']
  refine ⟨_, rfl, ⟨?_, ?_, ?_⟩, ⟨?_, ?_, ?_, ?_⟩⟩
  · rw [heads_store, heads_linkBack, h.head]
    cases l₁ with
    | nil => cases l₂ <;> simp [lastLink]
    | cons y l₁ =>
      have hne : lastLink slot (.first a) (y :: l₁) ≠ .first a := by
        rw [ne_eq, lastLink_eq_first]
        simp
      rw [if_neg hne]
      cases l₂ <;> simp [lastLink_append, lastLink]
  · apply h.chain.erase
    · intro b p hb hlink
      have hbl : lastLink slot (.first a) l₁ = .next b.1 := lastLink_eq_next.mpr (by rw [hb]; rfl)
      have hbh : l₂.head?.map Prod.fst ≠ some b.1 :=
        fun he => hapart _ (hlastMem _ hbl) _ (hhead _ he) rfl
      simp only [Linked, elems_store, elems_linkBack, if_pos hbl, if_neg hbh, Option.or_none]
      rw [hlink]
      rfl
    · intro b hb p n hlink
      have hbl : lastLink slot (.first a) l₁ ≠ .next b.1 := by
        rw [ne_eq, lastLink_eq_next]
        intro hl
        obtain ⟨c, hc, hcb⟩ := Option.map_eq_some_iff.mp hl
        exact ne_last_of_mem_dropLast hnd₁ hc hb hcb.symm
      have hbh : l₂.head?.map Prod.fst ≠ some b.1 := fun he =>
        hapart _ (List.mem_map_of_mem (List.dropLast_subset _ hb)) _ (hhead _ he) rfl
      simp only [Linked, elems_store, elems_linkBack, if_neg hbl, if_neg hbh]
      exact hlink
    · intro b n hb hlink
      have hbh : l₂.head?.map Prod.fst = some b.1 := by
        rw [hb]
        rfl
      have hbl : lastLink slot (.first a) l₁ ≠ .next b.1 :=
        fun hl => hapart _ (hlastMem _ hl) _ (hhead _ hbh) rfl
      simp only [Linked, elems_store, elems_linkBack, if_neg hbl, if_pos hbh]
      rw [hlink]
      rfl
    · intro b hb p n hlink
      have hbl : lastLink slot (.first a) l₁ ≠ .next b.1 := fun hl =>
        hapart _ (hlastMem _ hl) _ (List.mem_map_of_mem (List.mem_of_mem_tail hb)) rfl
      have hbh : l₂.head?.map Prod.fst ≠ some b.1 := by
        intro he
        obtain ⟨c, hc, hcb⟩ := Option.map_eq_some_iff.mp he
        exact ne_head_of_mem_tail hnd₂ hc hb hcb.symm
      simp only [Linked, elems_store, elems_linkBack, if_neg hbl, if_neg hbh]
      exact hlink
  · rw [List.map_append]
    exact List.nodup_append.mpr ⟨hnd₁, hnd₂, hapart⟩
  · rw [heads_next_store, heads_next_linkBack]
  · intro b hb
    rw [heads_store, heads_linkBack, if_neg fun hl => hb (lastLink_eq_first.mp hl).2.symm,
      if_neg fun hl => hb hl.2]
  · rw [elems_next_store, elems_next_linkBack]
  · intro y hy
    rw [List.map_append, List.mem_append, not_or] at hy
    rw [elems_store, if_neg fun hb => hy.1 (hlastMem y hb), elems_linkBack,
      if_neg fun hb => hy.2 (hhead y hb)]

end Holds

/-! ### One function -/

/-- The elements `l` of the array `a` became `l'`, and the other arrays are left alone. -/
structure Becomes (q q' : Queues) (a : ℕ) (l l' : List (ℕ × Ptr)) (len : UInt32) : Prop where
  holds : Holds q' a l' len
  heads_next : q'.heads.next = q.heads.next
  heads : ∀ b, b ≠ a → q'.heads.cell b = q.heads.cell b
  swaps : Memory.Swaps q.elems q'.elems (l.map Prod.fst) (l'.map Prod.fst)

section
variable {q q' : Queues} {a : ℕ} {x : ℕ × Ptr} {l l' l₁ l₂ : List (ℕ × Ptr)} {len : UInt32}

theorem Becomes.trans {q'' : Queues} {l'' : List (ℕ × Ptr)} {len' : UInt32}
    (h : Becomes q q' a l l' len) (h' : Becomes q' q'' a l' l'' len') :
    Becomes q q'' a l l'' len' :=
  ⟨h'.holds, h'.heads_next.trans h.heads_next, fun b hb => (h'.heads b hb).trans (h.heads b hb),
    h.swaps.trans h'.swaps⟩

theorem Holds.setLen (h : Holds q a l len) (len' : UInt32) :
    Becomes q (q.setLen a len') a l l len' := by
  constructor
  · constructor
    · show ((q.heads.modify a _).cell a) = _
      rw [Memory.modify_cell_self _ h.head]
    · exact h.chain
    · exact h.nodup
  · rfl
  · exact fun b hb => Memory.modify_cell_ne _ _ hb
  · exact Memory.Swaps.refl _ _

theorem Holds.lt_next (h : Holds q a l len) {e : ℕ} (he : e ∈ l.map Prod.fst) :
    e < q.elems.next := by
  obtain ⟨x, hx, rfl⟩ := List.mem_map.mp he
  obtain ⟨c, hc⟩ := h.live hx
  exact Memory.lt_next hc

/-- There are never more elements than addresses handed out. -/
theorem Holds.length_le (h : Holds q a l len) : l.length ≤ q.elems.next := by
  have hsub : l.map Prod.fst ⊆ List.range q.elems.next :=
    fun e he => List.mem_range.mpr (h.lt_next he)
  have hle := (List.subperm_of_subset h.nodup hsub).length_le
  rwa [List.length_map, List.length_range] at hle

/-- A new element, which is not linked yet. -/
theorem Holds.newElem (h : Holds q a l len) (node : Ptr) :
    Holds (q.newElem a node) a l len ∧
      (q.newElem a node).elems.cell q.elems.next = some ⟨node, none, .first a⟩ ∧
      q.elems.next ∉ l.map Prod.fst := by
  refine ⟨⟨h.head, ?_, h.nodup⟩, Memory.alloc_cell_next _ _,
    fun he => absurd (h.lt_next he) (Nat.lt_irrefl _)⟩
  apply h.chain.congr
  intro y hy p n hlink
  exact (Memory.alloc_cell_old _ _ (h.lt_next (List.mem_map_of_mem hy))).trans hlink

/-- What a macro does to a new element and a queue, seen from before the allocation. -/
theorem Within.becomes (node : Ptr) (hw : Within (q.newElem a node) q' a
      (q.elems.next :: l.map Prod.fst)) (h : Holds q' a l' len)
    (hl : ∀ e, e ∈ l'.map Prod.fst ↔ e ∈ q.elems.next :: l.map Prod.fst) :
    Becomes q q' a l l' len := by
  have hnext : q'.elems.next = q.elems.next + 1 := hw.elems_next
  constructor
  · exact h
  · exact hw.heads_next
  · exact hw.heads
  · constructor
    · omega
    · intro e he
      have hne : e ≠ q.elems.next := by omega
      rw [hw.elems e (by simpa [hne] using he.2)]
      exact Memory.alloc_cell_ne _ _ hne
    · intro e he
      rcases List.mem_cons.mp ((hl e).mp he) with rfl | he
      · exact Or.inr (le_refl _)
      · exact Or.inl he
    · intro e he hlive
      rw [hl]
      by_contra hout
      rw [hw.elems e hout] at hlive
      simp only [List.mem_cons, not_or] at hout
      rcases he with he | he
      · exact hout.2 he
      · have hcell : (q.newElem a node).elems.cell e = q.elems.cell e :=
          Memory.alloc_cell_ne _ _ hout.1
        rw [hcell] at hlive
        exact hlive (q.elems.unused e he)

theorem Holds.pushFront (h : Holds q a l len) (node : Ptr) :
    ∃ q', q.pushFront a node = some q' ∧
      Becomes q q' a l ((q.elems.next, node) :: l) (len + 1) := by
  obtain ⟨hnew, hc, hout⟩ := h.newElem node
  have hlen := hnew.setLen (len + 1)
  obtain ⟨q', hins, hholds, hw⟩ := hlen.holds.insertHead hc hout
  refine ⟨q', ?_, ?_⟩
  · simp only [Queues.pushFront, h.head]
    exact hins
  · apply Within.becomes node _ hholds fun e => Iff.rfl
    exact ⟨hw.heads_next, fun b hb => (hw.heads b hb).trans (hlen.heads b hb), hw.elems_next,
      hw.elems⟩

theorem Holds.pushBack (h : Holds q a l len) (node : Ptr) :
    ∃ q', q.pushBack a node = some q' ∧
      Becomes q q' a l (l ++ [(q.elems.next, node)]) (len + 1) := by
  obtain ⟨hnew, hc, hout⟩ := h.newElem node
  have hlen := hnew.setLen (len + 1)
  obtain ⟨q', hins, hholds, hw⟩ := hlen.holds.insertTail hc hout
  refine ⟨q', ?_, ?_⟩
  · simp only [Queues.pushBack, h.head]
    exact hins
  · apply Within.becomes node _ hholds
    · intro e
      simp only [List.map_append, List.map_cons, List.map_nil, List.mem_append, List.mem_cons,
        List.not_mem_nil, or_false]
      exact or_comm
    · exact ⟨hw.heads_next, fun b hb => (hw.heads b hb).trans (hlen.heads b hb), hw.elems_next,
        hw.elems⟩

/-- `TAILQ_REMOVE` and the release of the element that it took out. -/
theorem Holds.removeElem (h : Holds q a (l₁ ++ x :: l₂) len) :
    ∃ q', q.tailqRemove a x.1 = some q' ∧ q'.node x.1 = x.2 ∧
      Becomes q (q'.freeElem x.1) a (l₁ ++ x :: l₂) (l₁ ++ l₂) len := by
  obtain ⟨q', hrem, hholds, hw⟩ := h.remove
  have hnd := h.nodup
  rw [List.map_append, List.map_cons, List.nodup_middle, ← List.map_append] at hnd
  have hx : x.1 ∉ (l₁ ++ l₂).map Prod.fst := (List.nodup_cons.mp hnd).1
  have hmem : ∀ e, e ∈ (l₁ ++ x :: l₂).map Prod.fst ↔ e = x.1 ∨ e ∈ (l₁ ++ l₂).map Prod.fst := by
    intro e
    simp only [List.map_append, List.map_cons, List.mem_append, List.mem_cons]
    tauto
  refine ⟨q', hrem, ?_, ?_⟩
  · have hcell : q'.elems.cell x.1 = q.elems.cell x.1 := hw.elems _ hx
    rw [node, hcell]
    exact h.node_eq.1
  · constructor
    · refine ⟨hholds.head, ?_, hholds.nodup⟩
      apply hholds.chain.congr
      intro y hy p n hlink
      have hne : y.1 ≠ x.1 := fun he => hx (he ▸ List.mem_map_of_mem hy)
      exact (Memory.free_cell_ne _ hne).trans hlink
    · exact hw.heads_next
    · exact hw.heads
    · constructor
      · exact hw.elems_next.ge
      · intro e he
        rw [hmem, not_or] at he
        exact (Memory.free_cell_ne _ he.2.1).trans (hw.elems e he.2.2)
      · exact fun e he => Or.inl ((hmem e).mpr (Or.inr he))
      · intro e he hlive
        by_contra hout
        by_cases hex : e = x.1
        · rw [hex] at hlive
          exact hlive (if_pos rfl)
        · rw [hmem] at he
          rcases he with (he | he) | he
          · exact hex he
          · exact hout he
          · have hcell : (q'.freeElem x.1).elems.cell e = q.elems.cell e :=
              (Memory.free_cell_ne _ hex).trans (hw.elems e hout)
            rw [hcell] at hlive
            exact hlive (q.elems.unused e he)

/-- The loop of `pt_array_remove` stops at the first element that holds the node. -/
theorem Holds.removeFrom (node : Ptr) {fuel : ℕ} (h : Holds q a (l₁ ++ l₂) len)
    (hbefore : node ∉ l₁.map Prod.snd) (hf : l₂.length ≤ fuel) :
    (node ∉ l₂.map Prod.snd ∧
      q.removeFrom a node fuel (l₂.head?.map Prod.fst) = some (q, [])) ∨
    ∃ q' l', q.removeFrom a node fuel (l₂.head?.map Prod.fst) = some (q', [node]) ∧
      node ∈ (l₁ ++ l₂).map Prod.snd ∧ l'.map Prod.snd = ((l₁ ++ l₂).map Prod.snd).erase node ∧
      Becomes q q' a (l₁ ++ l₂) l' (len - 1) := by
  induction l₂ generalizing l₁ fuel with
  | nil => exact Or.inl ⟨List.not_mem_nil, by cases fuel <;> rfl⟩
  | cons x l₂ ih =>
    cases fuel with
    | zero => exact absurd hf (Nat.not_succ_le_zero _)
    | succ fuel =>
      obtain ⟨hnode, hnext, -⟩ := h.node_eq
      simp only [List.head?_cons, Option.map_some, Queues.removeFrom, hnode]
      by_cases hx : x.2 = node
      · right
        obtain ⟨q', hrem, hnode', hb⟩ := h.removeElem
        have hlen : ((q'.freeElem x.1).heads.cell a).map ArrayHead.len = some len := by
          rw [hb.holds.head]
          rfl
        have hfreed : (q'.heads.cell a).map ArrayHead.len = some len := hlen
        refine ⟨_, l₁ ++ l₂, ?_, ?_, ?_, hb.trans (hb.holds.setLen (len - 1))⟩
        · rw [if_pos hx, hrem, Option.map_some, hnode', hx, hfreed]
          rfl
        · exact List.mem_map.mpr ⟨x, List.mem_append_right _ (List.mem_cons_self ..), hx⟩
        · rw [List.map_append, List.map_append, List.map_cons, hx,
            List.erase_append_right _ hbefore, List.erase_cons_head]
      · rw [if_neg hx, hnext]
        have hsplit : l₁ ++ x :: l₂ = (l₁ ++ [x]) ++ l₂ := by simp
        have hnot : node ∉ (l₁ ++ [x]).map Prod.snd := by
          rw [List.map_append, List.mem_append, not_or]
          exact ⟨hbefore, fun hm => hx (List.mem_singleton.mp hm).symm⟩
        rw [hsplit] at h ⊢
        rcases ih h hnot (Nat.le_of_succ_le_succ hf) with ⟨hn, hrest⟩ | hrest
        · left
          constructor
          · rw [List.map_cons, List.mem_cons, not_or]
            exact ⟨fun he => hx he.symm, hn⟩
          · exact hrest
        · exact Or.inr hrest

theorem Holds.nodesFrom {fuel : ℕ} (h : Holds q a (l₁ ++ l₂) len) (hf : l₂.length ≤ fuel) :
    q.nodesFrom fuel (l₂.head?.map Prod.fst) = l₂.map Prod.snd := by
  induction l₂ generalizing l₁ fuel with
  | nil => cases fuel <;> rfl
  | cons x l₂ ih =>
    cases fuel with
    | zero => exact absurd hf (Nat.not_succ_le_zero _)
    | succ fuel =>
      obtain ⟨hnode, hnext, -⟩ := h.node_eq
      have hsplit : l₁ ++ x :: l₂ = (l₁ ++ [x]) ++ l₂ := by simp
      rw [hsplit] at h
      simp only [List.head?_cons, Option.map_some, Queues.nodesFrom, hnode, hnext, List.map_cons]
      rw [ih h (Nat.le_of_succ_le_succ hf)]

theorem Holds.getFrom (idx : UInt32) (index : Int32) {fuel : ℕ} (h : Holds q a (l₁ ++ l₂) len)
    (hf : l₂.length ≤ fuel) :
    q.getFrom idx fuel index (l₂.head?.map Prod.fst) = arrayGetFrom idx index (l₂.map Prod.snd) := by
  induction l₂ generalizing l₁ fuel index with
  | nil => cases fuel <;> rfl
  | cons x l₂ ih =>
    cases fuel with
    | zero => exact absurd hf (Nat.not_succ_le_zero _)
    | succ fuel =>
      obtain ⟨hnode, hnext, -⟩ := h.node_eq
      have hsplit : l₁ ++ x :: l₂ = (l₁ ++ [x]) ++ l₂ := by simp
      rw [hsplit] at h
      simp only [List.head?_cons, Option.map_some, Queues.getFrom, hnode, hnext, List.map_cons,
        arrayGetFrom]
      rw [ih (index + 1) h (Nat.le_of_succ_le_succ hf)]

/-- `free_array_node` gives every node to `pt_free_node`, in order, and every element back. -/
theorem Holds.freeElems {fuel : ℕ} (h : Holds q a l len) (hf : l.length ≤ fuel) :
    ∃ q', q.freeElems a fuel = some (q', l.map Prod.snd) ∧ Becomes q q' a l [] len := by
  induction l generalizing q fuel with
  | nil =>
    refine ⟨q, ?_, h, rfl, fun _ _ => rfl, Memory.Swaps.refl _ _⟩
    cases fuel with
    | zero => rfl
    | succ fuel => simp only [Queues.freeElems, h.first, List.head?_nil, Option.map_none,
        List.map_nil]
  | cons x l ih =>
    cases fuel with
    | zero => exact absurd hf (Nat.not_succ_le_zero _)
    | succ fuel =>
      have hcut : Holds q a ([] ++ x :: l) len := h
      obtain ⟨q₁, hrem, hnode, hb⟩ := hcut.removeElem
      obtain ⟨q₂, hrest, hb'⟩ := ih hb.holds (Nat.le_of_succ_le_succ hf)
      refine ⟨q₂, ?_, hb.trans hb'⟩
      simp only [Queues.freeElems, h.first, List.head?_cons, Option.map_some, hrem,
        Option.bind_some, hrest, hnode, List.map_cons]

end

end Queues

/-! ### Programs over arrays -/

inductive ArrayOp where
  | arrayNew
  | pushFront (a : ℕ) (node : Ptr)
  | pushBack (a : ℕ) (node : Ptr)
  | remove (a : ℕ) (node : Ptr)
  | get (a : ℕ) (idx : UInt32)
  | foreach (a : ℕ)
  | freeArray (a : ℕ)

/-- One operation, and the nodes that it gives out or passes to `pt_free_node`. -/
def Queues.step (q : Queues) : ArrayOp → Option (Queues × List Ptr)
  | .arrayNew => some (q.arrayNew, [some q.heads.next])
  | .pushFront a node => (q.pushFront a node).map fun q => (q, [])
  | .pushBack a node => (q.pushBack a node).map fun q => (q, [])
  | .remove a node => q.remove a node
  | .get a idx => some (q, [q.get a idx])
  | .foreach a => some (q, q.nodes a)
  | .freeArray a => q.freeArray a

def Queues.run (q : Queues) : List ArrayOp → Option (Queues × List (List Ptr))
  | [] => some (q, [])
  | op :: ops => (q.step op).bind fun r => (run r.1 ops).map fun s => (s.1, r.2 :: s.2)

/-- The arrays as the rest of the library sees them: elements and `len`. -/
abbrev Lists := Memory (List Ptr × UInt32)

namespace Lists

def step (m : Lists) : ArrayOp → Lists × List Ptr
  | .arrayNew => (m.alloc ([], 0), [some m.next])
  | .pushFront a node => (m.modify a fun x => (node :: x.1, x.2 + 1), [])
  | .pushBack a node => (m.modify a fun x => (x.1 ++ [node], x.2 + 1), [])
  | .remove a node =>
    match m.cell a with
    | some (head, _) =>
      if head.contains node then (m.modify a fun x => (x.1.erase node, x.2 - 1), [node])
      else (m, [])
    | none => (m, [])
  | .get a idx => (m, [arrayGetFrom idx 0 (((m.cell a).map Prod.fst).getD [])])
  | .foreach a => (m, ((m.cell a).map Prod.fst).getD [])
  | .freeArray a => (m.free a, ((m.cell a).map Prod.fst).getD [])

def run (m : Lists) : List ArrayOp → Lists × List (List Ptr)
  | [] => (m, [])
  | op :: ops => ((run (m.step op).1 ops).1, (m.step op).2 :: (run (m.step op).1 ops).2)

end Lists

/-- The queues hold the lists `m`, in the elements `L`; no two arrays share an
element, and there are no other elements. -/
structure Threads (q : Queues) (m : Lists) (L : ℕ → List (ℕ × Ptr)) : Prop where
  next : q.heads.next = m.next
  array : ∀ a head len, m.cell a = some (head, len) →
    Queues.Holds q a (L a) len ∧ (L a).map Prod.snd = head
  dead : ∀ a, m.cell a = none → q.heads.cell a = none ∧ L a = []
  parted : Memory.Parted q.elems fun a => (L a).map Prod.fst

namespace Threads
variable {q q' : Queues} {m : Lists} {L : ℕ → List (ℕ × Ptr)} {a : ℕ} {head : List Ptr}
  {len : UInt32}

theorem start : Threads Queues.empty Memory.empty fun _ => [] := by
  constructor
  · rfl
  · exact fun a head len ha => by cases ha
  · exact fun a ha => ⟨rfl, rfl⟩
  · constructor
    · exact fun _ => List.nodup_nil
    · exact fun _ _ _ x hx => absurd hx List.not_mem_nil
    · exact fun _ x hx => absurd hx List.not_mem_nil
    · exact fun x hx => absurd rfl hx

/-- An array that is left alone. -/
theorem still (ht : Threads q m L) {l' : List (ℕ × Ptr)} {len' : UInt32}
    (hb : Queues.Becomes q q' a (L a) l' len') {b : ℕ} (hba : b ≠ a) {head : List Ptr}
    {len : UInt32} (hc : m.cell b = some (head, len)) :
    Queues.Holds q' b (L b) len ∧ (L b).map Prod.snd = head := by
  obtain ⟨hholds, hhead⟩ := ht.array b head len hc
  refine ⟨⟨?_, ?_, hholds.nodup⟩, hhead⟩
  · rw [hb.heads b hba]
    exact hholds.head
  · apply hholds.chain.congr
    intro x hx p n hlink
    have hmem : x.1 ∈ (L b).map Prod.fst := List.mem_map_of_mem hx
    exact (hb.swaps.frame x.1 ⟨hholds.lt_next hmem, ht.parted.apart b a hba x.1 hmem⟩).trans hlink

theorem parted_update (ht : Threads q m L) {l' : List (ℕ × Ptr)} {len' : UInt32}
    (hb : Queues.Becomes q q' a (L a) l' len') :
    Memory.Parted q'.elems fun b => (Function.update L a l' b).map Prod.fst := by
  apply ht.parted.swap_one hb.swaps
  · rw [Function.update_self]
  · exact fun b hba => by rw [Function.update_of_ne hba]
  · exact hb.holds.nodup
  · intro x hx
    obtain ⟨y, hy, rfl⟩ := List.mem_map.mp hx
    exact Option.ne_none_iff_exists'.mpr (hb.holds.live hy)

/-- One array became another. -/
theorem becomes (ht : Threads q m L) (hc : m.cell a = some (head, len)) {l' : List (ℕ × Ptr)}
    {len' : UInt32} {head' : List Ptr} (hb : Queues.Becomes q q' a (L a) l' len')
    (hl : l'.map Prod.snd = head') {f : List Ptr × UInt32 → List Ptr × UInt32}
    (hf : f (head, len) = (head', len')) :
    ∃ L', Threads q' (m.modify a f) L' := by
  refine ⟨Function.update L a l', ?_, ?_, ?_, ht.parted_update hb⟩
  · exact hb.heads_next.trans ht.next
  · intro b head₁ len₁ hcb
    by_cases hba : b = a
    · subst hba
      rw [Memory.modify_cell_self _ hc, hf] at hcb
      cases hcb
      rw [Function.update_self]
      exact ⟨hb.holds, hl⟩
    · rw [Memory.modify_cell_ne _ _ hba] at hcb
      rw [Function.update_of_ne hba]
      exact ht.still hb hba hcb
  · intro b hcb
    have hba : b ≠ a := by
      rintro rfl
      rw [Memory.modify_cell_self _ hc] at hcb
      cases hcb
    rw [Memory.modify_cell_ne _ _ hba] at hcb
    rw [hb.heads b hba, Function.update_of_ne hba]
    exact ht.dead b hcb

theorem arrayNew (ht : Threads q m L) : ∃ L', Threads q.arrayNew (m.alloc ([], 0)) L' := by
  have hnil : L m.next = [] := (ht.dead _ (m.unused _ (le_refl _))).2
  refine ⟨L, ?_, ?_, ?_, ht.parted⟩
  · show q.heads.next + 1 = m.next + 1
    rw [ht.next]
  · intro b head₁ len₁ hcb
    by_cases hbn : b = m.next
    · subst hbn
      rw [Memory.alloc_cell_next] at hcb
      cases hcb
      rw [hnil]
      refine ⟨⟨?_, trivial, List.nodup_nil⟩, rfl⟩
      rw [← ht.next]
      exact Memory.alloc_cell_next _ _
    · rw [Memory.alloc_cell_ne _ _ hbn] at hcb
      obtain ⟨hholds, hhead⟩ := ht.array b head₁ len₁ hcb
      refine ⟨⟨?_, hholds.chain, hholds.nodup⟩, hhead⟩
      rw [← ht.next] at hbn
      exact (Memory.alloc_cell_ne _ _ hbn).trans hholds.head
  · intro b hcb
    have hbn : b ≠ m.next := by
      rintro rfl
      rw [Memory.alloc_cell_next] at hcb
      cases hcb
    rw [Memory.alloc_cell_ne _ _ hbn] at hcb
    obtain ⟨hdead, hb⟩ := ht.dead b hcb
    rw [← ht.next] at hbn
    exact ⟨(Memory.alloc_cell_ne _ _ hbn).trans hdead, hb⟩

/-- Each operation on the queues does what it does to the lists, and no check fails. -/
def Steps (q : Queues) (m : Lists) (op : ArrayOp) : Prop :=
  ∃ q' L', q.step op = some (q', (m.step op).2) ∧ Threads q' (m.step op).1 L'

theorem first_dead (ht : Threads q m L) (hc : m.cell a = none) : q.first a = none := by
  rw [Queues.first, (ht.dead a hc).1]
  rfl

theorem pushFront (ht : Threads q m L) (a : ℕ) (node : Ptr) : Steps q m (.pushFront a node) := by
  cases hc : m.cell a with
  | none =>
    refine ⟨q, L, ?_, ?_⟩
    · simp only [Queues.step, Queues.pushFront, (ht.dead a hc).1, Option.map_some, Lists.step]
    · simp only [Lists.step, Memory.modify_dead _ hc]
      exact ht
  | some v =>
    obtain ⟨head, len⟩ := v
    obtain ⟨hholds, hhead⟩ := ht.array a head len hc
    obtain ⟨q', hpush, hb⟩ := hholds.pushFront node
    obtain ⟨L', ht'⟩ := ht.becomes hc hb (f := fun x => (node :: x.1, x.2 + 1))
      (congrArg (node :: ·) hhead) rfl
    refine ⟨q', L', ?_, ht'⟩
    simp only [Queues.step, hpush, Option.map_some, Lists.step]

theorem pushBack (ht : Threads q m L) (a : ℕ) (node : Ptr) : Steps q m (.pushBack a node) := by
  cases hc : m.cell a with
  | none =>
    refine ⟨q, L, ?_, ?_⟩
    · simp only [Queues.step, Queues.pushBack, (ht.dead a hc).1, Option.map_some, Lists.step]
    · simp only [Lists.step, Memory.modify_dead _ hc]
      exact ht
  | some v =>
    obtain ⟨head, len⟩ := v
    obtain ⟨hholds, hhead⟩ := ht.array a head len hc
    obtain ⟨q', hpush, hb⟩ := hholds.pushBack node
    have hlist : (L a ++ [(q.elems.next, node)]).map Prod.snd = head ++ [node] := by
      rw [List.map_append, hhead]
      rfl
    obtain ⟨L', ht'⟩ := ht.becomes hc hb (f := fun x => (x.1 ++ [node], x.2 + 1)) hlist rfl
    refine ⟨q', L', ?_, ht'⟩
    simp only [Queues.step, hpush, Option.map_some, Lists.step]

theorem remove (ht : Threads q m L) (a : ℕ) (node : Ptr) : Steps q m (.remove a node) := by
  cases hc : m.cell a with
  | none =>
    refine ⟨q, L, ?_, ?_⟩
    · have hnone : q.remove a node = some (q, []) := by
        rw [Queues.remove, ht.first_dead hc]
        cases q.elems.next <;> rfl
      simp only [Queues.step, hnone, Lists.step, hc]
    · simp only [Lists.step, hc]
      exact ht
  | some v =>
    obtain ⟨head, len⟩ := v
    obtain ⟨hholds, hhead⟩ := ht.array a head len hc
    have hcut : Queues.Holds q a ([] ++ L a) len := hholds
    have hfirst : q.remove a node =
        q.removeFrom a node q.elems.next ((L a).head?.map Prod.fst) := by
      rw [Queues.remove, hholds.first]
    rcases hcut.removeFrom node List.not_mem_nil hholds.length_le with
      ⟨hnot, hrun⟩ | ⟨q', l', hrun, hmem, hl', hb⟩
    · rw [hhead] at hnot
      refine ⟨q, L, ?_, ?_⟩
      · simp only [Queues.step, hfirst, hrun, Lists.step, hc, List.contains_iff_mem, if_neg hnot]
      · simp only [Lists.step, hc, List.contains_iff_mem, if_neg hnot]
        exact ht
    · rw [List.nil_append, hhead] at hmem hl'
      obtain ⟨L', ht'⟩ := ht.becomes hc hb (f := fun x => (x.1.erase node, x.2 - 1)) hl' rfl
      refine ⟨q', L', ?_, ?_⟩
      · simp only [Queues.step, hfirst, hrun, Lists.step, hc, List.contains_iff_mem, if_pos hmem]
      · simp only [Lists.step, hc, List.contains_iff_mem, if_pos hmem]
        exact ht'

theorem get (ht : Threads q m L) (a : ℕ) (idx : UInt32) : Steps q m (.get a idx) := by
  refine ⟨q, L, ?_, ht⟩
  simp only [Queues.step, Queues.get, Lists.step]
  cases hc : m.cell a with
  | none =>
    rw [ht.first_dead hc]
    cases q.elems.next <;> rfl
  | some v =>
    obtain ⟨head, len⟩ := v
    obtain ⟨hholds, hhead⟩ := ht.array a head len hc
    have hcut : Queues.Holds q a ([] ++ L a) len := hholds
    rw [hholds.first, hcut.getFrom idx 0 hholds.length_le, hhead]
    rfl

theorem foreach (ht : Threads q m L) (a : ℕ) : Steps q m (.foreach a) := by
  refine ⟨q, L, ?_, ht⟩
  simp only [Queues.step, Queues.nodes, Lists.step]
  cases hc : m.cell a with
  | none =>
    rw [ht.first_dead hc]
    cases q.elems.next <;> rfl
  | some v =>
    obtain ⟨head, len⟩ := v
    obtain ⟨hholds, hhead⟩ := ht.array a head len hc
    have hcut : Queues.Holds q a ([] ++ L a) len := hholds
    rw [hholds.first, hcut.nodesFrom hholds.length_le, hhead]
    rfl

theorem freeArray (ht : Threads q m L) (a : ℕ) : Steps q m (.freeArray a) := by
  cases hc : m.cell a with
  | none =>
    have hnone : q.freeElems a q.elems.next = some (q, []) := by
      cases q.elems.next with
      | zero => rfl
      | succ n => simp only [Queues.freeElems, ht.first_dead hc]
    have hsame : ({ q with heads := q.heads.free a } : Queues) = q := by
      rw [Memory.free_dead (ht.dead a hc).1]
    refine ⟨q, L, ?_, ?_⟩
    · simp only [Queues.step, Queues.freeArray, hnone, Option.map_some, hsame, Lists.step, hc,
        Option.map_none, Option.getD_none]
    · simp only [Lists.step, Memory.free_dead hc]
      exact ht
  | some v =>
    obtain ⟨head, len⟩ := v
    obtain ⟨hholds, hhead⟩ := ht.array a head len hc
    obtain ⟨q', hrun, hb⟩ := hholds.freeElems hholds.length_le
    have hparted := ht.parted_update hb
    refine ⟨{ q' with heads := q'.heads.free a }, Function.update L a [], ?_, ?_⟩
    · simp only [Queues.step, Queues.freeArray, hrun, hhead, Option.map_some, Lists.step, hc,
        Option.getD_some]
    · simp only [Lists.step]
      constructor
      · exact hb.heads_next.trans ht.next
      · intro b head₁ len₁ hcb
        have hba : b ≠ a := by
          rintro rfl
          rw [Memory.free_cell, if_pos rfl] at hcb
          cases hcb
        rw [Memory.free_cell_ne _ hba] at hcb
        obtain ⟨hstill, hhead₁⟩ := ht.still hb hba hcb
        rw [Function.update_of_ne hba]
        refine ⟨⟨?_, hstill.chain, hstill.nodup⟩, hhead₁⟩
        exact (Memory.free_cell_ne _ hba).trans hstill.head
      · intro b hcb
        by_cases hba : b = a
        · subst hba
          exact ⟨if_pos rfl, Function.update_self ..⟩
        · rw [Memory.free_cell_ne _ hba] at hcb
          rw [Function.update_of_ne hba]
          refine ⟨?_, (ht.dead b hcb).2⟩
          exact (Memory.free_cell_ne _ hba).trans ((hb.heads b hba).trans (ht.dead b hcb).1)
      · exact hparted

theorem step (ht : Threads q m L) (op : ArrayOp) : Steps q m op := by
  cases op with
  | arrayNew =>
    obtain ⟨L', ht'⟩ := ht.arrayNew
    refine ⟨q.arrayNew, L', ?_, ht'⟩
    simp only [Queues.step, Lists.step, ht.next]
  | pushFront a node => exact ht.pushFront a node
  | pushBack a node => exact ht.pushBack a node
  | remove a node => exact ht.remove a node
  | get a idx => exact ht.get a idx
  | foreach a => exact ht.foreach a
  | freeArray a => exact ht.freeArray a

theorem run (ht : Threads q m L) (ops : List ArrayOp) :
    ∃ q' L', q.run ops = some (q', (m.run ops).2) ∧ Threads q' (m.run ops).1 L' := by
  induction ops generalizing q m L with
  | nil => exact ⟨q, L, rfl, ht⟩
  | cons op ops ih =>
    obtain ⟨q₁, L₁, hstep, ht₁⟩ := ht.step op
    obtain ⟨q₂, L₂, hrun, ht₂⟩ := ih ht₁
    refine ⟨q₂, L₂, ?_, ht₂⟩
    simp only [Queues.run, hstep, Option.bind_some, hrun, Option.map_some, Lists.run]

end Threads

/-- However the operations on any number of arrays are interleaved, the queues answer
as the lists do and no check of the macros fails; afterwards the elements that are
allocated are those of the arrays, each in one array. -/
theorem tailq_refines (ops : List ArrayOp) :
    ∃ q L, Queues.empty.run ops = some (q, (Lists.run Memory.empty ops).2) ∧
      Threads q (Lists.run Memory.empty ops).1 L :=
  Threads.start.run ops

end Pillowtalk
