import Pillowtalk.Reachable
import Pillowtalk.Session

/-!
# Arrays are lists

The elements of an array are those of a reference list under `++`, `::` and
`List.erase`, from any moment of its life on and whatever else is called in
between, and the four ways to look at an array agree with that list.
-/

namespace Pillowtalk
open Addressed Iteration

/-- What an operation does to the reference list of the array at `a`. -/
def Op.onArray (a : ℕ) (l : List Ptr) : Op → List Ptr
  | .edit (.arrayPushBack array node) => if array = some a then l ++ [node] else l
  | .edit (.arrayPushFront array node) => if array = some a then node :: l else l
  | .edit (.arrayRemove array node) => if array = some a then l.erase node else l
  | _ => l

def reference (a : ℕ) (l : List Ptr) (ops : List Op) : List Ptr := ops.foldl (Op.onArray a) l

theorem reference_concat (a : ℕ) (l : List Ptr) (ops : List Op) (op : Op) :
    reference a l (ops ++ [op]) = Op.onArray a (reference a l ops) op := by
  simp only [reference, List.foldl_append, List.foldl_cons, List.foldl_nil]

section
variable [HashFcn]

/-! ### The counter -/

/-- `len` is the number of linked elements. -/
def Node.Counted : Node → Prop
  | .array head len => len = UInt32.ofNat head.length
  | _ => True

theorem counted_array_concat {head : List Ptr} {len : UInt32}
    (h : (Node.array head len).Counted) (node : Ptr) :
    (Node.array (head ++ [node]) (len + 1)).Counted :=
  editable_sized.pushBack node head len h

theorem editable_counted : Editable AnyKey Node.Counted where
  scalar _ _ := trivial
  arrayNew := rfl
  mapNew := trivial
  keyValue _ _ _ _ := trivial
  setValue _ _ _ _ := trivial
  key _ _ _ := trivial
  add _ _ _ _ _ _ _ := trivial
  delete _ _ _ := trivial
  pushFront := editable_sized.pushFront
  pushBack node _ _ h := counted_array_concat h node
  erase := editable_sized.erase

theorem counted_addNewNode {s : ParserState} (hs : Memory.Every Node.Counted s.heap) {n : Node}
    (hn : n.Leaf) : Memory.Every Node.Counted (addNewNode s n).heap := by
  have hleaf : n.Counted := by
    cases hn with
    | scalar v => trivial
    | array => rfl
    | map => trivial
  unfold addNewNode addNodeToContextContainer
  split
  · refine (hs.alloc hleaf).modify fun c hc => ?_
    have hcount := (hs.alloc hleaf) _ c hc
    cases c with
    | array head len => exact counted_array_concat hcount _
    | scalar v => trivial
    | map kvs => trivial
    | keyValue key value => trivial
  · exact hs.alloc hleaf

theorem counted_callback {s s' : ParserState} {c : Callback} (hc : callback s c = some s')
    (hs : Memory.Every Node.Counted s.heap) : Memory.Every Node.Counted s'.heap := by
  have hpop : ∀ type, popContainer s type = some s' → s'.heap = s.heap := by
    intro type hp
    unfold popContainer at hp
    split at hp
    · cases hp
    · split at hp
      · cases hp
        rfl
      · cases hp
  cases c with
  | mapKey str =>
    simp only [callback, jsonMapKey] at hc
    split at hc
    · cases hc
    · split at hc
      · next top rest _ _ kvs hcell =>
        cases hc
        have hnew : (Node.keyValue str none).Counted := trivial
        refine (hs.alloc hnew).modify fun c hcc => ?_
        rw [Memory.alloc_cell_old _ _ (Memory.lt_next hcell), hcell] at hcc
        cases hcc
        trivial
      · cases hc
  | endMap => exact hpop .map hc ▸ hs
  | endArray => exact hpop .array hc ▸ hs
  | null => exact (Option.some.inj hc) ▸ counted_addNewNode hs (.scalar _)
  | boolean b => exact (Option.some.inj hc) ▸ counted_addNewNode hs (.scalar _)
  | integer i => exact (Option.some.inj hc) ▸ counted_addNewNode hs (.scalar _)
  | double d => exact (Option.some.inj hc) ▸ counted_addNewNode hs (.scalar _)
  | string str => exact (Option.some.inj hc) ▸ counted_addNewNode hs (.scalar _)
  | startMap => exact (Option.some.inj hc) ▸ counted_addNewNode hs .map
  | startArray => exact (Option.some.inj hc) ▸ counted_addNewNode hs .array

/-- In every run, parsing included, the counters are right. -/
theorem run_counted (ops : List Op) : Memory.Every Node.Counted (run ops) := by
  refine editable_counted.run (fun e _ => e.keyIn_any) fun h doc delivered _ hh => ?_
  simp only [step, parseJson]
  cases hr : runCallbacks (emptyParser h) (doc.callbacks.take delivered) with
  | none => exact hh
  | some s =>
    exact runCallbacks_induction (P := fun s => Memory.Every Node.Counted s.heap)
      (fun s s' c hc hs => counted_callback hc hs) hh hr

/-! ### What the calls do to one array -/

/-- `a` was handed out, and it is released or still holds `n`. -/
def Stays (a : ℕ) (n : Node) (h : Heap) : Prop :=
  a < h.next ∧ (h.cell a = none ∨ h.cell a = some n)

namespace Stays
variable {a : ℕ} {n : Node} {h h' : Heap}

theorem alloc (hs : Stays a n h) (m : Node) : Stays a n (h.alloc m) := by
  refine ⟨Nat.lt_succ_of_lt hs.1, ?_⟩
  rw [Memory.alloc_cell_old _ _ hs.1]
  exact hs.2

theorem shrunk (hs : Stays a n h) (hsh : Memory.Shrunk h h') : Stays a n h' := by
  refine ⟨hsh.1 ▸ hs.1, ?_⟩
  rcases hsh.2 a with he | he
  · rw [he]
    exact hs.2
  · exact Or.inl he

theorem modify (hs : Stays a n h) {p : ℕ} {f : Node → Node} (hf : p = a → f n = n) :
    Stays a n (h.modify p f) := by
  refine ⟨hs.1, ?_⟩
  rw [Memory.modify_cell]
  split
  · next he =>
    rcases hs.2 with hc | hc
    · exact Or.inl (by rw [hc, Option.map_none])
    · exact Or.inr (by rw [hc, Option.map_some, hf he.symm])
  · exact hs.2

variable {head : List Ptr} {len : UInt32}

theorem ptMapSet (hs : Stays a (.array head len) h) (map : Ptr) (key : Option Bytes)
    (value : Ptr) : Stays a (.array head len) (ptMapSet h map key value) := by
  unfold Pillowtalk.ptMapSet
  split
  · split
    · exact (hs.shrunk (ptFreeNode_shrunk h _)).modify fun _ => rfl
    · exact (hs.alloc _).modify fun _ => rfl
  · exact hs

theorem ptMapUnset (hs : Stays a (.array head len) h) (map : Ptr) (key : Bytes) :
    Stays a (.array head len) (ptMapUnset h map key) := by
  unfold Pillowtalk.ptMapUnset
  split
  · split
    · exact ((hs.modify fun _ => rfl).shrunk (ptFreeNode_shrunk _ _)).shrunk
        (Memory.shrunk_free _ _)
    · exact hs
  · exact hs

theorem ptArrayPushBack (hs : Stays a n h) {array : Ptr} (hne : array ≠ some a) (node : Ptr) :
    Stays a n (ptArrayPushBack h array node) := by
  unfold Pillowtalk.ptArrayPushBack
  split
  · next b _ _ hb =>
    refine hs.modify fun he => ?_
    exact absurd (he ▸ (asArray_eq_some.mp hb).1) hne
  · exact hs

theorem ptArrayPushFront (hs : Stays a n h) {array : Ptr} (hne : array ≠ some a) (node : Ptr) :
    Stays a n (ptArrayPushFront h array node) := by
  unfold Pillowtalk.ptArrayPushFront
  split
  · next b _ _ hb =>
    refine hs.modify fun he => ?_
    exact absurd (he ▸ (asArray_eq_some.mp hb).1) hne
  · exact hs

theorem ptArrayRemove (hs : Stays a n h) {array : Ptr} (hne : array ≠ some a) (node : Ptr) :
    Stays a n (ptArrayRemove h array node) := by
  unfold Pillowtalk.ptArrayRemove
  split
  · next b _ _ hb =>
    split
    · refine (hs.modify fun he => ?_).shrunk (ptFreeNode_shrunk _ _)
      exact absurd (he ▸ (asArray_eq_some.mp hb).1) hne
    · exact hs
  · exact hs

/-- A clone pushes to new arrays only. -/
theorem copying (a : ℕ) (head : List Ptr) (len : UInt32) :
    Copying (Stays a (.array head len)) (fun _ p => p ≠ some a) (fun _ => True) where
  null _ := Option.some_ne_none a |>.symm
  later _ _ _ _ hp := hp
  target _ _ _ := trivial
  alloc _ n _ hs := ⟨hs.alloc n, fun he => hs.1.ne' (Option.some.inj he)⟩
  set _ _ key _ _ map value _ _ hs _ _ := hs.ptMapSet map (some key) value
  push _ _ node hs hne _ := hs.ptArrayPushBack hne node
  get _ _ _ _ _ := trivial

end Stays

/-- `a` was handed out, and it is released or still an array with the elements `l`. -/
def ArrayAt (a : ℕ) (l : List Ptr) (h : Heap) : Prop :=
  a < h.next ∧ (h.cell a = none ∨ ∃ len, h.cell a = some (.array l len))

theorem Stays.arrayAt {a : ℕ} {l : List Ptr} {len : UInt32} {h : Heap}
    (hs : Stays a (.array l len) h) : ArrayAt a l h :=
  ⟨hs.1, hs.2.imp_right fun hc => ⟨len, hc⟩⟩

theorem edit_array {h : Heap} {a : ℕ} {l : List Ptr} {len : UInt32}
    (hc : h.cell a = some (.array l len)) (e : Edit) :
    ArrayAt a (Op.onArray a l (.edit e)) (edit h e) := by
  have hlt : a < h.next := Memory.lt_next hc
  have hs : Stays a (.array l len) h := ⟨hlt, Or.inr hc⟩
  have hself : asArray h (some a) = some (a, l, len) := asArray_eq_some.mpr ⟨rfl, hc⟩
  cases e with
  | mapNew => exact (hs.alloc _).arrayAt
  | arrayNew => exact (hs.alloc _).arrayAt
  | nullNew => exact (hs.alloc _).arrayAt
  | boolNew boolean => exact (hs.alloc _).arrayAt
  | integerNew integer => exact (hs.alloc _).arrayAt
  | doubleNew dbl => exact (hs.alloc _).arrayAt
  | stringNew str => exact (hs.alloc _).arrayAt
  | mapSet map key value => exact (hs.ptMapSet map key value).arrayAt
  | mapUnset map key => exact (hs.ptMapUnset map key).arrayAt
  | mapUpdate root additions append fuel =>
    exact ((Stays.copying a l len).updateMap fuel hs trivial additions append).arrayAt
  | clone root => exact ((Stays.copying a l len).cloneNode _ hs root).holds.arrayAt
  | freeNode node => exact (hs.shrunk (ptFreeNode_shrunk h node)).arrayAt
  | arrayPushBack array node =>
    by_cases ha : array = some a
    · subst ha
      simp only [Op.onArray, edit, ptArrayPushBack, hself, if_pos]
      exact ⟨hlt, Or.inr ⟨_, Memory.modify_cell_self _ hc⟩⟩
    · simp only [Op.onArray, if_neg ha]
      exact (hs.ptArrayPushBack ha node).arrayAt
  | arrayPushFront array node =>
    by_cases ha : array = some a
    · subst ha
      simp only [Op.onArray, edit, ptArrayPushFront, hself, if_pos]
      exact ⟨hlt, Or.inr ⟨_, Memory.modify_cell_self _ hc⟩⟩
    · simp only [Op.onArray, if_neg ha]
      exact (hs.ptArrayPushFront ha node).arrayAt
  | arrayRemove array node =>
    by_cases ha : array = some a
    · subst ha
      simp only [Op.onArray, edit, ptArrayRemove, hself, if_pos]
      split
      · have hset : Stays a (.array (l.erase node) (len - 1))
            (h.modify a (Node.setArray (l.erase node) (len - 1))) :=
          ⟨hlt, Or.inr (Memory.modify_cell_self _ hc)⟩
        exact (hset.shrunk (ptFreeNode_shrunk _ node)).arrayAt
      · next hmem =>
        rw [List.erase_of_not_mem hmem]
        exact hs.arrayAt
    · simp only [Op.onArray, if_neg ha]
      exact (hs.ptArrayRemove ha node).arrayAt

theorem ArrayAt.step {h : Heap} {a : ℕ} {l : List Ptr} (ha : ArrayAt a l h) (op : Op) :
    ArrayAt a (Op.onArray a l op) (step h op) := by
  rcases ha.2 with hdead | ⟨len, hc⟩
  · have hlater := Later.step h op
    exact ⟨lt_of_lt_of_le ha.1 hlater.le, Or.inl (hlater.dead a ha.1 hdead)⟩
  · cases op with
    | edit e => exact edit_array hc e
    | fromJson doc delivered =>
      obtain ⟨r, hr⟩ := doc.prefix_progress (List.take_prefix delivered _)
      obtain ⟨s, l', -, hstep, hp, -⟩ := step_fromJson h hr
      have hlt := lt_of_lt_of_le ha.1 (Later.step h (.fromJson doc delivered)).le
      refine ⟨hlt, Or.inr ⟨len, ?_⟩⟩
      rw [hstep, hp.old a ha.1, hc]
      rfl

theorem run_array {ops : List Op} {a : ℕ} {l : List Ptr} {len : UInt32}
    (ha : (run ops).cell a = some (.array l len)) (ops' : List Op) :
    ArrayAt a (reference a l ops') (run (ops ++ ops')) := by
  induction ops' using List.reverseRecOn with
  | nil =>
    rw [List.append_nil]
    exact ⟨Memory.lt_next ha, Or.inr ⟨len, ha⟩⟩
  | append_singleton ops' op ih =>
    rw [← List.append_assoc, run_concat, reference_concat]
    exact ih.step op

/-! ### What the caller sees -/

omit [HashFcn] in
theorem generateElems_eq_flatMap (generate : Ptr → List GenCall) (l : List Ptr) :
    generateElems generate l = l.flatMap generate := by
  induction l with
  | nil => rfl
  | cons node l ih => rw [generateElems, ih, List.flatMap_cons]

/-- Every way to look at the array shows the list `l`. -/
structure ShowsList (h : Heap) (a : ℕ) (l : List Ptr) : Prop where
  linked : ∃ len, h.cell a = some (.array l len)
  len : (ptArrayLen h (some a)).toNat = l.length
  get : ∀ i : UInt32, ptArrayGet h (some a) i = (l[i.toNat]?).getD none
  iterated : answers (ptIteratorNext h) l.length (ptIterator h (some a)) =
    l.map fun node => (node, none)
  generated : generateNodeJson h (some a) =
    .arrayOpen :: (l.flatMap (generateNode h.next h) ++ [.arrayClose])

theorem showsList_of_cell {h : Heap} {a : ℕ} {l : List Ptr} {len : UInt32}
    (hc : h.cell a = some (.array l len)) (hcount : (Node.array l len).Counted)
    (hshort : l.length < 2 ^ 31) : ShowsList h a l := by
  have hself : asArray h (some a) = some (a, l, len) := asArray_eq_some.mpr ⟨rfl, hc⟩
  have hiter : ptIterator h (some a) = some (.array l) := by
    simp only [ptIterator, Option.bind_some, hc]
  refine ⟨⟨len, hc⟩, ?_, ?_, ?_, ?_⟩
  · simp only [ptArrayLen, hself]
    rw [hcount, UInt32.toNat_ofNat', Nat.mod_eq_of_lt (by omega)]
  · intro i
    simp only [ptArrayGet, hself]
    exact arrayGetFrom_eq i l 0 (Nat.zero_le _)
  · have hview : PtIterator.view h (ptIterator h (some a)) = l.map fun node => (node, none) := by
      rw [hiter]
      rfl
    have hlen : (PtIterator.view h (ptIterator h (some a))).length = l.length := by
      rw [hview, List.length_map]
    rw [(ptIterator_walks h).answers_eq _ _ hlen.ge, ← hlen, List.take_length, hview]
  · simp only [generateNodeJson, generateNode, hc, generateElems_eq_flatMap]

/-- From any moment on, and until it is released, an array with fewer than 2^31
elements shows the reference list; an element that is not there is not removed. -/
theorem arrays_run (ops ops' : List Op) {a : ℕ} {l : List Ptr} {len : UInt32}
    (ha : (run ops).cell a = some (.array l len))
    (hlive : (run (ops ++ ops')).cell a ≠ none)
    (hshort : (reference a l ops').length < 2 ^ 31) :
    ShowsList (run (ops ++ ops')) a (reference a l ops') ∧
      ∀ node ∉ reference a l ops',
        ptArrayRemove (run (ops ++ ops')) (some a) node = run (ops ++ ops') := by
  obtain ⟨len', hc⟩ := (run_array ha ops').2.resolve_left hlive
  refine ⟨showsList_of_cell hc (run_counted _ a _ hc) hshort, fun node hnode => ?_⟩
  have hself := asArray_eq_some.mpr ⟨rfl, hc⟩
  simp only [ptArrayRemove, hself, if_neg hnode]

end

section
local instance arraysFcn : HashFcn := hashMurFcn

/-- `push_back(1)`, `push_front(2)`, `remove(1)` on a new array. -/
theorem arrays_run_removed :
    ShowsList (run ([.edit .arrayNew] ++ [.edit .nullNew, .edit (.integerNew 5),
      .edit (.arrayPushBack (some 0) (some 1)), .edit (.arrayPushFront (some 0) (some 2)),
      .edit (.arrayRemove (some 0) (some 1))])) 0 [some 2] :=
  (arrays_run (a := 0) (l := []) [.edit .arrayNew] [.edit .nullNew, .edit (.integerNew 5),
    .edit (.arrayPushBack (some 0) (some 1)), .edit (.arrayPushFront (some 0) (some 2)),
    .edit (.arrayRemove (some 0) (some 1))] rfl
      (Option.isSome_iff_ne_none.mp rfl) (by decide)).1

end
end Pillowtalk
