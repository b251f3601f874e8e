import Pillowtalk.Iterator
import Pillowtalk.Ownership
import Pillowtalk.Run

/-!
# Sessions

A session is a run in which the caller passes only pointers that the library
gave out: results of the constructors, of `pt_clone` and `pt_from_json`, of the
lookups and of iterators. They may well be dead by then. Iterators need no state
here: what one gives out after an edit is stored in its container at that time.
-/

namespace Pillowtalk
open Addressed Iteration

/-- A call of the public interface. `iterate node calls` is `pt_iterator` and that
many calls of `pt_iterator_next`. -/
inductive Call where
  | op (o : Op)
  | mapGet (map : Ptr) (key : Option Bytes)
  | arrayGet (array : Ptr) (idx : UInt32)
  | iterate (node : Ptr) (calls : ℕ)

def Edit.args : Edit → List Ptr
  | .mapSet map _ value => [map, value]
  | .mapUnset map _ => [map]
  | .mapUpdate root additions _ _ => [root, additions]
  | .clone root => [root]
  | .arrayPushBack array node => [array, node]
  | .arrayPushFront array node => [array, node]
  | .arrayRemove array node => [array, node]
  | .freeNode node => [node]
  | _ => []

def Call.args : Call → List Ptr
  | .op (.fromJson _ _) => []
  | .op (.edit e) => e.args
  | .mapGet map _ => [map]
  | .arrayGet array _ => [array]
  | .iterate node _ => [node]

def Call.op? : Call → Option Op
  | .op o => some o
  | _ => none

variable [HashFcn]

/-- The pointer that a constructor or `pt_clone` returns. -/
def Edit.made (h : Heap) : Edit → List Ptr
  | .mapNew => [(ptMapNew h).2]
  | .arrayNew => [(ptArrayNew h).2]
  | .nullNew => [(ptNullNew h).2]
  | .boolNew boolean => [(ptBoolNew h boolean).2]
  | .integerNew integer => [(ptIntegerNew h integer).2]
  | .doubleNew dbl => [(ptDoubleNew h dbl).2]
  | .stringNew str => [(ptStringNew h str).2]
  | .clone root => [(ptClone h root).2]
  | _ => []

/-- The pointers that a call gives to the caller. -/
def Call.given (h : Heap) : Call → List Ptr
  | .op (.fromJson doc delivered) =>
    ((parseJson h (doc.callbacks.take delivered)).map Prod.snd).toList
  | .op (.edit e) => e.made h
  | .mapGet map key => [ptMapGet h map key]
  | .arrayGet array idx => [ptArrayGet h array idx]
  | .iterate node calls => (answers (ptIteratorNext h) calls (ptIterator h node)).map Prod.fst

structure Session where
  heap : Heap
  given : List Ptr

namespace Session

def start : Session := ⟨heapEmpty, []⟩

def call (s : Session) (c : Call) : Session where
  heap := c.op?.elim s.heap (step s.heap)
  given := c.given s.heap ++ s.given

/-- Every pointer passed is `NULL` or was given out before. -/
def Allows (s : Session) (c : Call) : Prop := ∀ p ∈ c.args, p = none ∨ p ∈ s.given

def run (s : Session) (cs : List Call) : Session := cs.foldl call s

def Valid : Session → List Call → Prop
  | _, [] => True
  | s, c :: cs => s.Allows c ∧ Valid (s.call c) cs

instance (s : Session) (c : Call) : Decidable (s.Allows c) :=
  inferInstanceAs (Decidable (∀ p ∈ c.args, p = none ∨ p ∈ s.given))

instance decidableValid : ∀ (s : Session) (cs : List Call), Decidable (s.Valid cs)
  | _, [] => isTrue trivial
  | s, c :: cs =>
    haveI := decidableValid (s.call c) cs
    inferInstanceAs (Decidable (s.Allows c ∧ Valid (s.call c) cs))

theorem heap_run (s : Session) (cs : List Call) :
    (s.run cs).heap = (cs.filterMap Call.op?).foldl step s.heap := by
  induction cs generalizing s with
  | nil => rfl
  | cons c cs ih =>
    have hrun : (s.run (c :: cs)).heap = ((s.call c).run cs).heap := rfl
    rw [hrun, ih]
    cases c <;> rfl

/-- The memory of a session is that of a run. -/
theorem heap_start_run (cs : List Call) :
    (start.run cs).heap = Pillowtalk.run (cs.filterMap Call.op?) := heap_run start cs

end Session

/-! ### What the calls give out -/

omit [HashFcn] in
theorem arrayGetFrom_mem (idx : UInt32) (index : Int32) (head : List Ptr) :
    arrayGetFrom idx index head = none ∨ arrayGetFrom idx index head ∈ head := by
  induction head generalizing index with
  | nil => exact Or.inl rfl
  | cons cur rest ih =>
    simp only [arrayGetFrom]
    split
    · exact Or.inr (List.mem_cons_self ..)
    · exact (ih (index + 1)).imp_right (List.mem_cons_of_mem _)

namespace Sane

theorem ptMapGet {h : Heap} (hs : Sane h) (map : Ptr) (key : Option Bytes) :
    Proper h (ptMapGet h map key) := by
  unfold Pillowtalk.ptMapGet
  split
  · split
    · exact hs.value
    · exact proper_null h
  · exact proper_null h

theorem ptArrayGet {h : Heap} (hs : Sane h) (array : Ptr) (idx : UInt32) :
    Proper h (ptArrayGet h array idx) := by
  unfold Pillowtalk.ptArrayGet
  split
  · next a head len ha =>
    rcases arrayGetFrom_mem idx 0 head with he | he
    · rw [he]
      exact proper_null h
    · exact hs.stored a _ (asArray_eq_some.mp ha).2 _ he
  · exact proper_null h

theorem visitPair {h : Heap} (hs : Sane h) (kv : HashHandle ℕ) :
    Proper h (visitPair h kv).1 := by
  unfold Pillowtalk.visitPair
  split
  · next hc => exact hs.stored _ _ hc
  · exact proper_null h

/-- An iterator that has only proper nodes before it. -/
theorem visits {h : Heap} (hs : Sane h) (calls : ℕ) (node : Ptr) :
    ∀ v ∈ answers (ptIteratorNext h) calls (ptIterator h node), Proper h v.1 := by
  have hview : ∀ v ∈ PtIterator.view h (ptIterator h node), Proper h v.1 := by
    intro v hv
    unfold ptIterator at hv
    split at hv
    · next head len hc =>
      obtain ⟨p, hp, rfl⟩ := List.mem_map.mp hv
      obtain ⟨a, rfl, hcell⟩ := Option.bind_eq_some_iff.mp hc
      exact hs.stored a _ hcell p hp
    · obtain ⟨kv, -, rfl⟩ := List.mem_map.mp hv
      exact hs.visitPair kv
    · cases hv
  generalize ptIterator h node = iter at hview ⊢
  have hwalks := ptIterator_walks h
  induction calls generalizing iter with
  | zero => exact fun v hv => absurd hv List.not_mem_nil
  | succ calls ih =>
    intro v hv
    cases hrest : PtIterator.view h iter with
    | nil =>
      have hend := hwalks.ended hrest (calls + 1) v hv
      rw [show v.1 = none from hend]
      exact proper_null h
    | cons w ws =>
      obtain ⟨hfirst, hnext⟩ := hwalks.more iter w ws hrest
      rw [hrest] at hview
      rcases List.mem_cons.mp hv with rfl | hv
      · rw [hfirst]
        exact hview w (List.mem_cons_self ..)
      · refine ih _ (fun x hx => ?_) v hv
        rw [hnext] at hx
        exact hview x (List.mem_cons_of_mem _ hx)

end Sane

/-! ### Every session is sane -/

theorem Later.edit (h : Heap) (e : Edit) : Later h (edit h e) := by
  cases e with
  | mapNew => exact alloc h _
  | arrayNew => exact alloc h _
  | nullNew => exact alloc h _
  | boolNew boolean => exact alloc h _
  | integerNew integer => exact alloc h _
  | doubleNew dbl => exact alloc h _
  | stringNew str => exact alloc h _
  | mapSet map key value => exact ptMapSet h map key value
  | mapUnset map key => exact ptMapUnset h map key
  | mapUpdate root additions append fuel =>
    exact (copying h).updateMap fuel (refl h) trivial additions append
  | clone root => exact ((copying h).cloneNode _ (refl h) root).holds
  | arrayPushBack array node => exact ptArrayPushBack h array node
  | arrayPushFront array node => exact ptArrayPushFront h array node
  | arrayRemove array node => exact ptArrayRemove h array node
  | freeNode node => exact shrunk (ptFreeNode_shrunk h node)

theorem Later.step (h : Heap) (op : Op) : Later h (step h op) := by
  cases op with
  | edit e => exact Later.edit h e
  | fromJson doc delivered =>
    simp only [Pillowtalk.step]
    cases hr : Pillowtalk.parseJson h (doc.callbacks.take delivered) with
    | none => exact refl h
    | some r => exact parseJson hr

theorem Sane.edit {h : Heap} (hs : Sane h) (e : Edit) (he : ∀ p ∈ e.args, Proper h p) :
    Sane (edit h e) := by
  cases e with
  | mapNew => exact hs.alloc .map
  | arrayNew => exact hs.alloc .array
  | nullNew => exact hs.alloc (.scalar _)
  | boolNew boolean => exact hs.alloc (.scalar _)
  | integerNew integer => exact hs.alloc (.scalar _)
  | doubleNew dbl => exact hs.alloc (.scalar _)
  | stringNew str => exact hs.alloc (.scalar _)
  | mapSet map key value => exact hs.ptMapSet map key (he value (by simp [Edit.args]))
  | mapUnset map key => exact hs.ptMapUnset map key
  | mapUpdate root additions append fuel =>
    exact copying.updateMap fuel hs trivial additions append
  | clone root => exact (copying.cloneNode _ hs root).holds
  | arrayPushBack array node => exact hs.ptArrayPushBack array (he node (by simp [Edit.args]))
  | arrayPushFront array node => exact hs.ptArrayPushFront array (he node (by simp [Edit.args]))
  | arrayRemove array node => exact hs.ptArrayRemove array node
  | freeNode node => exact hs.ptFreeNode (he node (by simp [Edit.args]))

theorem Sane.made {h : Heap} (hs : Sane h) (e : Edit) :
    ∀ p ∈ e.made h, Proper (Pillowtalk.edit h e) p := by
  have hone : ∀ {q : Ptr} {h' : Heap}, Proper h' q → ∀ p ∈ [q], Proper h' p :=
    fun hq p hp => (List.mem_singleton.mp hp) ▸ hq
  cases e with
  | mapNew => exact hone (proper_alloc h .map)
  | arrayNew => exact hone (proper_alloc h .array)
  | nullNew => exact hone (proper_alloc h (.scalar _))
  | boolNew boolean => exact hone (proper_alloc h (.scalar _))
  | integerNew integer => exact hone (proper_alloc h (.scalar _))
  | doubleNew dbl => exact hone (proper_alloc h (.scalar _))
  | stringNew str => exact hone (proper_alloc h (.scalar _))
  | clone root => exact hone (copying.cloneNode _ hs root).value
  | mapSet map key value => exact fun p hp => absurd hp List.not_mem_nil
  | mapUnset map key => exact fun p hp => absurd hp List.not_mem_nil
  | mapUpdate root additions append fuel => exact fun p hp => absurd hp List.not_mem_nil
  | arrayPushBack array node => exact fun p hp => absurd hp List.not_mem_nil
  | arrayPushFront array node => exact fun p hp => absurd hp List.not_mem_nil
  | arrayRemove array node => exact fun p hp => absurd hp List.not_mem_nil
  | freeNode node => exact fun p hp => absurd hp List.not_mem_nil

namespace Session

/-- The memory is sane, and the caller has no pointer to a member of a map. -/
structure Sound (s : Session) : Prop where
  sane : Sane s.heap
  given : ∀ p ∈ s.given, Proper s.heap p

theorem sane_empty : Sane heapEmpty where
  owned := {
    member := fun _ _ hc => absurd hc (by simp [heapEmpty, Memory.empty])
    once := fun _ _ hc => absurd hc (by simp [heapEmpty, Memory.empty])
    one := fun _ _ _ _ hc => absurd hc (by simp [heapEmpty, Memory.empty]) }
  stored := Memory.every_empty _

theorem sound_start : start.Sound := ⟨sane_empty, fun _ hp => absurd hp List.not_mem_nil⟩

theorem later_call (s : Session) (c : Call) : Later s.heap (s.call c).heap := by
  cases c with
  | op o => exact Later.step s.heap o
  | mapGet map key => exact Later.refl s.heap
  | arrayGet array idx => exact Later.refl s.heap
  | iterate node calls => exact Later.refl s.heap

theorem Sound.step {s : Session} (hs : s.Sound) {c : Call} (hc : s.Allows c) :
    Sane (s.call c).heap ∧ ∀ p ∈ c.given s.heap, Proper (s.call c).heap p := by
  have hargs : ∀ p ∈ c.args, Proper s.heap p := by
    intro p hp
    rcases hc p hp with rfl | hgiven
    · exact proper_null _
    · exact hs.given p hgiven
  cases c with
  | op o =>
    cases o with
    | fromJson doc delivered =>
      simp only [call, Call.op?, Option.elim_some, Call.given, Pillowtalk.step]
      cases hr : parseJson s.heap (doc.callbacks.take delivered) with
      | none => exact ⟨hs.sane, fun p hp => absurd hp List.not_mem_nil⟩
      | some r =>
        obtain ⟨hsane, hroot⟩ := hs.sane.parseJson hr
        exact ⟨hsane, fun p hp => (List.mem_singleton.mp hp) ▸ hroot⟩
    | edit e => exact ⟨hs.sane.edit e hargs, hs.sane.made e⟩
  | mapGet map key =>
    exact ⟨hs.sane, fun p hp => (List.mem_singleton.mp hp) ▸ hs.sane.ptMapGet map key⟩
  | arrayGet array idx =>
    exact ⟨hs.sane, fun p hp => (List.mem_singleton.mp hp) ▸ hs.sane.ptArrayGet array idx⟩
  | iterate node calls =>
    refine ⟨hs.sane, fun p hp => ?_⟩
    obtain ⟨v, hv, rfl⟩ := List.mem_map.mp hp
    exact hs.sane.visits calls node v hv

theorem Sound.call {s : Session} (hs : s.Sound) {c : Call} (hc : s.Allows c) :
    (s.call c).Sound := by
  obtain ⟨hsane, hgiven⟩ := hs.step hc
  refine ⟨hsane, fun p hp => ?_⟩
  rcases List.mem_append.mp hp with hp | hp
  · exact hgiven p hp
  · exact (hs.given p hp).later (s.later_call c)

theorem Sound.run {s : Session} (hs : s.Sound) {cs : List Call} (hv : s.Valid cs) :
    (s.run cs).Sound := by
  induction cs generalizing s with
  | nil => exact hs
  | cons c cs ih => exact ih (hs.call hv.1) hv.2

end Session
end Pillowtalk
