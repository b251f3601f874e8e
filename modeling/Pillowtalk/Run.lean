import Pillowtalk.Copying
import Pillowtalk.Document

/-!
# Runs of public operations

A run starts in the empty memory. An operation gets any pointers at all, among
them `NULL` and dead ones. An invariant of runs is given by what it says of a
single cell: `Editable` lists the ways in which the constructors and editors
write cells.
-/

namespace Pillowtalk
open Addressed

/-- A call of a constructor or an editor. `pt_map_update` may walk on for ever when one map
lies within the other; a call that returns has done so after some `fuel`. -/
inductive Edit where
  | mapNew
  | arrayNew
  | nullNew
  | boolNew (boolean : Int32)
  | integerNew (integer : Int32)
  | doubleNew (dbl : Double)
  | stringNew (str : Bytes)
  | mapSet (map : Ptr) (key : Option Bytes) (value : Ptr)
  | mapUnset (map : Ptr) (key : Bytes)
  | mapUpdate (root additions : Ptr) (append : Int32) (fuel : ℕ)
  | clone (root : Ptr)
  | arrayPushBack (array node : Ptr)
  | arrayPushFront (array node : Ptr)
  | arrayRemove (array node : Ptr)
  | freeNode (node : Ptr)

/-- A public operation. `fromJson doc n` reads a text for which yajl delivers the
first `n` callbacks of `doc`: all of them if the text is complete, fewer if it
is cut short or goes wrong. -/
inductive Op where
  | fromJson (doc : Json) (delivered : ℕ)
  | edit (e : Edit)

variable [HashFcn]

def edit (h : Heap) : Edit → Heap
  | .mapNew => (ptMapNew h).1
  | .arrayNew => (ptArrayNew h).1
  | .nullNew => (ptNullNew h).1
  | .boolNew boolean => (ptBoolNew h boolean).1
  | .integerNew integer => (ptIntegerNew h integer).1
  | .doubleNew dbl => (ptDoubleNew h dbl).1
  | .stringNew str => (ptStringNew h str).1
  | .mapSet map key value => ptMapSet h map key value
  | .mapUnset map key => ptMapUnset h map key
  | .mapUpdate root additions append fuel => (updateMap fuel h root additions append).1
  | .clone root => (ptClone h root).1
  | .arrayPushBack array node => ptArrayPushBack h array node
  | .arrayPushFront array node => ptArrayPushFront h array node
  | .arrayRemove array node => ptArrayRemove h array node
  | .freeNode node => ptFreeNode h node

def step (h : Heap) : Op → Heap
  | .fromJson doc delivered => ((parseJson h (doc.callbacks.take delivered)).map Prod.fst).getD h
  | .edit e => edit h e

def build (edits : List Edit) : Heap := edits.foldl edit heapEmpty

def run (ops : List Op) : Heap := ops.foldl step heapEmpty

theorem run_concat (ops : List Op) (op : Op) : run (ops ++ [op]) = step (run ops) op := by
  simp only [run, List.foldl_append, List.foldl_cons, List.foldl_nil]

/-- What holds at the start and is kept by the steps taken holds at the end. -/
theorem run_induction {P : Heap → Prop} {C : Op → Prop} (h0 : P heapEmpty)
    (hstep : ∀ h op, C op → P h → P (step h op)) {ops : List Op} (hops : ∀ op ∈ ops, C op) :
    P (run ops) := by
  induction ops using List.reverseRecOn with
  | nil => exact h0
  | append_singleton ops op ih =>
    rw [run_concat]
    have hop := hops op (List.mem_append_right _ (List.mem_singleton_self op))
    exact hstep _ op hop (ih fun o ho => hops o (List.mem_append_left _ ho))

theorem run_edits (edits : List Edit) : run (edits.map Op.edit) = build edits := by
  simp only [run, build, List.foldl_map]
  rfl

/-! ### What the editors write -/

section
variable {Q : Node → Prop} {h : Heap}

theorem every_ptFreeNode (hh : Memory.Every Q h) (p : Ptr) : Memory.Every Q (ptFreeNode h p) :=
  hh.shrunk (ptFreeNode_shrunk h p)

theorem every_ptMapSet (hh : Memory.Every Q h) (map : Ptr) (key : Option Bytes) (value : Ptr)
    (hnew : ∀ k ∈ key, ∀ value, Q (.keyValue (cstr k) (some value)))
    (hset : ∀ key old value, Q (.keyValue key old) → Q (.keyValue key (some value)))
    (hadd : ∀ (kvs : Uthash ℕ), ∀ k ∈ key, ∀ kv, Q (.map kvs) → kvs.hashFind (cstr k) = none →
      Q (.map (kvs.hashAddKeyptr (cstr k) kv))) : Memory.Every Q (ptMapSet h map key value) := by
  unfold ptMapSet
  split
  · next _ _ _ a kvs k v hm =>
    obtain ⟨rfl, hcell⟩ := asMap_eq_some.mp hm
    split
    · next hd _ =>
      refine (every_ptFreeNode hh _).modify fun c hc => ?_
      have hold := every_ptFreeNode hh _ _ c hc
      cases c with
      | keyValue k' old => exact hset k' old v hold
      | scalar x => exact hold
      | array head len => exact hold
      | map kvs' => exact hold
    · next hnone =>
      refine (hh.alloc (hnew k rfl v)).modify fun c hc => ?_
      rw [Memory.alloc_cell_old _ _ (Memory.lt_next hcell), hcell] at hc
      cases hc
      exact hadd kvs k rfl _ (hh a _ hcell) hnone
  · exact hh

theorem every_ptMapUnset (hh : Memory.Every Q h) (map : Ptr) (key : Bytes)
    (hdelete : ∀ (kvs : Uthash ℕ) hd, Q (.map kvs) → Q (.map (kvs.hashDelete hd))) :
    Memory.Every Q (ptMapUnset h map key) := by
  unfold ptMapUnset
  split
  · next a kvs hm =>
    obtain ⟨rfl, hcell⟩ := asMap_eq_some.mp hm
    split
    · next hd _ =>
      have hmod : Memory.Every Q (h.modify a (Node.setKeyValues (kvs.hashDelete hd))) := by
        refine hh.modify fun c hc => ?_
        rw [hcell] at hc
        cases hc
        exact hdelete kvs hd (hh a _ hcell)
      exact (every_ptFreeNode hmod _).shrunk (Memory.shrunk_free _ _)
    · exact hh
  · exact hh

theorem every_setArray (hh : Memory.Every Q h) {a : ℕ} {head head' : List Ptr}
    {len len' : UInt32} (hc : h.cell a = some (.array head len))
    (hq : Q (.array head len) → Q (.array head' len')) :
    Memory.Every Q (h.modify a (Node.setArray head' len')) := by
  refine hh.modify fun c hc' => ?_
  rw [hc] at hc'
  cases hc'
  exact hq (hh a _ hc)

theorem every_ptArrayPushFront (hh : Memory.Every Q h) (array node : Ptr)
    (hpush : ∀ a head len, asArray h array = some (a, head, len) → Q (.array head len) →
      Q (.array (node :: head) (len + 1))) : Memory.Every Q (ptArrayPushFront h array node) := by
  unfold ptArrayPushFront
  split
  · next a head len ha => exact every_setArray hh (asArray_eq_some.mp ha).2 (hpush a head len ha)
  · exact hh

theorem every_ptArrayPushBack (hh : Memory.Every Q h) (array node : Ptr)
    (hpush : ∀ a head len, asArray h array = some (a, head, len) → Q (.array head len) →
      Q (.array (head ++ [node]) (len + 1))) : Memory.Every Q (ptArrayPushBack h array node) := by
  unfold ptArrayPushBack
  split
  · next a head len ha => exact every_setArray hh (asArray_eq_some.mp ha).2 (hpush a head len ha)
  · exact hh

theorem every_ptArrayRemove (hh : Memory.Every Q h) (array node : Ptr)
    (herase : ∀ head len, Q (.array head len) → node ∈ head →
      Q (.array (head.erase node) (len - 1))) : Memory.Every Q (ptArrayRemove h array node) := by
  unfold ptArrayRemove
  split
  · next a head len ha =>
    split
    · next hmem =>
      exact every_ptFreeNode (every_setArray hh (asArray_eq_some.mp ha).2 fun hq =>
        herase head len hq hmem) node
    · exact hh
  · exact hh

end

/-! ### Invariants of single cells -/

/-- The key that `pt_map_set` is given is one of `K`. -/
def Edit.KeyIn (K : Bytes → Prop) : Edit → Prop
  | .mapSet _ key _ => ∀ k ∈ key, K (cstr k)
  | _ => True

omit [HashFcn] in
theorem Edit.keyIn_of_forall {K : Bytes → Prop} (hK : ∀ k, K k) (e : Edit) : e.KeyIn K := by
  cases e with
  | mapSet map key value => exact fun k _ => hK (cstr k)
  | _ => trivial

/-- `Q` holds of every cell that a constructor or an editor writes when the keys
set are among `K`. -/
structure Editable (K : Bytes → Prop) (Q : Node → Prop) : Prop where
  scalar : ∀ v : Scalar, v.Built → Q (.scalar v)
  arrayNew : Q (.array [] 0)
  mapNew : Q (.map hashNull)
  keyValue : ∀ key value, 0 ∉ key → K key → Q (.keyValue key (some value))
  setValue : ∀ key old value, Q (.keyValue key old) → Q (.keyValue key (some value))
  key : ∀ key value, Q (.keyValue key value) → K (cstr key)
  add : ∀ (kvs : Uthash ℕ) key kv, Q (.map kvs) → kvs.hashFind key = none → 0 ∉ key → K key →
    Q (.map (kvs.hashAddKeyptr key kv))
  delete : ∀ (kvs : Uthash ℕ) hd, Q (.map kvs) → Q (.map (kvs.hashDelete hd))
  pushFront : ∀ node head len, Q (.array head len) → Q (.array (node :: head) (len + 1))
  pushBack : ∀ node head len, Q (.array head len) → Q (.array (head ++ [node]) (len + 1))
  erase : ∀ node head len, Q (.array head len) → node ∈ head →
    Q (.array (head.erase node) (len - 1))

namespace Editable
variable {K : Bytes → Prop} {Q : Node → Prop}

theorem mapSet (hQ : Editable K Q) {h : Heap} (hh : Memory.Every Q h) (map : Ptr)
    (key : Option Bytes) (value : Ptr) (hK : ∀ k ∈ key, K (cstr k)) :
    Memory.Every Q (ptMapSet h map key value) :=
  every_ptMapSet hh map key value
    (fun k hk value => hQ.keyValue _ value (zero_not_mem_cstr k) (hK k hk)) hQ.setValue
    fun kvs k hk kv hq hnone => hQ.add kvs _ kv hq hnone (zero_not_mem_cstr k) (hK k hk)

theorem arrayPushBack (hQ : Editable K Q) {h : Heap} (hh : Memory.Every Q h) (array node : Ptr) :
    Memory.Every Q (ptArrayPushBack h array node) :=
  every_ptArrayPushBack hh array node fun _ head len _ => hQ.pushBack node head len

theorem copying (hQ : Editable K Q) :
    Copying (Memory.Every Q) (fun _ _ => True) (fun _ => True) where
  null _ := trivial
  later _ _ _ _ _ := trivial
  target _ _ _ := trivial
  alloc _ _ hn hh := by
    cases hn with
    | scalar hv => exact ⟨hh.alloc (hQ.scalar _ hv), trivial⟩
    | array => exact ⟨hh.alloc hQ.arrayNew, trivial⟩
    | map => exact ⟨hh.alloc hQ.mapNew, trivial⟩
  set _ _ key old _ map value hh₀ hkv hh _ _ := by
    refine hQ.mapSet hh map (some key) value fun k hk => ?_
    cases hk
    exact hQ.key key old (hh₀ _ _ hkv)
  push _ array node hh _ _ := hQ.arrayPushBack hh array node
  get _ _ _ _ _ := trivial

end Editable

theorem Editable.edit {K : Bytes → Prop} {Q : Node → Prop} (hQ : Editable K Q) {h : Heap}
    (hh : Memory.Every Q h) (e : Edit) (he : e.KeyIn K) : Memory.Every Q (edit h e) := by
  cases e with
  | mapNew => exact hh.alloc hQ.mapNew
  | arrayNew => exact hh.alloc hQ.arrayNew
  | nullNew => exact hh.alloc (hQ.scalar _ trivial)
  | boolNew boolean => exact hh.alloc (hQ.scalar _ trivial)
  | integerNew integer => exact hh.alloc (hQ.scalar _ trivial)
  | doubleNew dbl => exact hh.alloc (hQ.scalar _ trivial)
  | stringNew str => exact hh.alloc (hQ.scalar _ (zero_not_mem_cstr str))
  | mapSet map key value => exact hQ.mapSet hh map key value he
  | mapUnset map key => exact every_ptMapUnset hh map key hQ.delete
  | mapUpdate root additions append fuel =>
    exact hQ.copying.updateMap fuel hh trivial additions append
  | clone root => exact (hQ.copying.cloneNode _ hh root).holds
  | arrayPushBack array node => exact hQ.arrayPushBack hh array node
  | arrayPushFront array node =>
    exact every_ptArrayPushFront hh array node fun _ head len _ => hQ.pushFront node head len
  | arrayRemove array node =>
    exact every_ptArrayRemove hh array node fun head len => hQ.erase node head len
  | freeNode node => exact every_ptFreeNode hh node

theorem Editable.build {K : Bytes → Prop} {Q : Node → Prop} (hQ : Editable K Q)
    {edits : List Edit} (hK : ∀ e ∈ edits, e.KeyIn K) : Memory.Every Q (build edits) := by
  induction edits using List.reverseRecOn with
  | nil => exact Memory.every_empty Q
  | append_singleton edits e ih =>
    simp only [Pillowtalk.build, List.foldl_append, List.foldl_cons, List.foldl_nil]
    exact hQ.edit (ih fun e he => hK e (List.mem_append_left _ he)) e
      (hK e (List.mem_append_right _ (List.mem_singleton_self e)))

/-- In a run that sets keys of `K` and whose parses write only cells with `Q`, every cell
has `Q`. -/
theorem Editable.run {K : Bytes → Prop} {Q : Node → Prop} (hQ : Editable K Q) {ops : List Op}
    (hK : ∀ e, Op.edit e ∈ ops → e.KeyIn K)
    (hparse : ∀ h doc delivered, Op.fromJson doc delivered ∈ ops → Memory.Every Q h →
      Memory.Every Q (step h (.fromJson doc delivered))) : Memory.Every Q (run ops) := by
  refine run_induction (C := (· ∈ ops)) (Memory.every_empty Q) ?_ fun op hop => hop
  intro h op hop hh
  cases op with
  | fromJson doc delivered => exact hparse h doc delivered hop hh
  | edit e => exact hQ.edit hh e (hK e hop)

end Pillowtalk
