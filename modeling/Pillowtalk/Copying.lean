import Pillowtalk.Clone
import Pillowtalk.Tree

/-!
# Invariants of cloning and merging

`pt_clone` and `pt_map_update` change the memory by calls of the constructors,
of `pt_map_set` and of `pt_array_push_back` only. `Copying` says what such a call
has to keep, and the induction over the two recursions is done here once.
-/

namespace Pillowtalk
open Addressed

variable [HashFcn]

/-- The nodes that the constructors make. -/
inductive Node.New : Node → Prop where
  | scalar {v : Scalar} (h : v.Built) : New (.scalar v)
  | array : New (.array [] 0)
  | map : New (.map hashNull)

/-! ### Later memories -/

/-- Addresses may have been handed out between `h` and `h'`, but a released one
stays so, and an old address holds a member only if it held one, with the same key. -/
structure Later (h h' : Heap) : Prop where
  le : h.next ≤ h'.next
  dead : ∀ a < h.next, h.cell a = none → h'.cell a = none
  keyValue : ∀ a < h.next, ∀ key value, h'.cell a = some (.keyValue key value) →
    ∃ value', h.cell a = some (.keyValue key value')

namespace Later

theorem refl (h : Heap) : Later h h :=
  ⟨le_refl _, fun _ _ hc => hc, fun _ _ _ value hc => ⟨value, hc⟩⟩

theorem trans {h₁ h₂ h₃ : Heap} (h : Later h₁ h₂) (h' : Later h₂ h₃) : Later h₁ h₃ := by
  refine ⟨le_trans h.le h'.le, fun a ha hc => ?_, fun a ha key value hc => ?_⟩
  · exact h'.dead a (lt_of_lt_of_le ha h.le) (h.dead a ha hc)
  · obtain ⟨value', hc'⟩ := h'.keyValue a (lt_of_lt_of_le ha h.le) key value hc
    exact h.keyValue a ha key value' hc'

theorem alloc (h : Heap) (n : Node) : Later h (h.alloc n) := by
  refine ⟨Nat.le_succ _, fun a ha hc => ?_, fun a ha key value hc => ⟨value, ?_⟩⟩
  · rwa [Memory.alloc_cell_old _ _ ha]
  · rwa [Memory.alloc_cell_old _ _ ha] at hc

theorem shrunk {h h' : Heap} (hs : Memory.Shrunk h h') : Later h h' := by
  refine ⟨le_of_eq hs.1.symm, fun a _ hc => ?_, fun a _ key value hc => ⟨value, ?_⟩⟩
  · rcases hs.2 a with he | he
    · rwa [he]
    · exact he
  · exact hs.cell_eq_some hc

theorem modify (h : Heap) (p : ℕ) {f : Node → Node}
    (hf : ∀ n key value, f n = .keyValue key value → ∃ value', n = .keyValue key value') :
    Later h (h.modify p f) := by
  refine ⟨le_refl _, fun a _ hc => ?_, fun a _ key value hc => ?_⟩
  · rw [Memory.modify_cell, hc]
    split <;> rfl
  · rw [Memory.modify_cell] at hc
    split at hc
    · obtain ⟨n, hn, hfn⟩ := Option.map_eq_some_iff.mp hc
      obtain ⟨value', rfl⟩ := hf n key value hfn
      exact ⟨value', hn⟩
    · exact ⟨value, hc⟩

theorem setValue (h : Heap) (p : ℕ) (v : Ptr) : Later h (h.modify p (Node.setValue v)) := by
  refine modify h p fun n key value hf => ?_
  cases n with
  | keyValue key' value' =>
    cases hf
    exact ⟨value', rfl⟩
  | scalar v => cases hf
  | array head len => cases hf
  | map kvs => cases hf

theorem setKeyValues (h : Heap) (p : ℕ) (kvs : Uthash ℕ) :
    Later h (h.modify p (Node.setKeyValues kvs)) := by
  refine modify h p fun n key value hf => ?_
  cases n with
  | keyValue key' value' => exact ⟨value, hf⟩
  | scalar v => cases hf
  | array head len => cases hf
  | map kvs' => cases hf

theorem setArray (h : Heap) (p : ℕ) (head : List Ptr) (len : UInt32) :
    Later h (h.modify p (Node.setArray head len)) := by
  refine modify h p fun n key value hf => ?_
  cases n with
  | keyValue key' value' => exact ⟨value, hf⟩
  | scalar v => cases hf
  | array head' len' => cases hf
  | map kvs => cases hf

theorem ptMapSet (h : Heap) (map : Ptr) (key : Option Bytes) (value : Ptr) :
    Later h (ptMapSet h map key value) := by
  unfold Pillowtalk.ptMapSet
  split
  · split
    · exact (shrunk (ptFreeNode_shrunk h _)).trans (setValue _ _ _)
    · exact (alloc h _).trans (setKeyValues _ _ _)
  · exact refl h

theorem ptArrayPushBack (h : Heap) (array node : Ptr) :
    Later h (ptArrayPushBack h array node) := by
  unfold Pillowtalk.ptArrayPushBack
  split
  · exact setArray h _ _ _
  · exact refl h

end Later

/-! ### What the calls keep -/

/-- `I` is kept by the calls that copying makes, provided that the values stored
satisfy `V` and the maps set satisfy `T`. New nodes satisfy both. The keys set are those
of members that are there. -/
structure Copying (I : Heap → Prop) (V : Heap → Ptr → Prop) (T : Ptr → Prop) : Prop where
  null : ∀ h, V h none
  later : ∀ h h' p, Later h h' → V h p → V h' p
  target : ∀ h p, V h p → T p
  alloc : ∀ h n, n.New → I h → I (h.alloc n) ∧ V (h.alloc n) (some h.next)
  set : ∀ h₀ a key old h map value, I h₀ → h₀.cell a = some (.keyValue key old) → I h → T map →
    V h value → I (ptMapSet h map (some key) value)
  push : ∀ h array value, I h → V h array → V h value → I (ptArrayPushBack h array value)
  get : ∀ h root key, I h → T root → T (ptMapGet h root key)

/-- A copy made in `h`. -/
structure Copied (I : Heap → Prop) (V : Heap → Ptr → Prop) (h : Heap) (copy : Heap × Ptr) :
    Prop where
  holds : I copy.1
  value : V copy.1 copy.2
  later : Later h copy.1

namespace Copying
variable {I : Heap → Prop} {V : Heap → Ptr → Prop} {T : Ptr → Prop}

theorem newNode (hI : Copying I V T) {h : Heap} (hi : I h) {n : Node} (hn : n.New) :
    Copied I V h (newNode h n) :=
  ⟨(hI.alloc h n hn hi).1, (hI.alloc h n hn hi).2, Later.alloc h n⟩

theorem cloneScalar (hI : Copying I V T) {h : Heap} (hi : I h) (v : Scalar) :
    Copied I V h (cloneScalar h v) := by
  cases v with
  | null => exact hI.newNode hi (.scalar trivial)
  | boolean b => exact hI.newNode hi (.scalar trivial)
  | integer i => exact hI.newNode hi (.scalar trivial)
  | double d => exact hI.newNode hi (.scalar trivial)
  | string s => exact hI.newNode hi (.scalar (zero_not_mem_cstr s))

theorem cloneMembers (hI : Copying I V T) {clone : Heap → Ptr → Heap × Ptr}
    (hclone : ∀ h p, I h → Copied I V h (clone h p)) {target : Ptr} (ht : T target)
    (l : List (HashHandle ℕ)) {h : Heap} (hi : I h) :
    I (cloneMembers clone target h l) ∧ Later h (cloneMembers clone target h l) := by
  induction l generalizing h with
  | nil => exact ⟨hi, Later.refl h⟩
  | cons keyValue l ih =>
    simp only [Pillowtalk.cloneMembers]
    split
    · next key value hkv =>
      have hcopy := hclone h value hi
      obtain ⟨hrest, hlater⟩ :=
        ih (hI.set h _ key value _ target _ hi hkv hcopy.holds ht hcopy.value)
      exact ⟨hrest, (hcopy.later.trans (Later.ptMapSet _ _ _ _)).trans hlater⟩
    · exact ih hi

theorem cloneElems (hI : Copying I V T) {clone : Heap → Ptr → Heap × Ptr}
    (hclone : ∀ h p, I h → Copied I V h (clone h p)) {target : Ptr} (l : List Ptr) {h : Heap}
    (hi : I h) (ht : V h target) :
    I (cloneElems clone target h l) ∧ Later h (cloneElems clone target h l) := by
  induction l generalizing h with
  | nil => exact ⟨hi, Later.refl h⟩
  | cons elem l ih =>
    have hcopy := hclone h elem hi
    have ht' := hI.later _ _ _ hcopy.later ht
    have hpush := Later.ptArrayPushBack (clone h elem).1 target (clone h elem).2
    obtain ⟨hrest, hlater⟩ := ih (hI.push _ target _ hcopy.holds ht' hcopy.value)
      (hI.later _ _ _ hpush ht')
    exact ⟨hrest, (hcopy.later.trans hpush).trans hlater⟩

theorem cloneNode (hI : Copying I V T) (fuel : ℕ) {h : Heap} (hi : I h) (p : Ptr) :
    Copied I V h (cloneNode fuel h p) := by
  induction fuel generalizing h p with
  | zero => exact ⟨hi, hI.null h, Later.refl h⟩
  | succ fuel ih =>
    have hclone : ∀ h p, I h → Copied I V h (Pillowtalk.cloneNode fuel h p) :=
      fun h p hi => ih hi p
    cases p with
    | none => exact ⟨hi, hI.null h, Later.refl h⟩
    | some a =>
      simp only [Pillowtalk.cloneNode]
      split
      · have hnew : Copied I V h (ptMapNew h) := hI.newNode hi .map
        obtain ⟨hrest, hlater⟩ := hI.cloneMembers hclone (hI.target _ _ hnew.value) _ hnew.holds
        exact ⟨hrest, hI.later _ _ _ hlater hnew.value, hnew.later.trans hlater⟩
      · have hnew : Copied I V h (ptArrayNew h) := hI.newNode hi .array
        obtain ⟨hrest, hlater⟩ := hI.cloneElems hclone _ hnew.holds hnew.value
        exact ⟨hrest, hI.later _ _ _ hlater hnew.value, hnew.later.trans hlater⟩
      · exact hI.cloneScalar hi _
      · exact ⟨hi, hI.null h, Later.refl h⟩

theorem updateMember (hI : Copying I V T) {update : Heap → Ptr → Ptr → Heap × Int32}
    (hu : ∀ h existing value, I h → T existing → I (update h existing value).1) {root : Ptr}
    (ht : T root) {h h' : Heap} (hi : I h) {keyValue : HashHandle ℕ}
    (hm : updateMember update root h keyValue = some h') : I h' := by
  simp only [Pillowtalk.updateMember] at hm
  split at hm
  · next key value hkv =>
    have hcopy := hI.cloneNode (h.next + 1) hi (some value)
    have hset := hI.set h _ key _ _ root _ hi hkv hcopy.holds ht hcopy.value
    split at hm
    · cases hm
      exact hset
    · split at hm
      · cases hm
      · split at hm
        · cases hm
          exact hu _ _ _ hi (hI.get h root (some key) hi ht)
        · cases hm
          exact hset
  · cases hm
    exact hi

theorem updateFrom (hI : Copying I V T) {update : Heap → Ptr → Ptr → Heap × Int32}
    (hu : ∀ h existing value, I h → T existing → I (update h existing value).1) {root : Ptr}
    (ht : T root) (additions fuel : ℕ) {h : Heap} (hi : I h) (next : Option (HashHandle ℕ)) :
    I (updateFrom update root additions fuel h next).1 := by
  induction fuel generalizing h next with
  | zero =>
    cases next with
    | none => exact hi
    | some keyValue => exact hi
  | succ fuel ih =>
    cases next with
    | none => exact hi
    | some keyValue =>
      simp only [Pillowtalk.updateFrom]
      split
      · exact hi
      · next h' hm => exact ih (hI.updateMember hu ht hi hm) _

theorem updateMap (hI : Copying I V T) (fuel : ℕ) {h : Heap} (hi : I h) {root : Ptr}
    (ht : T root) (additions : Ptr) (append : Int32) :
    I (updateMap fuel h root additions append).1 := by
  induction fuel generalizing h root additions with
  | zero => exact hi
  | succ fuel ih =>
    simp only [Pillowtalk.updateMap]
    split
    · exact hI.updateFrom (fun h existing value hi ht => ih hi ht value) ht _ _ hi _
    · exact hi

end Copying
end Pillowtalk
