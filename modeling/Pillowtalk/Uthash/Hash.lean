import Mathlib.Data.List.Nodup
import Pillowtalk.Uthash.Table

/-!
# `HASH_FIND`, `HASH_ADD_KEYPTR`, `HASH_DELETE` (`uthash.h:58-161`)

A hash is what hangs off a `head` pointer: the items in application order and
their table. The field `consistent` says that the two agree, so every hash
that can be written down is one that the macros could have built.
-/

namespace Pillowtalk

@[ext]
structure Uthash [HashFcn] (ι : Type) where
  items : List (HashHandle ι)
  tbl : HashTable ι
  consistent : tbl.Consistent items

variable [HashFcn] {ι : Type}

/-- `head == NULL`. -/
def hashNull : Uthash ι := ⟨[], hashMakeTable, consistent_hashMakeTable⟩

namespace Uthash

def keys (t : Uthash ι) : List Bytes := t.items.map HashHandle.key

def hashFind (t : Uthash ι) (key : Bytes) : Option (HashHandle ι) :=
  if t.items.isEmpty then none
  else hashFindInBkt (t.tbl.buckets (hashToBkt (HashFcn.hash key) t.tbl.numBuckets)).chain key

/-- The table `HASH_ADD_KEYPTR` works on: a fresh one when `head` is `NULL`. -/
def tableForAdd (t : Uthash ι) : HashTable ι := if t.items.isEmpty then hashMakeTable else t.tbl

theorem tableForAdd_consistent (t : Uthash ι) : t.tableForAdd.Consistent t.items := by
  unfold tableForAdd
  split
  · next he =>
    rw [List.isEmpty_iff.mp he]
    exact consistent_hashMakeTable
  · exact t.consistent

/-- Whether adding `key` makes the table expand its buckets. -/
def expandsOn (t : Uthash ι) (key : Bytes) : Bool :=
  let bucket := t.tableForAdd.buckets (hashToBkt (HashFcn.hash key) t.tableForAdd.numBuckets)
  expandsAt t.tableForAdd { bucket with count := bucket.count + 1 }

/-- If adding `key` makes the table expand, it can be doubled, and `num_items` has not
wrapped to 0, which would make `HASH_EXPAND_BUCKETS` divide by 0. -/
def HasRoom (t : Uthash ι) (key : Bytes) : Prop :=
  t.expandsOn key = true → t.tableForAdd.CanDouble ∧ t.tableForAdd.numItems + 1 ≠ 0

instance (t : Uthash ι) (key : Bytes) : Decidable (t.HasRoom key) :=
  inferInstanceAs (Decidable
    (t.expandsOn key = true → t.tableForAdd.CanDouble ∧ t.tableForAdd.numItems + 1 ≠ 0))

end Uthash

theorem HashTable.Consistent.addToBkt [DecidableEq ι] {tbl : HashTable ι}
    {items : List (HashHandle ι)} (h : tbl.Consistent items) (hd : HashHandle ι)
    (hv : hd.hashv = HashFcn.hash hd.key) :
    (hashAddToBkt { tbl with numItems := tbl.numItems + 1 }
      (hashToBkt hd.hashv tbl.numBuckets) hd).Consistent (items ++ [hd]) := by
  have hc := h.cons hd hv ((tbl.buckets (hashToBkt hd.hashv tbl.numBuckets)).count + 1)
    (tbl.buckets (hashToBkt hd.hashv tbl.numBuckets)).expandMult (tbl.numItems + 1)
  simp only [hashAddToBkt]
  split
  · next hexpands => exact hc.expand hexpands.2
  · exact hc

namespace Uthash

/-- `HASH_ADD_KEYPTR`: the new item goes to the end of the application order
and to the head of its chain. -/
def hashAddKeyptr [DecidableEq ι] (t : Uthash ι) (key : Bytes) (add : ι) : Uthash ι where
  items := t.items ++ [⟨add, key, HashFcn.hash key⟩]
  tbl := hashAddToBkt { t.tableForAdd with numItems := t.tableForAdd.numItems + 1 }
    (hashToBkt (HashFcn.hash key) t.tableForAdd.numBuckets) ⟨add, key, HashFcn.hash key⟩
  consistent := t.tableForAdd_consistent.addToBkt ⟨add, key, HashFcn.hash key⟩ rfl

/-- `HASH_DELETE`: with the only item the table itself goes. -/
def hashDelete [DecidableEq ι] (t : Uthash ι) (hd : HashHandle ι) : Uthash ι :=
  if t.items = [hd] then hashNull
  else
    { items := t.items.erase hd
      tbl := { hashDelInBkt t.tbl (hashToBkt hd.hashv t.tbl.numBuckets) hd with
        numItems := t.tbl.numItems - 1 }
      consistent := t.consistent.del hd (t.tbl.numItems - 1) }

/-! ### What a search finds -/

theorem hashFind_chain (t : Uthash ι) (key : Bytes) :
    t.hashFind key = hashFindInBkt
      (t.tbl.buckets (hashToBkt (HashFcn.hash key) t.tbl.numBuckets)).chain key := by
  unfold hashFind
  split
  · next he =>
    have hp := t.consistent.chained (hashToBkt (HashFcn.hash key) t.tbl.numBuckets)
    rw [List.isEmpty_iff.mp he] at hp
    rw [List.Perm.eq_nil hp]
    rfl
  · rfl

theorem mem_chain_iff (t : Uthash ι) (key : Bytes) (hd : HashHandle ι) (hk : hd.key = key) :
    hd ∈ (t.tbl.buckets (hashToBkt (HashFcn.hash key) t.tbl.numBuckets)).chain ↔
      hd ∈ t.items := by
  rw [(t.consistent.chained _).mem_iff, List.mem_filter]
  constructor
  · exact fun h => h.1
  · intro h
    refine ⟨h, ?_⟩
    rw [t.consistent.hashed hd h, hk]
    exact decide_eq_true rfl

theorem hashFind_mem {t : Uthash ι} {key : Bytes} {hd : HashHandle ι}
    (h : t.hashFind key = some hd) : hd ∈ t.items := by
  rw [hashFind_chain] at h
  exact t.consistent.mem_items (List.mem_of_find?_eq_some h)

theorem keyEquals_of_hashFind {t : Uthash ι} {key : Bytes} {hd : HashHandle ι}
    (h : t.hashFind key = some hd) : keyEquals hd.key key = true := by
  rw [hashFind_chain, hashFindInBkt] at h
  have hp := List.find?_some h
  exact hp

/-- A key that fits is added once only when it is searched for first. -/
theorem not_mem_of_hashFind {t : Uthash ι} {key : Bytes} (hk : Fits key)
    (h : t.hashFind key = none) : key ∉ t.keys := by
  rw [hashFind_chain, hashFindInBkt, List.find?_eq_none] at h
  intro hm
  obtain ⟨hd, hi, rfl⟩ := List.mem_map.mp hm
  exact h hd ((mem_chain_iff t hd.key hd rfl).mpr hi) ((keyEquals_iff hk).mpr rfl)

/-- The keys that are there fit. -/
def KeysFit (t : Uthash ι) : Prop := ∀ key ∈ t.keys, Fits key

theorem hashFind_some {t : Uthash ι} (hfit : t.KeysFit) {key : Bytes} {hd : HashHandle ι}
    (h : t.hashFind key = some hd) : hd ∈ t.items ∧ hd.key = key := by
  have hmem := hashFind_mem h
  have hfits := hfit hd.key (List.mem_map_of_mem hmem)
  exact ⟨hmem, (keyEquals_iff hfits).mp (keyEquals_of_hashFind h)⟩

theorem hashFind_none_iff {t : Uthash ι} (hfit : t.KeysFit) (key : Bytes) :
    t.hashFind key = none ↔ key ∉ t.keys := by
  constructor
  · intro h hm
    exact not_mem_of_hashFind (hfit key hm) h hm
  · intro h
    cases hf : t.hashFind key with
    | none => rfl
    | some hd =>
      obtain ⟨hmem, hk⟩ := hashFind_some hfit hf
      exact absurd (List.mem_map.mpr ⟨hd, hmem, hk⟩) h

/-- A search among items that carry something, in application order: either no item has
the key, or the search finds the one that does. -/
theorem hashFind_split {α : Type} {t : Uthash ι} {ms : List (HashHandle ι × α)}
    (hi : t.items = ms.map Prod.fst) (hfit : t.KeysFit) (hd : t.keys.Nodup) (key : Bytes) :
    (t.hashFind key = none ∧ key ∉ t.keys) ∨
      ∃ pre handle v post, ms = pre ++ (handle, v) :: post ∧ handle.key = key ∧
        t.hashFind key = some handle ∧ key ∉ pre.map fun m => m.1.key := by
  cases hf : t.hashFind key with
  | none => exact Or.inl ⟨rfl, (hashFind_none_iff hfit key).mp hf⟩
  | some handle =>
    obtain ⟨hmem, hk⟩ := hashFind_some hfit hf
    rw [hi] at hmem
    obtain ⟨m, hm, rfl⟩ := List.mem_map.mp hmem
    obtain ⟨pre, post, rfl⟩ := List.append_of_mem hm
    refine Or.inr ⟨pre, m.1, m.2, post, rfl, hk, rfl, fun hpre => ?_⟩
    rw [keys, hi, List.map_map, List.map_append, List.map_cons] at hd
    exact (List.nodup_append.mp hd).2.2 key hpre m.1.key (List.mem_cons_self ..) hk.symm

/-! ### The application order -/

variable [DecidableEq ι]

@[simp] theorem items_hashAddKeyptr (t : Uthash ι) (key : Bytes) (add : ι) :
    (t.hashAddKeyptr key add).items = t.items ++ [⟨add, key, HashFcn.hash key⟩] := rfl

@[simp] theorem items_hashDelete (t : Uthash ι) (hd : HashHandle ι) :
    (t.hashDelete hd).items = t.items.erase hd := by
  unfold hashDelete
  split
  · next he => simp [he, hashNull]
  · rfl

@[simp] theorem keys_hashAddKeyptr (t : Uthash ι) (key : Bytes) (add : ι) :
    (t.hashAddKeyptr key add).keys = t.keys ++ [key] := by
  simp [keys]

theorem KeysFit.hashAddKeyptr {t : Uthash ι} (h : t.KeysFit) {key : Bytes} (hk : Fits key)
    (add : ι) : (t.hashAddKeyptr key add).KeysFit := by
  intro k hm
  rw [keys_hashAddKeyptr] at hm
  rcases List.mem_append.mp hm with hm | hm
  · exact h k hm
  · rwa [List.mem_singleton.mp hm]

/-- Items added one after another. -/
def hashAddAll (t : Uthash ι) (added : List (Bytes × ι)) : Uthash ι :=
  added.foldl (fun t m => t.hashAddKeyptr m.1 m.2) t

theorem items_hashAddAll (t : Uthash ι) (added : List (Bytes × ι)) :
    (t.hashAddAll added).items =
      t.items ++ added.map fun m => ⟨m.2, m.1, HashFcn.hash m.1⟩ := by
  induction added generalizing t with
  | nil => simp [hashAddAll]
  | cons m added ih =>
    have hstep := ih (t.hashAddKeyptr m.1 m.2)
    rw [items_hashAddKeyptr, List.append_assoc] at hstep
    exact hstep

theorem keys_hashDelete_sublist (t : Uthash ι) (hd : HashHandle ι) :
    (t.hashDelete hd).keys.Sublist t.keys := by
  simp only [keys, items_hashDelete]
  exact List.erase_sublist.map _

theorem KeysFit.hashDelete {t : Uthash ι} (h : t.KeysFit) (hd : HashHandle ι) :
    (t.hashDelete hd).KeysFit := fun k hm => h k ((keys_hashDelete_sublist t hd).subset hm)

end Uthash
end Pillowtalk
