import Pillowtalk.Edit
import Pillowtalk.Library.Ordered
import Pillowtalk.Uthash.Simulation

/-!
# Runs on the links (`pillowtalk_impl.c:151-165`, `364-396`, `679`, `840-849`)

What the library does with the hash of one map, in any order, on three levels:
the links, the lists of `Uthash`, and a dictionary. On the links every addition
and deletion ends with `HASH_FSCK`, and a run that fails it has no result, nor has one
in which a search does not end or a table of `2^31` buckets has to expand. The
address of an element may be one that an earlier element had.
-/

namespace Pillowtalk
open Addressed

inductive HashOp (ι : Type) where
  | add (key : Bytes) (elt : ι)
  | find (key : Bytes)
  | set (key : Bytes) (elt : ι)
  | unset (key : Bytes)
  | pop
  | each

variable {ι : Type} [DecidableEq ι]

/-! ### The three levels -/

namespace HashLinks
variable [HashFcn]

def checked (s : HashLinks ι) (out : List ι) : Option (HashLinks ι × List ι) :=
  if s.fsck then some (s, out) else none

/-- One operation, and the elements that it finds. -/
def step (s : HashLinks ι) : HashOp ι → Option (HashLinks ι × List ι)
  -- `json_map_key` looks for nothing
  | .add key elt => (s.addKeyptr key elt).bind fun s => s.checked []
  | .find key => (s.find key).map fun out => (s, out.toList)
  -- `pt_map_set` keeps the element that it finds
  | .set key elt => (s.find key).bind fun out =>
    match out with
    | some found => some (s, [found])
    | none => (s.addKeyptr key elt).bind fun s => s.checked []
  | .unset key => (s.find key).bind fun out =>
    match out with
    | some found => (s.delete found).checked [found]
    | none => some (s, [])
  -- `free_map_node`: `cur = map->key_values; HASH_DEL(map->key_values, cur)`
  | .pop =>
    match s.head with
    | some cur => (s.delete cur).checked [cur]
    | none => some (s, [])
  | .each => some (s, s.each)

def run (s : HashLinks ι) : List (HashOp ι) → Option (HashLinks ι × List (List ι))
  | [] => some (s, [])
  | op :: ops => (s.step op).bind fun r => (run r.1 ops).map fun q => (q.1, r.2 :: q.2)

end HashLinks

namespace Uthash
variable [HashFcn]

def step (t : Uthash ι) : HashOp ι → Uthash ι × List ι
  | .add key elt => (t.hashAddKeyptr key elt, [])
  | .find key => (t, ((t.hashFind key).map HashHandle.elt).toList)
  | .set key elt =>
    match t.hashFind key with
    | some found => (t, [found.elt])
    | none => (t.hashAddKeyptr key elt, [])
  | .unset key =>
    match t.hashFind key with
    | some found => (t.hashDelete found, [found.elt])
    | none => (t, [])
  | .pop =>
    match t.items with
    | cur :: _ => (t.hashDelete cur, [cur.elt])
    | [] => (t, [])
  | .each => (t, elts t.items)

def run (t : Uthash ι) : List (HashOp ι) → Uthash ι × List (List ι)
  | [] => (t, [])
  | op :: ops => ((run (t.step op).1 ops).1, (t.step op).2 :: (run (t.step op).1 ops).2)

/-- An element that is added is in the hash only once it is, `num_items` can count it, and
the table can expand for it if it has to. -/
def Allows (t : Uthash ι) : HashOp ι → Prop
  | .add key elt | .set key elt =>
    elt ∉ elts t.items ∧ t.items.length + 1 < 2 ^ 32 ∧ t.HasRoom key
  | _ => True

instance (t : Uthash ι) : (op : HashOp ι) → Decidable (t.Allows op)
  | .add key elt | .set key elt => inferInstanceAs
    (Decidable (elt ∉ elts t.items ∧ t.items.length + 1 < 2 ^ 32 ∧ t.HasRoom key))
  | .find _ | .unset _ | .pop | .each => isTrue trivial

def Valid (t : Uthash ι) : List (HashOp ι) → Prop
  | [] => True
  | op :: ops => t.Allows op ∧ Valid (t.step op).1 ops

instance decidableValid (t : Uthash ι) : (ops : List (HashOp ι)) → Decidable (t.Valid ops)
  | [] => isTrue trivial
  | op :: ops =>
    have := decidableValid (t.step op).1 ops
    inferInstanceAs (Decidable (t.Allows op ∧ Valid (t.step op).1 ops))

end Uthash

/-- Members in the order in which they were added. -/
abbrev Members (ι : Type) := Ordered.Dict Bytes ι

namespace Members

def step (d : Members ι) : HashOp ι → Members ι × List ι
  | .add key elt => (d ++ [(key, elt)], [])
  | .find key => (d, (Ordered.get d key).toList)
  | .set key elt =>
    match Ordered.get d key with
    | some found => (d, [found])
    | none => (d ++ [(key, elt)], [])
  | .unset key => (Ordered.unset d key, (Ordered.get d key).toList)
  | .pop => (d.tail, (d.head?.map Prod.snd).toList)
  | .each => (d, d.map Prod.snd)

def run (d : Members ι) : List (HashOp ι) → Members ι × List (List ι)
  | [] => (d, [])
  | op :: ops => ((run (d.step op).1 ops).1, (d.step op).2 :: (run (d.step op).1 ops).2)

/-- A key that is added is not there, and its length fits. -/
def Allows (d : Members ι) : HashOp ι → Prop
  | .add key _ => key ∉ Ordered.keys d ∧ Fits key
  | .set key _ => Fits key
  | _ => True

instance (d : Members ι) : (op : HashOp ι) → Decidable (d.Allows op)
  | .add key _ => inferInstanceAs (Decidable (key ∉ Ordered.keys d ∧ Fits key))
  | .set key _ => inferInstanceAs (Decidable (Fits key))
  | .find _ | .unset _ | .pop | .each => isTrue trivial

def Valid (d : Members ι) : List (HashOp ι) → Prop
  | [] => True
  | op :: ops => d.Allows op ∧ Valid (d.step op).1 ops

instance decidableValid (d : Members ι) : (ops : List (HashOp ι)) → Decidable (d.Valid ops)
  | [] => isTrue trivial
  | op :: ops =>
    have := decidableValid (d.step op).1 ops
    inferInstanceAs (Decidable (d.Allows op ∧ Valid (d.step op).1 ops))

end Members

/-! ### The links and the lists -/

namespace Represents
variable [HashFcn] {s : HashLinks ι} {t : Uthash ι}

theorem checked (h : Represents s t) (out : List ι) : s.checked out = some (s, out) := by
  rw [HashLinks.checked, if_pos h.fsck]

theorem step (h : Represents s t) {op : HashOp ι} (ha : t.Allows op) :
    ∃ s', s.step op = some (s', (t.step op).2) ∧ Represents s' (t.step op).1 := by
  cases op with
  | add key elt =>
    obtain ⟨s', hadd, h'⟩ := h.addKeyptr ha.1 ha.2.1 ha.2.2
    refine ⟨s', ?_, h'⟩
    rw [HashLinks.step, hadd, Option.bind_some, h'.checked]
    rfl
  | find key =>
    refine ⟨s, ?_, h⟩
    rw [HashLinks.step, h.find]
    rfl
  | set key elt =>
    obtain ⟨s', hadd, h'⟩ := h.addKeyptr ha.1 ha.2.1 ha.2.2
    simp only [HashLinks.step, Uthash.step, h.find, Option.bind_some]
    cases t.hashFind key with
    | some found => exact ⟨s, rfl, h⟩
    | none =>
      refine ⟨s', ?_, h'⟩
      simp only [Option.map_none, hadd, Option.bind_some, h'.checked]
  | unset key =>
    simp only [HashLinks.step, Uthash.step, h.find, Option.bind_some]
    cases hfind : t.hashFind key with
    | some found =>
      have hdel := h.delete (Uthash.hashFind_mem hfind)
      exact ⟨_, hdel.checked _, hdel⟩
    | none => exact ⟨s, rfl, h⟩
  | pop =>
    simp only [HashLinks.step, Uthash.step, h.head]
    cases hitems : t.items with
    | cons cur rest =>
      have hdel := h.delete (hitems ▸ List.mem_cons_self ..)
      exact ⟨_, hdel.checked _, hdel⟩
    | nil => exact ⟨s, rfl, h⟩
  | each =>
    refine ⟨s, ?_, h⟩
    rw [HashLinks.step, h.each]
    rfl

theorem run (h : Represents s t) {ops : List (HashOp ι)} (hv : t.Valid ops) :
    ∃ s', s.run ops = some (s', (t.run ops).2) ∧ Represents s' (t.run ops).1 := by
  induction ops generalizing s t with
  | nil => exact ⟨s, rfl, h⟩
  | cons op ops ih =>
    obtain ⟨s₁, hstep, h₁⟩ := h.step hv.1
    obtain ⟨s₂, hrun, h₂⟩ := ih h₁ hv.2
    refine ⟨s₂, ?_, h₂⟩
    rw [HashLinks.run, hstep, Option.bind_some, hrun]
    rfl

end Represents

/-! ### The lists and the dictionary -/

namespace Uthash
variable [HashFcn] {t : Uthash ι}

def members (t : Uthash ι) : Members ι := t.items.map fun hd => (hd.key, hd.elt)

omit [DecidableEq ι] in
theorem keys_members (t : Uthash ι) : Ordered.keys t.members = t.keys := by
  rw [Ordered.keys, members, List.map_map]
  rfl

omit [DecidableEq ι] in
theorem elts_members (t : Uthash ι) : t.members.map Prod.snd = elts t.items := by
  rw [members, List.map_map]
  rfl

theorem members_hashAddKeyptr (t : Uthash ι) (key : Bytes) (elt : ι) :
    (t.hashAddKeyptr key elt).members = t.members ++ [(key, elt)] := by
  rw [members, items_hashAddKeyptr, List.map_append]
  rfl

omit [DecidableEq ι] in
theorem get_members (hfit : t.KeysFit) (hk : t.keys.Nodup) (key : Bytes) :
    Ordered.get t.members key = (t.hashFind key).map HashHandle.elt := by
  cases hfind : t.hashFind key with
  | none =>
    apply Ordered.get_eq_none_iff.mpr
    rw [keys_members]
    exact (hashFind_none_iff hfit key).mp hfind
  | some found =>
    obtain ⟨hmem, hkey⟩ := hashFind_some hfit hfind
    apply Ordered.get_of_mem
    · rw [keys_members]
      exact hk
    · rw [← hkey]
      exact List.mem_map_of_mem hmem

theorem members_hashDelete (hk : t.keys.Nodup) {hd : HashHandle ι} (hmem : hd ∈ t.items) :
    (t.hashDelete hd).members = Ordered.unset t.members hd.key := by
  obtain ⟨l₁, l₂, hsplit⟩ := List.append_of_mem hmem
  rw [keys, hsplit, List.map_append, List.map_cons] at hk
  have hnot : hd.key ∉ l₁.map HashHandle.key := fun h =>
    (List.nodup_append.mp hk).2.2 _ h _ (List.mem_cons_self ..) rfl
  have hhd : hd ∉ l₁ := fun h => hnot (List.mem_map_of_mem h)
  rw [members, members, items_hashDelete, hsplit, List.erase_append_right _ hhd,
    List.erase_cons_head, List.map_append, List.map_append, List.map_cons,
    Ordered.unset_append_cons]
  rw [Ordered.keys, List.map_map]
  exact hnot

/-- The hash `t` is the dictionary `d`. -/
structure IsDict (t : Uthash ι) (d : Members ι) : Prop where
  members : t.members = d
  nodup : t.keys.Nodup
  fit : t.KeysFit

namespace IsDict
variable {d : Members ι}

omit [DecidableEq ι] in
theorem start : (hashNull : Uthash ι).IsDict [] :=
  ⟨rfl, List.nodup_nil, fun _ hk => absurd hk List.not_mem_nil⟩

theorem add (h : t.IsDict d) {key : Bytes} (hnew : key ∉ Ordered.keys d) (hfits : Fits key)
    (elt : ι) : (t.hashAddKeyptr key elt).IsDict (d ++ [(key, elt)]) := by
  obtain ⟨rfl, hk, hfit⟩ := h
  rw [keys_members] at hnew
  refine ⟨members_hashAddKeyptr t key elt, ?_, ?_⟩
  · rw [keys_hashAddKeyptr]
    refine List.nodup_append.mpr ⟨hk, List.nodup_singleton _, ?_⟩
    intro x hx y hy
    rw [List.mem_singleton.mp hy]
    rintro rfl
    exact hnew hx
  · exact hfit.hashAddKeyptr hfits elt

theorem delete (h : t.IsDict d) {hd : HashHandle ι} (hmem : hd ∈ t.items) :
    (t.hashDelete hd).IsDict (Ordered.unset d hd.key) := by
  obtain ⟨rfl, hk, hfit⟩ := h
  exact ⟨members_hashDelete hk hmem, hk.sublist (keys_hashDelete_sublist t hd),
    hfit.hashDelete hd⟩

theorem step (h : t.IsDict d) {op : HashOp ι} (ha : d.Allows op) :
    (t.step op).2 = (d.step op).2 ∧ (t.step op).1.IsDict (d.step op).1 := by
  have hget : ∀ key, Ordered.get d key = (t.hashFind key).map HashHandle.elt := by
    obtain ⟨rfl, hk, hfit⟩ := h
    exact get_members hfit hk
  cases op with
  | add key elt => exact ⟨rfl, h.add ha.1 ha.2 elt⟩
  | find key =>
    refine ⟨?_, h⟩
    rw [Members.step, hget]
    rfl
  | set key elt =>
    simp only [Uthash.step, Members.step, hget]
    cases hfind : t.hashFind key with
    | some found => exact ⟨rfl, h⟩
    | none =>
      refine ⟨rfl, h.add ?_ ha elt⟩
      apply Ordered.get_eq_none_iff.mp
      rw [hget, hfind]
      rfl
  | unset key =>
    simp only [Uthash.step, Members.step, hget]
    cases hfind : t.hashFind key with
    | some found =>
      obtain ⟨hmem, rfl⟩ := hashFind_some h.fit hfind
      exact ⟨rfl, h.delete hmem⟩
    | none =>
      refine ⟨rfl, ?_⟩
      rw [Ordered.unset_of_not_mem]
      · exact h
      · apply Ordered.get_eq_none_iff.mp
        rw [hget, hfind]
        rfl
  | pop =>
    simp only [Uthash.step, Members.step]
    cases hitems : t.items with
    | cons cur rest =>
      have hmem : cur ∈ t.items := hitems ▸ List.mem_cons_self ..
      have hd : d = (cur.key, cur.elt) :: rest.map fun hd => (hd.key, hd.elt) := by
        rw [← h.members, Uthash.members, hitems, List.map_cons]
      have hdel := h.delete hmem
      rw [hd] at hdel ⊢
      refine ⟨rfl, ?_⟩
      rwa [Ordered.unset, if_pos rfl] at hdel
    | nil =>
      have hd : d = [] := by
        rw [← h.members, Uthash.members, hitems, List.map_nil]
      rw [hd] at h ⊢
      exact ⟨rfl, h⟩
  | each =>
    refine ⟨?_, h⟩
    rw [Members.step, ← h.members, elts_members]
    rfl

theorem run (h : t.IsDict d) {ops : List (HashOp ι)} (hv : d.Valid ops) :
    (t.run ops).2 = (d.run ops).2 ∧ (t.run ops).1.IsDict (d.run ops).1 := by
  induction ops generalizing t d with
  | nil => exact ⟨rfl, h⟩
  | cons op ops ih =>
    obtain ⟨hout, hstep⟩ := h.step hv.1
    obtain ⟨houts, hrun⟩ := ih hstep hv.2
    refine ⟨?_, hrun⟩
    rw [Uthash.run, Members.run, hout, houts]

end IsDict
end Uthash

/-! ### Whole runs -/

section
variable [HashFcn]

/-- Whatever is added, found and deleted, keys that are there already included, the links
answer as the lists do, and no check of `HASH_FSCK` fails. The table and the
handles may hold anything when `key_values` is `NULL`. -/
theorem uthash_refines (tbl : TableLinks ι) (hh : ι → HandleLinks ι) {ops : List (HashOp ι)}
    (hv : (hashNull : Uthash ι).Valid ops) :
    ∃ s, HashLinks.run ⟨none, tbl, hh⟩ ops = some (s, (hashNull.run ops).2) ∧
      Represents s (hashNull.run ops).1 :=
  (Represents.null tbl hh).run hv

/-- As long as keys that fit are added and none that is there, the links answer as a
dictionary that knows nothing of hash values, buckets and their expansion. -/
theorem links_are_dictionary (tbl : TableLinks ι) (hh : ι → HandleLinks ι)
    {ops : List (HashOp ι)} (ht : (hashNull : Uthash ι).Valid ops) (hv : Members.Valid [] ops) :
    ∃ s, HashLinks.run ⟨none, tbl, hh⟩ ops = some (s, (Members.run [] ops).2) ∧
      s.each = (Members.run [] ops).1.map Prod.snd ∧
      ∀ key, s.find key = some (Ordered.get (Members.run [] ops).1 key) := by
  obtain ⟨hout, hdict⟩ := Uthash.IsDict.start.run hv
  obtain ⟨s, hrun, hrep⟩ := (Represents.null tbl hh).run ht
  refine ⟨s, ?_, ?_, fun key => ?_⟩
  · rw [hrun, hout]
  · rw [hrep.each, ← hdict.members, Uthash.elts_members]
  · rw [hrep.find, ← hdict.members, Uthash.get_members hdict.fit hdict.nodup]

end

/-! ### The maps of the heap -/

section
variable [HashFcn] {h : Heap} {m : ℕ} {t : Uthash ℕ}

theorem ptMapGet_step (hm : h.cell m = some (.map t)) (key : Bytes) :
    ptMapGet h (some m) (some key) = (t.step (.find (cstr key))).2.head?.bind (kvValue h) := by
  simp only [ptMapGet, asMap_eq_some.mpr ⟨rfl, hm⟩, Uthash.step]
  cases t.hashFind (cstr key) <;> rfl

/-- `pt_map_set` frees the value of the element that is found, or adds a new one. -/
theorem ptMapSet_step (hm : h.cell m = some (.map t)) (key : Bytes) (v : ℕ) :
    ptMapSet h (some m) (some key) (some v) =
      match (t.step (.set (cstr key) h.next)).2 with
      | found :: _ => (ptFreeNode h (kvValue h found)).modify found (Node.setValue (some v))
      | [] => (h.alloc (.keyValue (cstr key) (some v))).modify m
          (Node.setKeyValues (t.step (.set (cstr key) h.next)).1) := by
  simp only [ptMapSet, asMap_eq_some.mpr ⟨rfl, hm⟩, Uthash.step]
  cases t.hashFind (cstr key) <;> rfl

theorem ptMapUnset_step (hm : h.cell m = some (.map t)) (key : Bytes) :
    ptMapUnset h (some m) key =
      match (t.step (.unset (cstr key))).2 with
      | found :: _ =>
        let h := h.modify m (Node.setKeyValues (t.step (.unset (cstr key))).1)
        (ptFreeNode h (kvValue h found)).free found
      | [] => h := by
  simp only [ptMapUnset, asMap_eq_some.mpr ⟨rfl, hm⟩, Uthash.step]
  cases t.hashFind (cstr key) <;> rfl

/-- The loop of `free_map_node` meets the elements in application order. -/
theorem Uthash.run_pops (t : Uthash ℕ) :
    (t.run (List.replicate t.items.length .pop)).2 = (elts t.items).map fun e => [e] := by
  generalize hn : t.items.length = n
  induction n generalizing t with
  | zero =>
    rw [List.length_eq_zero_iff.mp hn]
    rfl
  | succ n ih =>
    obtain ⟨cur, rest, hitems⟩ := List.exists_cons_of_length_eq_add_one hn
    have hrest : (t.hashDelete cur).items = rest := by
      rw [items_hashDelete, hitems, List.erase_cons_head]
    have hlen : (t.hashDelete cur).items.length = n := by
      rw [hrest]
      rw [hitems, List.length_cons] at hn
      omega
    rw [List.replicate_succ, run]
    simp only [step, hitems, ih _ hlen, hrest, elts, List.map_cons]

end

section
local instance linksFcn : HashFcn := hashMurFcn

def someLinks : HashLinks ℕ :=
  ⟨none, HashLinks.makeTable 0, fun _ => ⟨none, none, none, none, [], 0⟩⟩

/-- Two elements of one key. -/
theorem uthash_refines_twice :
    ∃ s, someLinks.run [.add [107] 1, .add [107] 2, .find [107], .each, .unset [107], .find [107],
      .pop, .each] = some (s, [[], [], [2], [1, 2], [2], [1], [1], []]) := by
  obtain ⟨s, hrun, -⟩ := uthash_refines someLinks.tbl someLinks.hh
    (show (hashNull : Uthash ℕ).Valid [.add [107] 1, .add [107] 2, .find [107], .each,
      .unset [107], .find [107], .pop, .each] by decide)
  exact ⟨s, hrun⟩

theorem links_are_dictionary_reused :
    ∃ s, someLinks.run [.set [107] 1, .set [108] 2, .set [107] 3, .unset [107], .set [107] 1,
      .each] = some (s, [[], [], [1], [1], [], [2, 1]]) := by
  obtain ⟨s, hrun, -, -⟩ := links_are_dictionary someLinks.tbl someLinks.hh
    (show (hashNull : Uthash ℕ).Valid [.set [107] 1, .set [108] 2, .set [107] 3, .unset [107],
      .set [107] 1, .each] by decide)
    (show Members.Valid [] [.set [107] 1, .set [108] 2, .set [107] 3, .unset [107], .set [107] 1,
      .each] by decide)
  exact ⟨s, hrun⟩

end
end Pillowtalk
