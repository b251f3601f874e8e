import Pillowtalk.Located
import Pillowtalk.Clone

/-!
# The editors on located trees

Each editor changes the cells of the container it is given and no others, and
what the container holds afterwards is the dictionary operation of the same
name on its members.
-/

namespace Pillowtalk
open Addressed

namespace Located

/-! ### One member of a map -/

/-- The nodes of a map other than those of one member's value. -/
def around (a : ℕ) (pre : Members) (handle : HashHandle ℕ) (post : Members) : List ℕ :=
  a :: handle.elt :: addrsMembers (pre ++ post)

theorem addrs_perm_around (a : ℕ) (pre : Members) (handle : HashHandle ℕ) (u : Located)
    (post : Members) : (Located.map a (pre ++ (handle, u) :: post)).addrs.Perm
      (u.addrs ++ around a pre handle post) := by
  rw [List.perm_iff_count]
  intro x
  simp only [addrs, around, addrsMembers_append, addrsMembers, List.count_cons,
    List.count_append]
  omega

theorem mem_around {a : ℕ} {pre post : Members} {handle : HashHandle ℕ}
    {m : HashHandle ℕ × Located} (hm : m ∈ pre ++ post) {x : ℕ}
    (hx : x = m.1.elt ∨ x ∈ m.2.addrs) : x ∈ around a pre handle post :=
  List.mem_cons_of_mem _ (List.mem_cons_of_mem _ (mem_addrsMembers hm hx))

/-- The cells of one member's value are not around it, and the other members use
neither its handle nor the map node. -/
theorem apart_of_nodup {a : ℕ} {pre post : Members} {handle : HashHandle ℕ} {w : Located}
    (hnd : (Located.map a (pre ++ (handle, w) :: post)).addrs.Nodup) :
    (∀ x ∈ around a pre handle post, x ∉ w.addrs) ∧ a ≠ handle.elt ∧
      ∀ m ∈ pre ++ post, ∀ x, x = m.1.elt ∨ x ∈ m.2.addrs → x ≠ handle.elt ∧ x ≠ a := by
  rw [(addrs_perm_around a pre handle w post).nodup_iff] at hnd
  obtain ⟨-, hrest, hdis⟩ := List.nodup_append.mp hnd
  obtain ⟨ha, hrest⟩ := List.nodup_cons.mp hrest
  obtain ⟨he, -⟩ := List.nodup_cons.mp hrest
  refine ⟨fun x hx hxw => hdis x hxw x hx rfl, fun hae => ha (hae ▸ List.mem_cons_self ..), ?_⟩
  intro m hm x hx
  have hin := mem_addrsMembers hm hx
  exact ⟨fun hxe => he (hxe ▸ hin), fun hxa => ha (hxa ▸ List.mem_cons_of_mem _ hin)⟩

/-! ### Searching a map -/

/-- The value of a key, `nil` if there is none. -/
def lookup (ms : Members) (k : Bytes) : Located :=
  ((ms.find? fun m => m.1.key = k).map Prod.snd).getD .nil

theorem lookup_of_not_mem {ms : Members} {k : Bytes} (h : k ∉ Ordered.keys (treeMembers ms)) :
    lookup ms k = .nil := by
  have hnone : (ms.find? fun m => m.1.key = k) = none := by
    rw [List.find?_eq_none]
    intro m hm hp
    rw [keys_treeMembers] at h
    exact h (List.mem_map.mpr ⟨m, hm, of_decide_eq_true hp⟩)
  rw [lookup, hnone]
  rfl

theorem lookup_append_cons {pre post : Members} {handle : HashHandle ℕ} {v : Located}
    (h : handle.key ∉ Ordered.keys (treeMembers pre)) :
    lookup (pre ++ (handle, v) :: post) handle.key = v := by
  have hnone : (pre.find? fun m => m.1.key = handle.key) = none := by
    rw [List.find?_eq_none]
    intro m hm hp
    rw [keys_treeMembers] at h
    exact h (List.mem_map.mpr ⟨m, hm, of_decide_eq_true hp⟩)
  rw [lookup, List.find?_append, hnone, Option.none_or, List.find?_cons_of_pos (by simp)]
  rfl

theorem lookup_append_cons_ne {pre post : Members} {handle : HashHandle ℕ} {v : Located}
    {k : Bytes} (h : handle.key ≠ k) :
    lookup (pre ++ (handle, v) :: post) k = lookup (pre ++ post) k := by
  rw [lookup, lookup, List.find?_append, List.find?_append,
    List.find?_cons_of_neg (by simpa using h)]

theorem tree_lookup (ms : Members) (k : Bytes) :
    (lookup ms k).tree = Tree.lookup (treeMembers ms) k := by
  induction ms with
  | nil => rfl
  | cons m ms ih =>
    obtain ⟨hd, v⟩ := m
    simp only [lookup, Tree.lookup, treeMembers, Ordered.get_cons] at ih ⊢
    by_cases hk : hd.key = k
    · rw [List.find?_cons_of_pos (by simpa using hk), if_pos hk]
      rfl
    · rw [List.find?_cons_of_neg (by simpa using hk), if_neg hk, ih]

theorem lookup_eq_nil_or_mem (ms : Members) (k : Bytes) :
    lookup ms k = .nil ∨ ∃ m ∈ ms, m.1.key = k ∧ lookup ms k = m.2 := by
  unfold lookup
  cases hf : ms.find? fun m => m.1.key = k with
  | none => exact Or.inl rfl
  | some m =>
    have hk : m.1.key = k := by simpa using List.find?_some hf
    exact Or.inr ⟨m, List.mem_of_find?_eq_some hf, hk, rfl⟩

/-- The first member with the key. -/
theorem split_of_lookup {ms : Members} {k : Bytes} (h : lookup ms k ≠ .nil) :
    ∃ pre handle v post, ms = pre ++ (handle, v) :: post ∧ handle.key = k ∧
      k ∉ Ordered.keys (treeMembers pre) := by
  cases hf : ms.find? fun m => m.1.key = k with
  | none =>
    rw [lookup, hf] at h
    exact absurd rfl h
  | some m =>
    obtain ⟨hk, pre, post, he, hpre⟩ := List.find?_eq_some_iff_append.mp hf
    refine ⟨pre, m.1, m.2, post, he, of_decide_eq_true hk, fun hm => ?_⟩
    rw [keys_treeMembers] at hm
    obtain ⟨n, hn, hkey⟩ := List.mem_map.mp hm
    have hno := hpre n hn
    simp [hkey] at hno

variable [HashFcn]

/-- `HASH_FIND` on a map with distinct keys that fit: either no member has the key, or
it finds the handle of the one that does. -/
theorem hashFind_cases {kvs : Uthash ℕ} {ms : Members} (hi : kvs.items = ms.map Prod.fst)
    (hd : Tree.Keyed (treeMembers ms)) (k : Bytes) :
    (kvs.hashFind k = none ∧ k ∉ Ordered.keys (treeMembers ms)) ∨
      ∃ pre handle v post, ms = pre ++ (handle, v) :: post ∧ handle.key = k ∧
        kvs.hashFind k = some handle ∧ k ∉ Ordered.keys (treeMembers pre) := by
  have hkeys := keys_of_items hi
  obtain ⟨hnd, hfit⟩ := hd
  rw [Tree.FitKeys] at hfit
  rw [hkeys] at hnd hfit ⊢
  rcases Uthash.hashFind_split hi hfit hnd k with hnone | ⟨pre, handle, v, post, hms, hk, hf, hpre⟩
  · exact Or.inl hnone
  · refine Or.inr ⟨pre, handle, v, post, hms, hk, hf, ?_⟩
    rwa [keys_treeMembers]

theorem asMap_of_in {h : Heap} {a : ℕ} {kvs : Uthash ℕ} (hc : h.cell a = some (.map kvs)) :
    asMap h (some a) = some (a, kvs) := asMap_eq_some.mpr ⟨rfl, hc⟩

theorem ptMapGet_eq {h : Heap} {a : ℕ} {ms : Members} (hl : In h (.map a ms))
    (hd : Tree.Keyed (treeMembers ms)) (k : Bytes) :
    ptMapGet h (some a) (some k) = (lookup ms (cstr k)).ptr := by
  obtain ⟨kvs, hc, hi⟩ := hl.mapCell
  simp only [ptMapGet, asMap_of_in hc]
  rcases hashFind_cases hi hd (cstr k) with ⟨hf, hn⟩ | ⟨pre, handle, v, post, rfl, hk, hf, hn⟩
  · rw [hf, lookup_of_not_mem hn]
    rfl
  · have hmem := hl.member (List.mem_append_right pre (List.mem_cons_self ..))
    rw [hf, ← hk, lookup_append_cons (hk ▸ hn)]
    exact kvValue_of_cell hmem.1

theorem In.lookup {h : Heap} {a : ℕ} {ms : Members} (hl : In h (.map a ms)) (k : Bytes) :
    In h (lookup ms k) := by
  rcases lookup_eq_nil_or_mem ms k with he | ⟨m, hm, -, he⟩
  · rw [he]
    exact .nil
  · rw [he]
    exact (hl.member hm).2

/-! ### What an in-place change may touch -/

/-- From `h` to `h'` the located tree `l` became `l'`: only cells of `l` and new
ones were written, and `l'` has no nodes but those of `l`, of `extra` and new ones. -/
structure Changed (h h' : Heap) (l l' : Located) (extra : List ℕ) : Prop where
  within : In h' l'
  nodup : l'.addrs.Nodup
  addrs : ∀ x ∈ l'.addrs, x ∈ l.addrs ∨ x ∈ extra ∨ h.next ≤ x
  frame : Memory.Keeps (fun x => x < h.next ∧ x ∉ l.addrs) h h'
  le : h.next ≤ h'.next

theorem ptMapSet_absent {h : Heap} {a v : ℕ} {kvs : Uthash ℕ} {ms : Members} {lv : Located}
    (hl : In h (.map a ms)) (hc : h.cell a = some (.map kvs)) (hi : kvs.items = ms.map Prod.fst)
    (hv : In h lv) (hp : lv.ptr = some v) (hnd : ((Located.map a ms).addrs ++ lv.addrs).Nodup)
    (k : Bytes) :
    Changed h ((h.alloc (.keyValue k (some v))).modify a
        (Node.setKeyValues (kvs.hashAddKeyptr k h.next)))
      (.map a ms) (.map a (ms ++ [(⟨h.next, k, HashFcn.hash k⟩, lv)])) lv.addrs := by
  have hnew : h.next ∉ (Located.map a ms).addrs := fun hx => lt_irrefl _ (hl.lt_next hx)
  have hnew' : h.next ∉ lv.addrs := fun hx => lt_irrefl _ (hv.lt_next hx)
  have hcell : ∀ x, x < h.next → x ≠ a → ((h.alloc (.keyValue k (some v))).modify a
      (Node.setKeyValues (kvs.hashAddKeyptr k h.next))).cell x = h.cell x := by
    intro x hlt hxa
    rw [Memory.modify_cell_ne _ _ hxa, Memory.alloc_cell_old _ _ hlt]
  have haddrs : (Located.map a (ms ++ [(⟨h.next, k, HashFcn.hash k⟩, lv)])).addrs =
      (Located.map a ms).addrs ++ h.next :: lv.addrs := by
    simp only [addrs, addrsMembers_append, addrsMembers, List.append_nil, List.cons_append]
  have hself : a ∉ addrsMembers ms ∧ a ∉ lv.addrs := by
    simp only [addrs, List.cons_append, List.nodup_cons, List.mem_append, not_or] at hnd
    exact hnd.1
  have hlt : a < h.next := Memory.lt_next hc
  have hmap : ((h.alloc (.keyValue k (some v))).modify a
      (Node.setKeyValues (kvs.hashAddKeyptr k h.next))).cell a =
        some (.map (kvs.hashAddKeyptr k h.next)) :=
    Memory.modify_cell_self _ ((Memory.alloc_cell_old _ _ hlt).trans hc)
  refine ⟨?_, ?_, ?_, ?_, ?_⟩
  · refine .map hmap ?_ ?_ ?_
    · rw [Uthash.items_hashAddKeyptr, hi, List.map_append]
      rfl
    · intro m hm
      rcases List.mem_append.mp hm with hm | hm
      · have hx := mem_addrsMembers hm (Or.inl rfl)
        have hold := hl.lt_next (List.mem_cons_of_mem _ hx)
        rw [hcell _ hold fun he => hself.1 (he ▸ hx)]
        exact (hl.member hm).1
      · have hne' : h.next ≠ a := by omega
        rw [List.mem_singleton.mp hm, hp]
        exact (Memory.modify_cell_ne _ _ hne').trans (Memory.alloc_cell_next _ _)
    · intro m hm
      rcases List.mem_append.mp hm with hm | hm
      · refine (hl.member hm).2.keeps fun x hx => ?_
        have hxm := mem_addrsMembers hm (Or.inr hx)
        exact hcell x (hl.lt_next (List.mem_cons_of_mem _ hxm)) fun he => hself.1 (he ▸ hxm)
      · rw [List.mem_singleton.mp hm]
        exact hv.keeps fun x hx => hcell x (hv.lt_next hx) fun he => hself.2 (he ▸ hx)
  · rw [haddrs]
    have hparts := List.nodup_append.mp hnd
    refine List.nodup_append.mpr ⟨hparts.1, List.nodup_cons.mpr ⟨hnew', hparts.2.1⟩, ?_⟩
    intro x hx y hy he
    rcases List.mem_cons.mp hy with rfl | hy
    · exact hnew (he ▸ hx)
    · exact hparts.2.2 x hx y hy he
  · intro x hx
    rw [haddrs] at hx
    rcases List.mem_append.mp hx with hx | hx
    · exact Or.inl hx
    · rcases List.mem_cons.mp hx with rfl | hx
      · exact Or.inr (Or.inr (le_refl _))
      · exact Or.inr (Or.inl hx)
  · exact fun x hx => hcell x hx.1 fun he => hx.2 (he ▸ List.mem_cons_self ..)
  · exact Nat.le_succ h.next

/-- The value of one member becomes another tree, and nothing else of the map changes. -/
theorem Changed.member {h h' : Heap} {a : ℕ} {pre post : Members} {handle : HashHandle ℕ}
    {w w' : Located} {extra : List ℕ} (hl : In h (.map a (pre ++ (handle, w) :: post)))
    (hnd : (Located.map a (pre ++ (handle, w) :: post)).addrs.Nodup)
    (hkv : h'.cell handle.elt = some (.keyValue handle.key w'.ptr)) (hw : In h' w')
    (hwn : w'.addrs.Nodup) (hwa : ∀ x ∈ w'.addrs, x ∈ w.addrs ∨ x ∈ extra ∨ h.next ≤ x)
    (hext : ∀ x ∈ extra, x ∉ (Located.map a (pre ++ (handle, w) :: post)).addrs)
    (hold : Memory.Keeps (fun x => x < h.next ∧ x ∉ w.addrs ∧ x ≠ handle.elt) h h')
    (hle : h.next ≤ h'.next) :
    Changed h h' (.map a (pre ++ (handle, w) :: post)) (.map a (pre ++ (handle, w') :: post))
      extra := by
  obtain ⟨kvs, hc, hi⟩ := hl.mapCell
  obtain ⟨hapart, hae, hother⟩ := apart_of_nodup hnd
  have hperm := addrs_perm_around a pre handle w post
  have hperm' := addrs_perm_around a pre handle w' post
  have hin : ∀ x ∈ around a pre handle post,
      x ∈ (Located.map a (pre ++ (handle, w) :: post)).addrs :=
    fun x hx => hperm.mem_iff.mpr (List.mem_append_right _ hx)
  have hlive : ∀ x ∈ around a pre handle post, x < h.next := fun x hx => hl.lt_next (hin x hx)
  have hfresh : ∀ x ∈ w'.addrs, x ∉ around a pre handle post := by
    intro x hx hxr
    rcases hwa x hx with hx | hx | hx
    · exact hapart x hxr hx
    · exact hext x hx (hin x hxr)
    · exact absurd (hlive x hxr) (not_lt.mpr hx)
  -- the other members: live, and not among what changes
  have hmem : ∀ m ∈ pre ++ post, ∀ x, x = m.1.elt ∨ x ∈ m.2.addrs → h'.cell x = h.cell x := by
    intro m hm x hx
    have hxr : x ∈ around a pre handle post := mem_around hm hx
    exact hold x ⟨hlive x hxr, hapart x hxr, (hother m hm x hx).1⟩
  have hself : a ∈ around a pre handle post := List.mem_cons_self ..
  have hmap : h'.cell a = some (.map kvs) := by
    rw [hold a ⟨hlive a hself, hapart a hself, hae⟩, hc]
  have hsub : ∀ m ∈ pre ++ post, m ∈ pre ++ (handle, w) :: post :=
    fun m hm => List.perm_middle.mem_iff.mpr (List.mem_cons_of_mem _ hm)
  refine ⟨.map hmap ?_ ?_ ?_, ?_, ?_, ?_, hle⟩
  · rw [hi, List.map_append, List.map_append]
    rfl
  · intro m hm
    rcases List.mem_cons.mp (List.perm_middle.mem_iff.mp hm) with rfl | hm
    · exact hkv
    · rw [hmem m hm _ (Or.inl rfl)]
      exact (hl.member (hsub m hm)).1
  · intro m hm
    rcases List.mem_cons.mp (List.perm_middle.mem_iff.mp hm) with rfl | hm
    · exact hw
    · exact (hl.member (hsub m hm)).2.keeps fun x hx => hmem m hm x (Or.inr hx)
  · rw [hperm.nodup_iff] at hnd
    rw [hperm'.nodup_iff]
    refine List.nodup_append.mpr ⟨hwn, (List.nodup_append.mp hnd).2.1, ?_⟩
    exact fun x hx y hy he => hfresh x hx (he ▸ hy)
  · intro x hx
    rcases List.mem_append.mp (hperm'.mem_iff.mp hx) with hx | hx
    · rcases hwa x hx with hx | hx
      · exact Or.inl (hperm.mem_iff.mpr (List.mem_append_left _ hx))
      · exact Or.inr hx
    · exact Or.inl (hin x hx)
  · intro x hx
    refine hold x ⟨hx.1, fun hxw => ?_, fun he => ?_⟩
    · exact hx.2 (hperm.mem_iff.mpr (List.mem_append_left _ hxw))
    · exact hx.2 (hin x (he ▸ List.mem_cons_of_mem _ (List.mem_cons_self ..)))

theorem ptMapSet_present {h : Heap} {a v : ℕ} {pre post : Members} {handle : HashHandle ℕ}
    {w lv : Located} (hl : In h (.map a (pre ++ (handle, w) :: post))) (hv : In h lv)
    (hp : lv.ptr = some v)
    (hnd : ((Located.map a (pre ++ (handle, w) :: post)).addrs ++ lv.addrs).Nodup) :
    Changed h ((ptFreeNode h w.ptr).modify handle.elt (Node.setValue (some v)))
      (.map a (pre ++ (handle, w) :: post)) (.map a (pre ++ (handle, lv) :: post)) lv.addrs := by
  obtain ⟨hkv, hw⟩ := hl.member (List.mem_append_right pre (List.mem_cons_self ..))
  obtain ⟨hmap, hlv, hdis⟩ := List.nodup_append.mp hnd
  have hwmem : ∀ x ∈ w.addrs, x ∈ (Located.map a (pre ++ (handle, w) :: post)).addrs := by
    intro x hx
    exact List.mem_cons_of_mem _ (mem_addrsMembers
      (List.mem_append_right pre (List.mem_cons_self ..)) (Or.inr hx))
  have hemem : handle.elt ∈ (Located.map a (pre ++ (handle, w) :: post)).addrs :=
    List.mem_cons_of_mem _ (mem_addrsMembers
      (List.mem_append_right pre (List.mem_cons_self ..)) (Or.inl rfl))
  have hew : handle.elt ∉ w.addrs :=
    (apart_of_nodup hmap).1 _ (List.mem_cons_of_mem _ (List.mem_cons_self ..))
  have hold : Memory.Keeps (fun x => x < h.next ∧ x ∉ w.addrs ∧ x ≠ handle.elt) h
      ((ptFreeNode h w.ptr).modify handle.elt (Node.setValue (some v))) := by
    intro x hx
    rw [Memory.modify_cell_ne _ _ hx.2.2, ptFreeNode_keeps hw x hx.2.1]
  refine Changed.member hl hmap ?_ ?_ hlv (fun x hx => Or.inr (Or.inl hx))
    (fun x hx hx' => hdis x hx' x hx rfl) hold ?_
  · rw [hp]
    exact Memory.modify_cell_self _ ((ptFreeNode_keeps hw _ hew).trans hkv)
  · exact hv.keeps fun x hx => hold x ⟨hv.lt_next hx, fun hxw => hdis x (hwmem x hxw) x hx rfl,
      fun he => hdis _ hemem x hx he.symm⟩
  · rw [Memory.modify_next, (ptFreeNode_shrunk h w.ptr).1]

theorem ptMapSet_changed {h : Heap} {a : ℕ} {ms : Members} {lv : Located}
    (hl : In h (.map a ms)) (hv : In h lv) (hne : lv ≠ .nil)
    (hnd : ((Located.map a ms).addrs ++ lv.addrs).Nodup)
    (hd : Tree.Keyed (treeMembers ms)) (k : Bytes) :
    ∃ ms', Changed h (ptMapSet h (some a) (some k) lv.ptr) (.map a ms) (.map a ms') lv.addrs ∧
      treeMembers ms' = Ordered.set (treeMembers ms) (cstr k) lv.tree := by
  obtain ⟨kvs, hc, hi⟩ := hl.mapCell
  obtain ⟨v, hp⟩ : ∃ v, lv.ptr = some v :=
    Option.ne_none_iff_exists'.mp fun hnone => hne (ptr_eq_none.mp hnone)
  simp only [ptMapSet, asMap_of_in hc, hp]
  rcases hashFind_cases hi hd (cstr k) with ⟨hf, hn⟩ | ⟨pre, handle, w, post, rfl, hk, hf, hn⟩
  · rw [hf]
    refine ⟨_, ptMapSet_absent hl hc hi hv hp hnd (cstr k), ?_⟩
    rw [Ordered.set_of_not_mem _ hn, treeMembers_append]
    rfl
  · obtain ⟨hkv, -⟩ := hl.member (List.mem_append_right pre (List.mem_cons_self ..))
    simp only [hf, kvValue_of_cell hkv]
    refine ⟨_, ptMapSet_present hl hv hp hnd, ?_⟩
    rw [treeMembers_append, treeMembers_append, treeMembers, treeMembers, ← hk,
      Ordered.set_append_cons _ _ _ (hk ▸ hn)]

/-! ### Removing a member -/

/-- `pt_map_unset`: one member goes, and no other node of the map does. -/
theorem ptMapUnset_spec {h : Heap} {a : ℕ} {ms : Members} (hl : In h (.map a ms))
    (hnd : (Located.map a ms).addrs.Nodup) (hd : Tree.Keyed (treeMembers ms))
    (k : Bytes) :
    ∃ ms', In (ptMapUnset h (some a) k) (.map a ms') ∧
      treeMembers ms' = Ordered.unset (treeMembers ms) (cstr k) ∧
      (∀ k', cstr k ≠ k' → lookup ms' k' = lookup ms k') ∧
      Memory.Keeps (· ∉ (Located.map a ms).addrs) h (ptMapUnset h (some a) k) := by
  obtain ⟨kvs, hc, hi⟩ := hl.mapCell
  simp only [ptMapUnset, asMap_of_in hc]
  rcases hashFind_cases hi hd (cstr k) with ⟨hf, hn⟩ | ⟨pre, handle, w, post, rfl, hk, hf, hn⟩
  · rw [hf]
    refine ⟨ms, hl, ?_, fun _ _ => rfl, Memory.Keeps.refl _ _⟩
    rw [Ordered.unset_of_not_mem hn]
  · simp only [hf]
    obtain ⟨hkv, hw⟩ := hl.member (List.mem_append_right pre (List.mem_cons_self ..))
    obtain ⟨hapart, hae, hother⟩ := apart_of_nodup hnd
    have haw : a ∉ w.addrs := hapart a (List.mem_cons_self ..)
    have hwin : In (h.modify a (Node.setKeyValues (kvs.hashDelete handle))) w := hw.modify haw _
    have hkv' : (h.modify a (Node.setKeyValues (kvs.hashDelete handle))).cell handle.elt =
        some (.keyValue handle.key w.ptr) :=
      (Memory.modify_cell_ne _ _ fun he => hae he.symm).trans hkv
    simp only [kvValue_of_cell hkv']
    have hold : Memory.Keeps (fun x => x ∉ w.addrs ∧ x ≠ handle.elt ∧ x ≠ a) h
        ((ptFreeNode (h.modify a (Node.setKeyValues (kvs.hashDelete handle))) w.ptr).free
          handle.elt) := by
      intro x hx
      rw [Memory.free_cell_ne _ hx.2.1, ptFreeNode_keeps hwin x hx.1,
        Memory.modify_cell_ne _ _ hx.2.2]
    have hmem : ∀ m ∈ pre ++ post, ∀ x, x = m.1.elt ∨ x ∈ m.2.addrs →
        x ∉ w.addrs ∧ x ≠ handle.elt ∧ x ≠ a :=
      fun m hm x hx => ⟨hapart x (mem_around hm hx), hother m hm x hx⟩
    have hsub : ∀ m ∈ pre ++ post, m ∈ pre ++ (handle, w) :: post :=
      fun m hm => List.perm_middle.mem_iff.mpr (List.mem_cons_of_mem _ hm)
    have hnot : handle ∉ pre.map Prod.fst := by
      intro hm
      obtain ⟨m, hpm, hfst⟩ := List.mem_map.mp hm
      rw [keys_treeMembers] at hn
      exact hn (List.mem_map.mpr ⟨m, hpm, (congrArg HashHandle.key hfst).trans hk⟩)
    have hmap : ((ptFreeNode (h.modify a (Node.setKeyValues (kvs.hashDelete handle))) w.ptr).free
        handle.elt).cell a = some (.map (kvs.hashDelete handle)) := by
      rw [Memory.free_cell_ne _ hae, ptFreeNode_keeps hwin a haw, Memory.modify_cell_self _ hc]
      rfl
    refine ⟨pre ++ post, .map hmap ?_ ?_ ?_, ?_, ?_, ?_⟩
    · rw [Uthash.items_hashDelete, hi, List.map_append, List.map_append, List.map_cons,
        List.erase_append_right _ hnot, List.erase_cons_head]
    · intro m hm
      rw [hold _ (hmem m hm _ (Or.inl rfl))]
      exact (hl.member (hsub m hm)).1
    · intro m hm
      exact (hl.member (hsub m hm)).2.keeps fun x hx => hold x (hmem m hm x (Or.inr hx))
    · rw [treeMembers_append, treeMembers_append, treeMembers, ← hk,
        Ordered.unset_append_cons _ _ (hk ▸ hn)]
    · intro k' hne
      exact (lookup_append_cons_ne (hk ▸ hne)).symm
    · refine hold.mono fun x hx => ?_
      simp only [addrs, addrsMembers_append, addrsMembers, List.mem_cons, List.mem_append,
        not_or] at hx
      exact ⟨hx.2.2.2.1, hx.2.2.1, hx.1⟩

/-! ### Appending to an array -/

theorem ptArrayPushBack_in {h : Heap} {a : ℕ} {len : UInt32} {es : List Located} {e : Located}
    (hl : In h (.array a len es)) (he : In h e) (ha : a ∉ addrsElems es) (hae : a ∉ e.addrs) :
    In (ptArrayPushBack h (some a) e.ptr) (.array a (len + 1) (es ++ [e])) ∧
      Memory.Keeps (· ≠ a) h (ptArrayPushBack h (some a) e.ptr) ∧
      (ptArrayPushBack h (some a) e.ptr).next = h.next := by
  have hc := hl.arrayCell
  have hpush : ptArrayPushBack h (some a) e.ptr =
      h.modify a (Node.setArray (es.map ptr ++ [e.ptr]) (len + 1)) := by
    simp only [ptArrayPushBack, asArray_eq_some.mpr ⟨rfl, hc⟩]
  rw [hpush]
  refine ⟨.array ?_ ?_, Memory.keeps_modify _ _ _, rfl⟩
  · rw [Memory.modify_cell_self _ hc, List.map_append]
    rfl
  · intro x hx
    rcases List.mem_append.mp hx with hx | hx
    · exact (hl.elem hx).modify (fun hax => ha (mem_addrsElems hx hax)) _
    · rw [List.mem_singleton.mp hx]
      exact he.modify hae _

end Located
end Pillowtalk
