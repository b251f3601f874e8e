import Pillowtalk.CloneSpec
import Pillowtalk.Library.Regions
import Pillowtalk.Release

/-!
# The footprint of an edit

`Yields` says of an edit which cells it takes over and that they, together with
the cells it allocates, are the tree that comes out of it: nothing else changes,
and nothing is left behind. What a key or an index replaces inside a larger tree
yields the larger tree.
-/

namespace Pillowtalk
open Addressed

namespace Located
variable [HashFcn]

/-- From `h` to `h'` the cells `as` and new ones became the tree `l`. -/
structure Yields (h h' : Heap) (as : List ℕ) (l : Located) : Prop where
  within : In h' l
  nodup : l.addrs.Nodup
  swaps : Memory.Swaps h h' as l.addrs

namespace Yields
variable {h h₁ h₂ h' : Heap} {as : List ℕ} {l l' v : Located}

theorem refl (hl : In h l) (hnd : l.addrs.Nodup) : Yields h h l.addrs l :=
  ⟨hl, hnd, Memory.Swaps.refl h l.addrs⟩

theorem trans (hy : Yields h h₁ as l) (hy' : Yields h₁ h₂ l.addrs l') : Yields h h₂ as l' :=
  ⟨hy'.within, hy'.nodup, hy.swaps.trans hy'.swaps⟩

theorem new {n : Node} (hl : In (h.alloc n) l) (ha : l.addrs = [h.next]) :
    Yields h (h.alloc n) [] l := by
  constructor
  · exact hl
  · rw [ha]
    exact List.nodup_singleton _
  · rw [ha]
    exact Memory.Swaps.alloc h n

/-- A tree apart from what changes is still there. -/
theorem still (hy : Yields h h' as l) (hv : In h v) (hd : ∀ x ∈ as, x ∉ v.addrs) : In h' v :=
  hv.keeps fun x hx => hy.swaps.frame x ⟨hv.lt_next hx, fun hxa => hd x hxa hx⟩

theorem apart (hy : Yields h h' as l) (hv : In h v) (hd : ∀ x ∈ as, x ∉ v.addrs) :
    ∀ x ∈ l.addrs, x ∉ v.addrs :=
  hy.swaps.disjoint (fun _ hx => hv.lt_next hx) hd

/-- A change that was known before, with its cells accounted for. -/
theorem of_changed {extra : List ℕ} (hc : Changed h h' l l' extra)
    (hs : Memory.Swaps h h' as l'.addrs) : Yields h h' as l' :=
  ⟨hc.within, hc.nodup, hs⟩

end Yields

theorem ptFreeNode_swaps {h : Heap} {l : Located} (hl : In h l) (hnd : l.addrs.Nodup) :
    Memory.Swaps h (ptFreeNode h l.ptr) l.addrs [] := by
  apply Memory.Swaps.of_shrunk (ptFreeNode_shrunk h l.ptr) (ptFreeNode_keeps hl)
  · intro x hx hlive
    rw [ptFreeNode_cell hl hnd, if_pos hx] at hlive
    exact absurd rfl hlive
  · exact fun x hx => absurd hx List.not_mem_nil

/-! ### Maps -/

/-- The node of a key takes over another value. -/
theorem setValue_yields {h : Heap} {a v : ℕ} {pre post : Members} {handle : HashHandle ℕ}
    {w lv : Located} (hl : In h (.map a (pre ++ (handle, w) :: post))) (hv : In h lv)
    (hp : lv.ptr = some v)
    (hnd : ((Located.map a (pre ++ (handle, w) :: post)).addrs ++ lv.addrs).Nodup) :
    Yields h ((ptFreeNode h w.ptr).modify handle.elt (Node.setValue (some v)))
      ((Located.map a (pre ++ (handle, w) :: post)).addrs ++ lv.addrs)
      (.map a (pre ++ (handle, lv) :: post)) := by
  obtain ⟨-, hw⟩ := hl.member (List.mem_append_right pre (List.mem_cons_self ..))
  apply Yields.of_changed (ptMapSet_present hl hv hp hnd)
  have hperm := addrs_perm_around a pre handle w post
  have hperm' := addrs_perm_around a pre handle lv post
  have hwn : w.addrs.Nodup :=
    (List.nodup_append.mp (hperm.nodup_iff.mp (List.nodup_append.mp hnd).1)).1
  have hfree := (ptFreeNode_swaps hw hwn).beside (around a pre handle post ++ lv.addrs)
  have hself : handle.elt ∈ [] ++ (around a pre handle post ++ lv.addrs) := by simp [around]
  apply (hfree.trans (Memory.Swaps.modify _ _ hself)).congr
  · intro x
    simp only [List.mem_append, hperm.mem_iff]
    tauto
  · intro x
    simp only [List.mem_append, hperm'.mem_iff, List.not_mem_nil]
    tauto

theorem ptMapSet_yields {h : Heap} {a : ℕ} {ms : Members} {lv : Located}
    (hl : In h (.map a ms)) (hv : In h lv) (hne : lv ≠ .nil)
    (hnd : ((Located.map a ms).addrs ++ lv.addrs).Nodup)
    (hd : Tree.Keyed (treeMembers ms)) (k : Bytes) :
    ∃ ms', Yields h (ptMapSet h (some a) (some k) lv.ptr) ((Located.map a ms).addrs ++ lv.addrs)
        (.map a ms') ∧
      treeMembers ms' = Ordered.set (treeMembers ms) (cstr k) lv.tree := by
  obtain ⟨kvs, hc, hi⟩ := hl.mapCell
  obtain ⟨v, hp⟩ : ∃ v, lv.ptr = some v :=
    Option.ne_none_iff_exists'.mp fun hnone => hne (ptr_eq_none.mp hnone)
  simp only [ptMapSet, asMap_of_in hc, hp]
  rcases hashFind_cases hi hd (cstr k) with ⟨hf, hn⟩ | ⟨pre, handle, w, post, rfl, hk, hf, hn⟩
  · rw [hf]
    refine ⟨_, Yields.of_changed (ptMapSet_absent hl hc hi hv hp hnd (cstr k)) ?_, ?_⟩
    · have halloc := (Memory.Swaps.alloc h (.keyValue (cstr k) (some v))).beside
        ((Located.map a ms).addrs ++ lv.addrs)
      have hself : a ∈ [h.next] ++ ((Located.map a ms).addrs ++ lv.addrs) := by simp [addrs]
      apply (halloc.trans (Memory.Swaps.modify _ _ hself)).congr
      · exact fun x => Iff.rfl
      · intro x
        simp only [addrs, addrsMembers_append, addrsMembers, List.append_nil, List.mem_append,
          List.mem_cons, List.not_mem_nil]
        tauto
    · rw [Ordered.set_of_not_mem _ hn, treeMembers_append]
      rfl
  · obtain ⟨hkv, -⟩ := hl.member (List.mem_append_right pre (List.mem_cons_self ..))
    simp only [hf, kvValue_of_cell hkv]
    refine ⟨_, setValue_yields hl hv hp hnd, ?_⟩
    rw [treeMembers_append, treeMembers_append, treeMembers, treeMembers, ← hk,
      Ordered.set_append_cons _ _ _ (hk ▸ hn)]

/-- Members that are left alone, under a map node that says so. -/
theorem in_map_of_keeps {h h' : Heap} {a : ℕ} {t : Uthash ℕ} {ms : Members}
    (hc : h'.cell a = some (.map t)) (hi : t.items = ms.map Prod.fst)
    (hm : ∀ m ∈ ms, h.cell m.1.elt = some (.keyValue m.1.key m.2.ptr) ∧ In h m.2)
    (hk : Memory.Keeps (· ∈ addrsMembers ms) h h') : In h' (.map a ms) := by
  apply In.map hc hi
  · intro m hmem
    rw [hk _ (mem_addrsMembers hmem (Or.inl rfl))]
    exact (hm m hmem).1
  · exact fun m hmem => (hm m hmem).2.keeps fun x hx => hk x (mem_addrsMembers hmem (Or.inr hx))

theorem ptMapUnset_yields {h : Heap} {a : ℕ} {ms : Members} (hl : In h (.map a ms))
    (hnd : (Located.map a ms).addrs.Nodup) (hd : Tree.Keyed (treeMembers ms))
    (k : Bytes) :
    ∃ ms', Yields h (ptMapUnset h (some a) k) (Located.map a ms).addrs (.map a ms') ∧
      treeMembers ms' = Ordered.unset (treeMembers ms) (cstr k) := by
  obtain ⟨kvs, hc, hi⟩ := hl.mapCell
  simp only [ptMapUnset, asMap_of_in hc]
  rcases hashFind_cases hi hd (cstr k) with ⟨hf, hn⟩ | ⟨pre, handle, w, post, rfl, hk, hf, hn⟩
  · rw [hf, Ordered.unset_of_not_mem hn]
    exact ⟨ms, Yields.refl hl hnd, rfl⟩
  · obtain ⟨hkv, hw⟩ := hl.member (List.mem_append_right pre (List.mem_cons_self ..))
    obtain ⟨hapart, hae, hother⟩ := apart_of_nodup hnd
    have hperm := addrs_perm_around a pre handle w post
    have hparts := hperm.nodup_iff.mp hnd
    obtain ⟨hwn, haround, -⟩ := List.nodup_append.mp hparts
    have hrest : (a :: addrsMembers (pre ++ post)).Nodup := by
      simp only [around, List.nodup_cons, List.mem_cons, not_or] at haround
      exact List.nodup_cons.mpr ⟨haround.1.2, haround.2.2⟩
    have haw : a ∉ w.addrs := hapart a (List.mem_cons_self ..)
    have hwin : In (h.modify a (Node.setKeyValues (kvs.hashDelete handle))) w := hw.modify haw _
    have hkv' : (h.modify a (Node.setKeyValues (kvs.hashDelete handle))).cell handle.elt =
        some (.keyValue handle.key w.ptr) :=
      (Memory.modify_cell_ne _ _ fun he => hae he.symm).trans hkv
    simp only [hf, kvValue_of_cell hkv']
    have hnot : handle ∉ pre.map Prod.fst := by
      intro hm
      obtain ⟨m, hpm, hfst⟩ := List.mem_map.mp hm
      rw [keys_treeMembers] at hn
      exact hn (List.mem_map.mpr ⟨m, hpm, (congrArg HashHandle.key hfst).trans hk⟩)
    refine ⟨pre ++ post, ⟨?_, hrest, ?_⟩, ?_⟩
    · have hsub : ∀ m ∈ pre ++ post, m ∈ pre ++ (handle, w) :: post :=
        fun m hm => List.perm_middle.mem_iff.mpr (List.mem_cons_of_mem _ hm)
      apply in_map_of_keeps (h := h) (t := kvs.hashDelete handle)
      · rw [Memory.free_cell_ne _ hae, ptFreeNode_keeps hwin a haw, Memory.modify_cell_self _ hc]
        rfl
      · rw [Uthash.items_hashDelete, hi, List.map_append, List.map_append, List.map_cons,
          List.erase_append_right _ hnot, List.erase_cons_head]
      · exact fun m hm => hl.member (hsub m hm)
      · intro x hx
        obtain ⟨m, hm, hxm⟩ := exists_of_mem_addrsMembers hx
        obtain ⟨hxe, hxa⟩ := hother m hm x hxm
        rw [Memory.free_cell_ne _ hxe, ptFreeNode_keeps hwin x (hapart x (mem_around hm hxm)),
          Memory.modify_cell_ne _ _ hxa]
    · have hself : a ∈ (Located.map a (pre ++ (handle, w) :: post)).addrs := List.mem_cons_self ..
      have hset := Memory.Swaps.modify h (Node.setKeyValues (kvs.hashDelete handle)) hself
      have hvalue := (ptFreeNode_swaps hwin hwn).beside (around a pre handle post)
      have hmember := (Memory.Swaps.free
        (ptFreeNode (h.modify a (Node.setKeyValues (kvs.hashDelete handle))) w.ptr)
        handle.elt).beside (a :: addrsMembers (pre ++ post))
      have hset' := hset.congr (fun x => Iff.rfl) fun x => hperm.mem_iff
      have hsame : ∀ x, x ∈ [] ++ around a pre handle post ↔
          x ∈ [handle.elt] ++ (a :: addrsMembers (pre ++ post)) := by
        intro x
        simp only [around, List.nil_append, List.mem_append, List.mem_cons, List.not_mem_nil]
        tauto
      exact hset'.trans ((hvalue.congr (fun x => Iff.rfl) hsame).trans hmember)
    · rw [treeMembers_append, treeMembers_append, treeMembers, ← hk,
        Ordered.unset_append_cons _ _ (hk ▸ hn)]

/-! ### Arrays -/

theorem asArray_of_in {h : Heap} {a : ℕ} {len : UInt32} {es : List Located}
    (hl : In h (.array a len es)) : asArray h (some a) = some (a, es.map ptr, len) :=
  asArray_eq_some.mpr ⟨rfl, hl.arrayCell⟩

/-- The array node at `a` is written anew, with elements that are there already. -/
theorem setArray_yields {h : Heap} {a : ℕ} {len len' : UInt32} {es es' : List Located}
    {as : List ℕ} (hl : In h (.array a len es)) (hin : ∀ e ∈ es', In h e)
    (hnd : (a :: addrsElems es').Nodup) (has : ∀ x, x ∈ as ↔ x ∈ a :: addrsElems es') :
    Yields h (h.modify a (Node.setArray (es'.map ptr) len')) as (.array a len' es') := by
  have hself : a ∉ addrsElems es' := (List.nodup_cons.mp hnd).1
  constructor
  · apply In.array (Memory.modify_cell_self _ hl.arrayCell)
    exact fun e he => (hin e he).modify (fun hae => hself (mem_addrsElems he hae)) _
  · exact hnd
  · apply (Memory.Swaps.modify h (Node.setArray (es'.map ptr) len')
      (List.mem_cons_self (a := a) (l := addrsElems es'))).congr
    · exact fun x => (has x).symm
    · exact fun x => Iff.rfl

theorem ptArrayPushBack_yields {h : Heap} {a : ℕ} {len : UInt32} {es : List Located} {e : Located}
    (hl : In h (.array a len es)) (he : In h e)
    (hnd : ((Located.array a len es).addrs ++ e.addrs).Nodup) :
    Yields h (ptArrayPushBack h (some a) e.ptr) ((Located.array a len es).addrs ++ e.addrs)
      (.array a (len + 1) (es ++ [e])) := by
  have haddrs : (Located.array a len es).addrs ++ e.addrs = a :: addrsElems (es ++ [e]) := by
    simp only [addrs, addrsElems_append, addrsElems, List.append_nil, List.cons_append]
  have hpush : ptArrayPushBack h (some a) e.ptr =
      h.modify a (Node.setArray ((es ++ [e]).map ptr) (len + 1)) := by
    simp only [ptArrayPushBack, asArray_of_in hl, List.map_append, List.map_cons, List.map_nil]
  rw [hpush]
  apply setArray_yields hl _ (haddrs ▸ hnd) fun x => by rw [haddrs]
  intro f hf
  rcases List.mem_append.mp hf with hf | hf
  · exact hl.elem hf
  · exact List.mem_singleton.mp hf ▸ he

theorem ptArrayPushFront_yields {h : Heap} {a : ℕ} {len : UInt32} {es : List Located}
    {e : Located} (hl : In h (.array a len es)) (he : In h e)
    (hnd : ((Located.array a len es).addrs ++ e.addrs).Nodup) :
    Yields h (ptArrayPushFront h (some a) e.ptr) ((Located.array a len es).addrs ++ e.addrs)
      (.array a (len + 1) (e :: es)) := by
  have hperm : ((Located.array a len es).addrs ++ e.addrs).Perm (a :: addrsElems (e :: es)) := by
    simp only [addrs, addrsElems, List.cons_append]
    exact List.perm_append_comm.cons a
  have hpush : ptArrayPushFront h (some a) e.ptr =
      h.modify a (Node.setArray ((e :: es).map ptr) (len + 1)) := by
    simp only [ptArrayPushFront, asArray_of_in hl, List.map_cons]
  rw [hpush]
  apply setArray_yields hl _ (hperm.nodup_iff.mp hnd) fun x => hperm.mem_iff
  intro f hf
  rcases List.mem_cons.mp hf with rfl | hf
  · exact he
  · exact hl.elem hf

/-- `pt_array_remove` of an element, the first with its pointer. -/
theorem ptArrayRemove_yields {h : Heap} {a : ℕ} {len : UInt32} {pre post : List Located}
    {e : Located} (hl : In h (.array a len (pre ++ e :: post)))
    (hnd : (Located.array a len (pre ++ e :: post)).addrs.Nodup) (hfirst : e.ptr ∉ pre.map ptr) :
    Yields h (ptArrayRemove h (some a) e.ptr) (Located.array a len (pre ++ e :: post)).addrs
      (.array a (len - 1) (pre ++ post)) := by
  have hmem : e.ptr ∈ (pre ++ e :: post).map ptr :=
    List.mem_map.mpr ⟨e, List.mem_append_right _ (List.mem_cons_self ..), rfl⟩
  have hrem : ptArrayRemove h (some a) e.ptr =
      ptFreeNode (h.modify a (Node.setArray ((pre ++ post).map ptr) (len - 1))) e.ptr := by
    simp only [ptArrayRemove, asArray_of_in hl, if_pos hmem]
    rw [List.map_append, List.map_cons, List.erase_append_right _ hfirst, List.erase_cons_head,
      ← List.map_append]
  have hperm : (Located.array a len (pre ++ e :: post)).addrs.Perm
      (e.addrs ++ (Located.array a (len - 1) (pre ++ post)).addrs) := by
    rw [List.perm_iff_count]
    intro x
    simp only [addrs, addrsElems_append, addrsElems, List.count_cons, List.count_append]
    omega
  obtain ⟨hen, hrest, hdis⟩ := List.nodup_append.mp (hperm.nodup_iff.mp hnd)
  have hself : a ∈ (Located.array a len (pre ++ e :: post)).addrs := List.mem_cons_self ..
  have hae : a ∉ e.addrs := fun hx => hdis a hx a (List.mem_cons_self ..) rfl
  have hin : In (h.modify a (Node.setArray ((pre ++ post).map ptr) (len - 1))) e :=
    (hl.elem (List.mem_append_right _ (List.mem_cons_self ..))).modify hae _
  have hset := Memory.Swaps.modify h (Node.setArray ((pre ++ post).map ptr) (len - 1)) hself
  have hfree := (ptFreeNode_swaps hin hen).beside (Located.array a (len - 1) (pre ++ post)).addrs
  rw [hrem]
  constructor
  · apply In.array
    · rw [ptFreeNode_keeps hin a hae, Memory.modify_cell_self _ hl.arrayCell]
      rfl
    · intro f hf
      have hsub : f ∈ pre ++ e :: post :=
        List.perm_middle.mem_iff.mpr (List.mem_cons_of_mem _ hf)
      apply (hl.elem hsub).keeps
      intro x hx
      have hxr : x ∈ addrsElems (pre ++ post) := mem_addrsElems hf hx
      rw [ptFreeNode_keeps hin x fun hxe => hdis x hxe x (List.mem_cons_of_mem _ hxr) rfl]
      apply Memory.modify_cell_ne
      rintro rfl
      exact (List.nodup_cons.mp hrest).1 hxr
  · exact hrest
  · exact (hset.congr (fun x => Iff.rfl) fun x => hperm.mem_iff).trans hfree

/-! ### Inside a larger tree -/

/-- The value of one member is replaced, and the rest of the map is left alone. -/
theorem Yields.member {h h' : Heap} {a : ℕ} {pre post : Members} {handle : HashHandle ℕ}
    {w w' : Located} {extra : List ℕ} (hl : In h (.map a (pre ++ (handle, w) :: post)))
    (hnd : (Located.map a (pre ++ (handle, w) :: post)).addrs.Nodup)
    (hy : Yields h h' (w.addrs ++ extra) w') (hp : w'.ptr = w.ptr)
    (hext : ∀ x ∈ extra, x ∉ (Located.map a (pre ++ (handle, w) :: post)).addrs) :
    Yields h h' ((Located.map a (pre ++ (handle, w) :: post)).addrs ++ extra)
      (.map a (pre ++ (handle, w') :: post)) := by
  obtain ⟨kvs, hc, hi⟩ := hl.mapCell
  have hperm := addrs_perm_around a pre handle w post
  have hperm' := addrs_perm_around a pre handle w' post
  obtain ⟨-, haround, hdis⟩ := List.nodup_append.mp (hperm.nodup_iff.mp hnd)
  have hlive : ∀ x ∈ around a pre handle post, x < h.next :=
    fun x hx => hl.lt_next (hperm.mem_iff.mpr (List.mem_append_right _ hx))
  have hout : ∀ x ∈ w.addrs ++ extra, x ∉ around a pre handle post := by
    intro x hx hxr
    rcases List.mem_append.mp hx with hxw | hxe
    · exact hdis x hxw x hxr rfl
    · exact hext x hxe (hperm.mem_iff.mpr (List.mem_append_right _ hxr))
  have hkeep : ∀ x ∈ around a pre handle post, h'.cell x = h.cell x :=
    fun x hx => hy.swaps.frame x ⟨hlive x hx, fun hxw => hout x hxw hx⟩
  have hsub : ∀ m ∈ pre ++ post, m ∈ pre ++ (handle, w) :: post :=
    fun m hm => List.perm_middle.mem_iff.mpr (List.mem_cons_of_mem _ hm)
  constructor
  · apply In.map ((hkeep a (List.mem_cons_self ..)).trans hc)
    · rw [hi, List.map_append, List.map_append]
      rfl
    · intro m hm
      rcases List.mem_cons.mp (List.perm_middle.mem_iff.mp hm) with rfl | hm
      · rw [hkeep _ (List.mem_cons_of_mem _ (List.mem_cons_self ..)), hp]
        exact (hl.member (List.mem_append_right pre (List.mem_cons_self ..))).1
      · rw [hkeep _ (mem_around hm (Or.inl rfl))]
        exact (hl.member (hsub m hm)).1
    · intro m hm
      rcases List.mem_cons.mp (List.perm_middle.mem_iff.mp hm) with rfl | hm
      · exact hy.within
      · exact (hl.member (hsub m hm)).2.keeps fun x hx => hkeep x (mem_around hm (Or.inr hx))
  · apply hperm'.nodup_iff.mpr
    apply List.nodup_append.mpr ⟨hy.nodup, haround, _⟩
    intro x hx y hyr he
    exact hy.swaps.disjoint hlive hout x hx (he ▸ hyr)
  · apply (hy.swaps.beside (around a pre handle post)).congr
    · intro x
      simp only [List.mem_append, hperm.mem_iff]
      tauto
    · exact fun x => hperm'.mem_iff.symm

/-- One element of an array is replaced. -/
theorem Yields.elem {h h' : Heap} {a : ℕ} {len : UInt32} {pre post : List Located}
    {w w' : Located} {extra : List ℕ} (hl : In h (.array a len (pre ++ w :: post)))
    (hnd : (Located.array a len (pre ++ w :: post)).addrs.Nodup)
    (hy : Yields h h' (w.addrs ++ extra) w') (hp : w'.ptr = w.ptr)
    (hext : ∀ x ∈ extra, x ∉ (Located.array a len (pre ++ w :: post)).addrs) :
    Yields h h' ((Located.array a len (pre ++ w :: post)).addrs ++ extra)
      (.array a len (pre ++ w' :: post)) := by
  have hperm : ∀ u : Located, (Located.array a len (pre ++ u :: post)).addrs.Perm
      (u.addrs ++ (a :: addrsElems (pre ++ post))) := by
    intro u
    rw [List.perm_iff_count]
    intro x
    simp only [addrs, addrsElems_append, addrsElems, List.count_cons, List.count_append]
    omega
  obtain ⟨-, hrest, hdis⟩ := List.nodup_append.mp ((hperm w).nodup_iff.mp hnd)
  have hlive : ∀ x ∈ a :: addrsElems (pre ++ post), x < h.next :=
    fun x hx => hl.lt_next ((hperm w).mem_iff.mpr (List.mem_append_right _ hx))
  have hout : ∀ x ∈ w.addrs ++ extra, x ∉ a :: addrsElems (pre ++ post) := by
    intro x hx hxr
    rcases List.mem_append.mp hx with hxw | hxe
    · exact hdis x hxw x hxr rfl
    · exact hext x hxe ((hperm w).mem_iff.mpr (List.mem_append_right _ hxr))
  have hkeep : ∀ x ∈ a :: addrsElems (pre ++ post), h'.cell x = h.cell x :=
    fun x hx => hy.swaps.frame x ⟨hlive x hx, fun hxw => hout x hxw hx⟩
  constructor
  · apply In.array
    · rw [hkeep a (List.mem_cons_self ..), hl.arrayCell, List.map_append, List.map_append,
        List.map_cons, List.map_cons, hp]
    · intro e he
      rcases List.mem_cons.mp (List.perm_middle.mem_iff.mp he) with rfl | he
      · exact hy.within
      · have hsub : e ∈ pre ++ w :: post :=
          List.perm_middle.mem_iff.mpr (List.mem_cons_of_mem _ he)
        exact (hl.elem hsub).keeps fun x hx =>
          hkeep x (List.mem_cons_of_mem _ (mem_addrsElems he hx))
  · apply (hperm w').nodup_iff.mpr
    apply List.nodup_append.mpr ⟨hy.nodup, hrest, _⟩
    intro x hx y hyr he
    exact hy.swaps.disjoint hlive hout x hx (he ▸ hyr)
  · apply (hy.swaps.beside (a :: addrsElems (pre ++ post))).congr
    · intro x
      simp only [List.mem_append, (hperm w).mem_iff]
      tauto
    · exact fun x => (hperm w').mem_iff.symm

/-! ### Cloning -/

theorem addMember_yields {h h₁ h₂ : Heap} {t : ℕ} {acc : Members} {lv : Located}
    (hacc : Yields h h₁ [] (.map t acc)) (hv : Yields h₁ h₂ [] lv)
    (hd : Tree.Keyed (treeMembers acc)) {k : Bytes} (hk : Fits k) :
    ∃ acc', Yields h (ptMapSet h₂ (some t) (some k) lv.ptr) [] (.map t acc') ∧
      Tree.Keyed (treeMembers acc') := by
  have hin := hv.still hacc.within fun x hx => absurd hx List.not_mem_nil
  have hapart := hv.apart hacc.within fun x hx => absurd hx List.not_mem_nil
  have hnd : ((Located.map t acc).addrs ++ lv.addrs).Nodup := List.nodup_append.mpr
    ⟨hacc.nodup, hv.nodup, fun x hx y hy he => hapart y hy (he ▸ hx)⟩
  have hboth : Memory.Swaps h h₂ [] ((Located.map t acc).addrs ++ lv.addrs) := by
    apply (hacc.swaps.trans (hv.swaps.beside (Located.map t acc).addrs)).congr
    · exact fun x => Iff.rfl
    · intro x
      rw [List.mem_append, List.mem_append]
      exact or_comm
  by_cases hne : lv = .nil
  · subst hne
    have hnone : ptMapSet h₂ (some t) (some k) (Located.ptr .nil) = h₂ := by
      simp only [ptMapSet, ptr]
      split
      · next heq => cases heq
      · rfl
    rw [hnone]
    simp only [addrs, List.append_nil] at hboth
    exact ⟨acc, ⟨hin, hacc.nodup, hboth⟩, hd⟩
  · obtain ⟨acc', hy, htree⟩ := ptMapSet_yields hin hv.within hne hnd hd k
    refine ⟨acc', ⟨hy.within, hy.nodup, hboth.trans hy.swaps⟩, ?_⟩
    rw [htree]
    exact hd.set (Tree.fits_cstr hk) _

theorem addElem_yields {h h₁ h₂ : Heap} {t : ℕ} {len : UInt32} {acc : List Located}
    {le : Located} (hacc : Yields h h₁ [] (.array t len acc)) (he : Yields h₁ h₂ [] le) :
    Yields h (ptArrayPushBack h₂ (some t) le.ptr) [] (.array t (len + 1) (acc ++ [le])) := by
  have hin := he.still hacc.within fun x hx => absurd hx List.not_mem_nil
  have hapart := he.apart hacc.within fun x hx => absurd hx List.not_mem_nil
  have hnd : ((Located.array t len acc).addrs ++ le.addrs).Nodup := List.nodup_append.mpr
    ⟨hacc.nodup, he.nodup, fun x hx y hy hxy => hapart y hy (hxy ▸ hx)⟩
  have hboth : Memory.Swaps h h₂ [] ((Located.array t len acc).addrs ++ le.addrs) := by
    apply (hacc.swaps.trans (he.swaps.beside (Located.array t len acc).addrs)).congr
    · exact fun x => Iff.rfl
    · intro x
      rw [List.mem_append, List.mem_append]
      exact or_comm
  have hpush := ptArrayPushBack_yields hin he.within hnd
  exact ⟨hpush.within, hpush.nodup, hboth.trans hpush.swaps⟩

/-- `clone` makes a tree of new cells, and leaves none besides. -/
def ClonesAll (clone : Heap → Ptr → Heap × Ptr) (l : Located) : Prop :=
  ∀ h, In h l → ∃ l', Yields h (clone h l.ptr).1 [] l' ∧ (clone h l.ptr).2 = l'.ptr

theorem cloneMembers_yields {clone : Heap → Ptr → Heap × Ptr} {h₀ h : Heap} {t : ℕ}
    (ms : Members) (hk : ∀ m ∈ ms, h₀.cell m.1.elt = some (.keyValue m.1.key m.2.ptr))
    (hm : ∀ m ∈ ms, In h₀ m.2) (hc : ∀ m ∈ ms, ClonesAll clone m.2)
    (hfit : ∀ m ∈ ms, Fits m.1.key) (acc : Members) (hacc : Yields h₀ h [] (.map t acc))
    (hd : Tree.Keyed (treeMembers acc)) :
    ∃ acc', Yields h₀ (cloneMembers clone (some t) h (ms.map Prod.fst)) [] (.map t acc') := by
  induction ms generalizing h acc with
  | nil => exact ⟨acc, hacc⟩
  | cons m ms ih =>
    obtain ⟨handle, v⟩ := m
    have hcell : h.cell handle.elt = some (.keyValue handle.key v.ptr) :=
      hacc.swaps.keeps List.not_mem_nil (hk _ (List.mem_cons_self ..))
    have hin : In h v :=
      hacc.still (hm _ (List.mem_cons_self ..)) fun x hx => absurd hx List.not_mem_nil
    obtain ⟨lv, hv, hptr⟩ := hc _ (List.mem_cons_self ..) h hin
    obtain ⟨acc₁, hacc₁, hd₁⟩ := addMember_yields hacc hv hd (hfit _ (List.mem_cons_self ..))
    simp only [List.map_cons, cloneMembers, hcell, hptr]
    exact ih (fun n hn => hk n (List.mem_cons_of_mem _ hn))
      (fun n hn => hm n (List.mem_cons_of_mem _ hn))
      (fun n hn => hc n (List.mem_cons_of_mem _ hn))
      (fun n hn => hfit n (List.mem_cons_of_mem _ hn)) acc₁ hacc₁ hd₁

theorem cloneElems_yields {clone : Heap → Ptr → Heap × Ptr} {h₀ h : Heap} {t : ℕ}
    {len : UInt32} (es : List Located) (he : ∀ e ∈ es, In h₀ e)
    (hc : ∀ e ∈ es, ClonesAll clone e) (acc : List Located)
    (hacc : Yields h₀ h [] (.array t len acc)) :
    ∃ len' acc', Yields h₀ (cloneElems clone (some t) h (es.map ptr)) []
      (.array t len' acc') := by
  induction es generalizing h acc len with
  | nil => exact ⟨len, acc, hacc⟩
  | cons e es ih =>
    have hin : In h e :=
      hacc.still (he e (List.mem_cons_self ..)) fun x hx => absurd hx List.not_mem_nil
    obtain ⟨le, hle, hptr⟩ := hc e (List.mem_cons_self ..) h hin
    simp only [List.map_cons, cloneElems, hptr]
    exact ih (fun f hf => he f (List.mem_cons_of_mem _ hf))
      (fun f hf => hc f (List.mem_cons_of_mem _ hf)) _ (addElem_yields hacc hle)

theorem cloneNode_yields (l : Located) (hs : l.tree.ShortKeys) (fuel : ℕ)
    (hf : l.height < fuel) : ClonesAll (cloneNode fuel) l := by
  induction fuel generalizing l with
  | zero => omega
  | succ fuel ih =>
    intro h hl
    cases hl with
    | nil => exact ⟨.nil, Yields.refl .nil List.nodup_nil, rfl⟩
    | @scalar a v hc =>
      have hone : ∀ w, Yields h (h.alloc (.scalar w)) [] (.scalar h.next w) :=
        fun w => Yields.new (.scalar (Memory.alloc_cell_next _ _)) rfl
      simp only [ptr, cloneNode, hc]
      cases v with
      | null => exact ⟨_, hone .null, rfl⟩
      | boolean b => exact ⟨_, hone (.boolean b), rfl⟩
      | integer i => exact ⟨_, hone (.integer i), rfl⟩
      | double d => exact ⟨_, hone (.double d), rfl⟩
      | string s => exact ⟨_, hone (.string (cstr s)), rfl⟩
    | @array a len es hc he =>
      simp only [height] at hf
      have hclones : ∀ e ∈ es, ClonesAll (cloneNode fuel) e := by
        intro e hmem
        have hle := height_elem hmem
        exact ih e (shortKeys_elem hs hmem) (by omega)
      have hnew : Yields h (h.alloc (.array [] 0)) [] (.array h.next 0 []) := by
        have hin : In (h.alloc (.array [] 0)) (.array h.next 0 []) :=
          .array (Memory.alloc_cell_next _ _) fun e hmem => absurd hmem List.not_mem_nil
        exact Yields.new hin rfl
      obtain ⟨len', acc, hacc⟩ := cloneElems_yields es he hclones [] hnew
      simp only [ptr, cloneNode, hc]
      exact ⟨_, hacc, rfl⟩
    | @map a kvs ms hc hi hk hm =>
      simp only [height] at hf
      have hclones : ∀ m ∈ ms, ClonesAll (cloneNode fuel) m.2 := by
        intro m hmem
        have hle := height_member hmem
        exact ih m.2 (shortKeys_member hs hmem).2 (by omega)
      have hnew : Yields h (h.alloc (.map hashNull)) [] (.map h.next []) := by
        have hin : In (h.alloc (.map hashNull)) (.map h.next []) :=
          .map (Memory.alloc_cell_next _ _) rfl (fun m hmem => absurd hmem List.not_mem_nil)
            fun m hmem => absurd hmem List.not_mem_nil
        exact Yields.new hin rfl
      obtain ⟨acc, hacc⟩ := cloneMembers_yields ms hk hm hclones
        (fun m hmem => (shortKeys_member hs hmem).1) [] hnew Tree.keyed_nil
      simp only [ptr, cloneNode, hc, hi]
      exact ⟨_, hacc, rfl⟩

theorem ptClone_yields {h : Heap} {l : Located} (hl : In h l) (hs : l.tree.ShortKeys) :
    ∃ l', Yields h (ptClone h l.ptr).1 [] l' ∧ (ptClone h l.ptr).2 = l'.ptr ∧
      l'.tree = l.tree.clone := by
  obtain ⟨l', hy, hptr⟩ := cloneNode_yields l hs _ (Nat.lt_succ_of_le hl.height_le) h hl
  obtain ⟨l'', hf, hptr', htree⟩ := ptClone_fresh hl hs
  have heq : l' = l'' := hy.within.det hf.within (hptr.symm.trans hptr')
  exact ⟨l', hy, hptr, heq ▸ htree⟩

/-! ### Parsing -/

theorem yields_of_parsed {h : Heap} {s : ParserState} {l : Located} {depth : ℕ}
    (hp : Parsed h s l depth) : Yields h s.heap [] l := by
  constructor
  · exact hp.within
  · exact hp.allotted.nodup
  · constructor
    · exact hp.allotted.le
    · exact fun x hx => hp.old x hx.1
    · exact fun x hx => Or.inr ((hp.allotted.mem x).mp hx).1
    · rintro x (hx | hx) hlive
      · cases hx
      · obtain ⟨c, hc⟩ := Option.ne_none_iff_exists'.mp hlive
        exact (hp.allotted.mem x).mpr ⟨hx, Memory.lt_next hc⟩

end Located

end Pillowtalk
