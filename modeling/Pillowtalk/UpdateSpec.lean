import Pillowtalk.Footprint

/-!
# What `pt_map_update` leaves in memory

The update works in the cells of `root` and in new ones: `root` becomes what
`Tree.update` says, with its code, and everything outside `root` stays as it
was. So does `additions`, when it shares no node with `root`: the links that the
loop follows are those that were there at the start.
-/

namespace Pillowtalk
open Addressed

namespace Located
variable [HashFcn]

theorem Yields.changed {h h' : Heap} {l l' : Located} (hy : Yields h h' l.addrs l') :
    Changed h h' l l' [] :=
  ⟨hy.within, hy.nodup, fun x hx => (hy.swaps.old x hx).imp_right Or.inr, hy.swaps.frame,
    hy.swaps.le⟩

/-- A tree apart from the one that changes is still there, and still apart. -/
theorem Changed.apart {h h' : Heap} {l l' v : Located} (hc : Changed h h' l l' [])
    (hv : In h v) (hnd : (l.addrs ++ v.addrs).Nodup) :
    In h' v ∧ (l'.addrs ++ v.addrs).Nodup := by
  obtain ⟨-, hvn, hdis⟩ := List.nodup_append.mp hnd
  refine ⟨hv.keeps fun x hx => hc.frame x ⟨hv.lt_next hx, fun hxl => hdis x hxl x hx rfl⟩, ?_⟩
  refine List.nodup_append.mpr ⟨hc.nodup, hvn, fun x hx y hy he => ?_⟩
  have hlt := hv.lt_next hy
  rcases hc.addrs x hx with hx | hx | hx
  · exact hdis x hx y hy he
  · cases hx
  · omega

/-! ### One member of the additions -/

/-- A clone of `v` stands beside a tree that `v` may be part of. -/
theorem ptClone_beside {h : Heap} {m v : Located} (hm : In h m) (hnd : m.addrs.Nodup)
    (hv : In h v) (hs : v.tree.ShortKeys) (hne : v ≠ .nil) :
    ∃ lv, (ptClone h v.ptr).2 = lv.ptr ∧ lv.tree = v.tree.clone ∧ lv ≠ .nil ∧
      In (ptClone h v.ptr).1 m ∧ In (ptClone h v.ptr).1 lv ∧ (m.addrs ++ lv.addrs).Nodup ∧
      Memory.Swaps h (ptClone h v.ptr).1 m.addrs (m.addrs ++ lv.addrs) := by
  obtain ⟨lv, hy, hptr, htree⟩ := ptClone_yields hv hs
  have hapart := hy.apart hm fun x hx => absurd hx List.not_mem_nil
  refine ⟨lv, hptr, htree, ?_, hy.still hm fun x hx => absurd hx List.not_mem_nil, hy.within,
    List.nodup_append.mpr ⟨hnd, hy.nodup, fun x hx y hy he => hapart y hy (he ▸ hx)⟩, ?_⟩
  · rw [ne_eq, ← tree_eq_nil, htree, Tree.clone_eq_nil, tree_eq_nil]
    exact hne
  · apply (hy.swaps.beside m.addrs).congr
    · exact fun x => Iff.rfl
    · intro x
      rw [List.mem_append, List.mem_append]
      exact or_comm

theorem setClone_yields {h : Heap} {a : ℕ} {ms : Members} {v : Located}
    (hl : In h (.map a ms)) (hv : In h v) (hs : v.tree.ShortKeys) (hne : v ≠ .nil)
    (hnd : (Located.map a ms).addrs.Nodup) (hd : Tree.Keyed (treeMembers ms)) (k : Bytes) :
    ∃ ms', Yields h (ptMapSet (ptClone h v.ptr).1 (some a) (some k) (ptClone h v.ptr).2)
        (Located.map a ms).addrs (.map a ms') ∧
      treeMembers ms' = Ordered.set (treeMembers ms) (cstr k) v.tree.clone := by
  obtain ⟨lv, hptr, htree, hlv, hstill, hin, hdis, hclone⟩ := ptClone_beside hl hnd hv hs hne
  obtain ⟨ms', hset, htree'⟩ := ptMapSet_yields hstill hin hlv hdis hd k
  rw [hptr]
  exact ⟨ms', ⟨hset.within, hset.nodup, hclone.trans hset.swaps⟩, htree ▸ htree'⟩

/-- `update` merges `v` into any tree that lies apart from it, in the cells of that tree. -/
def Updates (update : Heap → Ptr → Ptr → Heap × Int32) (v : Located) : Prop :=
  ∀ h r, In h r → In h v → (r.addrs ++ v.addrs).Nodup → r.tree.Searchable →
    ∃ r', Yields h (update h r.ptr v.ptr).1 r.addrs r' ∧ r'.ptr = r.ptr ∧
      r'.tree = (r.tree.update v.tree).1 ∧ (update h r.ptr v.ptr).2 = (r.tree.update v.tree).2

theorem updateNested_yields {update : Heap → Ptr → Ptr → Heap × Int32} {h : Heap} {a : ℕ}
    {ms : Members} {v : Located} (hu : Updates update v) (hl : In h (.map a ms)) (hv : In h v)
    (hnd : ((Located.map a ms).addrs ++ v.addrs).Nodup) (hr : (Located.map a ms).tree.Searchable)
    {k : Bytes} (hk : lookup ms k ≠ .nil) :
    ∃ ms', Yields h (update h (lookup ms k).ptr v.ptr).1 (Located.map a ms).addrs (.map a ms') ∧
      treeMembers ms' =
        Ordered.set (treeMembers ms) k ((lookup ms k).tree.update v.tree).1 := by
  have hlookup := hr.lookup k
  rw [← tree_lookup] at hlookup
  obtain ⟨pre, handle, w, post, rfl, rfl, hn⟩ := split_of_lookup hk
  rw [lookup_append_cons hn] at hlookup ⊢
  obtain ⟨-, hw⟩ := hl.member (List.mem_append_right pre (List.mem_cons_self ..))
  obtain ⟨hmap, hvn, hdis⟩ := List.nodup_append.mp hnd
  have hperm := addrs_perm_around a pre handle w post
  have hwv : (w.addrs ++ v.addrs).Nodup := by
    apply List.nodup_append.mpr ⟨(List.nodup_append.mp (hperm.nodup_iff.mp hmap)).1, hvn, _⟩
    exact fun x hx y hy => hdis x (hperm.mem_iff.mpr (List.mem_append_left _ hx)) y hy
  obtain ⟨w', hy, hptr, htree, -⟩ := hu h w hw hv hwv hlookup
  rw [← List.append_nil w.addrs] at hy
  have hall := hy.member hl hmap hptr fun x hx => absurd hx List.not_mem_nil
  rw [List.append_nil] at hall
  refine ⟨_, hall, ?_⟩
  rw [treeMembers_append, treeMembers_append, treeMembers, treeMembers,
    Ordered.set_append_cons _ _ _ hn, htree]

/-- The body of the loop for a member: it leaves the loop, as `Tree.updateMembers` does, or
goes on with the map it has made of `root`. -/
theorem updateMember_yields {update : Heap → Ptr → Ptr → Heap × Int32} {h : Heap} {a : ℕ}
    {ms : Members} {handle : HashHandle ℕ} {v : Located} (hu : Updates update v)
    (hl : In h (.map a ms)) (hkv : h.cell handle.elt = some (.keyValue handle.key v.ptr))
    (hv : In h v) (hs : v.tree.ShortKeys) (hnd : ((Located.map a ms).addrs ++ v.addrs).Nodup)
    (hr : (Located.map a ms).tree.Searchable) :
    (updateMember update (some a) h handle = none ∧ ∀ rest,
      Tree.updateMembers (treeMembers ms) ((handle.key, v.tree) :: rest) = (treeMembers ms, 1)) ∨
    ∃ h₁ ms₁, updateMember update (some a) h handle = some h₁ ∧
      Yields h h₁ (Located.map a ms).addrs (.map a ms₁) ∧ ∀ rest,
        Tree.updateMembers (treeMembers ms) ((handle.key, v.tree) :: rest) =
          Tree.updateMembers (treeMembers ms₁) rest := by
  have hmap := (List.nodup_append.mp hnd).1
  have hd : Tree.Keyed (treeMembers ms) := hr.members.1
  have hget := ptMapGet_eq hl hd handle.key
  have htv := typeOf_ptr hv
  have hte := typeOf_ptr (hl.lookup (cstr handle.key))
  rw [tree_lookup] at hte
  have hnone : (lookup ms (cstr handle.key)).ptr = none ↔
      (Tree.lookup (treeMembers ms) (cstr handle.key)).type = none := by
    rw [ptr_eq_none, Tree.type_eq_none, ← tree_lookup, tree_eq_nil]
  simp only [updateMember, hkv, Tree.updateMembers]
  cases hp : v.ptr with
  | none =>
    have htype : v.tree.type = none := by
      rw [Tree.type_eq_none, tree_eq_nil]
      exact ptr_eq_none.mp hp
    refine Or.inr ⟨h, ms, rfl, Yields.refl hl hmap, fun rest => ?_⟩
    rw [if_pos htype]
  | some p =>
    have hne : v ≠ .nil := fun he => by
      rw [he] at hp
      cases hp
    have htype : v.tree.type ≠ none := by
      rw [ne_eq, Tree.type_eq_none, tree_eq_nil]
      exact hne
    -- storing the clone, in the two branches that do
    obtain ⟨ms₁, hset, htree⟩ := setClone_yields hl hv hs hne hmap hd handle.key
    rw [hp] at htv hset
    simp only [hget, htv, hte, hnone, if_neg htype]
    by_cases hnew : (Tree.lookup (treeMembers ms) (cstr handle.key)).type = none
    · refine Or.inr ⟨_, ms₁, if_pos hnew, hset, fun rest => ?_⟩
      rw [if_pos hnew, htree]
    by_cases hdiff : v.tree.type ≠ (Tree.lookup (treeMembers ms) (cstr handle.key)).type
    · refine Or.inl ⟨?_, fun rest => ?_⟩
      · rw [if_neg hnew, if_pos hdiff]
      · rw [if_neg hnew, if_pos hdiff]
    by_cases hmapty : v.tree.type = some .map
    · have hfound : lookup ms (cstr handle.key) ≠ .nil := fun he =>
        hnew (hnone.mp (ptr_eq_none.mpr he))
      obtain ⟨ms₂, hnested, htree₂⟩ := updateNested_yields hu hl hv hnd hr hfound
      rw [hp] at hnested
      rw [tree_lookup] at htree₂
      refine Or.inr ⟨_, ms₂, ?_, hnested, fun rest => ?_⟩
      · rw [if_neg hnew, if_neg hdiff, if_pos hmapty]
      · rw [if_neg hnew, if_neg hdiff, if_pos hmapty, htree₂]
    · refine Or.inr ⟨_, ms₁, ?_, hset, fun rest => ?_⟩
      · rw [if_neg hnew, if_neg hdiff, if_neg hmapty]
      · rw [if_neg hnew, if_neg hdiff, if_neg hmapty, htree]

/-! ### The loop over the additions -/

theorem nextMember_of_in {h : Heap} {b : ℕ} {pre post : Members} {handle : HashHandle ℕ}
    {v : Located} (hv : In h (.map b (pre ++ (handle, v) :: post)))
    (hnd : (Located.map b (pre ++ (handle, v) :: post)).addrs.Nodup) :
    nextMember h b handle = (post.map Prod.fst).head? := by
  obtain ⟨kvs, hc, hi⟩ := hv.mapCell
  rw [List.map_append, List.map_cons] at hi
  refine nextMember_of_items hc hi fun hd hm => ?_
  obtain ⟨m, hmem, rfl⟩ := List.mem_map.mp hm
  exact ((apart_of_nodup hnd).2.2 m (List.mem_append_left post hmem) _ (Or.inl rfl)).1

theorem updateFrom_yields {update : Heap → Ptr → Ptr → Heap × Int32} {a b : ℕ}
    (pre add : Members) (hu : ∀ m ∈ add, Updates update m.2) {h : Heap} {ms : Members}
    (hl : In h (.map a ms)) (hv : In h (.map b (pre ++ add)))
    (hnd : ((Located.map a ms).addrs ++ (Located.map b (pre ++ add)).addrs).Nodup)
    (hr : (Located.map a ms).tree.Searchable)
    (hs : (Located.map b (pre ++ add)).tree.ShortKeys) (fuel : ℕ) (hf : add.length ≤ fuel) :
    let u := updateFrom update (some a) b fuel h (add.map Prod.fst).head?
    ∃ ms', Yields h u.1 (Located.map a ms).addrs (.map a ms') ∧
      treeMembers ms' = (Tree.updateMembers (treeMembers ms) (treeMembers add)).1 ∧
      u.2 = (Tree.updateMembers (treeMembers ms) (treeMembers add)).2 := by
  induction add generalizing h ms pre fuel with
  | nil =>
    simp only [List.map_nil, List.head?_nil, updateFrom, treeMembers, Tree.updateMembers]
    exact ⟨ms, Yields.refl hl (List.nodup_append.mp hnd).1, rfl, trivial⟩
  | cons m add ih =>
    obtain ⟨handle, v⟩ := m
    have hmem : (handle, v) ∈ pre ++ (handle, v) :: add :=
      List.mem_append_right pre (List.mem_cons_self ..)
    obtain ⟨hkv, hin⟩ := hv.member hmem
    obtain ⟨hfit, hshort⟩ := shortKeys_member hs hmem
    obtain ⟨hrn, hvn, hdis⟩ := List.nodup_append.mp hnd
    have hsub : ∀ x ∈ v.addrs, x ∈ (Located.map b (pre ++ (handle, v) :: add)).addrs :=
      fun x hx => List.mem_cons_of_mem _ (mem_addrsMembers hmem (Or.inr hx))
    have hvnd : ((Located.map a ms).addrs ++ v.addrs).Nodup := by
      have hperm := addrs_perm_around b pre handle v add
      apply List.nodup_append.mpr ⟨hrn, (List.nodup_append.mp (hperm.nodup_iff.mp hvn)).1, _⟩
      exact fun x hx y hy => hdis x hx y (hsub y hy)
    cases fuel with
    | zero => cases hf
    | succ fuel =>
      simp only [List.map_cons, List.head?_cons, updateFrom, treeMembers]
      rcases updateMember_yields (hu _ (List.mem_cons_self ..)) hl hkv hin hshort hvnd hr with
        ⟨hleave, htree⟩ | ⟨h₁, ms₁, hgo, hy, htree⟩
      · rw [hleave, htree]
        exact ⟨ms, Yields.refl hl hrn, rfl, rfl⟩
      · obtain ⟨hv₁, hnd₁⟩ := hy.changed.apart hv hnd
        have hr₁ : (Located.map a ms₁).tree.Searchable := by
          have hafter := hr.update (Tree.shortKeys_single hfit hshort)
          rw [tree, Tree.update, htree, Tree.updateMembers] at hafter
          exact hafter
        have hlist : pre ++ (handle, v) :: add = (pre ++ [(handle, v)]) ++ add := by simp
        rw [hgo, htree]
        simp only [nextMember_of_in hv₁ (List.nodup_append.mp hnd₁).2.1]
        rw [hlist] at hv₁ hnd₁ hs
        obtain ⟨ms', hy', hrest⟩ := ih (pre ++ [(handle, v)])
          (fun n hn => hu n (List.mem_cons_of_mem _ hn)) hy.within hv₁ hnd₁ hr₁ hs fuel
          (Nat.le_of_succ_le_succ hf)
        exact ⟨ms', hy.trans hy', hrest⟩

/-! ### The recursion -/

theorem updateMap_of_root_none {h : Heap} {root additions : Ptr} (hn : asMap h root = none)
    (fuel : ℕ) (append : Int32) : updateMap (fuel + 1) h root additions append = (h, 1) := by
  simp only [updateMap, hn]

theorem updateMap_of_additions_none {h : Heap} {root additions : Ptr}
    (hn : asMap h additions = none) (fuel : ℕ) (append : Int32) :
    updateMap (fuel + 1) h root additions append = (h, 1) := by
  simp only [updateMap, hn]
  cases asMap h root <;> rfl

theorem not_map_of_asMap {h : Heap} {l : Located} (hl : In h l) (hn : asMap h l.ptr = none)
    (ms : Tree.Members) : l.tree ≠ .map ms := by
  intro he
  obtain ⟨a, ns, rfl, -⟩ := tree_eq_map he
  obtain ⟨kvs, hc, -⟩ := hl.mapCell
  rw [ptr, asMap_of_in hc] at hn
  cases hn

omit [HashFcn] in
theorem length_addrsMembers (ms : Members) : ms.length ≤ (addrsMembers ms).length ∧
    ∀ m ∈ ms, m.2.addrs.length < (addrsMembers ms).length := by
  induction ms with
  | nil => exact ⟨le_refl _, fun m hm => absurd hm List.not_mem_nil⟩
  | cons m ms ih =>
    obtain ⟨handle, v⟩ := m
    obtain ⟨hlen, hvals⟩ := ih
    simp only [addrsMembers, List.length_cons, List.length_append]
    refine ⟨by omega, fun n hn => ?_⟩
    rcases List.mem_cons.mp hn with rfl | hn
    · simp only
      omega
    · have hlt := hvals n hn
      omega

/-- The nodes of `v` bound the depth of the recursion and the length of every walk. -/
theorem updateMap_yields (append : Int32) (fuel : ℕ) (v : Located) (hs : v.tree.ShortKeys)
    (hf : v.addrs.length < fuel) :
    Updates (fun h existing value => updateMap fuel h existing value append) v := by
  induction fuel generalizing v with
  | zero => omega
  | succ fuel ih =>
    intro h r hr hv hnd hsearch
    obtain ⟨hrn, hvn, hdis⟩ := List.nodup_append.mp hnd
    cases hroot : asMap h r.ptr with
    | none =>
      simp only [updateMap_of_root_none hroot, Tree.update_of_not_map (not_map_of_asMap hr hroot)]
      exact ⟨r, Yields.refl hr hrn, rfl, rfl, trivial⟩
    | some found =>
      cases hadd : asMap h v.ptr with
      | none =>
        simp only [updateMap_of_additions_none hadd,
          Tree.update_of_additions_not_map (not_map_of_asMap hv hadd)]
        exact ⟨r, Yields.refl hr hrn, rfl, rfl, trivial⟩
      | some found' =>
        obtain ⟨c, kvs⟩ := found
        obtain ⟨b, kvs'⟩ := found'
        obtain ⟨ms, rfl, -⟩ := asMap_ptr hr hroot
        obtain ⟨add, rfl, hi⟩ := asMap_ptr hv hadd
        obtain ⟨hlen, hvals⟩ := length_addrsMembers add
        simp only [addrs, List.length_cons] at hf
        have hupd : ∀ m ∈ add,
            Updates (fun h existing value => updateMap fuel h existing value append) m.2 := by
          intro m hm
          have hlt := hvals m hm
          exact ih m.2 (shortKeys_member hs hm).2 (by omega)
        obtain ⟨ms', hy, htree, hcode⟩ :=
          updateFrom_yields [] add hupd hr hv hnd hsearch hs (fuel + 1) (by omega)
        simp only [updateMap, hroot, hadd, hi, tree, Tree.update]
        exact ⟨.map c ms', hy, rfl, congrArg Tree.map htree, hcode⟩

/-- The bound that `pt_map_update` runs with is enough for any two trees that share no node. -/
theorem ptMapUpdate_yields {h : Heap} {r v : Located} (hr : In h r) (hv : In h v)
    (hnd : (r.addrs ++ v.addrs).Nodup) (hrs : r.tree.Searchable) (hvs : v.tree.ShortKeys)
    (append : Int32) :
    ∃ r', Yields h (ptMapUpdate h r.ptr v.ptr append).1 r.addrs r' ∧ r'.ptr = r.ptr ∧
      r'.tree = (r.tree.update v.tree).1 ∧
      (ptMapUpdate h r.ptr v.ptr append).2 = (r.tree.update v.tree).2 := by
  have hlen := h.length_le_next (List.nodup_append.mp hnd).2.1 fun x hx => hv.lt_next hx
  exact updateMap_yields append _ v hvs (Nat.lt_succ_of_le hlen) h r hr hv hnd hrs

end Located
end Pillowtalk
