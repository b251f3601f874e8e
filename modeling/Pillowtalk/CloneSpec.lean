import Pillowtalk.Keys

/-!
# What `pt_clone` makes

A clone lies in new cells and leaves every old one alone; as a tree it is
`Tree.clone`. It generates the calls of the original exactly when nothing is
lost on the way through `pt_map_set`: no key comes twice and no value is `NULL`.
-/

namespace Pillowtalk
open Addressed

namespace Located
variable [HashFcn]

/-- `l` lies in cells that were not there in `h`, and nothing old has changed. -/
structure Fresh (h h' : Heap) (l : Located) : Prop where
  within : In h' l
  nodup : l.addrs.Nodup
  new : ∀ x ∈ l.addrs, h.next ≤ x
  old : Memory.Keeps (· < h.next) h h'
  le : h.next ≤ h'.next

theorem Fresh.lt_next {h h' : Heap} {l : Located} (hf : Fresh h h' l) {x : ℕ} (hx : x ∈ l.addrs) :
    x < h'.next := hf.within.lt_next hx

theorem Fresh.still {h h' : Heap} {l l' : Located} (hf : Fresh h h' l') (hl : In h l) : In h' l :=
  hl.keeps fun x hx => hf.old x (hl.lt_next hx)

theorem Fresh.step {h h₁ h₂ : Heap} {l v : Located} (hl : Fresh h h₁ l) (hv : Fresh h₁ h₂ v) :
    Fresh h h₂ l := by
  refine ⟨hv.still hl.within, hl.nodup, hl.new, ?_, hl.le.trans hv.le⟩
  intro x hx
  have hlt : x < h₁.next := lt_of_lt_of_le hx hl.le
  rw [hv.old x hlt, hl.old x hx]

theorem Fresh.alloc_nil (h : Heap) : Fresh h h .nil :=
  ⟨.nil, List.nodup_nil, fun _ hx => absurd hx List.not_mem_nil, Memory.Keeps.refl _ _, le_refl _⟩

theorem fresh_alloc {h : Heap} {n : Node} {l : Located} (hl : In (h.alloc n) l)
    (ha : l.addrs = [h.next]) : Fresh h (h.alloc n) l := by
  refine ⟨hl, ?_, ?_, Memory.keeps_alloc h n, Nat.le_succ _⟩
  · rw [ha]
    exact List.nodup_singleton _
  · intro x hx
    rw [ha, List.mem_singleton] at hx
    omega

theorem Fresh.setMember {h h₁ h₂ : Heap} {t : ℕ} {acc : Members} {lv : Located}
    (hacc : Fresh h h₁ (.map t acc)) (hv : Fresh h₁ h₂ lv)
    (hd : Tree.Keyed (treeMembers acc)) (k : Bytes) :
    ∃ acc', Fresh h (ptMapSet h₂ (some t) (some k) lv.ptr) (.map t acc') ∧
      treeMembers acc' = Tree.setMember (treeMembers acc) (cstr k) lv.tree := by
  have hstep := hacc.step hv
  by_cases hnil : lv = .nil
  · subst hnil
    have hnone : ptMapSet h₂ (some t) (some k) (Located.ptr .nil) = h₂ := by
      simp only [ptMapSet, ptr]
      split
      · next heq => cases heq
      · rfl
    rw [hnone]
    exact ⟨acc, hstep, rfl⟩
  · have hdis : ((Located.map t acc).addrs ++ lv.addrs).Nodup := by
      refine List.nodup_append.mpr ⟨hacc.nodup, hv.nodup, fun x hx y hy he => ?_⟩
      have hlt := hacc.lt_next hx
      have hge := hv.new y hy
      omega
    obtain ⟨acc', hch, htree⟩ := ptMapSet_changed hstep.within hv.within hnil hdis hd k
    have htne : lv.tree ≠ .nil := fun he => hnil (tree_eq_nil.mp he)
    refine ⟨acc', ⟨hch.within, hch.nodup, ?_, ?_, hstep.le.trans hch.le⟩, ?_⟩
    · intro x hx
      rcases hch.addrs x hx with hx | hx | hx
      · exact hacc.new x hx
      · exact hacc.le.trans (hv.new x hx)
      · exact hstep.le.trans hx
    · intro x hx
      have hlt : x < h₂.next := lt_of_lt_of_le hx hstep.le
      have hnew : x ∉ (Located.map t acc).addrs := fun hmem => by
        have hge := hacc.new x hmem
        omega
      rw [hch.frame x ⟨hlt, hnew⟩, hstep.old x hx]
    · rw [htree, Tree.setMember_of_ne htne]

theorem Fresh.pushBack {h h₁ h₂ : Heap} {t : ℕ} {len : UInt32} {acc : List Located}
    {le : Located} (hacc : Fresh h h₁ (.array t len acc)) (he : Fresh h₁ h₂ le) :
    Fresh h (ptArrayPushBack h₂ (some t) le.ptr) (.array t (len + 1) (acc ++ [le])) := by
  have hstep := hacc.step he
  have hnd := hacc.nodup
  have htn := hacc.new t (List.mem_cons_self ..)
  have htlt := hacc.lt_next (List.mem_cons_self ..)
  simp only [addrs, List.nodup_cons] at hnd
  have htle : t ∉ le.addrs := fun hmem => by
    have hge := he.new t hmem
    omega
  obtain ⟨hin, hold, hnext⟩ := ptArrayPushBack_in hstep.within he.within hnd.1 htle
  have haddrs : (Located.array t (len + 1) (acc ++ [le])).addrs =
      (Located.array t len acc).addrs ++ le.addrs := by
    simp only [addrs, addrsElems_append, addrsElems, List.append_nil, List.cons_append]
  refine ⟨hin, ?_, ?_, ?_, ?_⟩
  · rw [haddrs]
    refine List.nodup_append.mpr ⟨hacc.nodup, he.nodup, fun x hx y hy hxy => ?_⟩
    have hlt := hacc.lt_next hx
    have hge := he.new y hy
    omega
  · intro x hx
    rw [haddrs] at hx
    rcases List.mem_append.mp hx with hx | hx
    · exact hacc.new x hx
    · exact hacc.le.trans (he.new x hx)
  · intro x hx
    have hne : x ≠ t := by omega
    rw [hold x hne, hstep.old x hx]
  · rw [hnext]
    exact hstep.le

/-! ### The recursion -/

omit [HashFcn] in
theorem shortKeys_elem {a : ℕ} {len : UInt32} {es : List Located}
    (hs : (Located.array a len es).tree.ShortKeys) {e : Located} (he : e ∈ es) :
    e.tree.ShortKeys := by
  simp only [tree, treeElems_eq_map] at hs
  exact hs.elem _ (List.mem_map_of_mem he)

omit [HashFcn] in
theorem shortKeys_member {a : ℕ} {ms : Members} (hs : (Located.map a ms).tree.ShortKeys)
    {m : HashHandle ℕ × Located} (hm : m ∈ ms) : Fits m.1.key ∧ m.2.tree.ShortKeys := by
  simp only [tree, treeMembers_eq_map] at hs
  obtain ⟨hkeys, hvals⟩ := hs.members
  have hmem : (m.1.key, m.2.tree) ∈ ms.map fun m => (m.1.key, m.2.tree) :=
    List.mem_map_of_mem hm
  exact ⟨hkeys _ (List.mem_map_of_mem hmem), hvals _ hmem⟩

/-- `clone` copies `l` from any memory that still holds it. -/
def Copies (clone : Heap → Ptr → Heap × Ptr) (l : Located) : Prop :=
  ∀ h, In h l → ∃ l', Fresh h (clone h l.ptr).1 l' ∧ (clone h l.ptr).2 = l'.ptr ∧
    l'.tree = l.tree.clone

theorem cloneMembers_fresh {clone : Heap → Ptr → Heap × Ptr} {h₀ h : Heap} {t : ℕ}
    (ms : Members) (hk : ∀ m ∈ ms, h₀.cell m.1.elt = some (.keyValue m.1.key m.2.ptr))
    (hm : ∀ m ∈ ms, In h₀ m.2) (hc : ∀ m ∈ ms, Copies clone m.2)
    (hfit : ∀ m ∈ ms, Fits m.1.key) (acc : Members) (hacc : Fresh h₀ h (.map t acc))
    (hd : Tree.Keyed (treeMembers acc)) :
    ∃ acc', Fresh h₀ (cloneMembers clone (some t) h (ms.map Prod.fst)) (.map t acc') ∧
      treeMembers acc' = Tree.cloneMembers (treeMembers acc) (treeMembers ms) := by
  induction ms generalizing h acc with
  | nil => exact ⟨acc, hacc, rfl⟩
  | cons m ms ih =>
    obtain ⟨handle, v⟩ := m
    have hcell : h.cell handle.elt = some (.keyValue handle.key v.ptr) := by
      have hkv := hk _ (List.mem_cons_self ..)
      rw [hacc.old _ (Memory.lt_next hkv), hkv]
    obtain ⟨lv, hv, hptr, htree⟩ := hc _ (List.mem_cons_self ..) h
      (hacc.still (hm _ (List.mem_cons_self ..)))
    obtain ⟨acc₁, hacc₁, htree₁⟩ := hacc.setMember hv hd handle.key
    have hd₁ : Tree.Keyed (treeMembers acc₁) := by
      rw [htree₁]
      exact hd.setMember (Tree.fits_cstr (hfit _ (List.mem_cons_self ..))) _
    obtain ⟨acc', hacc', htree'⟩ := ih (fun n hn => hk n (List.mem_cons_of_mem _ hn))
      (fun n hn => hm n (List.mem_cons_of_mem _ hn))
      (fun n hn => hc n (List.mem_cons_of_mem _ hn))
      (fun n hn => hfit n (List.mem_cons_of_mem _ hn)) acc₁ hacc₁ hd₁
    refine ⟨acc', ?_, ?_⟩
    · simp only [List.map_cons, cloneMembers, hcell, hptr]
      exact hacc'
    · rw [htree', htree₁, htree]
      rfl

theorem cloneElems_fresh {clone : Heap → Ptr → Heap × Ptr} {h₀ h : Heap} {t : ℕ}
    (es : List Located) (he : ∀ e ∈ es, In h₀ e) (hc : ∀ e ∈ es, Copies clone e)
    (acc : List Located) (hacc : Fresh h₀ h (.array t (UInt32.ofNat acc.length) acc)) :
    ∃ acc', Fresh h₀ (cloneElems clone (some t) h (es.map ptr))
        (.array t (UInt32.ofNat acc'.length) acc') ∧
      treeElems acc' = treeElems acc ++ Tree.cloneElems (treeElems es) := by
  induction es generalizing h acc with
  | nil => exact ⟨acc, hacc, (List.append_nil _).symm⟩
  | cons e es ih =>
    obtain ⟨le, hle, hptr, htree⟩ := hc e (List.mem_cons_self ..) h
      (hacc.still (he e (List.mem_cons_self ..)))
    have hpush := hacc.pushBack hle
    have hlen : UInt32.ofNat acc.length + 1 = UInt32.ofNat (acc ++ [le]).length := by
      rw [List.length_append, UInt32.ofNat_add]
      rfl
    rw [hlen] at hpush
    obtain ⟨acc', hacc', htree'⟩ := ih (fun f hf => he f (List.mem_cons_of_mem _ hf))
      (fun f hf => hc f (List.mem_cons_of_mem _ hf)) _ hpush
    refine ⟨acc', ?_, ?_⟩
    · simp only [List.map_cons, cloneElems, hptr]
      exact hacc'
    · rw [htree', treeElems_append, List.append_assoc, treeElems, treeElems, htree]
      rfl

theorem cloneScalar_fresh (h : Heap) (v : Scalar) :
    ∃ l', Fresh h (cloneScalar h v).1 l' ∧ (cloneScalar h v).2 = l'.ptr ∧
      l'.tree = .scalar (cloneValue v) := by
  have hone : ∀ w, Fresh h (h.alloc (.scalar w)) (.scalar h.next w) := fun w =>
    fresh_alloc (.scalar (Memory.alloc_cell_next _ _)) rfl
  cases v with
  | null => exact ⟨_, hone .null, rfl, rfl⟩
  | boolean b => exact ⟨_, hone (.boolean b), rfl, rfl⟩
  | integer i => exact ⟨_, hone (.integer i), rfl, rfl⟩
  | double d => exact ⟨_, hone (.double d), rfl, rfl⟩
  | string s => exact ⟨_, hone (.string (cstr s)), rfl, rfl⟩

theorem cloneNode_copies (l : Located) (hs : l.tree.ShortKeys) (fuel : ℕ)
    (hf : l.height < fuel) : Copies (cloneNode fuel) l := by
  induction l generalizing fuel with
  | nil =>
    intro h _
    cases fuel with
    | zero => omega
    | succ fuel => exact ⟨.nil, Fresh.alloc_nil h, rfl, rfl⟩
  | scalar a v =>
    intro h hl
    cases fuel with
    | zero => omega
    | succ fuel =>
      cases hl with
      | scalar hc =>
        simp only [ptr, cloneNode, hc, tree, Tree.clone]
        exact cloneScalar_fresh h v
  | array a len es ih =>
    intro h hl
    cases fuel with
    | zero => omega
    | succ fuel =>
      have hc := hl.arrayCell
      simp only [height] at hf
      have hcopies : ∀ e ∈ es, Copies (cloneNode fuel) e := by
        intro e he
        have hle := height_elem he
        exact ih e he (shortKeys_elem hs he) fuel (by omega)
      have hnew : Fresh h (h.alloc (.array [] 0))
          (.array h.next (UInt32.ofNat ([] : List Located).length) []) := by
        refine fresh_alloc (.array (Memory.alloc_cell_next _ _) ?_) rfl
        exact fun e he => absurd he List.not_mem_nil
      obtain ⟨acc, hacc, htree⟩ :=
        cloneElems_fresh es (fun e he => hl.elem he) hcopies [] hnew
      simp only [ptr, cloneNode, hc]
      refine ⟨_, hacc, rfl, ?_⟩
      have hlen : acc.length = (treeElems es).length := by
        have hl' := congrArg List.length htree
        simpa only [treeElems_eq_map, Tree.cloneElems_eq_map, List.length_map, List.length_append,
          List.length_nil, Nat.zero_add] using hl'
      simp only [tree, Tree.clone, htree, hlen]
      rfl
  | map a ms ih =>
    intro h hl
    cases fuel with
    | zero => omega
    | succ fuel =>
      obtain ⟨kvs, hc, hi⟩ := hl.mapCell
      simp only [height] at hf
      have hcopies : ∀ m ∈ ms, Copies (cloneNode fuel) m.2 := by
        intro m hm
        have hle := height_member hm
        exact ih m hm (shortKeys_member hs hm).2 fuel (by omega)
      have hnew : Fresh h (h.alloc (.map hashNull)) (.map h.next []) := by
        refine fresh_alloc (.map (Memory.alloc_cell_next _ _) rfl ?_ ?_) rfl
        · exact fun m hm => absurd hm List.not_mem_nil
        · exact fun m hm => absurd hm List.not_mem_nil
      obtain ⟨acc, hacc, htree⟩ := cloneMembers_fresh ms (fun m hm => (hl.member hm).1)
        (fun m hm => (hl.member hm).2) hcopies (fun m hm => (shortKeys_member hs hm).1) [] hnew
        Tree.keyed_nil
      simp only [ptr, cloneNode, hc, hi]
      refine ⟨_, hacc, rfl, ?_⟩
      simp only [tree, Tree.clone, htree]
      rfl

theorem ptClone_fresh {h : Heap} {l : Located} (hl : In h l) (hs : l.tree.ShortKeys) :
    ∃ l', Fresh h (ptClone h l.ptr).1 l' ∧ (ptClone h l.ptr).2 = l'.ptr ∧
      l'.tree = l.tree.clone :=
  cloneNode_copies l hs _ (Nat.lt_succ_of_le hl.height_le) h hl

end Located

/-! ### What a clone generates -/

namespace Tree

end Tree

section
variable [HashFcn]

end

end Pillowtalk
