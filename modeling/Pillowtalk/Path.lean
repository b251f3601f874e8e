import Pillowtalk.Footprint

/-!
# Paths

A caller comes to a node inside a tree by `pt_map_get` and `pt_array_get`, one
after another, and passes what it finds to the next function. An edit there is
an edit of the tree.
-/

namespace Pillowtalk
open Addressed

inductive Step where
  | key (key : Bytes)
  | index (idx : UInt32)
deriving DecidableEq

abbrev Path := List Step

namespace Tree

def child : Tree → Step → Tree
  | .map ms, .key key => lookup ms (cstr key)
  | .array _ es, .index idx => (es[idx.toNat]?).getD .nil
  | _, _ => .nil

def reach (t : Tree) (path : Path) : Tree := path.foldl child t

def putChild : Tree → Step → Tree → Tree
  | .map ms, .key key, t => .map (Ordered.set ms (cstr key) t)
  | .array len es, .index idx, t => .array len (es.set idx.toNat t)
  | r, _, _ => r

theorem MapsAll.child {D : Members → Prop} {t : Tree} (h : t.MapsAll D) (s : Step) :
    (t.child s).MapsAll D := by
  cases h with
  | nil => cases s <;> exact .nil
  | scalar v => cases s <;> exact .nil
  | @array len es hes =>
    cases s with
    | key key => exact .nil
    | index idx =>
      simp only [Tree.child]
      cases he : es[idx.toNat]? with
      | none => exact .nil
      | some e => exact hes e (List.mem_of_getElem? he)
  | map hd hms =>
    cases s with
    | key key => exact (MapsAll.map hd hms).lookup (cstr key)
    | index idx => exact .nil

/-- `t` in the place of what `path` leads to. -/
def put : Tree → Path → Tree → Tree
  | _, [], t => t
  | r, s :: path, t => r.putChild s ((r.child s).put path t)

end Tree

namespace Located

def child : Located → Step → Located
  | .map _ ms, .key key => lookup ms (cstr key)
  | .array _ _ es, .index idx => (es[idx.toNat]?).getD .nil
  | _, _ => .nil

def reach (l : Located) (path : Path) : Located := path.foldl child l

theorem tree_child (l : Located) (s : Step) : (l.child s).tree = l.tree.child s := by
  cases l with
  | nil => cases s <;> rfl
  | scalar a v => cases s <;> rfl
  | array a len es =>
    cases s with
    | key key => rfl
    | index idx =>
      simp only [child, tree, Tree.child, treeElems_eq_map, List.getElem?_map]
      cases es[idx.toNat]? <;> rfl
  | map a ms =>
    cases s with
    | key key => exact tree_lookup ms (cstr key)
    | index idx => rfl

theorem tree_reach (l : Located) (path : Path) : (l.reach path).tree = l.tree.reach path := by
  induction path generalizing l with
  | nil => rfl
  | cons s path ih =>
    show ((l.child s).reach path).tree = (l.tree.child s).reach path
    rw [ih, tree_child]

theorem nil_reach (path : Path) : Located.nil.reach path = .nil := by
  induction path with
  | nil => rfl
  | cons s path ih =>
    have hchild : Located.nil.child s = .nil := by cases s <;> rfl
    show (Located.nil.child s).reach path = .nil
    rw [hchild, ih]

end Located

variable [HashFcn]

/-- The pointer that the caller holds at the end of `path`. -/
def follow (h : Heap) : Ptr → Path → Ptr
  | p, [] => p
  | p, .key key :: path => follow h (ptMapGet h p (some key)) path
  | p, .index idx :: path => follow h (ptArrayGet h p idx) path

namespace Located

theorem ptArrayGet_eq {h : Heap} {a : ℕ} {len : UInt32} {es : List Located}
    (hl : In h (.array a len es)) (idx : UInt32) :
    ptArrayGet h (some a) idx = ((es[idx.toNat]?).getD .nil).ptr := by
  simp only [ptArrayGet, asArray_of_in hl]
  have hget := arrayGetFrom_eq idx (es.map ptr) 0 (Nat.zero_le _)
  rw [Nat.sub_zero, List.getElem?_map] at hget
  refine hget.trans ?_
  cases es[idx.toNat]? <;> rfl

theorem asMap_of_not_map {h : Heap} {l : Located} (hl : In h l) (hn : ∀ a ms, l ≠ .map a ms) :
    asMap h l.ptr = none := by
  cases hm : asMap h l.ptr with
  | none => rfl
  | some found =>
    obtain ⟨ms, he, -⟩ := asMap_ptr hl hm
    exact absurd he (hn _ ms)

theorem asArray_of_not_array {h : Heap} {l : Located} (hl : In h l)
    (hn : ∀ a len es, l ≠ .array a len es) : asArray h l.ptr = none := by
  cases hl with
  | nil => rfl
  | scalar hc => simp only [asArray, ptr, hc]
  | array hc he => exact absurd rfl (hn _ _ _)
  | map hc hi hk hm => simp only [asArray, ptr, hc]

theorem In.child {h : Heap} {l : Located} (hl : In h l) (s : Step) : In h (l.child s) := by
  cases l with
  | nil => cases s <;> exact .nil
  | scalar a v => cases s <;> exact .nil
  | array a len es =>
    cases s with
    | key key => exact .nil
    | index idx =>
      simp only [Located.child]
      cases he : es[idx.toNat]? with
      | none => exact .nil
      | some e => exact hl.elem (List.mem_of_getElem? he)
  | map a ms =>
    cases s with
    | key key => exact hl.lookup (cstr key)
    | index idx => exact .nil

/-- One lookup leads from a tree to its child. -/
theorem follow_child {h : Heap} {l : Located} (hl : In h l) (hs : l.tree.Searchable)
    (s : Step) (path : Path) :
    follow h l.ptr (s :: path) = follow h (l.child s).ptr path := by
  cases s with
  | key key =>
    simp only [follow]
    congr 1
    cases l with
    | map a ms => exact ptMapGet_eq hl hs.members.1 key
    | nil => rfl
    | scalar a v =>
      simp only [ptMapGet, asMap_of_not_map hl (by simp)]
      rfl
    | array a len es =>
      simp only [ptMapGet, asMap_of_not_map hl (by simp)]
      rfl
  | index idx =>
    simp only [follow]
    congr 1
    cases l with
    | array a len es => exact ptArrayGet_eq hl idx
    | nil => rfl
    | scalar a v =>
      simp only [ptArrayGet, asArray_of_not_array hl (by simp)]
      rfl
    | map a ms =>
      simp only [ptArrayGet, asArray_of_not_array hl (by simp)]
      rfl

theorem follow_eq {h : Heap} {l : Located} (hl : In h l) (hs : l.tree.Searchable)
    (path : Path) : follow h l.ptr path = (l.reach path).ptr ∧ In h (l.reach path) := by
  induction path generalizing l with
  | nil => exact ⟨rfl, hl⟩
  | cons s path ih =>
    obtain ⟨hptr, hin⟩ := ih (hl.child s) (tree_child l s ▸ Tree.MapsAll.child hs s)
    exact ⟨(follow_child hl hs s path).trans hptr, hin⟩

omit [HashFcn] in
theorem child_addrs {l : Located} {s : Step} {x : ℕ} (hx : x ∈ (l.child s).addrs) :
    x ∈ l.addrs := by
  cases l with
  | nil => cases s <;> exact absurd hx List.not_mem_nil
  | scalar a v => cases s <;> exact absurd hx List.not_mem_nil
  | array a len es =>
    cases s with
    | key key => exact absurd hx List.not_mem_nil
    | index idx =>
      simp only [child] at hx
      cases he : es[idx.toNat]? with
      | none =>
        rw [he] at hx
        exact absurd hx List.not_mem_nil
      | some e =>
        rw [he] at hx
        exact List.mem_cons_of_mem _ (mem_addrsElems (List.mem_of_getElem? he) hx)
  | map a ms =>
    cases s with
    | key key =>
      simp only [child] at hx
      rcases lookup_eq_nil_or_mem ms (cstr key) with hnil | ⟨m, hm, -, he⟩
      · rw [hnil] at hx
        exact absurd hx List.not_mem_nil
      · rw [he] at hx
        exact List.mem_cons_of_mem _ (mem_addrsMembers hm (Or.inr hx))
    | index idx => exact absurd hx List.not_mem_nil

omit [HashFcn] in
theorem split_of_getElem? {α : Type} {l : List α} {i : ℕ} {x : α} (h : l[i]? = some x) :
    ∃ pre post, l = pre ++ x :: post ∧ pre.length = i := by
  obtain ⟨hlt, rfl⟩ := List.getElem?_eq_some_iff.mp h
  refine ⟨l.take i, l.drop (i + 1), ?_, ?_⟩
  · rw [← List.drop_eq_getElem_cons hlt, List.take_append_drop]
  · rw [List.length_take]
    omega

omit [HashFcn] in
theorem nodup_child {l : Located} (hnd : l.addrs.Nodup) (s : Step) :
    (l.child s).addrs.Nodup := by
  cases l with
  | nil => cases s <;> exact List.nodup_nil
  | scalar a v => cases s <;> exact List.nodup_nil
  | array a len es =>
    cases s with
    | key key => exact List.nodup_nil
    | index idx =>
      simp only [child]
      cases he : es[idx.toNat]? with
      | none => exact List.nodup_nil
      | some e =>
        obtain ⟨pre, post, rfl, -⟩ := split_of_getElem? he
        simp only [addrs, addrsElems_append, addrsElems, List.nodup_cons, List.nodup_append] at hnd
        exact hnd.2.2.1.1
  | map a ms =>
    cases s with
    | key key =>
      simp only [child]
      rcases lookup_eq_nil_or_mem ms (cstr key) with hnil | ⟨m, hm, -, he⟩
      · rw [hnil]
        exact List.nodup_nil
      · obtain ⟨pre, post, rfl⟩ := List.append_of_mem hm
        obtain ⟨handle, v⟩ := m
        have hperm := addrs_perm_around a pre handle v post
        rw [he]
        exact (List.nodup_append.mp (hperm.nodup_iff.mp hnd)).1
    | index idx => exact List.nodup_nil

/-- A child that has become another tree. -/
theorem Yields.child {h h' : Heap} {l c' : Located} {extra : List ℕ} (hl : In h l)
    (hnd : l.addrs.Nodup) {s : Step} (hne : l.child s ≠ .nil)
    (hy : Yields h h' ((l.child s).addrs ++ extra) c')
    (hp : c'.ptr = (l.child s).ptr) (hext : ∀ x ∈ extra, x ∉ l.addrs) :
    ∃ l', Yields h h' (l.addrs ++ extra) l' ∧ l'.ptr = l.ptr ∧
      l'.tree = l.tree.putChild s c'.tree := by
  cases l with
  | nil => cases s <;> exact absurd rfl hne
  | scalar a v => cases s <;> exact absurd rfl hne
  | array a len es =>
    cases s with
    | key key => exact absurd rfl hne
    | index idx =>
      simp only [Located.child] at hne hy hp
      cases he : es[idx.toNat]? with
      | none =>
        rw [he] at hne
        exact absurd rfl hne
      | some e =>
        rw [he, Option.getD_some] at hy hp
        obtain ⟨pre, post, rfl, hlen⟩ := split_of_getElem? he
        refine ⟨_, hy.elem hl hnd hp hext, rfl, ?_⟩
        simp only [tree, Tree.putChild, ← hlen, treeElems_append, treeElems]
        rw [List.set_append_right _ _ (by rw [treeElems_eq_map, List.length_map])]
        simp [treeElems_eq_map]
  | map a ms =>
    cases s with
    | key key =>
      simp only [Located.child] at hne hy hp
      obtain ⟨pre, handle, w, post, rfl, hk, hn⟩ := split_of_lookup hne
      rw [← hk] at hy hp hn
      rw [lookup_append_cons hn] at hy hp
      refine ⟨_, hy.member hl hnd hp hext, rfl, ?_⟩
      simp only [tree, Tree.putChild, ← hk, treeMembers_append, treeMembers]
      rw [Ordered.set_append_cons _ _ _ hn]
    | index idx => exact absurd rfl hne

/-- What an edit makes of the node that a path leads to, it makes of the tree. -/
theorem Yields.reach {h h' : Heap} {w' : Located} {extra : List ℕ} (path : Path) {l : Located}
    (hl : In h l) (hnd : l.addrs.Nodup) (hne : l.reach path ≠ .nil)
    (hy : Yields h h' ((l.reach path).addrs ++ extra) w')
    (hp : w'.ptr = (l.reach path).ptr) (hext : ∀ x ∈ extra, x ∉ l.addrs) :
    ∃ l', Yields h h' (l.addrs ++ extra) l' ∧ l'.ptr = l.ptr ∧
      l'.tree = l.tree.put path w'.tree := by
  induction path generalizing l with
  | nil => exact ⟨w', hy, hp, rfl⟩
  | cons s path ih =>
    have hchild : l.child s ≠ .nil := by
      intro he
      apply hne
      show (l.child s).reach path = .nil
      rw [he, nil_reach]
    obtain ⟨c', hc, hptr, htree⟩ := ih (hl.child s) (nodup_child hnd s) hne hy hp
      fun x hx hxc => hext x hx (child_addrs hxc)
    obtain ⟨l', hl', hptr', htree'⟩ := hc.child hl hnd hchild hptr hext
    refine ⟨l', hl', hptr', ?_⟩
    rw [htree', htree, tree_child]
    rfl

omit [HashFcn] in
theorem nodup_reach (path : Path) {l : Located} (hnd : l.addrs.Nodup) :
    (l.reach path).addrs.Nodup := by
  induction path generalizing l with
  | nil => exact hnd
  | cons s path ih => exact ih (nodup_child hnd s)

omit [HashFcn] in
theorem reach_addrs (path : Path) {l : Located} {x : ℕ} (hx : x ∈ (l.reach path).addrs) :
    x ∈ l.addrs := by
  induction path generalizing l with
  | nil => exact hx
  | cons s path ih => exact child_addrs (ih hx)

end Located
end Pillowtalk
