import Pillowtalk.Run
import Pillowtalk.Located

/-!
# What `pt_free_node` releases (`pillowtalk_impl.c:840-887`)

A node is more than one block: a string and a key have their characters, an
array a block for each element, a map the table and the buckets of its first
item. The functions here are those of `pt_free_node` once more, with a record
of the calls of `free` in their order.
-/

namespace Pillowtalk
open Addressed

/-- A block of memory, named by the node that it belongs to. -/
inductive Allocation where
  | node (a : ℕ)
  | string (a : ℕ)
  | elem (array index : ℕ)
  | key (kv : ℕ)
  | buckets (map : ℕ)
  | table (map : ℕ)
deriving DecidableEq

def Allocation.owner : Allocation → ℕ
  | .node a => a
  | .string a => a
  | .elem array _ => array
  | .key kv => kv
  | .buckets map => map
  | .table map => map

section
variable [HashFcn]

structure Releasing where
  heap : Heap
  freed : List Allocation

namespace Releasing

/-- `free` -/
def free (s : Releasing) (b : Allocation) : Releasing where
  heap := match b with
    | .node a => s.heap.free a
    | _ => s.heap
  freed := s.freed ++ [b]

-- `HASH_DEL` of the only item that is left releases the buckets and the table.
def freeMapNode (freeNode : Releasing → Ptr → Releasing) (map : ℕ) :
    Releasing → List (HashHandle ℕ) → Releasing
  | s, [] => s
  | s, cur :: rest =>
    let s := if rest.isEmpty then (s.free (.buckets map)).free (.table map) else s
    let s := freeNode s (kvValue s.heap cur.elt)
    freeMapNode freeNode map ((s.free (.key cur.elt)).free (.node cur.elt)) rest

-- `index` only names the element.
def freeArrayNode (freeNode : Releasing → Ptr → Releasing) (array : ℕ) :
    ℕ → Releasing → List Ptr → Releasing
  | _, s, [] => s
  | index, s, node :: rest =>
    freeArrayNode freeNode array (index + 1) ((freeNode s node).free (.elem array index)) rest

def freeNode : ℕ → Releasing → Ptr → Releasing
  | 0, s, _ => s
  | _ + 1, s, none => s
  | fuel + 1, s, some a =>
    match s.heap.cell a with
    | some (.map kvs) => (freeMapNode (freeNode fuel) a s kvs.items).free (.node a)
    | some (.array head _) => (freeArrayNode (freeNode fuel) a 0 s head).free (.node a)
    | some (.scalar (.string _)) => (s.free (.string a)).free (.node a)
    | _ => s.free (.node a)

def ptFreeNode (h : Heap) (node : Ptr) : Releasing := freeNode (h.next + 1) ⟨h, []⟩ node

/-! ### The record changes nothing -/

@[simp] theorem heap_free_node (s : Releasing) (a : ℕ) :
    (s.free (.node a)).heap = s.heap.free a := rfl
@[simp] theorem heap_free_key (s : Releasing) (kv : ℕ) : (s.free (.key kv)).heap = s.heap := rfl
@[simp] theorem heap_free_elem (s : Releasing) (array index : ℕ) :
    (s.free (.elem array index)).heap = s.heap := rfl
@[simp] theorem heap_free_string (s : Releasing) (a : ℕ) :
    (s.free (.string a)).heap = s.heap := rfl
@[simp] theorem freed_free (s : Releasing) (b : Allocation) :
    (s.free b).freed = s.freed ++ [b] := rfl

theorem heap_freeMapNode {freeNode : Releasing → Ptr → Releasing} {free : Heap → Ptr → Heap}
    (hf : ∀ s p, (freeNode s p).heap = free s.heap p) (map : ℕ) (items : List (HashHandle ℕ))
    (s : Releasing) :
    (freeMapNode freeNode map s items).heap =
      items.foldl (fun h cur => (free h (kvValue h cur.elt)).free cur.elt) s.heap := by
  induction items generalizing s with
  | nil => rfl
  | cons cur rest ih =>
    simp only [freeMapNode, List.foldl_cons]
    split
    · rw [ih, heap_free_node, heap_free_key, hf]
      rfl
    · rw [ih, heap_free_node, heap_free_key, hf]

theorem heap_freeArrayNode {freeNode : Releasing → Ptr → Releasing} {free : Heap → Ptr → Heap}
    (hf : ∀ s p, (freeNode s p).heap = free s.heap p) (array index : ℕ) (head : List Ptr)
    (s : Releasing) :
    (freeArrayNode freeNode array index s head).heap = head.foldl free s.heap := by
  induction head generalizing s index with
  | nil => rfl
  | cons node rest ih =>
    simp only [freeArrayNode, List.foldl_cons]
    rw [ih, heap_free_elem, hf]

theorem heap_freeNode (fuel : ℕ) (s : Releasing) (p : Ptr) :
    (freeNode fuel s p).heap = Pillowtalk.freeNode fuel s.heap p := by
  induction fuel generalizing s p with
  | zero => rfl
  | succ fuel ih =>
    cases p with
    | none => rfl
    | some a =>
      simp only [freeNode, Pillowtalk.freeNode]
      cases hc : s.heap.cell a with
      | none => rfl
      | some n =>
        cases n with
        | scalar v => cases v <;> rfl
        | array head len =>
          show ((freeArrayNode (freeNode fuel) a 0 s head).free (.node a)).heap = _
          rw [heap_free_node, heap_freeArrayNode ih]
        | map kvs =>
          show ((freeMapNode (freeNode fuel) a s kvs.items).free (.node a)).heap = _
          rw [heap_free_node, heap_freeMapNode ih]
        | keyValue key value => rfl

theorem heap_ptFreeNode (h : Heap) (p : Ptr) : (ptFreeNode h p).heap = Pillowtalk.ptFreeNode h p :=
  heap_freeNode _ _ _

section
variable {P : Releasing → Prop} {free : Releasing → Ptr → Releasing}

theorem freeArrayNode_induction (hP : ∀ s b, P s → P (s.free b)) (hfree : ∀ s p, P s → P (free s p))
    (array index : ℕ) (head : List Ptr) {s : Releasing} (hs : P s) :
    P (freeArrayNode free array index s head) := by
  induction head generalizing index s with
  | nil => exact hs
  | cons node rest ih => exact ih (index + 1) (hP _ _ (hfree _ _ hs))

theorem freeMapNode_induction (hP : ∀ s b, P s → P (s.free b)) (hfree : ∀ s p, P s → P (free s p))
    (map : ℕ) (items : List (HashHandle ℕ)) {s : Releasing} (hs : P s) :
    P (freeMapNode free map s items) := by
  induction items generalizing s with
  | nil => exact hs
  | cons cur rest ih =>
    apply ih
    apply hP _ _ (hP _ _ (hfree _ _ _))
    split
    · exact hP _ _ (hP _ _ hs)
    · exact hs

/-- What every call of `free` keeps, `pt_free_node` keeps. -/
theorem freeNode_induction (hP : ∀ s b, P s → P (s.free b)) (fuel : ℕ) {s : Releasing} (hs : P s)
    (p : Ptr) : P (freeNode fuel s p) := by
  induction fuel generalizing s p with
  | zero => exact hs
  | succ fuel ih =>
    cases p with
    | none => exact hs
    | some a =>
      simp only [freeNode]
      split
      · exact hP _ _ (freeMapNode_induction hP (fun _ p ht => ih ht p) a _ hs)
      · exact hP _ _ (freeArrayNode_induction hP (fun _ p ht => ih ht p) a 0 _ hs)
      · exact hP _ _ (hP _ _ hs)
      · exact hP _ _ hs

end

end Releasing

/-! ### The blocks of a node -/

/-- What was handed out for the node at `a`, itself included. -/
def Node.blocks (a : ℕ) : Node → List Allocation
  | .scalar (.string _) => [.node a, .string a]
  | .scalar _ => [.node a]
  | .array head _ => .node a :: (List.range' 0 head.length).map (.elem a)
  | .map kvs => .node a :: if kvs.items.isEmpty then [] else [.buckets a, .table a]
  | .keyValue _ _ => [.node a, .key a]

def blocksAt (h : Heap) (a : ℕ) : List Allocation := (h.cell a).elim [] (Node.blocks a)

theorem node_mem_blocksAt {h : Heap} {a : ℕ} {n : Node} (hc : h.cell a = some n) :
    Allocation.node a ∈ blocksAt h a := by
  unfold blocksAt
  rw [hc]
  cases n with
  | scalar v => cases v <;> exact List.mem_cons_self ..
  | array head len => exact List.mem_cons_self ..
  | map kvs => exact List.mem_cons_self ..
  | keyValue key value => exact List.mem_cons_self ..

theorem owner_of_mem_blocksAt {h : Heap} {a : ℕ} {b : Allocation} (hb : b ∈ blocksAt h a) :
    b.owner = a := by
  unfold blocksAt at hb
  cases hc : h.cell a with
  | none =>
    rw [hc] at hb
    cases hb
  | some n =>
    rw [hc] at hb
    cases n with
    | scalar v =>
      cases v <;> simp only [Option.elim_some, Node.blocks, List.mem_cons, List.not_mem_nil,
        or_false] at hb
      case string s =>
        rcases hb with rfl | rfl <;> rfl
      all_goals
        subst hb
        rfl
    | array head len =>
      simp only [Option.elim_some, Node.blocks, List.mem_cons, List.mem_map] at hb
      rcases hb with rfl | ⟨i, -, rfl⟩ <;> rfl
    | map kvs =>
      simp only [Option.elim_some, Node.blocks, List.mem_cons] at hb
      rcases hb with rfl | hb
      · rfl
      · split at hb
        · cases hb
        · simp only [List.mem_cons, List.not_mem_nil, or_false] at hb
          rcases hb with rfl | rfl <;> rfl
    | keyValue key value =>
      simp only [Option.elim_some, Node.blocks, List.mem_cons, List.not_mem_nil, or_false] at hb
      rcases hb with rfl | rfl <;> rfl

theorem nodup_blocksAt (h : Heap) (a : ℕ) : (blocksAt h a).Nodup := by
  unfold blocksAt
  cases hc : h.cell a with
  | none => exact List.nodup_nil
  | some n =>
    cases n with
    | scalar v => cases v <;> simp [Node.blocks]
    | array head len =>
      show (Allocation.node a :: (List.range' 0 head.length).map (.elem a)).Nodup
      have helem : ((List.range' 0 head.length).map (Allocation.elem a)).Nodup := by
        apply List.Nodup.map _ List.nodup_range'
        intro i j he
        cases he
        rfl
      apply List.nodup_cons.mpr ⟨_, helem⟩
      intro hm
      obtain ⟨i, -, he⟩ := List.mem_map.mp hm
      cases he
    | map kvs =>
      simp only [Option.elim_some, Node.blocks]
      split <;> simp
    | keyValue key value => simp [Node.blocks]

/-- Different nodes have different blocks. -/
theorem nodup_flatMap_blocksAt (h : Heap) {as : List ℕ} (hnd : as.Nodup) :
    (as.flatMap (blocksAt h)).Nodup := by
  apply List.nodup_flatMap.mpr
  constructor
  · exact fun a _ => nodup_blocksAt h a
  · apply hnd.imp
    intro a b hne x hx hx'
    exact hne ((owner_of_mem_blocksAt hx).symm.trans (owner_of_mem_blocksAt hx'))

/-! ### Releasing a tree -/

/-- From `s` to `s'` the cells `as` went, and the blocks `bs` were released in this order. -/
structure Releases (s s' : Releasing) (as : List ℕ) (bs : List Allocation) : Prop where
  cell : ∀ x, s'.heap.cell x = if x ∈ as then none else s.heap.cell x
  freed : s'.freed = s.freed ++ bs

namespace Releases
variable {s s' s'' : Releasing} {as as' : List ℕ} {bs bs' : List Allocation}

theorem refl (s : Releasing) : Releases s s [] [] :=
  ⟨fun _ => rfl, (List.append_nil _).symm⟩

theorem trans (h : Releases s s' as bs) (h' : Releases s' s'' as' bs') :
    Releases s s'' (as ++ as') (bs ++ bs') := by
  constructor
  · intro x
    rw [h'.cell, h.cell]
    by_cases hx : x ∈ as <;> by_cases hx' : x ∈ as' <;> simp [hx, hx']
  · rw [h'.freed, h.freed, List.append_assoc]

theorem node (s : Releasing) (a : ℕ) : Releases s (s.free (.node a)) [a] [.node a] := by
  constructor
  · intro x
    simp only [Releasing.heap_free_node, Memory.free_cell, List.mem_singleton]
  · rfl

/-- Releasing a block that is not a node of its own. -/
theorem part (s : Releasing) {b : Allocation} (hb : (s.free b).heap = s.heap) :
    Releases s (s.free b) [] [b] := by
  constructor
  · intro x
    rw [hb]
    rfl
  · rfl

theorem keeps (h : Releases s s' as bs) : Memory.Keeps (· ∉ as) s.heap s'.heap := by
  intro x hx
  rw [h.cell, if_neg hx]

end Releases

namespace Located

mutual
/-- The blocks of a tree in the order of the calls of `free`. -/
def released : Located → List Allocation
  | .nil => []
  | .scalar a (.string _) => [.string a, .node a]
  | .scalar a _ => [.node a]
  | .array a _ es => releasedElems a 0 es ++ [.node a]
  | .map a ms => releasedMembers a ms ++ [.node a]
def releasedElems (array : ℕ) : ℕ → List Located → List Allocation
  | _, [] => []
  | index, e :: es => e.released ++ (.elem array index :: releasedElems array (index + 1) es)
def releasedMembers (map : ℕ) : List (HashHandle ℕ × Located) → List Allocation
  | [] => []
  | (hd, v) :: ms =>
    (if ms.isEmpty then [.buckets map, .table map] else []) ++
      (v.released ++ ([.key hd.elt, .node hd.elt] ++ releasedMembers map ms))
end

/-- `free` releases `l` in any memory that holds it, and nothing else. -/
def Frees (free : Releasing → Ptr → Releasing) (l : Located) : Prop :=
  ∀ s : Releasing, In s.heap l → l.addrs.Nodup → Releases s (free s l.ptr) l.addrs l.released

theorem freeArrayNode_releases {free : Releasing → Ptr → Releasing} (array : ℕ)
    (es : List Located) (hf : ∀ e ∈ es, Frees free e) (index : ℕ) {s : Releasing}
    (he : ∀ e ∈ es, In s.heap e) (hnd : (addrsElems es).Nodup) :
    Releases s (Releasing.freeArrayNode free array index s (es.map ptr)) (addrsElems es)
      (releasedElems array index es) := by
  induction es generalizing index s with
  | nil => exact Releases.refl s
  | cons e es ih =>
    obtain ⟨hne, hnes, hdis⟩ := List.nodup_append.mp hnd
    have hfirst := hf e (List.mem_cons_self ..) s (he e (List.mem_cons_self ..)) hne
    have hstep := hfirst.trans
      (Releases.part (free s e.ptr) (Releasing.heap_free_elem _ array index))
    rw [List.append_nil] at hstep
    have hrest := ih (fun f hmem => hf f (List.mem_cons_of_mem _ hmem)) (index + 1)
      (s := (free s e.ptr).free (.elem array index)) (fun f hmem => ?_) hnes
    · have hall := hstep.trans hrest
      rw [List.append_assoc] at hall
      exact hall
    · apply (he f (List.mem_cons_of_mem _ hmem)).keeps
      intro x hx
      apply hstep.keeps x
      exact fun hxe => hdis x hxe x (mem_addrsElems hmem hx) rfl

theorem freeMapNode_releases {free : Releasing → Ptr → Releasing} (map : ℕ) (ms : Members)
    (hf : ∀ m ∈ ms, Frees free m.2) {s : Releasing}
    (hk : ∀ m ∈ ms, s.heap.cell m.1.elt = some (.keyValue m.1.key m.2.ptr))
    (hm : ∀ m ∈ ms, In s.heap m.2) (hnd : (addrsMembers ms).Nodup) :
    Releases s (Releasing.freeMapNode free map s (ms.map Prod.fst)) (addrsMembers ms)
      (releasedMembers map ms) := by
  induction ms generalizing s with
  | nil => exact Releases.refl s
  | cons m ms ih =>
    obtain ⟨hd, v⟩ := m
    obtain ⟨hnew, hrest⟩ := List.nodup_cons.mp hnd
    obtain ⟨hnv, hnms, hdis⟩ := List.nodup_append.mp hrest
    -- the table goes with the last item
    obtain ⟨t, ht, htable⟩ : ∃ t, t = (if (ms.map Prod.fst).isEmpty then
        (s.free (.buckets map)).free (.table map) else s) ∧
        Releases s t [] (if ms.isEmpty then [.buckets map, .table map] else []) := by
      by_cases hlast : ms = []
      · subst hlast
        exact ⟨(s.free (.buckets map)).free (.table map), rfl,
          (Releases.part s rfl).trans (Releases.part (s.free (.buckets map)) rfl)⟩
      · have hne : ms.isEmpty = false := by simpa using hlast
        have hne' : (ms.map Prod.fst).isEmpty = false := by simpa using hlast
        rw [hne, hne']
        exact ⟨s, rfl, Releases.refl s⟩
    have hheap : Memory.Keeps (fun _ => True) s.heap t.heap := by
      intro x _
      rw [htable.cell]
      rfl
    have hkv : t.heap.cell hd.elt = some (.keyValue hd.key v.ptr) :=
      (hheap _ trivial).trans (hk _ (List.mem_cons_self ..))
    have hv : In t.heap v := (hm _ (List.mem_cons_self ..)).keeps fun x _ => hheap x trivial
    have hvalue := hf _ (List.mem_cons_self ..) t hv hnv
    have hkey := Releases.part (free t v.ptr) (Releasing.heap_free_key _ hd.elt)
    have hnode := Releases.node ((free t v.ptr).free (.key hd.elt)) hd.elt
    have hstep := htable.trans (hvalue.trans (hkey.trans hnode))
    have hloop := ih (fun n hn => hf n (List.mem_cons_of_mem _ hn))
      (s := ((free t v.ptr).free (.key hd.elt)).free (.node hd.elt)) ?_ ?_ hnms
    · have hall := hstep.trans hloop
      simp only [List.nil_append, List.append_assoc] at hall
      simp only [List.map_cons, Releasing.freeMapNode, ← ht, kvValue_of_cell hkv]
      constructor
      · intro x
        rw [hall.cell]
        apply if_congr _ rfl rfl
        simp only [addrsMembers, List.mem_append, List.mem_cons, List.not_mem_nil]
        tauto
      · rw [hall.freed]
        simp only [releasedMembers, List.cons_append, List.nil_append]
    · intro n hn
      rw [hstep.keeps]
      · exact hk n (List.mem_cons_of_mem _ hn)
      · have hmem := mem_addrsMembers hn (x := n.1.elt) (Or.inl rfl)
        simp only [List.nil_append, List.mem_append, List.mem_singleton, not_or]
        exact ⟨fun hx => hdis _ hx _ hmem rfl, fun he => hnew (List.mem_append_right _ (he ▸ hmem))⟩
    · intro n hn
      apply (hm n (List.mem_cons_of_mem _ hn)).keeps
      intro x hx
      have hmem := mem_addrsMembers hn (Or.inr hx)
      apply hstep.keeps x
      simp only [List.nil_append, List.mem_append, List.mem_singleton, not_or]
      exact ⟨fun hxv => hdis _ hxv _ hmem rfl, fun he => hnew (List.mem_append_right _ (he ▸ hmem))⟩

theorem freeNode_frees (l : Located) (fuel : ℕ) (hf : l.height < fuel) :
    Frees (Releasing.freeNode fuel) l := by
  induction l generalizing fuel with
  | nil =>
    intro s _ _
    cases fuel with
    | zero => omega
    | succ fuel => exact Releases.refl s
  | scalar a v =>
    intro s hl _
    cases fuel with
    | zero => omega
    | succ fuel =>
      cases hl with
      | scalar hc =>
        simp only [ptr, Releasing.freeNode, hc]
        cases v with
        | string value =>
          exact (Releases.part s (Releasing.heap_free_string s a)).trans (Releases.node _ a)
        | null => exact Releases.node s a
        | boolean value => exact Releases.node s a
        | integer value => exact Releases.node s a
        | double value => exact Releases.node s a
  | array a len es ih =>
    intro s hl hnd
    cases fuel with
    | zero => omega
    | succ fuel =>
      simp only [height] at hf
      have hfrees : ∀ e ∈ es, Frees (Releasing.freeNode fuel) e := by
        intro e he
        have hle := height_elem he
        exact ih e he fuel (by omega)
      have hloop := freeArrayNode_releases a es hfrees 0 (fun e he => hl.elem he)
        (List.nodup_cons.mp hnd).2
      have hall := hloop.trans (Releases.node _ a)
      simp only [ptr, Releasing.freeNode, hl.arrayCell]
      constructor
      · intro x
        rw [hall.cell]
        apply if_congr _ rfl rfl
        simp only [addrs, List.mem_append, List.mem_cons, List.not_mem_nil]
        tauto
      · exact hall.freed
  | map a ms ih =>
    intro s hl hnd
    cases fuel with
    | zero => omega
    | succ fuel =>
      obtain ⟨kvs, hc, hi⟩ := hl.mapCell
      simp only [height] at hf
      have hfrees : ∀ m ∈ ms, Frees (Releasing.freeNode fuel) m.2 := by
        intro m hm
        have hle := height_member hm
        exact ih m hm fuel (by omega)
      have hloop := freeMapNode_releases a ms hfrees (fun m hm => (hl.member hm).1)
        (fun m hm => (hl.member hm).2) (List.nodup_cons.mp hnd).2
      have hall := hloop.trans (Releases.node _ a)
      simp only [ptr, Releasing.freeNode, hc, hi]
      constructor
      · intro x
        rw [hall.cell]
        apply if_congr _ rfl rfl
        simp only [addrs, List.mem_append, List.mem_cons, List.not_mem_nil]
        tauto
      · exact hall.freed

/-- A tree goes as a whole, and with it nothing else. -/
theorem ptFreeNode_cell {h : Heap} {l : Located} (hl : In h l) (hnd : l.addrs.Nodup) (x : ℕ) :
    (ptFreeNode h l.ptr).cell x = if x ∈ l.addrs then none else h.cell x := by
  have hr := freeNode_frees l _ (Nat.lt_succ_of_le hl.height_le) ⟨h, []⟩ hl hnd
  rw [← Releasing.heap_ptFreeNode]
  exact hr.cell x

theorem freed_ptFreeNode {h : Heap} {l : Located} (hl : In h l) (hnd : l.addrs.Nodup) :
    (Releasing.ptFreeNode h l.ptr).freed = l.released :=
  (freeNode_frees l _ (Nat.lt_succ_of_le hl.height_le) ⟨h, []⟩ hl hnd).freed

/-! ### Every block once -/

theorem releasedElems_perm {h : Heap} {array : ℕ} (es : List Located)
    (hp : ∀ e ∈ es, e.released.Perm (e.addrs.flatMap (blocksAt h))) (index : ℕ) :
    (releasedElems array index es).Perm
      ((List.range' index es.length).map (Allocation.elem array) ++
        (addrsElems es).flatMap (blocksAt h)) := by
  induction es generalizing index with
  | nil => exact List.Perm.refl _
  | cons e es ih =>
    have hfirst := hp e (List.mem_cons_self ..)
    have hrest := ih (fun f hf => hp f (List.mem_cons_of_mem _ hf)) (index + 1)
    simp only [releasedElems, List.length_cons, List.range'_succ, List.map_cons, addrsElems,
      List.flatMap_append]
    apply (hfirst.append (hrest.cons _)).trans
    rw [List.perm_iff_count]
    intro b
    simp only [List.count_append, List.count_cons, List.cons_append]
    omega

theorem releasedMembers_perm {h : Heap} {map : ℕ} (ms : Members)
    (hk : ∀ m ∈ ms, h.cell m.1.elt = some (.keyValue m.1.key m.2.ptr))
    (hp : ∀ m ∈ ms, m.2.released.Perm (m.2.addrs.flatMap (blocksAt h))) :
    (releasedMembers map ms).Perm
      ((if ms.isEmpty then [] else [.buckets map, .table map]) ++
        (addrsMembers ms).flatMap (blocksAt h)) := by
  induction ms with
  | nil => exact List.Perm.refl _
  | cons m ms ih =>
    obtain ⟨hd, v⟩ := m
    have hfirst := hp _ (List.mem_cons_self ..)
    have hrest := ih (fun n hn => hk n (List.mem_cons_of_mem _ hn))
      fun n hn => hp n (List.mem_cons_of_mem _ hn)
    have hkv : blocksAt h hd.elt = [.node hd.elt, .key hd.elt] := by
      unfold blocksAt
      rw [hk _ (List.mem_cons_self ..)]
      rfl
    simp only [releasedMembers, addrsMembers, List.flatMap_cons, List.flatMap_append, hkv]
    apply (List.Perm.append_left _ (hfirst.append (hrest.append_left _))).trans
    rw [List.perm_iff_count]
    intro b
    cases ms <;> simp only [List.count_append, List.count_cons, List.isEmpty_nil,
      List.isEmpty_cons, List.count_nil, Bool.false_eq_true, if_true, if_false] <;> omega

theorem released_perm {h : Heap} {l : Located} (hl : In h l) :
    l.released.Perm (l.addrs.flatMap (blocksAt h)) := by
  induction hl with
  | nil => exact List.Perm.refl _
  | @scalar a v hc =>
    have hb : blocksAt h a = Node.blocks a (.scalar v) := by
      unfold blocksAt
      rw [hc]
      rfl
    simp only [addrs, List.flatMap_cons, List.flatMap_nil, List.append_nil, hb]
    cases v with
    | string value => exact List.Perm.swap _ _ _
    | null => exact List.Perm.refl _
    | boolean value => exact List.Perm.refl _
    | integer value => exact List.Perm.refl _
    | double value => exact List.Perm.refl _
  | @array a len es hc he ih =>
    have hb : blocksAt h a = .node a :: (List.range' 0 es.length).map (Allocation.elem a) := by
      unfold blocksAt
      rw [hc]
      simp only [Option.elim_some, Node.blocks, List.length_map]
    simp only [addrs, released, List.flatMap_cons, hb]
    apply ((releasedElems_perm es ih 0).append_right _).trans
    rw [List.perm_iff_count]
    intro b
    simp only [List.count_append, List.count_cons, List.count_nil]
    omega
  | @map a kvs ms hc hi hk hm ih =>
    have hb : blocksAt h a =
        .node a :: if ms.isEmpty then [] else [.buckets a, .table a] := by
      unfold blocksAt
      rw [hc]
      simp only [Option.elim_some, Node.blocks, hi]
      cases ms <;> rfl
    simp only [addrs, released, List.flatMap_cons, hb]
    apply ((releasedMembers_perm ms hk ih).append_right _).trans
    rw [List.perm_iff_count]
    intro b
    simp only [List.count_append, List.count_cons, List.count_nil]
    omega

theorem nodup_released {h : Heap} {l : Located} (hl : In h l) (hnd : l.addrs.Nodup) :
    l.released.Nodup :=
  (released_perm hl).nodup_iff.mpr (nodup_flatMap_blocksAt h hnd)

theorem node_mem_released {h : Heap} {l : Located} (hl : In h l) {x : ℕ} (hx : x ∈ l.addrs) :
    Allocation.node x ∈ l.released := by
  apply (released_perm hl).mem_iff.mpr
  obtain ⟨n, hn⟩ := hl.live hx
  exact List.mem_flatMap.mpr ⟨x, hx, node_mem_blocksAt hn⟩

/-! ### What a shared node does -/

/-- Since `h` cells have gone only by recorded calls of `free`. -/
structure Since (h : Heap) (s : Releasing) : Prop where
  shrunk : Memory.Shrunk h s.heap
  gone : ∀ x n, h.cell x = some n → s.heap.cell x = none → Allocation.node x ∈ s.freed

theorem Since.free {h : Heap} {s : Releasing} (hs : Since h s) (b : Allocation) :
    Since h (s.free b) := by
  have hsame : (s.free b).heap = s.heap → Since h (s.free b) := by
    intro he
    constructor
    · rw [he]
      exact hs.shrunk
    · intro x n hn hgone
      rw [he] at hgone
      exact List.mem_append_left _ (hs.gone x n hn hgone)
  cases b with
  | node a =>
    constructor
    · exact hs.shrunk.trans (Memory.shrunk_free _ a)
    · intro x n hn hgone
      rw [Releasing.heap_free_node, Memory.free_cell] at hgone
      by_cases hx : x = a
      · rw [hx]
        exact List.mem_append_right _ (List.mem_singleton_self _)
      · rw [if_neg hx] at hgone
        exact List.mem_append_left _ (hs.gone x n hn hgone)
  | string a => exact hsame rfl
  | elem array index => exact hsame rfl
  | key kv => exact hsame rfl
  | buckets map => exact hsame rfl
  | table map => exact hsame rfl

theorem Since.freeNode {h : Heap} {s : Releasing} (hs : Since h s) (fuel : ℕ) (p : Ptr) :
    Since h (Releasing.freeNode fuel s p) :=
  Releasing.freeNode_induction (fun _ b ht => ht.free b) fuel hs p

/-- A node that is released only once was there until then. -/
theorem Since.cell {h : Heap} {s : Releasing} (hs : Since h s) {x : ℕ} {n : Node}
    (hn : h.cell x = some n) (hx : Allocation.node x ∉ s.freed) : s.heap.cell x = some n := by
  rcases hs.shrunk.2 x with he | he
  · rw [he, hn]
  · exact absurd (hs.gone x n hn he) hx

theorem In.of_shrunk {h h' : Heap} {l : Located} (hl : In h' l) (hs : Memory.Shrunk h h') :
    In h l := by
  apply hl.keeps
  intro x hx
  obtain ⟨n, hn⟩ := hl.live hx
  rw [hn]
  exact hs.cell_eq_some hn

/-- From a tree of `h`, a walk that releases nothing twice meets every node of it alive. -/
def Meets (h : Heap) (free : Releasing → Ptr → Releasing) (l : Located) : Prop :=
  ∀ s, Since h s → (free s l.ptr).freed.Nodup → In s.heap l ∧ l.addrs.Nodup

theorem prefix_free {s t : Releasing} (ht : s.freed <+: t.freed) (b : Allocation) :
    s.freed <+: (t.free b).freed := ht.trans (List.prefix_append _ _)

theorem prefix_freeNode (fuel : ℕ) {s t : Releasing} (ht : s.freed <+: t.freed) (p : Ptr) :
    s.freed <+: (Releasing.freeNode fuel t p).freed :=
  Releasing.freeNode_induction (P := fun t => s.freed <+: t.freed)
    (fun _ b ht => prefix_free ht b) fuel ht p

theorem shrunk_freeNode (fuel : ℕ) (s : Releasing) (p : Ptr) :
    Memory.Shrunk s.heap (Releasing.freeNode fuel s p).heap := by
  rw [Releasing.heap_freeNode]
  exact freeNode_shrunk fuel s.heap p

theorem freeArrayNode_meets {h : Heap} {fuel array : ℕ} (es : List Located)
    (hm : ∀ e ∈ es, Meets h (Releasing.freeNode fuel) e)
    (hf : ∀ e ∈ es, Frees (Releasing.freeNode fuel) e) (index : ℕ) {s : Releasing} (hs : Since h s)
    (hn : (Releasing.freeArrayNode (Releasing.freeNode fuel) array index s
      (es.map ptr)).freed.Nodup) :
    (∀ e ∈ es, In s.heap e) ∧ (addrsElems es).Nodup := by
  induction es generalizing index s with
  | nil => exact ⟨fun e he => absurd he List.not_mem_nil, List.nodup_nil⟩
  | cons e es ih =>
    have hpre := Releasing.freeArrayNode_induction
      (P := fun t => (Releasing.freeNode fuel s e.ptr).freed <+: t.freed)
      (fun _ b ht => prefix_free ht b) (fun _ p ht => prefix_freeNode fuel ht p) array (index + 1)
      (es.map ptr) (s := (Releasing.freeNode fuel s e.ptr).free (.elem array index))
      (List.prefix_append _ _)
    obtain ⟨hin, hne⟩ := hm e (List.mem_cons_self ..) s hs (hn.sublist hpre.sublist)
    have hfirst := hf e (List.mem_cons_self ..) s hin hne
    obtain ⟨hrest, hnes⟩ := ih (fun f hmem => hm f (List.mem_cons_of_mem _ hmem))
      (fun f hmem => hf f (List.mem_cons_of_mem _ hmem)) (index + 1)
      ((hs.freeNode fuel e.ptr).free (.elem array index)) hn
    constructor
    · intro f hmem
      rcases List.mem_cons.mp hmem with rfl | hmem
      · exact hin
      · exact (hrest f hmem).of_shrunk (shrunk_freeNode fuel s e.ptr)
    · apply List.nodup_append.mpr ⟨hne, hnes, _⟩
      intro x hx y hy hxy
      obtain ⟨f, hmem, hyf⟩ := exists_of_mem_addrsElems hy
      obtain ⟨n, hlive⟩ := (hrest f hmem).live hyf
      have hgone := hfirst.cell y
      rw [if_pos (hxy ▸ hx)] at hgone
      rw [Releasing.heap_free_elem, hgone] at hlive
      cases hlive

theorem freeMapNode_meets {h : Heap} {fuel map : ℕ} (ms : Members)
    (hk : ∀ m ∈ ms, h.cell m.1.elt = some (.keyValue m.1.key m.2.ptr))
    (hm : ∀ m ∈ ms, Meets h (Releasing.freeNode fuel) m.2)
    (hf : ∀ m ∈ ms, Frees (Releasing.freeNode fuel) m.2) {s : Releasing} (hs : Since h s)
    (hn : (Releasing.freeMapNode (Releasing.freeNode fuel) map s
      (ms.map Prod.fst)).freed.Nodup) :
    (∀ m ∈ ms, s.heap.cell m.1.elt = some (.keyValue m.1.key m.2.ptr) ∧ In s.heap m.2) ∧
      (addrsMembers ms).Nodup := by
  induction ms generalizing s with
  | nil => exact ⟨fun m hm => absurd hm List.not_mem_nil, List.nodup_nil⟩
  | cons m ms ih =>
    obtain ⟨hd, v⟩ := m
    obtain ⟨t, ht, hheap, hst⟩ : ∃ t, t = (if (ms.map Prod.fst).isEmpty then
        (s.free (.buckets map)).free (.table map) else s) ∧ t.heap = s.heap ∧ Since h t := by
      by_cases hlast : (ms.map Prod.fst).isEmpty
      · rw [if_pos hlast]
        exact ⟨_, rfl, rfl, (hs.free _).free _⟩
      · rw [if_neg hlast]
        exact ⟨s, rfl, rfl, hs⟩
    simp only [List.map_cons, Releasing.freeMapNode, ← ht] at hn
    have hpre := Releasing.freeMapNode_induction
      (P := fun u => (((Releasing.freeNode fuel t (kvValue t.heap hd.elt)).free
        (.key hd.elt)).free (.node hd.elt)).freed <+: u.freed)
      (fun _ b hu => prefix_free hu b) (fun _ p hu => prefix_freeNode fuel hu p) map
      (ms.map Prod.fst) (List.prefix_refl _)
    have hstep := hn.sublist hpre.sublist
    simp only [Releasing.freed_free, List.append_assoc] at hstep
    obtain ⟨hvalue, -, hdis⟩ := List.nodup_append.mp hstep
    -- the member is released after its value, and only then
    have hnode : Allocation.node hd.elt ∉ (Releasing.freeNode fuel t (kvValue t.heap hd.elt)).freed :=
      fun hmem => hdis _ hmem _ (by simp) rfl
    have hkv : t.heap.cell hd.elt = some (.keyValue hd.key v.ptr) := by
      apply hst.cell (hk _ (List.mem_cons_self ..))
      exact fun hmem => hnode ((prefix_freeNode fuel (List.prefix_refl _) _).subset hmem)
    rw [kvValue_of_cell hkv] at hn hvalue hnode
    obtain ⟨hin, hnv⟩ := hm _ (List.mem_cons_self ..) t hst hvalue
    have hfirst := hf _ (List.mem_cons_self ..) t hin hnv
    have hself : hd.elt ∉ v.addrs := by
      intro hmem
      apply hnode
      rw [hfirst.freed]
      exact List.mem_append_right _ (node_mem_released hin hmem)
    obtain ⟨hrest, hnms⟩ := ih (fun n hn => hk n (List.mem_cons_of_mem _ hn))
      (fun n hn => hm n (List.mem_cons_of_mem _ hn)) (fun n hn => hf n (List.mem_cons_of_mem _ hn))
      (((hst.freeNode fuel v.ptr).free (.key hd.elt)).free (.node hd.elt)) hn
    have hcell := hfirst.trans ((Releases.part (Releasing.freeNode fuel t v.ptr)
      (Releasing.heap_free_key _ hd.elt)).trans (Releases.node _ hd.elt))
    have hgone : ∀ x ∈ addrsMembers ms, x ∉ v.addrs ∧ x ≠ hd.elt := by
      intro x hx
      obtain ⟨n, hmem, hxn⟩ := exists_of_mem_addrsMembers hx
      have hlive : (((Releasing.freeNode fuel t v.ptr).free (.key hd.elt)).free
          (.node hd.elt)).heap.cell x ≠ none := by
        rcases hxn with rfl | hxn
        · rw [(hrest n hmem).1]
          exact Option.some_ne_none _
        · obtain ⟨c, hc⟩ := (hrest n hmem).2.live hxn
          rw [hc]
          exact Option.some_ne_none _
      rw [hcell.cell] at hlive
      simp only [List.nil_append, List.mem_append, List.mem_singleton] at hlive
      split at hlive
      · exact absurd rfl hlive
      · next hx => exact not_or.mp hx
    rw [← hheap]
    constructor
    · intro n hmem
      rcases List.mem_cons.mp hmem with rfl | hmem
      · exact ⟨hkv, hin⟩
      · have hsh : Memory.Shrunk t.heap (((Releasing.freeNode fuel t v.ptr).free
            (.key hd.elt)).free (.node hd.elt)).heap :=
          (shrunk_freeNode fuel t v.ptr).trans (Memory.shrunk_free _ _)
        exact ⟨hsh.cell_eq_some (hrest n hmem).1, (hrest n hmem).2.of_shrunk hsh⟩
    · simp only [addrsMembers]
      apply List.nodup_cons.mpr
      constructor
      · rw [List.mem_append, not_or]
        exact ⟨hself, fun hmem => (hgone _ hmem).2 rfl⟩
      · apply List.nodup_append.mpr ⟨hnv, hnms, _⟩
        exact fun x hx y hy hxy => (hgone y hy).1 (hxy ▸ hx)

/-- The node itself comes last, so if it is not released twice it was there at first. -/
theorem Since.root {h : Heap} {s : Releasing} (hs : Since h s) {fuel a : ℕ} {n : Node}
    (hc : h.cell a = some n) (hn : (Releasing.freeNode (fuel + 1) s (some a)).freed.Nodup) :
    s.heap.cell a = some n := by
  apply hs.cell hc
  intro hmem
  obtain ⟨u, hu, hpre⟩ : ∃ u : Releasing,
      Releasing.freeNode (fuel + 1) s (some a) = u.free (.node a) ∧ s.freed <+: u.freed := by
    simp only [Releasing.freeNode]
    split
    · exact ⟨_, rfl, Releasing.freeMapNode_induction (P := fun t => s.freed <+: t.freed)
        (fun _ b ht => prefix_free ht b) (fun _ p ht => prefix_freeNode fuel ht p) a _
        (List.prefix_refl _)⟩
    · exact ⟨_, rfl, Releasing.freeArrayNode_induction (P := fun t => s.freed <+: t.freed)
        (fun _ b ht => prefix_free ht b) (fun _ p ht => prefix_freeNode fuel ht p) a 0 _
        (List.prefix_refl _)⟩
    · exact ⟨_, rfl, prefix_free (List.prefix_refl _) _⟩
    · exact ⟨_, rfl, List.prefix_refl _⟩
  rw [hu, Releasing.freed_free] at hn
  exact (List.nodup_append.mp hn).2.2 _ (hpre.subset hmem) _ (List.mem_singleton_self _) rfl

theorem freeNode_meets {h : Heap} {l : Located} (hl : In h l) (fuel : ℕ) (hf : l.height < fuel) :
    Meets h (Releasing.freeNode fuel) l := by
  induction hl generalizing fuel with
  | nil => exact fun s _ _ => ⟨.nil, List.nodup_nil⟩
  | @scalar a v hc =>
    intro s hs hn
    cases fuel with
    | zero => omega
    | succ fuel => exact ⟨.scalar (hs.root hc hn), List.nodup_singleton a⟩
  | @array a len es hc he ih =>
    intro s hs hn
    cases fuel with
    | zero => omega
    | succ fuel =>
      have hroot := hs.root hc hn
      simp only [height] at hf
      have hlt : ∀ e ∈ es, e.height < fuel := by
        intro e hmem
        have hle := height_elem hmem
        omega
      have hfrees : ∀ e ∈ es, Frees (Releasing.freeNode fuel) e :=
        fun e hmem => freeNode_frees e fuel (hlt e hmem)
      simp only [ptr, Releasing.freeNode, hroot] at hn
      rw [Releasing.freed_free] at hn
      obtain ⟨hloop, -, hdis⟩ := List.nodup_append.mp hn
      obtain ⟨hin, hnes⟩ := freeArrayNode_meets es (fun e hmem => ih e hmem fuel (hlt e hmem))
        hfrees 0 hs hloop
      have hall := freeArrayNode_releases a es hfrees 0 hin hnes
      have hself : a ∉ addrsElems es := by
        intro hmem
        obtain ⟨e, hmem, hae⟩ := exists_of_mem_addrsElems hmem
        obtain ⟨n, hlive⟩ := (hin e hmem).live hae
        have hnode : Allocation.node a ∈ releasedElems a 0 es := by
          apply (releasedElems_perm es (fun f hf => released_perm (hin f hf)) 0).mem_iff.mpr
          apply List.mem_append_right
          rw [List.mem_flatMap]
          exact ⟨a, mem_addrsElems hmem hae, node_mem_blocksAt hlive⟩
        rw [hall.freed] at hdis
        exact hdis _ (List.mem_append_right _ hnode) _ (List.mem_singleton_self _) rfl
      exact ⟨.array hroot hin, List.nodup_cons.mpr ⟨hself, hnes⟩⟩
  | @map a kvs ms hc hi hk hm ih =>
    intro s hs hn
    cases fuel with
    | zero => omega
    | succ fuel =>
      have hroot := hs.root hc hn
      simp only [height] at hf
      have hlt : ∀ m ∈ ms, m.2.height < fuel := by
        intro m hmem
        have hle := height_member hmem
        omega
      have hfrees : ∀ m ∈ ms, Frees (Releasing.freeNode fuel) m.2 :=
        fun m hmem => freeNode_frees m.2 fuel (hlt m hmem)
      simp only [ptr, Releasing.freeNode, hroot, hi] at hn
      rw [Releasing.freed_free] at hn
      obtain ⟨hloop, -, hdis⟩ := List.nodup_append.mp hn
      obtain ⟨hin, hnms⟩ := freeMapNode_meets ms hk
        (fun m hmem => ih m hmem fuel (hlt m hmem)) hfrees hs hloop
      have hall := freeMapNode_releases a ms hfrees (fun m hmem => (hin m hmem).1)
        (fun m hmem => (hin m hmem).2) hnms
      have hself : a ∉ addrsMembers ms := by
        intro hmem
        have hnode : Allocation.node a ∈ releasedMembers a ms := by
          apply (releasedMembers_perm ms (fun m hm => (hin m hm).1)
            (fun m hm => released_perm (hin m hm).2)).mem_iff.mpr
          apply List.mem_append_right
          rw [List.mem_flatMap]
          exact ⟨a, hmem, node_mem_blocksAt hroot⟩
        rw [hall.freed] at hdis
        exact hdis _ (List.mem_append_right _ hnode) _ (List.mem_singleton_self _) rfl
      exact ⟨.map hroot hi (fun m hmem => (hin m hmem).1) fun m hmem => (hin m hmem).2,
        List.nodup_cons.mpr ⟨hself, hnms⟩⟩

/-- What `pt_free_node` releases: the blocks of the tree's nodes, each of them once, members and
elements in their order, and no cell but these goes. A block is released twice exactly when
the tree has a node twice. -/
theorem ptFreeNode_releases {h : Heap} {l : Located} (hl : In h l) :
    (Releasing.ptFreeNode h l.ptr).heap = ptFreeNode h l.ptr ∧
      ((Releasing.ptFreeNode h l.ptr).freed.Nodup ↔ l.addrs.Nodup) ∧
      (l.addrs.Nodup → (Releasing.ptFreeNode h l.ptr).freed = l.released ∧
        (Releasing.ptFreeNode h l.ptr).freed.Perm (l.addrs.flatMap (blocksAt h)) ∧
        ∀ x, (ptFreeNode h l.ptr).cell x = if x ∈ l.addrs then none else h.cell x) := by
  have hlt : l.height < h.next + 1 := Nat.lt_succ_of_le hl.height_le
  have hstart : Since h ⟨h, []⟩ :=
    ⟨Memory.Shrunk.refl h, fun x n hn hgone => absurd (hn.symm.trans hgone) (Option.some_ne_none n)⟩
  constructor
  · exact Releasing.heap_ptFreeNode h l.ptr
  constructor
  · constructor
    · exact fun hn => (freeNode_meets hl _ hlt ⟨h, []⟩ hstart hn).2
    · intro hnd
      rw [freed_ptFreeNode hl hnd]
      exact nodup_released hl hnd
  · intro hnd
    rw [freed_ptFreeNode hl hnd]
    exact ⟨rfl, released_perm hl, ptFreeNode_cell hl hnd⟩

end Located
end

section
local instance releaseFcn : HashFcn := hashMurFcn

namespace Located

/-- `{"k": ["s"]}` -/
def nestedEdits : List Edit :=
  [.mapNew, .arrayNew, .stringNew [115], .arrayPushBack (some 1) (some 2),
    .mapSet (some 0) (some [107]) (some 1)]

/-- An integer that is pushed twice. -/
def twiceEdits : List Edit :=
  [.arrayNew, .integerNew 5, .arrayPushBack (some 0) (some 1), .arrayPushBack (some 0) (some 1)]

/-- Of a map in a map nothing is left, and a node that an array has twice is released twice. -/
theorem ptFreeNode_releases_nested :
    ((Releasing.ptFreeNode (build nestedEdits) (some 0)).freed =
        [.buckets 0, .table 0, .string 2, .node 2, .elem 1 0, .node 1, .key 3, .node 3, .node 0] ∧
      ∀ x, (ptFreeNode (build nestedEdits) (some 0)).cell x = none) ∧
    ¬(Releasing.ptFreeNode (build twiceEdits) (some 0)).freed.Nodup := by
  have hnested : In (build nestedEdits)
      (.map 0 [(⟨3, [107], HashFcn.hash [107]⟩, .array 1 1 [.scalar 2 (.string [115])])]) := by
    refine .map rfl rfl ?_ ?_
    · intro m hm
      rw [List.mem_singleton.mp hm]
      rfl
    · intro m hm
      rw [List.mem_singleton.mp hm]
      refine .array rfl fun e he => ?_
      rw [List.mem_singleton.mp he]
      exact .scalar rfl
  have htwice : In (build twiceEdits)
      (.array 0 2 [.scalar 1 (.integer 5), .scalar 1 (.integer 5)]) := by
    apply In.array rfl
    intro e he
    simp only [List.mem_cons, List.not_mem_nil, or_false, or_self] at he
    rw [he]
    exact .scalar rfl
  obtain ⟨hfreed, -, hcell⟩ := (ptFreeNode_releases hnested).2.2 (by decide)
  refine ⟨⟨hfreed, fun x => (hcell x).trans ?_⟩, fun hn => ?_⟩
  · split
    · rfl
    · next hx =>
      have hge : (build nestedEdits).next ≤ x := by
        simp only [addrs, addrsMembers, addrsElems, List.mem_cons, List.mem_append] at hx
        show 4 ≤ x
        omega
      exact (build nestedEdits).unused x hge
  · exact absurd ((ptFreeNode_releases htwice).2.1.mp hn) (by decide)

end Located
end
end Pillowtalk
