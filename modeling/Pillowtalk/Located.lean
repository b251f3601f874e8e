import Pillowtalk.Tree
import Pillowtalk.Edit

/-!
# Trees as they lie in memory

A located tree carries the address of every node of a tree. `In h l` says that
the memory `h` holds exactly these nodes there, so what a pointer stands for
(`tree`), where it points (`ptr`) and which cells it owns (`addrs`) are all
functions of one value, and an in-place change of the memory is a change of
the located tree.
-/

namespace Pillowtalk
open Addressed

inductive Located where
  | nil
  | scalar (a : ℕ) (v : Scalar)
  | array (a : ℕ) (len : UInt32) (elems : List Located)
  | map (a : ℕ) (members : List (HashHandle ℕ × Located))

namespace Located

abbrev Members := List (HashHandle ℕ × Located)

@[elab_as_elim, induction_eliminator]
theorem ind {motive : Located → Prop} (nil : motive .nil)
    (scalar : ∀ a v, motive (.scalar a v))
    (array : ∀ a len es, (∀ e ∈ es, motive e) → motive (.array a len es))
    (map : ∀ a ms, (∀ m ∈ ms, motive m.2) → motive (.map a ms)) : ∀ l, motive l
  | .nil => nil
  | .scalar a v => scalar a v
  | .array a len es => array a len es fun e _ => ind nil scalar array map e
  | .map a ms => map a ms fun m _ => ind nil scalar array map m.2
termination_by l => sizeOf l
decreasing_by
  · have hlt := List.sizeOf_lt_of_mem ‹e ∈ es›
    simp only [Located.array.sizeOf_spec]
    omega
  · have hlt := List.sizeOf_lt_of_mem ‹m ∈ ms›
    obtain ⟨hd, v⟩ := m
    simp only [Prod.mk.sizeOf_spec, Located.map.sizeOf_spec] at hlt ⊢
    omega

def ptr : Located → Ptr
  | .nil => none
  | .scalar a _ => some a
  | .array a _ _ => some a
  | .map a _ => some a

mutual
def addrs : Located → List ℕ
  | .nil => []
  | .scalar a _ => [a]
  | .array a _ es => a :: addrsElems es
  | .map a ms => a :: addrsMembers ms
def addrsElems : List Located → List ℕ
  | [] => []
  | e :: es => e.addrs ++ addrsElems es
def addrsMembers : List (HashHandle ℕ × Located) → List ℕ
  | [] => []
  | (hd, v) :: ms => hd.elt :: (v.addrs ++ addrsMembers ms)
end

mutual
def tree : Located → Tree
  | .nil => .nil
  | .scalar _ v => .scalar v
  | .array _ len es => .array len (treeElems es)
  | .map _ ms => .map (treeMembers ms)
def treeElems : List Located → List Tree
  | [] => []
  | e :: es => e.tree :: treeElems es
def treeMembers : List (HashHandle ℕ × Located) → List (Bytes × Tree)
  | [] => []
  | (hd, v) :: ms => (hd.key, v.tree) :: treeMembers ms
end

mutual
/-- The nesting of containers, which is how deep a recursion over the nodes goes. -/
def height : Located → ℕ
  | .nil => 0
  | .scalar _ _ => 0
  | .array _ _ es => heightElems es + 1
  | .map _ ms => heightMembers ms + 1
def heightElems : List Located → ℕ
  | [] => 0
  | e :: es => max e.height (heightElems es)
def heightMembers : List (HashHandle ℕ × Located) → ℕ
  | [] => 0
  | (_, v) :: ms => max v.height (heightMembers ms)
end

theorem addrsElems_append (es fs : List Located) :
    addrsElems (es ++ fs) = addrsElems es ++ addrsElems fs := by
  induction es with
  | nil => rfl
  | cons e es ih => simp only [List.cons_append, addrsElems, ih, List.append_assoc]

theorem addrsMembers_append (ms ns : Members) :
    addrsMembers (ms ++ ns) = addrsMembers ms ++ addrsMembers ns := by
  induction ms with
  | nil => rfl
  | cons m ms ih =>
    obtain ⟨hd, v⟩ := m
    simp only [List.cons_append, addrsMembers, ih, List.append_assoc]

theorem treeElems_eq_map (es : List Located) : treeElems es = es.map tree := by
  induction es with
  | nil => rfl
  | cons e es ih => simp only [treeElems, List.map_cons, ih]

theorem treeElems_append (es fs : List Located) :
    treeElems (es ++ fs) = treeElems es ++ treeElems fs := by
  simp only [treeElems_eq_map, List.map_append]

theorem treeMembers_eq_map (ms : Members) :
    treeMembers ms = ms.map fun m => (m.1.key, m.2.tree) := by
  induction ms with
  | nil => rfl
  | cons m ms ih =>
    obtain ⟨hd, v⟩ := m
    simp only [treeMembers, List.map_cons, ih]

theorem treeMembers_append (ms ns : Members) :
    treeMembers (ms ++ ns) = treeMembers ms ++ treeMembers ns := by
  simp only [treeMembers_eq_map, List.map_append]

theorem keys_treeMembers (ms : Members) :
    Ordered.keys (treeMembers ms) = ms.map fun m => m.1.key := by
  rw [treeMembers_eq_map, Ordered.keys, List.map_map]
  rfl

theorem mem_addrsElems {es : List Located} {e : Located} (he : e ∈ es) {x : ℕ}
    (hx : x ∈ e.addrs) : x ∈ addrsElems es := by
  obtain ⟨pre, post, rfl⟩ := List.append_of_mem he
  rw [addrsElems_append]
  exact List.mem_append_right _ (List.mem_append_left _ hx)

theorem mem_addrsMembers {ms : Members} {m : HashHandle ℕ × Located} (hm : m ∈ ms) {x : ℕ}
    (hx : x = m.1.elt ∨ x ∈ m.2.addrs) : x ∈ addrsMembers ms := by
  obtain ⟨pre, post, rfl⟩ := List.append_of_mem hm
  obtain ⟨hd, v⟩ := m
  rw [addrsMembers_append]
  refine List.mem_append_right _ ?_
  rcases hx with hx | hx
  · exact hx ▸ List.mem_cons_self ..
  · exact List.mem_cons_of_mem _ (List.mem_append_left _ hx)

theorem ptr_mem_addrs {l : Located} {a : ℕ} (h : l.ptr = some a) : a ∈ l.addrs := by
  cases l with
  | nil => cases h
  | scalar b v => cases h; exact List.mem_cons_self ..
  | array b len es => cases h; exact List.mem_cons_self ..
  | map b ms => cases h; exact List.mem_cons_self ..

theorem ptr_eq_none {l : Located} : l.ptr = none ↔ l = .nil := by
  cases l <;> simp [ptr]

theorem tree_eq_nil {l : Located} : l.tree = .nil ↔ l = .nil := by
  cases l <;> simp [tree]

theorem tree_eq_map {l : Located} {ms : List (Bytes × Tree)} (h : l.tree = .map ms) :
    ∃ a ns, l = .map a ns ∧ treeMembers ns = ms := by
  cases l with
  | map a ns => exact ⟨a, ns, rfl, by simpa [tree] using h⟩
  | nil => simp [tree] at h
  | scalar a v => simp [tree] at h
  | array a len es => simp [tree] at h

theorem exists_of_mem_addrsElems {es : List Located} {x : ℕ} (h : x ∈ addrsElems es) :
    ∃ e ∈ es, x ∈ e.addrs := by
  induction es with
  | nil => cases h
  | cons e es ih =>
    rcases List.mem_append.mp h with h | h
    · exact ⟨e, List.mem_cons_self .., h⟩
    · obtain ⟨f, hf, hx⟩ := ih h
      exact ⟨f, List.mem_cons_of_mem _ hf, hx⟩

theorem exists_of_mem_addrsMembers {ms : Members} {x : ℕ} (h : x ∈ addrsMembers ms) :
    ∃ m ∈ ms, x = m.1.elt ∨ x ∈ m.2.addrs := by
  induction ms with
  | nil => cases h
  | cons m ms ih =>
    obtain ⟨hd, v⟩ := m
    rcases List.mem_cons.mp h with h | h
    · exact ⟨_, List.mem_cons_self .., Or.inl h⟩
    · rcases List.mem_append.mp h with h | h
      · exact ⟨_, List.mem_cons_self .., Or.inr h⟩
      · obtain ⟨n, hn, hx⟩ := ih h
        exact ⟨n, List.mem_cons_of_mem _ hn, hx⟩

theorem height_elem {es : List Located} {e : Located} (he : e ∈ es) :
    e.height ≤ heightElems es := by
  induction es with
  | nil => cases he
  | cons f es ih =>
    simp only [heightElems]
    rcases List.mem_cons.mp he with rfl | he
    · exact le_max_left _ _
    · exact le_max_of_le_right (ih he)

theorem height_member {ms : Members} {m : HashHandle ℕ × Located} (hm : m ∈ ms) :
    m.2.height ≤ heightMembers ms := by
  induction ms with
  | nil => cases hm
  | cons n ms ih =>
    simp only [heightMembers]
    rcases List.mem_cons.mp hm with rfl | hm
    · exact le_max_left _ _
    · exact le_max_of_le_right (ih hm)

theorem exists_heightElems (es : List Located) :
    heightElems es = 0 ∨ ∃ e ∈ es, e.height = heightElems es := by
  induction es with
  | nil => exact Or.inl rfl
  | cons e es ih =>
    simp only [heightElems]
    rcases le_total (heightElems es) e.height with hle | hle
    · exact Or.inr ⟨e, List.mem_cons_self .., (max_eq_left hle).symm⟩
    · rw [max_eq_right hle]
      rcases ih with hz | ⟨f, hf, hh⟩
      · exact Or.inl hz
      · exact Or.inr ⟨f, List.mem_cons_of_mem _ hf, hh⟩

theorem exists_heightMembers (ms : Members) :
    heightMembers ms = 0 ∨ ∃ m ∈ ms, m.2.height = heightMembers ms := by
  induction ms with
  | nil => exact Or.inl rfl
  | cons m ms ih =>
    simp only [heightMembers]
    rcases le_total (heightMembers ms) m.2.height with hle | hle
    · exact Or.inr ⟨m, List.mem_cons_self .., (max_eq_left hle).symm⟩
    · rw [max_eq_right hle]
      rcases ih with hz | ⟨n, hn, hh⟩
      · exact Or.inl hz
      · exact Or.inr ⟨n, List.mem_cons_of_mem _ hn, hh⟩

theorem generateElems_eq {generate : Ptr → List GenCall} {es : List Located}
    (hg : ∀ e ∈ es, generate e.ptr = e.tree.calls) :
    generateElems generate (es.map ptr) = Tree.callsElems (treeElems es) := by
  induction es with
  | nil => rfl
  | cons e es ih =>
    simp only [List.map_cons, generateElems, treeElems, Tree.callsElems]
    rw [hg e (List.mem_cons_self ..), ih fun f hf => hg f (List.mem_cons_of_mem _ hf)]

/-! ### A located tree in a memory -/

variable [HashFcn]

inductive In (h : Heap) : Located → Prop where
  | nil : In h .nil
  | scalar {a : ℕ} {v : Scalar} (hc : h.cell a = some (.scalar v)) : In h (.scalar a v)
  | array {a : ℕ} {len : UInt32} {es : List Located}
      (hc : h.cell a = some (.array (es.map ptr) len)) (he : ∀ e ∈ es, In h e) :
      In h (.array a len es)
  | map {a : ℕ} {kvs : Uthash ℕ} {ms : List (HashHandle ℕ × Located)}
      (hc : h.cell a = some (.map kvs)) (hi : kvs.items = ms.map Prod.fst)
      (hk : ∀ m ∈ ms, h.cell m.1.elt = some (.keyValue m.1.key m.2.ptr))
      (hm : ∀ m ∈ ms, In h m.2) : In h (.map a ms)

theorem keys_of_items {kvs : Uthash ℕ} {ms : Members} (hi : kvs.items = ms.map Prod.fst) :
    Ordered.keys (treeMembers ms) = kvs.keys := by
  rw [keys_treeMembers, Uthash.keys, hi, List.map_map]
  rfl

theorem In.elem {h : Heap} {a : ℕ} {len : UInt32} {es : List Located}
    (hl : In h (.array a len es)) {e : Located} (he : e ∈ es) : In h e := by
  cases hl with
  | array hc hes => exact hes e he

theorem In.member {h : Heap} {a : ℕ} {ms : Members} (hl : In h (.map a ms))
    {m : HashHandle ℕ × Located} (hm : m ∈ ms) :
    h.cell m.1.elt = some (.keyValue m.1.key m.2.ptr) ∧ In h m.2 := by
  cases hl with
  | map hc hi hk hms => exact ⟨hk m hm, hms m hm⟩

theorem In.mapCell {h : Heap} {a : ℕ} {ms : Members} (hl : In h (.map a ms)) :
    ∃ kvs : Uthash ℕ, h.cell a = some (.map kvs) ∧ kvs.items = ms.map Prod.fst := by
  cases hl with
  | map hc hi hk hms => exact ⟨_, hc, hi⟩

theorem In.arrayCell {h : Heap} {a : ℕ} {len : UInt32} {es : List Located}
    (hl : In h (.array a len es)) : h.cell a = some (.array (es.map ptr) len) := by
  cases hl with
  | array hc hes => exact hc

theorem In.keeps {h h' : Heap} {l : Located} (hl : In h l)
    (hk : Memory.Keeps (· ∈ l.addrs) h h') : In h' l := by
  induction hl with
  | nil => exact .nil
  | scalar hc => exact .scalar ((hk _ (List.mem_cons_self ..)).trans hc)
  | array hc he ih =>
    refine .array ((hk _ (List.mem_cons_self ..)).trans hc) fun e hmem => ih e hmem ?_
    exact hk.mono fun x hx => List.mem_cons_of_mem _ (mem_addrsElems hmem hx)
  | map hc hi hks hm ih =>
    refine .map ((hk _ (List.mem_cons_self ..)).trans hc) hi (fun m hmem => ?_)
      fun m hmem => ih m hmem ?_
    · have hx := mem_addrsMembers hmem (Or.inl rfl)
      exact (hk _ (List.mem_cons_of_mem _ hx)).trans (hks m hmem)
    · exact hk.mono fun x hx => List.mem_cons_of_mem _ (mem_addrsMembers hmem (Or.inr hx))

theorem In.live {h : Heap} {l : Located} (hl : In h l) {x : ℕ} (hx : x ∈ l.addrs) :
    ∃ n, h.cell x = some n := by
  induction hl with
  | nil => cases hx
  | scalar hc => exact ⟨_, List.mem_singleton.mp hx ▸ hc⟩
  | array hc he ih =>
    rcases List.mem_cons.mp hx with hx | hx
    · exact ⟨_, hx ▸ hc⟩
    · obtain ⟨e, hmem, hxe⟩ := exists_of_mem_addrsElems hx
      exact ih e hmem hxe
  | map hc hi hk hm ih =>
    rcases List.mem_cons.mp hx with hx | hx
    · exact ⟨_, hx ▸ hc⟩
    · obtain ⟨m, hmem, hxm⟩ := exists_of_mem_addrsMembers hx
      rcases hxm with hxm | hxm
      · exact ⟨_, hxm ▸ hk m hmem⟩
      · exact ih m hmem hxm

theorem In.lt_next {h : Heap} {l : Located} (hl : In h l) {x : ℕ} (hx : x ∈ l.addrs) :
    x < h.next := by
  obtain ⟨n, hn⟩ := hl.live hx
  exact Memory.lt_next hn

theorem In.modify {h : Heap} {l : Located} (hl : In h l) {p : ℕ} (hp : p ∉ l.addrs)
    (f : Node → Node) : In (h.modify p f) l :=
  hl.keeps fun _ hx => Memory.modify_cell_ne h f fun he => hp (he ▸ hx)

/-! ### A pointer stands for one tree -/

theorem elems_det {h : Heap} {es fs : List Located}
    (hdet : ∀ e ∈ es, ∀ l, In h l → e.ptr = l.ptr → e = l) (hf : ∀ f ∈ fs, In h f)
    (hp : es.map ptr = fs.map ptr) : es = fs := by
  induction es generalizing fs with
  | nil => exact (List.map_eq_nil_iff.mp hp.symm).symm
  | cons e es ih =>
    cases fs with
    | nil => cases hp
    | cons f fs =>
      simp only [List.map_cons, List.cons.injEq] at hp
      have he := hdet e (List.mem_cons_self ..) f (hf f (List.mem_cons_self ..)) hp.1
      have hes := ih (fun x hx => hdet x (List.mem_cons_of_mem _ hx))
        (fun x hx => hf x (List.mem_cons_of_mem _ hx)) hp.2
      rw [he, hes]

theorem members_det {h : Heap} {ms ns : Members}
    (hdet : ∀ m ∈ ms, ∀ l, In h l → m.2.ptr = l.ptr → m.2 = l)
    (hk : ∀ m ∈ ms, h.cell m.1.elt = some (.keyValue m.1.key m.2.ptr))
    (hk' : ∀ n ∈ ns, h.cell n.1.elt = some (.keyValue n.1.key n.2.ptr))
    (hn : ∀ n ∈ ns, In h n.2) (hp : ms.map Prod.fst = ns.map Prod.fst) : ms = ns := by
  induction ms generalizing ns with
  | nil => exact (List.map_eq_nil_iff.mp hp.symm).symm
  | cons m ms ih =>
    cases ns with
    | nil => cases hp
    | cons n ns =>
      simp only [List.map_cons, List.cons.injEq] at hp
      have hcell := hk m (List.mem_cons_self ..)
      have hcell' := hk' n (List.mem_cons_self ..)
      rw [hp.1, hcell'] at hcell
      simp only [Option.some.injEq, Node.keyValue.injEq] at hcell
      have hptr : m.2.ptr = n.2.ptr := hcell.2.symm
      have hval := hdet m (List.mem_cons_self ..) n.2 (hn n (List.mem_cons_self ..)) hptr
      have hrest := ih (fun x hx => hdet x (List.mem_cons_of_mem _ hx))
        (fun x hx => hk x (List.mem_cons_of_mem _ hx))
        (fun x hx => hk' x (List.mem_cons_of_mem _ hx))
        (fun x hx => hn x (List.mem_cons_of_mem _ hx)) hp.2
      rw [hrest, show m = n from Prod.ext hp.1 hval]

theorem In.det {h : Heap} {l l' : Located} (hl : In h l) (hl' : In h l') (hp : l.ptr = l'.ptr) :
    l = l' := by
  induction hl generalizing l' with
  | nil => exact (ptr_eq_none.mp hp.symm).symm
  | scalar hc =>
    cases hl' with
    | nil => cases hp
    | scalar hc' =>
      cases hp
      rw [hc] at hc'
      cases hc'
      rfl
    | array hc' he' =>
      cases hp
      rw [hc] at hc'
      cases hc'
    | map hc' hi' hk' hm' =>
      cases hp
      rw [hc] at hc'
      cases hc'
  | array hc he ih =>
    cases hl' with
    | nil => cases hp
    | scalar hc' =>
      cases hp
      rw [hc] at hc'
      cases hc'
    | array hc' he' =>
      cases hp
      rw [hc] at hc'
      simp only [Option.some.injEq, Node.array.injEq] at hc'
      rw [elems_det (fun e hmem l hl hpl => ih e hmem hl hpl) he' hc'.1, hc'.2]
    | map hc' hi' hk' hm' =>
      cases hp
      rw [hc] at hc'
      cases hc'
  | map hc hi hk hm ih =>
    cases hl' with
    | nil => cases hp
    | scalar hc' =>
      cases hp
      rw [hc] at hc'
      cases hc'
    | array hc' he' =>
      cases hp
      rw [hc] at hc'
      cases hc'
    | map hc' hi' hk' hm' =>
      cases hp
      rw [hc] at hc'
      simp only [Option.some.injEq, Node.map.injEq] at hc'
      rw [members_det (fun m hmem l hl hpl => ih m hmem hl hpl) hk hk' hm'
        (hi.symm.trans ((congrArg Uthash.items hc').trans hi'))]

/-- Addresses of nodes no higher than `l`, all different, one for each level of `l`. -/
structure Spine (h : Heap) (l : Located) (as : List ℕ) : Prop where
  nodup : as.Nodup
  length : as.length = l.height
  below : ∀ x ∈ as, ∃ l', In h l' ∧ l'.ptr = some x ∧ l'.height ≤ l.height

theorem spine_of_height_zero {h : Heap} {l : Located} (hz : l.height = 0) : Spine h l [] :=
  ⟨List.nodup_nil, hz.symm, fun _ hx => absurd hx List.not_mem_nil⟩

/-- A node that came back below itself would be higher than itself. -/
theorem Spine.cons {h : Heap} {l e : Located} {a : ℕ} {as : List ℕ} (hs : Spine h e as)
    (hl : In h l) (hp : l.ptr = some a) (hh : l.height = e.height + 1) : Spine h l (a :: as) := by
  have hnew : a ∉ as := by
    intro hmem
    obtain ⟨l', hl', hp', hle⟩ := hs.below a hmem
    have heq := hl'.det hl (hp'.trans hp.symm)
    rw [heq] at hle
    omega
  refine ⟨List.nodup_cons.mpr ⟨hnew, hs.nodup⟩, ?_, fun x hx => ?_⟩
  · rw [List.length_cons, hs.length, hh]
  · rcases List.mem_cons.mp hx with rfl | hx
    · exact ⟨l, hl, hp, le_refl _⟩
    · obtain ⟨l', hl', hp', hle⟩ := hs.below x hx
      exact ⟨l', hl', hp', by omega⟩

theorem spine_of_height_one {h : Heap} {l : Located} {a : ℕ} (hl : In h l) (hp : l.ptr = some a)
    (hh : l.height = 1) : Spine h l [a] := by
  have hnil : Spine h .nil [] := spine_of_height_zero rfl
  exact hnil.cons hl hp hh

theorem In.spine {h : Heap} {l : Located} (hl : In h l) : ∃ as, Spine h l as := by
  induction hl with
  | nil => exact ⟨[], spine_of_height_zero rfl⟩
  | scalar hc => exact ⟨[], spine_of_height_zero rfl⟩
  | @array a len es hc he ih =>
    rcases exists_heightElems es with hz | ⟨e, hmem, hh⟩
    · exact ⟨_, spine_of_height_one (.array hc he) rfl (congrArg (· + 1) hz)⟩
    · obtain ⟨as, has⟩ := ih e hmem
      exact ⟨_, has.cons (.array hc he) rfl (congrArg (· + 1) hh.symm)⟩
  | @map a kvs ms hc hi hk hm ih =>
    rcases exists_heightMembers ms with hz | ⟨m, hmem, hh⟩
    · exact ⟨_, spine_of_height_one (.map hc hi hk hm) rfl (congrArg (· + 1) hz)⟩
    · obtain ⟨as, has⟩ := ih m hmem
      exact ⟨_, has.cons (.map hc hi hk hm) rfl (congrArg (· + 1) hh.symm)⟩

/-- The bound that the public entry points pass is enough for every tree. -/
theorem In.height_le {h : Heap} {l : Located} (hl : In h l) : l.height ≤ h.next := by
  obtain ⟨as, has⟩ := hl.spine
  rw [← has.length]
  refine h.length_le_next has.nodup fun x hx => ?_
  obtain ⟨l', hl', hp, -⟩ := has.below x hx
  exact hl'.lt_next (ptr_mem_addrs hp)

theorem typeOf_ptr {h : Heap} {l : Located} (hl : In h l) : typeOf h l.ptr = l.tree.type := by
  cases hl with
  | nil => rfl
  | scalar hc => simp [typeOf, ptr, hc, tree, Tree.type, Node.type]
  | array hc he => simp [typeOf, ptr, hc, tree, Tree.type, Node.type]
  | map hc hi hk hm => simp [typeOf, ptr, hc, tree, Tree.type, Node.type]

theorem asMap_ptr {h : Heap} {l : Located} (hl : In h l) {a : ℕ} {kvs : Uthash ℕ}
    (hm : asMap h l.ptr = some (a, kvs)) : ∃ ms, l = .map a ms ∧ kvs.items = ms.map Prod.fst := by
  obtain ⟨hp, hc⟩ := asMap_eq_some.mp hm
  cases hl with
  | nil => cases hp
  | scalar hc' =>
    cases hp
    rw [hc'] at hc
    cases hc
  | array hc' he =>
    cases hp
    rw [hc'] at hc
    cases hc
  | map hc' hi hk hms =>
    cases hp
    rw [hc'] at hc
    cases hc
    exact ⟨_, rfl, hi⟩

/-! ### The generator reads the tree -/

theorem generateMembers_eq {generate : Ptr → List GenCall} {h : Heap} {ms : Members}
    (hk : ∀ m ∈ ms, h.cell m.1.elt = some (.keyValue m.1.key m.2.ptr))
    (hg : ∀ m ∈ ms, generate m.2.ptr = m.2.tree.calls) :
    generateMembers generate h (ms.map Prod.fst) = Tree.callsMembers (treeMembers ms) := by
  induction ms with
  | nil => rfl
  | cons m ms ih =>
    obtain ⟨hd, v⟩ := m
    have hcell : h.cell hd.elt = some (.keyValue hd.key v.ptr) := hk _ (List.mem_cons_self ..)
    have hval : generate v.ptr = v.tree.calls := hg _ (List.mem_cons_self ..)
    simp only [List.map_cons, generateMembers, hcell, treeMembers, Tree.callsMembers, hval]
    rw [ih (fun n hn => hk n (List.mem_cons_of_mem _ hn))
      fun n hn => hg n (List.mem_cons_of_mem _ hn)]

theorem generateNode_eq {h : Heap} {l : Located} (hl : In h l) (fuel : ℕ)
    (hf : l.height < fuel) : generateNode fuel h l.ptr = l.tree.calls := by
  induction hl generalizing fuel with
  | nil =>
    cases fuel with
    | zero => omega
    | succ fuel => rfl
  | scalar hc =>
    cases fuel with
    | zero => omega
    | succ fuel => simp only [ptr, generateNode, hc, tree, Tree.calls]
  | array hc he ih =>
    cases fuel with
    | zero => omega
    | succ fuel =>
      simp only [ptr, generateNode, hc, tree, Tree.calls]
      rw [generateElems_eq]
      intro e hmem
      have hlen := height_elem hmem
      simp only [height] at hf
      exact ih e hmem fuel (by omega)
  | map hc hi hk hm ih =>
    cases fuel with
    | zero => omega
    | succ fuel =>
      simp only [ptr, generateNode, hc, tree, Tree.calls, hi]
      rw [generateMembers_eq hk]
      intro m hmem
      have hlen := height_member hmem
      simp only [height] at hf
      exact ih m hmem fuel (by omega)

theorem generateNodeJson_eq {h : Heap} {l : Located} (hl : In h l) :
    generateNodeJson h l.ptr = l.tree.calls :=
  generateNode_eq hl _ (Nat.lt_succ_of_le hl.height_le)

/-! ### Freeing stays within the tree -/

theorem kvValue_shrunk {h h' : Heap} (hs : Memory.Shrunk h h') (kv : ℕ) :
    kvValue h' kv = kvValue h kv ∨ kvValue h' kv = none := by
  simp only [kvValue]
  rcases hs.2 kv with he | he
  · exact Or.inl (by rw [he])
  · exact Or.inr (by rw [he])

theorem freeNode_none (fuel : ℕ) (h : Heap) : freeNode fuel h none = h := by
  cases fuel <;> rfl

/-- Freeing a tree in a memory that may have lost some of its nodes touches no
cell outside the tree. -/
theorem freeNode_keeps {h : Heap} {l : Located} (hl : In h l) (fuel : ℕ) {h' : Heap}
    (hs : Memory.Shrunk h h') : Memory.Keeps (· ∉ l.addrs) h' (freeNode fuel h' l.ptr) := by
  induction fuel generalizing h' l with
  | zero => exact Memory.Keeps.refl _ _
  | succ fuel ih =>
    have hfree : ∀ (a : ℕ) (as : List ℕ) (h'' : Heap), Memory.Keeps (· ∉ as) h' h'' →
        Memory.Keeps (· ∉ a :: as) h' (h''.free a) := by
      intro a as h'' hk x hx
      simp only [List.mem_cons, not_or] at hx
      rw [Memory.free_cell_ne _ hx.1, hk x hx.2]
    cases hl with
    | nil => exact Memory.Keeps.refl _ _
    | @scalar a v hc =>
      have hfr : freeNode (fuel + 1) h' (some a) = h'.free a := by
        simp only [freeNode]
        rcases hs.2 a with he | he
        · rw [he, hc]
        · rw [he]
      rw [ptr, hfr]
      exact hfree a [] h' (Memory.Keeps.refl _ _)
    | @array a len es hc he =>
      have hloop : Memory.Shrunk h ((es.map ptr).foldl (freeNode fuel) h') ∧
          Memory.Keeps (· ∉ addrsElems es) h' ((es.map ptr).foldl (freeNode fuel) h') := by
        refine List.foldlRecOn (es.map ptr) _
          (motive := fun h'' => Memory.Shrunk h h'' ∧ Memory.Keeps (· ∉ addrsElems es) h' h'')
          ⟨hs, Memory.Keeps.refl _ _⟩ ?_
        rintro h'' ⟨hs'', hk''⟩ p hp
        obtain ⟨e, hmem, rfl⟩ := List.mem_map.mp hp
        have hstep := (ih (he e hmem) hs'').mono (T := (· ∉ addrsElems es))
          fun x hx hxe => hx (mem_addrsElems hmem hxe)
        exact ⟨hs''.trans (freeNode_shrunk _ _ _), hk''.trans hstep⟩
      simp only [ptr, freeNode]
      rcases hs.2 a with hcell | hcell
      · rw [hcell, hc]
        exact hfree a _ _ hloop.2
      · rw [hcell]
        exact hfree a _ _ (Memory.Keeps.refl _ _)
    | @map a kvs ms hc hi hk hm =>
      have hloop : Memory.Shrunk h ((ms.map Prod.fst).foldl
            (fun h cur => (freeNode fuel h (kvValue h cur.elt)).free cur.elt) h') ∧
          Memory.Keeps (· ∉ addrsMembers ms) h' ((ms.map Prod.fst).foldl
            (fun h cur => (freeNode fuel h (kvValue h cur.elt)).free cur.elt) h') := by
        refine List.foldlRecOn (ms.map Prod.fst) _
          (motive := fun h'' => Memory.Shrunk h h'' ∧ Memory.Keeps (· ∉ addrsMembers ms) h' h'')
          ⟨hs, Memory.Keeps.refl _ _⟩ ?_
        rintro h'' ⟨hs'', hk''⟩ cur hcur
        obtain ⟨m, hmem, rfl⟩ := List.mem_map.mp hcur
        have hval : Memory.Keeps (· ∉ addrsMembers ms) h''
            (freeNode fuel h'' (kvValue h'' m.1.elt)) := by
          rcases kvValue_shrunk hs'' m.1.elt with hv | hv
          · rw [hv, kvValue_of_cell (hk m hmem)]
            exact (ih (hm m hmem) hs'').mono fun x hx hxm =>
              hx (mem_addrsMembers hmem (Or.inr hxm))
          · rw [hv, freeNode_none]
            exact Memory.Keeps.refl _ _
        have hfr := (Memory.keeps_free (freeNode fuel h'' (kvValue h'' m.1.elt)) m.1.elt).mono
          (T := (· ∉ addrsMembers ms)) fun x hx hxm =>
            hx (mem_addrsMembers hmem (Or.inl hxm))
        exact ⟨(hs''.trans (freeNode_shrunk _ _ _)).trans (Memory.shrunk_free _ _),
          hk''.trans (hval.trans hfr)⟩
      simp only [ptr, freeNode]
      rcases hs.2 a with hcell | hcell
      · rw [hcell, hc]
        simp only [hi]
        exact hfree a _ _ hloop.2
      · rw [hcell]
        exact hfree a _ _ (Memory.Keeps.refl _ _)

theorem ptFreeNode_keeps {h : Heap} {l : Located} (hl : In h l) :
    Memory.Keeps (· ∉ l.addrs) h (ptFreeNode h l.ptr) :=
  freeNode_keeps hl _ (Memory.Shrunk.refl h)

end Located
end Pillowtalk
