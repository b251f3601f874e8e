import Pillowtalk.Decode
import Pillowtalk.Run

/-!
# Reachable trees

What a run leaves in the cells, and what that says of the trees they make up.
Parsing is the only step that can store a repeated key, a key with a NUL byte
or a member without a value.
-/

namespace Pillowtalk
open Addressed

variable [HashFcn]

namespace Node

/-- No key of a map is stored twice, unless it is too long to be found. -/
def DistinctKeys : Node → Prop
  | .map kvs => (kvs.keys.filter fun k => Fits k).Nodup
  | _ => True

/-- No key is too long to be found. -/
def ShortKeys : Node → Prop
  | .map kvs => kvs.KeysFit
  | .keyValue key _ => Fits key
  | _ => True

/-- No key is stored twice, and every key can be found. -/
def Keyed (n : Node) : Prop := n.DistinctKeys ∧ n.ShortKeys

/-- Keys are C strings, and a member has a value. -/
def PlainKeys : Node → Prop
  | .map kvs => ∀ k ∈ kvs.keys, 0 ∉ k
  | .keyValue _ value => value ≠ none
  | _ => True

/-- Strings are C strings, and `len` is the number of elements. -/
def Sized : Node → Prop
  | .scalar v => v.Built
  | .array head len => len = UInt32.ofNat head.length
  | _ => True

end Node

def AnyKey (_ : Bytes) : Prop := True

omit [HashFcn] in
theorem Edit.keyIn_any (e : Edit) : e.KeyIn AnyKey := e.keyIn_of_forall fun _ => trivial

theorem editable_distinctKeys : Editable AnyKey Node.DistinctKeys where
  scalar _ _ := trivial
  arrayNew := trivial
  mapNew := List.nodup_nil
  keyValue _ _ _ _ := trivial
  setValue _ _ _ _ := trivial
  key _ _ _ := trivial
  add kvs key kv hq hnone _ _ := by
    simp only [Node.DistinctKeys, Uthash.keys_hashAddKeyptr, List.filter_append]
    by_cases hk : Fits key
    · have hnew := Uthash.not_mem_of_hashFind hk hnone
      rw [List.filter_cons_of_pos (by simpa using hk), List.filter_nil]
      refine List.nodup_append.mpr ⟨hq, List.nodup_singleton key, ?_⟩
      intro k hk k' hk' he
      rw [List.mem_singleton] at hk'
      exact hnew (hk' ▸ he ▸ List.mem_of_mem_filter hk)
    · rw [List.filter_cons_of_neg (by simpa using hk), List.filter_nil, List.append_nil]
      exact hq
  delete kvs hd hq := hq.sublist ((kvs.keys_hashDelete_sublist hd).filter _)
  pushFront _ _ _ _ := trivial
  pushBack _ _ _ _ := trivial
  erase _ _ _ _ _ := trivial

theorem editable_shortKeys : Editable Fits Node.ShortKeys where
  scalar _ _ := trivial
  arrayNew := trivial
  mapNew _ hk := absurd hk List.not_mem_nil
  keyValue _ _ _ hk := hk
  setValue _ _ _ hq := hq
  key _ _ hq := Tree.fits_cstr hq
  add _ _ kv hq _ _ hk := hq.hashAddKeyptr hk kv
  delete _ hd hq := hq.hashDelete hd
  pushFront _ _ _ _ := trivial
  pushBack _ _ _ _ := trivial
  erase _ _ _ _ _ := trivial

theorem Editable.and {K : Bytes → Prop} {Q R : Node → Prop} (hQ : Editable AnyKey Q)
    (hR : Editable K R) : Editable K fun n => Q n ∧ R n where
  scalar v hv := ⟨hQ.scalar v hv, hR.scalar v hv⟩
  arrayNew := ⟨hQ.arrayNew, hR.arrayNew⟩
  mapNew := ⟨hQ.mapNew, hR.mapNew⟩
  keyValue key value hz hk := ⟨hQ.keyValue key value hz trivial, hR.keyValue key value hz hk⟩
  setValue key old value hq := ⟨hQ.setValue key old value hq.1, hR.setValue key old value hq.2⟩
  key key value hq := hR.key key value hq.2
  add kvs key kv hq hnone hz hk :=
    ⟨hQ.add kvs key kv hq.1 hnone hz trivial, hR.add kvs key kv hq.2 hnone hz hk⟩
  delete kvs hd hq := ⟨hQ.delete kvs hd hq.1, hR.delete kvs hd hq.2⟩
  pushFront node head len hq := ⟨hQ.pushFront node head len hq.1, hR.pushFront node head len hq.2⟩
  pushBack node head len hq := ⟨hQ.pushBack node head len hq.1, hR.pushBack node head len hq.2⟩
  erase node head len hq hmem :=
    ⟨hQ.erase node head len hq.1 hmem, hR.erase node head len hq.2 hmem⟩

theorem editable_keyed : Editable Fits Node.Keyed := editable_distinctKeys.and editable_shortKeys

theorem editable_sized : Editable AnyKey Node.Sized where
  scalar _ hv := hv
  arrayNew := rfl
  mapNew := trivial
  keyValue _ _ _ _ := trivial
  setValue _ _ _ _ := trivial
  key _ _ _ := trivial
  add _ _ _ _ _ _ _ := trivial
  delete _ _ _ := trivial
  pushFront node head len hq := by
    simp only [Node.Sized] at hq ⊢
    rw [hq, List.length_cons, UInt32.ofNat_add]
    rfl
  pushBack node head len hq := by
    simp only [Node.Sized] at hq ⊢
    rw [hq, List.length_append, UInt32.ofNat_add]
    rfl
  erase node head len hq hmem := by
    have hpos := List.length_pos_of_mem hmem
    simp only [Node.Sized] at hq ⊢
    rw [hq, List.length_erase_of_mem hmem, UInt32.ofNat_sub (by omega)]
    rfl

/-! ### From cells to trees and back -/

namespace Located

theorem In.mapsAll {h : Heap} {l : Located} (hl : In h l) {Q : Node → Prop}
    {D : Tree.Members → Prop} (hh : Memory.Every Q h)
    (hD : ∀ (kvs : Uthash ℕ) (ms : Members), Q (.map kvs) → kvs.items = ms.map Prod.fst →
      (∀ m ∈ ms, Q (.keyValue m.1.key m.2.ptr)) → D (treeMembers ms)) : l.tree.MapsAll D := by
  induction hl with
  | nil => exact .nil
  | scalar hc => exact .scalar _
  | array hc he ih =>
    simp only [tree, treeElems_eq_map]
    refine .array fun t ht => ?_
    obtain ⟨e, hmem, rfl⟩ := List.mem_map.mp ht
    exact ih e hmem
  | map hc hi hk hm ih =>
    simp only [tree]
    refine .map (hD _ _ (hh _ _ hc) hi fun m hmem => hh _ _ (hk m hmem)) fun t ht => ?_
    rw [treeMembers_eq_map] at ht
    obtain ⟨m, hmem, rfl⟩ := List.mem_map.mp ht
    exact ih m hmem

theorem In.cells {h : Heap} {l : Located} (hl : In h l) {Q : Node → Prop}
    {D : Tree.Members → Prop} (hD : l.tree.MapsAll D) (hscalar : ∀ v, Q (.scalar v))
    (harray : ∀ head len, Q (.array head len))
    (hmap : ∀ (kvs : Uthash ℕ) ms, D ms → kvs.keys = Ordered.keys ms → Q (.map kvs))
    (hkv : ∀ ms k v p, D ms → (k, v) ∈ ms → (p = none ↔ v = .nil) → Q (.keyValue k p)) :
    ∀ x ∈ l.addrs, ∀ n, h.cell x = some n → Q n := by
  induction hl with
  | nil => exact fun x hx => absurd hx List.not_mem_nil
  | scalar hc =>
    intro x hx n hn
    rw [List.mem_singleton.mp hx, hc] at hn
    cases hn
    exact hscalar _
  | array hc he ih =>
    simp only [tree, treeElems_eq_map] at hD
    cases hD with
    | array hes =>
      intro x hx n hn
      rcases List.mem_cons.mp hx with rfl | hx
      · rw [hc] at hn
        cases hn
        exact harray _ _
      · obtain ⟨e, hmem, hxe⟩ := exists_of_mem_addrsElems hx
        exact ih e hmem (hes _ (List.mem_map.mpr ⟨e, hmem, rfl⟩)) x hxe n hn
  | @map a kvs ms hc hi hk hm ih =>
    simp only [tree] at hD
    cases hD with
    | map hd hms =>
      intro x hx n hn
      rcases List.mem_cons.mp hx with rfl | hx
      · rw [hc] at hn
        cases hn
        exact hmap _ _ hd (keys_of_items hi).symm
      · obtain ⟨m, hmem, hxm⟩ := exists_of_mem_addrsMembers hx
        have htree : (m.1.key, m.2.tree) ∈ treeMembers ms := by
          rw [treeMembers_eq_map]
          exact List.mem_map.mpr ⟨m, hmem, rfl⟩
        rcases hxm with rfl | hxm
        · rw [hk m hmem] at hn
          cases hn
          exact hkv _ _ _ _ hd htree (by rw [ptr_eq_none, tree_eq_nil])
        · exact ih m hmem (hms _ htree) x hxm n hn

theorem In.shortKeys {h : Heap} {l : Located} (hl : In h l)
    (hh : Memory.Every Node.ShortKeys h) : l.tree.ShortKeys := by
  refine hl.mapsAll hh fun kvs ms hq hi _ => ?_
  rw [Tree.FitKeys, keys_of_items hi]
  exact hq

theorem In.searchable {h : Heap} {l : Located} (hl : In h l)
    (hh : Memory.Every Node.DistinctKeys h) (hs : l.tree.ShortKeys) : l.tree.Searchable := by
  have hfiltered : l.tree.MapsAll fun ms => ((Ordered.keys ms).filter fun k => Fits k).Nodup := by
    refine hl.mapsAll hh fun kvs ms hq hi _ => ?_
    rw [keys_of_items hi]
    exact hq
  refine (hfiltered.and hs).mono fun ms hms => ⟨?_, hms.2⟩
  rw [← List.filter_eq_self.mpr fun k hk => decide_eq_true (hms.2 k hk)]
  exact hms.1

theorem In.keyed {h : Heap} {l : Located} (hl : In h l) (hh : Memory.Every Node.Keyed h) :
    l.tree.Searchable :=
  hl.searchable (hh.mono fun _ => And.left) (hl.shortKeys (hh.mono fun _ => And.right))

theorem In.plain {h : Heap} {l : Located} (hl : In h l) (hp : Memory.Every Node.PlainKeys h)
    (hs : Memory.Every Node.Sized h) : l.tree.Plain := by
  induction hl with
  | nil => exact .nil
  | scalar hc => exact .scalar (hs _ _ hc)
  | @array a len es hc he ih =>
    have hlen : len = UInt32.ofNat (es.map tree).length := by
      have hsize := hs _ _ hc
      simpa only [Node.Sized, List.length_map] using hsize
    simp only [tree, treeElems_eq_map]
    rw [hlen]
    refine .array fun t ht => ?_
    obtain ⟨e, hmem, rfl⟩ := List.mem_map.mp ht
    exact ih e hmem
  | @map a kvs ms hc hi hk hm ih =>
    have hkeys := keys_of_items hi
    have hmem : ∀ t ∈ treeMembers ms, ∃ m ∈ ms, t = (m.1.key, m.2.tree) := by
      intro t ht
      rw [treeMembers_eq_map] at ht
      obtain ⟨m, hm, rfl⟩ := List.mem_map.mp ht
      exact ⟨m, hm, rfl⟩
    simp only [tree]
    refine .map ?_ ?_ ?_
    · intro t ht
      have hplain := hp _ _ hc
      exact hplain t.1 (hkeys ▸ List.mem_map.mpr ⟨t, ht, rfl⟩)
    · intro t ht
      obtain ⟨m, hmm, rfl⟩ := hmem t ht
      have hval := hp _ _ (hk m hmm)
      simp only [Node.PlainKeys, ne_eq, ptr_eq_none] at hval
      simpa only [ne_eq, tree_eq_nil] using hval
    · intro t ht
      obtain ⟨m, hmm, rfl⟩ := hmem t ht
      exact ih m hmm

end Located

/-- The delivered part of a document, as `fromJson` reads it. -/
def Op.Delivers (D : Tree.Members → Prop) : Op → Prop
  | .fromJson doc delivered =>
    ∀ r : Progress, r.callbacks = doc.callbacks.take delivered → r.tree.MapsAll D
  | .edit _ => True

omit [HashFcn] in
theorem Op.Delivers.mono {D E : Tree.Members → Prop} {op : Op} (h : op.Delivers D)
    (hde : ∀ ms, D ms → E ms) : op.Delivers E := by
  cases op with
  | fromJson doc delivered => exact fun r hr => (h r hr).mono hde
  | edit e => trivial

/-- The callbacks tell the tree. -/
theorem Progress.tree_inj {r r' : Progress} (hr : r.callbacks = r'.callbacks) :
    r.tree = r'.tree := by
  obtain ⟨s, l, hrun, hp, hl⟩ := r.parsed heapEmpty
  obtain ⟨s', l', hrun', hp', hl'⟩ := r'.parsed heapEmpty
  rw [hr, hrun', Option.some.injEq] at hrun
  have hptr : l.ptr = l'.ptr := by rw [← hp.root, ← hp'.root, hrun]
  rw [← hl, ← hl', hp.within.det (hrun ▸ hp'.within) hptr]

theorem Op.delivers_of {D : Tree.Members → Prop} {doc : Json} {delivered : ℕ} (r : Progress)
    (hr : r.callbacks = doc.callbacks.take delivered) (hD : r.tree.MapsAll D) :
    (Op.fromJson doc delivered).Delivers D := by
  intro r' hr'
  rw [Progress.tree_inj (hr'.trans hr.symm)]
  exact hD

theorem step_fromJson (h : Heap) {doc : Json} {delivered : ℕ} {r : Progress}
    (hr : r.callbacks = doc.callbacks.take delivered) :
    ∃ (s : ParserState) (l : Located),
      parseJson h (doc.callbacks.take delivered) = some (s.heap, l.ptr) ∧
        step h (.fromJson doc delivered) = s.heap ∧ Parsed h s l r.depth ∧ l.tree = r.tree := by
  obtain ⟨s, l, hrun, hp, hl⟩ := r.parsed h
  rw [hr] at hrun
  have hparse : parseJson h (doc.callbacks.take delivered) = some (s.heap, l.ptr) := by
    simp only [parseJson, hrun, Option.map_some, hp.root]
  refine ⟨s, l, hparse, ?_, hp, hl⟩
  simp only [step, hparse, Option.map_some, Option.getD_some]

theorem Parsed.every {h : Heap} {s : ParserState} {l : Located} {depth : ℕ}
    (hp : Parsed h s l depth) {Q : Node → Prop} (hh : Memory.Every Q h)
    (hnew : ∀ x ∈ l.addrs, ∀ n, s.heap.cell x = some n → Q n) : Memory.Every Q s.heap := by
  intro x n hn
  rcases Nat.lt_or_ge x h.next with hlt | hge
  · rw [hp.old x hlt] at hn
    exact hh x n hn
  · exact hnew x ((hp.allotted.mem x).mpr ⟨hge, Memory.lt_next hn⟩) n hn

/-- The keys that the operation stores can be found. -/
def Op.ShortKeys : Op → Prop
  | .fromJson doc delivered => (Op.fromJson doc delivered).Delivers Tree.FitKeys
  | .edit e => e.KeyIn Fits

/-- In a run whose parses deliver only trees with `D`, what is true of the cells of such a
tree is true of every cell. -/
theorem Editable.run_delivers {K : Bytes → Prop} {Q : Node → Prop} (hQ : Editable K Q)
    {D : Tree.Members → Prop} {ops : List Op} (hK : ∀ e, Op.edit e ∈ ops → e.KeyIn K)
    (hops : ∀ op ∈ ops, op.Delivers D) (hscalar : ∀ v, Q (.scalar v))
    (harray : ∀ head len, Q (.array head len))
    (hmap : ∀ (kvs : Uthash ℕ) ms, D ms → kvs.keys = Ordered.keys ms → Q (.map kvs))
    (hkv : ∀ ms k v p, D ms → (k, v) ∈ ms → (p = none ↔ v = .nil) → Q (.keyValue k p)) :
    Memory.Every Q (Pillowtalk.run ops) := by
  refine hQ.run hK fun h doc delivered hop hh => ?_
  obtain ⟨r, hr⟩ := doc.prefix_progress (List.take_prefix delivered _)
  obtain ⟨s, l, -, hstep, hp, hl⟩ := step_fromJson h hr
  rw [hstep]
  exact hp.every hh (hp.within.cells (hl ▸ hops _ hop r hr) hscalar harray hmap hkv)

theorem Parsed.keyed {h : Heap} {s : ParserState} {l : Located} {depth : ℕ}
    (hp : Parsed h s l depth) (ht : l.tree.Searchable) (hh : Memory.Every Node.Keyed h) :
    Memory.Every Node.Keyed s.heap := by
  refine hp.every hh (hp.within.cells ht ?_ ?_ ?_ ?_)
  · exact fun v => ⟨trivial, trivial⟩
  · exact fun head len => ⟨trivial, trivial⟩
  · intro kvs ms hms hk
    refine ⟨?_, fun k hmem => hms.fit k (hk ▸ hmem)⟩
    simp only [Node.DistinctKeys, hk]
    exact hms.nodup.filter _
  · exact fun ms k v p hms hm _ => ⟨trivial, hms.fit k (List.mem_map_of_mem hm)⟩

theorem run_distinctKeys {ops : List Op}
    (hops : ∀ op ∈ ops, op.Delivers fun ms => (Ordered.keys ms).Nodup) :
    Memory.Every Node.DistinctKeys (run ops) := by
  refine editable_distinctKeys.run_delivers (fun e _ => e.keyIn_any) hops ?_ ?_ ?_ ?_
  · exact fun v => trivial
  · exact fun head len => trivial
  · intro kvs ms hd hk
    simp only [Node.DistinctKeys, hk]
    exact hd.filter _
  · exact fun ms k v p _ _ _ => trivial

theorem run_shortKeys {ops : List Op} (hops : ∀ op ∈ ops, op.ShortKeys) :
    Memory.Every Node.ShortKeys (run ops) := by
  have hdelivers : ∀ op ∈ ops, op.Delivers Tree.FitKeys := by
    intro op hop
    cases op with
    | fromJson doc delivered => exact hops _ hop
    | edit e => trivial
  refine editable_shortKeys.run_delivers (fun e he => hops _ he) hdelivers ?_ ?_ ?_ ?_
  · exact fun v => trivial
  · exact fun head len => trivial
  · intro kvs ms hd hk k hmem
    exact hd k (hk ▸ hmem)
  · exact fun ms k v p hd hm _ => hd k (List.mem_map_of_mem hm)

end Pillowtalk
