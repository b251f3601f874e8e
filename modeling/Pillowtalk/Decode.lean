import Pillowtalk.Document
import Pillowtalk.Located

/-!
# What the callbacks build

A document is delivered into whatever `stack->cur` names. Its nodes are new
and lie at consecutive addresses, no older cell but that one changes, and the
frames it leaves on the stack are those of its containers that are still open.
-/

namespace Pillowtalk
open Addressed

namespace Located

/-- The last value of a map or an array, where reading goes on. -/
def lastValue : List Located → Located
  | [] => .nil
  | e :: es => if es.isEmpty then e else lastValue es

/-- The frames of the outermost `depth` containers along last values, innermost
first: an array is its own `cur`, a map has its last member there. -/
def openFrames : ℕ → Located → List ContainerCtx
  | depth + 1, .array a _ es => openFrames depth (lastValue es) ++ [⟨a, some a⟩]
  | depth + 1, .map a ms =>
    openFrames depth (lastValue (ms.map Prod.snd)) ++
      [⟨a, ms.getLast?.map fun m => m.1.elt⟩]
  | _, _ => []

@[simp] theorem openFrames_zero (l : Located) : openFrames 0 l = [] := by
  cases l <;> rfl

theorem lastValue_concat (es : List Located) (e : Located) : lastValue (es ++ [e]) = e := by
  induction es with
  | nil => rfl
  | cons f es ih =>
    rw [List.cons_append, lastValue, ih]
    simp

end Located

theorem length_of_treeElems {ls : List Located} {es : List Json}
    (h : Located.treeElems ls = Json.treeElems es) : ls.length = es.length := by
  have hl := congrArg List.length h
  simpa only [Located.treeElems_eq_map, Json.treeElems_eq_map, List.length_map] using hl

variable [HashFcn]

/-- The node that takes the next value has been allocated. -/
def ParserState.CurLive (s : ParserState) : Prop := ∀ c, s.cur = some c → c < s.heap.next

theorem ParserState.curLive_of_stack {s : ParserState} {a c : ℕ} {rest : List ContainerCtx}
    (hs : s.stack = ⟨a, some c⟩ :: rest) (hlt : c < s.heap.next) : s.CurLive := by
  intro c' hc
  simp only [ParserState.cur, hs, List.head?_cons, Option.bind_some, Option.some.injEq] at hc
  omega

theorem ParserState.cur_of_stack {s : ParserState} {a : ℕ} {cur : Ptr} {rest : List ContainerCtx}
    (hs : s.stack = ⟨a, cur⟩ :: rest) : s.cur = cur := by
  simp only [ParserState.cur, hs, List.head?_cons, Option.bind_some]

/-! ### Adding one node -/

@[simp] theorem addNode_next (s : ParserState) (p : Ptr) :
    (addNodeToContextContainer s p).heap.next = s.heap.next := by
  unfold addNodeToContextContainer
  split <;> rfl

@[simp] theorem addNode_stack (s : ParserState) (p : Ptr) :
    (addNodeToContextContainer s p).stack = s.stack := by
  unfold addNodeToContextContainer
  split <;> rfl

theorem addNode_of_cur {s : ParserState} {c : ℕ} (hc : s.cur = some c) (p : Ptr) :
    addNodeToContextContainer s p = { s with heap := s.heap.modify c (Node.attach p) } := by
  simp only [addNodeToContextContainer, hc]

theorem addNode_of_none {s : ParserState} (hc : s.cur = none) (p : Ptr) :
    addNodeToContextContainer s p = { s with root := p } := by
  simp only [addNodeToContextContainer, hc]

theorem addNewNode_of_cur {s : ParserState} {c : ℕ} (hc : s.cur = some c) (n : Node) :
    addNewNode s n = { s with
      heap := (s.heap.alloc n).modify c (Node.attach (some s.heap.next)) } :=
  addNode_of_cur (s := { s with heap := s.heap.alloc n }) hc _

theorem addNewNode_of_none {s : ParserState} (hc : s.cur = none) (n : Node) :
    addNewNode s n = ⟨s.heap.alloc n, some s.heap.next, s.stack⟩ :=
  addNode_of_none (s := { s with heap := s.heap.alloc n }) hc _

@[simp] theorem addNewNode_next (s : ParserState) (n : Node) :
    (addNewNode s n).heap.next = s.heap.next + 1 := by
  simp [addNewNode]

@[simp] theorem addNewNode_stack (s : ParserState) (n : Node) :
    (addNewNode s n).stack = s.stack := by
  simp [addNewNode]

theorem addNewNode_root (s : ParserState) (n : Node) :
    (addNewNode s n).root = (addNodeToContextContainer s (some s.heap.next)).root := by
  cases hc : s.cur with
  | none => rw [addNode_of_none hc, addNewNode_of_none hc]
  | some c => rw [addNode_of_cur hc, addNewNode_of_cur hc]

theorem addNewNode_cell {s : ParserState} (hs : s.CurLive) (n : Node) :
    (addNewNode s n).heap.cell s.heap.next = some n := by
  cases hc : s.cur with
  | none =>
    rw [addNewNode_of_none hc]
    exact Memory.alloc_cell_next _ _
  | some c =>
    have hlt := hs c hc
    have hne : s.heap.next ≠ c := by omega
    rw [addNewNode_of_cur hc]
    exact (Memory.modify_cell_ne _ _ hne).trans (Memory.alloc_cell_next _ _)

theorem addNewNode_old (s : ParserState) (n : Node) :
    Memory.Keeps (· < s.heap.next) (addNodeToContextContainer s (some s.heap.next)).heap
      (addNewNode s n).heap := by
  intro x hx
  have hold := Memory.alloc_cell_old s.heap n hx
  cases hc : s.cur with
  | none =>
    rw [addNode_of_none hc, addNewNode_of_none hc]
    exact hold
  | some c =>
    rw [addNode_of_cur hc, addNewNode_of_cur hc]
    simp only [Memory.modify_cell, hold]

/-! ### Delivering a document -/

/-- From `s` to `s'` the callbacks of one document were run, which now lies in
memory as `l` with its outermost `depth` containers open. -/
structure Delivered (s s' : ParserState) (l : Located) (depth : ℕ) : Prop where
  within : Located.In s'.heap l
  allotted : Memory.Allotted s.heap.next s'.heap.next l.addrs
  old : Memory.Keeps (· < s.heap.next) (addNodeToContextContainer s l.ptr).heap s'.heap
  root : s'.root = (addNodeToContextContainer s l.ptr).root
  stack : s'.stack = l.openFrames depth ++ s.stack

/-- Wherever they start, the callbacks deliver the tree `t`. -/
def Delivers (cs : List Callback) (t : Tree) (depth : ℕ) : Prop :=
  ∀ s : ParserState, s.CurLive → ∃ s' l,
    runCallbacks s cs = some s' ∧ Delivered s s' l depth ∧ l.tree = t

theorem Delivered.keeps {s s' : ParserState} {l : Located} {depth c : ℕ}
    (h : Delivered s s' l depth) (hc : s.cur = some c) :
    Memory.Keeps (fun x => x < s.heap.next ∧ x ≠ c) s.heap s'.heap := by
  intro x hx
  rw [h.old x hx.1, addNode_of_cur hc]
  exact Memory.modify_cell_ne _ _ hx.2

theorem Delivered.cell_cur {s s' : ParserState} {l : Located} {depth c : ℕ}
    (h : Delivered s s' l depth) (hc : s.cur = some c) {n : Node}
    (hn : s.heap.cell c = some n) : s'.heap.cell c = some (n.attach l.ptr) := by
  rw [h.old c (Memory.lt_next hn), addNode_of_cur hc]
  exact Memory.modify_cell_self _ hn

theorem Delivered.root_of_cur {s s' : ParserState} {l : Located} {depth c : ℕ}
    (h : Delivered s s' l depth) (hc : s.cur = some c) : s'.root = s.root := by
  rw [h.root, addNode_of_cur hc]

theorem callback_literal (s : ParserState) (v : Literal) :
    callback s v.callback = some (addNewNode s (.scalar v.scalar)) := by
  cases v <;> rfl

theorem delivers_literal (v : Literal) : Delivers [v.callback] (.scalar v.scalar) 0 := by
  intro s hs
  refine ⟨addNewNode s (.scalar v.scalar), .scalar s.heap.next v.scalar, ?_, ?_, rfl⟩
  · simp only [runCallbacks, callback_literal, Option.bind_some]
  · refine ⟨.scalar (addNewNode_cell hs _), ?_, addNewNode_old s _, addNewNode_root s _, ?_⟩
    · rw [addNewNode_next]
      exact (Memory.Allotted.nil _).cons
    · rw [addNewNode_stack, Located.openFrames_zero, List.nil_append]

/-! ### Inside an array -/

/-- Since `b`, the state just after `json_start_array`, the elements `ls` have
gone into the array at `a`. -/
structure ArrayHolds (b s : ParserState) (a : ℕ) (ls : List Located) : Prop where
  root : s.root = b.root
  cell : s.heap.cell a = some (.array (ls.map Located.ptr) (UInt32.ofNat ls.length))
  within : ∀ l ∈ ls, Located.In s.heap l
  allotted : Memory.Allotted b.heap.next s.heap.next (Located.addrsElems ls)
  old : Memory.Keeps (fun x => x < b.heap.next ∧ x ≠ a) b.heap s.heap

theorem jsonStartArray_holds {s : ParserState} (hs : s.CurLive) :
    ArrayHolds (jsonStartArray s) (jsonStartArray s) s.heap.next [] := by
  refine ⟨rfl, addNewNode_cell hs _, ?_, Memory.Allotted.nil _, Memory.Keeps.refl _ _⟩
  intro l hl
  cases hl

theorem Located.In.delivered {s s' : ParserState} {l l' : Located} {depth c : ℕ}
    (hl : Located.In s.heap l) (h : Delivered s s' l' depth) (hc : s.cur = some c)
    (hout : c ∉ l.addrs) : Located.In s'.heap l :=
  hl.keeps ((h.keeps hc).mono fun _ hx => ⟨hl.lt_next hx, fun he => hout (he ▸ hx)⟩)

theorem ArrayHolds.concat {b s s' : ParserState} {a depth : ℕ} {ls : List Located} {l : Located}
    (h : ArrayHolds b s a ls) (ha : a < b.heap.next) (hc : s.cur = some a)
    (hd : Delivered s s' l depth) : ArrayHolds b s' a (ls ++ [l]) := by
  have hle := h.allotted.le
  refine ⟨(hd.root_of_cur hc).trans h.root, ?_, ?_, ?_, ?_⟩
  · have hcell := hd.cell_cur hc h.cell
    simp only [Node.attach] at hcell
    rw [hcell, List.map_append, List.length_append, UInt32.ofNat_add]
    rfl
  · intro x hx
    rcases List.mem_append.mp hx with hx | hx
    · refine (h.within x hx).delivered hd hc ?_
      intro hmem
      have hnew := (h.allotted.mem a).mp (Located.mem_addrsElems hx hmem)
      omega
    · rw [List.mem_singleton.mp hx]
      exact hd.within
  · have hone : Located.addrsElems [l] = l.addrs := List.append_nil _
    rw [Located.addrsElems_append, hone]
    exact h.allotted.append hd.allotted
  · have hkeep := hd.keeps hc
    intro x hx
    have hlt : x < s.heap.next := by omega
    rw [hkeep x ⟨hlt, hx.2⟩, h.old x hx]

theorem runCallbacks_elems {es : List Json} (ih : ∀ e ∈ es, Delivers e.callbacks e.tree 0)
    {b : ParserState} {a : ℕ} {rest : List ContainerCtx} (ha : a < b.heap.next)
    (hs : b.stack = ⟨a, some a⟩ :: rest) (hb : ArrayHolds b b a []) :
    ∃ s ls, runCallbacks b (Json.callbacksElems es) = some s ∧ ArrayHolds b s a ls ∧
      s.stack = b.stack ∧ Located.treeElems ls = Json.treeElems es := by
  induction es using List.reverseRecOn with
  | nil => exact ⟨b, [], rfl, hb, rfl, rfl⟩
  | append_singleton es e ihl =>
    obtain ⟨s, ls, hrun, hls, hst, htree⟩ :=
      ihl fun f hf => ih f (List.mem_append_left _ hf)
    have hle := hls.allotted.le
    have hcur := ParserState.cur_of_stack (hst.trans hs)
    have hlive : s.CurLive := ParserState.curLive_of_stack (hst.trans hs) (by omega)
    obtain ⟨s', l, hrun', hd, hl⟩ := ih e (List.mem_append_right _ (List.mem_singleton_self e)) s hlive
    refine ⟨s', ls ++ [l], ?_, hls.concat ha hcur hd, ?_, ?_⟩
    · have hone : Json.callbacksElems [e] = e.callbacks := List.append_nil _
      rw [Json.callbacksElems_append, hone, runCallbacks_append, hrun]
      exact hrun'
    · rw [hd.stack, Located.openFrames_zero, List.nil_append, hst]
    · rw [Located.treeElems_append, htree, Json.treeElems_eq_map, Json.treeElems_eq_map,
        List.map_append, List.map_singleton, ← hl]
      rfl

theorem ArrayHolds.delivered {s s' : ParserState} {ls : List Located} (depth : ℕ)
    (h : ArrayHolds (jsonStartArray s) s' s.heap.next ls)
    (hst : s'.stack =
      Located.openFrames depth (.array s.heap.next (UInt32.ofNat ls.length) ls) ++ s.stack) :
    Delivered s s' (.array s.heap.next (UInt32.ofNat ls.length) ls) depth := by
  have hnext : (jsonStartArray s).heap.next = s.heap.next + 1 := addNewNode_next s _
  refine ⟨.array h.cell h.within, ?_, ?_, ?_, hst⟩
  · have hal := h.allotted
    rw [hnext] at hal
    exact hal.cons
  · intro x hx
    have hlt : x < (jsonStartArray s).heap.next ∧ x ≠ s.heap.next := by
      rw [hnext]
      omega
    rw [h.old x hlt]
    exact addNewNode_old s _ x hx
  · rw [h.root]
    exact addNewNode_root s _

/-! ### Inside a map -/

/-- The handle that `HASH_ADD_KEYPTR` gives a new member. -/
def keyHandle (kv : ℕ) (k : Bytes) : HashHandle ℕ := ⟨kv, k, HashFcn.hash k⟩

/-- Since `b`, the state just after `json_start_map`, the members `ms` have
gone into the map at `a`. -/
structure MapHolds (b s : ParserState) (a : ℕ) (ms : Located.Members) : Prop where
  root : s.root = b.root
  cell : s.heap.cell a =
    some (.map (hashNull.hashAddAll (ms.map fun m => (m.1.key, m.1.elt))))
  handles : ∀ m ∈ ms, m.1 = keyHandle m.1.elt m.1.key
  keyValues : ∀ m ∈ ms, s.heap.cell m.1.elt = some (.keyValue m.1.key m.2.ptr)
  within : ∀ m ∈ ms, Located.In s.heap m.2
  allotted : Memory.Allotted b.heap.next s.heap.next (Located.addrsMembers ms)
  old : Memory.Keeps (fun x => x < b.heap.next ∧ x ≠ a) b.heap s.heap

theorem jsonStartMap_holds {s : ParserState} (hs : s.CurLive) :
    MapHolds (jsonStartMap s) (jsonStartMap s) s.heap.next [] := by
  refine ⟨rfl, addNewNode_cell hs _, ?_, ?_, ?_, Memory.Allotted.nil _, Memory.Keeps.refl _ _⟩
  · exact fun m hm => absurd hm List.not_mem_nil
  · exact fun m hm => absurd hm List.not_mem_nil
  · exact fun m hm => absurd hm List.not_mem_nil

theorem hashAddAll_concat (t : Uthash ℕ) (ms : Located.Members) (m : HashHandle ℕ × Located) :
    t.hashAddAll ((ms ++ [m]).map fun m => (m.1.key, m.1.elt)) =
      (t.hashAddAll (ms.map fun m => (m.1.key, m.1.elt))).hashAddKeyptr m.1.key m.1.elt := by
  rw [List.map_append, Uthash.hashAddAll, List.foldl_append]
  rfl

theorem MapHolds.mapKey {b s : ParserState} {a : ℕ} {ms : Located.Members} {cur : Ptr}
    {rest : List ContainerCtx} (h : MapHolds b s a ms) (ha : a < b.heap.next)
    (hs : s.stack = ⟨a, cur⟩ :: rest) (k : Bytes) :
    ∃ s', jsonMapKey s k = some s' ∧ s'.stack = ⟨a, some s.heap.next⟩ :: rest ∧
      MapHolds b s' a (ms ++ [(keyHandle s.heap.next k, .nil)]) := by
  have hle := h.allotted.le
  have hkeep : Memory.Keeps (fun x => x < s.heap.next ∧ x ≠ a) s.heap
      ((s.heap.alloc (.keyValue k none)).modify a (Node.setKeyValues
        ((hashNull.hashAddAll (ms.map fun m => (m.1.key, m.1.elt))).hashAddKeyptr k
          s.heap.next))) := by
    intro x hx
    rw [Memory.modify_cell_ne _ _ hx.2, Memory.alloc_cell_old _ _ hx.1]
  have hnew : ∀ m ∈ ms, ∀ x, x = m.1.elt ∨ x ∈ m.2.addrs → x < s.heap.next ∧ x ≠ a := by
    intro m hm x hx
    have hmem := (h.allotted.mem x).mp (Located.mem_addrsMembers hm hx)
    omega
  have hrun : jsonMapKey s k = some ⟨(s.heap.alloc (.keyValue k none)).modify a
      (Node.setKeyValues ((hashNull.hashAddAll (ms.map fun m => (m.1.key, m.1.elt))).hashAddKeyptr
        k s.heap.next)), s.root, ⟨a, some s.heap.next⟩ :: rest⟩ := by
    simp only [jsonMapKey, hs, h.cell]
  refine ⟨_, hrun, rfl, h.root, ?_, ?_, ?_, ?_, ?_, ?_⟩
  · have hcell : (s.heap.alloc (.keyValue k none)).cell a = some (.map
        (hashNull.hashAddAll (ms.map fun m => (m.1.key, m.1.elt)))) := by
      rw [Memory.alloc_cell_old _ _ (by omega), h.cell]
    rw [Memory.modify_cell_self _ hcell, hashAddAll_concat]
    rfl
  · intro m hm
    rcases List.mem_append.mp hm with hm | hm
    · exact h.handles m hm
    · rw [List.mem_singleton.mp hm]
      rfl
  · intro m hm
    rcases List.mem_append.mp hm with hm | hm
    · rw [hkeep _ (hnew m hm _ (Or.inl rfl)), h.keyValues m hm]
    · have hne : s.heap.next ≠ a := by omega
      rw [List.mem_singleton.mp hm]
      exact (Memory.modify_cell_ne _ _ hne).trans (Memory.alloc_cell_next _ _)
  · intro m hm
    rcases List.mem_append.mp hm with hm | hm
    · exact (h.within m hm).keeps (hkeep.mono fun x hx => hnew m hm x (Or.inr hx))
    · rw [List.mem_singleton.mp hm]
      exact .nil
  · rw [Located.addrsMembers_append]
    exact h.allotted.append (Memory.Allotted.nil _).cons
  · intro x hx
    rw [hkeep x ⟨by omega, hx.2⟩, h.old x hx]

theorem MapHolds.curLive {b s : ParserState} {a a' kv : ℕ} {ms : Located.Members} {k : Bytes}
    {l : Located} {rest : List ContainerCtx} (h : MapHolds b s a (ms ++ [(keyHandle kv k, l)]))
    (hs : s.stack = ⟨a', some kv⟩ :: rest) : s.CurLive :=
  ParserState.curLive_of_stack hs (Memory.lt_next (h.keyValues (keyHandle kv k, l)
    (List.mem_append_right _ (List.mem_singleton_self _))))

theorem MapHolds.value {b s s' : ParserState} {a depth : ℕ} {ms : Located.Members}
    {hd : HashHandle ℕ} {l : Located} (h : MapHolds b s a (ms ++ [(hd, .nil)]))
    (ha : a < b.heap.next) (hc : s.cur = some hd.elt) (hdel : Delivered s s' l depth) :
    MapHolds b s' a (ms ++ [(hd, l)]) := by
  have hle := h.allotted.le
  have hkeep := hdel.keeps hc
  have haddrs : Located.addrsMembers (ms ++ [(hd, .nil)]) =
      Located.addrsMembers ms ++ [hd.elt] := by
    rw [Located.addrsMembers_append]
    rfl
  have hnodup := h.allotted.nodup
  rw [haddrs] at hnodup
  have hlast := (h.allotted.mem hd.elt).mp (by rw [haddrs]; simp)
  have hnew : ∀ m ∈ ms, ∀ x, x = m.1.elt ∨ x ∈ m.2.addrs →
      x < s.heap.next ∧ x ≠ hd.elt := by
    intro m hm x hx
    have hmem := Located.mem_addrsMembers hm hx
    have hold := (h.allotted.mem x).mp (by rw [haddrs]; exact List.mem_append_left _ hmem)
    refine ⟨hold.2, fun he => ?_⟩
    exact (List.nodup_append.mp hnodup).2.2 x hmem hd.elt (List.mem_singleton_self _) he
  refine ⟨(hdel.root_of_cur hc).trans h.root, ?_, ?_, ?_, ?_, ?_, ?_⟩
  · rw [hkeep a ⟨by omega, by omega⟩, h.cell, hashAddAll_concat, hashAddAll_concat]
  · intro m hm
    rcases List.mem_append.mp hm with hm | hm
    · exact h.handles m (List.mem_append_left _ hm)
    · rw [List.mem_singleton.mp hm]
      exact h.handles (hd, .nil) (List.mem_append_right _ (List.mem_singleton_self _))
  · intro m hm
    rcases List.mem_append.mp hm with hm | hm
    · rw [hkeep _ (hnew m hm _ (Or.inl rfl))]
      exact h.keyValues m (List.mem_append_left _ hm)
    · have hkv := h.keyValues (hd, .nil) (List.mem_append_right _ (List.mem_singleton_self _))
      rw [List.mem_singleton.mp hm]
      exact hdel.cell_cur hc hkv
  · intro m hm
    rcases List.mem_append.mp hm with hm | hm
    · exact (h.within m (List.mem_append_left _ hm)).keeps
        (hkeep.mono fun x hx => hnew m hm x (Or.inr hx))
    · rw [List.mem_singleton.mp hm]
      exact hdel.within
  · have hone : Located.addrsMembers (ms ++ [(hd, l)]) =
        Located.addrsMembers (ms ++ [(hd, .nil)]) ++ l.addrs := by
      rw [haddrs, Located.addrsMembers_append, List.append_assoc]
      simp [Located.addrsMembers]
    rw [hone]
    exact h.allotted.append hdel.allotted
  · intro x hx
    rw [hkeep x ⟨by omega, by omega⟩, h.old x hx]

theorem runCallbacks_members {members : List (Bytes × Json)}
    (ih : ∀ m ∈ members, Delivers m.2.callbacks m.2.tree 0) {b : ParserState} {a : ℕ}
    {rest : List ContainerCtx} (ha : a < b.heap.next) (hs : b.stack = ⟨a, none⟩ :: rest)
    (hb : MapHolds b b a []) :
    ∃ s ms, runCallbacks b (Json.callbacksMembers members) = some s ∧ MapHolds b s a ms ∧
      s.stack = ⟨a, ms.getLast?.map fun m => m.1.elt⟩ :: rest ∧
      Located.treeMembers ms = Json.treeMembers members := by
  induction members using List.reverseRecOn with
  | nil => exact ⟨b, [], rfl, hb, hs, rfl⟩
  | append_singleton members m ihl =>
    obtain ⟨k, v⟩ := m
    obtain ⟨s, ms, hrun, hms, hst, htree⟩ :=
      ihl fun n hn => ih n (List.mem_append_left _ hn)
    obtain ⟨s₁, hkey, hst₁, hms₁⟩ := hms.mapKey ha hst k
    have hcur := ParserState.cur_of_stack hst₁
    have hlive := hms₁.curLive hst₁
    obtain ⟨s₂, l, hrun₂, hd, hl⟩ :=
      ih (k, v) (List.mem_append_right _ (List.mem_singleton_self _)) s₁ hlive
    refine ⟨s₂, ms ++ [(keyHandle s.heap.next k, l)], ?_, hms₁.value ha hcur hd, ?_, ?_⟩
    · have hone : Json.callbacksMembers [(k, v)] = .mapKey k :: v.callbacks := by
        simp only [Json.callbacksMembers, List.append_nil]
      rw [Json.callbacksMembers_append, hone, runCallbacks_append, hrun, Option.bind_some]
      simp only [runCallbacks, callback, hkey, Option.bind_some]
      exact hrun₂
    · rw [hd.stack, Located.openFrames_zero, List.nil_append, hst₁, List.getLast?_concat]
      rfl
    · rw [Located.treeMembers_append, htree, Json.treeMembers_eq_map, Json.treeMembers_eq_map,
        List.map_append, List.map_singleton, ← hl]
      rfl

theorem MapHolds.delivered {s s' : ParserState} {ms : Located.Members} (depth : ℕ)
    (h : MapHolds (jsonStartMap s) s' s.heap.next ms)
    (hst : s'.stack = Located.openFrames depth (.map s.heap.next ms) ++ s.stack) :
    Delivered s s' (.map s.heap.next ms) depth := by
  have hnext : (jsonStartMap s).heap.next = s.heap.next + 1 := addNewNode_next s _
  have hitems : (hashNull.hashAddAll (ms.map fun m => (m.1.key, m.1.elt))).items =
      ms.map Prod.fst := by
    rw [Uthash.items_hashAddAll, List.map_map]
    exact List.map_congr_left fun m hm => (h.handles m hm).symm
  refine ⟨.map h.cell hitems h.keyValues h.within, ?_, ?_, ?_, hst⟩
  · have hal := h.allotted
    rw [hnext] at hal
    exact hal.cons
  · intro x hx
    have hlt : x < (jsonStartMap s).heap.next ∧ x ≠ s.heap.next := by
      rw [hnext]
      omega
    rw [h.old x hlt]
    exact addNewNode_old s _ x hx
  · rw [h.root]
    exact addNewNode_root s _

/-! ### Whole documents -/

theorem runCallbacks_array {es : List Json} (ih : ∀ e ∈ es, Delivers e.callbacks e.tree 0)
    {s : ParserState} (hs : s.CurLive) :
    ∃ s' ls, runCallbacks s (.startArray :: Json.callbacksElems es) = some s' ∧
      ArrayHolds (jsonStartArray s) s' s.heap.next ls ∧
      s'.stack = ⟨s.heap.next, some s.heap.next⟩ :: s.stack ∧
      Located.treeElems ls = Json.treeElems es := by
  have hnext : (jsonStartArray s).heap.next = s.heap.next + 1 := addNewNode_next s _
  have hst : (jsonStartArray s).stack = ⟨s.heap.next, some s.heap.next⟩ :: s.stack := by
    simp only [jsonStartArray, pushContainer, addNewNode_stack]
  obtain ⟨s', ls, hrun, hls, hst', htree⟩ :=
    runCallbacks_elems ih (by omega) hst (jsonStartArray_holds hs)
  exact ⟨s', ls, hrun, hls, hst'.trans hst, htree⟩

theorem runCallbacks_map {ms : List (Bytes × Json)}
    (ih : ∀ m ∈ ms, Delivers m.2.callbacks m.2.tree 0) {s : ParserState} (hs : s.CurLive) :
    ∃ s' ls, runCallbacks s (.startMap :: Json.callbacksMembers ms) = some s' ∧
      MapHolds (jsonStartMap s) s' s.heap.next ls ∧
      s'.stack = ⟨s.heap.next, ls.getLast?.map fun m => m.1.elt⟩ :: s.stack ∧
      Located.treeMembers ls = Json.treeMembers ms := by
  have hnext : (jsonStartMap s).heap.next = s.heap.next + 1 := addNewNode_next s _
  have hst : (jsonStartMap s).stack = ⟨s.heap.next, none⟩ :: s.stack := by
    simp only [jsonStartMap, pushContainer, addNewNode_stack]
  obtain ⟨s', ls, hrun, hls, hst', htree⟩ :=
    runCallbacks_members ih (by omega) hst (jsonStartMap_holds hs)
  exact ⟨s', ls, hrun, hls, hst', htree⟩

theorem popContainer_eq {s : ParserState} {a : ℕ} {cur : Ptr} {rest : List ContainerCtx} {n : Node}
    (hs : s.stack = ⟨a, cur⟩ :: rest) (hc : s.heap.cell a = some n) :
    popContainer s n.type = some { s with stack := rest } := by
  simp only [popContainer, hs, typeOf, Option.bind_some, hc, Option.map_some, if_true]

theorem runCallbacks_object {ms : List (Bytes × Json)}
    (ih : ∀ m ∈ ms, Delivers m.2.callbacks m.2.tree 0) {s : ParserState} (hs : s.CurLive) :
    ∃ s' ls, runCallbacks s (Json.object ms).callbacks = some s' ∧
      MapHolds (jsonStartMap s) s' s.heap.next ls ∧ s'.stack = s.stack ∧
      Located.treeMembers ls = Json.treeMembers ms := by
  obtain ⟨s', ls, hrun, hls, hst, htree⟩ := runCallbacks_map ih hs
  refine ⟨{ s' with stack := s.stack }, ls, ?_,
    ⟨hls.root, hls.cell, hls.handles, hls.keyValues, hls.within, hls.allotted, hls.old⟩,
    rfl, htree⟩
  have hpop := popContainer_eq hst hls.cell
  rw [Json.callbacks, ← List.cons_append, runCallbacks_append, hrun, Option.bind_some]
  exact congrArg (Option.bind · fun s => runCallbacks s []) hpop

theorem Json.delivers (j : Json) : Delivers j.callbacks j.tree 0 := by
  induction j with
  | literal v =>
    simp only [callbacks, tree]
    exact delivers_literal v
  | array es ih =>
    intro s hs
    obtain ⟨s', ls, hrun, hls, hst, htree⟩ := runCallbacks_array ih hs
    have hlen := length_of_treeElems htree
    have hpopped : ArrayHolds (jsonStartArray s) { s' with stack := s.stack } s.heap.next ls :=
      ⟨hls.root, hls.cell, hls.within, hls.allotted, hls.old⟩
    refine ⟨_, _, ?_, hpopped.delivered 0 ?_, ?_⟩
    · have hpop := popContainer_eq hst hls.cell
      rw [callbacks, ← List.cons_append, runCallbacks_append, hrun, Option.bind_some]
      exact congrArg (Option.bind · fun s => runCallbacks s []) hpop
    · rw [Located.openFrames_zero, List.nil_append]
    · rw [Located.tree, tree, htree, hlen]
  | object ms ih =>
    intro s hs
    obtain ⟨s', ls, hrun, hls, hst, htree⟩ := runCallbacks_object ih hs
    refine ⟨s', _, hrun, hls.delivered 0 ?_, ?_⟩
    · rw [Located.openFrames_zero, List.nil_append, hst]
    · rw [Located.tree, tree, htree]

theorem OpenDoc.delivers (o : OpenDoc) : Delivers o.callbacks o.tree o.depth := by
  induction o with
  | array done =>
    intro s hs
    obtain ⟨s', ls, hrun, hls, hst, htree⟩ := runCallbacks_array (fun e _ => e.delivers) hs
    have hlen := length_of_treeElems htree
    refine ⟨s', _, hrun, hls.delivered 1 ?_, ?_⟩
    · rw [hst, Located.openFrames, Located.openFrames_zero]
      rfl
    · rw [Located.tree, tree, htree, hlen]
  | object done =>
    intro s hs
    obtain ⟨s', ls, hrun, hls, hst, htree⟩ := runCallbacks_map (fun m _ => m.2.delivers) hs
    refine ⟨s', _, hrun, hls.delivered 1 ?_, ?_⟩
    · rw [hst, Located.openFrames, Located.openFrames_zero]
      rfl
    · rw [Located.tree, tree, htree]
  | objectKey done k =>
    intro s hs
    obtain ⟨s', ls, hrun, hls, hst, htree⟩ := runCallbacks_map (fun m _ => m.2.delivers) hs
    have hnext : (jsonStartMap s).heap.next = s.heap.next + 1 := addNewNode_next s _
    obtain ⟨s₁, hkey, hst₁, hls₁⟩ := hls.mapKey (by omega) hst k
    refine ⟨s₁, _, ?_, hls₁.delivered 1 ?_, ?_⟩
    · rw [callbacks, ← List.cons_append, runCallbacks_append, hrun, Option.bind_some]
      simp only [runCallbacks, callback, hkey, Option.bind_some]
    · rw [hst₁, Located.openFrames, Located.openFrames_zero, List.getLast?_concat]
      rfl
    · rw [Located.tree, tree, Located.treeMembers_append, htree]
      rfl
  | inArray done inner ih =>
    intro s hs
    obtain ⟨s', ls, hrun, hls, hst, htree⟩ := runCallbacks_array (fun e _ => e.delivers) hs
    have hlen := length_of_treeElems htree
    have hnext : (jsonStartArray s).heap.next = s.heap.next + 1 := addNewNode_next s _
    have hle := hls.allotted.le
    have hcur := ParserState.cur_of_stack hst
    have hlive : s'.CurLive := ParserState.curLive_of_stack hst (by omega)
    obtain ⟨s₁, l, hrun₁, hd, hl⟩ := ih s' hlive
    refine ⟨s₁, _, ?_, (hls.concat (by omega) hcur hd).delivered (inner.depth + 1) ?_, ?_⟩
    · rw [callbacks, ← List.cons_append, runCallbacks_append, hrun, Option.bind_some, hrun₁]
    · rw [hd.stack, hst, Located.openFrames, Located.lastValue_concat, List.append_assoc]
      rfl
    · rw [Located.tree, tree, List.length_append, hlen, Located.treeElems_append, htree, ← hl]
      rfl
  | inObject done k inner ih =>
    intro s hs
    obtain ⟨s', ls, hrun, hls, hst, htree⟩ := runCallbacks_map (fun m _ => m.2.delivers) hs
    have hnext : (jsonStartMap s).heap.next = s.heap.next + 1 := addNewNode_next s _
    obtain ⟨s₁, hkey, hst₁, hls₁⟩ := hls.mapKey (by omega) hst k
    have hcur := ParserState.cur_of_stack hst₁
    have hlive := hls₁.curLive hst₁
    obtain ⟨s₂, l, hrun₂, hd, hl⟩ := ih s₁ hlive
    refine ⟨s₂, _, ?_,
      (hls₁.value (by omega) hcur hd).delivered (inner.depth + 1) ?_, ?_⟩
    · rw [callbacks, ← List.cons_append, runCallbacks_append, hrun, Option.bind_some]
      simp only [runCallbacks, callback, hkey, Option.bind_some]
      exact hrun₂
    · rw [hd.stack, hst₁, Located.openFrames, List.map_append, List.map_singleton,
        Located.lastValue_concat, List.getLast?_concat, List.append_assoc]
      rfl
    · rw [Located.tree, tree, Located.treeMembers_append, htree, ← hl]
      rfl

/-! ### From an empty context -/

theorem emptyParser_curLive (h : Heap) : (emptyParser h).CurLive := by
  intro c hc
  cases hc

/-- The result of running some callbacks from an empty context over `h`. -/
structure Parsed (h : Heap) (s : ParserState) (l : Located) (depth : ℕ) : Prop where
  within : Located.In s.heap l
  allotted : Memory.Allotted h.next s.heap.next l.addrs
  old : Memory.Keeps (· < h.next) h s.heap
  root : s.root = l.ptr
  stack : s.stack = l.openFrames depth

theorem Delivered.parsed {h : Heap} {s : ParserState} {l : Located} {depth : ℕ}
    (hd : Delivered (emptyParser h) s l depth) : Parsed h s l depth := by
  refine ⟨hd.within, hd.allotted, hd.old, hd.root, ?_⟩
  rw [hd.stack]
  exact List.append_nil _

theorem Progress.parsed (r : Progress) (h : Heap) :
    ∃ s l, runCallbacks (emptyParser h) r.callbacks = some s ∧ Parsed h s l r.depth ∧
      l.tree = r.tree := by
  cases r with
  | unread =>
    exact ⟨emptyParser h, .nil, rfl,
      ⟨.nil, Memory.Allotted.nil _, Memory.Keeps.refl _ _, rfl, rfl⟩, rfl⟩
  | unfinished o =>
    obtain ⟨s, l, hrun, hd, hl⟩ := o.delivers _ (emptyParser_curLive h)
    exact ⟨s, l, hrun, hd.parsed, hl⟩
  | finished j =>
    obtain ⟨s, l, hrun, hd, hl⟩ := j.delivers _ (emptyParser_curLive h)
    exact ⟨s, l, hrun, hd.parsed, hl⟩

theorem Progress.parseJson_eq (r : Progress) (h : Heap) :
    ∃ s l, parseJson h r.callbacks = some (s.heap, l.ptr) ∧ Parsed h s l r.depth ∧
      l.tree = r.tree := by
  obtain ⟨s, l, hrun, hp, hl⟩ := r.parsed h
  refine ⟨s, l, ?_, hp, hl⟩
  rw [parseJson, hrun, Option.map_some, hp.root]

/-! ### Every prefix of a document -/

def Callback.IsValue : Callback → Prop
  | .mapKey _ => False
  | .endMap => False
  | .endArray => False
  | _ => True

omit [HashFcn] in
theorem Progress.tree_eq_nil {r : Progress} : r.tree = .nil ↔ r = .unread := by
  cases r with
  | unread => simp [tree]
  | unfinished o => cases o <;> simp [tree, OpenDoc.tree]
  | finished j => simp [tree, j.tree_ne_nil]

end Pillowtalk
