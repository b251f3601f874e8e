import Pillowtalk.Apart
import Pillowtalk.Reachable
import Pillowtalk.Session

/-!
# Maps are insertion-ordered dictionaries

The members of a map made by `pt_map_new` are those of a dictionary that
follows the calls of `pt_map_set` and `pt_map_unset` on it, whatever else is
called in between. A merge that reaches the map sets its members itself and is
left out here.
-/

namespace Pillowtalk
open Addressed Iteration

/-- The change that a call makes to the map at `m`. A set without a key or a
value makes none. -/
def Call.onMap (m : ℕ) : Call → Option (Ordered.Change Bytes ℕ)
  | .op (.edit (.mapSet map (some key) (some v))) =>
    if map = some m then some (.set (cstr key) v) else none
  | .op (.edit (.mapUnset map key)) => if map = some m then some (.unset (cstr key)) else none
  | _ => none

/-- The keys set are short enough for uthash to act as a dictionary of them. -/
def KeysFound (es : List (Ordered.Change Bytes ℕ)) : Prop := ∀ key v, .set key v ∈ es → Fits key

theorem KeysFound.keys {es : List (Ordered.Change Bytes ℕ)} (h : KeysFound es) :
    ∀ key ∈ Ordered.keys (Ordered.replay es), Fits key := by
  intro key hk
  obtain ⟨v, hv⟩ := Ordered.mem_keys_replay hk
  exact h key v hv

def history (m : ℕ) (cs : List Call) : List (Ordered.Change Bytes ℕ) := cs.filterMap (Call.onMap m)

/-- A member of a map: its handle and the address of its value. -/
abbrev Pairs := List (HashHandle ℕ × ℕ)

def entries (ms : Pairs) : Ordered.Dict Bytes ℕ := ms.map fun x => (x.1.key, x.2)

theorem entries_append (ms ns : Pairs) : entries (ms ++ ns) = entries ms ++ entries ns :=
  List.map_append

theorem entries_split (pre : Pairs) (hd : HashHandle ℕ) (v : ℕ) (post : Pairs) :
    entries (pre ++ (hd, v) :: post) = entries pre ++ (hd.key, v) :: entries post :=
  entries_append pre _

theorem keys_entries (ms : Pairs) : Ordered.keys (entries ms) = ms.map fun x => x.1.key := by
  rw [entries, Ordered.keys, List.map_map]
  rfl

theorem elt_ne_of_nodup {pre post : Pairs} {hd : HashHandle ℕ} {w : ℕ}
    (hnd : ((pre ++ (hd, w) :: post).map fun x => x.1.elt).Nodup) :
    ∀ x ∈ pre ++ post, x.1.elt ≠ hd.elt := by
  intro x hx he
  rw [List.map_append, List.map_cons, List.nodup_middle] at hnd
  refine (List.nodup_cons.mp hnd).1 ?_
  rw [← List.map_append]
  exact List.mem_map.mpr ⟨x, hx, he⟩

section
variable [HashFcn]

/-- The map at `m` has exactly the members `ms`, in this order. -/
structure Holds (h : Heap) (m : ℕ) (ms : Pairs) : Prop where
  cell : ∃ kvs : Uthash ℕ, h.cell m = some (.map kvs) ∧ kvs.items = ms.map Prod.fst
  member : ∀ x ∈ ms, h.cell x.1.elt = some (.keyValue x.1.key (some x.2))

theorem keys_of_holds {kvs : Uthash ℕ} {ms : Pairs} (hi : kvs.items = ms.map Prod.fst) :
    kvs.keys = Ordered.keys (entries ms) := by
  rw [keys_entries, Uthash.keys, hi, List.map_map]
  rfl

theorem Holds.elts_nodup {h : Heap} (hs : Sane h) {m : ℕ} {ms : Pairs} (hh : Holds h m ms) :
    (ms.map fun x => x.1.elt).Nodup := by
  obtain ⟨kvs, hc, hi⟩ := hh.cell
  have hnd := hs.owned.once m kvs hc
  rwa [hi, List.map_map] at hnd

/-- The map is gone, or it holds the dictionary `d`. -/
def DictAt (h : Heap) (m : ℕ) (d : Ordered.Dict Bytes ℕ) : Prop :=
  h.cell m = none ∨ ∃ ms, Holds h m ms ∧ entries ms = d

/-! ### Setting and unsetting -/

theorem Holds.kept {h h' : Heap} {m : ℕ} {ms : Pairs} (hh : Holds h m ms)
    (hk : ∀ kvs, h.cell m = some (.map kvs) → KeepsMap m kvs h h') :
    DictAt h' m (entries ms) := by
  obtain ⟨kvs, hc, hi⟩ := hh.cell
  rcases hk kvs hc with hdead | ⟨hc', hmembers⟩
  · exact Or.inl hdead
  · refine Or.inr ⟨ms, ⟨⟨kvs, hc', hi⟩, fun x hx => ?_⟩, rfl⟩
    have hin : x.1 ∈ kvs.items := by
      rw [hi]
      exact List.mem_map.mpr ⟨x, hx, rfl⟩
    exact (hmembers x.1 hin).trans (hh.member x hx)

theorem Holds.ptMapSet {h : Heap} (hs : Sane h) {m : ℕ} {ms : Pairs} (hh : Holds h m ms)
    (hnd : (Ordered.keys (entries ms)).Nodup) (hfit : ∀ k ∈ Ordered.keys (entries ms), Fits k)
    (key : Bytes) (v : ℕ) :
    DictAt (ptMapSet h (some m) (some key) (some v)) m (Ordered.set (entries ms) (cstr key) v) := by
  obtain ⟨kvs, hc, hi⟩ := hh.cell
  have hmap : asMap h (some m) = some (m, kvs) := asMap_eq_some.mpr ⟨rfl, hc⟩
  have hkeys := keys_of_holds hi
  simp only [Pillowtalk.ptMapSet, hmap]
  rcases Uthash.hashFind_split hi (fun k hk => hfit k (hkeys ▸ hk)) (hkeys ▸ hnd) (cstr key) with
    ⟨hf, hn⟩ | ⟨pre, hd, w, post, rfl, hk, hf, hpre⟩
  · simp only [hf]
    refine Or.inr ⟨ms ++ [(⟨h.next, cstr key, HashFcn.hash (cstr key)⟩, v)], ⟨⟨_,
      addMember_map hc (cstr key) (some v), ?_⟩, fun x hx => ?_⟩, ?_⟩
    · rw [Uthash.items_hashAddKeyptr, hi, List.map_append]
      rfl
    · rcases List.mem_append.mp hx with hx | hx
      · have hcell := hh.member x hx
        have hne : x.1.elt ≠ m := by
          intro he
          rw [he, hc] at hcell
          cases hcell
        exact (addMember_old (Memory.lt_next hcell).ne hne).trans hcell
      · rw [List.mem_singleton.mp hx]
        exact addMember_new hc (cstr key) (some v)
    · rw [Ordered.set_of_not_mem v (hkeys ▸ hn), entries_append]
      rfl
  · simp only [hf]
    have hmem : (hd, w) ∈ pre ++ (hd, w) :: post :=
      List.mem_append_right _ (List.mem_cons_self ..)
    have hkv : h.cell hd.elt = some (.keyValue hd.key (some w)) := hh.member _ hmem
    have hdm : m ≠ hd.elt := by
      intro he
      rw [← he, hc] at hkv
      cases hkv
    have hother := elt_ne_of_nodup (hh.elts_nodup hs)
    have hfree : KeepsMap m kvs h (ptFreeNode h (kvValue h hd.elt)) := KeepsMap.free hs hc hs.value
    rcases hfree with hdead | ⟨hc', hmembers⟩
    · exact Or.inl ((Memory.modify_cell_ne _ _ hdm).trans hdead)
    · have hold : ∀ x ∈ pre ++ (hd, w) :: post,
          (ptFreeNode h (kvValue h hd.elt)).cell x.1.elt =
            some (.keyValue x.1.key (some x.2)) := by
        intro x hx
        have hin : x.1 ∈ kvs.items := by
          rw [hi]
          exact List.mem_map.mpr ⟨x, hx, rfl⟩
        exact (hmembers x.1 hin).trans (hh.member x hx)
      refine Or.inr ⟨pre ++ (hd, v) :: post, ⟨⟨kvs, ?_, ?_⟩, fun x hx => ?_⟩, ?_⟩
      · exact (Memory.modify_cell_ne _ _ hdm).trans hc'
      · rw [hi, List.map_append, List.map_append]
        rfl
      · rcases List.mem_cons.mp (List.perm_middle.mem_iff.mp hx) with rfl | hx
        · exact Memory.modify_cell_self _ (hold _ hmem)
        · rw [Memory.modify_cell_ne _ _ (hother x hx)]
          exact hold x (List.perm_middle.mem_iff.mpr (List.mem_cons_of_mem _ hx))
      · rw [← keys_entries, ← hk] at hpre
        rw [entries_split, entries_split, ← hk, Ordered.set_append_cons w v _ hpre]

theorem Holds.ptMapUnset {h : Heap} (hs : Sane h) {m : ℕ} {ms : Pairs} (hh : Holds h m ms)
    (hnd : (Ordered.keys (entries ms)).Nodup) (hfit : ∀ k ∈ Ordered.keys (entries ms), Fits k)
    (key : Bytes) :
    DictAt (ptMapUnset h (some m) key) m (Ordered.unset (entries ms) (cstr key)) := by
  obtain ⟨kvs, hc, hi⟩ := hh.cell
  have hmap : asMap h (some m) = some (m, kvs) := asMap_eq_some.mpr ⟨rfl, hc⟩
  have hkeys := keys_of_holds hi
  simp only [Pillowtalk.ptMapUnset, hmap]
  rcases Uthash.hashFind_split hi (fun k hk => hfit k (hkeys ▸ hk)) (hkeys ▸ hnd) (cstr key) with
    ⟨hf, hn⟩ | ⟨pre, hd, w, post, rfl, hk, hf, hpre⟩
  · simp only [hf]
    rw [Ordered.unset_of_not_mem (hkeys ▸ hn)]
    exact Or.inr ⟨ms, hh, rfl⟩
  · simp only [hf]
    have hmem : (hd, w) ∈ pre ++ (hd, w) :: post :=
      List.mem_append_right _ (List.mem_cons_self ..)
    have hkv : h.cell hd.elt = some (.keyValue hd.key (some w)) := hh.member _ hmem
    have hother := elt_ne_of_nodup (hh.elts_nodup hs)
    have hnot : hd ∉ pre.map Prod.fst := by
      intro hin
      obtain ⟨x, hx, he⟩ := List.mem_map.mp hin
      exact hpre (List.mem_map.mpr ⟨x, hx, (congrArg HashHandle.key he).trans hk⟩)
    have hitems : (kvs.hashDelete hd).items = (pre ++ post).map Prod.fst := by
      rw [Uthash.items_hashDelete, hi, List.map_append, List.map_append, List.map_cons,
        List.erase_append_right _ hnot, List.erase_cons_head]
    have hdin : hd ∈ kvs.items := Uthash.hashFind_mem hf
    obtain ⟨hdel, -⟩ := hs.hashDelete hc hdin
    -- with the member taken out the map is one that keeps its members from then on
    have hset : Holds (h.modify m (Node.setKeyValues (kvs.hashDelete hd))) m (pre ++ post) := by
      refine ⟨⟨_, Memory.modify_cell_self _ hc, hitems⟩, fun x hx => ?_⟩
      have hcell := hh.member x (List.perm_middle.mem_iff.mpr (List.mem_cons_of_mem _ hx))
      have hxm : x.1.elt ≠ m := by
        intro he
        rw [he, hc] at hcell
        cases hcell
      exact (Memory.modify_cell_ne _ _ hxm).trans hcell
    have hkept : DictAt ((ptFreeNode (h.modify m (Node.setKeyValues (kvs.hashDelete hd)))
        (kvValue (h.modify m (Node.setKeyValues (kvs.hashDelete hd))) hd.elt)).free hd.elt) m
          (entries (pre ++ post)) := by
      refine hset.kept fun kvs' hc' => ?_
      have hfree := KeepsMap.free hdel hc' (p := kvValue _ hd.elt) hdel.value
      have hlt : m < h.next := Memory.lt_next hc
      refine hfree.step ?_ (Later.shrunk (Memory.shrunk_free _ _)) fun hc₂ => ?_
      · rw [(ptFreeNode_shrunk _ _).1]
        exact hlt
      · have hkvs : kvs' = kvs.hashDelete hd := by
          have hself := Memory.modify_cell_self (Node.setKeyValues (kvs.hashDelete hd)) hc
          rw [hc'] at hself
          exact Node.map.inj (Option.some.inj hself)
        have hdm : m ≠ hd.elt := by
          intro he
          rw [← he, hc] at hkv
          cases hkv
        refine Or.inr ⟨(Memory.free_cell_ne _ hdm).trans hc₂, fun x hx => ?_⟩
        rw [hkvs, hitems] at hx
        obtain ⟨y, hy, rfl⟩ := List.mem_map.mp hx
        exact Memory.free_cell_ne _ (hother y hy)
    rw [← keys_entries, ← hk] at hpre
    rw [entries_split, ← hk, Ordered.unset_append_cons w _ hpre, ← entries_append]
    exact hkept

/-! ### A session around the map -/

/-- A merge is not to reach the map at `m`. -/
def Call.Spares (h : Heap) (m : ℕ) : Call → Prop
  | .op (.edit (.mapUpdate root _ _ _)) => PtrIn (fun a => ¬Below h m a) root
  | _ => True

def Session.Spares (m : ℕ) : Session → List Call → Prop
  | _, [] => True
  | s, c :: cs => c.Spares s.heap m ∧ Session.Spares m (s.call c) cs

/-- A set that lacks the key or the value does nothing at all. -/
theorem ptMapSet_null (h : Heap) (map : Ptr) {key : Option Bytes} {value : Ptr}
    (hn : key = none ∨ value = none) : ptMapSet h map key value = h := by
  unfold ptMapSet
  split
  · rcases hn with hn | hn <;> cases hn
  · rfl

theorem edit_keepsMap {h : Heap} (hs : Sane h) {m : ℕ} {kvs : Uthash ℕ}
    (hm : h.cell m = some (.map kvs)) {e : Edit} (hargs : ∀ p ∈ e.args, Proper h p)
    (hsp : (Call.op (.edit e)).Spares h m) (hnot : (Call.op (.edit e)).onMap m = none) :
    KeepsMap m kvs h (edit h e) := by
  have hnew : ∀ n, KeepsMap m kvs h (h.alloc n) :=
    fun n => KeepsMap.of_old hs hm (Memory.keeps_alloc h n)
  cases e with
  | mapNew => exact hnew _
  | arrayNew => exact hnew _
  | nullNew => exact hnew _
  | boolNew boolean => exact hnew _
  | integerNew integer => exact hnew _
  | doubleNew dbl => exact hnew _
  | stringNew str => exact hnew _
  | clone root => exact KeepsMap.of_old hs hm (cloneNode_keeps _ h root)
  | mapUpdate root additions append fuel =>
    exact updateMap_keepsMap hs hm fuel hsp additions append
  | arrayPushBack array node => exact KeepsMap.ptArrayPushBack hs hm array node
  | arrayPushFront array node => exact KeepsMap.ptArrayPushFront hs hm array node
  | arrayRemove array node => exact KeepsMap.ptArrayRemove hs hm array node
  | freeNode node => exact KeepsMap.free hs hm (hargs node (by simp [Edit.args]))
  | mapUnset map key =>
    have hne : map ≠ some m := by
      rintro rfl
      simp [Call.onMap] at hnot
    exact KeepsMap.ptMapUnset hs hm hne key
  | mapSet map key value =>
    have hnull : key = none ∨ value = none → KeepsMap m kvs h (ptMapSet h map key value) := by
      intro hn
      rw [ptMapSet_null h map hn]
      exact KeepsMap.refl hm
    cases key with
    | none => exact hnull (Or.inl rfl)
    | some k =>
      cases value with
      | none => exact hnull (Or.inr rfl)
      | some v =>
        have hne : map ≠ some m := by
          rintro rfl
          simp [Call.onMap] at hnot
        exact KeepsMap.ptMapSet hs hm hne (some k) (some v)

theorem call_keepsMap {s : Session} (hs : s.Sound) {m : ℕ} {kvs : Uthash ℕ}
    (hm : s.heap.cell m = some (.map kvs)) {c : Call} (hc : s.Allows c)
    (hsp : c.Spares s.heap m) (hnot : c.onMap m = none) :
    KeepsMap m kvs s.heap (s.call c).heap := by
  cases c with
  | op o =>
    cases o with
    | edit e =>
      refine edit_keepsMap hs.sane hm (fun p hp => ?_) hsp hnot
      rcases hc p hp with rfl | hgiven
      · exact proper_null _
      · exact hs.given p hgiven
    | fromJson doc delivered =>
      obtain ⟨r, hr⟩ := doc.prefix_progress (List.take_prefix delivered _)
      obtain ⟨p, l, -, hstep, hp, -⟩ := step_fromJson s.heap hr
      have hheap : (s.call (.op (.fromJson doc delivered))).heap = p.heap := hstep
      rw [hheap]
      exact KeepsMap.of_old hs.sane hm hp.old
  | mapGet map key => exact KeepsMap.refl hm
  | arrayGet array idx => exact KeepsMap.refl hm
  | iterate node calls => exact KeepsMap.refl hm

/-- One call, on the map or elsewhere. -/
theorem DictAt.call {s : Session} (hs : s.Sound) {m : ℕ} (hlt : m < s.heap.next) {c : Call}
    (hc : s.Allows c) (hsp : c.Spares s.heap m) {es : List (Ordered.Change Bytes ℕ)}
    (hf : KeysFound es) (hd : DictAt s.heap m (Ordered.replay es)) :
    DictAt (s.call c).heap m (Ordered.replay (es ++ (c.onMap m).toList)) := by
  rcases hd with hdead | ⟨ms, hh, he⟩
  · exact Or.inl ((s.later_call c).dead m hlt hdead)
  · have hnd : (Ordered.keys (entries ms)).Nodup := by
      rw [he]
      exact Ordered.nodup_keys_replay es
    have hfit : ∀ k ∈ Ordered.keys (entries ms), Fits k := by
      rw [he]
      exact hf.keys
    cases hon : c.onMap m with
    | none =>
      rw [Option.toList_none, List.append_nil, ← he]
      exact hh.kept fun kvs hm => call_keepsMap hs hm hc hsp hon
    | some e =>
      rw [Option.toList_some, Ordered.replay_concat, ← he]
      unfold Call.onMap at hon
      split at hon
      · next map key v =>
        split at hon
        · next hmap =>
          cases hon
          subst hmap
          exact hh.ptMapSet hs.sane hnd hfit key v
        · cases hon
      · next map key =>
        split at hon
        · next hmap =>
          cases hon
          subst hmap
          exact hh.ptMapUnset hs.sane hnd hfit key
        · cases hon
      · cases hon

theorem DictAt.run {s : Session} (hs : s.Sound) {m : ℕ} (hlt : m < s.heap.next) {cs : List Call}
    (hv : s.Valid cs) (hsp : s.Spares m cs) {es : List (Ordered.Change Bytes ℕ)}
    (hf : KeysFound (es ++ history m cs)) (hd : DictAt s.heap m (Ordered.replay es)) :
    DictAt (s.run cs).heap m (Ordered.replay (es ++ history m cs)) := by
  induction cs generalizing s es with
  | nil =>
    rw [history, List.filterMap_nil, List.append_nil]
    exact hd
  | cons c cs ih =>
    have hhist : history m (c :: cs) = (c.onMap m).toList ++ history m cs := by
      rw [history, List.filterMap_cons]
      cases c.onMap m with
      | none => rfl
      | some e => rfl
    rw [hhist, ← List.append_assoc] at hf ⊢
    have hcall := hd.call hs hlt hv.1 hsp.1 fun key v hm =>
      hf key v (List.mem_append_left _ (List.mem_append_left _ hm))
    have hlt' := lt_of_lt_of_le hlt (s.later_call c).le
    exact ih (hs.call hv.1) hlt' hv.2 hsp.2 hf hcall

/-! ### The four views -/

theorem generateMembers_eq_flatMap (generate : Ptr → List GenCall) {h : Heap} {ms : Pairs}
    (hk : ∀ x ∈ ms, h.cell x.1.elt = some (.keyValue x.1.key (some x.2))) :
    generateMembers generate h (ms.map Prod.fst) =
      (entries ms).flatMap fun e => .string (cstr e.1) :: generate (some e.2) := by
  induction ms with
  | nil => rfl
  | cons x ms ih =>
    have hcell : h.cell x.1.elt = some (.keyValue x.1.key (some x.2)) :=
      hk x (List.mem_cons_self ..)
    simp only [List.map_cons, generateMembers, hcell, entries, List.flatMap_cons, List.cons_append]
    rw [ih fun y hy => hk y (List.mem_cons_of_mem _ hy)]
    rfl

/-- One round of the loop of `pt_clone` over the members of a map. -/
def cloneMember (clone : Heap → Ptr → Heap × Ptr) (target : Ptr) (h : Heap)
    (e : Bytes × ℕ) : Heap :=
  ptMapSet (clone h (some e.2)).1 target (some e.1) (clone h (some e.2)).2

/-- The members of the source are still there in every round. -/
theorem cloneMembers_eq_foldl {n : ℕ} (fuel : ℕ) {h₀ h : Heap} {target : Ptr}
    (ht : PtrIn (n ≤ ·) target) {ms : Pairs}
    (hk : ∀ x ∈ ms, x.1.elt < n ∧ h₀.cell x.1.elt = some (.keyValue x.1.key (some x.2)))
    (ha : AboveOnly n h₀ h) :
    cloneMembers (cloneNode fuel) target h (ms.map Prod.fst) =
      (entries ms).foldl (cloneMember (cloneNode fuel) target) h := by
  induction ms generalizing h with
  | nil => rfl
  | cons x ms ih =>
    obtain ⟨hlt, hold⟩ := hk x (List.mem_cons_self ..)
    have hcell : h.cell x.1.elt = some (.keyValue x.1.key (some x.2)) :=
      (ha.keeps x.1.elt hlt).trans hold
    have hcopy := (AboveOnly.copying n h₀).cloneNode fuel ha (some x.2)
    have hset := hcopy.holds.ptMapSet ht (some x.1.key) hcopy.value
    simp only [List.map_cons, cloneMembers, hcell]
    rw [ih (fun y hy => hk y (List.mem_cons_of_mem _ hy)) hset]
    rfl

/-- Every way to look at the map shows the dictionary `d`. -/
structure ShowsDict (h : Heap) (m : ℕ) (d : Ordered.Dict Bytes ℕ) : Prop where
  get : ∀ key, ptMapGet h (some m) (some key) = Ordered.get d (cstr key)
  iterated : answers (ptIteratorNext h) d.length (ptIterator h (some m)) =
    d.map fun e => (some e.2, some e.1)
  generated : generateNodeJson h (some m) =
    .mapOpen :: ((d.flatMap fun e => .string (cstr e.1) :: generateNode h.next h (some e.2)) ++
      [.mapClose])
  cloned : ptClone h (some m) =
    (d.foldl (cloneMember (cloneNode h.next) (some h.next)) (ptMapNew h).1, some h.next)

theorem Holds.shows {h : Heap} {m : ℕ} {ms : Pairs} (hh : Holds h m ms)
    (hnd : (Ordered.keys (entries ms)).Nodup) (hfit : ∀ k ∈ Ordered.keys (entries ms), Fits k) :
    ShowsDict h m (entries ms) := by
  obtain ⟨kvs, hc, hi⟩ := hh.cell
  have hmap : asMap h (some m) = some (m, kvs) := asMap_eq_some.mpr ⟨rfl, hc⟩
  have hkeys := keys_of_holds hi
  refine ⟨fun key => ?_, ?_, ?_, ?_⟩
  · simp only [ptMapGet, hmap]
    rcases Uthash.hashFind_split hi (fun k hk => hfit k (hkeys ▸ hk)) (hkeys ▸ hnd) (cstr key) with
      ⟨hf, hn⟩ | ⟨pre, hd, v, post, rfl, hk, hf, -⟩
    · rw [hf, Ordered.get_eq_none_iff.mpr (hkeys ▸ hn)]
    · have hmem : (hd, v) ∈ pre ++ (hd, v) :: post :=
        List.mem_append_right _ (List.mem_cons_self ..)
      have hentry : (cstr key, v) ∈ entries (pre ++ (hd, v) :: post) :=
        List.mem_map.mpr ⟨(hd, v), hmem, by rw [hk]⟩
      rw [hf, Ordered.get_of_mem hnd hentry]
      exact kvValue_of_cell (hh.member _ hmem)
  · have hview : PtIterator.view h (ptIterator h (some m)) =
        (entries ms).map fun e => (some e.2, some e.1) := by
      simp only [ptIterator, Option.bind_some, hc, PtIterator.view, hi, entries, List.map_map]
      refine List.map_congr_left fun x hx => ?_
      simp only [Function.comp_apply, visitPair, hh.member x hx]
    have hlen : (PtIterator.view h (ptIterator h (some m))).length = (entries ms).length := by
      rw [hview, List.length_map]
    rw [(ptIterator_walks h).answers_eq _ _ hlen.ge, ← hlen, List.take_length, hview]
  · simp only [generateNodeJson, generateNode, hc, hi, generateMembers_eq_flatMap _ hh.member]
  · have hnew := (AboveOnly.copying h.next h).newNode (AboveOnly.start h) Node.New.map
    have htarget : PtrIn (h.next ≤ ·) (some h.next) := by
      intro a ha
      cases ha
      exact le_refl _
    have hloop := cloneMembers_eq_foldl h.next htarget
      (fun x hx => ⟨Memory.lt_next (hh.member x hx), hh.member x hx⟩) hnew.holds
    simp only [ptClone, cloneNode, hc, hi]
    rw [show (ptMapNew h).2 = some h.next from rfl]
    exact congrArg (·, some h.next) hloop

/-- After any calls from its creation on, as long as it is there, a map shows the
dictionary of the sets and unsets made on it, and a lookup finds the latest value.
Uthash acts as a dictionary of the keys that it finds again. -/
theorem dictionary_run (before after : List Call) (hb : Session.start.Valid before)
    (ha : ((Session.start.run before).call (.op (.edit .mapNew))).Valid after)
    (hsp : ((Session.start.run before).call (.op (.edit .mapNew))).Spares
      (Session.start.run before).heap.next after)
    (hfound : KeysFound (history (Session.start.run before).heap.next after))
    (hlive : (((Session.start.run before).call (.op (.edit .mapNew))).run after).heap.cell
      (Session.start.run before).heap.next ≠ none) :
    ShowsDict (((Session.start.run before).call (.op (.edit .mapNew))).run after).heap
        (Session.start.run before).heap.next
        (Ordered.replay (history (Session.start.run before).heap.next after)) ∧
      ∀ key, ptMapGet (((Session.start.run before).call (.op (.edit .mapNew))).run after).heap
          (some (Session.start.run before).heap.next) (some key) =
        Ordered.latest (history (Session.start.run before).heap.next after) (cstr key) := by
  have hsound := Session.sound_start.run hb
  generalize Session.start.run before = s at hsound ha hsp hfound hlive ⊢
  have hnew : (Call.op (.edit .mapNew)).args = [] := rfl
  have hcall := hsound.call (c := .op (.edit .mapNew)) fun p hp => by
    rw [hnew] at hp
    cases hp
  have hstart : DictAt (s.call (.op (.edit .mapNew))).heap s.heap.next (Ordered.replay []) :=
    Or.inr ⟨[], ⟨⟨hashNull, Memory.alloc_cell_next _ _, rfl⟩,
      fun x hx => absurd hx List.not_mem_nil⟩, rfl⟩
  have hrun := hstart.run hcall (Nat.lt_succ_self s.heap.next) ha hsp hfound
  rw [List.nil_append] at hrun
  obtain ⟨ms, hh, he⟩ := hrun.resolve_left hlive
  have hnd := Ordered.nodup_keys_replay (history s.heap.next after)
  have hshows := hh.shows (he ▸ hnd) (he ▸ hfound.keys)
  rw [he] at hshows
  refine ⟨hshows, fun key => ?_⟩
  rw [hshows.get key, Ordered.get_replay]

end

/-- `a` and `b` are set, `a` is set to `NULL`, unset and set again: it comes last. -/
def resetCalls : List Call :=
  [.op (.edit .nullNew), .op (.edit (.integerNew 7)),
    .op (.edit (.mapSet (some 0) (some [97]) (some 1))),
    .op (.edit (.mapSet (some 0) (some [98]) (some 2))),
    .op (.edit (.mapSet (some 0) (some [97]) none)), .op (.edit (.mapUnset (some 0) [97])),
    .op (.edit .nullNew), .op (.edit (.mapSet (some 0) (some [97]) (some 5)))]

section
local instance resetFcn : HashFcn := hashMurFcn

theorem keysFound_reset : KeysFound (history 0 resetCalls) := by
  intro key v hm
  have hset : key = [97] ∨ key = [98] := by
    simp [history, resetCalls, Call.onMap, cstr] at hm
    tauto
  rcases hset with rfl | rfl <;> decide

theorem dictionary_run_reset :
    ShowsDict ((Session.start.call (.op (.edit .mapNew))).run resetCalls).heap 0
      [([98], 2), ([97], 5)] :=
  (dictionary_run [] resetCalls trivial (by decide +kernel)
    ⟨trivial, trivial, trivial, trivial, trivial, trivial, trivial, trivial, trivial⟩
    keysFound_reset (Option.isSome_iff_ne_none.mp (by decide +kernel))).1

end
end Pillowtalk
