import Pillowtalk.CloneSpec
import Pillowtalk.Uthash.Order

/-!
# Lookup in maps built in two ways

The parser adds a member for every key it meets (`json_map_key`), while
`pt_map_set` replaces the value of a key that is there. Both maps are read with
`pt_map_get`.
-/

namespace Pillowtalk
open Addressed

section
variable [HashFcn]

/-! ### Occurrences of a key -/

theorem mem_of_occurrences {α : Type} {t : Uthash Unit} {key : Bytes} {ms : List (Bytes × α)}
    {o : ℕ × α} (h : o ∈ occurrences t key ms) : (key, o.2) ∈ ms := by
  induction ms generalizing t with
  | nil => cases h
  | cons m ms ih =>
    simp only [occurrences] at h
    split at h
    · next hk =>
      rcases List.mem_cons.mp h with rfl | h
      · rw [← hk]
        exact List.mem_cons_self ..
      · exact List.mem_cons_of_mem _ (ih h)
    · exact List.mem_cons_of_mem _ (ih h)

theorem mem_of_lastEven {α : Type} {key : Bytes} {ms : List (Bytes × α)} {x : α}
    (h : lastEven key ms = some x) : (key, x) ∈ ms := by
  simp only [lastEven, Option.map_eq_some_iff] at h
  obtain ⟨o, ho, rfl⟩ := h
  rcases Option.or_eq_some_iff.mp ho with ho | ⟨-, ho⟩
  · exact mem_of_occurrences (List.mem_filter.mp (List.mem_of_getLast? ho)).1
  · exact mem_of_occurrences (List.mem_of_mem_head? ho)

theorem occurrences_values {α : Type} (t : Uthash Unit) (key : Bytes) (ms : List (Bytes × α)) :
    (occurrences t key ms).map Prod.snd = (ms.filter fun m => m.1 = key).map Prod.snd := by
  induction ms generalizing t with
  | nil => rfl
  | cons m ms ih =>
    simp only [occurrences]
    by_cases hk : m.1 = key
    · rw [if_pos hk, List.filter_cons_of_pos (by simpa using hk), List.map_cons, List.map_cons, ih,
        List.map_cons]
    · rw [if_neg hk, List.filter_cons_of_neg (by simpa using hk), ih]

theorem occurrences_le {α : Type} {t : Uthash Unit} {key : Bytes} {ms : List (Bytes × α)}
    {o : ℕ × α} (h : o ∈ occurrences t key ms) : o.1 ≤ expansions t (ms.map Prod.fst) := by
  induction ms generalizing t with
  | nil => cases h
  | cons m ms ih =>
    have hlater : o ∈ occurrences (t.hashAddKeyptr m.1 ()) key ms →
        o.1 ≤ expansions t ((m :: ms).map Prod.fst) := by
      intro ho
      have hle := ih ho
      simp only [List.map_cons, expansions]
      omega
    simp only [occurrences] at h
    split at h
    · rcases List.mem_cons.mp h with rfl | h
      · exact Nat.le_refl _
      · exact hlater h
    · exact hlater h

/-- As long as no bucket is expanded the last value of a key is found. -/
theorem lastEven_eq_lastOf {α : Type} {ms : List (Bytes × α)}
    (h : expansions hashNull (ms.map Prod.fst) = 0) (key : Bytes) :
    lastEven key ms = Ordered.lastOf ms key := by
  have heven : (occurrences hashNull key ms).filter (fun o => Even o.1) =
      occurrences hashNull key ms := by
    rw [List.filter_eq_self]
    intro o ho
    have hle := occurrences_le ho
    have hzero : o.1 = 0 := by omega
    simp [hzero]
  have hlast : ((occurrences hashNull key ms).map Prod.snd).getLast? =
      ((ms.filter fun m => m.1 = key).map Prod.snd).getLast? := by
    rw [occurrences_values]
  simp only [List.getLast?_map] at hlast
  rw [lastEven, heven, Ordered.lastOf, ← hlast]
  cases hocc : (occurrences hashNull key ms).getLast? with
  | some o => rfl
  | none =>
    rw [List.getLast?_eq_none_iff.mp hocc]
    rfl

/-! ### The two maps -/

theorem ptMapGet_parsed (members : List (Bytes × Json)) (hfit : ∀ m ∈ members, Fits m.1)
    (hroom : Roomy hashNull (members.map Prod.fst)) (h : Heap) :
    ∃ s, runCallbacks (emptyParser h) (Json.object members).callbacks = some s ∧
      ∀ k, ∃ l, Located.In s.heap l ∧ ptMapGet s.heap s.root (some k) = l.ptr ∧
        l.tree = (lastEven (cstr k) (Json.treeMembers members)).getD .nil := by
  obtain ⟨s, ls, hrun, hls, -, htree⟩ :=
    runCallbacks_object (fun m (_ : m ∈ members) => m.2.delivers) (emptyParser_curLive h)
  refine ⟨s, hrun, fun k => ?_⟩
  have hroot : s.root = some h.next := hls.root
  have hcell : s.heap.cell h.next =
      some (.map (hashNull.hashAddAll (ls.map fun m => (m.1.key, m.1.elt)))) := hls.cell
  have hadded : (ls.map fun m => (m.1.key, m.1.elt)) =
      (ls.map fun m => (m.1.key, m)).map fun x => (x.1, x.2.1.elt) := by
    rw [List.map_map]
    rfl
  have hkeys : ((ls.map fun m => (m.1.key, m)).map fun x => (x.1, x.2.1.elt)).map Prod.fst =
      members.map Prod.fst := by
    have hfst := congrArg (List.map Prod.fst) htree
    rw [Located.treeMembers_eq_map, Json.treeMembers_eq_map, List.map_map, List.map_map] at hfst
    rw [List.map_map, List.map_map]
    exact hfst
  have hadd : ∀ m ∈ (ls.map fun m => (m.1.key, m)).map fun x => (x.1, x.2.1.elt), Fits m.1 := by
    intro m hm
    have hmem := List.mem_map_of_mem (f := Prod.fst) hm
    rw [hkeys] at hmem
    obtain ⟨n, hn, he⟩ := List.mem_map.mp hmem
    exact he ▸ hfit n hn
  have htrees : Json.treeMembers members =
      (ls.map fun m => (m.1.key, m)).map fun x => (x.1, x.2.2.tree) := by
    rw [← htree, Located.treeMembers_eq_map, List.map_map]
    rfl
  have hget : ptMapGet s.heap s.root (some k) =
      match lastEven (cstr k) (ls.map fun m => (m.1.key, m)) with
      | none => none
      | some m => kvValue s.heap m.1.elt := by
    rw [hroot]
    simp only [ptMapGet, Located.asMap_of_in hcell]
    rw [hadded, hashFind_hashAddAll hadd (hkeys ▸ hroom),
      lastEven_map (cstr k) fun m : HashHandle ℕ × Located => m.1.elt]
    cases lastEven (cstr k) (ls.map fun m => (m.1.key, m)) <;> rfl
  rw [hget, htrees, lastEven_map (cstr k) fun m : HashHandle ℕ × Located => m.2.tree]
  cases hf : lastEven (cstr k) (ls.map fun m => (m.1.key, m)) with
  | none => exact ⟨.nil, .nil, rfl, rfl⟩
  | some m =>
    obtain ⟨x, hm, hx⟩ := List.mem_map.mp (mem_of_lastEven hf)
    obtain ⟨-, rfl⟩ := Prod.mk.inj hx
    exact ⟨x.2, hls.within x hm, kvValue_of_cell (hls.keyValues x hm), rfl⟩

/-- `pt_map_set` for each of the members, the values made by `parse_json`. -/
def ptMapSetAll (h : Heap) (map : Ptr) : List (Bytes × Json) → Heap
  | [] => h
  | (k, v) :: ms =>
    match parseJson h v.callbacks with
    | some (h, value) => ptMapSetAll (ptMapSet h map (some k) value) map ms
    | none => h

theorem parseJson_fresh (j : Json) (h : Heap) :
    ∃ h' l, parseJson h j.callbacks = some (h', l.ptr) ∧ Located.Fresh h h' l ∧ l.tree = j.tree := by
  obtain ⟨s, l, hrun, hp, hl⟩ := (Progress.finished j).parsed h
  refine ⟨s.heap, l, ?_, ⟨hp.within, hp.allotted.nodup, fun x hx => ((hp.allotted.mem x).mp hx).1,
    hp.old, hp.allotted.le⟩, hl⟩
  rw [← hp.root]
  exact congrArg (Option.map fun s => (s.heap, s.root)) hrun

theorem ptMapSetAll_fresh (members : List (Bytes × Json)) (hfit : ∀ m ∈ members, Fits m.1)
    {h h₁ : Heap} {t : ℕ} {acc : Located.Members} (hacc : Located.Fresh h h₁ (.map t acc))
    (hd : Tree.Keyed (Located.treeMembers acc)) :
    ∃ acc', Located.Fresh h (ptMapSetAll h₁ (some t) members) (.map t acc') ∧
      Tree.Keyed (Located.treeMembers acc') ∧
      Located.treeMembers acc' = members.foldl (fun d m => Ordered.set d (cstr m.1) m.2.tree)
        (Located.treeMembers acc) := by
  induction members generalizing h₁ acc with
  | nil => exact ⟨acc, hacc, hd, rfl⟩
  | cons m members ih =>
    obtain ⟨k, v⟩ := m
    obtain ⟨h₂, l, hparse, hl, htree⟩ := parseJson_fresh v h₁
    obtain ⟨acc₁, hacc₁, hset⟩ := hacc.setMember hl hd k
    rw [htree, Tree.setMember_of_ne v.tree_ne_nil] at hset
    have hd₁ : Tree.Keyed (Located.treeMembers acc₁) := by
      rw [hset]
      exact hd.set (Tree.fits_cstr (hfit _ (List.mem_cons_self ..))) _
    obtain ⟨acc₂, hacc₂, hd₂, htrees⟩ :=
      ih (fun n hn => hfit n (List.mem_cons_of_mem _ hn)) hacc₁ hd₁
    refine ⟨acc₂, ?_, hd₂, ?_⟩
    · simp only [ptMapSetAll, hparse]
      exact hacc₂
    · rw [htrees, hset]
      rfl

theorem ptMapGet_setAll (members : List (Bytes × Json)) (hk : ∀ m ∈ members, 0 ∉ m.1)
    (hfit : ∀ m ∈ members, Fits m.1) (h : Heap) (k : Bytes) :
    let n := ptMapSetAll (ptMapNew h).1 (ptMapNew h).2 members
    ∃ l, Located.In n l ∧ ptMapGet n (ptMapNew h).2 (some k) = l.ptr ∧
      l.tree = (Ordered.lastOf (Json.treeMembers members) (cstr k)).getD .nil := by
  intro n
  have hnew : Located.Fresh h (ptMapNew h).1 (.map h.next []) :=
    Located.fresh_alloc (.map (Memory.alloc_cell_next _ _) rfl
      (fun m hm => absurd hm List.not_mem_nil) fun m hm => absurd hm List.not_mem_nil) rfl
  obtain ⟨acc, hacc, hd, htrees⟩ := ptMapSetAll_fresh members hfit hnew Tree.keyed_nil
  have hfold : Located.treeMembers acc =
      (Json.treeMembers members).foldl (fun d m => Ordered.set d m.1 m.2) [] := by
    rw [htrees, Json.treeMembers_eq_map, List.foldl_map]
    exact List.foldl_ext _ _ _ fun d m hm => by rw [cstr_of_not_mem (hk m hm)]
  refine ⟨Located.lookup acc (cstr k), hacc.within.lookup _, Located.ptMapGet_eq hacc.within hd k,
    ?_⟩
  rw [Located.tree_lookup, Tree.lookup, hfold, Ordered.get_foldl_set, Ordered.get_nil,
    Option.or_none]

/-! ### Comparing them -/

/-- Both pointers are `NULL`, or both point to equal values. -/
def SameValue (h : Heap) (p : Ptr) (h' : Heap) (p' : Ptr) : Prop :=
  ∃ l l', Located.In h l ∧ Located.In h' l' ∧ l.ptr = p ∧ l'.ptr = p' ∧ l.tree = l'.tree

theorem sameValue_iff {h h' : Heap} {l l' : Located} (hl : Located.In h l)
    (hl' : Located.In h' l') : SameValue h l.ptr h' l'.ptr ↔ l.tree = l'.tree := by
  constructor
  · rintro ⟨x, x', hx, hx', hp, hp', heq⟩
    rw [← hx.det hl hp, ← hx'.det hl' hp']
    exact heq
  · exact fun heq => ⟨l, l', hl, hl', rfl, rfl, heq⟩

omit [HashFcn] in
theorem getD_tree_inj {o o' : Option Tree}
    (h : ∀ t ∈ o, t ≠ .nil) (h' : ∀ t ∈ o', t ≠ .nil) : o.getD .nil = o'.getD .nil ↔ o = o' := by
  cases o with
  | none =>
    cases o' with
    | none => simp
    | some t' => simpa using (h' t' rfl).symm
  | some t =>
    cases o' with
    | none => simpa using h t rfl
    | some t' => simp

theorem sameValue_lookups (members : List (Bytes × Json)) (hk : ∀ m ∈ members, 0 ∉ m.1)
    (hfit : ∀ m ∈ members, Fits m.1) (hroom : Roomy hashNull (members.map Prod.fst))
    (h h' : Heap) :
    ∃ s, runCallbacks (emptyParser h) (Json.object members).callbacks = some s ∧ ∀ k,
      (let n := ptMapSetAll (ptMapNew h').1 (ptMapNew h').2 members
       SameValue s.heap (ptMapGet s.heap s.root (some k)) n (ptMapGet n (ptMapNew h').2 (some k)) ↔
        lastEven (cstr k) (Json.treeMembers members) =
          Ordered.lastOf (Json.treeMembers members) (cstr k)) := by
  obtain ⟨s, hrun, hparsed⟩ := ptMapGet_parsed members hfit hroom h
  refine ⟨s, hrun, fun k => ?_⟩
  obtain ⟨l, hl, hp, htree⟩ := hparsed k
  obtain ⟨l', hl', hp', htree'⟩ := ptMapGet_setAll members hk hfit h' k
  have hne : ∀ x t, (x, t) ∈ Json.treeMembers members → t ≠ .nil := by
    intro x t hm
    rw [Json.treeMembers_eq_map] at hm
    obtain ⟨m, -, hm⟩ := List.mem_map.mp hm
    rw [← (Prod.mk.inj hm).2]
    exact m.2.tree_ne_nil
  simp only [hp, hp', sameValue_iff hl hl', htree, htree']
  refine getD_tree_inj (fun t ht => hne _ t (mem_of_lastEven ht)) fun t ht => ?_
  obtain ⟨m, hm, rfl⟩ := Option.map_eq_some_iff.mp ht
  exact hne m.1 m.2 (List.mem_filter.mp (List.mem_of_getLast? hm)).1

/-- Neither the table of the parsed map nor that of the other, which gets every key once,
has to expand where it cannot. -/
def RoomForBoth (keys : List Bytes) : Prop := Roomy hashNull keys ∧ Roomy hashNull keys.eraseDups

/-- The parsed map and the one set member by member agree on every key exactly
when, for every key, the last occurrence and the last one with an even number of
expansions after it have the same value. No member has a key that is too long to
be found. -/
theorem ptMapGet_parsed_iff (members : List (Bytes × Json)) (hk : ∀ m ∈ members, 0 ∉ m.1)
    (hfit : ∀ m ∈ members, Fits m.1) (hroom : RoomForBoth (members.map Prod.fst))
    (h h' : Heap) :
    ∃ s, runCallbacks (emptyParser h) (Json.object members).callbacks = some s ∧
      (let n := ptMapSetAll (ptMapNew h').1 (ptMapNew h').2 members
       (∀ k, SameValue s.heap (ptMapGet s.heap s.root (some k))
          n (ptMapGet n (ptMapNew h').2 (some k))) ↔
        ∀ key, 0 ∉ key → lastEven key (Json.treeMembers members) =
          Ordered.lastOf (Json.treeMembers members) key) := by
  obtain ⟨s, hrun, hiff⟩ := sameValue_lookups members hk hfit hroom.1 h h'
  refine ⟨s, hrun, ?_⟩
  constructor
  · intro hsame key hkey
    have hone := (hiff key).mp (hsame key)
    rwa [cstr_of_not_mem hkey] at hone
  · intro hlast k
    exact (hiff k).mpr (hlast (cstr k) (zero_not_mem_cstr k))

end

/-- `"a":1` so many times, then `"a":2`. -/
def repeats (n : ℕ) : List (Bytes × Json) :=
  List.replicate n ([97], .literal (.integer 1)) ++ [([97], .literal (.integer 2))]

section
local instance lookupFcn : HashFcn := hashMurFcn

/-- Nine members of one key do not expand the buckets yet. -/
theorem ptMapGet_parsed_nine :
    ∃ s, runCallbacks (emptyParser heapEmpty) (Json.object (repeats 8)).callbacks = some s ∧
      (let n := ptMapSetAll (ptMapNew heapEmpty).1 (ptMapNew heapEmpty).2 (repeats 8)
       ∀ k, SameValue s.heap (ptMapGet s.heap s.root (some k))
        n (ptMapGet n (ptMapNew heapEmpty).2 (some k))) := by
  obtain ⟨s, hrun, hiff⟩ := ptMapGet_parsed_iff (repeats 8) (by decide) (by decide)
    ⟨by decide +kernel, by decide +kernel⟩ heapEmpty heapEmpty
  exact ⟨s, hrun, hiff.mpr fun key _ => lastEven_eq_lastOf (by decide +kernel) key⟩

end

/-- With ten members of one key the first value is found. -/
theorem ptMapGet_parsed_fails : ¬∀ [HashFcn] (members : List (Bytes × Json)),
    (∀ m ∈ members, 0 ∉ m.1) → ∀ h h' : Heap,
    ∃ s, runCallbacks (emptyParser h) (Json.object members).callbacks = some s ∧
      (let n := ptMapSetAll (ptMapNew h').1 (ptMapNew h').2 members
       ∀ k, SameValue s.heap (ptMapGet s.heap s.root (some k))
        n (ptMapGet n (ptMapNew h').2 (some k))) := by
  intro hall
  let fcn : HashFcn := hashMurFcn
  have hkeys : ∀ m ∈ repeats 9, 0 ∉ m.1 := by decide
  obtain ⟨s, hrun, hsame⟩ := hall (repeats 9) hkeys heapEmpty heapEmpty
  obtain ⟨s', hrun', hiff⟩ := sameValue_lookups (repeats 9) hkeys (by decide)
    (by decide +kernel) heapEmpty heapEmpty
  rw [hrun, Option.some.injEq] at hrun'
  subst hrun'
  have heq := (hiff [97]).mp (hsame [97])
  let numbers : List (Bytes × Int32) := List.replicate 9 ([97], 1) ++ [([97], 2)]
  have htrees : Json.treeMembers (repeats 9) =
      numbers.map fun m => (m.1, Tree.scalar (.integer m.2)) := rfl
  have hfirst : lastEven (cstr [97]) numbers = some 1 := by decide +kernel
  have hlast : Ordered.lastOf (Json.treeMembers (repeats 9)) (cstr [97]) =
      some (.scalar (.integer 2)) := rfl
  rw [hlast, htrees, lastEven_map (cstr [97]) fun n : Int32 => Tree.scalar (.integer n), hfirst]
    at heq
  have hval : (1 : Int32) = 2 := Scalar.integer.inj (Tree.scalar.inj (Option.some.inj heq))
  exact absurd hval (by decide)

end Pillowtalk
