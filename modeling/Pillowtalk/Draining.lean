import Pillowtalk.Apart
import Pillowtalk.Arrays

/-!
# Draining an iterator

`pt_iterator_next` returns `NULL` when complete, and also for a member or an
element without a node. `json_map_key` makes such members, and the pushes take
`NULL` for an element where `pt_map_set` refuses it for a member.
-/

namespace Pillowtalk
open Addressed Iteration

section
variable [HashFcn]

/-! ### Calls in a memory that changes -/

/-- Call `i` of `pt_iterator_next` works in `mem i`; the state has the number of the next call. -/
def nextIn (mem : ℕ → Heap) (s : Option PtIterator × ℕ) : (Option PtIterator × ℕ) × Visit :=
  let r := ptIteratorNext (mem s.2) s.1
  ((r.1, s.2 + 1), r.2)

/-- What the iterator has still to visit, each member as its call will find it. -/
def viewIn (mem : ℕ → Heap) : Option PtIterator × ℕ → List Visit
  | (none, _) => []
  | (some (.array next), _) => next.map fun node => (node, none)
  | (some (.map next), i) => (next.zipIdx i).map fun kv => visitPair (mem kv.2) kv.1

theorem nextIn_walks (mem : ℕ → Heap) : Walks (nextIn mem) Visit.Stops (viewIn mem) where
  empty
    | (none, _), _ => ⟨rfl, rfl⟩
    | (some (.array []), _), _ => ⟨rfl, rfl⟩
    | (some (.map []), _), _ => ⟨rfl, rfl⟩
  more
    | (some (.array (elem :: next)), i), r, rs, hv => by
      simp only [viewIn, List.map_cons, List.cons.injEq] at hv
      exact hv
    | (some (.map (kv :: next)), i), r, rs, hv => by
      simp only [viewIn, List.zipIdx_cons, List.map_cons, List.cons.injEq] at hv
      exact hv

namespace Located

/-- The cells of the container itself, its elements and values apart. -/
def own : Located → List ℕ
  | .array a _ _ => [a]
  | .map a ms => a :: ms.map fun m => m.1.elt
  | _ => []

/-- While the container stays as it was, the calls find what was there at first. -/
theorem viewIn_ptIterator {h : Heap} {l : Located} (hl : In h l) {mem : ℕ → Heap}
    (hmem : ∀ i, Memory.Keeps (· ∈ l.own) h (mem i)) (i : ℕ) :
    viewIn mem (ptIterator h l.ptr, i) = l.visits := by
  rw [← view_ptIterator hl]
  cases hl with
  | nil => rfl
  | scalar hc =>
    simp only [ptr, ptIterator, Option.bind_some, hc]
    rfl
  | array hc he =>
    simp only [ptr, ptIterator, Option.bind_some, hc]
    rfl
  | @map a kvs ms hc hi hk hm =>
    have hpair : ∀ kv ∈ kvs.items, ∀ j, visitPair (mem j) kv = visitPair h kv := by
      intro kv hkv j
      rw [hi] at hkv
      obtain ⟨m, hmm, rfl⟩ := List.mem_map.mp hkv
      have hown : m.1.elt ∈ (Located.map a ms).own :=
        List.mem_cons_of_mem _ (List.mem_map.mpr ⟨m, hmm, rfl⟩)
      simp only [visitPair, hmem j _ hown]
    simp only [ptr, ptIterator, Option.bind_some, hc, viewIn, PtIterator.view]
    generalize kvs.items = next at hpair
    induction next generalizing i with
    | nil => rfl
    | cons kv next ih =>
      rw [List.zipIdx_cons, List.map_cons, List.map_cons, hpair kv (List.mem_cons_self ..) i,
        ih (i + 1) fun kv hkv => hpair kv (List.mem_cons_of_mem _ hkv)]

end Located

/-! ### What it takes to visit all -/

/-- An iterator over `l`, drained while the cells of `l` stay as they are, gives the members
of `l` in their order and from then on `NULL`. -/
def DrainsAll (h : Heap) (l : Located) : Prop :=
  ∀ mem : ℕ → Heap, (∀ i, Memory.Keeps (· ∈ l.own) h (mem i)) →
    ∃ s, Drains (nextIn mem) Visit.Stops (ptIterator h l.ptr, 0) l.visits s ∧
      Ended (nextIn mem) Visit.Stops s

/-- `DrainsAll`, and of an array `pt_array_len` says how many nodes there are. -/
def VisitsAll (h : Heap) (l : Located) : Prop :=
  DrainsAll h l ∧ ∀ a len es, l = .array a len es → (ptArrayLen h l.ptr).toNat = l.visits.length

/-- Every member has a node, and `len` can count the elements. -/
def Located.Full : Located → Prop
  | .array _ _ es => .nil ∉ es ∧ es.length < 2 ^ 32
  | .map _ ms => ∀ m ∈ ms, m.2 ≠ .nil
  | _ => True

theorem drainsAll_iff {h : Heap} {l : Located} (hl : Located.In h l) :
    DrainsAll h l ↔ ∀ v ∈ l.visits, ¬v.Stops := by
  constructor
  · intro hall
    obtain ⟨s, hd, -⟩ := hall (fun _ => h) fun _ => Memory.Keeps.refl _ h
    exact hd.not_fin
  · intro hv mem hmem
    have hview := Located.viewIn_ptIterator hl hmem 0
    rw [← hview] at hv ⊢
    exact ((nextIn_walks mem).drains_iff _).mpr hv

theorem ptArrayLen_iff {h : Heap} {a : ℕ} {len : UInt32} {es : List Located}
    (hl : Located.In h (.array a len es)) (hc : Memory.Every Node.Counted h) :
    (ptArrayLen h (some a)).toNat = es.length ↔ es.length < 2 ^ 32 := by
  have hcell := hl.arrayCell
  have hlen : len = UInt32.ofNat es.length := by
    have hcount := hc a _ hcell
    simpa only [Node.Counted, List.length_map] using hcount
  have harr : asArray h (some a) = some (a, es.map Located.ptr, len) :=
    asArray_eq_some.mpr ⟨rfl, hcell⟩
  simp only [ptArrayLen, harr, hlen, UInt32.toNat_ofNat']
  omega

/-- An iterator visits all of a container exactly when the container is full. -/
theorem visitsAll_iff {h : Heap} {l : Located} (hl : Located.In h l)
    (hc : Memory.Every Node.Counted h) : VisitsAll h l ↔ l.Full := by
  unfold VisitsAll
  rw [drainsAll_iff hl]
  cases l with
  | nil =>
    refine ⟨fun _ => trivial, fun _ => ⟨fun v hv => absurd hv List.not_mem_nil, ?_⟩⟩
    intro a len es he
    cases he
  | scalar a v =>
    refine ⟨fun _ => trivial, fun _ => ⟨fun v hv => absurd hv List.not_mem_nil, ?_⟩⟩
    intro a len es he
    cases he
  | array a len es =>
    have hvis : (∀ v ∈ (Located.array a len es).visits, ¬v.Stops) ↔ .nil ∉ es := by
      simp only [Located.visits, Visit.Stops, List.mem_map, forall_exists_index, and_imp,
        forall_apply_eq_imp_iff₂, Located.ptr_eq_none]
      exact ⟨fun hall he => hall _ he rfl, fun hn e he hen => hn (hen ▸ he)⟩
    have hlen := ptArrayLen_iff hl hc
    rw [hvis]
    constructor
    · rintro ⟨hn, hall⟩
      have hthis := hall a len es rfl
      simp only [Located.visits, List.length_map] at hthis
      exact ⟨hn, hlen.mp hthis⟩
    · rintro ⟨hn, hlt⟩
      refine ⟨hn, fun a' len' es' he => ?_⟩
      simp only [Located.visits, List.length_map]
      exact hlen.mpr hlt
  | map a ms =>
    simp only [Located.visits, Visit.Stops, List.mem_map, forall_exists_index, and_imp,
      forall_apply_eq_imp_iff₂, Located.ptr_eq_none]
    constructor
    · exact fun hall => hall.1
    · refine fun hfull => ⟨hfull, fun a len es he => ?_⟩
      cases he

/-! ### What fills the containers of a run -/

/-- What `Located.Full` says of a container, in its cells. -/
def Node.Full : Node → Prop
  | .array head _ => none ∉ head ∧ head.length < 2 ^ 32
  | .keyValue _ value => value ≠ none
  | _ => True

theorem Located.In.full {h : Heap} {l : Located} (hl : In h l) (hh : Memory.Every Node.Full h) :
    l.Full := by
  cases hl with
  | nil => trivial
  | scalar hc => trivial
  | array hc he =>
    have hcell := hh _ _ hc
    simp only [Node.Full, List.length_map, List.mem_map, not_exists, not_and] at hcell
    exact ⟨fun hn => hcell.1 _ hn rfl, hcell.2⟩
  | map hc hi hk hm =>
    intro m hmem he
    exact hh _ _ (hk m hmem) (ptr_eq_none.mpr he)

theorem full_ptMapSet {h : Heap} (hh : Memory.Every Node.Full h) (map : Ptr)
    (key : Option Bytes) (value : Ptr) : Memory.Every Node.Full (ptMapSet h map key value) :=
  every_ptMapSet hh map key value (fun _ _ _ => Option.some_ne_none _)
    (fun _ _ _ _ => Option.some_ne_none _) fun _ _ _ _ _ _ => trivial

theorem full_concat {head : List Ptr} {len : UInt32} (hf : (Node.array head len).Full)
    {node : Ptr} (hn : node ≠ none) (hlt : head.length + 1 < 2 ^ 32) :
    (Node.array (head ++ [node]) (len + 1)).Full := by
  refine ⟨fun hmem => ?_, ?_⟩
  · rcases List.mem_append.mp hmem with hmem | hmem
    · exact hf.1 hmem
    · exact hn (List.mem_singleton.mp hmem).symm
  · rwa [List.length_append, List.length_singleton]

theorem full_cons {head : List Ptr} {len : UInt32} (hf : (Node.array head len).Full)
    {node : Ptr} (hn : node ≠ none) (hlt : head.length + 1 < 2 ^ 32) :
    (Node.array (node :: head) (len + 1)).Full := by
  refine ⟨fun hmem => ?_, hlt⟩
  rcases List.mem_cons.mp hmem with he | hmem
  · exact hn he.symm
  · exact hf.1 hmem

/-! ### Cloning -/

theorem cloneScalar_full {h : Heap} (hh : Memory.Every Node.Full h) (v : Scalar) :
    Memory.Every Node.Full (cloneScalar h v).1 := by
  cases v with
  | null => exact hh.alloc trivial
  | boolean b => exact hh.alloc trivial
  | integer i => exact hh.alloc trivial
  | double d => exact hh.alloc trivial
  | string s => exact hh.alloc trivial

/-- `clone` keeps every container full when it copies `l`. -/
def ClonesFull (clone : Heap → Ptr → Heap × Ptr) (l : Located) : Prop :=
  ∀ h, Located.In h l → Memory.Every Node.Full h → Memory.Every Node.Full (clone h l.ptr).1

theorem cloneMembers_full {fuel : ℕ} {h₀ h : Heap} {t : ℕ} (ms : Located.Members)
    (hk : ∀ m ∈ ms, h₀.cell m.1.elt = some (.keyValue m.1.key m.2.ptr))
    (hm : ∀ m ∈ ms, Located.In h₀ m.2) (hc : ∀ m ∈ ms, ClonesFull (cloneNode fuel) m.2)
    (ht : h₀.next ≤ t) (ha : AboveOnly h₀.next h₀ h) (hh : Memory.Every Node.Full h) :
    Memory.Every Node.Full (cloneMembers (cloneNode fuel) (some t) h (ms.map Prod.fst)) := by
  induction ms generalizing h with
  | nil => exact hh
  | cons m ms ih =>
    have hkv := hk m (List.mem_cons_self ..)
    have hv := hm m (List.mem_cons_self ..)
    have hcell : h.cell m.1.elt = some (.keyValue m.1.key m.2.ptr) := by
      rw [ha.keeps _ (Memory.lt_next hkv), hkv]
    have hstill : Located.In h m.2 := hv.keeps fun x hx => ha.keeps x (hv.lt_next hx)
    have hcopy := (AboveOnly.copying h₀.next h₀).cloneNode fuel ha m.2.ptr
    have hset := hcopy.holds.ptMapSet (fun a he => (Option.some.inj he) ▸ ht) (some m.1.key)
      hcopy.value
    simp only [List.map_cons, cloneMembers, hcell]
    exact ih (fun n hn => hk n (List.mem_cons_of_mem _ hn))
      (fun n hn => hm n (List.mem_cons_of_mem _ hn))
      (fun n hn => hc n (List.mem_cons_of_mem _ hn)) hset
      (full_ptMapSet (hc m (List.mem_cons_self ..) h hstill hh) _ _ _)

/-- What is in memory has a copy. -/
theorem cloneNode_ne_none {h : Heap} {l : Located} (hl : Located.In h l) (hn : l ≠ .nil)
    (fuel : ℕ) : (cloneNode (fuel + 1) h l.ptr).2 ≠ none := by
  cases hl with
  | nil => exact absurd rfl hn
  | @scalar a v hc =>
    simp only [Located.ptr, cloneNode, hc]
    cases v <;> exact Option.some_ne_none _
  | array hc he =>
    simp only [Located.ptr, cloneNode, hc]
    exact Option.some_ne_none _
  | map hc hi hk hm =>
    simp only [Located.ptr, cloneNode, hc]
    exact Option.some_ne_none _

theorem cloneElems_full {fuel : ℕ} {h₀ h : Heap} {t : ℕ} {head : List Ptr} {len : UInt32}
    (es : List Located) (he : ∀ e ∈ es, Located.In h₀ e)
    (hn : ∀ e ∈ es, e ≠ .nil) (hc : ∀ e ∈ es, ClonesFull (cloneNode (fuel + 1)) e)
    (ht : h₀.next ≤ t) (ha : AboveOnly h₀.next h₀ h) (hcell : h.cell t = some (.array head len))
    (hlen : head.length + es.length < 2 ^ 32) (hh : Memory.Every Node.Full h) :
    Memory.Every Node.Full (cloneElems (cloneNode (fuel + 1)) (some t) h (es.map Located.ptr)) := by
  induction es generalizing h head len with
  | nil => exact hh
  | cons e es ih =>
    have hin := he e (List.mem_cons_self ..)
    have hstill : Located.In h e := hin.keeps fun x hx => ha.keeps x (hin.lt_next hx)
    have hcopy := (AboveOnly.copying h₀.next h₀).cloneNode (fuel + 1) ha e.ptr
    have hnode := cloneNode_ne_none hstill (hn e (List.mem_cons_self ..)) fuel
    have hfull := hc e (List.mem_cons_self ..) h hstill hh
    -- copying an element leaves the array that is being filled as it is
    have htarget : (cloneNode (fuel + 1) h e.ptr).1.cell t = some (.array head len) :=
      (cloneNode_keeps (fuel + 1) h e.ptr t (Memory.lt_next hcell)).trans hcell
    have harr := asArray_eq_some.mpr ⟨rfl, htarget⟩
    rw [List.length_cons] at hlen
    have hpush := hcopy.holds.ptArrayPushBack (fun a he => (Option.some.inj he) ▸ ht) hcopy.value
    have hpushed : (ptArrayPushBack (cloneNode (fuel + 1) h e.ptr).1 (some t)
        (cloneNode (fuel + 1) h e.ptr).2).cell t =
          some (.array (head ++ [(cloneNode (fuel + 1) h e.ptr).2]) (len + 1)) := by
      simp only [ptArrayPushBack, harr]
      exact Memory.modify_cell_self _ htarget
    simp only [List.map_cons, cloneElems]
    refine ih (fun f hf => he f (List.mem_cons_of_mem _ hf))
      (fun f hf => hn f (List.mem_cons_of_mem _ hf))
      (fun f hf => hc f (List.mem_cons_of_mem _ hf)) hpush hpushed ?_ ?_
    · rw [List.length_append, List.length_singleton]
      omega
    · refine every_ptArrayPushBack hfull _ _ fun a head' len' ha' hf => ?_
      rw [harr] at ha'
      cases ha'
      exact full_concat hf hnode (by omega)

theorem cloneNode_full (l : Located) (fuel : ℕ) (hf : l.height < fuel) :
    ClonesFull (cloneNode fuel) l := by
  induction l generalizing fuel with
  | nil =>
    intro h _ hh
    cases fuel with
    | zero => omega
    | succ fuel => exact hh
  | scalar a v =>
    intro h hl hh
    cases fuel with
    | zero => omega
    | succ fuel =>
      cases hl with
      | scalar hc =>
        simp only [Located.ptr, cloneNode, hc]
        exact cloneScalar_full hh v
  | array a len es ih =>
    intro h hl hh
    cases fuel with
    | zero => omega
    | succ fuel =>
      have hc := hl.arrayCell
      have hfull := hl.full hh
      simp only [Located.height] at hf
      cases fuel with
      | zero => omega
      | succ fuel =>
        have hnew := (AboveOnly.copying h.next h).newNode (AboveOnly.start h) .array
        have hempty : (ptArrayNew h).1.cell h.next = some (.array [] 0) :=
          Memory.alloc_cell_next h _
        have hleaf : (Node.array [] 0).Full := ⟨List.not_mem_nil, Nat.two_pow_pos 32⟩
        simp only [Located.ptr, cloneNode, hc]
        refine cloneElems_full es (fun e he => hl.elem he) (fun e he hen => hfull.1 (hen ▸ he))
          (fun e he => ?_) (le_refl _) hnew.holds hempty ?_ (hh.alloc hleaf)
        · have hle := Located.height_elem he
          exact ih e he (fuel + 1) (by omega)
        · rw [List.length_nil, Nat.zero_add]
          exact hfull.2
  | map a ms ih =>
    intro h hl hh
    cases fuel with
    | zero => omega
    | succ fuel =>
      obtain ⟨kvs, hc, hi⟩ := hl.mapCell
      simp only [Located.height] at hf
      have hnew := (AboveOnly.copying h.next h).newNode (AboveOnly.start h) .map
      simp only [Located.ptr, cloneNode, hc, hi]
      refine cloneMembers_full ms (fun m hm => (hl.member hm).1) (fun m hm => (hl.member hm).2)
        (fun m hm => ?_) (le_refl _) hnew.holds (hh.alloc trivial)
      have hle := Located.height_member hm
      exact ih m hm fuel (by omega)

/-- `p` stands for a tree: below it nothing is released and nothing is its own part. -/
def Stands (h : Heap) (p : Ptr) : Prop := ∃ l, Located.In h l ∧ l.ptr = p

theorem ptClone_full {h : Heap} {root : Ptr} (hs : Stands h root)
    (hh : Memory.Every Node.Full h) : Memory.Every Node.Full (ptClone h root).1 := by
  obtain ⟨l, hl, rfl⟩ := hs
  exact cloneNode_full l _ (Nat.lt_succ_of_le hl.height_le) h hl hh

/-! ### Merging -/

-- The branches are those of `updateMember`.
/-- The value that the body of the loop of `pt_map_update` clones stands for a tree. -/
def MemberStands (stands : Heap → Ptr → Ptr → Prop) (root : Ptr) (h : Heap)
    (keyValue : HashHandle ℕ) : Prop :=
  match h.cell keyValue.elt with
  | some (.keyValue key (some value)) =>
    let existing := ptMapGet h root (some key)
    if existing = none then Stands h (some value)
    else if typeOf h (some value) ≠ typeOf h existing then True
    else if typeOf h (some value) = some .map then stands h existing (some value)
    else Stands h (some value)
  | _ => True

/-- Every value that the loop clones stands for a tree when its turn comes. -/
def WalkStands (update : Heap → Ptr → Ptr → Heap × Int32) (stands : Heap → Ptr → Ptr → Prop)
    (root : Ptr) (additions : ℕ) : ℕ → Heap → Option (HashHandle ℕ) → Prop
  | fuel + 1, h, some keyValue =>
    MemberStands stands root h keyValue ∧ ∀ h' ∈ updateMember update root h keyValue,
      WalkStands update stands root additions fuel h' (nextMember h' additions keyValue)
  | _, _, _ => True

def MergeStands (append : Int32) : ℕ → Heap → Ptr → Ptr → Prop
  | 0, _, _, _ => True
  | fuel + 1, h, root, additions =>
    match asMap h root, asMap h additions with
    | some _, some (a, kvs) =>
      WalkStands (fun h existing value => updateMap fuel h existing value append)
        (MergeStands append fuel) root a (fuel + 1) h kvs.items.head?
    | _, _ => True

section
variable {update : Heap → Ptr → Ptr → Heap × Int32} {stands : Heap → Ptr → Ptr → Prop}
  {root : Ptr}

theorem updateMember_full (hu : ∀ h existing value, stands h existing value →
      Memory.Every Node.Full h → Memory.Every Node.Full (update h existing value).1)
    {h h' : Heap} {keyValue : HashHandle ℕ} (hs : MemberStands stands root h keyValue)
    (hh : Memory.Every Node.Full h) (hm : updateMember update root h keyValue = some h') :
    Memory.Every Node.Full h' := by
  simp only [updateMember, MemberStands] at hm hs
  split at hm
  · next key value hc =>
    simp only [hc] at hs
    have hset : Stands h (some value) → Memory.Every Node.Full
        (ptMapSet (ptClone h (some value)).1 root (some key) (ptClone h (some value)).2) :=
      fun hv => full_ptMapSet (ptClone_full hv hh) _ _ _
    split at hm
    · next hnone =>
      rw [if_pos hnone] at hs
      cases hm
      exact hset hs
    · next hsome =>
      rw [if_neg hsome] at hs
      split at hm
      · cases hm
      · next hsame =>
        rw [if_neg hsame] at hs
        split at hm
        · next hmap =>
          rw [if_pos hmap] at hs
          cases hm
          exact hu _ _ _ hs hh
        · next hother =>
          rw [if_neg hother] at hs
          cases hm
          exact hset hs
  · cases hm
    exact hh

theorem updateFrom_full (hu : ∀ h existing value, stands h existing value →
      Memory.Every Node.Full h → Memory.Every Node.Full (update h existing value).1)
    (additions fuel : ℕ) {h : Heap} {next : Option (HashHandle ℕ)}
    (hs : WalkStands update stands root additions fuel h next) (hh : Memory.Every Node.Full h) :
    Memory.Every Node.Full (updateFrom update root additions fuel h next).1 := by
  induction fuel generalizing h next with
  | zero =>
    cases next with
    | none => exact hh
    | some keyValue => exact hh
  | succ fuel ih =>
    cases next with
    | none => exact hh
    | some keyValue =>
      obtain ⟨hmember, hrest⟩ := hs
      simp only [updateFrom]
      split
      · exact hh
      · next h' hm => exact ih (hrest h' hm) (updateMember_full hu hmember hh hm)

end

theorem updateMap_full (append : Int32) (fuel : ℕ) {h : Heap} {root additions : Ptr}
    (hs : MergeStands append fuel h root additions) (hh : Memory.Every Node.Full h) :
    Memory.Every Node.Full (updateMap fuel h root additions append).1 := by
  induction fuel generalizing h root additions with
  | zero => exact hh
  | succ fuel ih =>
    simp only [updateMap]
    split
    · next hroot hadd =>
      simp only [MergeStands, hroot, hadd] at hs
      exact updateFrom_full (fun h existing value hs hh => ih hs hh) _ _ hs hh
    · exact hh

/-! ### Parsing -/

/-- `Located.Full` of every container in a tree. -/
inductive Tree.Full : Tree → Prop where
  | nil : Full .nil
  | scalar (v : Scalar) : Full (.scalar v)
  | array {len : UInt32} {es : List Tree} (hn : .nil ∉ es) (hlen : es.length < 2 ^ 32)
      (h : ∀ e ∈ es, Full e) : Full (.array len es)
  | map {ms : List (Bytes × Tree)} (hn : ∀ m ∈ ms, m.2 ≠ .nil) (h : ∀ m ∈ ms, Full m.2) :
      Full (.map ms)

theorem Located.In.fullCells {h : Heap} {l : Located} (hl : In h l) (hf : l.tree.Full) :
    ∀ x ∈ l.addrs, ∀ n, h.cell x = some n → n.Full := by
  induction hl with
  | nil => exact fun x hx => absurd hx List.not_mem_nil
  | scalar hc =>
    intro x hx n hn
    rw [List.mem_singleton.mp hx, hc] at hn
    cases hn
    trivial
  | @array a len es hc he ih =>
    simp only [tree, treeElems_eq_map] at hf
    cases hf with
    | array hnil hlen hes =>
      intro x hx n hn
      rcases List.mem_cons.mp hx with rfl | hx
      · rw [hc] at hn
        cases hn
        refine ⟨fun hmem => ?_, by simpa only [List.length_map] using hlen⟩
        obtain ⟨e, hmem, hptr⟩ := List.mem_map.mp hmem
        exact hnil (List.mem_map.mpr ⟨e, hmem, tree_eq_nil.mpr (ptr_eq_none.mp hptr)⟩)
      · obtain ⟨e, hmem, hxe⟩ := exists_of_mem_addrsElems hx
        exact ih e hmem (hes _ (List.mem_map.mpr ⟨e, hmem, rfl⟩)) x hxe n hn
  | @map a kvs ms hc hi hk hm ih =>
    simp only [tree, treeMembers_eq_map] at hf
    cases hf with
    | map hnil hms =>
      intro x hx n hn
      rcases List.mem_cons.mp hx with rfl | hx
      · rw [hc] at hn
        cases hn
        trivial
      · obtain ⟨m, hmem, hxm⟩ := exists_of_mem_addrsMembers hx
        have htree : (m.1.key, m.2.tree) ∈ ms.map fun m => (m.1.key, m.2.tree) :=
          List.mem_map.mpr ⟨m, hmem, rfl⟩
        rcases hxm with rfl | hxm
        · rw [hk m hmem] at hn
          cases hn
          exact fun hnone => hnil _ htree (tree_eq_nil.mpr (ptr_eq_none.mp hnone))
        · exact ih m hmem (hms _ htree) x hxm n hn

theorem fromJson_full {h : Heap} {doc : Json} {delivered : ℕ}
    (hd : ∀ r : Progress, r.callbacks = doc.callbacks.take delivered → r.tree.Full)
    (hh : Memory.Every Node.Full h) :
    Memory.Every Node.Full (step h (.fromJson doc delivered)) := by
  obtain ⟨r, hr⟩ := doc.prefix_progress (List.take_prefix delivered _)
  obtain ⟨s, l, -, hstep, hp, hl⟩ := step_fromJson h hr
  rw [hstep]
  exact hp.every hh (hp.within.fullCells (hl ▸ hd r hr))

/-! ### Runs -/

/-- `node` is a node, and an array that takes it has room in `len`. -/
def Pushable (h : Heap) (array node : Ptr) : Prop :=
  ∀ a head len, asArray h array = some (a, head, len) → node ≠ none ∧ head.length + 1 < 2 ^ 32

/-- The operation puts no `NULL` into a container: no text ends with a key, no push is
given `NULL`, and what is copied is still there. -/
def Op.Fills (h : Heap) : Op → Prop
  | .fromJson doc delivered =>
    ∀ r : Progress, r.callbacks = doc.callbacks.take delivered → r.tree.Full
  | .edit (.mapUpdate root additions append fuel) => MergeStands append fuel h root additions
  | .edit (.clone root) => Stands h root
  | .edit (.arrayPushBack array node) => Pushable h array node
  | .edit (.arrayPushFront array node) => Pushable h array node
  | .edit _ => True

def RunFills : Heap → List Op → Prop
  | _, [] => True
  | h, op :: ops => op.Fills h ∧ RunFills (step h op) ops

theorem step_full {h : Heap} {op : Op} (hop : op.Fills h) (hh : Memory.Every Node.Full h) :
    Memory.Every Node.Full (step h op) := by
  cases op with
  | fromJson doc delivered => exact fromJson_full hop hh
  | edit e =>
    cases e with
    | mapNew => exact hh.alloc trivial
    | arrayNew => exact hh.alloc ⟨List.not_mem_nil, Nat.two_pow_pos 32⟩
    | nullNew => exact hh.alloc trivial
    | boolNew boolean => exact hh.alloc trivial
    | integerNew integer => exact hh.alloc trivial
    | doubleNew dbl => exact hh.alloc trivial
    | stringNew str => exact hh.alloc trivial
    | mapSet map key value => exact full_ptMapSet hh map key value
    | mapUnset map key => exact every_ptMapUnset hh map key fun _ _ _ => trivial
    | mapUpdate root additions append fuel => exact updateMap_full append fuel hop hh
    | clone root => exact ptClone_full hop hh
    | arrayPushBack array node =>
      refine every_ptArrayPushBack hh array node fun a head len ha hf => ?_
      obtain ⟨hn, hlt⟩ := hop a head len ha
      exact full_concat hf hn hlt
    | arrayPushFront array node =>
      refine every_ptArrayPushFront hh array node fun a head len ha hf => ?_
      obtain ⟨hn, hlt⟩ := hop a head len ha
      exact full_cons hf hn hlt
    | arrayRemove array node =>
      refine every_ptArrayRemove hh array node fun head len hf hmem => ⟨fun hn => ?_, ?_⟩
      · exact hf.1 (List.mem_of_mem_erase hn)
      · exact lt_of_le_of_lt (List.length_erase_le ..) hf.2
    | freeNode node => exact every_ptFreeNode hh node

theorem RunFills.full {h : Heap} {ops : List Op} (hr : RunFills h ops)
    (hh : Memory.Every Node.Full h) (n : ℕ) :
    Memory.Every Node.Full ((ops.take n).foldl step h) := by
  induction ops generalizing h n with
  | nil =>
    rw [List.take_nil]
    exact hh
  | cons op ops ih =>
    cases n with
    | zero => exact hh
    | succ n => exact ih hr.2 (step_full hr.1 hh) n

/-- In every run, an iterator visits all of a container exactly when it is full; in a run
whose steps put no `NULL` into containers it visits all, in every state and container. -/
theorem visitsAll_run_iff (ops : List Op) :
    (∀ l, Located.In (run ops) l → (VisitsAll (run ops) l ↔ l.Full)) ∧
    (RunFills heapEmpty ops →
      ∀ n l, Located.In (run (ops.take n)) l → VisitsAll (run (ops.take n)) l) := by
  refine ⟨fun l hl => visitsAll_iff hl (run_counted ops), fun hr n l hl => ?_⟩
  have hfull := hr.full (Memory.every_empty _) n
  exact (visitsAll_iff hl (run_counted _)).mpr (hl.full hfull)

end

section
local instance drainingFcn : HashFcn := hashMurFcn

/-- `[7]` is built and copied. -/
def copied : List Op := [.edit .arrayNew, .edit (.integerNew 7),
  .edit (.arrayPushBack (some 0) (some 1)), .edit (.clone (some 0))]

theorem in_seven {h : Heap} {a b : ℕ} (ha : h.cell a = some (.array [some b] 1))
    (hb : h.cell b = some (.scalar (.integer 7))) :
    Located.In h (.array a 1 [.scalar b (.integer 7)]) := by
  refine .array ha fun e he => ?_
  rw [List.mem_singleton.mp he]
  exact .scalar hb

theorem visitsAll_run_copied :
    VisitsAll (run (copied.take 4)) (.array 2 1 [.scalar 3 (.integer 7)]) := by
  have hpush : Pushable (run (copied.take 2)) (some 0) (some 1) := by
    intro a head len ha
    cases ha
    exact ⟨Option.some_ne_none _, by decide⟩
  have hstands : Stands (run (copied.take 3)) (some 0) := ⟨_, in_seven rfl rfl, rfl⟩
  have hfills : RunFills heapEmpty copied := ⟨trivial, trivial, hpush, hstands, trivial⟩
  exact (visitsAll_run_iff copied).2 hfills 4 _ (in_seven rfl rfl)

end

/-- The array `[NULL, 7]`: the first call returns `NULL`. -/
theorem visitsAll_fails : ¬∀ [HashFcn] (ops : List Op) (l : Located),
    Located.In (run ops) l → VisitsAll (run ops) l := by
  intro hall
  let fcn : HashFcn := hashMurFcn
  have hin : Located.In (run [.edit .arrayNew, .edit (.arrayPushBack (some 0) none),
      .edit (.integerNew 7), .edit (.arrayPushBack (some 0) (some 1))])
      (.array 0 2 [.nil, .scalar 1 (.integer 7)]) := by
    refine .array rfl fun e he => ?_
    simp only [List.mem_cons, List.not_mem_nil, or_false] at he
    rcases he with rfl | rfl
    · exact .nil
    · exact .scalar rfl
  have hvisits := (drainsAll_iff hin).mp (hall _ _ hin).1
  exact hvisits (none, none) (List.mem_cons_self ..) rfl

end Pillowtalk
