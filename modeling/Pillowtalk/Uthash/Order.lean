import Pillowtalk.Uthash.Hash

/-!
# The order of a chain (`uthash.h:452-565`)

A new item goes to the head of its chain, and an expansion of the buckets turns
every chain around. Items of one key stay in one chain, so which of them a
search finds depends on how many expansions came after each of them.
-/

namespace Pillowtalk

variable {ι : Type}

/-- The items of one key, in the order in which a search meets them. -/
def HashTable.chainOf [HashFcn] (tbl : HashTable ι) (key : Bytes) : List (HashHandle ι) :=
  ((tbl.buckets (hashToBkt (HashFcn.hash key) tbl.numBuckets)).chain).filter fun hd => hd.key = key

/-- A list turned around `n` times. -/
def turned {α : Type} (n : ℕ) (l : List α) : List α := if Even n then l else l.reverse

theorem turned_zero {α : Type} (l : List α) : turned 0 l = l := if_pos Even.zero

theorem turned_turned {α : Type} (m n : ℕ) (l : List α) :
    turned m (turned n l) = turned (m + n) l := by
  simp only [turned, Nat.even_add]
  by_cases hm : Even m <;> by_cases hn : Even n <;> simp [hm, hn]

theorem flatMap_range_single {α : Type} (f : ℕ → List α) {n c : ℕ} (hc : c < n)
    (h : ∀ b, b ≠ c → f b = []) : (List.range n).flatMap f = f c := by
  induction n with
  | zero => omega
  | succ n ih =>
    rw [List.range_succ, List.flatMap_append, List.flatMap_singleton]
    by_cases hn : c = n
    · have hlow : (List.range n).flatMap f = [] := by
        rw [List.flatMap_eq_nil_iff]
        intro b hb
        have hlt := List.mem_range.mp hb
        exact h b (by omega)
      rw [hlow, hn, List.nil_append]
    · rw [ih (by omega), h n fun he => hn he.symm, List.append_nil]

/-- The table once the new item is at the head of its chain, before the test of
`HASH_ADD_TO_BKT`. -/
def HashTable.withHead (tbl : HashTable ι) (hd : HashHandle ι) : HashTable ι :=
  let b := hashToBkt hd.hashv tbl.numBuckets
  { tbl with
    numItems := tbl.numItems + 1
    buckets := setBucket tbl.buckets b
      ⟨hd :: (tbl.buckets b).chain, (tbl.buckets b).count + 1, (tbl.buckets b).expandMult⟩ }

/-! ### What the keys alone decide

The counters of a table, its bucket numbers and the order of its chains do not
depend on the elements, only on the keys that were added. -/

def HashHandle.shape (hd : HashHandle ι) : HashHandle Unit := ⟨(), hd.key, hd.hashv⟩

def HashBucket.shape (bucket : HashBucket ι) : HashBucket Unit :=
  ⟨bucket.chain.map HashHandle.shape, bucket.count, bucket.expandMult⟩

def HashTable.shape (tbl : HashTable ι) : HashTable Unit :=
  { tbl with buckets := fun b => (tbl.buckets b).shape }

theorem setBucket_shape (buckets : ℕ → HashBucket ι) (b : ℕ) (bucket : HashBucket ι) :
    (fun i => (setBucket buckets b bucket i).shape) =
      setBucket (fun i => (buckets i).shape) b bucket.shape := by
  funext i
  simp only [setBucket]
  split <;> rfl

theorem withHead_shape (tbl : HashTable ι) (hd : HashHandle ι) :
    (tbl.withHead hd).shape = tbl.shape.withHead hd.shape := by
  simp only [HashTable.withHead, HashTable.shape, setBucket_shape]
  rfl

theorem expandItem_shape (numBkts ideal : UInt32) (s : (ℕ → HashBucket ι) × UInt32)
    (hd : HashHandle ι) :
    expandItem numBkts ideal (fun i => (s.1 i).shape, s.2) hd.shape =
      (fun i => ((expandItem numBkts ideal s hd).1 i).shape, (expandItem numBkts ideal s hd).2) := by
  simp only [expandItem, setBucket_shape]
  rfl

theorem foldl_expandItem_shape (numBkts ideal : UInt32) (items : List (HashHandle ι))
    (s : (ℕ → HashBucket ι) × UInt32) :
    (items.map HashHandle.shape).foldl (expandItem numBkts ideal) (fun i => (s.1 i).shape, s.2) =
      (fun i => ((items.foldl (expandItem numBkts ideal) s).1 i).shape,
        (items.foldl (expandItem numBkts ideal) s).2) := by
  induction items generalizing s with
  | nil => rfl
  | cons hd items ih =>
    rw [List.map_cons, List.foldl_cons, List.foldl_cons, expandItem_shape, ih]

theorem hashExpandBuckets_shape (tbl : HashTable ι) :
    (hashExpandBuckets tbl).shape = hashExpandBuckets tbl.shape := by
  have hvisit : visitOrder tbl.shape = (visitOrder tbl).map HashHandle.shape := by
    rw [visitOrder, visitOrder, List.map_flatMap]
    rfl
  have hitems := fun ideal => foldl_expandItem_shape (tbl.numBuckets * 2) ideal (visitOrder tbl)
    (fun _ => zeroBucket, 0)
  have hzero : (zeroBucket : HashBucket ι).shape = zeroBucket := rfl
  have hnum : tbl.shape.numBuckets = tbl.numBuckets := rfl
  simp only [hzero, ← hvisit] at hitems
  simp only [hashExpandBuckets]
  rw [hnum, hitems]
  rfl

/-! ### One insertion -/

variable [HashFcn]

theorem HashTable.Consistent.key_bucket {tbl : HashTable ι} {items : List (HashHandle ι)}
    (h : tbl.Consistent items) {b : ℕ} {hd : HashHandle ι} (hm : hd ∈ (tbl.buckets b).chain) :
    hd.hashv = HashFcn.hash hd.key ∧ hashToBkt (HashFcn.hash hd.key) tbl.numBuckets = b := by
  have hi := List.mem_filter.mp ((h.chained b).mem_iff.mp hm)
  have hhash := h.hashed hd hi.1
  refine ⟨hhash, ?_⟩
  rw [← hhash]
  exact of_decide_eq_true hi.2

theorem filter_visitOrder {tbl : HashTable ι} {items : List (HashHandle ι)}
    (h : tbl.Consistent items) (key : Bytes) :
    (visitOrder tbl).filter (fun hd => hd.key = key) = tbl.chainOf key := by
  have hlt : hashToBkt (HashFcn.hash key) tbl.numBuckets < tbl.numBuckets.toNat :=
    hashToBkt_lt _ h.pow
  rw [visitOrder, List.filter_flatMap, flatMap_range_single _ hlt]
  · rfl
  · intro b hb
    rw [List.filter_eq_nil_iff]
    intro hd hm hk
    have hbkt := (h.key_bucket hm).2
    rw [of_decide_eq_true hk] at hbkt
    exact hb hbkt.symm

theorem chainOf_expand {tbl : HashTable ι} {items : List (HashHandle ι)}
    (h : tbl.Consistent items) (key : Bytes) :
    (hashExpandBuckets tbl).chainOf key = (tbl.chainOf key).reverse := by
  have hnum : (hashExpandBuckets tbl).numBuckets = tbl.numBuckets * 2 := rfl
  rw [HashTable.chainOf, hnum, hashExpandBuckets_chain, List.filter_reverse, List.filter_filter,
    ← filter_visitOrder h]
  refine congrArg List.reverse (List.filter_congr fun hd hm => ?_)
  obtain ⟨b, -, hb⟩ := List.mem_flatMap.mp hm
  -- an item of the key hashes to the bucket that is looked at
  by_cases hk : hd.key = key
  · rw [(h.key_bucket hb).1, hk]
    simp
  · simp [hk]

theorem chainOf_withHead (tbl : HashTable ι) (k key : Bytes) (x : ι) :
    (tbl.withHead ⟨x, k, HashFcn.hash k⟩).chainOf key =
      if k = key then ⟨x, k, HashFcn.hash k⟩ :: tbl.chainOf key else tbl.chainOf key := by
  simp only [HashTable.chainOf, HashTable.withHead, setBucket]
  by_cases hk : k = key
  · subst hk
    simp
  · by_cases hb : hashToBkt (HashFcn.hash key) tbl.numBuckets =
        hashToBkt (HashFcn.hash k) tbl.numBuckets
    · rw [if_pos hb, if_neg hk, List.filter_cons_of_neg (by simpa using hk), hb]
    · rw [if_neg hb, if_neg hk]

namespace Uthash

def shape (t : Uthash ι) : Uthash Unit where
  items := t.items.map HashHandle.shape
  tbl := t.tbl.shape
  consistent := by
    refine ⟨t.consistent.pow, ?_, fun b => ?_⟩
    · intro hd hm
      obtain ⟨x, hx, rfl⟩ := List.mem_map.mp hm
      exact t.consistent.hashed x hx
    · rw [List.filter_map]
      exact (t.consistent.chained b).map HashHandle.shape

theorem tableForAdd_shape (t : Uthash ι) : t.shape.tableForAdd = t.tableForAdd.shape := by
  have hempty : t.shape.items.isEmpty = t.items.isEmpty := List.isEmpty_map
  simp only [tableForAdd, hempty]
  split <;> rfl

theorem expandsOn_shape (t : Uthash ι) (key : Bytes) : t.shape.expandsOn key = t.expandsOn key := by
  simp only [expandsOn, tableForAdd_shape]
  rfl

theorem hasRoom_shape (t : Uthash ι) (key : Bytes) : t.shape.HasRoom key ↔ t.HasRoom key := by
  rw [HasRoom, expandsOn_shape, tableForAdd_shape]
  rfl

theorem chainOf_tableForAdd (t : Uthash ι) (key : Bytes) :
    t.tableForAdd.chainOf key = t.tbl.chainOf key := by
  unfold tableForAdd
  split
  · next he =>
    have hp := t.consistent.chained (hashToBkt (HashFcn.hash key) t.tbl.numBuckets)
    rw [List.isEmpty_iff.mp he] at hp
    rw [HashTable.chainOf, HashTable.chainOf, List.Perm.eq_nil hp]
    rfl
  · rfl

theorem hashFind_chainOf {t : Uthash ι} (hfit : t.KeysFit) (key : Bytes) :
    t.hashFind key = (t.tbl.chainOf key).head? := by
  rw [hashFind_chain, hashFindInBkt, HashTable.chainOf, ← List.head?_filter]
  refine congrArg List.head? (List.filter_congr fun hd hm => ?_)
  have hfits := hfit hd.key (List.mem_map_of_mem (t.consistent.mem_items hm))
  rw [Bool.eq_iff_iff, keyEquals_iff hfits, decide_eq_true_iff]

variable [DecidableEq ι]

theorem tbl_hashAddKeyptr (t : Uthash ι) (k : Bytes) (x : ι) :
    (t.hashAddKeyptr k x).tbl =
      if t.expandsOn k = true ∧ t.tableForAdd.CanDouble then
        hashExpandBuckets (t.tableForAdd.withHead ⟨x, k, HashFcn.hash k⟩)
      else t.tableForAdd.withHead ⟨x, k, HashFcn.hash k⟩ := rfl

theorem hashAddKeyptr_shape (t : Uthash ι) (k : Bytes) (x : ι) :
    (t.hashAddKeyptr k x).shape = t.shape.hashAddKeyptr k () := by
  apply Uthash.ext
  · simp only [shape, items_hashAddKeyptr, List.map_append, List.map_cons, List.map_nil]
    rfl
  · have htbl : (t.hashAddKeyptr k x).shape.tbl = (t.hashAddKeyptr k x).tbl.shape := rfl
    have hdouble : t.tableForAdd.shape.CanDouble ↔ t.tableForAdd.CanDouble := Iff.rfl
    rw [htbl, tbl_hashAddKeyptr, tbl_hashAddKeyptr, expandsOn_shape, tableForAdd_shape]
    simp only [hdouble]
    split
    · rw [hashExpandBuckets_shape, withHead_shape]
      rfl
    · rw [withHead_shape]
      rfl

/-! ### The chain of a key -/

theorem chainOf_hashAddKeyptr {t : Uthash ι} {k : Bytes} (hroom : t.HasRoom k) (key : Bytes)
    (x : ι) : (t.hashAddKeyptr k x).tbl.chainOf key = turned (if t.expandsOn k then 1 else 0)
      (if k = key then ⟨x, k, HashFcn.hash k⟩ :: t.tbl.chainOf key else t.tbl.chainOf key) := by
  have hc : (t.tableForAdd.withHead ⟨x, k, HashFcn.hash k⟩).Consistent
      (t.items ++ [⟨x, k, HashFcn.hash k⟩]) :=
    t.tableForAdd_consistent.cons ⟨x, k, HashFcn.hash k⟩ rfl _ _ _
  rw [tbl_hashAddKeyptr, ← chainOf_tableForAdd t, ← chainOf_withHead]
  by_cases hexpands : t.expandsOn k = true
  · have hdouble := (hroom hexpands).1
    rw [if_pos ⟨hexpands, hdouble⟩, if_pos hexpands, chainOf_expand hc]
    simp [turned]
  · rw [if_neg fun h => hexpands h.1, if_neg hexpands, turned_zero]

end Uthash

/-- No table of `2^31` buckets, nor one with `2^32` items, has to expand while keys are
added. -/
def Roomy (t : Uthash Unit) : List Bytes → Prop
  | [] => True
  | k :: ks => t.HasRoom k ∧ Roomy (t.hashAddKeyptr k ()) ks

instance decidableRoomy (t : Uthash Unit) : (ks : List Bytes) → Decidable (Roomy t ks)
  | [] => isTrue trivial
  | k :: ks =>
    have := decidableRoomy (t.hashAddKeyptr k ()) ks
    inferInstanceAs (Decidable (t.HasRoom k ∧ Roomy (t.hashAddKeyptr k ()) ks))

/-- The number of expansions while keys are added to a table. -/
def expansions (t : Uthash Unit) : List Bytes → ℕ
  | [] => 0
  | k :: ks => expansions (t.hashAddKeyptr k ()) ks + if t.expandsOn k then 1 else 0

/-- The values of one key among members added to a table, each with the number of
expansions from its own insertion on. -/
def occurrences {α : Type} (t : Uthash Unit) (key : Bytes) : List (Bytes × α) → List (ℕ × α)
  | [] => []
  | m :: ms =>
    let later := occurrences (t.hashAddKeyptr m.1 ()) key ms
    if m.1 = key then (expansions t ((m :: ms).map Prod.fst), m.2) :: later else later

/-- The last value with an even number of expansions from its insertion on, or
the first value if there is none. -/
def lastEven {α : Type} (key : Bytes) (ms : List (Bytes × α)) : Option α :=
  let occ := occurrences hashNull key ms
  ((occ.filter fun o => Even o.1).getLast?.or occ.head?).map Prod.snd

section
variable [DecidableEq ι]

theorem chainOf_hashAddAll {t : Uthash ι} {added : List (Bytes × ι)}
    (hroom : Roomy t.shape (added.map Prod.fst)) (key : Bytes) :
    (t.hashAddAll added).tbl.chainOf key =
      ((((occurrences t.shape key added).filter fun o => Even o.1).reverse.map fun o =>
          (⟨o.2, key, HashFcn.hash key⟩ : HashHandle ι)) ++
        turned (expansions t.shape (added.map Prod.fst)) (t.tbl.chainOf key)) ++
      (((occurrences t.shape key added).filter fun o => ¬Even o.1).map fun o =>
        (⟨o.2, key, HashFcn.hash key⟩ : HashHandle ι)) := by
  induction added generalizing t with
  | nil => simp [Uthash.hashAddAll, occurrences, expansions, turned_zero]
  | cons m added ih =>
    obtain ⟨k, x⟩ := m
    obtain ⟨hk, hrest⟩ := hroom
    rw [← t.hashAddKeyptr_shape k x] at hrest
    have hstep : t.hashAddAll ((k, x) :: added) = (t.hashAddKeyptr k x).hashAddAll added := rfl
    have htotal : turned (expansions (t.shape.hashAddKeyptr k ()) (added.map Prod.fst))
        ((t.hashAddKeyptr k x).tbl.chainOf key) =
          turned (expansions t.shape (((k, x) :: added).map Prod.fst))
            (if k = key then ⟨x, k, HashFcn.hash k⟩ :: t.tbl.chainOf key
              else t.tbl.chainOf key) := by
      rw [Uthash.chainOf_hashAddKeyptr ((t.hasRoom_shape k).mp hk), turned_turned,
        ← t.expandsOn_shape]
      rfl
    rw [hstep, ih hrest, t.hashAddKeyptr_shape, htotal]
    simp only [occurrences]
    by_cases hk : k = key
    · subst hk
      rw [if_pos rfl, if_pos rfl]
      -- the new item is at the head now, and in the end where the parity puts it
      generalize expansions t.shape (((k, x) :: added).map Prod.fst) = n
      by_cases he : Even n
      · simp [turned, he]
      · have ho := Nat.not_even_iff_odd.mp he
        simp [turned, he, ho]
    · rw [if_neg hk, if_neg hk]

/-- What a search finds when keys may repeat. -/
theorem hashFind_hashAddAll {added : List (Bytes × ι)} (hfit : ∀ m ∈ added, Fits m.1)
    (hroom : Roomy hashNull (added.map Prod.fst)) (key : Bytes) :
    (hashNull.hashAddAll added).hashFind key =
      (lastEven key added).map fun x => ⟨x, key, HashFcn.hash key⟩ := by
  have hshape : (hashNull : Uthash ι).shape = hashNull := rfl
  have hchain : (hashNull : Uthash ι).tbl.chainOf key = [] := rfl
  have hturned : turned (expansions hashNull (added.map Prod.fst)) ([] : List (HashHandle ι)) =
      [] := by
    simp [turned]
  have hkeys : (hashNull.hashAddAll added).KeysFit := by
    intro k hk
    rw [Uthash.keys, Uthash.items_hashAddAll] at hk
    simp only [hashNull, List.nil_append, List.map_map] at hk
    obtain ⟨m, hm, rfl⟩ := List.mem_map.mp hk
    exact hfit m hm
  rw [Uthash.hashFind_chainOf hkeys, chainOf_hashAddAll (hshape ▸ hroom), hshape, hchain, hturned,
    lastEven, List.append_nil, List.map_reverse, List.head?_append, List.head?_reverse,
    List.getLast?_map]
  cases hlast : ((occurrences hashNull key added).filter fun o => Even o.1).getLast? with
  | some o => rfl
  | none =>
    -- no even item: all of them are odd, and the first one is at the head
    have hnone := List.getLast?_eq_none_iff.mp hlast
    have hall : (occurrences hashNull key added).filter (fun o => ¬Even o.1) =
        occurrences hashNull key added := by
      rw [List.filter_eq_self]
      intro o ho
      have hodd := List.filter_eq_nil_iff.mp hnone o ho
      simpa using hodd
    rw [hall, List.head?_map]
    simp only [Option.map_none, Option.none_or, Option.map_map]
    rfl

end

theorem occurrences_map {α β : Type} (t : Uthash Unit) (key : Bytes) (f : α → β)
    (ms : List (Bytes × α)) : occurrences t key (ms.map fun m => (m.1, f m.2)) =
      (occurrences t key ms).map fun o => (o.1, f o.2) := by
  induction ms generalizing t with
  | nil => rfl
  | cons m ms ih =>
    simp only [List.map_cons, occurrences, ih, List.map_map, Function.comp_def]
    split <;> rfl

theorem lastEven_map {α β : Type} (key : Bytes) (f : α → β) (ms : List (Bytes × α)) :
    lastEven key (ms.map fun m => (m.1, f m.2)) = (lastEven key ms).map f := by
  simp only [lastEven, occurrences_map, List.filter_map, List.getLast?_map, List.head?_map,
    Function.comp_def]
  rw [← Option.map_or, Option.map_map, Option.map_map]
  rfl

end Pillowtalk
