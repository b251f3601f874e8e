import Mathlib.Data.List.Range
import Mathlib.Data.List.Perm.Basic
import Mathlib.Tactic.Ring

/-!
# The hash table (`uthash.h`)

The macros keep two lists over the same items: the application-order list
(`hh.next`, appended at `tbl->tail`) and, for each bucket, a chain
(`hh_next`) into which a new item goes at the head. A bucket whose count
reaches its threshold makes the table double its buckets and rebuild every
chain (`HASH_EXPAND_BUCKETS`). `keylen` and the counters are `unsigned`, so a key of
`2^32` bytes or more is stored with another length than it has.
-/

namespace Pillowtalk

abbrev Bytes := List UInt8

/-- The length of a key as an `unsigned`. -/
def keylen (key : Bytes) : UInt32 := UInt32.ofNat key.length

/-- The length fits. -/
abbrev Fits (key : Bytes) : Prop := key.length < 2 ^ 32

/-- `HASH_FCN`, a function of the key. It comes to an end on every key, which the loops of
`HASH_SAX`, `HASH_FNV` and `HASH_OAT` only do when the key fits. -/
class HashFcn where
  hash : Bytes → UInt32

/-! ### `HASH_MUR`, the default (`uthash.h:416-447`) -/

/-- A `char` of the key, promoted to `int` and read as `unsigned`. -/
def murChar (b : UInt8) : UInt32 := if b < 128 then b.toUInt32 else b.toUInt32 ||| 0xffffff00

/-- The four-byte load `*(uint32_t *)_mur_key`, low byte first. -/
def murWord (b₀ b₁ b₂ b₃ : UInt8) : UInt32 :=
  b₀.toUInt32 ||| b₁.toUInt32 <<< 8 ||| b₂.toUInt32 <<< 16 ||| b₃.toUInt32 <<< 24

def murMix (hashv tmp : UInt32) : UInt32 :=
  let tmp := tmp * 0x5bd1e995
  let tmp := tmp ^^^ tmp >>> 24
  let tmp := tmp * 0x5bd1e995
  hashv * 0x5bd1e995 ^^^ tmp

/-- The word loop, then the `switch` over the last bytes with its fall-through. -/
def murLoop (hashv : UInt32) : Bytes → UInt32
  | b₀ :: b₁ :: b₂ :: b₃ :: rest => murLoop (murMix hashv (murWord b₀ b₁ b₂ b₃)) rest
  | [b₀, b₁, b₂] =>
    (hashv ^^^ murChar b₂ <<< 16 ^^^ murChar b₁ <<< 8 ^^^ murChar b₀) * 0x5bd1e995
  | [b₀, b₁] => (hashv ^^^ murChar b₁ <<< 8 ^^^ murChar b₀) * 0x5bd1e995
  | [b₀] => (hashv ^^^ murChar b₀) * 0x5bd1e995
  | [] => hashv

def hashMur (key : Bytes) : UInt32 :=
  let hashv := murLoop (0xcafebabe ^^^ keylen key) (key.take (keylen key).toNat)
  let hashv := hashv ^^^ hashv >>> 13
  let hashv := hashv * 0x5bd1e995
  hashv ^^^ hashv >>> 15

@[reducible] def hashMurFcn : HashFcn := ⟨hashMur⟩

/-! ### Handles, buckets and tables (`uthash.h:707-764`) -/

/-- `UT_hash_handle`: the element it lies in, the bytes at `key`, and the stored hash
value. -/
structure HashHandle (ι : Type) where
  elt : ι
  key : Bytes
  hashv : UInt32
deriving DecidableEq

structure HashBucket (ι : Type) where
  chain : List (HashHandle ι)
  count : UInt32
  expandMult : UInt32

structure HashTable (ι : Type) where
  buckets : ℕ → HashBucket ι
  numBuckets : UInt32
  log2NumBuckets : UInt32
  numItems : UInt32
  idealChainMaxlen : UInt32
  nonidealItems : UInt32
  ineffExpands : UInt32
  noexpand : UInt32

variable {ι : Type}

/-- A bucket after `memset(.., 0, ..)`. -/
def zeroBucket : HashBucket ι := ⟨[], 0, 0⟩

/-- `HASH_MAKE_TABLE` (`uthash.h:69-84`). -/
def hashMakeTable : HashTable ι := ⟨fun _ => zeroBucket, 32, 5, 0, 0, 0, 0, 0⟩

/-- `HASH_TO_BKT` (`uthash.h:113-116`), an index into the buckets. -/
def hashToBkt (hashv numBkts : UInt32) : ℕ := (hashv &&& (numBkts - 1)).toNat

def setBucket (buckets : ℕ → HashBucket ι) (b : ℕ) (bucket : HashBucket ι) : ℕ → HashBucket ι :=
  fun i => if i = b then bucket else buckets i

/-! ### Bucket expansion (`uthash.h:519-565`) -/

/-- One item of the inner loop of `HASH_EXPAND_BUCKETS`: it goes to the head of
its chain among the `2 * num_buckets` new ones. The state is the new buckets
and `nonideal_items`. -/
def expandItem (numBkts ideal : UInt32) (s : (ℕ → HashBucket ι) × UInt32) (hd : HashHandle ι) :
    (ℕ → HashBucket ι) × UInt32 :=
  let b := hashToBkt hd.hashv numBkts
  let count := (s.1 b).count + 1
  let nonideal := ideal < count
  (setBucket s.1 b ⟨hd :: (s.1 b).chain, count,
      if nonideal then count / ideal else (s.1 b).expandMult⟩,
    if nonideal then s.2 + 1 else s.2)

/-- The items in the order in which `HASH_EXPAND_BUCKETS` visits them: bucket
by bucket, each chain from its head. -/
def visitOrder (tbl : HashTable ι) : List (HashHandle ι) :=
  (List.range tbl.numBuckets.toNat).flatMap fun b => (tbl.buckets b).chain

def hashExpandBuckets (tbl : HashTable ι) : HashTable ι :=
  let ideal := tbl.numItems >>> (tbl.log2NumBuckets + 1) +
    if tbl.numItems &&& (tbl.numBuckets * 2 - 1) ≠ 0 then 1 else 0
  let s := (visitOrder tbl).foldl (expandItem (tbl.numBuckets * 2) ideal) (fun _ => zeroBucket, 0)
  let ineff := if tbl.numItems >>> 1 < s.2 then tbl.ineffExpands + 1 else 0
  { tbl with
    buckets := s.1
    numBuckets := tbl.numBuckets * 2
    log2NumBuckets := tbl.log2NumBuckets + 1
    idealChainMaxlen := ideal
    nonidealItems := s.2
    ineffExpands := ineff
    noexpand := if 1 < ineff then 1 else tbl.noexpand }

/-! ### Adding to, finding in and deleting from a bucket (`uthash.h:452-488`) -/

/-- The test of `HASH_ADD_TO_BKT`, on the bucket that has just grown. -/
def expandsAt (tbl : HashTable ι) (bucket : HashBucket ι) : Bool :=
  decide ((bucket.expandMult + 1) * 10 ≤ bucket.count) && decide (tbl.noexpand ≠ 1)

/-- `2 * num_buckets` is the number of new buckets. At `2^31` buckets it is 0. -/
def HashTable.CanDouble (tbl : HashTable ι) : Prop := tbl.numBuckets * 2 ≠ 0

instance (tbl : HashTable ι) : Decidable tbl.CanDouble :=
  inferInstanceAs (Decidable (tbl.numBuckets * 2 ≠ 0))

-- A table that cannot be doubled stays as it is: the source asks `malloc` for no bytes
-- then and stores past them, which has no meaning in C.
def hashAddToBkt (tbl : HashTable ι) (b : ℕ) (hd : HashHandle ι) : HashTable ι :=
  let bucket : HashBucket ι :=
    ⟨hd :: (tbl.buckets b).chain, (tbl.buckets b).count + 1, (tbl.buckets b).expandMult⟩
  let tbl := { tbl with buckets := setBucket tbl.buckets b bucket }
  if expandsAt tbl bucket ∧ tbl.CanDouble then hashExpandBuckets tbl else tbl

/-- The test of `HASH_FIND_IN_BKT`: `keylen` against the `size_t` `keylen_in`, then that many
bytes. -/
def keyEquals (stored key : Bytes) : Bool :=
  (keylen stored).toNat == key.length && stored.take key.length == key

/-- `HASH_FIND_IN_BKT`: the first item of the chain that passes the test. -/
def hashFindInBkt (chain : List (HashHandle ι)) (key : Bytes) : Option (HashHandle ι) :=
  chain.find? fun hd => keyEquals hd.key key

def hashDelInBkt [DecidableEq ι] (tbl : HashTable ι) (b : ℕ) (hd : HashHandle ι) : HashTable ι :=
  { tbl with
    buckets := setBucket tbl.buckets b
      ⟨(tbl.buckets b).chain.erase hd, (tbl.buckets b).count - 1, (tbl.buckets b).expandMult⟩ }

theorem toNat_keylen {key : Bytes} (h : Fits key) : (keylen key).toNat = key.length := by
  rw [keylen, UInt32.toNat_ofNat', Nat.mod_eq_of_lt h]

/-- Among keys that fit, the test is equality. -/
theorem keyEquals_iff {stored key : Bytes} (h : Fits stored) :
    keyEquals stored key = true ↔ stored = key := by
  rw [keyEquals, toNat_keylen h, Bool.and_eq_true, beq_iff_eq, beq_iff_eq]
  constructor
  · rintro ⟨hlen, htake⟩
    rwa [← hlen, List.take_length] at htake
  · rintro rfl
    exact ⟨rfl, List.take_length⟩

/-! ### A table that agrees with its items -/

/-- The number of buckets is the power of two that `log2_num_buckets` says,
stored hash values are those of the keys, and every chain holds exactly the
items that hash to its bucket, in some order. -/
structure HashTable.Consistent [HashFcn] (tbl : HashTable ι) (items : List (HashHandle ι)) :
    Prop where
  pow : tbl.numBuckets.toNat = 2 ^ tbl.log2NumBuckets.toNat
  hashed : ∀ hd ∈ items, hd.hashv = HashFcn.hash hd.key
  chained : ∀ b, ((tbl.buckets b).chain).Perm
    (items.filter fun hd => hashToBkt hd.hashv tbl.numBuckets = b)

theorem hashToBkt_lt (hashv : UInt32) {numBkts : UInt32} {k : ℕ} (h : numBkts.toNat = 2 ^ k) :
    hashToBkt hashv numBkts < numBkts.toNat := by
  have hpos : 0 < 2 ^ k := Nat.two_pow_pos k
  have hle : (1 : UInt32) ≤ numBkts := by
    rw [UInt32.le_iff_toNat_le, h]
    exact hpos
  have hsub : (numBkts - 1).toNat = 2 ^ k - 1 := by
    rw [UInt32.toNat_sub_of_le _ _ hle, h]
    rfl
  rw [hashToBkt, UInt32.toNat_and, hsub, Nat.and_two_pow_sub_one_eq_mod, h]
  exact Nat.mod_lt _ hpos

theorem consistent_hashMakeTable [HashFcn] :
    (hashMakeTable : HashTable ι).Consistent [] := by
  refine ⟨rfl, ?_, fun b => ?_⟩
  · intro hd h
    cases h
  · exact List.Perm.refl _

theorem HashTable.Consistent.mem_items [HashFcn] {tbl : HashTable ι} {items : List (HashHandle ι)}
    (h : tbl.Consistent items) {b : ℕ} {hd : HashHandle ι} (hm : hd ∈ (tbl.buckets b).chain) :
    hd ∈ items :=
  (List.mem_filter.mp ((h.chained b).mem_iff.mp hm)).1

theorem HashTable.Consistent.chain_length_le [HashFcn] {tbl : HashTable ι}
    {items : List (HashHandle ι)} (h : tbl.Consistent items) (b : ℕ) :
    (tbl.buckets b).chain.length ≤ items.length := by
  rw [(h.chained b).length_eq]
  exact List.length_filter_le _ _

theorem expandItem_chain (numBkts ideal : UInt32) (items : List (HashHandle ι))
    (s : (ℕ → HashBucket ι) × UInt32) (b : ℕ) :
    ((items.foldl (expandItem numBkts ideal) s).1 b).chain =
      (items.filter fun hd => hashToBkt hd.hashv numBkts = b).reverse ++ (s.1 b).chain := by
  induction items generalizing s with
  | nil => simp
  | cons hd items ih =>
    rw [List.foldl_cons, ih]
    by_cases hb : hashToBkt hd.hashv numBkts = b
    · subst hb
      simp [expandItem, setBucket]
    · have hne : ¬b = hashToBkt hd.hashv numBkts := fun he => hb he.symm
      simp [expandItem, setBucket, hb, hne]

theorem hashExpandBuckets_chain (tbl : HashTable ι) (b : ℕ) :
    ((hashExpandBuckets tbl).buckets b).chain =
      ((visitOrder tbl).filter fun hd =>
        hashToBkt hd.hashv (tbl.numBuckets * 2) = b).reverse := by
  simp only [hashExpandBuckets]
  rw [expandItem_chain]
  simp [zeroBucket]

/-- Sorting a list into `n` classes loses nothing when every item has one. -/
theorem flatMap_class_perm {α : Type} [DecidableEq α] (cls : α → ℕ) (n : ℕ) (l : List α)
    (h : ∀ x ∈ l, cls x < n) :
    ((List.range n).flatMap fun b => l.filter fun x => cls x = b).Perm l := by
  induction n generalizing l with
  | zero =>
    cases l with
    | nil => exact List.Perm.refl _
    | cons x l => exact absurd (h x (List.mem_cons_self ..)) (Nat.not_lt_zero _)
  | succ n ih =>
    -- the classes below `n` are those of the items that are not of class `n`
    have hlow := ih (l.filter fun x => ¬cls x = n) (by
      intro x hx
      obtain ⟨hm, hc⟩ := List.mem_filter.mp hx
      have hlt := h x hm
      have hne : cls x ≠ n := by simpa using hc
      omega)
    have heq : ((List.range n).flatMap fun b => (l.filter fun x => ¬cls x = n).filter
        fun x => cls x = b) = (List.range n).flatMap fun b => l.filter fun x => cls x = b := by
      apply List.flatMap_congr
      intro b hb
      have hbn := List.mem_range.mp hb
      rw [List.filter_filter]
      apply List.filter_congr
      intro x _
      by_cases hx : cls x = b
      · simp [hx]
        omega
      · simp [hx]
    rw [List.range_succ, List.flatMap_append, List.flatMap_singleton, ← heq]
    refine (List.Perm.append_right _ hlow).trans ?_
    refine List.perm_append_comm.trans ?_
    have hsplit := List.filter_append_perm (fun x => decide (cls x = n)) l
    simpa using hsplit

theorem visitOrder_perm [HashFcn] [DecidableEq ι] {tbl : HashTable ι}
    {items : List (HashHandle ι)} (h : tbl.Consistent items) : (visitOrder tbl).Perm items := by
  have hall : ∀ hd ∈ items, hashToBkt hd.hashv tbl.numBuckets < tbl.numBuckets.toNat :=
    fun hd _ => hashToBkt_lt _ h.pow
  refine List.Perm.trans ?_ (flatMap_class_perm
    (fun hd => hashToBkt hd.hashv tbl.numBuckets) tbl.numBuckets.toNat items hall)
  exact List.Perm.flatMap_left _ fun b _ => h.chained b

/-- The doubled number of buckets and its logarithm. -/
theorem HashTable.Consistent.double [HashFcn] {tbl : HashTable ι} {items : List (HashHandle ι)}
    (h : tbl.Consistent items) (hd : tbl.CanDouble) :
    (tbl.numBuckets * 2).toNat = tbl.numBuckets.toNat * 2 ∧
      (tbl.log2NumBuckets + 1).toNat = tbl.log2NumBuckets.toNat + 1 ∧
      tbl.log2NumBuckets.toNat < 31 := by
  have hlt := tbl.numBuckets.toNat_lt
  have hpow := h.pow
  have hlog : tbl.log2NumBuckets.toNat < 32 := by
    rw [hpow] at hlt
    exact (Nat.pow_lt_pow_iff_right Nat.one_lt_two).mp hlt
  have hdouble : (tbl.numBuckets * 2).toNat = tbl.numBuckets.toNat * 2 % 2 ^ 32 :=
    UInt32.toNat_mul _ _
  have hne : tbl.log2NumBuckets.toNat ≠ 31 := by
    intro he
    rw [hpow, he] at hdouble
    exact hd (UInt32.toNat_inj.mp hdouble)
  have hle : 2 ^ tbl.log2NumBuckets.toNat ≤ 2 ^ 30 :=
    Nat.pow_le_pow_right Nat.two_pos (by omega)
  refine ⟨?_, ?_, by omega⟩
  · rw [hdouble, hpow]
    omega
  · rw [UInt32.toNat_add, UInt32.toNat_one]
    omega

theorem HashTable.Consistent.expand [HashFcn] [DecidableEq ι] {tbl : HashTable ι}
    {items : List (HashHandle ι)} (h : tbl.Consistent items) (hd : tbl.CanDouble) :
    (hashExpandBuckets tbl).Consistent items := by
  refine ⟨?_, h.hashed, fun b => ?_⟩
  · obtain ⟨hnum, hlog, -⟩ := h.double hd
    show (tbl.numBuckets * 2).toNat = 2 ^ (tbl.log2NumBuckets + 1).toNat
    rw [hnum, hlog, h.pow, pow_succ]
  · rw [hashExpandBuckets_chain]
    exact (List.reverse_perm _).trans ((visitOrder_perm h).filter _)

theorem HashTable.Consistent.cons [HashFcn] {tbl : HashTable ι} {items : List (HashHandle ι)}
    (h : tbl.Consistent items) (hd : HashHandle ι) (hv : hd.hashv = HashFcn.hash hd.key)
    (count mult numItems : UInt32) :
    HashTable.Consistent { tbl with
      numItems := numItems
      buckets := setBucket tbl.buckets (hashToBkt hd.hashv tbl.numBuckets)
        ⟨hd :: (tbl.buckets (hashToBkt hd.hashv tbl.numBuckets)).chain, count, mult⟩ }
      (items ++ [hd]) := by
  refine ⟨h.pow, ?_, fun b => ?_⟩
  · intro x hx
    rcases List.mem_append.mp hx with hx | hx
    · exact h.hashed x hx
    · rw [List.mem_singleton.mp hx]
      exact hv
  · rw [List.filter_append]
    by_cases hb : b = hashToBkt hd.hashv tbl.numBuckets
    · subst hb
      simp only [setBucket, if_pos, List.filter_singleton, decide_true]
      exact ((h.chained _).cons hd).trans (List.perm_append_singleton ..).symm
    · have hne : ¬hashToBkt hd.hashv tbl.numBuckets = b := fun he => hb he.symm
      simpa [setBucket, hb, hne] using h.chained b

theorem filter_erase {α : Type} [DecidableEq α] (p : α → Bool) (l : List α) (a : α) :
    (l.erase a).filter p = (l.filter p).erase a := by
  induction l with
  | nil => rfl
  | cons x l ih =>
    by_cases hx : x = a
    · subst hx
      by_cases hp : p x
      · simp [hp]
      · have hn : x ∉ l.filter p := fun hm => hp (List.mem_filter.mp hm).2
        simp [hp, List.erase_of_not_mem hn]
    · by_cases hp : p x <;> simp [hx, hp, ih]

theorem HashTable.Consistent.del [HashFcn] [DecidableEq ι] {tbl : HashTable ι}
    {items : List (HashHandle ι)} (h : tbl.Consistent items) (hd : HashHandle ι) (numItems : UInt32) :
    HashTable.Consistent
      { hashDelInBkt tbl (hashToBkt hd.hashv tbl.numBuckets) hd with numItems := numItems }
      (items.erase hd) := by
  refine ⟨h.pow, fun x hx => h.hashed x (List.mem_of_mem_erase hx), fun b => ?_⟩
  show (setBucket tbl.buckets (hashToBkt hd.hashv tbl.numBuckets) _ b).chain.Perm
    ((items.erase hd).filter fun x => hashToBkt x.hashv tbl.numBuckets = b)
  rw [filter_erase]
  by_cases hb : b = hashToBkt hd.hashv tbl.numBuckets
  · subst hb
    simpa only [setBucket, if_pos] using (h.chained _).erase hd
  · have hn : hd ∉ items.filter fun x => hashToBkt x.hashv tbl.numBuckets = b := by
      intro hm
      exact hb (of_decide_eq_true (List.mem_filter.mp hm).2).symm
    rw [List.erase_of_not_mem hn]
    simpa only [setBucket, if_neg hb] using h.chained b

end Pillowtalk
