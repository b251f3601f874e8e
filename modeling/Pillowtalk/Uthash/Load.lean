import Mathlib.Algebra.BigOperators.Ring.List
import Mathlib.Algebra.Order.BigOperators.Group.List
import Pillowtalk.Uthash.Order
import Pillowtalk.Uthash.Refines

/-!
# The length of the chains (`uthash.h:464-565`)

"By expanding buckets the hash keeps a bound on the chain length." What the bound is
comes out of the two counters of a bucket. An expansion leaves `expand_mult` at how many
times the ideal length goes into the chain, so all of them together are no more than
there are buckets, and this is what keeps the ideal length, and with it the threshold of the next
expansion, down.
-/

namespace Pillowtalk
open Links

variable {ι : Type}

/-! ### Sums over the buckets -/

def HashTable.total (tbl : HashTable ι) (f : HashBucket ι → ℕ) : ℕ :=
  ((List.range tbl.numBuckets.toNat).map fun b => f (tbl.buckets b)).sum

theorem sum_map_div_le (l : List ℕ) (f : ℕ → ℕ) (d : ℕ) :
    (l.map fun b => f b / d).sum ≤ (l.map f).sum / d := by
  induction l with
  | nil => exact Nat.zero_le _
  | cons b l ih =>
    simp only [List.map_cons, List.sum_cons]
    exact (Nat.add_le_add_left ih _).trans Nat.div_add_div_le_add_div

theorem HashTable.total_mono {tbl tbl' : HashTable ι} {f g : HashBucket ι → ℕ}
    (hn : tbl'.numBuckets = tbl.numBuckets)
    (h : ∀ b, f (tbl'.buckets b) ≤ g (tbl.buckets b)) : tbl'.total f ≤ tbl.total g := by
  rw [HashTable.total, hn]
  exact List.sum_le_sum fun b _ => h b

theorem HashTable.total_affine (tbl : HashTable ι) (f : HashBucket ι → ℕ) (m k : ℕ) :
    tbl.total (fun bucket => m * f bucket + k) = m * tbl.total f + tbl.numBuckets.toNat * k := by
  rw [HashTable.total, HashTable.total, List.sum_map_add, List.sum_map_mul_left, List.map_const',
    List.sum_replicate, List.length_range, nsmul_eq_mul, Nat.cast_id]

theorem total_chain_length [HashFcn] [DecidableEq ι] {tbl : HashTable ι}
    {items : List (HashHandle ι)} (h : tbl.Consistent items) :
    tbl.total (fun bucket => bucket.chain.length) = items.length := by
  rw [← (visitOrder_perm h).length_eq, visitOrder, List.length_flatMap]
  rfl

/-! ### What an expansion leaves in the counters -/

/-- The counters of a bucket when the chains have the ideal length `ideal`. -/
structure HashBucket.Spread (ideal : UInt32) (bucket : HashBucket ι) : Prop where
  count : bucket.count.toNat = bucket.chain.length
  mult : bucket.expandMult = if ideal < bucket.count then bucket.count / ideal else 0

theorem toNat_succ {a : UInt32} {n : ℕ} (h : a.toNat = n) (hn : n + 1 < 2 ^ 32) :
    (a + 1).toNat = n + 1 := by
  rw [UInt32.toNat_add, UInt32.toNat_one, h, Nat.mod_eq_of_lt hn]

theorem expandItem_spread {numBkts ideal : UInt32} {s : (ℕ → HashBucket ι) × UInt32}
    (h : ∀ b, (s.1 b).Spread ideal) (hd : HashHandle ι)
    (hfew : ∀ b, (s.1 b).chain.length + 1 < 2 ^ 32) (b : ℕ) :
    ((expandItem numBkts ideal s hd).1 b).Spread ideal := by
  simp only [expandItem, setBucket]
  split
  · have hold := h (hashToBkt hd.hashv numBkts)
    have hcount := toNat_succ hold.count (hfew _)
    constructor
    · exact hcount
    · show (if _ then _ else _) = if _ then _ else _
      split
      · rfl
      · next hle =>
        -- it was no longer than the ideal length before either
        rw [hold.mult, if_neg]
        rw [UInt32.lt_iff_toNat_lt, hcount] at hle
        rw [UInt32.lt_iff_toNat_lt, hold.count]
        omega
  · exact h b

theorem expandItem_length_le (numBkts ideal : UInt32) (s : (ℕ → HashBucket ι) × UInt32)
    (hd : HashHandle ι) (b : ℕ) :
    ((expandItem numBkts ideal s hd).1 b).chain.length ≤ (s.1 b).chain.length + 1 := by
  simp only [expandItem, setBucket]
  split
  · next hb => rw [hb, List.length_cons]
  · exact Nat.le_succ _

theorem foldl_expandItem_spread {numBkts ideal : UInt32} (items : List (HashHandle ι))
    {s : (ℕ → HashBucket ι) × UInt32} (h : ∀ b, (s.1 b).Spread ideal)
    (hfew : ∀ b, (s.1 b).chain.length + items.length < 2 ^ 32) (b : ℕ) :
    ((items.foldl (expandItem numBkts ideal) s).1 b).Spread ideal := by
  induction items generalizing s with
  | nil => exact h b
  | cons hd items ih =>
    simp only [List.length_cons] at hfew
    apply ih
    · exact expandItem_spread h hd fun b => by
        have hb := hfew b
        omega
    · intro b
      have hle := expandItem_length_le numBkts ideal s hd b
      have hb := hfew b
      omega

theorem hashExpandBuckets_spread (tbl : HashTable ι) (hfew : (visitOrder tbl).length < 2 ^ 32)
    (b : ℕ) :
    ((hashExpandBuckets tbl).buckets b).Spread (hashExpandBuckets tbl).idealChainMaxlen := by
  apply foldl_expandItem_spread
  · exact fun _ => ⟨rfl, (if_neg (UInt32.not_lt_zero)).symm⟩
  · intro b
    rwa [zeroBucket, List.length_nil, Nat.zero_add]

/-- `ceil(n/b)` by "a bit shift and logical AND". -/
theorem ceil_le_iff (n k m : ℕ) :
    (n >>> k + if n &&& (2 ^ k - 1) ≠ 0 then 1 else 0) ≤ m ↔ n ≤ m * 2 ^ k := by
  rw [Nat.shiftRight_eq_div_pow, Nat.and_two_pow_sub_one_eq_mod]
  have hpos : 0 < 2 ^ k := Nat.two_pow_pos k
  have hdiv := Nat.div_add_mod n (2 ^ k)
  have hlt := Nat.mod_lt n hpos
  constructor
  · intro h
    split at h
    · have hm := Nat.mul_le_mul_right (2 ^ k) h
      rw [Nat.add_mul, Nat.mul_comm (n / 2 ^ k)] at hm
      omega
    · have hm := Nat.mul_le_mul_right (2 ^ k) h
      rw [Nat.add_mul, Nat.mul_comm (n / 2 ^ k)] at hm
      omega
  · intro h
    split
    · next hmod =>
      have hq : n / 2 ^ k < m := by
        rw [Nat.div_lt_iff_lt_mul hpos]
        rcases Nat.lt_or_eq_of_le h with hlt | rfl
        · exact hlt
        · rw [Nat.mul_mod_left] at hmod
          exact absurd rfl hmod
      omega
    · exact Nat.div_le_of_le_mul (Nat.mul_comm m _ ▸ h)

theorem hashExpandBuckets_ideal_le_iff [HashFcn] {tbl : HashTable ι} {items : List (HashHandle ι)}
    (h : tbl.Consistent items) (hd : tbl.CanDouble) (m : ℕ) :
    (hashExpandBuckets tbl).idealChainMaxlen.toNat ≤ m ↔
      tbl.numItems.toNat ≤ m * (tbl.numBuckets.toNat * 2) := by
  obtain ⟨hnum, hlog, hlt⟩ := h.double hd
  have hpow : tbl.numBuckets.toNat * 2 = 2 ^ (tbl.log2NumBuckets.toNat + 1) := by
    rw [h.pow, pow_succ]
  have hmask : (tbl.numBuckets * 2 - 1).toNat = 2 ^ (tbl.log2NumBuckets.toNat + 1) - 1 := by
    have hone : (1 : UInt32) ≤ tbl.numBuckets * 2 := by
      rw [UInt32.le_iff_toNat_le, hnum, hpow]
      exact Nat.two_pow_pos _
    rw [UInt32.toNat_sub_of_le _ _ hone, hnum, hpow]
    rfl
  have hshift : (tbl.numItems >>> (tbl.log2NumBuckets + 1)).toNat =
      tbl.numItems.toNat >>> (tbl.log2NumBuckets.toNat + 1) := by
    rw [UInt32.toNat_shiftRight, hlog, Nat.mod_eq_of_lt (by omega)]
  have hrest : (if tbl.numItems &&& (tbl.numBuckets * 2 - 1) ≠ 0 then (1 : UInt32) else 0).toNat =
      if tbl.numItems.toNat &&& (2 ^ (tbl.log2NumBuckets.toNat + 1) - 1) ≠ 0 then 1 else 0 := by
    rw [← hmask, ← UInt32.toNat_and]
    by_cases hz : tbl.numItems &&& (tbl.numBuckets * 2 - 1) = 0
    · rw [hz]
      rfl
    · have hn : (tbl.numItems &&& (tbl.numBuckets * 2 - 1)).toNat ≠ 0 :=
        fun he => hz (UInt32.toNat_inj.mp he)
      rw [if_pos hz, if_pos hn]
      rfl
  have hhalf : tbl.numItems.toNat >>> (tbl.log2NumBuckets.toNat + 1) ≤ tbl.numItems.toNat / 2 := by
    rw [Nat.shiftRight_eq_div_pow]
    exact Nat.div_le_div_left (Nat.le_self_pow (Nat.succ_ne_zero _) 2) Nat.two_pos
  have hitems := tbl.numItems.toNat_lt
  have hideal : (hashExpandBuckets tbl).idealChainMaxlen.toNat =
      tbl.numItems.toNat >>> (tbl.log2NumBuckets.toNat + 1) +
        if tbl.numItems.toNat &&& (2 ^ (tbl.log2NumBuckets.toNat + 1) - 1) ≠ 0 then 1 else 0 := by
    show (_ + _ : UInt32).toNat = _
    rw [UInt32.toNat_add, hshift, hrest, Nat.mod_eq_of_lt]
    split <;> omega
  rw [hideal, hpow, ← ceil_le_iff]

/-! ### The bound -/

/-- How often the threshold has to be raised for the chain to stay below it. -/
def HashBucket.load (bucket : HashBucket ι) : ℕ :=
  max bucket.expandMult.toNat (bucket.count.toNat / 10)

theorem load_zeroBucket : (zeroBucket : HashBucket ι).load = 0 := by
  rw [HashBucket.load, zeroBucket, UInt32.toNat_zero, Nat.zero_div, max_self]

structure HashTable.Bounded (tbl : HashTable ι) : Prop where
  load : tbl.total HashBucket.load ≤ tbl.numBuckets.toNat
  count : ∀ b, (tbl.buckets b).count.toNat ≤ 10 * ((tbl.buckets b).expandMult.toNat + 1)

theorem bounded_hashMakeTable : (hashMakeTable : HashTable ι).Bounded := by
  constructor
  · have hload : (hashMakeTable : HashTable ι).total HashBucket.load ≤
        (hashMakeTable : HashTable ι).total fun _ => 0 := by
      apply HashTable.total_mono rfl
      exact fun _ => load_zeroBucket.le
    have hzero : (hashMakeTable : HashTable ι).total (fun _ => 0) = 0 := by
      rw [HashTable.total, List.map_const', List.sum_replicate, nsmul_eq_mul, Nat.mul_zero]
    exact (hload.trans hzero.le).trans (Nat.zero_le _)
  · exact fun _ => Nat.zero_le _

/-- A bucket is changed without a rise of its load. -/
theorem HashTable.Bounded.setBucket {tbl : HashTable ι} (h : tbl.Bounded) {b : ℕ}
    {bucket : HashBucket ι} (hload : bucket.load ≤ (tbl.buckets b).load)
    (hcount : bucket.count.toNat ≤ 10 * (bucket.expandMult.toNat + 1)) {tbl' : HashTable ι}
    (hn : tbl'.numBuckets = tbl.numBuckets)
    (hb : tbl'.buckets = setBucket tbl.buckets b bucket) : tbl'.Bounded := by
  constructor
  · rw [hn]
    refine (HashTable.total_mono hn fun c => ?_).trans h.load
    rw [hb, Pillowtalk.setBucket]
    split
    · next hc => exact hc ▸ hload
    · exact le_refl _
  · intro c
    rw [hb, Pillowtalk.setBucket]
    split
    · exact hcount
    · exact h.count c

/-- The threshold of `HASH_ADD_TO_BKT` is no higher for being an `unsigned`. -/
theorem toNat_threshold_le (mult : UInt32) : ((mult + 1) * 10).toNat ≤ 10 * (mult.toNat + 1) := by
  have hadd : (mult + 1).toNat ≤ mult.toNat + 1 := by
    rw [UInt32.toNat_add]
    exact Nat.mod_le _ _
  have hmul : ((mult + 1) * 10).toNat ≤ (mult + 1).toNat * 10 := by
    rw [UInt32.toNat_mul]
    exact Nat.mod_le _ _
  omega

section
variable [HashFcn] {tbl : HashTable ι} {items : List (HashHandle ι)}

/-- While the loads are bounded there are fewer than 20 items for each bucket. -/
theorem HashTable.Bounded.items_le [DecidableEq ι] (h : tbl.Bounded) (hc : tbl.Consistent items)
    (hcount : ∀ b, (tbl.buckets b).count.toNat = (tbl.buckets b).chain.length) :
    items.length ≤ 19 * tbl.numBuckets.toNat := by
  have hle : tbl.total (fun bucket => bucket.chain.length) ≤
      tbl.total fun bucket => 10 * bucket.load + 9 := by
    apply HashTable.total_mono rfl
    intro b
    rw [← hcount, HashBucket.load]
    have hload := le_max_right (tbl.buckets b).expandMult.toNat ((tbl.buckets b).count.toNat / 10)
    omega
  rw [total_chain_length hc, HashTable.total_affine] at hle
  have hload := h.load
  omega

theorem bounded_hashExpandBuckets [DecidableEq ι] (hc : tbl.Consistent items)
    (hdouble : tbl.CanDouble) (hnum : tbl.numItems.toNat = items.length) (hpos : items ≠ [])
    (hle : items.length ≤ 20 * tbl.numBuckets.toNat) : (hashExpandBuckets tbl).Bounded := by
  have hideal : (hashExpandBuckets tbl).idealChainMaxlen.toNat ≤ 10 := by
    rw [hashExpandBuckets_ideal_le_iff hc hdouble, hnum]
    omega
  have hideal₀ : 0 < (hashExpandBuckets tbl).idealChainMaxlen.toNat := by
    rw [← Nat.not_le, hashExpandBuckets_ideal_le_iff hc hdouble, hnum, Nat.zero_mul, Nat.not_le]
    exact List.length_pos_of_ne_nil hpos
  have hall := (hashExpandBuckets_ideal_le_iff hc hdouble _).mp (le_refl
    (hashExpandBuckets tbl).idealChainMaxlen.toNat)
  have hfew : (visitOrder tbl).length < 2 ^ 32 := by
    rw [(visitOrder_perm hc).length_eq, ← hnum]
    exact tbl.numItems.toNat_lt
  have hspread := hashExpandBuckets_spread tbl hfew
  generalize (hashExpandBuckets tbl).idealChainMaxlen = ideal at hideal hideal₀ hall hspread
  constructor
  · have hdiv : (hashExpandBuckets tbl).total HashBucket.load ≤
        (hashExpandBuckets tbl).total fun bucket => bucket.chain.length / ideal.toNat := by
      apply HashTable.total_mono rfl
      intro b
      rw [HashBucket.load, (hspread b).mult, ← (hspread b).count]
      apply max_le
      · split
        · rw [UInt32.toNat_div]
        · exact Nat.zero_le _
      · exact Nat.div_le_div_left hideal hideal₀
    have hsum := sum_map_div_le (List.range (hashExpandBuckets tbl).numBuckets.toNat)
      (fun b => ((hashExpandBuckets tbl).buckets b).chain.length) ideal.toNat
    have hlen := total_chain_length (hc.expand hdouble)
    rw [HashTable.total] at hlen
    rw [hlen, ← hnum] at hsum
    refine hdiv.trans (hsum.trans (Nat.div_le_of_le_mul ?_))
    rwa [show (hashExpandBuckets tbl).numBuckets = tbl.numBuckets * 2 from rfl,
      (hc.double hdouble).1]
  · intro b
    rw [(hspread b).mult]
    split
    · rw [UInt32.toNat_div]
      have hdiv := Nat.div_add_mod ((hashExpandBuckets tbl).buckets b).count.toNat ideal.toNat
      have hmod := Nat.mod_lt ((hashExpandBuckets tbl).buckets b).count.toNat hideal₀
      have hmul := Nat.mul_le_mul_right
        (((hashExpandBuckets tbl).buckets b).count.toNat / ideal.toNat) hideal
      omega
    · next hnot =>
      rw [UInt32.lt_iff_toNat_lt] at hnot
      omega

/-- A new item keeps the loads bounded: its bucket stays below the threshold, or all are
moved to new buckets. -/
theorem bounded_hashAddToBkt [DecidableEq ι] (hc : tbl.Consistent items)
    (hcounts : ∀ b, (tbl.buckets b).count.toNat = (tbl.buckets b).chain.length)
    (hbounded : tbl.noexpand ≠ 1 → tbl.Bounded)
    (hnum : (tbl.numItems + 1).toNat = items.length + 1) {hd : HashHandle ι}
    (hv : hd.hashv = HashFcn.hash hd.key)
    (hroom : expandsAt tbl { tbl.buckets (hashToBkt hd.hashv tbl.numBuckets) with
      count := (tbl.buckets (hashToBkt hd.hashv tbl.numBuckets)).count + 1 } = true →
        tbl.CanDouble)
    (hn : (hashAddToBkt { tbl with numItems := tbl.numItems + 1 }
      (hashToBkt hd.hashv tbl.numBuckets) hd).noexpand ≠ 1) :
    (hashAddToBkt { tbl with numItems := tbl.numItems + 1 }
      (hashToBkt hd.hashv tbl.numBuckets) hd).Bounded := by
  have hcons := hc.cons hd hv ((tbl.buckets (hashToBkt hd.hashv tbl.numBuckets)).count + 1)
    (tbl.buckets (hashToBkt hd.hashv tbl.numBuckets)).expandMult (tbl.numItems + 1)
  generalize hashToBkt hd.hashv tbl.numBuckets = b at *
  have hcount : ((tbl.buckets b).count + 1).toNat = (tbl.buckets b).chain.length + 1 := by
    have hle := hc.chain_length_le b
    have hlt := (tbl.numItems + 1).toNat_lt
    exact toNat_succ (hcounts b) (by omega)
  simp only [hashAddToBkt, expandsAt, Bool.and_eq_true, decide_eq_true_eq] at hroom hn ⊢
  by_cases hexpands : ((tbl.buckets b).expandMult + 1) * 10 ≤ (tbl.buckets b).count + 1 ∧
      tbl.noexpand ≠ 1
  · have hdouble := hroom hexpands
    have hle := (hbounded hexpands.2).items_le hc hcounts
    have hpos : 0 < tbl.numBuckets.toNat := by
      rw [hc.pow]
      exact Nat.two_pow_pos _
    rw [if_pos ⟨hexpands, hdouble⟩]
    apply bounded_hashExpandBuckets hcons hdouble
    · rw [List.length_append, List.length_singleton]
      exact hnum
    · exact List.append_ne_nil_of_right_ne_nil _ (List.cons_ne_nil _ _)
    · show (items ++ [_]).length ≤ 20 * tbl.numBuckets.toNat
      rw [List.length_append, List.length_singleton]
      omega
  · rw [if_neg fun h => hexpands h.1] at hn ⊢
    -- the threshold is above the chain
    have hlow : ((tbl.buckets b).count + 1).toNat < 10 * ((tbl.buckets b).expandMult.toNat + 1) := by
      have hthreshold := toNat_threshold_le (tbl.buckets b).expandMult
      have hlt := (not_and_or.mp hexpands).resolve_right fun h => h hn
      rw [UInt32.le_iff_toNat_le] at hlt
      omega
    have hdiv : ((tbl.buckets b).count + 1).toNat / 10 ≤ (tbl.buckets b).expandMult.toNat := by
      omega
    refine (hbounded hn).setBucket ?_ hlow.le rfl rfl
    apply max_le
    · exact le_max_left _ _
    · exact hdiv.trans (le_max_left _ _)

end

/-! ### Runs -/

section
variable [HashFcn] [DecidableEq ι] {s : HashLinks ι} {t : Uthash ι}

/-- The bound is kept until expansion is given up. -/
def Uthash.Loaded (t : Uthash ι) : Prop := t.items ≠ [] → t.tbl.noexpand ≠ 1 → t.tbl.Bounded

omit [DecidableEq ι] in
theorem Represents.counts (h : Represents s t) (b : ℕ) :
    (t.tableForAdd.buckets b).count.toNat = (t.tableForAdd.buckets b).chain.length := by
  by_cases hitems : t.items = []
  · rw [Uthash.tableForAdd, if_pos (List.isEmpty_iff.mpr hitems)]
    rfl
  · rw [Uthash.tableForAdd, if_neg (mt List.isEmpty_iff.mp hitems)]
    have hle := t.consistent.chain_length_le b
    have hfew := h.few
    rw [(h.table hitems).1.chains.length b, UInt32.toNat_ofNat', Nat.mod_eq_of_lt (by omega)]

namespace Uthash.Loaded

omit [DecidableEq ι] in
theorem tableForAdd (hl : t.Loaded) (hn : t.tableForAdd.noexpand ≠ 1) : t.tableForAdd.Bounded := by
  by_cases hitems : t.items = []
  · rw [Uthash.tableForAdd, if_pos (List.isEmpty_iff.mpr hitems)]
    exact bounded_hashMakeTable
  · rw [Uthash.tableForAdd, if_neg (mt List.isEmpty_iff.mp hitems)] at hn ⊢
    exact hl hitems hn

theorem add (hl : t.Loaded) (h : Represents s t) {key : Bytes} (elt : ι)
    (hmore : t.items.length + 1 < 2 ^ 32) (hroom : t.HasRoom key) :
    (t.hashAddKeyptr key elt).Loaded := by
  intro _
  have hnum : (t.tableForAdd.numItems + 1).toNat = t.items.length + 1 := by
    rw [h.tableForAdd_numItems]
    apply toNat_succ _ hmore
    rw [UInt32.toNat_ofNat', Nat.mod_eq_of_lt h.few]
  exact bounded_hashAddToBkt t.tableForAdd_consistent h.counts hl.tableForAdd hnum
    (show HashFcn.hash key = _ from rfl) fun hexpands => (hroom hexpands).1

theorem delete (hl : t.Loaded) (h : Represents s t) {hd : HashHandle ι} (hmem : hd ∈ t.items) :
    (t.hashDelete hd).Loaded := by
  have hitems := List.ne_nil_of_mem hmem
  have hcount := h.counts (hashToBkt hd.hashv t.tbl.numBuckets)
  rw [Uthash.tableForAdd, if_neg (mt List.isEmpty_iff.mp hitems)] at hcount
  have hchain : hd ∈ (t.tbl.buckets (hashToBkt hd.hashv t.tbl.numBuckets)).chain := by
    rw [t.consistent.hashed hd hmem]
    exact (t.mem_chain_iff hd.key hd rfl).mpr hmem
  have hless : ((t.tbl.buckets (hashToBkt hd.hashv t.tbl.numBuckets)).count - 1).toNat ≤
      (t.tbl.buckets (hashToBkt hd.hashv t.tbl.numBuckets)).count.toNat := by
    rw [UInt32.toNat_sub_of_le]
    · exact Nat.sub_le _ _
    · rw [UInt32.le_iff_toNat_le, hcount]
      exact List.length_pos_of_mem hchain
  rw [Uthash.hashDelete]
  split
  · exact fun hne => absurd rfl hne
  · intro _ hn
    have hbounded := hl hitems hn
    refine hbounded.setBucket ?_ ?_ rfl rfl
    · exact max_le_max_left _ (Nat.div_le_div_right hless)
    · exact hless.trans (hbounded.count _)

theorem step (hl : t.Loaded) (h : Represents s t) {op : HashOp ι} (ha : t.Allows op) :
    (t.step op).1.Loaded := by
  cases op with
  | add key elt => exact hl.add h elt ha.2.1 ha.2.2
  | find key => exact hl
  | set key elt =>
    simp only [Uthash.step]
    cases t.hashFind key with
    | some found => exact hl
    | none => exact hl.add h elt ha.2.1 ha.2.2
  | unset key =>
    simp only [Uthash.step]
    cases hfind : t.hashFind key with
    | some found => exact hl.delete h (hashFind_mem hfind)
    | none => exact hl
  | pop =>
    simp only [Uthash.step]
    cases hitems : t.items with
    | cons cur rest => exact hl.delete h (hitems ▸ List.mem_cons_self ..)
    | nil => exact hl
  | each => exact hl

theorem run (hl : t.Loaded) (h : Represents s t) {ops : List (HashOp ι)} (hv : t.Valid ops) :
    (t.run ops).1.Loaded := by
  induction ops generalizing s t with
  | nil => exact hl
  | cons op ops ih =>
    obtain ⟨s', -, h'⟩ := h.step hv.1
    exact ih (hl.step h hv.1) h' hv.2

end Uthash.Loaded

/-- The handles `l` are the chain of bucket `b`. -/
def HashLinks.IsChain (s : HashLinks ι) (b : ℕ) (l : List (HashHandle ι)) : Prop :=
  (s.tbl.buckets b).hhHead = l.head?.map HashHandle.elt ∧
    Chain back (chainFields.At s.hh) none l none

/-- Twenty items to a bucket are never reached on average, and what `expand_mult` delays is
paid for by other buckets. -/
structure HashLinks.Balanced (s : HashLinks ι) : Prop where
  items : s.tbl.numItems.toNat ≤ 19 * s.tbl.numBuckets.toNat
  mults : ((List.range s.tbl.numBuckets.toNat).map fun b => (s.tbl.buckets b).expandMult.toNat).sum ≤
    s.tbl.numBuckets.toNat
  chain : ∀ b, ∃ l, s.IsChain b l ∧ l.length ≤ 10 * ((s.tbl.buckets b).expandMult.toNat + 1)
  search : ∀ key, ∃ out, s.find key = some out ∧
    let bucket := s.tbl.buckets (hashToBkt (HashFcn.hash key) s.tbl.numBuckets)
    findFrom s.hh key (10 * (bucket.expandMult.toNat + 1)) bucket.hhHead = some out

/-- In every run, until expansion is given up, there are at most 19 items to a bucket on
average, the chain of a bucket has at most ten for the bucket and ten for each `expand_mult`,
all of which together are at most as many as the buckets, and a search is through after so
many handles. -/
theorem chains_bounded (tbl : TableLinks ι) (hh : ι → HandleLinks ι) {ops : List (HashOp ι)}
    (hv : (hashNull : Uthash ι).Valid ops) :
    ∃ s out, HashLinks.run ⟨none, tbl, hh⟩ ops = some (s, out) ∧
      (s.head ≠ none → s.tbl.noexpand ≠ 1 → s.Balanced) := by
  obtain ⟨s, hrun, h⟩ := (Represents.null tbl hh).run hv
  have hl : (hashNull.run ops).1.Loaded :=
    Uthash.Loaded.run (fun hne => absurd rfl hne) (Represents.null tbl hh) hv
  refine ⟨s, _, hrun, fun hhead hn => ?_⟩
  generalize (hashNull.run ops).1 = t at h hl
  have hitems : t.items ≠ [] := by
    rintro hnil
    rw [h.head, hnil] at hhead
    exact hhead rfl
  obtain ⟨hsame, -, -⟩ := h.table hitems
  have hbounded := hl hitems (hsame.noexpand ▸ hn)
  have hcounts := h.counts
  rw [Uthash.tableForAdd, if_neg (mt List.isEmpty_iff.mp hitems)] at hcounts
  have hshort : ∀ b, (t.tbl.buckets b).chain.length ≤
      10 * ((s.tbl.buckets b).expandMult.toNat + 1) := by
    intro b
    rw [← hcounts, hsame.chains.mult]
    exact hbounded.count b
  constructor
  · rw [hsame.numItems, h.toNat_numItems hitems, hsame.numBuckets]
    exact hbounded.items_le t.consistent hcounts
  · simp only [hsame.numBuckets, hsame.chains.mult]
    refine le_trans ?_ hbounded.load
    exact List.sum_le_sum fun b _ => le_max_left _ _
  · exact fun b => ⟨_, ⟨hsame.chains.first b, hsame.chains.chain b⟩, hshort b⟩
  · intro key
    refine ⟨_, h.find key, ?_⟩
    rw [Uthash.hashFind_chain]
    simp only [hsame.numBuckets, hsame.chains.first]
    rw [findFrom_chain (hsame.chains.chain _)]
    · exact fun x hx => (h.carries x (t.consistent.mem_items hx)).1
    · exact hshort _

end

section
local instance loadFcn : HashFcn := ⟨fun _ => 0⟩

/-- Ten keys of one hash value: the chain of ten is the first that is moved. -/
def collide : List (HashOp ℕ) := (List.range 10).map fun i => HashOp.add [UInt8.ofNat i] i

theorem chains_bounded_collide :
    ∃ s out, someLinks.run collide = some (s, out) ∧ s.tbl.numBuckets = 64 ∧
      (s.tbl.buckets 0).expandMult = 10 ∧ s.Balanced := by
  obtain ⟨s, out, hrun, hb⟩ := chains_bounded someLinks.tbl someLinks.hh
    (show (hashNull : Uthash ℕ).Valid collide by decide)
  have hat : (someLinks.run collide).map (fun r => (r.1.head, r.1.tbl.noexpand,
      r.1.tbl.numBuckets, (r.1.tbl.buckets 0).expandMult)) = some (some 0, 0, 64, 10) := by
    decide +kernel
  have hrun' : someLinks.run collide = some (s, out) := hrun
  rw [hrun'] at hat
  simp only [Option.map_some, Option.some.injEq, Prod.mk.injEq] at hat
  obtain ⟨hhead, hnoexpand, hnum, hmult⟩ := hat
  refine ⟨s, out, hrun, hnum, hmult, hb ?_ ?_⟩
  · rw [hhead]
    exact Option.some_ne_none 0
  · rw [hnoexpand]
    decide

end
end Pillowtalk
