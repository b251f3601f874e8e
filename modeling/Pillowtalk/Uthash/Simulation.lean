import Pillowtalk.Uthash.Links

/-!
# The links keep to the lists

`Uthash` is what the links stand for: its items are linked in application order, the
chain of each bucket is linked from the bucket's `hh_head`, and the counters
are equal. Every macro keeps this, the loop that moves the handles to twice as
many buckets among them, and it is what `HASH_FSCK` looks for.
-/

namespace Pillowtalk
open Links

variable {ι : Type} [DecidableEq ι]

/-! ### Stores -/

section
variable (hh : ι → HandleLinks ι) (f : HandleLinks ι → HandleLinks ι)

theorem setHandle_self (e : ι) : setHandle hh e f e = f (hh e) := Function.update_self ..

theorem setHandle_ne {e x : ι} (hx : x ≠ e) : setHandle hh e f x = hh x :=
  Function.update_of_ne hx ..

theorem setHandle?_apply (p : Option ι) (x : ι) :
    setHandle? hh p f x = if p = some x then f (hh x) else hh x := by
  cases p with
  | none => rfl
  | some e =>
    by_cases hx : x = e
    · rw [setHandle?, hx, setHandle_self, if_pos rfl]
    · rw [setHandle?, setHandle_ne hh f hx, if_neg fun h => hx (Option.some.inj h).symm]

end

section
variable {hh : ι → HandleLinks ι} {first : Option ι} {add x : ι}

theorem linkFirst_add (hadd : first ≠ some add) :
    linkFirst hh first add add = { hh add with hhNext := first, hhPrev := none } := by
  rw [linkFirst, setHandle?_apply, if_neg hadd, setHandle_self]

theorem linkFirst_first (hadd : first ≠ some add) (hx : first = some x) :
    linkFirst hh first add x = { hh x with hhPrev := some add } := by
  have hne : x ≠ add := fun he => hadd (he ▸ hx)
  rw [linkFirst, setHandle?_apply, if_pos hx, setHandle_ne _ _ hne]

theorem linkFirst_other (hx : first ≠ some x) (hne : x ≠ add) :
    linkFirst hh first add x = hh x := by
  rw [linkFirst, setHandle?_apply, if_neg hx, setHandle_ne _ _ hne]

/-- The chains are none of the application order's business. -/
theorem linkFirst_order (hh : ι → HandleLinks ι) (first : Option ι) (add x : ι) :
    (linkFirst hh first add x).prev = (hh x).prev ∧ (linkFirst hh first add x).next = (hh x).next ∧
      (linkFirst hh first add x).key = (hh x).key ∧
      (linkFirst hh first add x).hashv = (hh x).hashv := by
  rw [linkFirst, setHandle?_apply]
  by_cases hx : x = add
  · subst hx
    rw [setHandle_self]
    split <;> exact ⟨rfl, rfl, rfl, rfl⟩
  · rw [setHandle_ne _ _ hx]
    split <;> exact ⟨rfl, rfl, rfl, rfl⟩

end

/-! ### What the links stand for -/

def back (hd : HashHandle ι) : Option ι := some hd.elt

/-- The element of `hd` is linked to `p` and `n`. -/
def LinkFields.At (F : LinkFields ι) (hh : ι → HandleLinks ι) (hd : HashHandle ι) (p : Option ι)
    (n : Option (HashHandle ι)) : Prop :=
  F.prev (hh hd.elt) = p ∧ F.next (hh hd.elt) = n.map HashHandle.elt

def elts (l : List (HashHandle ι)) : List ι := l.map HashHandle.elt

/-- The chains of the buckets `lb`, linked from the buckets `pb`. -/
structure Chains (hh : ι → HandleLinks ι) (pb : ℕ → BucketLinks ι) (lb : ℕ → HashBucket ι) :
    Prop where
  first : ∀ b, (pb b).hhHead = (lb b).chain.head?.map HashHandle.elt
  count : ∀ b, (pb b).count = (lb b).count
  mult : ∀ b, (pb b).expandMult = (lb b).expandMult
  length : ∀ b, (lb b).count = UInt32.ofNat (lb b).chain.length
  chain : ∀ b, Chain back (chainFields.At hh) none (lb b).chain none
  nodup : ∀ b, (elts (lb b).chain).Nodup
  apart : ∀ b c, b ≠ c → ∀ e ∈ elts (lb b).chain, e ∉ elts (lb c).chain

omit [DecidableEq ι] in
theorem chains_zero (hh : ι → HandleLinks ι) :
    Chains hh (fun _ => zeroLinks) fun _ => zeroBucket := by
  constructor
  · exact fun _ => rfl
  · exact fun _ => rfl
  · exact fun _ => rfl
  · exact fun _ => rfl
  · exact fun _ => trivial
  · exact fun _ => List.nodup_nil
  · exact fun _ _ _ e he => absurd he List.not_mem_nil

namespace Chains
variable {hh hh' : ι → HandleLinks ι} {pb : ℕ → BucketLinks ι} {lb : ℕ → HashBucket ι}

omit [DecidableEq ι] in
/-- Handles whose chain links stay as they are. -/
theorem congr (h : Chains hh pb lb) (hsame : ∀ b, ∀ e ∈ elts (lb b).chain,
    (hh' e).hhPrev = (hh e).hhPrev ∧ (hh' e).hhNext = (hh e).hhNext) : Chains hh' pb lb := by
  refine ⟨h.first, h.count, h.mult, h.length, fun b => ?_, h.nodup, h.apart⟩
  apply (h.chain b).congr
  rintro hd hmem p n ⟨hp, hn⟩
  obtain ⟨hp', hn'⟩ := hsame b hd.elt (List.mem_map_of_mem hmem)
  exact ⟨hp'.trans hp, hn'.trans hn⟩

omit [DecidableEq ι] in
theorem first_mem (h : Chains hh pb lb) {b : ℕ} {e : ι} (he : (pb b).hhHead = some e) :
    e ∈ elts (lb b).chain := by
  rw [h.first, ← List.head?_map] at he
  exact List.mem_of_head? he

omit [DecidableEq ι] in
/-- One bucket gets another chain, of handles that are in no other bucket, and the links of
the others stay as they are. -/
theorem set (h : Chains hh pb lb) {b : ℕ} {p : BucketLinks ι} {l : HashBucket ι}
    (hfirst : p.hhHead = l.chain.head?.map HashHandle.elt) (hcount : p.count = l.count)
    (hmult : p.expandMult = l.expandMult) (hlength : l.count = UInt32.ofNat l.chain.length)
    (hchain : Chain back (chainFields.At hh') none l.chain none) (hnodup : (elts l.chain).Nodup)
    (hapart : ∀ c, c ≠ b → ∀ e ∈ elts l.chain, e ∉ elts (lb c).chain)
    (hsame : ∀ c, c ≠ b → ∀ hd ∈ (lb c).chain, ∀ p n,
      chainFields.At hh hd p n → chainFields.At hh' hd p n) :
    Chains hh' (setLinks pb b p) (setBucket lb b l) := by
  have hself : setBucket lb b l b = l := if_pos rfl
  have hself' : setLinks pb b p b = p := if_pos rfl
  have hother : ∀ c, c ≠ b → setBucket lb b l c = lb c := fun c hc => if_neg hc
  have hother' : ∀ c, c ≠ b → setLinks pb b p c = pb c := fun c hc => if_neg hc
  constructor
  · intro c
    by_cases hc : c = b
    · rw [hc, hself, hself', hfirst]
    · rw [hother c hc, hother' c hc, h.first]
  · intro c
    by_cases hc : c = b
    · rw [hc, hself, hself', hcount]
    · rw [hother c hc, hother' c hc, h.count]
  · intro c
    by_cases hc : c = b
    · rw [hc, hself, hself', hmult]
    · rw [hother c hc, hother' c hc, h.mult]
  · intro c
    by_cases hc : c = b
    · rw [hc, hself, hlength]
    · rw [hother c hc, h.length]
  · intro c
    by_cases hc : c = b
    · rw [hc, hself]
      exact hchain
    · rw [hother c hc]
      exact (h.chain c).congr (hsame c hc)
  · intro c
    by_cases hc : c = b
    · rw [hc, hself]
      exact hnodup
    · rw [hother c hc]
      exact h.nodup c
  · intro c d hcd e hec hed
    by_cases hc : c = b
    · have hd : d ≠ b := fun hd => hcd (hc.trans hd.symm)
      rw [hc, hself] at hec
      rw [hother d hd] at hed
      exact hapart d hd e hec hed
    · rw [hother c hc] at hec
      by_cases hd : d = b
      · rw [hd, hself] at hed
        exact hapart c hc e hed hec
      · rw [hother d hd] at hed
        exact h.apart c d hcd e hec hed

theorem linkFirst (h : Chains hh pb lb) (b : ℕ) (mult : UInt32) {hd : HashHandle ι}
    (hnew : ∀ c, hd.elt ∉ elts (lb c).chain) :
    Chains (linkFirst hh (pb b).hhHead hd.elt)
      (setLinks pb b ⟨some hd.elt, (pb b).count + 1, mult⟩)
      (setBucket lb b ⟨hd :: (lb b).chain, (lb b).count + 1, mult⟩) := by
  have hadd : (pb b).hhHead ≠ some hd.elt := fun he => hnew b (h.first_mem he)
  have hlength : (lb b).count + 1 = UInt32.ofNat (hd :: (lb b).chain).length := by
    rw [List.length_cons, UInt32.ofNat_add, h.length]
    rfl
  refine h.set rfl (congrArg (· + 1) (h.count b)) rfl hlength ?_ ?_ ?_ ?_
  · apply (h.chain b).push
    · rw [LinkFields.At, linkFirst_add hadd, h.first, Option.or_none]
      exact ⟨rfl, rfl⟩
    · rintro x n hx ⟨-, hn⟩
      have hfirst : (pb b).hhHead = some x.elt := by
        rw [h.first, hx]
        rfl
      rw [LinkFields.At, linkFirst_first hadd hfirst]
      exact ⟨rfl, hn⟩
    · rintro x hx p n hlink
      have hmem : x.elt ∈ elts (lb b).chain := List.mem_map_of_mem (List.mem_of_mem_tail hx)
      have hfirst : (pb b).hhHead ≠ some x.elt := by
        rw [h.first]
        intro he
        obtain ⟨y, hy, hyx⟩ := Option.map_eq_some_iff.mp he
        exact ne_head_of_mem_tail (h.nodup b) hy hx hyx.symm
      have hne : x.elt ≠ hd.elt := fun he => hnew b (he ▸ hmem)
      rw [LinkFields.At, linkFirst_other hfirst hne]
      exact hlink
  · exact List.nodup_cons.mpr ⟨hnew b, h.nodup b⟩
  · intro c hc e he hec
    rcases List.mem_cons.mp he with rfl | he
    · exact hnew c hec
    · exact h.apart b c (fun hbc => hc hbc.symm) e he hec
  · intro c hc x hx p n hlink
    have hmem : x.elt ∈ elts (lb c).chain := List.mem_map_of_mem hx
    have hfirst : (pb b).hhHead ≠ some x.elt :=
      fun he => h.apart b c (fun hbc => hc hbc.symm) x.elt (h.first_mem he) hmem
    have hne : x.elt ≠ hd.elt := fun he => hnew c (he ▸ hmem)
    rw [LinkFields.At, linkFirst_other hfirst hne]
    exact hlink

end Chains

/-! ### Moving the handles to twice as many buckets -/

section
variable (numBkts ideal : UInt32)

/-- The new buckets so far, and the handles that are still to be moved, linked
as they were. -/
structure Expanding (hh₀ : ι → HandleLinks ι) (s : Expansion ι)
    (lists : (ℕ → HashBucket ι) × UInt32) (rest : List (HashHandle ι)) : Prop where
  chains : Chains s.hh s.buckets lists.1
  nonideal : s.nonideal = lists.2
  kept : ∀ hd ∈ rest, s.hh hd.elt = hh₀ hd.elt
  apart : ∀ b, ∀ e ∈ elts (lists.1 b).chain, e ∉ elts rest
  nodup : (elts rest).Nodup
  order : ∀ e, (s.hh e).prev = (hh₀ e).prev ∧ (s.hh e).next = (hh₀ e).next ∧
    (s.hh e).key = (hh₀ e).key ∧ (s.hh e).hashv = (hh₀ e).hashv

theorem Expanding.step {hh₀ : ι → HandleLinks ι} {s : Expansion ι}
    {lists : (ℕ → HashBucket ι) × UInt32} {hd : HashHandle ι} {rest : List (HashHandle ι)}
    (h : Expanding hh₀ s lists (hd :: rest)) (hv : (hh₀ hd.elt).hashv = hd.hashv) :
    Expanding hh₀ (expandHandle numBkts ideal s hd.elt) (expandItem numBkts ideal lists hd)
      rest := by
  have hself : s.hh hd.elt = hh₀ hd.elt := h.kept hd (List.mem_cons_self ..)
  obtain ⟨hnot, hnd⟩ := List.nodup_cons.mp h.nodup
  have hnew : ∀ c, hd.elt ∉ elts (lists.1 c).chain :=
    fun c hm => h.apart c hd.elt hm (List.mem_cons_self ..)
  have hchains := fun b mult => h.chains.linkFirst b mult hnew
  simp only [expandHandle, expandItem, hself, hv, h.chains.count, h.chains.mult, h.nonideal]
    at hchains ⊢
  constructor
  · exact hchains _ _
  · rfl
  · intro x hx
    have hmem : x.elt ∈ elts rest := List.mem_map_of_mem hx
    have hfirst : (s.buckets (hashToBkt hd.hashv numBkts)).hhHead ≠ some x.elt := fun he =>
      h.apart _ _ (h.chains.first_mem he) (List.mem_cons_of_mem _ hmem)
    have hne : x.elt ≠ hd.elt := fun he => hnot (he ▸ hmem)
    exact (linkFirst_other hfirst hne).trans (h.kept x (List.mem_cons_of_mem _ hx))
  · intro b e he hrest
    simp only [setBucket] at he
    split at he
    · rcases List.mem_cons.mp he with rfl | he
      · exact hnot hrest
      · exact h.apart _ e he (List.mem_cons_of_mem _ hrest)
    · exact h.apart b e he (List.mem_cons_of_mem _ hrest)
  · exact hnd
  · intro e
    obtain ⟨h₁, h₂, h₃, h₄⟩ := linkFirst_order s.hh
      (s.buckets (hashToBkt hd.hashv numBkts)).hhHead hd.elt e
    obtain ⟨g₁, g₂, g₃, g₄⟩ := h.order e
    exact ⟨h₁.trans g₁, h₂.trans g₂, h₃.trans g₃, h₄.trans g₄⟩

/-- One chain of the old buckets. -/
theorem Expanding.chain {hh₀ : ι → HandleLinks ι} {p : Option ι} (l : List (HashHandle ι))
    {rest : List (HashHandle ι)} (hl : Chain back (chainFields.At hh₀) p l none)
    (hv : ∀ hd ∈ l, (hh₀ hd.elt).hashv = hd.hashv) {fuel : ℕ} (hf : l.length ≤ fuel)
    {s : Expansion ι} {lists : (ℕ → HashBucket ι) × UInt32} (h : Expanding hh₀ s lists (l ++ rest)) :
    Expanding hh₀ (expandFrom numBkts ideal fuel s (l.head?.map HashHandle.elt))
      (l.foldl (expandItem numBkts ideal) lists) rest := by
  induction l generalizing p fuel s lists with
  | nil => cases fuel <;> exact h
  | cons hd l ih =>
    cases fuel with
    | zero => exact absurd hf (Nat.not_succ_le_zero _)
    | succ fuel =>
      have hself : s.hh hd.elt = hh₀ hd.elt := h.kept hd (List.mem_cons_self ..)
      have hnext : (s.hh hd.elt).hhNext = l.head?.map HashHandle.elt := by
        have hlink := hl.1.2
        rw [Option.or_none] at hlink
        rw [hself]
        exact hlink
      simp only [List.head?_cons, Option.map_some, expandFrom, hnext, List.foldl_cons]
      apply ih hl.2 (fun x hx => hv x (List.mem_cons_of_mem _ hx)) (Nat.le_of_succ_le_succ hf)
      exact h.step numBkts ideal (hv hd (List.mem_cons_self ..))

/-- All chains, bucket by bucket. -/
theorem Expanding.buckets {hh₀ : ι → HandleLinks ι} {pb : ℕ → BucketLinks ι}
    {lb : ℕ → HashBucket ι} (hc : Chains hh₀ pb lb) {fuel : ℕ}
    (hv : ∀ b, ∀ hd ∈ (lb b).chain, (hh₀ hd.elt).hashv = hd.hashv)
    (hf : ∀ b, (lb b).chain.length ≤ fuel) (bs : List ℕ) {s : Expansion ι}
    {lists : (ℕ → HashBucket ι) × UInt32}
    (h : Expanding hh₀ s lists (bs.flatMap fun b => (lb b).chain)) :
    Expanding hh₀ (bs.foldl (fun x b => expandFrom numBkts ideal fuel x (pb b).hhHead) s)
      ((bs.flatMap fun b => (lb b).chain).foldl (expandItem numBkts ideal) lists) [] := by
  induction bs generalizing s lists with
  | nil => exact h
  | cons b bs ih =>
    rw [List.flatMap_cons] at h ⊢
    rw [List.foldl_cons, List.foldl_append, hc.first]
    exact ih (Expanding.chain numBkts ideal _ (hc.chain b) (hv b) (hf b) h)

end

/-! ### Neighbours of what is deleted -/

section
variable {F : LinkFields ι} {hh : ι → HandleLinks ι} {del : HashHandle ι}
  {l₁ l₂ : List (HashHandle ι)}

/-- What neither of the two stores sets is as it was. -/
theorem patchUp_keeps {β : Type} (g : HandleLinks ι → β) (hp : ∀ p x, g (F.setPrev p x) = g x)
    (hn : ∀ p x, g (F.setNext p x) = g x) (hh : ι → HandleLinks ι) (del e : ι) :
    g (patchUp F hh del e) = g (hh e) := by
  have hstore : ∀ (hh : ι → HandleLinks ι) (p : Option ι) (f : HandleLinks ι → HandleLinks ι),
      (∀ x, g (f x) = g x) → g (setHandle? hh p f e) = g (hh e) := by
    intro hh p f hf
    rw [setHandle?_apply]
    split
    · exact hf _
    · rfl
  rw [patchUp, hstore _ _ _ (hp _), hstore _ _ _ (hn _)]

/-- The chains are none of the application order's business, nor the other way round. -/
theorem patchUp_order (hh : ι → HandleLinks ι) (del e : ι) :
    (patchUp orderFields hh del e).hhPrev = (hh e).hhPrev ∧
      (patchUp orderFields hh del e).hhNext = (hh e).hhNext ∧
      (patchUp orderFields hh del e).key = (hh e).key ∧
      (patchUp orderFields hh del e).hashv = (hh e).hashv := by
  refine ⟨?_, ?_, ?_, ?_⟩
  · exact patchUp_keeps HandleLinks.hhPrev (fun _ _ => rfl) (fun _ _ => rfl) hh del e
  · exact patchUp_keeps HandleLinks.hhNext (fun _ _ => rfl) (fun _ _ => rfl) hh del e
  · exact patchUp_keeps HandleLinks.key (fun _ _ => rfl) (fun _ _ => rfl) hh del e
  · exact patchUp_keeps HandleLinks.hashv (fun _ _ => rfl) (fun _ _ => rfl) hh del e

theorem patchUp_chain (hh : ι → HandleLinks ι) (del e : ι) :
    (patchUp chainFields hh del e).prev = (hh e).prev ∧
      (patchUp chainFields hh del e).next = (hh e).next ∧
      (patchUp chainFields hh del e).key = (hh e).key ∧
      (patchUp chainFields hh del e).hashv = (hh e).hashv := by
  refine ⟨?_, ?_, ?_, ?_⟩
  · exact patchUp_keeps HandleLinks.prev (fun _ _ => rfl) (fun _ _ => rfl) hh del e
  · exact patchUp_keeps HandleLinks.next (fun _ _ => rfl) (fun _ _ => rfl) hh del e
  · exact patchUp_keeps HandleLinks.key (fun _ _ => rfl) (fun _ _ => rfl) hh del e
  · exact patchUp_keeps HandleLinks.hashv (fun _ _ => rfl) (fun _ _ => rfl) hh del e

omit [DecidableEq ι] in
theorem links_of_mid {p : Option ι} (h : Chain back (F.At hh) p (l₁ ++ del :: l₂) none) :
    F.prev (hh del.elt) = lastLink back p l₁ ∧
      F.next (hh del.elt) = l₂.head?.map HashHandle.elt := by
  have hmid := h.mid
  rw [Option.or_none] at hmid
  exact hmid

omit [DecidableEq ι] in
theorem lastLink_back {l : List (HashHandle ι)} :
    lastLink back none l = l.getLast?.map HashHandle.elt := by
  rw [lastLink_eq]
  cases l.getLast? <;> rfl

variable (h : Chain back (F.At hh) none (l₁ ++ del :: l₂) none)
  (hnd : (elts (l₁ ++ del :: l₂)).Nodup)
include h hnd

theorem patchUp_apply (e : ι) : patchUp F hh del.elt e =
    if l₂.head?.map HashHandle.elt = some e then
      F.setPrev (l₁.getLast?.map HashHandle.elt) (hh e)
    else if l₁.getLast?.map HashHandle.elt = some e then
      F.setNext (l₂.head?.map HashHandle.elt) (hh e)
    else hh e := by
  obtain ⟨hprev, hnext⟩ := links_of_mid h
  rw [lastLink_back] at hprev
  simp only [elts, List.map_append, List.map_cons] at hnd
  obtain ⟨hnd₁, hnd₂, hdis⟩ := List.nodup_append.mp hnd
  have hlast : ∀ x, l₁.getLast?.map HashHandle.elt = some x → x ∈ l₁.map HashHandle.elt := by
    intro x hx
    rw [← List.getLast?_map] at hx
    exact List.mem_of_getLast? hx
  have hhead : ∀ x, l₂.head?.map HashHandle.elt = some x → x ∈ l₂.map HashHandle.elt := by
    intro x hx
    rw [← List.head?_map] at hx
    exact List.mem_of_head? hx
  -- the handle of `del` itself is not written to
  have hself : setHandle? hh (F.prev (hh del.elt)) (F.setNext (F.next (hh del.elt))) del.elt =
      hh del.elt := by
    rw [setHandle?_apply, hprev, if_neg]
    exact fun he => hdis _ (hlast _ he) _ (List.mem_cons_self ..) rfl
  rw [patchUp, hself, setHandle?_apply, setHandle?_apply, hprev, hnext]
  by_cases h₂ : l₂.head?.map HashHandle.elt = some e
  · rw [if_pos h₂, if_pos h₂, if_neg]
    exact fun h₁ => hdis _ (hlast _ h₁) _ (List.mem_cons_of_mem _ (hhead _ h₂)) rfl
  · rw [if_neg h₂, if_neg h₂]

theorem Chain.patchUp : Chain back (F.At (patchUp F hh del.elt)) none (l₁ ++ l₂) none := by
  have happly := patchUp_apply h hnd
  simp only [elts, List.map_append, List.map_cons] at hnd
  obtain ⟨hnd₁, hnd₂, hdis⟩ := List.nodup_append.mp hnd
  have hnd₂ := (List.nodup_cons.mp hnd₂).2
  have hapart : ∀ x ∈ l₁, ∀ y ∈ l₂, x.elt ≠ y.elt := fun x hx y hy =>
    hdis _ (List.mem_map_of_mem hx) _ (List.mem_cons_of_mem _ (List.mem_map_of_mem hy))
  have hhead : ∀ x, l₂.head?.map HashHandle.elt = some x → ∃ y ∈ l₂, y.elt = x := by
    intro x hx
    obtain ⟨y, hy, rfl⟩ := Option.map_eq_some_iff.mp hx
    exact ⟨y, List.mem_of_head? hy, rfl⟩
  have hlast : ∀ x, l₁.getLast?.map HashHandle.elt = some x → ∃ y ∈ l₁, y.elt = x := by
    intro x hx
    obtain ⟨y, hy, rfl⟩ := Option.map_eq_some_iff.mp hx
    exact ⟨y, List.mem_of_getLast? hy, rfl⟩
  apply h.erase
  · rintro x p hx ⟨hp, -⟩
    have hxl : x ∈ l₁ := List.mem_of_getLast? hx
    have hnot : l₂.head?.map HashHandle.elt ≠ some x.elt := by
      intro he
      obtain ⟨y, hy, hyx⟩ := hhead _ he
      exact hapart x hxl y hy hyx.symm
    rw [LinkFields.At, happly, if_neg hnot, if_pos (by rw [hx]; rfl), F.prev_setNext,
      F.next_setNext, Option.or_none]
    exact ⟨hp, rfl⟩
  · intro x hx p n hlink
    have hxl : x ∈ l₁ := List.dropLast_subset _ hx
    have hnot : l₂.head?.map HashHandle.elt ≠ some x.elt := by
      intro he
      obtain ⟨y, hy, hyx⟩ := hhead _ he
      exact hapart x hxl y hy hyx.symm
    have hnot' : l₁.getLast?.map HashHandle.elt ≠ some x.elt := by
      intro he
      obtain ⟨y, hy, hyx⟩ := Option.map_eq_some_iff.mp he
      exact ne_last_of_mem_dropLast hnd₁ hy hx hyx.symm
    rw [LinkFields.At, happly, if_neg hnot, if_neg hnot']
    exact hlink
  · rintro x n hx ⟨-, hn⟩
    rw [LinkFields.At, happly, if_pos (by rw [hx]; rfl), F.prev_setPrev, F.next_setPrev,
      lastLink_back]
    exact ⟨rfl, hn⟩
  · intro x hx p n hlink
    have hxl : x ∈ l₂ := List.mem_of_mem_tail hx
    have hnot : l₂.head?.map HashHandle.elt ≠ some x.elt := by
      intro he
      obtain ⟨y, hy, hyx⟩ := Option.map_eq_some_iff.mp he
      exact ne_head_of_mem_tail hnd₂ hy hx hyx.symm
    have hnot' : l₁.getLast?.map HashHandle.elt ≠ some x.elt := by
      intro he
      obtain ⟨y, hy, hyx⟩ := hlast _ he
      exact hapart y hy x hxl hyx
    rw [LinkFields.At, happly, if_neg hnot, if_neg hnot']
    exact hlink

theorem patchUp_other {e : ι} (he : e ∉ elts (l₁ ++ del :: l₂)) :
    patchUp F hh del.elt e = hh e := by
  rw [patchUp_apply h hnd, if_neg, if_neg]
  · intro hx
    obtain ⟨y, hy, rfl⟩ := Option.map_eq_some_iff.mp hx
    exact he (List.mem_map_of_mem (List.mem_append_left _ (List.mem_of_getLast? hy)))
  · intro hx
    obtain ⟨y, hy, rfl⟩ := Option.map_eq_some_iff.mp hx
    exact he (List.mem_map_of_mem (List.mem_append_right _
      (List.mem_cons_of_mem _ (List.mem_of_head? hy))))

end

theorem erase_mid {del : HashHandle ι} {l₁ l₂ : List (HashHandle ι)}
    (hnd : (elts (l₁ ++ del :: l₂)).Nodup) : (l₁ ++ del :: l₂).erase del = l₁ ++ l₂ := by
  have hnot : del ∉ l₁ := by
    intro hm
    simp only [elts, List.map_append, List.map_cons] at hnd
    exact (List.nodup_append.mp hnd).2.2 _ (List.mem_map_of_mem hm) _ (List.mem_cons_self ..) rfl
  rw [List.erase_append_right _ hnot, List.erase_cons_head]

section
variable {del : HashHandle ι} {l₁ l₂ : List (HashHandle ι)}

omit [DecidableEq ι] in
theorem head_erase : (if l₁.getLast?.map HashHandle.elt = none then l₂.head?.map HashHandle.elt
    else (l₁ ++ del :: l₂).head?.map HashHandle.elt) = (l₁ ++ l₂).head?.map HashHandle.elt := by
  cases l₁ with
  | nil => exact if_pos rfl
  | cons x l₁ =>
    rw [if_neg]
    · rfl
    · rw [Option.map_eq_none_iff, List.getLast?_eq_none_iff]
      exact List.cons_ne_nil _ _

theorem last_erase (hnd : (elts (l₁ ++ del :: l₂)).Nodup) :
    (if (l₁ ++ del :: l₂).getLast?.map HashHandle.elt = some del.elt then
      l₁.getLast?.map HashHandle.elt else (l₁ ++ del :: l₂).getLast?.map HashHandle.elt) =
      (l₁ ++ l₂).getLast?.map HashHandle.elt := by
  cases l₂ using List.reverseRecOn with
  | nil =>
    rw [List.getLast?_concat, List.append_nil]
    exact if_pos rfl
  | append_singleton l₂ x =>
    rw [← List.append_assoc, List.getLast?_concat, ← List.cons_append, ← List.append_assoc,
      List.getLast?_concat, if_neg]
    intro he
    have hx : x.elt = del.elt := Option.some.inj he
    simp only [elts, List.map_append, List.map_cons] at hnd
    have hcons := (List.nodup_append.mp hnd).2.1
    exact (List.nodup_cons.mp hcons).1 (hx ▸ List.mem_append_right _
      (List.mem_singleton_self _))

end

theorem Chains.delete {hh : ι → HandleLinks ι} {pb : ℕ → BucketLinks ι} {lb : ℕ → HashBucket ι}
    (h : Chains hh pb lb) {b : ℕ} {del : HashHandle ι} (hdel : del ∈ (lb b).chain) :
    Chains (patchUp chainFields hh del.elt)
      (setLinks pb b ⟨if (pb b).hhHead = some del.elt then (hh del.elt).hhNext else (pb b).hhHead,
        (pb b).count - 1, (pb b).expandMult⟩)
      (setBucket lb b ⟨(lb b).chain.erase del, (lb b).count - 1, (lb b).expandMult⟩) := by
  obtain ⟨l₁, l₂, hsplit⟩ := List.append_of_mem hdel
  have hchain := h.chain b
  have hnd := h.nodup b
  have hfirst := h.first b
  have hlength := h.length b
  rw [hsplit] at hchain hnd hfirst hlength
  have hkept : ∀ e, e ∈ elts (l₁ ++ l₂) → e ∈ elts (lb b).chain := by
    intro e he
    rw [hsplit]
    simp only [elts, List.map_append, List.map_cons, List.mem_append, List.mem_cons] at he ⊢
    tauto
  have hnext : (hh del.elt).hhNext = l₂.head?.map HashHandle.elt := (links_of_mid hchain).2
  have hfirst' : (if (pb b).hhHead = some del.elt then (hh del.elt).hhNext else (pb b).hhHead) =
      (l₁ ++ l₂).head?.map HashHandle.elt := by
    rw [hfirst, hnext]
    cases l₁ with
    | nil => exact if_pos rfl
    | cons x l₁ =>
      have hne : x.elt ≠ del.elt := by
        rintro he
        exact (List.nodup_cons.mp hnd).1 (he ▸ List.mem_map_of_mem (List.mem_append_right _
          (List.mem_cons_self ..)))
      exact if_neg fun he => hne (Option.some.inj he)
  have hlength' : (lb b).count - 1 = UInt32.ofNat (l₁ ++ l₂).length := by
    have hlen : (l₁ ++ l₂).length = (l₁ ++ del :: l₂).length - 1 := by
      simp only [List.length_append, List.length_cons]
      omega
    have hpos : 1 ≤ (l₁ ++ del :: l₂).length := by
      simp only [List.length_append, List.length_cons]
      omega
    rw [hlen, UInt32.ofNat_sub hpos, hlength]
    rfl
  rw [hfirst', hsplit, erase_mid hnd]
  refine h.set rfl (congrArg (· - 1) (h.count b)) (h.mult b) hlength' ?_ ?_ ?_ ?_
  · exact Chain.patchUp hchain hnd
  · have hsub : (l₁ ++ l₂).Sublist (l₁ ++ del :: l₂) :=
      (List.Sublist.refl l₁).append (List.sublist_cons_self del l₂)
    exact hnd.sublist (hsub.map _)
  · exact fun c hc e he => h.apart b c (fun hbc => hc hbc.symm) e (hkept e he)
  · intro c hc x hx p n hlink
    have hout : x.elt ∉ elts (l₁ ++ del :: l₂) :=
      hsplit ▸ h.apart c b hc x.elt (List.mem_map_of_mem hx)
    rw [LinkFields.At, patchUp_other hchain hnd hout]
    exact hlink

/-! ### Tables -/

/-- The table `p` has the chains of `tbl` and the same counters. -/
structure SameTable (hh : ι → HandleLinks ι) (p : TableLinks ι) (tbl : HashTable ι) : Prop where
  chains : Chains hh p.buckets tbl.buckets
  numBuckets : p.numBuckets = tbl.numBuckets
  log2NumBuckets : p.log2NumBuckets = tbl.log2NumBuckets
  numItems : p.numItems = tbl.numItems
  idealChainMaxlen : p.idealChainMaxlen = tbl.idealChainMaxlen
  nonidealItems : p.nonidealItems = tbl.nonidealItems
  ineffExpands : p.ineffExpands = tbl.ineffExpands
  noexpand : p.noexpand = tbl.noexpand

/-- What the macros on a bucket leave alone. -/
structure SameOrder (s s' : HashLinks ι) : Prop where
  head : s'.head = s.head
  tail : s'.tbl.tail = s.tbl.tail
  order : ∀ e, (s'.hh e).prev = (s.hh e).prev ∧ (s'.hh e).next = (s.hh e).next ∧
    (s'.hh e).key = (s.hh e).key ∧ (s'.hh e).hashv = (s.hh e).hashv

omit [DecidableEq ι] in
theorem SameOrder.trans {s₁ s₂ s₃ : HashLinks ι} (h : SameOrder s₁ s₂) (h' : SameOrder s₂ s₃) :
    SameOrder s₁ s₃ := by
  refine ⟨h'.head.trans h.head, h'.tail.trans h.tail, fun e => ?_⟩
  obtain ⟨h₁, h₂, h₃, h₄⟩ := h.order e
  obtain ⟨g₁, g₂, g₃, g₄⟩ := h'.order e
  exact ⟨g₁.trans h₁, g₂.trans h₂, g₃.trans h₃, g₄.trans h₄⟩

section
variable [HashFcn] {s : HashLinks ι} {tbl : HashTable ι} {items : List (HashHandle ι)}

theorem SameTable.expand (h : SameTable s.hh s.tbl tbl) (hc : tbl.Consistent items)
    (hv : ∀ hd ∈ items, (s.hh hd.elt).hashv = hd.hashv) (hnd : (elts items).Nodup)
    (hn : tbl.numItems.toNat = items.length) :
    SameTable s.expandBuckets.hh s.expandBuckets.tbl (hashExpandBuckets tbl) ∧
      SameOrder s s.expandBuckets := by
  have hvisit : (elts (visitOrder tbl)).Nodup :=
    ((visitOrder_perm hc).map HashHandle.elt).nodup_iff.mpr hnd
  have hstart : Expanding s.hh ⟨s.hh, fun _ => zeroLinks, 0⟩ (fun _ => zeroBucket, 0)
      (visitOrder tbl) := by
    constructor
    · exact chains_zero s.hh
    · rfl
    · exact fun _ _ => rfl
    · exact fun _ e he => absurd he List.not_mem_nil
    · exact hvisit
    · exact fun _ => ⟨rfl, rfl, rfl, rfl⟩
  have hlength : ∀ b, (tbl.buckets b).chain.length ≤ tbl.numItems.toNat :=
    fun b => hn ▸ hc.chain_length_le b
  have hall := Expanding.buckets (tbl.numBuckets * 2)
    (tbl.numItems >>> (tbl.log2NumBuckets + 1) +
      if tbl.numItems &&& (tbl.numBuckets * 2 - 1) ≠ 0 then 1 else 0)
    h.chains (fun b hd hm => hv hd (hc.mem_items hm)) hlength
    (List.range tbl.numBuckets.toNat) hstart
  have hfold : ((List.range tbl.numBuckets.toNat).flatMap fun b => (tbl.buckets b).chain) =
      visitOrder tbl := rfl
  rw [hfold] at hall
  constructor
  · simp only [HashLinks.expandBuckets, hashExpandBuckets, h.numBuckets, h.log2NumBuckets,
      h.numItems, h.ineffExpands, h.noexpand]
    exact ⟨hall.chains, rfl, rfl, rfl, rfl, hall.nonideal, by rw [hall.nonideal],
      by rw [hall.nonideal]⟩
  · refine ⟨rfl, rfl, fun e => ?_⟩
    simp only [HashLinks.expandBuckets, h.numBuckets, h.log2NumBuckets, h.numItems]
    exact hall.order e

theorem SameTable.addToBkt {hd : HashHandle ι} (h : SameTable s.hh s.tbl tbl)
    (hnew : ∀ c, hd.elt ∉ elts (tbl.buckets c).chain)
    (hc : HashTable.Consistent { tbl with
      buckets := setBucket tbl.buckets (hashToBkt hd.hashv tbl.numBuckets)
        ⟨hd :: (tbl.buckets (hashToBkt hd.hashv tbl.numBuckets)).chain,
          (tbl.buckets (hashToBkt hd.hashv tbl.numBuckets)).count + 1,
          (tbl.buckets (hashToBkt hd.hashv tbl.numBuckets)).expandMult⟩ } items)
    (hv : ∀ x ∈ items, (s.hh x.elt).hashv = x.hashv) (hnd : (elts items).Nodup)
    (hn : tbl.numItems.toNat = items.length)
    (hroom : expandsAt tbl { tbl.buckets (hashToBkt hd.hashv tbl.numBuckets) with
      count := (tbl.buckets (hashToBkt hd.hashv tbl.numBuckets)).count + 1 } = true →
        tbl.CanDouble) :
    ∃ s', s.addToBkt (hashToBkt hd.hashv tbl.numBuckets) hd.elt = some s' ∧
      SameTable s'.hh s'.tbl (hashAddToBkt tbl (hashToBkt hd.hashv tbl.numBuckets) hd) ∧
      SameOrder s s' := by
  have hlinked := h.chains.linkFirst (hashToBkt hd.hashv tbl.numBuckets)
    (s.tbl.buckets (hashToBkt hd.hashv tbl.numBuckets)).expandMult hnew
  generalize hb : hashToBkt hd.hashv tbl.numBuckets = b at *
  let tbl₁ : HashTable ι := { tbl with
    buckets := setBucket tbl.buckets b ⟨hd :: (tbl.buckets b).chain, (tbl.buckets b).count + 1,
      (tbl.buckets b).expandMult⟩ }
  have hmult := h.chains.mult b
  have hcount := h.chains.count b
  have hsame : SameTable (s.intoBkt b hd.elt).hh (s.intoBkt b hd.elt).tbl tbl₁ := by
    refine ⟨?_, h.numBuckets, h.log2NumBuckets, h.numItems, h.idealChainMaxlen, h.nonidealItems,
      h.ineffExpands, h.noexpand⟩
    have hbuckets : tbl₁.buckets = setBucket tbl.buckets b ⟨hd :: (tbl.buckets b).chain,
        (tbl.buckets b).count + 1, (s.tbl.buckets b).expandMult⟩ := by
      rw [hmult]
    rw [hbuckets]
    exact hlinked
  have horder : SameOrder s (s.intoBkt b hd.elt) := ⟨rfl, rfl, linkFirst_order s.hh _ _⟩
  have hgrown : (s.intoBkt b hd.elt).tbl.buckets b =
      ⟨some hd.elt, (tbl.buckets b).count + 1, (tbl.buckets b).expandMult⟩ := by
    rw [← hmult, ← hcount]
    exact if_pos rfl
  simp only [HashLinks.addToBkt, hashAddToBkt, hgrown, hsame.noexpand, hsame.numBuckets]
  simp only [expandsAt, Bool.and_eq_true, decide_eq_true_eq] at hroom ⊢
  by_cases hexpands : ((tbl.buckets b).expandMult + 1) * 10 ≤ (tbl.buckets b).count + 1 ∧
      tbl.noexpand ≠ 1
  · have hdouble := hroom hexpands
    obtain ⟨hexp, hord⟩ := hsame.expand hc
      (fun x hx => ((linkFirst_order s.hh _ _ x.elt).2.2.2).trans (hv x hx)) hnd hn
    refine ⟨(s.intoBkt b hd.elt).expandBuckets, ?_, ?_, horder.trans hord⟩
    · rw [if_pos hexpands, if_neg hdouble]
    · rwa [if_pos ⟨hexpands, hdouble⟩]
  · refine ⟨s.intoBkt b hd.elt, ?_, ?_, horder⟩
    · rw [if_neg hexpands]
    · rwa [if_neg fun h => hexpands h.1]

end

/-! ### Walking along a chain -/

section
variable {hh : ι → HandleLinks ι} {p : Option ι} {l : List (HashHandle ι)} {fuel : ℕ}

omit [DecidableEq ι] in
theorem findFrom_chain (hl : Chain back (chainFields.At hh) p l none) {key : Bytes}
    (hk : ∀ x ∈ l, (hh x.elt).key = x.key) (hf : l.length ≤ fuel) :
    findFrom hh key fuel (l.head?.map HashHandle.elt) =
      some ((hashFindInBkt l key).map HashHandle.elt) := by
  induction l generalizing p fuel with
  | nil => cases fuel <;> rfl
  | cons x l ih =>
    cases fuel with
    | zero => exact absurd hf (Nat.not_succ_le_zero _)
    | succ fuel =>
      have hnext : (hh x.elt).hhNext = l.head?.map HashHandle.elt := by
        have hlink := hl.1.2
        rw [Option.or_none] at hlink
        exact hlink
      have hstep := ih hl.2 (fun y hy => hk y (List.mem_cons_of_mem _ hy))
        (Nat.le_of_succ_le_succ hf)
      simp only [List.head?_cons, Option.map_some, findFrom, hk x (List.mem_cons_self ..), hnext,
        hstep, hashFindInBkt, List.find?_cons]
      cases keyEquals x.key key <;> rfl

omit [DecidableEq ι] in
theorem ofNat_sum (l : List ℕ) : UInt32.ofNat l.sum = (l.map UInt32.ofNat).sum := by
  induction l with
  | nil => rfl
  | cons n l ih => rw [List.sum_cons, UInt32.ofNat_add, ih, List.map_cons, List.sum_cons]

theorem fsckFrom_chain (F : LinkFields ι) (hl : Chain back (F.At hh) p l none)
    (hf : l.length ≤ fuel) :
    fsckFrom (fun e => F.next (hh e)) (fun e => F.prev (hh e)) fuel p
      (l.head?.map HashHandle.elt) = some (UInt32.ofNat l.length) := by
  induction l generalizing p fuel with
  | nil => cases fuel <;> rfl
  | cons x l ih =>
    cases fuel with
    | zero => exact absurd hf (Nat.not_succ_le_zero _)
    | succ fuel =>
      have hnext : F.next (hh x.elt) = l.head?.map HashHandle.elt := by
        have hlink := hl.1.2
        rw [Option.or_none] at hlink
        exact hlink
      have hstep := ih hl.2 (Nat.le_of_succ_le_succ hf)
      simp only [List.head?_cons, Option.map_some, fsckFrom, hl.1.1, hnext, if_true]
      rw [show some x.elt = back x from rfl, hstep, List.length_cons, UInt32.ofNat_add]
      rfl

end

/-! ### The macros -/

/-- The links `s` stand for the hash `t`. -/
structure Represents [HashFcn] (s : HashLinks ι) (t : Uthash ι) : Prop where
  head : s.head = t.items.head?.map HashHandle.elt
  order : Chain back (orderFields.At s.hh) none t.items none
  carries : ∀ hd ∈ t.items, (s.hh hd.elt).key = hd.key ∧ (s.hh hd.elt).hashv = hd.hashv
  nodup : (elts t.items).Nodup
  table : t.items ≠ [] → SameTable s.hh s.tbl t.tbl ∧
    s.tbl.tail = t.items.getLast?.map HashHandle.elt ∧
    t.tbl.numItems = UInt32.ofNat t.items.length
  few : t.items.length < 2 ^ 32

namespace Represents
variable [HashFcn] {s : HashLinks ι} {t : Uthash ι} {hd : HashHandle ι}

omit [DecidableEq ι] in
theorem null (tbl : TableLinks ι) (hh : ι → HandleLinks ι) :
    Represents ⟨none, tbl, hh⟩ (hashNull : Uthash ι) := by
  constructor
  · rfl
  · trivial
  · exact fun hd h => absurd h List.not_mem_nil
  · exact List.nodup_nil
  · exact fun h => absurd rfl h
  · exact Nat.two_pow_pos 32

/-- The links on which `HASH_ADD_KEYPTR` comes to the bucket. -/
structure Entered (s : HashLinks ι) (items : List (HashHandle ι)) (tbl : HashTable ι) : Prop where
  head : s.head = items.head?.map HashHandle.elt
  tail : s.tbl.tail = items.getLast?.map HashHandle.elt
  order : Chain back (orderFields.At s.hh) none items none
  carries : ∀ hd ∈ items, (s.hh hd.elt).key = hd.key ∧ (s.hh hd.elt).hashv = hd.hashv
  table : SameTable s.hh s.tbl tbl

theorem enter_null (h : Represents s t) (key : Bytes) (add : ι) (hitems : t.items = []) :
    Entered (s.enter key add) (t.items ++ [⟨add, key, HashFcn.hash key⟩])
      { t.tableForAdd with numItems := t.tableForAdd.numItems + 1 } := by
  have hhead : s.head = none := by
    rw [h.head, hitems]
    rfl
  have htable : t.tableForAdd = hashMakeTable := by
    rw [Uthash.tableForAdd, hitems]
    rfl
  rw [hitems, htable]
  simp only [HashLinks.enter, HashLinks.append, hhead]
  constructor
  · rfl
  · rfl
  · constructor
    · simp only [LinkFields.At, orderFields, setHandle_self, true_and]
      rfl
    · trivial
  · intro x hx
    rw [List.mem_singleton.mp hx]
    simp only [setHandle_self, and_self]
  · exact ⟨chains_zero _, rfl, rfl, rfl, rfl, rfl, rfl, rfl⟩

theorem enter_tail (h : Represents s t) (key : Bytes) {add : ι} (hnew : add ∉ elts t.items)
    (hitems : t.items ≠ []) :
    Entered (s.enter key add) (t.items ++ [⟨add, key, HashFcn.hash key⟩])
      { t.tableForAdd with numItems := t.tableForAdd.numItems + 1 } := by
  have hne : ∀ x ∈ t.items, x.elt ≠ add := fun x hx he => hnew (he ▸ List.mem_map_of_mem hx)
  obtain ⟨hsame, htail, hnum⟩ := h.table hitems
  have htable : t.tableForAdd = t.tbl := by
    rw [Uthash.tableForAdd, if_neg]
    rwa [List.isEmpty_iff]
  obtain ⟨first, hfirst⟩ := Option.isSome_iff_exists.mp (List.isSome_head?.mpr hitems)
  have hhead : s.head = some first.elt := by
    rw [h.head, hfirst]
    rfl
  have htadd : s.tbl.tail ≠ some add := by
    rw [htail]
    intro he
    obtain ⟨x, hx, hxa⟩ := Option.map_eq_some_iff.mp he
    exact hne x (List.mem_of_getLast? hx) hxa
  -- the handles after the stores, the new one and the others
  have hself : (s.enter key add).hh add = { s.hh add with
      next := none, key := key, prev := s.tbl.tail, hashv := HashFcn.hash key } := by
    simp only [HashLinks.enter, HashLinks.append, hhead, setHandle_self]
    rw [setHandle?_apply, if_neg htadd, setHandle_self]
  have hother : ∀ x, x ≠ add → (s.enter key add).hh x =
      if s.tbl.tail = some x then { s.hh x with next := some add } else s.hh x := by
    intro x hx
    simp only [HashLinks.enter, HashLinks.append, hhead]
    rw [setHandle_ne _ _ hx, setHandle_ne _ _ hx, setHandle?_apply, setHandle_ne _ _ hx]
  have hlinks : (s.enter key add).head = s.head ∧ (s.enter key add).tbl =
      { s.tbl with tail := some add, numItems := s.tbl.numItems + 1 } := by
    simp only [HashLinks.enter, HashLinks.append, hhead, and_self]
  constructor
  · rw [hlinks.1, hhead, List.head?_append, hfirst]
    rfl
  · rw [hlinks.2, List.getLast?_concat]
    rfl
  · apply h.order.snoc
    · rw [LinkFields.At, hself, lastLink_back, ← htail]
      exact ⟨rfl, rfl⟩
    · rintro x p hx ⟨hp, -⟩
      have hxt : s.tbl.tail = some x.elt := by
        rw [htail, hx]
        rfl
      rw [LinkFields.At, hother _ (hne x (List.mem_of_getLast? hx)), if_pos hxt]
      exact ⟨hp, rfl⟩
    · intro x hx p n hlink
      have hxt : s.tbl.tail ≠ some x.elt := by
        rw [htail]
        intro he
        obtain ⟨y, hy, hyx⟩ := Option.map_eq_some_iff.mp he
        exact ne_last_of_mem_dropLast h.nodup hy hx hyx.symm
      rw [LinkFields.At, hother _ (hne x (List.dropLast_subset _ hx)), if_neg hxt]
      exact hlink
  · intro x hx
    rcases List.mem_append.mp hx with hx | hx
    · rw [hother _ (hne x hx)]
      split <;> exact h.carries x hx
    · rw [List.mem_singleton.mp hx, hself]
      exact ⟨rfl, rfl⟩
  · rw [hlinks.2, htable]
    refine ⟨?_, hsame.numBuckets, hsame.log2NumBuckets, congrArg (· + 1) hsame.numItems,
      hsame.idealChainMaxlen, hsame.nonidealItems, hsame.ineffExpands, hsame.noexpand⟩
    apply hsame.chains.congr
    intro b e he
    obtain ⟨x, hx, rfl⟩ := List.mem_map.mp he
    rw [hother _ (hne x (t.consistent.mem_items hx))]
    split <;> exact ⟨rfl, rfl⟩

omit [DecidableEq ι] in
theorem tableForAdd_numItems (h : Represents s t) :
    t.tableForAdd.numItems = UInt32.ofNat t.items.length := by
  by_cases hitems : t.items = []
  · rw [Uthash.tableForAdd, if_pos (List.isEmpty_iff.mpr hitems), hitems]
    rfl
  · rw [Uthash.tableForAdd, if_neg (mt List.isEmpty_iff.mp hitems)]
    exact (h.table hitems).2.2

omit [DecidableEq ι] in
theorem toNat_numItems (h : Represents s t) (hitems : t.items ≠ []) :
    t.tbl.numItems.toNat = t.items.length := by
  rw [(h.table hitems).2.2, UInt32.toNat_ofNat', Nat.mod_eq_of_lt h.few]

theorem addKeyptr (h : Represents s t) {key : Bytes} {add : ι} (hnew : add ∉ elts t.items)
    (hmore : t.items.length + 1 < 2 ^ 32) (hroom : t.HasRoom key) :
    ∃ s', s.addKeyptr key add = some s' ∧ Represents s' (t.hashAddKeyptr key add) := by
  have hent : Entered (s.enter key add) (t.items ++ [⟨add, key, HashFcn.hash key⟩])
      { t.tableForAdd with numItems := t.tableForAdd.numItems + 1 } := by
    by_cases hitems : t.items = []
    · exact h.enter_null key add hitems
    · exact h.enter_tail key hnew hitems
  have hnd : (elts (t.items ++ [⟨add, key, HashFcn.hash key⟩])).Nodup := by
    rw [elts, List.map_append]
    refine List.nodup_append.mpr ⟨h.nodup, List.nodup_singleton _, ?_⟩
    intro x hx y hy
    rw [List.mem_singleton.mp hy]
    rintro rfl
    exact hnew hx
  have hfresh : ∀ c, add ∉ elts (t.tableForAdd.buckets c).chain := by
    intro c hm
    obtain ⟨x, hx, hxa⟩ := List.mem_map.mp hm
    exact hnew (hxa ▸ List.mem_map_of_mem (t.tableForAdd_consistent.mem_items hx))
  have hlen : (t.hashAddKeyptr key add).items.length = t.items.length + 1 := by
    rw [Uthash.items_hashAddKeyptr, List.length_append, List.length_singleton]
  have hnum : t.tableForAdd.numItems + 1 =
      UInt32.ofNat (t.hashAddKeyptr key add).items.length := by
    rw [hlen, UInt32.ofNat_add, h.tableForAdd_numItems]
    rfl
  have hnat : (t.tableForAdd.numItems + 1).toNat = (t.hashAddKeyptr key add).items.length := by
    rw [hnum, hlen, UInt32.toNat_ofNat', Nat.mod_eq_of_lt hmore]
  have hcons := t.tableForAdd_consistent.cons ⟨add, key, HashFcn.hash key⟩ rfl
    ((t.tableForAdd.buckets (hashToBkt (HashFcn.hash key) t.tableForAdd.numBuckets)).count + 1)
    (t.tableForAdd.buckets (hashToBkt (HashFcn.hash key) t.tableForAdd.numBuckets)).expandMult
    (t.tableForAdd.numItems + 1)
  obtain ⟨s', hadd, htable, hord⟩ := hent.table.addToBkt hfresh hcons
    (fun x hx => (hent.carries x hx).2) hnd hnat fun hexpands => (hroom hexpands).1
  have hbkt : (s.enter key add).tbl.numBuckets = t.tableForAdd.numBuckets :=
    hent.table.numBuckets
  refine ⟨s', ?_, ?_⟩
  · rw [HashLinks.addKeyptr, hbkt]
    exact hadd
  · constructor
    · exact hord.head.trans hent.head
    · apply hent.order.congr
      rintro x hx p n ⟨hp, hn⟩
      obtain ⟨hprev, hnext, -, -⟩ := hord.order x.elt
      exact ⟨hprev.trans hp, hnext.trans hn⟩
    · intro x hx
      obtain ⟨-, -, hkey, hhash⟩ := hord.order x.elt
      obtain ⟨hk, hv⟩ := hent.carries x hx
      exact ⟨hkey.trans hk, hhash.trans hv⟩
    · exact hnd
    · intro _
      refine ⟨htable, hord.tail.trans hent.tail, ?_⟩
      rw [← hnum]
      simp only [Uthash.hashAddKeyptr, hashAddToBkt]
      split <;> rfl
    · rwa [hlen]

omit [DecidableEq ι] in
/-- The neighbours of `hd` in application order. -/
theorem neighbours (h : Represents s t) {l₁ l₂ : List (HashHandle ι)}
    (hsplit : t.items = l₁ ++ hd :: l₂) :
    (s.hh hd.elt).prev = l₁.getLast?.map HashHandle.elt ∧
      (s.hh hd.elt).next = l₂.head?.map HashHandle.elt := by
  have horder := h.order
  rw [hsplit] at horder
  rw [← lastLink_back]
  exact links_of_mid horder

theorem delete_only (h : Represents s t) (honly : t.items = [hd]) :
    Represents (s.delete hd.elt) (t.hashDelete hd) := by
  obtain ⟨hprev, hnext⟩ := h.neighbours (show t.items = [] ++ hd :: [] from honly)
  rw [HashLinks.delete, hprev, hnext, Uthash.hashDelete, if_pos honly, if_pos ⟨rfl, rfl⟩]
  exact Represents.null _ _

theorem delete_other (h : Represents s t) (hmem : hd ∈ t.items) (hmore : t.items ≠ [hd]) :
    Represents (s.delete hd.elt) (t.hashDelete hd) := by
  obtain ⟨l₁, l₂, hsplit⟩ := List.append_of_mem hmem
  obtain ⟨hprev, hnext⟩ := h.neighbours hsplit
  have hsome : ¬((s.hh hd.elt).prev = none ∧ (s.hh hd.elt).next = none) := by
    rw [hprev, hnext]
    simp only [Option.map_eq_none_iff, List.getLast?_eq_none_iff, List.head?_eq_none_iff]
    rintro ⟨rfl, rfl⟩
    exact hmore hsplit
  obtain ⟨hsame, htail, hnum⟩ := h.table (List.ne_nil_of_mem hmem)
  have horder := h.order
  have hnd := h.nodup
  have hhead := h.head
  rw [hsplit] at horder hnd htail hhead
  have hitems : (t.hashDelete hd).items = l₁ ++ l₂ := by
    rw [Uthash.items_hashDelete, hsplit, erase_mid hnd]
  have htbl : (t.hashDelete hd).tbl = { hashDelInBkt t.tbl
      (hashToBkt hd.hashv t.tbl.numBuckets) hd with numItems := t.tbl.numItems - 1 } := by
    rw [Uthash.hashDelete, if_neg hmore]
  have hsub : (l₁ ++ l₂).Sublist (l₁ ++ hd :: l₂) :=
    (List.Sublist.refl l₁).append (List.sublist_cons_self hd l₂)
  -- the application order is patched up first, and the chains after it
  have hchains : Chains (patchUp orderFields s.hh hd.elt) s.tbl.buckets t.tbl.buckets :=
    hsame.chains.congr fun _ e _ => ⟨(patchUp_order s.hh hd.elt e).1, (patchUp_order s.hh hd.elt e).2.1⟩
  have hbkt : hd ∈ (t.tbl.buckets (hashToBkt hd.hashv t.tbl.numBuckets)).chain := by
    rw [t.consistent.hashed hd hmem]
    exact (t.mem_chain_iff hd.key hd rfl).mpr hmem
  have hdeleted := hchains.delete hbkt
  have hlinks : s.delete hd.elt =
      { head := if (s.hh hd.elt).prev = none then (s.hh hd.elt).next else s.head
        hh := patchUp chainFields (patchUp orderFields s.hh hd.elt) hd.elt
        tbl := { (s.unlink hd.elt).delInBkt (hashToBkt hd.hashv t.tbl.numBuckets) hd.elt |>.tbl
          with numItems := s.tbl.numItems - 1 } } := by
    have hhash : (patchUp orderFields s.hh hd.elt hd.elt).hashv = hd.hashv :=
      (patchUp_order s.hh hd.elt hd.elt).2.2.2.trans (h.carries hd hmem).2
    rw [HashLinks.delete, if_neg hsome, ← hsame.numBuckets, ← hhash]
    rfl
  rw [hlinks]
  constructor
  · show (if (s.hh hd.elt).prev = none then (s.hh hd.elt).next else s.head) = _
    rw [hitems, hprev, hnext, hhead]
    exact head_erase
  · rw [hitems]
    apply (Chain.patchUp horder hnd).congr
    rintro x hx p n ⟨hp, hn⟩
    obtain ⟨hp', hn', -, -⟩ := patchUp_chain (patchUp orderFields s.hh hd.elt) hd.elt x.elt
    exact ⟨hp'.trans hp, hn'.trans hn⟩
  · intro x hx
    rw [hitems] at hx
    obtain ⟨hk, hv⟩ := h.carries x (hsplit ▸ hsub.subset hx)
    obtain ⟨-, -, hk₁, hv₁⟩ := patchUp_order s.hh hd.elt x.elt
    obtain ⟨-, -, hk₂, hv₂⟩ := patchUp_chain (patchUp orderFields s.hh hd.elt) hd.elt x.elt
    exact ⟨hk₂.trans (hk₁.trans hk), hv₂.trans (hv₁.trans hv)⟩
  · rw [hitems]
    exact hnd.sublist (hsub.map _)
  · intro _
    rw [htbl, hitems]
    refine ⟨⟨hdeleted, hsame.numBuckets, hsame.log2NumBuckets, congrArg (· - 1) hsame.numItems,
      hsame.idealChainMaxlen, hsame.nonidealItems, hsame.ineffExpands, hsame.noexpand⟩, ?_, ?_⟩
    · show (if s.tbl.tail = some hd.elt then (s.hh hd.elt).prev else s.tbl.tail) = _
      rw [htail, hprev]
      exact last_erase hnd
    · have hlen : (l₁ ++ l₂).length = t.items.length - 1 := by
        rw [hsplit]
        simp only [List.length_append, List.length_cons]
        omega
      have hpos : 1 ≤ t.items.length := List.length_pos_of_mem hmem
      show t.tbl.numItems - 1 = _
      rw [hlen, UInt32.ofNat_sub hpos, hnum]
      rfl
  · rw [hitems]
    have hle := hsub.length_le
    rw [← hsplit] at hle
    exact lt_of_le_of_lt hle h.few

theorem delete (h : Represents s t) (hmem : hd ∈ t.items) :
    Represents (s.delete hd.elt) (t.hashDelete hd) := by
  by_cases honly : t.items = [hd]
  · exact h.delete_only honly
  · exact h.delete_other hmem honly

/-! ### What is found and checked -/

omit [DecidableEq ι] in
theorem find (h : Represents s t) (key : Bytes) :
    s.find key = some ((t.hashFind key).map HashHandle.elt) := by
  rw [HashLinks.find, Uthash.hashFind]
  by_cases hitems : t.items = []
  · have hhead : s.head = none := by
      rw [h.head, hitems]
      rfl
    rw [hhead, if_pos (List.isEmpty_iff.mpr hitems)]
    rfl
  · obtain ⟨hsame, -, hnum⟩ := h.table hitems
    obtain ⟨first, hfirst⟩ := Option.isSome_iff_exists.mp (List.isSome_head?.mpr hitems)
    have hhead : s.head = some first.elt := by
      rw [h.head, hfirst]
      rfl
    rw [hhead, if_neg (mt List.isEmpty_iff.mp hitems)]
    simp only [hsame.numBuckets, hsame.chains.first]
    apply findFrom_chain (hsame.chains.chain _)
    · exact fun x hx => (h.carries x (t.consistent.mem_items hx)).1
    · rw [hsame.numItems, h.toNat_numItems hitems]
      exact t.consistent.chain_length_le _

omit [DecidableEq ι] in
theorem each (h : Represents s t) : s.each = elts t.items := by
  rw [HashLinks.each, h.head]
  by_cases hitems : t.items = []
  · rw [hitems]
    cases s.tbl.numItems.toNat <;> rfl
  · obtain ⟨hsame, -, -⟩ := h.table hitems
    apply h.order.walk (fun _ _ _ hlink => hlink.2)
    rw [hsame.numItems, h.toNat_numItems hitems]

theorem fsck (h : Represents s t) : s.fsck = true := by
  rw [HashLinks.fsck]
  by_cases hitems : t.items = []
  · rw [h.head, hitems]
    rfl
  · obtain ⟨hsame, -, hnum⟩ := h.table hitems
    obtain ⟨first, hfirst⟩ := Option.isSome_iff_exists.mp (List.isSome_head?.mpr hitems)
    have hhead : s.head = some first.elt := by
      rw [h.head, hfirst]
      rfl
    have hlen : s.tbl.numItems = UInt32.ofNat t.items.length := hsame.numItems.trans hnum
    have hnat : s.tbl.numItems.toNat = t.items.length := by
      rw [hsame.numItems, h.toNat_numItems hitems]
    have hbuckets : ∀ b, s.fsckBucket b = true := by
      intro b
      have hchain := fsckFrom_chain chainFields (hsame.chains.chain b)
        (t.consistent.chain_length_le b)
      rw [HashLinks.fsckBucket, hsame.chains.first, hsame.chains.count, hsame.chains.length, hnat]
      exact beq_iff_eq.mpr hchain
    have hsum : ((List.range s.tbl.numBuckets.toNat).map fun b => (s.tbl.buckets b).count).sum =
        s.tbl.numItems := by
      simp only [hsame.chains.count, hsame.chains.length, hsame.numBuckets]
      rw [hlen, ← (visitOrder_perm t.consistent).length_eq, visitOrder, List.length_flatMap,
        ofNat_sum, List.map_map]
      rfl
    have horder := fsckFrom_chain orderFields h.order (le_of_eq hnat.symm)
    rw [← h.head, hhead, ← hlen] at horder
    have horder' : fsckFrom (fun e => (s.hh e).next) (fun e => (s.hh e).prev)
        s.tbl.numItems.toNat none (some first.elt) = some s.tbl.numItems := horder
    simp only [hhead, hsum, horder', beq_self_eq_true, Bool.and_true, List.all_eq_true]
    exact fun b _ => hbuckets b

end Represents
end Pillowtalk
