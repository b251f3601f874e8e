import Pillowtalk.Library.MergeSort
import Pillowtalk.Uthash.Refines

/-!
# `HASH_SRT` (`uthash.h:568-650`)

The application order is sorted in place; the chains, and with them what is
found under a key, stay as they are. `cmpfcn` may look at the elements in any
way, but must not change them.
-/

namespace Pillowtalk
open Links

variable {ι : Type} [DecidableEq ι]

/-- `hh.next` and `hh.prev`. -/
def orderLinks : MergeSort.Fields (ι → HandleLinks ι) ι where
  next hh e := (hh e).next
  setNext e n hh := setHandle hh e fun x => { x with next := n }
  setPrev e p hh := setHandle hh e fun x => { x with prev := p }
  Back hh e p := (hh e).prev = p
  next_setNext_self hh e n := by rw [setHandle_self]
  next_setNext_ne hh e n x hx := by rw [setHandle_ne _ _ hx]
  next_setPrev hh e p x := by
    by_cases hx : x = e
    · rw [hx, setHandle_self]
    · rw [setHandle_ne _ _ hx]
  back_setPrev_self hh e p := by rw [setHandle_self]
  back_setPrev_ne hh e p x q hx hq := by rwa [setHandle_ne _ _ hx]
  back_setNext hh e n x q hq := by
    by_cases hx : x = e
    · rw [hx] at hq ⊢
      rwa [setHandle_self]
    · rwa [setHandle_ne _ _ hx]

/-- `HASH_SRT` but for `HASH_FSCK`. -/
def HashLinks.hashSrt (s : HashLinks ι) (cmpfcn : ι → ι → Int32) : Option (HashLinks ι) :=
  match s.head with
  | some head =>
    (MergeSort.sortFrom orderLinks (fun a b => cmpfcn a b ≤ 0) s.tbl.numItems.toNat
      s.tbl.numItems.toNat 1 s.hh (some head)).map fun (hh, list, tail) =>
        { head := list, tbl := { s.tbl with tail := tail }, hh := hh }
  | none => some s

/-! ### What is sorted -/

/-- The order of `cmpfcn` on whatever has an element `f`. -/
def Sorted {α : Type} (f : α → ι) (cmpfcn : ι → ι → Int32) : α → α → Prop :=
  Order.Preimage f fun a b => cmpfcn a b ≤ 0

instance {α : Type} (f : α → ι) (cmpfcn : ι → ι → Int32) : DecidableRel (Sorted f cmpfcn) :=
  fun a b => inferInstanceAs (Decidable (cmpfcn (f a) (f b) ≤ 0))

/-- What the sort leaves alone. -/
def SameLinks (hh hh' : ι → HandleLinks ι) : Prop :=
  ∀ e, (hh' e).hhPrev = (hh e).hhPrev ∧ (hh' e).hhNext = (hh e).hhNext ∧
    (hh' e).key = (hh e).key ∧ (hh' e).hashv = (hh e).hashv

theorem orderLinks_keeps (hh : ι → HandleLinks ι) : orderLinks.Keeps (SameLinks hh) := by
  have hset : ∀ (m : ι → HandleLinks ι) (e : ι) (g : HandleLinks ι → HandleLinks ι),
      (∀ x, (g x).hhPrev = x.hhPrev ∧ (g x).hhNext = x.hhNext ∧ (g x).key = x.key ∧
        (g x).hashv = x.hashv) → SameLinks hh m → SameLinks hh (setHandle m e g) := by
    intro m e g hg hm x
    by_cases hx : x = e
    · rw [hx, setHandle_self]
      obtain ⟨h₁, h₂, h₃, h₄⟩ := hg (m e)
      obtain ⟨k₁, k₂, k₃, k₄⟩ := hm e
      exact ⟨h₁.trans k₁, h₂.trans k₂, h₃.trans k₃, h₄.trans k₄⟩
    · rw [setHandle_ne _ _ hx]
      exact hm x
  constructor
  · exact fun m e n hm => hset m e _ (fun _ => ⟨rfl, rfl, rfl, rfl⟩) hm
  · exact fun m e p hm => hset m e _ (fun _ => ⟨rfl, rfl, rfl, rfl⟩) hm

section
variable [HashFcn]

omit [DecidableEq ι] in
theorem HashTable.Consistent.perm {tbl : HashTable ι} {items items' : List (HashHandle ι)}
    (h : tbl.Consistent items) (hp : items'.Perm items) : tbl.Consistent items' :=
  ⟨h.pow, fun hd hm => h.hashed hd (hp.mem_iff.mp hm), fun b => (h.chained b).trans (hp.filter _).symm⟩

/-- The same table, and the items in another order. -/
def Uthash.reorder (t : Uthash ι) (items : List (HashHandle ι)) (hp : items.Perm t.items) :
    Uthash ι := ⟨items, t.tbl, t.consistent.perm hp⟩

/-- `HASH_SRT` comes to an end whatever `cmpfcn` answers, and the links stand for the same
items. They are sorted if `cmpfcn` is an order. -/
theorem Represents.hashSrt {s : HashLinks ι} {t : Uthash ι} (h : Represents s t)
    (cmpfcn : ι → ι → Int32) :
    ∃ s' items, ∃ hp : items.Perm t.items, s.hashSrt cmpfcn = some s' ∧
      Represents s' (t.reorder items hp) ∧ (Std.Total (fun a b => cmpfcn a b ≤ 0) →
        IsTrans ι (fun a b => cmpfcn a b ≤ 0) →
        items = t.items.insertionSort (Sorted HashHandle.elt cmpfcn)) := by
  by_cases hne : t.items = []
  · refine ⟨s, t.items, List.Perm.refl _, ?_, h, ?_⟩
    · rw [HashLinks.hashSrt, h.head, hne]
      rfl
    · intro _ _
      rw [hne, List.insertionSort_nil]
  · obtain ⟨htable, -, hlength⟩ := h.table hne
    have hsize : s.tbl.numItems.toNat = t.items.length := by
      rw [htable.numItems, h.toNat_numItems hne]
    have hchain : Chain (MergeSort.link HashHandle.elt)
        (MergeSort.At orderLinks HashHandle.elt s.hh) none t.items none := h.order
    obtain ⟨hh, items, hrun, hsame, horder, hp, hsorted⟩ := MergeSort.sort_eq
      (r := fun a b => cmpfcn a b ≤ 0) (orderLinks_keeps s.hh) (fun _ => ⟨rfl, rfl, rfl, rfl⟩)
      (MergeSort.nexts_of_chain hchain) h.nodup hne h.few hsize.ge
    rw [← h.head] at hrun
    refine ⟨⟨items.head?.map HashHandle.elt, { s.tbl with tail := items.getLast?.map HashHandle.elt },
      hh⟩, items, hp, ?_, ?_, hsorted⟩
    · obtain ⟨hd, rest, hitems⟩ := List.exists_cons_of_ne_nil hne
      have hhead : s.head = some hd.elt := by
        rw [h.head, hitems]
        rfl
      rw [hhead] at hrun
      simp only [HashLinks.hashSrt, hhead, hrun, Option.map_some]
    · constructor
      · rfl
      · exact horder
      · intro hd hm
        obtain ⟨hkey, hhashv⟩ := h.carries hd (hp.mem_iff.mp hm)
        obtain ⟨-, -, hk, hv⟩ := hsame hd.elt
        exact ⟨hk.trans hkey, hv.trans hhashv⟩
      · exact (hp.map HashHandle.elt).nodup_iff.mpr h.nodup
      · intro _
        have hcounted := hlength.trans (congrArg UInt32.ofNat hp.length_eq.symm)
        refine ⟨{ htable with chains := ?_ }, rfl, hcounted⟩
        exact htable.chains.congr fun b e _ => ⟨(hsame e).1, (hsame e).2.1⟩
      · exact hp.length_eq ▸ h.few

omit [DecidableEq ι] in
theorem Uthash.IsDict.sort {t : Uthash ι} {d : Members ι} (h : t.IsDict d)
    (cmpfcn : ι → ι → Int32) {items : List (HashHandle ι)} (hp : items.Perm t.items)
    (hitems : items = t.items.insertionSort (Sorted HashHandle.elt cmpfcn)) :
    (t.reorder items hp).IsDict (d.insertionSort (Sorted Prod.snd cmpfcn)) := by
  obtain ⟨rfl, hk, hfit⟩ := h
  subst hitems
  have hkeys := hp.map HashHandle.key
  constructor
  · exact List.map_insertionSort _ _ _ _ fun a _ b _ => Iff.rfl
  · exact hkeys.nodup_iff.mpr hk
  · exact fun key hm => hfit key (hkeys.mem_iff.mp hm)

end

/-! ### Sorts between the other macros -/

inductive SortOp (ι : Type) where
  | op (op : HashOp ι)
  | sort (cmpfcn : ι → ι → Int32)

namespace HashLinks
variable [HashFcn]

def sortStep (s : HashLinks ι) : SortOp ι → Option (HashLinks ι × List ι)
  | .op op => s.step op
  | .sort cmpfcn => (s.hashSrt cmpfcn).bind fun s => s.checked []

def sortRun (s : HashLinks ι) : List (SortOp ι) → Option (HashLinks ι × List (List ι))
  | [] => some (s, [])
  | op :: ops => (s.sortStep op).bind fun r => (sortRun r.1 ops).map fun q => (q.1, r.2 :: q.2)

end HashLinks

namespace Uthash
variable [HashFcn]

def sortStep (t : Uthash ι) : SortOp ι → Uthash ι
  | .op op => (t.step op).1
  | .sort cmpfcn => t.reorder (t.items.insertionSort (Sorted HashHandle.elt cmpfcn))
    (List.perm_insertionSort _ _)

/-- `Uthash.Valid` of the operations between the sorts. -/
def SortValid (t : Uthash ι) : List (SortOp ι) → Prop
  | [] => True
  | .op op :: ops => t.Allows op ∧ SortValid (t.sortStep (.op op)) ops
  | .sort cmpfcn :: ops => SortValid (t.sortStep (.sort cmpfcn)) ops

end Uthash

namespace Members

def sortStep (d : Members ι) : SortOp ι → Members ι × List ι
  | .op op => d.step op
  | .sort cmpfcn => (d.insertionSort (Sorted Prod.snd cmpfcn), [])

def sortRun (d : Members ι) : List (SortOp ι) → Members ι × List (List ι)
  | [] => (d, [])
  | op :: ops =>
    ((sortRun (d.sortStep op).1 ops).1, (d.sortStep op).2 :: (sortRun (d.sortStep op).1 ops).2)

/-- `cmpfcn` orders the elements; some may be equal to it. -/
def SortAllows (d : Members ι) : SortOp ι → Prop
  | .op op => d.Allows op
  | .sort cmpfcn => Std.Total (fun a b => cmpfcn a b ≤ 0) ∧ IsTrans ι fun a b => cmpfcn a b ≤ 0

def SortValid (d : Members ι) : List (SortOp ι) → Prop
  | [] => True
  | op :: ops => d.SortAllows op ∧ SortValid (d.sortStep op).1 ops

end Members

section
variable [HashFcn]

/-- The links stand for a hash that is the dictionary `d`. -/
structure HashLinks.IsDict (s : HashLinks ι) (t : Uthash ι) (d : Members ι) : Prop where
  represents : Represents s t
  dict : t.IsDict d

theorem HashLinks.IsDict.sortStep {s : HashLinks ι} {t : Uthash ι} {d : Members ι}
    (h : s.IsDict t d) {op : SortOp ι} {ops : List (SortOp ι)} (ht : t.SortValid (op :: ops))
    (ha : d.SortAllows op) :
    ∃ s', s.sortStep op = some (s', (d.sortStep op).2) ∧
      s'.IsDict (t.sortStep op) (d.sortStep op).1 ∧ (t.sortStep op).SortValid ops := by
  cases op with
  | op op =>
    obtain ⟨s', hstep, hrep⟩ := h.represents.step ht.1
    obtain ⟨hout, hdict⟩ := h.dict.step ha
    exact ⟨s', hout ▸ hstep, ⟨hrep, hdict⟩, ht.2⟩
  | sort cmpfcn =>
    obtain ⟨s', items, hp, hsrt, hrep, hsorted⟩ := h.represents.hashSrt cmpfcn
    obtain rfl := hsorted ha.1 ha.2
    refine ⟨s', ?_, ⟨hrep, h.dict.sort cmpfcn hp rfl⟩, ht⟩
    rw [HashLinks.sortStep, hsrt, Option.bind_some, hrep.checked]
    rfl

theorem HashLinks.IsDict.sortRun {s : HashLinks ι} {t : Uthash ι} {d : Members ι}
    (h : s.IsDict t d) {ops : List (SortOp ι)} (ht : t.SortValid ops) (hv : d.SortValid ops) :
    ∃ s' t', s.sortRun ops = some (s', (d.sortRun ops).2) ∧ s'.IsDict t' (d.sortRun ops).1 := by
  induction ops generalizing s t d with
  | nil => exact ⟨s, t, rfl, h⟩
  | cons op ops ih =>
    obtain ⟨s₁, hstep, h₁, ht₁⟩ := h.sortStep ht hv.1
    obtain ⟨s₂, t₂, hrun, h₂⟩ := ih h₁ ht₁ hv.2
    refine ⟨s₂, t₂, ?_, h₂⟩
    rw [HashLinks.sortRun, hstep, Option.bind_some, hrun]
    rfl

/-- Wherever a program sorts the hash, the links answer as a dictionary whose members
are sorted, those that are equal to `cmpfcn` staying in their order, and no check of
`HASH_FSCK` fails. -/
theorem sorted_links_are_dictionary (tbl : TableLinks ι) (hh : ι → HandleLinks ι)
    {ops : List (SortOp ι)} (ht : (hashNull : Uthash ι).SortValid ops)
    (hv : Members.SortValid [] ops) :
    ∃ s, HashLinks.sortRun ⟨none, tbl, hh⟩ ops = some (s, (Members.sortRun [] ops).2) ∧
      s.each = (Members.sortRun [] ops).1.map Prod.snd ∧
      ∀ key, s.find key = some (Ordered.get (Members.sortRun [] ops).1 key) := by
  obtain ⟨s, t, hrun, hrep, hdict⟩ :=
    HashLinks.IsDict.sortRun ⟨Represents.null tbl hh, Uthash.IsDict.start⟩ ht hv
  refine ⟨s, hrun, ?_, fun key => ?_⟩
  · rw [hrep.each, ← hdict.members, Uthash.elts_members]
  · rw [hrep.find, ← hdict.members, Uthash.get_members hdict.fit hdict.nodup]

end

section
local instance sortingFcn : HashFcn := hashMurFcn

/-- Odd numbers after even ones. -/
def parity (a b : ℕ) : Int32 := if a % 2 ≤ b % 2 then 0 else 1

theorem parity_le_iff (a b : ℕ) : parity a b ≤ 0 ↔ a % 2 ≤ b % 2 := by
  rw [parity]
  split
  · next h => exact iff_of_true (by decide) h
  · next h => exact iff_of_false (by decide) h

theorem sorted_links_are_dictionary_parity :
    ∃ s, someLinks.sortRun [.op (.add [107] 1), .op (.add [108] 4), .op (.add [109] 3),
      .op (.add [110] 2), .sort parity, .op .each, .op .pop, .op (.find [109])] =
        some (s, [[], [], [], [], [], [4, 2, 1, 3], [4], [3]]) := by
  have hparity : Std.Total (fun a b => parity a b ≤ 0) ∧ IsTrans ℕ fun a b => parity a b ≤ 0 := by
    constructor
    · exact ⟨fun a b => by simpa only [parity_le_iff] using Nat.le_total _ _⟩
    · exact ⟨fun a b c => by simpa only [parity_le_iff] using Nat.le_trans⟩
  obtain ⟨s, hrun, -, -⟩ := sorted_links_are_dictionary someLinks.tbl someLinks.hh
    (show (hashNull : Uthash ℕ).SortValid [.op (.add [107] 1), .op (.add [108] 4),
      .op (.add [109] 3), .op (.add [110] 2), .sort parity, .op .each, .op .pop,
      .op (.find [109])] from
      ⟨by decide, by decide, by decide, by decide, trivial, trivial, trivial, trivial⟩)
    (show Members.SortValid [] [.op (.add [107] 1), .op (.add [108] 4), .op (.add [109] 3),
      .op (.add [110] 2), .sort parity, .op .each, .op .pop, .op (.find [109])] from
      ⟨⟨by decide, by decide⟩, ⟨by decide, by decide⟩, ⟨by decide, by decide⟩,
        ⟨by decide, by decide⟩, hparity, trivial, trivial, trivial, trivial⟩)
  exact ⟨s, hrun⟩

end
end Pillowtalk
