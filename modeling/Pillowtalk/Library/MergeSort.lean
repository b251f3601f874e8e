import Mathlib.Algebra.Group.Nat.Defs
import Mathlib.Data.List.Sort
import Mathlib.Order.RelClasses
import Pillowtalk.Library.Links

/-!
# Merge sort of a linked list, in place

Runs of one element are merged two by two, then runs of two elements, and so
on, until a pass over the list has merged no more than once. No pass takes any
memory: an element is linked behind the last that was taken, and what it was
linked to is the next of its run. Runs and merges are counted in 32 bits, which
is enough for fewer than `2^32` elements.
-/

namespace MergeSort
open Links

/-! ### Over lists -/

section
variable {α : Type} (r : α → α → Prop) [DecidableRel r]

/-- What is sorted are the runs of `n + 1` elements, each for itself. -/
def sortRuns (n : ℕ) : List α → List α
  | [] => []
  | a :: l =>
    ((a :: l).take (n + 1)).insertionSort r ++ sortRuns n ((a :: l).drop (n + 1))
termination_by l => l.length
decreasing_by
  rw [List.length_drop, List.length_cons]
  omega

/-- The runs of `n + 1` elements are merged two by two. -/
def pass (n : ℕ) : List α → List α
  | [] => []
  | a :: l =>
    List.merge ((a :: l).take (n + 1)) (((a :: l).drop (n + 1)).take (n + 1)) (r · ·) ++
      pass n (((a :: l).drop (n + 1)).drop (n + 1))
termination_by l => l.length
decreasing_by
  rw [List.length_drop, List.length_drop, List.length_cons]
  omega

def merges (n : ℕ) : List α → ℕ
  | [] => 0
  | a :: l => merges n (((a :: l).drop (n + 1)).drop (n + 1)) + 1
termination_by l => l.length
decreasing_by
  rw [List.length_drop, List.length_drop, List.length_cons]
  omega

theorem sortRuns_eq (n : ℕ) (l : List α) : sortRuns r n l =
    (l.take (n + 1)).insertionSort r ++ sortRuns r n (l.drop (n + 1)) := by
  cases l with
  | nil => simp [sortRuns]
  | cons a l => rw [sortRuns]

theorem pass_eq (n : ℕ) (l : List α) : pass r n l =
    List.merge (l.take (n + 1)) ((l.drop (n + 1)).take (n + 1)) (r · ·) ++
      pass r n ((l.drop (n + 1)).drop (n + 1)) := by
  cases l with
  | nil => simp [pass]
  | cons a l => rw [pass]

theorem merges_le_one_iff (n : ℕ) (l : List α) : merges n l ≤ 1 ↔ l.length ≤ 2 * (n + 1) := by
  have hzero : ∀ l : List α, merges n l = 0 ↔ l = [] := by
    intro l
    cases l <;> simp [merges]
  cases l with
  | nil => simp [merges]
  | cons a l =>
    rw [merges, Nat.succ_le_succ_iff, Nat.le_zero, hzero, List.drop_drop, List.drop_eq_nil_iff]
    omega

theorem merges_le_length (n : ℕ) (l : List α) : merges n l ≤ l.length := by
  induction l using merges.induct n with
  | case1 => rw [merges, List.length_nil]
  | case2 a l ih =>
    rw [List.length_drop, List.length_drop, List.length_cons] at ih
    rw [merges, List.length_cons]
    omega

theorem pass_perm (n : ℕ) (l : List α) : (pass r n l).Perm l := by
  induction l using pass.induct n with
  | case1 => rw [pass]
  | case2 a l ih =>
    rw [pass]
    refine ((List.merge_perm_append _).append ih).trans ?_
    rw [List.append_assoc, List.take_append_drop, List.take_append_drop]

theorem sortRuns_zero (l : List α) : sortRuns r 0 l = l := by
  induction l with
  | nil => rw [sortRuns]
  | cons a l ih =>
    rw [sortRuns, List.drop_succ_cons, List.drop_zero, ih]
    rfl

theorem sortRuns_perm (n : ℕ) (l : List α) : (sortRuns r n l).Perm l := by
  induction l using sortRuns.induct n with
  | case1 => rw [sortRuns]
  | case2 a l ih =>
    rw [sortRuns]
    refine ((List.perm_insertionSort r _).append ih).trans ?_
    rw [List.take_append_drop]

theorem sortRuns_of_length_le {n : ℕ} {l : List α} (hl : l.length ≤ n + 1) :
    sortRuns r n l = l.insertionSort r := by
  rw [sortRuns_eq, List.take_of_length_le hl, List.drop_of_length_le hl, sortRuns,
    List.append_nil]

theorem length_run (n : ℕ) {l : List α} (hmore : l.drop (n + 1) ≠ []) :
    ((l.take (n + 1)).insertionSort r).length = n + 1 := by
  rw [List.length_insertionSort, List.length_take]
  have hlen := List.length_pos_of_ne_nil hmore
  rw [List.length_drop] at hlen
  omega

theorem take_sortRuns (n : ℕ) (l : List α) :
    (sortRuns r n l).take (n + 1) = (l.take (n + 1)).insertionSort r := by
  rw [sortRuns_eq]
  by_cases hmore : l.drop (n + 1) = []
  · rw [hmore, sortRuns, List.append_nil, List.take_of_length_le]
    rw [List.length_insertionSort, List.length_take]
    omega
  · exact List.take_left' (length_run r n hmore)

theorem drop_sortRuns (n : ℕ) (l : List α) :
    (sortRuns r n l).drop (n + 1) = sortRuns r n (l.drop (n + 1)) := by
  rw [sortRuns_eq]
  by_cases hmore : l.drop (n + 1) = []
  · rw [hmore, sortRuns, List.append_nil, List.drop_of_length_le]
    rw [List.length_insertionSort, List.length_take]
    omega
  · exact List.drop_left' (length_run r n hmore)

section
variable [Std.Total r] [IsTrans α r]

theorem merge_orderedInsert (a : α) (s t : List α) :
    List.merge (s.orderedInsert r a) t (r · ·) =
      (List.merge s t (r · ·)).orderedInsert r a := by
  induction s generalizing t with
  | nil =>
    induction t with
    | nil => simp
    | cons b t ih =>
      by_cases hab : r a b
      · simp [hab]
      · simpa [List.merge, hab] using ih
  | cons c s ihs =>
    induction t with
    | nil => simp
    | cons b t iht =>
      by_cases hac : r a c
      · by_cases hab : r a b
        · by_cases hcb : r c b <;> simp [hac, hab, hcb]
        · have hcb : ¬r c b := fun hcb => hab (IsTrans.trans a c b hac hcb)
          have hstep := iht
          simp only [List.orderedInsert_cons, if_pos hac] at hstep ⊢
          simpa [List.merge, hab, hcb] using hstep
      · by_cases hcb : r c b
        · simpa [List.merge, hac, hcb] using ihs (b :: t)
        · have hca : r c a := (Std.Total.total c a).resolve_right hac
          have hab : ¬r a b := fun hab => hcb (IsTrans.trans c a b hca hab)
          have hstep := iht
          simp only [List.orderedInsert_cons, if_neg hac] at hstep ⊢
          simpa [List.merge, hab, hcb] using hstep

theorem merge_insertionSort (s t : List α) :
    List.merge (s.insertionSort r) (t.insertionSort r) (r · ·) = (s ++ t).insertionSort r := by
  induction s with
  | nil => simp
  | cons a s ih =>
    rw [List.insertionSort_cons, merge_orderedInsert, ih, List.cons_append, List.insertionSort_cons]

/-- After a pass the runs that are sorted are twice as long. -/
theorem pass_sortRuns (n : ℕ) (l : List α) :
    pass r n (sortRuns r n l) = sortRuns r (2 * n + 1) l := by
  induction l using pass.induct n with
  | case1 => rw [sortRuns, sortRuns, pass]
  | case2 a l ih =>
    rw [pass_eq, take_sortRuns, drop_sortRuns, take_sortRuns, drop_sortRuns, ih,
      merge_insertionSort, sortRuns_eq r (2 * n + 1) (a :: l), List.drop_drop, ← List.take_add]
    rw [show n + 1 + (n + 1) = 2 * n + 1 + 1 by omega]

end
end

/-! ### Over links -/

/-- Elements `ι` with their links in a memory `μ`. `Back m e p` says that the link back
of `e` is `p`; where there is no such link it says nothing. -/
structure Fields (μ ι : Type) where
  next : μ → ι → Option ι
  setNext : ι → Option ι → μ → μ
  setPrev : ι → Option ι → μ → μ
  Back : μ → ι → Option ι → Prop
  next_setNext_self : ∀ m e n, next (setNext e n m) e = n
  next_setNext_ne : ∀ m e n x, x ≠ e → next (setNext e n m) x = next m x
  next_setPrev : ∀ m e p x, next (setPrev e p m) x = next m x
  back_setPrev_self : ∀ m e p, Back (setPrev e p m) e p
  back_setPrev_ne : ∀ m e p x q, x ≠ e → Back m x q → Back (setPrev e p m) x q
  back_setNext : ∀ m e n x q, Back m x q → Back (setNext e n m) x q

/-- The variables of the sort: what has been taken lies between `list` and `tail`, and
`psize` elements from `p` on are merged with `qsize` from `q` on. -/
structure Cursors (μ ι : Type) where
  mem : μ
  list : Option ι
  tail : Option ι
  p : Option ι
  psize : UInt32
  q : Option ι
  qsize : UInt32

section
variable {μ ι : Type} (F : Fields μ ι) (r : ι → ι → Prop) [DecidableRel r]

/-- The end of a run that starts at `q`, and the elements that are met. -/
def stepOver (m : μ) : ℕ → UInt32 → ι → UInt32 × Option ι
  | 0, psize, q => (psize, some q)
  | left + 1, psize, q =>
    match F.next m q with
    | some q => stepOver m left (psize + 1) q
    | none => (psize + 1, none)

/-- `e` comes behind what has been taken. -/
def Cursors.append (s : Cursors μ ι) (e : ι) : Cursors μ ι :=
  match s.tail with
  | some tail =>
    { s with mem := F.setPrev e (some tail) (F.setNext tail (some e) s.mem), tail := some e }
  | none => { s with mem := F.setPrev e none s.mem, list := some e, tail := some e }

def Cursors.takeP (s : Cursors μ ι) : Option (Cursors μ ι) :=
  s.p.map fun e => { s with p := F.next s.mem e, psize := s.psize - 1 }.append F e

def Cursors.takeQ (s : Cursors μ ι) : Option (Cursors μ ι) :=
  s.q.map fun e => { s with q := F.next s.mem e, qsize := s.qsize - 1 }.append F e

def Cursors.take (s : Cursors μ ι) : Option (Cursors μ ι) :=
  if s.psize = 0 then s.takeQ F
  else if s.qsize = 0 ∨ s.q = none then s.takeP F
  else s.p.bind fun p => s.q.bind fun q => if r p q then s.takeP F else s.takeQ F

def mergeRuns : ℕ → Cursors μ ι → Option (Cursors μ ι)
  | 0, _ => none
  | fuel + 1, s =>
    if 0 < s.psize ∨ 0 < s.qsize ∧ s.q.isSome then (s.take F r).bind (mergeRuns fuel) else some s

/-- The merges from `p` on to the end of the list, and their number. -/
def mergeFrom (insize : UInt32) : ℕ → UInt32 → Cursors μ ι → Option (Cursors μ ι × UInt32)
  | 0, _, _ => none
  | fuel + 1, nmerges, s =>
    match s.p with
    | some p =>
      let run := stepOver F s.mem insize.toNat 0 p
      (mergeRuns F r (run.1.toNat + insize.toNat + 1)
        { s with psize := run.1, q := run.2, qsize := insize }).bind fun s =>
        mergeFrom insize fuel (nmerges + 1) { s with p := s.q }
    | none => some (s, nmerges)

/-- The passes over a list of at most `size` elements: the memory, the first element and
the last. -/
def sortFrom (size : ℕ) : ℕ → UInt32 → μ → Option ι → Option (μ × Option ι × Option ι)
  | 0, _, _, _ => none
  | fuel + 1, insize, m, list =>
    (mergeFrom F r insize (size + 1) 0 ⟨m, none, none, list, 0, none, 0⟩).bind fun (s, nmerges) =>
      s.tail.bind fun tail =>
        let m := F.setNext tail none s.mem
        if nmerges ≤ 1 then some (m, s.list, some tail)
        else sortFrom size fuel (insize * 2) m s.list

end

/-! ### The links follow the lists -/

section
variable {α μ ι : Type} (F : Fields μ ι) (f : α → ι) (K : μ → Prop)

def link (a : α) : Option ι := some (f a)

def NextAt (m : μ) (a : α) (_ : Unit) (n : Option α) : Prop := F.next m (f a) = n.map f

def At (m : μ) (a : α) (p : Option ι) (n : Option α) : Prop :=
  F.Back m (f a) p ∧ F.next m (f a) = n.map f

/-- What the sort cannot change, as it stores to links only. -/
structure Fields.Keeps : Prop where
  setNext : ∀ m e n, K m → K (F.setNext e n m)
  setPrev : ∀ m e p, K m → K (F.setPrev e p m)

/-- What has been taken are the elements `E`. The last of them is linked to some element,
or to none. -/
structure Taken (s : Cursors μ ι) (E : List α) : Prop where
  list : s.list = E.head?.map f
  tail : s.tail = E.getLast?.map f
  chain : ∃ n, Chain (link f) (At F f s.mem) none E n
  kept : K s.mem

/-- The run `P` is merged with the run `Q`, and the runs after them are `R`. -/
structure Merging (s : Cursors μ ι) (E P Q R : List α) : Prop where
  taken : Taken F f K s E
  psize : s.psize.toNat = P.length
  p : P ≠ [] → s.p = P.head?.map f
  pnext : ∃ n, Chain unlinked (NextAt F f s.mem) () P n
  q : s.q = (Q ++ R).head?.map f
  qnext : Chain unlinked (NextAt F f s.mem) () (Q ++ R) none
  qsize : Q.length ≤ s.qsize.toNat
  rest : Q.length < s.qsize.toNat → R = []
  nodup : ((E ++ (P ++ (Q ++ R))).map f).Nodup

variable {F f K} {s : Cursors μ ι} {a : α} {E P Q R : List α}

theorem toNat_pred {n : UInt32} (h : 0 < n.toNat) : (n - 1).toNat = n.toNat - 1 :=
  UInt32.toNat_sub_of_le _ _ (UInt32.le_iff_toNat_le.mpr h)

theorem Cursors.takeP_eq {e : ι} (hp : s.p = some e) : s.takeP F =
    some ({ s with p := F.next s.mem e, psize := s.psize - 1 }.append F e) := by
  rw [Cursors.takeP, hp]
  rfl

theorem Cursors.takeQ_eq {e : ι} (hq : s.q = some e) : s.takeQ F =
    some ({ s with q := F.next s.mem e, qsize := s.qsize - 1 }.append F e) := by
  rw [Cursors.takeQ, hq]
  rfl

theorem Cursors.append_fields (s : Cursors μ ι) (e : ι) :
    (s.append F e).p = s.p ∧ (s.append F e).psize = s.psize ∧ (s.append F e).q = s.q ∧
      (s.append F e).qsize = s.qsize := by
  rw [Cursors.append]
  split <;> exact ⟨rfl, rfl, rfl, rfl⟩

/-- The links of the elements that have not been taken stay. -/
theorem Cursors.next_append (s : Cursors μ ι) (e x : ι) (hx : s.tail ≠ some x) :
    F.next (s.append F e).mem x = F.next s.mem x := by
  rw [Cursors.append]
  cases ht : s.tail with
  | none => exact F.next_setPrev ..
  | some tail =>
    have hne : x ≠ tail := fun he => hx (he ▸ ht)
    exact (F.next_setPrev ..).trans (F.next_setNext_ne _ _ _ _ hne)

theorem Taken.tail_ne (h : Taken F f K s E) (ha : f a ∉ E.map f) : s.tail ≠ some (f a) := by
  rw [h.tail]
  intro he
  obtain ⟨b, hb, hba⟩ := Option.map_eq_some_iff.mp he
  exact ha (hba ▸ List.mem_map_of_mem (List.mem_of_getLast? hb))

theorem Taken.append (hK : F.Keeps K) (h : Taken F f K s E) (hnd : (E.map f).Nodup)
    (ha : f a ∉ E.map f) {n : Option α} (hn : F.next s.mem (f a) = n.map f) :
    Taken F f K (s.append F (f a)) (E ++ [a]) := by
  obtain ⟨k, hchain⟩ := h.chain
  have hnext : F.next (s.append F (f a)).mem (f a) = n.map f :=
    (s.next_append _ _ (h.tail_ne ha)).trans hn
  rcases List.eq_nil_or_concat' E with rfl | ⟨E, t, rfl⟩
  · have htail : s.tail = none := h.tail
    rw [Cursors.append, htail] at hnext ⊢
    refine ⟨rfl, rfl, ⟨n, ⟨?_, hnext⟩, trivial⟩, hK.setPrev _ _ _ h.kept⟩
    exact F.back_setPrev_self ..
  · have hlast : (E ++ [t]).getLast? = some t := List.getLast?_concat
    have htail : s.tail = some (f t) := by
      rw [h.tail, hlast]
      rfl
    have hta : f t ≠ f a := fun he =>
      ha (he ▸ List.mem_map_of_mem (List.mem_append_right _ (List.mem_singleton_self t)))
    rw [Cursors.append, htail] at hnext ⊢
    constructor
    · show s.list = _
      rw [h.list]
      cases E <;> rfl
    · rw [List.getLast?_concat]
      rfl
    · refine ⟨n, chain_append.mpr ⟨hchain.retail ?_ ?_, ⟨?_, hnext⟩, trivial⟩⟩
      · rintro b p hb ⟨hback, -⟩
        rw [hlast] at hb
        cases hb
        constructor
        · exact F.back_setPrev_ne _ _ _ _ _ hta (F.back_setNext _ _ _ _ _ hback)
        · exact (F.next_setPrev ..).trans (F.next_setNext_self ..)
      · rintro b hb p n ⟨hback, hn⟩
        have hbt : f b ≠ f t := ne_last_of_mem_dropLast hnd hlast hb
        have hba : f b ≠ f a := fun he =>
          ha (he ▸ List.mem_map_of_mem (List.dropLast_subset _ hb))
        constructor
        · exact F.back_setPrev_ne _ _ _ _ _ hba (F.back_setNext _ _ _ _ _ hback)
        · exact (F.next_setPrev ..).trans ((F.next_setNext_ne _ _ _ _ hbt).trans hn)
      · rw [lastLink_eq, hlast]
        exact F.back_setPrev_self ..
    · exact hK.setPrev _ _ _ (hK.setNext _ _ _ h.kept)

theorem nexts_congr {m m' : μ} {l : List α} {n : Option α}
    (h : Chain unlinked (NextAt F f m) () l n) (hnext : ∀ b ∈ l, F.next m' (f b) = F.next m (f b)) :
    Chain unlinked (NextAt F f m') () l n :=
  h.congr fun b hb _ _ hn => (hnext b hb).trans hn

theorem Merging.apart (h : Merging F f K s E P Q R) :
    (E.map f).Nodup ∧ ∀ b ∈ P ++ (Q ++ R), f b ∉ E.map f := by
  have hnd := h.nodup
  rw [List.map_append] at hnd
  obtain ⟨hndE, -, hdis⟩ := List.nodup_append.mp hnd
  exact ⟨hndE, fun b hb hE => hdis _ hE _ (List.mem_map_of_mem hb) rfl⟩

theorem Merging.takeP (hK : F.Keeps K) (h : Merging F f K s E (a :: P) Q R) :
    ∃ s', s.takeP F = some s' ∧ Merging F f K s' (E ++ [a]) P Q R := by
  obtain ⟨n, hp⟩ := h.pnext
  obtain ⟨hndE, hapart⟩ := h.apart
  have htail : ∀ b ∈ a :: P ++ (Q ++ R), s.tail ≠ some (f b) := fun b hb =>
    h.taken.tail_ne (hapart b hb)
  have htaken : Taken F f K { s with p := F.next s.mem (f a), psize := s.psize - 1 } E :=
    ⟨h.taken.list, h.taken.tail, h.taken.chain, h.taken.kept⟩
  have hkeeps : ∀ x, s.tail ≠ some x → F.next (Cursors.append F
      { s with p := F.next s.mem (f a), psize := s.psize - 1 } (f a)).mem x = F.next s.mem x :=
    Cursors.next_append { s with p := F.next s.mem (f a), psize := s.psize - 1 } (f a)
  obtain ⟨h₁, h₂, h₃, h₄⟩ := Cursors.append_fields (F := F)
    { s with p := F.next s.mem (f a), psize := s.psize - 1 } (f a)
  refine ⟨_, Cursors.takeP_eq (h.p (List.cons_ne_nil a P)), ?_⟩
  constructor
  · exact htaken.append hK hndE (hapart a (List.mem_cons_self ..)) hp.1
  · rw [h₂]
    have hpos : 0 < s.psize.toNat := h.psize ▸ Nat.succ_pos _
    show (s.psize - 1).toNat = P.length
    rw [toNat_pred hpos, h.psize, List.length_cons, Nat.add_sub_cancel]
  · intro hne
    obtain ⟨b, P', rfl⟩ := List.exists_cons_of_ne_nil hne
    exact h₁.trans hp.1
  · exact ⟨n, nexts_congr hp.2 fun b hb =>
      hkeeps _ (htail b (List.mem_cons_of_mem _ (List.mem_append_left _ hb)))⟩
  · exact h₃.trans h.q
  · exact nexts_congr h.qnext fun b hb => hkeeps _ (htail b (List.mem_append_right _ hb))
  · rw [h₄]
    exact h.qsize
  · rw [h₄]
    exact h.rest
  · rw [List.append_assoc]
    exact h.nodup

theorem Merging.takeQ (hK : F.Keeps K) (h : Merging F f K s E P (a :: Q) R) :
    ∃ s', s.takeQ F = some s' ∧ Merging F f K s' (E ++ [a]) P Q R := by
  obtain ⟨n, hp⟩ := h.pnext
  obtain ⟨hndE, hapart⟩ := h.apart
  have htail : ∀ b ∈ P ++ (a :: Q ++ R), s.tail ≠ some (f b) := fun b hb =>
    h.taken.tail_ne (hapart b hb)
  have htaken : Taken F f K { s with q := F.next s.mem (f a), qsize := s.qsize - 1 } E :=
    ⟨h.taken.list, h.taken.tail, h.taken.chain, h.taken.kept⟩
  have hkeeps : ∀ x, s.tail ≠ some x → F.next (Cursors.append F
      { s with q := F.next s.mem (f a), qsize := s.qsize - 1 } (f a)).mem x = F.next s.mem x :=
    Cursors.next_append { s with q := F.next s.mem (f a), qsize := s.qsize - 1 } (f a)
  obtain ⟨h₁, h₂, h₃, h₄⟩ := Cursors.append_fields (F := F)
    { s with q := F.next s.mem (f a), qsize := s.qsize - 1 } (f a)
  have hnext : F.next s.mem (f a) = (Q ++ R).head?.map f := by
    have hlink := h.qnext.1
    rwa [Option.or_none] at hlink
  have hsize : Q.length + 1 ≤ s.qsize.toNat := h.qsize
  have hpred : (s.qsize - 1).toNat = s.qsize.toNat - 1 := toNat_pred (by omega)
  refine ⟨_, Cursors.takeQ_eq h.q, ?_⟩
  constructor
  · exact htaken.append hK hndE
      (hapart a (List.mem_append_right _ (List.mem_cons_self ..))) hnext
  · rw [h₂]
    exact h.psize
  · rw [h₁]
    exact h.p
  · exact ⟨n, nexts_congr hp fun b hb => hkeeps _ (htail b (List.mem_append_left _ hb))⟩
  · exact h₃.trans hnext
  · exact nexts_congr h.qnext.2 fun b hb =>
      hkeeps _ (htail b (List.mem_append_right _ (List.mem_cons_of_mem _ hb)))
  · rw [h₄]
    show Q.length ≤ (s.qsize - 1).toNat
    omega
  · rw [h₄]
    intro hlt
    apply h.rest
    have hlt' : Q.length < (s.qsize - 1).toNat := hlt
    rw [List.length_cons]
    omega
  · refine (List.Perm.map f ?_).nodup_iff.mp h.nodup
    rw [List.append_assoc]
    exact List.Perm.append_left E List.perm_middle

variable (f) (r : ι → ι → Prop) [DecidableRel r]

/-- The merge of two runs of elements, which are compared at their addresses. -/
def merged (P Q : List α) : List α := List.merge P Q (Order.Preimage f r · ·)

variable {f r}

/-- One element is taken: the first of what is left of the merge. -/
theorem Merging.take (hK : F.Keeps K) (h : Merging F f K s E P Q R) (hne : P ++ Q ≠ []) :
    ∃ s' a P' Q', s.take F r = some s' ∧ Merging F f K s' (E ++ [a]) P' Q' R ∧
      merged f r P Q = a :: merged f r P' Q' ∧ P'.length + Q'.length + 1 = P.length + Q.length := by
  have hqsize := h.qsize
  have hpsize := h.psize
  cases P with
  | nil =>
    obtain ⟨b, Q, rfl⟩ := List.exists_cons_of_ne_nil hne
    obtain ⟨s', hs', h'⟩ := h.takeQ hK
    refine ⟨s', b, [], Q, ?_, h', ?_, ?_⟩
    · rw [Cursors.take, if_pos (UInt32.toNat_inj.mp hpsize), hs']
    · rw [merged, merged, List.nil_merge, List.nil_merge]
    · rw [List.length_cons, Nat.add_assoc]
  | cons a P =>
    have hpos : s.psize ≠ 0 := by
      intro hz
      rw [hz] at hpsize
      cases hpsize
    cases Q with
    | nil =>
      have hno : s.qsize = 0 ∨ s.q = none := by
        rcases Nat.eq_zero_or_pos s.qsize.toNat with hq | hq
        · exact Or.inl (UInt32.toNat_inj.mp hq)
        · right
          rw [h.q, h.rest hq]
          rfl
      obtain ⟨s', hs', h'⟩ := h.takeP hK
      refine ⟨s', a, P, [], ?_, h', ?_, rfl⟩
      · rw [Cursors.take, if_neg hpos, if_pos hno, hs']
      · rw [merged, merged, List.merge_right, List.merge_right]
    | cons b Q =>
      have hp : s.p = some (f a) := h.p (List.cons_ne_nil a P)
      have hq : s.q = some (f b) := h.q
      have hno : ¬(s.qsize = 0 ∨ s.q = none) := by
        rw [hq]
        rintro (hz | hn)
        · rw [hz] at hqsize
          exact absurd hqsize (Nat.not_succ_le_zero _)
        · cases hn
      have htake : s.take F r = if r (f a) (f b) then s.takeP F else s.takeQ F := by
        rw [Cursors.take, if_neg hpos, if_neg hno, hp, hq]
        rfl
      rw [htake]
      by_cases hab : r (f a) (f b)
      · obtain ⟨s', hs', h'⟩ := h.takeP hK
        refine ⟨s', a, P, b :: Q, ?_, h', ?_, ?_⟩
        · rw [if_pos hab, hs']
        · exact List.cons_merge_cons_pos _ _ _ (decide_eq_true hab)
        · rw [List.length_cons, List.length_cons]
          omega
      · obtain ⟨s', hs', h'⟩ := h.takeQ hK
        refine ⟨s', b, a :: P, Q, ?_, h', ?_, rfl⟩
        · rw [if_neg hab, hs']
        · exact List.cons_merge_cons_neg _ _ _ (decide_eq_true_iff.not.mpr hab)

theorem Merging.mergeRuns (hK : F.Keeps K) {fuel : ℕ} (h : Merging F f K s E P Q R)
    (hfuel : P.length + Q.length < fuel) :
    ∃ s', mergeRuns F r fuel s = some s' ∧ Merging F f K s' (E ++ merged f r P Q) [] [] R := by
  induction fuel generalizing s E P Q with
  | zero => exact absurd hfuel (Nat.not_lt_zero _)
  | succ fuel ih =>
    by_cases hne : P ++ Q = []
    · obtain ⟨rfl, rfl⟩ := List.append_eq_nil_iff.mp hne
      refine ⟨s, if_neg ?_, ?_⟩
      · rintro (hp | ⟨hq, hsome⟩)
        · rw [UInt32.lt_iff_toNat_lt, h.psize] at hp
          exact absurd hp (Nat.lt_irrefl 0)
        · rw [h.q, h.rest (UInt32.lt_iff_toNat_lt.mp hq)] at hsome
          cases hsome
      · rwa [merged, List.merge_right, List.append_nil]
    · have hcond : 0 < s.psize ∨ 0 < s.qsize ∧ s.q.isSome := by
        cases P with
        | nil =>
          obtain ⟨b, Q, rfl⟩ := List.exists_cons_of_ne_nil hne
          refine Or.inr
            ⟨UInt32.lt_iff_toNat_lt.mpr (Nat.lt_of_lt_of_le (Nat.succ_pos _) h.qsize), ?_⟩
          rw [h.q]
          rfl
        | cons a P =>
          left
          rw [UInt32.lt_iff_toNat_lt, h.psize]
          exact Nat.succ_pos _
      obtain ⟨s', a, P', Q', hs', h', hmerge, hlen⟩ := h.take (r := r) hK hne
      obtain ⟨s₁, hs₁, h₁⟩ := ih h' (by omega)
      refine ⟨s₁, ?_, ?_⟩
      · rw [MergeSort.mergeRuns, if_pos hcond, hs', Option.bind_some, hs₁]
      · rw [hmerge]
        rwa [List.append_assoc] at h₁

theorem stepOver_eq {m : μ} {l : List α} (h : Chain unlinked (NextAt F f m) () (a :: l) none)
    (left : ℕ) (psize : UInt32) : stepOver F m left psize (f a) =
      (psize + UInt32.ofNat ((a :: l).take left).length, ((a :: l).drop left).head?.map f) := by
  induction left generalizing a l psize with
  | zero =>
    rw [stepOver]
    exact congrArg (·, some (f a)) (UInt32.add_zero psize).symm
  | succ left ih =>
    have hnext : F.next m (f a) = l.head?.map f := by
      have hlink := h.1
      rwa [Option.or_none] at hlink
    cases l with
    | nil =>
      rw [stepOver, hnext]
      simp
    | cons b l =>
      rw [stepOver, hnext]
      show stepOver F m left (psize + 1) (f b) = _
      rw [ih h.2, List.take_succ_cons, List.length_cons, List.drop_succ_cons, UInt32.ofNat_add,
        UInt32.add_assoc, UInt32.add_comm 1]
      rfl

theorem mergeFrom_eq (hK : F.Keeps K) (nmerges : UInt32) {insize : UInt32} {n fuel : ℕ}
    {L : List α} (hn : insize.toNat = n + 1) (ht : Taken F f K s E) (hp : s.p = L.head?.map f)
    (hnext : Chain unlinked (NextAt F f s.mem) () L none)
    (hnd : ((E ++ L).map f).Nodup) (hfuel : L.length < fuel) :
    ∃ s', mergeFrom F r insize fuel nmerges s = some (s', nmerges + UInt32.ofNat (merges n L)) ∧
      Taken F f K s' (E ++ pass (Order.Preimage f r) n L) := by
  induction fuel generalizing s E L nmerges with
  | zero => exact absurd hfuel (Nat.not_lt_zero _)
  | succ fuel ih =>
    cases L with
    | nil =>
      refine ⟨s, ?_, ?_⟩
      · rw [mergeFrom, hp, merges]
        exact congrArg (fun k => some (s, k)) (UInt32.add_zero nmerges).symm
      · rwa [pass, List.append_nil]
    | cons a L =>
      have hrun := stepOver_eq hnext insize.toNat 0
      have hlen : (UInt32.ofNat ((a :: L).take (n + 1)).length).toNat =
          ((a :: L).take (n + 1)).length := by
        have hlt := insize.toNat_lt
        have hle := List.length_take_le (n + 1) (a :: L)
        rw [UInt32.toNat_ofNat', Nat.mod_eq_of_lt (by omega)]
      rw [hn, UInt32.zero_add] at hrun
      have hsplit := List.take_append_drop (n + 1) (a :: L)
      have hsplit' := List.take_append_drop (n + 1) ((a :: L).drop (n + 1))
      rw [← hsplit] at hnext
      obtain ⟨hP, hQR⟩ := chain_append.mp hnext
      have hm : Merging F f K { s with
          psize := (stepOver F s.mem insize.toNat 0 (f a)).1
          q := (stepOver F s.mem insize.toNat 0 (f a)).2
          qsize := insize } E ((a :: L).take (n + 1)) (((a :: L).drop (n + 1)).take (n + 1))
          (((a :: L).drop (n + 1)).drop (n + 1)) := by
        rw [hn, hrun]
        constructor
        · exact ⟨ht.list, ht.tail, ht.chain, ht.kept⟩
        · exact hlen
        · exact fun _ => hp
        · exact ⟨_, hP⟩
        · rw [hsplit']
        · rw [hsplit']
          exact hQR
        · rw [List.length_take]
          exact hn ▸ Nat.min_le_left ..
        · rw [List.length_take, List.drop_eq_nil_iff]
          show min (n + 1) _ < insize.toNat → _
          omega
        · rw [hsplit', hsplit]
          exact hnd
      have hloop : mergeFrom F r insize (fuel + 1) nmerges s =
          (mergeRuns F r ((stepOver F s.mem insize.toNat 0 (f a)).1.toNat + insize.toNat + 1) { s with
            psize := (stepOver F s.mem insize.toNat 0 (f a)).1
            q := (stepOver F s.mem insize.toNat 0 (f a)).2
            qsize := insize }).bind fun s =>
            mergeFrom F r insize fuel (nmerges + 1) { s with p := s.q } := by
        rw [mergeFrom, hp]
        rfl
      obtain ⟨s', hs', h'⟩ := hm.mergeRuns (r := r) hK
        (show _ < (stepOver F s.mem insize.toNat 0 (f a)).1.toNat + insize.toNat + 1 by
          have hQ := List.length_take_le (n + 1) ((a :: L).drop (n + 1))
          rw [hn, hrun, hlen]
          omega)
      have hrest : ((((a :: L).drop (n + 1)).drop (n + 1))).length < fuel := by
        rw [List.length_drop, List.length_drop, List.length_cons]
        rw [List.length_cons] at hfuel
        omega
      obtain ⟨s₁, hs₁, h₁⟩ := ih (s := { s' with p := s'.q }) (nmerges + 1)
        ⟨h'.taken.list, h'.taken.tail, h'.taken.chain, h'.taken.kept⟩ h'.q h'.qnext h'.nodup hrest
      refine ⟨s₁, ?_, ?_⟩
      · rw [hloop, hs', Option.bind_some, hs₁, merges, UInt32.ofNat_add, UInt32.add_assoc,
          UInt32.add_comm 1]
        rfl
      · rw [pass]
        rwa [List.append_assoc] at h₁

/-- The last element is linked to none. -/
theorem Taken.close {t : α} (h : Taken F f K s E) (hnd : (E.map f).Nodup)
    (ht : E.getLast? = some t) :
    Chain (link f) (At F f (F.setNext (f t) none s.mem)) none E none := by
  obtain ⟨n, hchain⟩ := h.chain
  apply hchain.retail
  · rintro b p hb ⟨hback, -⟩
    rw [ht] at hb
    cases hb
    exact ⟨F.back_setNext _ _ _ _ _ hback, F.next_setNext_self ..⟩
  · rintro b hb p k ⟨hback, hn⟩
    have hne : f b ≠ f t := ne_last_of_mem_dropLast hnd ht hb
    exact ⟨F.back_setNext _ _ _ _ _ hback, (F.next_setNext_ne _ _ _ _ hne).trans hn⟩

theorem nexts_of_chain {m : μ} {before : Option ι} {l : List α} {n : Option α}
    (h : Chain (link f) (At F f m) before l n) : Chain unlinked (NextAt F f m) () l n := by
  induction l generalizing before with
  | nil => trivial
  | cons a l ih => exact ⟨h.1.2, ih h.2⟩

/-- The list is sorted by following and changing links only. Elements that compare equal
keep their order. -/
theorem sortFrom_eq (hK : F.Keeps K) {size fuel n : ℕ} {insize : UInt32} {m : μ} {l : List α}
    (hn : insize.toNat = n + 1) (hm : K m) (hnext : Chain unlinked (NextAt F f m) () l none)
    (hnd : (l.map f).Nodup) (hne : l ≠ []) (hshort : l.length < 2 ^ 32) (hsize : l.length ≤ size)
    (hfuel : l.length ≤ fuel * (n + 1)) :
    ∃ m' l', sortFrom F r size fuel insize m (l.head?.map f) =
        some (m', l'.head?.map f, l'.getLast?.map f) ∧
      K m' ∧ Chain (link f) (At F f m') none l' none ∧ l'.Perm l ∧
      (Std.Total r → IsTrans ι r → ∀ l₀, l = sortRuns (Order.Preimage f r) n l₀ →
        l' = l₀.insertionSort (Order.Preimage f r)) := by
  induction fuel generalizing n insize m l with
  | zero =>
    rw [Nat.zero_mul] at hfuel
    exact absurd (List.eq_nil_of_length_eq_zero (Nat.le_zero.mp hfuel)) hne
  | succ fuel ih =>
    have hstart : Taken F f K ⟨m, none, none, l.head?.map f, 0, none, 0⟩ [] :=
      ⟨rfl, rfl, ⟨none, trivial⟩, hm⟩
    obtain ⟨s, hs, ht⟩ := mergeFrom_eq (r := r) hK 0 hn hstart rfl hnext hnd
      (Nat.lt_succ_of_le hsize)
    rw [UInt32.zero_add] at hs
    have hcount : UInt32.ofNat (merges n l) ≤ 1 ↔ merges n l ≤ 1 := by
      have hle := merges_le_length n l
      rw [UInt32.le_iff_toNat_le, UInt32.toNat_ofNat', Nat.mod_eq_of_lt (by omega)]
      rfl
    rw [List.nil_append] at ht
    -- `l₁` is what the pass makes of `l`
    obtain ⟨l₁, hl₁⟩ : ∃ l₁, pass (Order.Preimage f r) n l = l₁ := ⟨_, rfl⟩
    have hperm := pass_perm (Order.Preimage f r) n l
    rw [hl₁] at ht hperm
    have hnd₁ : (l₁.map f).Nodup := (hperm.map f).nodup_iff.mpr hnd
    have hne₁ : l₁ ≠ [] := fun he => hne (List.perm_nil.mp (he ▸ hperm.symm))
    have hlast := List.getLast?_eq_some_getLast hne₁
    have htail : s.tail = some (f (l₁.getLast hne₁)) := by
      rw [ht.tail, hlast]
      rfl
    have hchain := ht.close hnd₁ hlast
    have hkept := hK.setNext _ (f (l₁.getLast hne₁)) none ht.kept
    have hloop : sortFrom F r size (fuel + 1) insize m (l.head?.map f) =
        if merges n l ≤ 1 then
          some (F.setNext (f (l₁.getLast hne₁)) none s.mem, s.list, some (f (l₁.getLast hne₁)))
        else sortFrom F r size fuel (insize * 2) (F.setNext (f (l₁.getLast hne₁)) none s.mem)
          s.list := by
      rw [sortFrom, hs, Option.bind_some]
      simp only [htail, Option.bind_some, hcount]
    have hsorted : ∀ l₀, Std.Total r → IsTrans ι r → l = sortRuns (Order.Preimage f r) n l₀ →
        l₁ = sortRuns (Order.Preimage f r) (2 * n + 1) l₀ := by
      rintro l₀ _ _ rfl
      rw [← hl₁, pass_sortRuns]
    by_cases hone : merges n l ≤ 1
    · refine ⟨_, l₁, ?_, hkept, hchain, hperm, ?_⟩
      · rw [hloop, if_pos hone, ht.list, hlast]
        rfl
      · intro htotal htrans l₀ hl₀
        rw [hsorted l₀ htotal htrans hl₀]
        apply sortRuns_of_length_le
        have hlen := (merges_le_one_iff n l).mp hone
        rw [hl₀, (sortRuns_perm _ n l₀).length_eq] at hlen
        omega
    · have hmore := mt (merges_le_one_iff n l).mpr hone
      have hfuel₁ : l₁.length ≤ fuel * (2 * n + 1 + 1) := by
        rw [hperm.length_eq]
        cases fuel with
        | zero => omega
        | succ fuel =>
          have hdouble : (fuel + 1 + 1) * (n + 1) ≤ (fuel + 1) * 2 * (n + 1) :=
            Nat.mul_le_mul_right _ (by omega)
          rw [Nat.mul_assoc] at hdouble
          exact hfuel.trans (hdouble.trans (Nat.le_of_eq (congrArg _ (by omega))))
      have hn₁ : (insize * 2).toNat = 2 * n + 1 + 1 := by
        rw [UInt32.toNat_mul, hn]
        show (n + 1) * 2 % 2 ^ 32 = _
        omega
      obtain ⟨m', l', hrun, hK', hchain', hperm', hsort'⟩ := ih hn₁ hkept (nexts_of_chain hchain)
        hnd₁ hne₁ (hperm.length_eq ▸ hshort) (hperm.length_eq ▸ hsize) hfuel₁
      refine ⟨m', l', ?_, hK', hchain', hperm'.trans hperm, ?_⟩
      · rw [hloop, if_neg hone, ht.list, ← hrun]
      · intro htotal htrans l₀ hl₀
        exact hsort' htotal htrans l₀ (hsorted l₀ htotal htrans hl₀)

/-- The sort from runs of one element on, when `size` is the length or more. -/
theorem sort_eq (hK : F.Keeps K) {size : ℕ} {m : μ} {l : List α} (hm : K m)
    (hnext : Chain unlinked (NextAt F f m) () l none) (hnd : (l.map f).Nodup) (hne : l ≠ [])
    (hshort : l.length < 2 ^ 32) (hsize : l.length ≤ size) :
    ∃ m' l', sortFrom F r size size 1 m (l.head?.map f) =
        some (m', l'.head?.map f, l'.getLast?.map f) ∧
      K m' ∧ Chain (link f) (At F f m') none l' none ∧ l'.Perm l ∧
      (Std.Total r → IsTrans ι r → l' = l.insertionSort (Order.Preimage f r)) := by
  have hone : (1 : UInt32).toNat = 0 + 1 := UInt32.toNat_one
  have hfuel : l.length ≤ size * (0 + 1) := by rwa [Nat.mul_one]
  obtain ⟨m', l', hrun, hK', hchain, hperm, hsort⟩ := sortFrom_eq (r := r) hK hone hm hnext
    hnd hne hshort hsize hfuel
  exact ⟨m', l', hrun, hK', hchain, hperm, fun htotal htrans =>
    hsort htotal htrans l (sortRuns_zero _ l).symm⟩

end
end MergeSort
