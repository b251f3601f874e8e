import Pillowtalk.Library.Memory

/-!
# Regions of a memory

A region is a list of addresses. `Swaps m m' as bs` accounts for a change of
the memory: it wrote the cells `as` and new ones only, and what is alive of
them afterwards is in `bs`. Such changes compose, and a region apart from them
can be added on both sides, so the whole memory can be accounted for by
accounting for its parts.
-/

namespace Addressed.Memory
variable {α : Type}

/-! ### A dead address has nothing to change -/

theorem eq_of_cell {m m' : Memory α} (hn : m'.next = m.next) (hc : ∀ a, m'.cell a = m.cell a) :
    m' = m := by
  cases m
  cases m'
  cases hn
  cases funext hc
  rfl

theorem modify_dead {m : Memory α} {p : ℕ} (f : α → α) (hp : m.cell p = none) :
    m.modify p f = m := by
  apply eq_of_cell
  · rfl
  intro a
  rw [modify_cell]
  split
  · next ha => rw [ha, hp, Option.map_none]
  · rfl

theorem free_dead {m : Memory α} {p : ℕ} (hp : m.cell p = none) : m.free p = m := by
  apply eq_of_cell
  · rfl
  intro a
  rw [free_cell]
  split
  · next ha => rw [ha, hp]
  · rfl

/-! ### Changes of a region -/

structure Swaps (m m' : Memory α) (as bs : List ℕ) : Prop where
  le : m.next ≤ m'.next
  frame : Keeps (fun x => x < m.next ∧ x ∉ as) m m'
  old : ∀ x ∈ bs, x ∈ as ∨ m.next ≤ x
  gone : ∀ x, x ∈ as ∨ m.next ≤ x → m'.cell x ≠ none → x ∈ bs

namespace Swaps
variable {m m₁ m₂ m₃ m' : Memory α} {as as' bs bs' cs : List ℕ}

theorem refl (m : Memory α) (as : List ℕ) : Swaps m m as as := by
  constructor
  · exact le_refl _
  · exact Keeps.refl _ _
  · exact fun x hx => Or.inl hx
  · rintro x (hx | hx) hlive
    · exact hx
    · exact absurd (m.unused x hx) hlive

theorem trans (h : Swaps m₁ m₂ as bs) (h' : Swaps m₂ m₃ bs cs) : Swaps m₁ m₃ as cs := by
  have hle := h.le
  have hle' := h'.le
  constructor
  · omega
  · intro x hx
    have hnew : x ∉ bs := by
      intro hxb
      rcases h.old x hxb with hxa | hxn
      · exact hx.2 hxa
      · omega
    rw [h'.frame x ⟨by omega, hnew⟩, h.frame x hx]
  · intro x hx
    rcases h'.old x hx with hxb | hxn
    · exact h.old x hxb
    · exact Or.inr (by omega)
  · intro x hx hlive
    by_cases hxb : x ∈ bs ∨ m₂.next ≤ x
    · exact h'.gone x hxb hlive
    · rw [not_or, not_le] at hxb
      rw [h'.frame x ⟨hxb.2, hxb.1⟩] at hlive
      exact absurd (h.gone x hx hlive) hxb.1

/-- The frame rule. -/
theorem beside (h : Swaps m m' as bs) (cs : List ℕ) : Swaps m m' (as ++ cs) (bs ++ cs) := by
  constructor
  · exact h.le
  · intro x hx
    exact h.frame x ⟨hx.1, fun hxa => hx.2 (List.mem_append_left _ hxa)⟩
  · intro x hx
    rcases List.mem_append.mp hx with hxb | hxc
    · exact (h.old x hxb).imp_left (List.mem_append_left _)
    · exact Or.inl (List.mem_append_right _ hxc)
  · intro x hx hlive
    by_cases hxa : x ∈ as ∨ m.next ≤ x
    · exact List.mem_append_left _ (h.gone x hxa hlive)
    · rcases hx with hx | hx
      · rcases List.mem_append.mp hx with hxa' | hxc
        · exact absurd (Or.inl hxa') hxa
        · exact List.mem_append_right _ hxc
      · exact absurd (Or.inr hx) hxa

theorem congr (h : Swaps m m' as bs) (ha : ∀ x, x ∈ as ↔ x ∈ as') (hb : ∀ x, x ∈ bs ↔ x ∈ bs') :
    Swaps m m' as' bs' := by
  constructor
  · exact h.le
  · exact fun x hx => h.frame x ⟨hx.1, fun hxa => hx.2 ((ha x).mp hxa)⟩
  · exact fun x hx => (h.old x ((hb x).mpr hx)).imp_left (ha x).mp
  · exact fun x hx hlive => (hb x).mp (h.gone x (hx.imp_left (ha x).mpr) hlive)

theorem alloc (m : Memory α) (c : α) : Swaps m (m.alloc c) [] [m.next] := by
  constructor
  · exact Nat.le_succ _
  · exact fun x hx => alloc_cell_old m c hx.1
  · intro x hx
    rw [List.mem_singleton] at hx
    exact Or.inr (by omega)
  · rintro x (hx | hx) hlive
    · cases hx
    · by_cases hxn : x = m.next
      · exact List.mem_singleton.mpr hxn
      · rw [alloc_cell_ne m c hxn] at hlive
        exact absurd (m.unused x hx) hlive

theorem modify (m : Memory α) {p : ℕ} (f : α → α) (hp : p ∈ as) :
    Swaps m (m.modify p f) as as := by
  constructor
  · exact le_refl _
  · intro x hx
    apply modify_cell_ne
    rintro rfl
    exact hx.2 hp
  · exact fun x hx => Or.inl hx
  · rintro x (hx | hx) hlive
    · exact hx
    · by_cases hxp : x = p
      · exact hxp ▸ hp
      · rw [modify_cell_ne m f hxp] at hlive
        exact absurd (m.unused x hx) hlive

theorem free (m : Memory α) (p : ℕ) : Swaps m (m.free p) [p] [] := by
  constructor
  · exact le_refl _
  · exact fun x hx => free_cell_ne m fun he => hx.2 (List.mem_singleton.mpr he)
  · exact fun x hx => absurd hx List.not_mem_nil
  · intro x hx hlive
    rw [free_cell] at hlive
    split at hlive
    · exact absurd rfl hlive
    · next hxp =>
      rcases hx with hx | hx
      · exact absurd (List.mem_singleton.mp hx) hxp
      · exact absurd (m.unused x hx) hlive

/-- A region that only shrinks. -/
theorem of_shrunk (hs : Shrunk m m') (hf : Keeps (· ∉ as) m m')
    (hg : ∀ x ∈ as, m'.cell x ≠ none → x ∈ bs) (hb : ∀ x ∈ bs, x ∈ as) : Swaps m m' as bs := by
  constructor
  · exact hs.1.ge
  · exact fun x hx => hf x hx.2
  · exact fun x hx => Or.inl (hb x hx)
  · rintro x (hx | hx) hlive
    · exact hg x hx hlive
    · rw [← hs.1] at hx
      exact absurd (m'.unused x hx) hlive

/-- Live cells outside the region stay as they are. -/
theorem keeps (h : Swaps m m' as bs) {x : ℕ} {c : α} (hx : x ∉ as) (hc : m.cell x = some c) :
    m'.cell x = some c := by
  rw [h.frame x ⟨lt_next hc, hx⟩, hc]

/-- The new region stays apart from what was alive beside the old one. -/
theorem disjoint (h : Swaps m m' as bs) (hcs : ∀ x ∈ cs, x < m.next)
    (hd : ∀ x ∈ as, x ∉ cs) : ∀ x ∈ bs, x ∉ cs := by
  intro x hx hxc
  rcases h.old x hx with hxa | hxn
  · exact hd x hxa hxc
  · have hlt := hcs x hxc
    omega

end Swaps

/-! ### A memory in parts -/

/-- The live cells of `m` are those of the regions, and no two regions share one. -/
structure Parted {ι : Type} (m : Memory α) (region : ι → List ℕ) : Prop where
  nodup : ∀ i, (region i).Nodup
  apart : ∀ i j, i ≠ j → ∀ x ∈ region i, x ∉ region j
  live : ∀ i, ∀ x ∈ region i, m.cell x ≠ none
  covered : ∀ x, m.cell x ≠ none → ∃ i, x ∈ region i

namespace Parted
variable {ι : Type} {m m' : Memory α} {region region' : ι → List ℕ} {as bs : List ℕ}

theorem lt_next (hp : Parted m region) {i : ι} {x : ℕ} (hx : x ∈ region i) : x < m.next := by
  obtain ⟨c, hc⟩ := Option.ne_none_iff_exists'.mp (hp.live i x hx)
  exact Memory.lt_next hc

/-- The regions of some parts, `S`, are given up for new ones. -/
theorem swap (hp : Parted m region) (hs : Swaps m m' as bs) (S : ι → Prop)
    (has : ∀ x, x ∈ as ↔ ∃ i, S i ∧ x ∈ region i) (hrest : ∀ i, ¬S i → region' i = region i)
    (hnd : ∀ i, S i → (region' i).Nodup)
    (hin : ∀ i, S i → ∀ x ∈ region' i, x ∈ bs ∧ m'.cell x ≠ none)
    (hcov : ∀ x ∈ bs, ∃ i, S i ∧ x ∈ region' i)
    (hdis : ∀ i j, S i → S j → i ≠ j → ∀ x ∈ region' i, x ∉ region' j) :
    Parted m' region' := by
  have hout : ∀ i, ¬S i → ∀ x ∈ region i, x ∉ as := by
    intro i hi x hx hxa
    obtain ⟨j, hj, hxj⟩ := (has x).mp hxa
    exact hp.apart i j (fun he => hi (he ▸ hj)) x hx hxj
  -- a new region against one that stays
  have hmixed : ∀ i j, S i → ¬S j → ∀ x ∈ region' i, x ∉ region j := by
    intro i j hi hj x hx hxj
    rcases hs.old x (hin i hi x hx).1 with hxa | hxn
    · exact hout j hj x hxj hxa
    · have hlt := hp.lt_next hxj
      omega
  constructor
  · intro i
    by_cases hi : S i
    · exact hnd i hi
    · rw [hrest i hi]
      exact hp.nodup i
  · intro i j hij x hx hxj
    by_cases hi : S i <;> by_cases hj : S j
    · exact hdis i j hi hj hij x hx hxj
    · rw [hrest j hj] at hxj
      exact hmixed i j hi hj x hx hxj
    · rw [hrest i hi] at hx
      exact hmixed j i hj hi x hxj hx
    · rw [hrest i hi] at hx
      rw [hrest j hj] at hxj
      exact hp.apart i j hij x hx hxj
  · intro i x hx
    by_cases hi : S i
    · exact (hin i hi x hx).2
    · rw [hrest i hi] at hx
      rw [hs.frame x ⟨hp.lt_next hx, hout i hi x hx⟩]
      exact hp.live i x hx
  · intro x hlive
    by_cases hx : x ∈ as ∨ m.next ≤ x
    · obtain ⟨i, -, hxi⟩ := hcov x (hs.gone x hx hlive)
      exact ⟨i, hxi⟩
    · rw [not_or, not_le] at hx
      rw [hs.frame x ⟨hx.2, hx.1⟩] at hlive
      obtain ⟨i, hxi⟩ := hp.covered x hlive
      have hi : ¬S i := fun hi => hx.1 ((has x).mpr ⟨i, hi, hxi⟩)
      exact ⟨i, by rwa [hrest i hi]⟩

/-- One region is given up for a new one. -/
theorem swap_one (hp : Parted m region) {i : ι} {as : List ℕ} (hs : Swaps m m' (region i) as)
    (hself : region' i = as) (hrest : ∀ j, j ≠ i → region' j = region j) (hnd : as.Nodup)
    (hlive : ∀ x ∈ as, m'.cell x ≠ none) : Parted m' region' := by
  apply hp.swap hs (· = i)
  · exact fun x => ⟨fun hx => ⟨i, rfl, hx⟩, fun ⟨_, he, hx⟩ => he ▸ hx⟩
  · exact hrest
  · rintro j rfl
    rw [hself]
    exact hnd
  · rintro j rfl x hx
    rw [hself] at hx
    exact ⟨hx, hlive x hx⟩
  · exact fun x hx => ⟨i, rfl, by rwa [hself]⟩
  · rintro j k rfl rfl hne
    exact absurd rfl hne

end Parted
end Addressed.Memory
