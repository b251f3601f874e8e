import Mathlib.Data.List.Nodup
import Mathlib.Data.List.Range
import Mathlib.Data.List.Perm.Subperm

/-!
# Addressed memory

A memory hands out addresses in increasing order and never hands one out
twice, so a released address stays dead. `cell a = none` says that `a` is not
allocated (any more); the field `unused` keeps the part beyond `next` empty.
-/

namespace Addressed

structure Memory (α : Type) where
  cell : ℕ → Option α
  next : ℕ
  unused : ∀ a, next ≤ a → cell a = none

namespace Memory
variable {α : Type}

def empty : Memory α := ⟨fun _ => none, 0, fun _ _ => rfl⟩

/-- A new cell; the address handed out is `m.next`. -/
def alloc (m : Memory α) (c : α) : Memory α where
  cell a := if a = m.next then some c else m.cell a
  next := m.next + 1
  unused a ha := by
    have hne : a ≠ m.next := by omega
    rw [if_neg hne]
    exact m.unused a (by omega)

/-- A store through a pointer; a dead address has nothing to store into. -/
def modify (m : Memory α) (p : ℕ) (f : α → α) : Memory α where
  cell a := if a = p then (m.cell a).map f else m.cell a
  next := m.next
  unused a ha := by
    rw [m.unused a ha]
    split <;> rfl

def free (m : Memory α) (p : ℕ) : Memory α where
  cell a := if a = p then none else m.cell a
  next := m.next
  unused a ha := by
    rw [m.unused a ha]
    split <;> rfl

/-! ### Reading back -/

theorem lt_next {m : Memory α} {a : ℕ} {c : α} (h : m.cell a = some c) : a < m.next := by
  by_contra hn
  rw [m.unused a (by omega)] at h
  cases h

@[simp] theorem alloc_next (m : Memory α) (c : α) : (m.alloc c).next = m.next + 1 := rfl
@[simp] theorem modify_next (m : Memory α) (p : ℕ) (f : α → α) :
    (m.modify p f).next = m.next := rfl

@[simp] theorem alloc_cell_next (m : Memory α) (c : α) :
    (m.alloc c).cell m.next = some c := if_pos rfl

theorem alloc_cell_ne (m : Memory α) (c : α) {a : ℕ} (h : a ≠ m.next) :
    (m.alloc c).cell a = m.cell a := if_neg h

theorem alloc_cell_old (m : Memory α) (c : α) {a : ℕ} (h : a < m.next) :
    (m.alloc c).cell a = m.cell a := alloc_cell_ne m c (by omega)

theorem modify_cell (m : Memory α) (p a : ℕ) (f : α → α) :
    (m.modify p f).cell a = if a = p then (m.cell a).map f else m.cell a := rfl

theorem modify_cell_self {m : Memory α} {p : ℕ} {c : α} (f : α → α)
    (h : m.cell p = some c) : (m.modify p f).cell p = some (f c) := by
  rw [modify_cell, if_pos rfl, h, Option.map_some]

theorem modify_cell_ne (m : Memory α) {p a : ℕ} (f : α → α) (h : a ≠ p) :
    (m.modify p f).cell a = m.cell a := if_neg h

theorem free_cell (m : Memory α) (p a : ℕ) :
    (m.free p).cell a = if a = p then none else m.cell a := rfl

theorem free_cell_ne (m : Memory α) {p a : ℕ} (h : a ≠ p) :
    (m.free p).cell a = m.cell a := if_neg h

/-! ### What a change leaves alone -/

/-- Every cell of `S` is as it was. -/
def Keeps (S : ℕ → Prop) (m m' : Memory α) : Prop := ∀ a, S a → m'.cell a = m.cell a

theorem Keeps.refl (S : ℕ → Prop) (m : Memory α) : Keeps S m m := fun _ _ => rfl

theorem Keeps.trans {S : ℕ → Prop} {m₁ m₂ m₃ : Memory α} (h : Keeps S m₁ m₂)
    (h' : Keeps S m₂ m₃) : Keeps S m₁ m₃ := fun a ha => (h' a ha).trans (h a ha)

theorem Keeps.mono {S T : ℕ → Prop} {m m' : Memory α} (h : Keeps S m m')
    (hst : ∀ a, T a → S a) : Keeps T m m' := fun a ha => h a (hst a ha)

theorem keeps_alloc (m : Memory α) (c : α) : Keeps (· < m.next) m (m.alloc c) :=
  fun _ ha => alloc_cell_old m c ha

theorem keeps_modify (m : Memory α) (p : ℕ) (f : α → α) : Keeps (· ≠ p) m (m.modify p f) :=
  fun _ ha => modify_cell_ne m f ha

theorem keeps_free (m : Memory α) (p : ℕ) : Keeps (· ≠ p) m (m.free p) :=
  fun _ ha => free_cell_ne m ha

/-- `m'` has lost some of the cells of `m` and is otherwise the same. -/
def Shrunk (m m' : Memory α) : Prop :=
  m'.next = m.next ∧ ∀ a, m'.cell a = m.cell a ∨ m'.cell a = none

theorem Shrunk.refl (m : Memory α) : Shrunk m m := ⟨rfl, fun _ => Or.inl rfl⟩

theorem Shrunk.trans {m₁ m₂ m₃ : Memory α} (h : Shrunk m₁ m₂) (h' : Shrunk m₂ m₃) :
    Shrunk m₁ m₃ := by
  refine ⟨h'.1.trans h.1, fun a => ?_⟩
  rcases h'.2 a with he | he
  · rw [he]
    exact h.2 a
  · exact Or.inr he

/-- What is left was there before. -/
theorem Shrunk.cell_eq_some {m m' : Memory α} (h : Shrunk m m') {a : ℕ} {c : α}
    (hc : m'.cell a = some c) : m.cell a = some c := by
  rcases h.2 a with he | he
  · rwa [← he]
  · rw [he] at hc
    cases hc

theorem shrunk_free (m : Memory α) (p : ℕ) : Shrunk m (m.free p) := by
  refine ⟨rfl, fun a => ?_⟩
  rw [free_cell]
  split
  · exact Or.inr rfl
  · exact Or.inl rfl

/-! ### Invariants of cells -/

/-- Every allocated cell satisfies `P`. -/
def Every (P : α → Prop) (m : Memory α) : Prop := ∀ a c, m.cell a = some c → P c

theorem every_empty (P : α → Prop) : Every P (empty : Memory α) := by
  intro a c h
  cases h

theorem Every.mono {P Q : α → Prop} {m : Memory α} (h : Every P m) (hPQ : ∀ c, P c → Q c) :
    Every Q m := fun a c hc => hPQ c (h a c hc)

theorem Every.alloc {P : α → Prop} {m : Memory α} {c : α} (h : Every P m) (hc : P c) :
    Every P (m.alloc c) := by
  intro a x hx
  by_cases ha : a = m.next
  · subst ha
    rw [alloc_cell_next] at hx
    cases hx
    exact hc
  · exact h a x (alloc_cell_ne m c ha ▸ hx)

theorem Every.modify {P : α → Prop} {m : Memory α} {p : ℕ} {f : α → α} (h : Every P m)
    (hf : ∀ c, m.cell p = some c → P (f c)) : Every P (m.modify p f) := by
  intro a x hx
  rw [modify_cell] at hx
  split at hx
  · next ha =>
    subst ha
    obtain ⟨c, hc, rfl⟩ := Option.map_eq_some_iff.mp hx
    exact hf c hc
  · exact h a x hx

theorem Every.shrunk {P : α → Prop} {m m' : Memory α} (h : Every P m) (hs : Shrunk m m') :
    Every P m' := by
  intro a x hx
  exact h a x (hs.cell_eq_some hx)

/-! ### Addresses handed out one after another -/

/-- `as` are the addresses from `lo` up to `hi`, each of them once. -/
structure Allotted (lo hi : ℕ) (as : List ℕ) : Prop where
  le : lo ≤ hi
  nodup : as.Nodup
  mem : ∀ a, a ∈ as ↔ lo ≤ a ∧ a < hi

theorem Allotted.nil (lo : ℕ) : Allotted lo lo [] := by
  refine ⟨le_refl lo, List.nodup_nil, fun a => ?_⟩
  constructor
  · intro h
    cases h
  · intro h
    omega

theorem Allotted.append {lo mid hi : ℕ} {as bs : List ℕ} (ha : Allotted lo mid as)
    (hb : Allotted mid hi bs) : Allotted lo hi (as ++ bs) := by
  have hle := ha.le
  have hle' := hb.le
  refine ⟨by omega, List.nodup_append.mpr ⟨ha.nodup, hb.nodup, ?_⟩, fun a => ?_⟩
  · intro a haa b hbb he
    have h₁ := (ha.mem a).mp haa
    have h₂ := (hb.mem b).mp hbb
    omega
  · rw [List.mem_append, ha.mem, hb.mem]
    omega

theorem Allotted.cons {lo hi : ℕ} {as : List ℕ} (h : Allotted (lo + 1) hi as) :
    Allotted lo hi (lo :: as) := by
  have hone : Allotted lo (lo + 1) [lo] := by
    refine ⟨by omega, List.nodup_singleton lo, fun a => ?_⟩
    rw [List.mem_singleton]
    omega
  exact hone.append h

theorem length_le_next (m : Memory α) {as : List ℕ} (hd : as.Nodup)
    (h : ∀ a ∈ as, a < m.next) : as.length ≤ m.next := by
  have hs : as ⊆ List.range m.next := fun a ha => List.mem_range.mpr (h a ha)
  have hl := (List.subperm_of_subset hd hs).length_le
  rwa [List.length_range] at hl

end Memory
end Addressed
