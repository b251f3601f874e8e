import Mathlib.Data.List.TakeDrop

/-!
# Blocks of bytes

A block is what one call of an allocator hands out: so many bytes, each of them
undetermined (`none`) until something is stored there. A copy that would leave
the block is undefined.
-/

namespace Allocated

abbrev Block (α : Type) := List (Option α)

namespace Block
variable {α : Type}

def malloc (n : ℕ) : Block α := List.replicate n none

def realloc (b : Block α) (n : ℕ) : Block α := b.take n ++ List.replicate (n - b.length) none

def store (b : Block α) (off : ℕ) (xs : List α) : Option (Block α) :=
  if off + xs.length ≤ b.length then
    some (b.take off ++ xs.map some ++ b.drop (off + xs.length))
  else none

def load (b : Block α) (off n : ℕ) : Option (Block α) :=
  if off + n ≤ b.length then some ((b.drop off).take n) else none

-- What is read as values must have been stored before.
def values : Block α → Option (List α)
  | [] => some []
  | none :: _ => none
  | some x :: b => (values b).map (x :: ·)

@[simp] theorem length_realloc (b : Block α) (n : ℕ) : (b.realloc n).length = n := by
  simp only [realloc, List.length_append, List.length_take, List.length_replicate]
  omega

theorem length_store {b b' : Block α} {off : ℕ} {xs : List α} (h : b.store off xs = some b') :
    b'.length = b.length := by
  unfold store at h
  split at h
  · next hle =>
    cases h
    simp only [List.length_append, List.length_take, List.length_map, List.length_drop]
    omega
  · cases h

theorem malloc_eq_realloc (n : ℕ) : (malloc n : Block α) = realloc [] n := by
  rw [malloc, realloc, List.take_nil, List.nil_append, List.length_nil, Nat.sub_zero]

/-- A larger request keeps what a smaller one keeps. -/
theorem exists_realloc_eq_append (b : Block α) {m n : ℕ} (h : m ≤ n) :
    ∃ rest, b.realloc n = b.realloc m ++ rest ∧ rest.length = n - m := by
  refine ⟨(b.realloc n).drop m, ?_, ?_⟩
  · have htake : (b.realloc n).take m = b.realloc m := by
      simp only [realloc, List.take_append, List.take_take, List.take_replicate, List.length_take,
        Nat.min_eq_left h]
      congr 2
      omega
    rw [← htake, List.take_append_drop]
  · rw [List.length_drop, length_realloc]

theorem store_of_lt {b : Block α} {off : ℕ} {xs : List α} (h : b.length < off + xs.length) :
    b.store off xs = none := if_neg (by omega)

theorem store_end {pre rest : Block α} {off : ℕ} {xs : List α} (hpre : pre.length = off)
    (hrest : xs.length ≤ rest.length) :
    Block.store (pre ++ rest) off xs = some (pre ++ xs.map some ++ rest.drop xs.length) := by
  have hle : off + xs.length ≤ (pre ++ rest).length := by
    rw [List.length_append]
    omega
  unfold store
  rw [if_pos hle, List.take_left' hpre, ← hpre, List.drop_length_add_append]

end Block
end Allocated
