import Mathlib.Data.List.Nodup

/-!
# Doubly linked lists

`Chain` says of the elements of a list that each is linked to the one before and
the one after it. `P a p n` stands for the fields of `a`: `p` is its link back and
`n` its link forward. What a link back to `a` looks like is given by `link a`:
a pointer to `a`, or to some field of `a`. An edit of the list changes the links
next to it only, so it is put together from three moves: cutting a chain in two,
and changing what lies before or after one.
-/

namespace Links
variable {α β : Type}

/-- `l` lies between `before` and `after`. -/
def Chain (link : α → β) (P : α → β → Option α → Prop) : β → List α → Option α → Prop
  | _, [], _ => True
  | before, a :: l, after => P a before (l.head?.or after) ∧ Chain link P (link a) l after

/-- There are no links back. -/
def unlinked (_ : α) : Unit := ()

/-- The link back to the last of `l`, or to what lies before it. -/
def lastLink (link : α → β) : β → List α → β
  | before, [] => before
  | _, a :: l => lastLink link (link a) l

variable {link : α → β} {P P' : α → β → Option α → Prop} {before before' : β}
  {l l₁ l₂ : List α} {a : α} {after after' : Option α}

theorem lastLink_append (before : β) (l₁ l₂ : List α) :
    lastLink link before (l₁ ++ l₂) = lastLink link (lastLink link before l₁) l₂ := by
  induction l₁ generalizing before with
  | nil => rfl
  | cons a l₁ ih => exact ih (link a)

theorem lastLink_eq (before : β) (l : List α) :
    lastLink link before l = (l.getLast?.map link).getD before := by
  induction l generalizing before with
  | nil => rfl
  | cons a l ih =>
    rw [lastLink, ih, List.getLast?_cons]
    cases l.getLast? <;> rfl

theorem head?_append_or (l₁ l₂ : List α) (after : Option α) :
    (l₁ ++ l₂).head?.or after = l₁.head?.or (l₂.head?.or after) := by
  rw [List.head?_append, Option.or_assoc]

/-- A chain is cut in two. -/
theorem chain_append : Chain link P before (l₁ ++ l₂) after ↔
    Chain link P before l₁ (l₂.head?.or after) ∧
      Chain link P (lastLink link before l₁) l₂ after := by
  induction l₁ generalizing before with
  | nil => simp only [List.nil_append, Chain, lastLink, true_and]
  | cons a l₁ ih =>
    simp only [List.cons_append, Chain, lastLink, ih, head?_append_or, and_assoc]

theorem Chain.congr (h : Chain link P before l after)
    (hall : ∀ b ∈ l, ∀ p n, P b p n → P' b p n) : Chain link P' before l after := by
  induction l generalizing before with
  | nil => trivial
  | cons a l ih =>
    exact ⟨hall a (List.mem_cons_self ..) _ _ h.1,
      ih h.2 fun b hb => hall b (List.mem_cons_of_mem _ hb)⟩

/-- Something else comes to lie before the chain. -/
theorem Chain.rehead (h : Chain link P before l after)
    (hhead : ∀ b n, l.head? = some b → P b before n → P' b before' n)
    (htail : ∀ b ∈ l.tail, ∀ p n, P b p n → P' b p n) : Chain link P' before' l after := by
  cases l with
  | nil => trivial
  | cons a l => exact ⟨hhead a _ rfl h.1, h.2.congr htail⟩

/-- Something else comes to lie after the chain. -/
theorem Chain.retail (h : Chain link P before l after)
    (hlast : ∀ b p, l.getLast? = some b → P b p after → P' b p after')
    (hinit : ∀ b ∈ l.dropLast, ∀ p n, P b p n → P' b p n) : Chain link P' before l after' := by
  induction l generalizing before with
  | nil => trivial
  | cons a l ih =>
    cases l with
    | nil => exact ⟨hlast a _ rfl h.1, trivial⟩
    | cons b l =>
      refine ⟨hinit a (List.mem_cons_self ..) _ _ h.1, ih h.2 ?_ ?_⟩
      · intro c p hc
        exact hlast c p (by rwa [List.getLast?_cons_cons])
      · exact fun c hc => hinit c (List.mem_cons_of_mem _ hc)

/-! ### Edits -/

theorem Chain.push (h : Chain link P before l after) (hnew : P' a before (l.head?.or after))
    (hhead : ∀ b n, l.head? = some b → P b before n → P' b (link a) n)
    (htail : ∀ b ∈ l.tail, ∀ p n, P b p n → P' b p n) : Chain link P' before (a :: l) after :=
  ⟨hnew, h.rehead hhead htail⟩

theorem Chain.snoc (h : Chain link P before l none) (hnew : P' a (lastLink link before l) none)
    (hlast : ∀ b p, l.getLast? = some b → P b p none → P' b p (some a))
    (hinit : ∀ b ∈ l.dropLast, ∀ p n, P b p n → P' b p n) :
    Chain link P' before (l ++ [a]) none := by
  rw [chain_append]
  constructor
  · exact h.retail hlast hinit
  · exact ⟨hnew, trivial⟩

theorem Chain.mid (h : Chain link P before (l₁ ++ a :: l₂) after) :
    P a (lastLink link before l₁) (l₂.head?.or after) :=
  (chain_append.mp h).2.1

theorem Chain.erase (h : Chain link P before (l₁ ++ a :: l₂) after)
    (hlast : ∀ b p, l₁.getLast? = some b → P b p (some a) → P' b p (l₂.head?.or after))
    (hinit : ∀ b ∈ l₁.dropLast, ∀ p n, P b p n → P' b p n)
    (hhead : ∀ b n, l₂.head? = some b → P b (link a) n → P' b (lastLink link before l₁) n)
    (htail : ∀ b ∈ l₂.tail, ∀ p n, P b p n → P' b p n) :
    Chain link P' before (l₁ ++ l₂) after := by
  obtain ⟨h₁, -, h₂⟩ := chain_append.mp h
  rw [chain_append]
  constructor
  · exact h₁.retail hlast hinit
  · exact h₂.rehead hhead htail

/-! ### Following the links -/

/-- What is met from `p` on, `fuel` places at most. -/
def walk {γ : Type} (next : γ → Option γ) : ℕ → Option γ → List γ
  | 0, _ => []
  | _, none => []
  | fuel + 1, some c => c :: walk next fuel (next c)

theorem Chain.walk {γ : Type} {next : γ → Option γ} {f : α → γ}
    (hnext : ∀ a p n, P a p n → next (f a) = n.map f) (h : Chain link P before l none) {fuel : ℕ}
    (hf : l.length ≤ fuel) : walk next fuel (l.head?.map f) = l.map f := by
  induction l generalizing before fuel with
  | nil => cases fuel <;> rfl
  | cons a l ih =>
    cases fuel with
    | zero => exact absurd hf (Nat.not_succ_le_zero _)
    | succ fuel =>
      have hstep := hnext a _ _ h.1
      rw [Option.or_none] at hstep
      simp only [List.head?_cons, Option.map_some, Links.walk, hstep, List.map_cons]
      rw [ih h.2 (Nat.le_of_succ_le_succ hf)]

/-! ### Places in a list without repetition -/

section
variable {γ : Type} {f : α → γ} {b c : α} (hnd : (l.map f).Nodup)
include hnd

theorem ne_head_of_mem_tail (hc : l.head? = some c) (hb : b ∈ l.tail) : f b ≠ f c := by
  cases l with
  | nil => cases hc
  | cons d l =>
    cases hc
    intro he
    exact (List.nodup_cons.mp hnd).1 (he ▸ List.mem_map_of_mem hb)

theorem ne_last_of_mem_dropLast (hc : l.getLast? = some c) (hb : b ∈ l.dropLast) :
    f b ≠ f c := by
  obtain ⟨pre, rfl⟩ := List.getLast?_eq_some_iff.mp hc
  rw [List.dropLast_concat] at hb
  rw [List.map_append] at hnd
  exact (List.nodup_append.mp hnd).2.2 _ (List.mem_map_of_mem hb) _ (List.mem_singleton_self _)

end

end Links
