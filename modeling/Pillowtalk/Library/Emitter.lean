import Mathlib.Data.List.Basic

/-!
# Emitters that may refuse

An emitter takes tokens one by one and answers whether it took them. A token it
refuses leaves the output as it was.
-/

structure Emitter (Token : Type) where
  State : Type
  write : State → Token → State × Bool
  output : State → List Token
  output_taken : ∀ s t, (write s t).2 = true → output (write s t).1 = output s ++ [t]
  output_refused : ∀ s t, (write s t).2 = false → output (write s t).1 = output s

namespace Emitter
variable {Token : Type} (e : Emitter Token)

/-- The caller does not look at the answers. -/
def run (s : e.State) (ts : List Token) : e.State := ts.foldl (fun s t => (e.write s t).1) s

/-- The tokens that are taken. -/
def taken : e.State → List Token → List Token
  | _, [] => []
  | s, t :: ts => if (e.write s t).2 then t :: taken (e.write s t).1 ts else taken (e.write s t).1 ts

def acceptsAll : e.State → List Token → Bool
  | _, [] => true
  | s, t :: ts => (e.write s t).2 && acceptsAll (e.write s t).1 ts

theorem output_run (s : e.State) (ts : List Token) :
    e.output (e.run s ts) = e.output s ++ e.taken s ts := by
  induction ts generalizing s with
  | nil => exact (List.append_nil _).symm
  | cons t ts ih =>
    have hrun : e.run s (t :: ts) = e.run (e.write s t).1 ts := rfl
    rw [hrun, ih, taken]
    split
    · next h => rw [e.output_taken s t h, List.append_assoc, List.singleton_append]
    · next h => rw [e.output_refused s t (Bool.not_eq_true _ ▸ h)]

theorem length_taken_le (s : e.State) (ts : List Token) : (e.taken s ts).length ≤ ts.length := by
  induction ts generalizing s with
  | nil => exact Nat.le_refl _
  | cons t ts ih =>
    have hle := ih (e.write s t).1
    simp only [taken]
    split
    · simp only [List.length_cons]
      omega
    · simp only [List.length_cons]
      omega

theorem taken_of_acceptsAll {s : e.State} {ts : List Token} (h : e.acceptsAll s ts = true) :
    e.taken s ts = ts := by
  induction ts generalizing s with
  | nil => rfl
  | cons t ts ih =>
    simp only [acceptsAll, Bool.and_eq_true] at h
    rw [taken, if_pos h.1, ih h.2]

theorem acceptsAll_of_length_le {s : e.State} {ts : List Token}
    (h : ts.length ≤ (e.taken s ts).length) : e.acceptsAll s ts = true := by
  induction ts generalizing s with
  | nil => rfl
  | cons t ts ih =>
    have hle := e.length_taken_le (e.write s t).1 ts
    simp only [taken] at h
    simp only [acceptsAll, Bool.and_eq_true]
    split at h
    · next ht => exact ⟨ht, ih (Nat.le_of_succ_le_succ h)⟩
    · simp only [List.length_cons] at h
      omega

theorem acceptsAll_append (s : e.State) (ts us : List Token) :
    e.acceptsAll s (ts ++ us) = (e.acceptsAll s ts && e.acceptsAll (e.run s ts) us) := by
  induction ts generalizing s with
  | nil => rfl
  | cons t ts ih =>
    simp only [List.cons_append, acceptsAll, ih, Bool.and_assoc]
    rfl

end Emitter
