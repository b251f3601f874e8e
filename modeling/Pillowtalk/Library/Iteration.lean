import Mathlib.Data.List.Basic

/-!
# Iteration

An iterator is a state with a function `next` that answers a call and moves on.
A caller who drains it stops at the first answer that means the end (`fin`).
Whether all has been answered by then depends on what the iterator walks over.
-/

namespace Iteration
variable {State Answer : Type}

/-- The answers to `n` calls. -/
def answers (next : State → State × Answer) : ℕ → State → List Answer
  | 0, _ => []
  | n + 1, s => (next s).2 :: answers next n (next s).1

/-- Calls up to the first answer that means the end: the answers before it, and
the state after it. -/
inductive Drains (next : State → State × Answer) (fin : Answer → Prop) :
    State → List Answer → State → Prop where
  | stop {s : State} (h : fin (next s).2) : Drains next fin s [] (next s).1
  | more {s s' : State} {out : List Answer} (h : ¬fin (next s).2)
      (hrest : Drains next fin (next s).1 out s') : Drains next fin s ((next s).2 :: out) s'

/-- Every further call is answered with the end. -/
def Ended (next : State → State × Answer) (fin : Answer → Prop) (s : State) : Prop :=
  ∀ n, ∀ r ∈ answers next n s, fin r

/-- `next` answers with what stands first in `view`, and with the end after that. -/
structure Walks (next : State → State × Answer) (fin : Answer → Prop)
    (view : State → List Answer) : Prop where
  empty : ∀ s, view s = [] → fin (next s).2 ∧ view (next s).1 = []
  more : ∀ s r rs, view s = r :: rs → (next s).2 = r ∧ view (next s).1 = rs

variable {next : State → State × Answer} {fin : Answer → Prop}

theorem Drains.not_fin {s s' : State} {out : List Answer} (hd : Drains next fin s out s') :
    ∀ r ∈ out, ¬fin r := by
  induction hd with
  | stop h => exact fun r hr => absurd hr List.not_mem_nil
  | more h hrest ih =>
    intro r hr
    rcases List.mem_cons.mp hr with rfl | hr
    · exact h
    · exact ih r hr

namespace Walks
variable {view : State → List Answer}

theorem answers_eq (hw : Walks next fin view) (n : ℕ) (s : State) (hn : n ≤ (view s).length) :
    answers next n s = (view s).take n := by
  induction n generalizing s with
  | zero => rfl
  | succ n ih =>
    cases hv : view s with
    | nil =>
      rw [hv] at hn
      cases hn
    | cons r rs =>
      obtain ⟨hr, hrs⟩ := hw.more s r rs hv
      have hlen : n ≤ (view (next s).1).length := by
        rw [hv, List.length_cons] at hn
        rw [hrs]
        omega
      rw [answers, ih _ hlen, hr, hrs, List.take_succ_cons]

theorem ended (hw : Walks next fin view) {s : State} (hs : view s = []) : Ended next fin s := by
  intro n
  induction n generalizing s with
  | zero => exact fun r hr => absurd hr List.not_mem_nil
  | succ n ih =>
    intro r hr
    obtain ⟨hfin, hrest⟩ := hw.empty s hs
    rcases List.mem_cons.mp hr with rfl | hr
    · exact hfin
    · exact ih hrest r hr

/-- Draining gives the whole of `view` exactly when nothing in it looks like the end. -/
theorem drains_iff (hw : Walks next fin view) (s : State) :
    (∃ s', Drains next fin s (view s) s' ∧ Ended next fin s') ↔ ∀ r ∈ view s, ¬fin r := by
  refine ⟨fun ⟨s', hd, _⟩ => hd.not_fin, fun h => ?_⟩
  generalize hv : view s = rs at h ⊢
  induction rs generalizing s with
  | nil =>
    obtain ⟨hfin, hrest⟩ := hw.empty s hv
    exact ⟨_, .stop hfin, hw.ended hrest⟩
  | cons r rs ih =>
    obtain ⟨hr, hrs⟩ := hw.more s r rs hv
    obtain ⟨s', hd, hend⟩ := ih _ hrs fun x hx => h x (List.mem_cons_of_mem _ hx)
    have hfirst : ¬fin (next s).2 := by
      rw [hr]
      exact h r (List.mem_cons_self ..)
    refine ⟨s', ?_, hend⟩
    rw [← hr]
    exact .more hfirst hd

end Walks
end Iteration
