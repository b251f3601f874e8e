import Pillowtalk.Reachable
import Pillowtalk.Refine

/-!
# Distinct keys in every reachable map

The editors never store a key twice, but `json_map_key` adds a member without
looking for one, so a run keeps keys distinct exactly when no text it parses
repeats a key within an object.
-/

namespace Pillowtalk
open Addressed

section
variable [HashFcn]

/-- What `pt_map_get` finds after `pt_map_unset`, in a map with distinct keys. -/
theorem ptMapGet_ptMapUnset {h : Heap} {a : ℕ} {ms : Located.Members}
    (hl : Located.In h (.map a ms)) (hnd : (Located.map a ms).addrs.Nodup)
    (hd : Tree.Keyed (Located.treeMembers ms)) (k : Bytes) :
    ptMapGet (ptMapUnset h (some a) k) (some a) (some k) = none ∧
      ∀ k', cstr k' ≠ cstr k →
        ptMapGet (ptMapUnset h (some a) k) (some a) (some k') = ptMapGet h (some a) (some k') ∧
          Located.In (ptMapUnset h (some a) k) (Located.lookup ms (cstr k')) := by
  obtain ⟨ms', hl', htree, hother, -⟩ := Located.ptMapUnset_spec hl hnd hd k
  have hsub : Tree.Keyed (Located.treeMembers ms') := by
    rw [htree]
    exact hd.unset (cstr k)
  constructor
  · have hnone : Ordered.get (Located.treeMembers ms') (cstr k) = none := by
      rw [htree, Ordered.get_unset hd.nodup, if_pos rfl]
    rw [Located.ptMapGet_eq hl' hsub,
      Located.lookup_of_not_mem (Ordered.get_eq_none_iff.mp hnone)]
    rfl
  · intro k' hne
    have hsame := hother (cstr k') fun he => hne he.symm
    rw [Located.ptMapGet_eq hl' hsub, Located.ptMapGet_eq hl hd, hsame]
    exact ⟨rfl, hsame ▸ hl'.lookup (cstr k')⟩

/-- In a run that stores no key too long to be found, no map in any state has a key twice
exactly when no parse delivers an object with a repeated key; then `pt_map_unset` removes
its key from every map, and no other. -/
theorem keysDistinct_run_iff (ops : List Op) (hshort : ∀ op ∈ ops, op.ShortKeys) :
    ((∀ n l, Located.In (run (ops.take n)) l → l.tree.KeysDistinct) ↔
      ∀ op ∈ ops, op.Delivers fun ms => (Ordered.keys ms).Nodup) ∧
    ((∀ op ∈ ops, op.Delivers fun ms => (Ordered.keys ms).Nodup) →
      ∀ a ms, Located.In (run ops) (.map a ms) → (Located.map a ms).addrs.Nodup → ∀ k,
        ptMapGet (ptMapUnset (run ops) (some a) k) (some a) (some k) = none ∧
          ∀ k', cstr k' ≠ cstr k →
            ptMapGet (ptMapUnset (run ops) (some a) k) (some a) (some k') =
                ptMapGet (run ops) (some a) (some k') ∧
              Located.In (ptMapUnset (run ops) (some a) k) (Located.lookup ms (cstr k'))) := by
  refine ⟨⟨?_, ?_⟩, ?_⟩
  · -- the state right after a parse holds the tree that was delivered
    intro hall op hop
    cases op with
    | edit e => trivial
    | fromJson doc delivered =>
      intro r hr
      obtain ⟨pre, post, rfl⟩ := List.append_of_mem hop
      have hrun := hall (pre.length + 1)
      rw [List.take_length_add_append, List.take_succ_cons, List.take_zero, run_concat] at hrun
      obtain ⟨s, l, -, hstep, hp, hl⟩ := step_fromJson (run pre) hr
      rw [hstep] at hrun
      exact hl ▸ hrun l hp.within
  · intro hops n l hl
    have hd : Memory.Every Node.DistinctKeys (run (ops.take n)) :=
      run_distinctKeys fun op hop => hops op (List.mem_of_mem_take hop)
    have hs : Memory.Every Node.ShortKeys (run (ops.take n)) :=
      run_shortKeys fun op hop => hshort op (List.mem_of_mem_take hop)
    exact (hl.searchable hd (hl.shortKeys hs)).distinct
  · intro hops a ms hl hnd k
    have hd := hl.searchable (run_distinctKeys hops) (hl.shortKeys (run_shortKeys hshort))
    exact ptMapGet_ptMapUnset hl hnd hd.members.1 k

end

/-- `{"a":1,"a":2}`. -/
def repeatedKey : Json :=
  .object [([97], .literal (.integer 1)), ([97], .literal (.integer 2))]

section
local instance repeatedKeyFcn : HashFcn := hashMurFcn

theorem repeatedKey_in : Located.In (run [.fromJson repeatedKey 6])
    (.map 0 [(keyHandle 1 [97], .scalar 2 (.integer 1)),
      (keyHandle 3 [97], .scalar 4 (.integer 2))]) := by
  refine .map rfl rfl ?_ ?_
  · intro m hm
    simp only [List.mem_cons, List.not_mem_nil, or_false] at hm
    rcases hm with rfl | rfl <;> rfl
  · intro m hm
    simp only [List.mem_cons, List.not_mem_nil, or_false] at hm
    rcases hm with rfl | rfl
    · exact .scalar rfl
    · exact .scalar rfl

/-- `{"a":1}` is read, and `"b"` is set in what was read. -/
theorem keysDistinct_read_and_set :
    let ops := [Op.fromJson (.object [([97], .literal (.integer 1))]) 4, .edit (.integerNew 2),
      .edit (.mapSet (some 0) (some [98]) (some 3))]
    ∀ n l, Located.In (run (ops.take n)) l → l.tree.KeysDistinct := by
  intro ops
  have hread : ∀ {D : Tree.Members → Prop}, D [([97], .scalar (.integer 1))] →
      (Op.fromJson (.object [([97], .literal (.integer 1))]) 4).Delivers D := by
    intro D hD
    refine Op.delivers_of (.finished (.object [([97], .literal (.integer 1))])) rfl
      (.map hD fun m hm => ?_)
    rw [List.mem_singleton.mp hm]
    exact .scalar _
  refine (keysDistinct_run_iff ops fun op hop => ?_).1.mpr fun op hop => ?_
  · simp only [ops, List.mem_cons, List.not_mem_nil, or_false] at hop
    rcases hop with rfl | rfl | rfl
    · exact hread (by decide)
    · trivial
    · rintro k ⟨⟩
      decide
  · simp only [ops, List.mem_cons, List.not_mem_nil, or_false] at hop
    rcases hop with rfl | rfl | rfl
    · exact hread (by decide)
    · trivial
    · trivial

end

theorem keysDistinct_fails : ¬∀ [HashFcn] (ops : List Op) (l : Located),
    Located.In (run ops) l → l.tree.KeysDistinct := by
  intro hall
  have hd := @hall hashMurFcn _ _ repeatedKey_in
  cases hd with
  | map hd _ => exact absurd hd (by decide)

end Pillowtalk
