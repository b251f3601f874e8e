import Mathlib.Data.List.TakeWhile
import Pillowtalk.Tree

/-!
# Merging trees

`merged` says what an update is for: shared maps are merged, every other shared
key gets the value of the additions. `pt_map_update` computes it as long as the
types of shared keys agree; at the first key of a level where they do not it
leaves that level.
-/

namespace Pillowtalk.Tree

/-! ### The reference merge -/

mutual
/-- The value of a key that holds `e` in `root` and the second argument in the
additions, once merged. -/
def merged : Tree → Tree → Tree
  | .map r, .map a => .map (mergedMembers r a ++ Ordered.lacking r a)
  | _, v => v
def mergedMembers : List (Bytes × Tree) → List (Bytes × Tree) → List (Bytes × Tree)
  | [], _ => []
  | (k, e) :: r, a =>
    (k, match Ordered.get a k with
      | none => e
      | some v => e.merged v) :: mergedMembers r a
end

theorem mergedMembers_eq_map (r a : Members) :
    mergedMembers r a = r.map fun m => (m.1, Ordered.joined merged a m.1 m.2) := by
  induction r with
  | nil => rfl
  | cons m r ih =>
    obtain ⟨k, e⟩ := m
    simp only [mergedMembers, List.map_cons, ih, Ordered.joined]
    cases Ordered.get a k <;> rfl

theorem merged_map (r a : Members) :
    merged (.map r) (.map a) = .map (Ordered.merge merged r a) := by
  rw [merged, mergedMembers_eq_map]
  rfl

theorem merged_of_type_ne {v : Tree} (e : Tree) (h : v.type ≠ some .map) : e.merged v = v := by
  cases v with
  | map a => exact absurd rfl h
  | nil => cases e <;> simp [merged]
  | scalar s => cases e <;> simp [merged]
  | array len es => cases e <;> simp [merged]

/-- At every key that two trees share, at the top and below shared maps, the
values have the same type. -/
inductive Compatible : Tree → Tree → Prop where
  | leaf {e v : Tree} (ht : e.type = v.type) (hm : e.type ≠ some .map) : Compatible e v
  | map {r a : List (Bytes × Tree)} (h : ∀ k e v, Ordered.get r k = some e →
      Ordered.get a k = some v → Compatible e v) : Compatible (.map r) (.map a)

theorem Compatible.type_eq {e v : Tree} (h : e.Compatible v) : e.type = v.type := by
  cases h with
  | leaf ht hm => exact ht
  | map h => rfl

theorem Compatible.shared {r a : Members} (h : Compatible (.map r) (.map a)) {k : Bytes}
    {e v : Tree} (he : Ordered.get r k = some e) (hv : Ordered.get a k = some v) :
    e.Compatible v := by
  cases h with
  | leaf ht hm => exact absurd rfl hm
  | map h => exact h k e v he hv

/-- Some key path through maps of both ends in a key where the types differ. -/
inductive Conflict : Members → Members → Prop where
  | here {r a : Members} {k : Bytes} {e v : Tree} (he : Ordered.get r k = some e)
      (hv : Ordered.get a k = some v) (ht : e.type ≠ v.type) : Conflict r a
  | deeper {r a r' a' : Members} {k : Bytes} (he : Ordered.get r k = some (.map r'))
      (hv : Ordered.get a k = some (.map a')) (h : Conflict r' a') : Conflict r a

/-- Such a key at the top level. -/
def TopConflict (r a : Members) : Prop :=
  ∃ k e v, Ordered.get r k = some e ∧ Ordered.get a k = some v ∧ e.type ≠ v.type

theorem TopConflict.conflict {r a : Members} (h : TopConflict r a) : Conflict r a := by
  obtain ⟨k, e, v, he, hv, ht⟩ := h
  exact .here he hv ht

theorem Compatible.not_conflict {r a : Members} (hc : Conflict r a) :
    ¬Compatible (.map r) (.map a) := by
  induction hc with
  | here he hv ht => exact fun h => ht (h.shared he hv).type_eq
  | deeper he hv _ ih => exact fun h => ih (h.shared he hv)

theorem Built.get {ms : Members} (h : Built (.map ms)) {k : Bytes} {e : Tree}
    (he : Ordered.get ms k = some e) : e.Built :=
  h.members.2.2.2 (k, e) (Ordered.mem_of_get he)

/-! ### What an update computes -/

/-- The value of a shared key whose types agree. -/
def updated (e v : Tree) : Tree := if v.type = some .map then (e.update v).1 else v

/-- Whether `root` lacks the key of a member, or has it with the same type. -/
def agrees (r : Members) (m : Bytes × Tree) : Bool :=
  match Ordered.get r m.1 with
  | none => true
  | some e => decide (e.type = m.2.type)

theorem agrees_of_get {r : Members} {m : Bytes × Tree} {e : Tree}
    (h : Ordered.get r m.1 = some e) : agrees r m = decide (e.type = m.2.type) := by
  simp only [agrees, h]

/-- The additions up to the first one that does not agree. -/
def agreeing (r a : Members) : Members := a.takeWhile (agrees r)

theorem update_map_type (e a : Members) : ∃ r, (update (.map e) (.map a)).1 = .map r := by
  simp only [update]
  exact ⟨_, rfl⟩

theorem updated_map (e : Tree) (a : Members) :
    updated e (.map a) = (e.update (.map a)).1 := if_pos rfl

theorem updated_of_type_ne {v : Tree} (e : Tree) (h : v.type ≠ some .map) : updated e v = v :=
  if_neg h

theorem updated_ne_nil {e v : Tree} (he : e.type = v.type) (hv : v ≠ .nil) :
    updated e v ≠ .nil := by
  simp only [updated]
  split
  · next hm =>
    obtain ⟨a, rfl⟩ := type_eq_map.mp hm
    obtain ⟨r, rfl⟩ := type_eq_map.mp he
    obtain ⟨r', hr'⟩ := update_map_type r a
    rw [hr']
    exact fun h => by cases h
  · exact hv

theorem lookup_type_none {r : Members} (hr : ∀ k e, Ordered.get r k = some e → e ≠ .nil)
    (k : Bytes) : (lookup r k).type = none ↔ Ordered.get r k = none := by
  rw [type_eq_none, lookup]
  cases hg : Ordered.get r k with
  | none => simp
  | some e => simpa using hr k e hg

theorem all_congr {α : Type} {p q : α → Bool} {l : List α} (h : ∀ x ∈ l, p x = q x) :
    l.all p = l.all q := by
  rw [Bool.eq_iff_iff, List.all_eq_true, List.all_eq_true]
  constructor
  · exact fun hp x hx => h x hx ▸ hp x hx
  · exact fun hq x hx => (h x hx).symm ▸ hq x hx

theorem takeWhile_congr {α : Type} {p q : α → Bool} {l : List α} (h : ∀ x ∈ l, p x = q x) :
    l.takeWhile p = l.takeWhile q := by
  induction l with
  | nil => rfl
  | cons x l ih =>
    rw [List.takeWhile_cons, List.takeWhile_cons, h x (List.mem_cons_self ..),
      ih fun y hy => h y (List.mem_cons_of_mem _ hy)]

theorem updateMembers_cons {r a : Members} {k : Bytes} {v : Tree} (hk : 0 ∉ k) (hv : v ≠ .nil)
    (hb : v.Built) (hr : ∀ k e, Ordered.get r k = some e → e ≠ .nil) :
    updateMembers r ((k, v) :: a) =
      if agrees r (k, v) then updateMembers (Ordered.upsert updated r (k, v)) a else (r, 1) := by
  have hvt : v.type ≠ none := fun h => hv (type_eq_none.mp h)
  have hl := lookup_type_none hr k
  simp only [updateMembers, cstr_of_not_mem hk, clone_of_built hb, if_neg hvt]
  cases hg : Ordered.get r k with
  | none =>
    have hag : agrees r (k, v) = true := by simp only [agrees, hg]
    rw [if_pos (hl.mpr hg), if_pos hag]
    simp only [Ordered.upsert, hg]
  | some e =>
    have hle : lookup r k = e := by simp only [lookup, hg, Option.getD_some]
    have hlt : ¬(lookup r k).type = none := fun h => by
      rw [hl.mp h] at hg
      cases hg
    rw [if_neg hlt, hle, agrees_of_get hg]
    by_cases ht : v.type = e.type
    · rw [if_neg fun h => h ht, if_pos (decide_eq_true ht.symm)]
      simp only [Ordered.upsert, hg, updated]
      split <;> rfl
    · rw [if_pos ht, if_neg fun h => ht (of_decide_eq_true h).symm]

/-- An addition under another key does not see what has just been stored. -/
theorem agrees_upsert {r a : Members} {k : Bytes} (v : Tree) (hk : k ∉ Ordered.keys a)
    (m : Bytes × Tree) (hm : m ∈ a) : agrees (Ordered.upsert updated r (k, v)) m = agrees r m := by
  have hkm : k ≠ m.1 := fun he => hk (he ▸ List.mem_map.mpr ⟨m, hm, rfl⟩)
  simp only [agrees, Ordered.upsert]
  cases Ordered.get r k <;> simp only [Ordered.get_set, if_neg hkm]

theorem get_upsert_ne_nil {r : Members} {k : Bytes} {v : Tree} (hv : v ≠ .nil)
    (hag : agrees r (k, v) = true) (hr : ∀ k e, Ordered.get r k = some e → e ≠ .nil) (k' : Bytes)
    (x : Tree) (hx : Ordered.get (Ordered.upsert updated r (k, v)) k' = some x) : x ≠ .nil := by
  have hset : ∀ y : Tree, y ≠ .nil → Ordered.get (Ordered.set r k y) k' = some x → x ≠ .nil := by
    intro y hy hget
    rw [Ordered.get_set] at hget
    split at hget
    · cases hget
      exact hy
    · exact hr k' x hget
  simp only [Ordered.upsert] at hx
  cases hg : Ordered.get r k with
  | none =>
    rw [hg] at hx
    exact hset v hv hx
  | some e =>
    rw [hg] at hx
    rw [agrees_of_get hg] at hag
    exact hset _ (updated_ne_nil (of_decide_eq_true hag) hv) hx

/-- The loop stores the agreeing additions, one by one. -/
theorem updateMembers_eq_foldl {r a : Members} (ha : Built (.map a))
    (hr : ∀ k e, Ordered.get r k = some e → e ≠ .nil) :
    updateMembers r a =
      ((agreeing r a).foldl (Ordered.upsert updated) r, if a.all (agrees r) then 0 else 1) := by
  induction a generalizing r with
  | nil => rfl
  | cons m a ih =>
    obtain ⟨k, v⟩ := m
    obtain ⟨hd, hk, hv, hb⟩ := ha.members
    have hne : v ≠ .nil := hv (k, v) (List.mem_cons_self ..)
    obtain ⟨hnew, hd'⟩ : k ∉ Ordered.keys a ∧ (Ordered.keys a).Nodup := List.nodup_cons.mp hd
    have ha' : Built (.map a) := built_map hd' (fun n hn => hk n (List.mem_cons_of_mem _ hn))
      (fun n hn => hv n (List.mem_cons_of_mem _ hn)) fun n hn => hb n (List.mem_cons_of_mem _ hn)
    rw [updateMembers_cons (hk (k, v) (List.mem_cons_self ..)) hne
      (hb (k, v) (List.mem_cons_self ..)) hr]
    by_cases hag : agrees r (k, v) = true
    · have hlater := agrees_upsert (r := r) v hnew
      have hall : a.all (agrees (Ordered.upsert updated r (k, v))) = a.all (agrees r) :=
        all_congr hlater
      rw [if_pos hag, ih ha' (get_upsert_ne_nil hne hag hr), hall, List.all_cons, hag,
        Bool.true_and, agreeing, takeWhile_congr hlater, agreeing,
        List.takeWhile_cons_of_pos hag, List.foldl_cons]
    · have hall : ((k, v) :: a).all (agrees r) = false := by
        rw [List.all_cons, Bool.eq_false_iff.mpr hag, Bool.false_and]
      rw [if_neg hag, hall, agreeing, List.takeWhile_cons_of_neg hag]
      rfl

theorem keys_agreeing_nodup {r a : Members} (ha : (Ordered.keys a).Nodup) :
    (Ordered.keys (agreeing r a)).Nodup :=
  ha.sublist ((List.takeWhile_prefix _).sublist.map _)

/-- An update merges the agreeing additions. -/
theorem update_of_built {r a : Members} (hd : (Ordered.keys r).Nodup)
    (hr : ∀ k e, Ordered.get r k = some e → e ≠ .nil) (ha : Built (.map a)) :
    update (.map r) (.map a) =
      (.map (Ordered.merge updated r (agreeing r a)), if a.all (agrees r) then 0 else 1) := by
  simp only [update]
  rw [updateMembers_eq_foldl ha hr,
    Ordered.foldl_upsert updated hd _ (keys_agreeing_nodup ha.members.1)]

theorem Built.get_ne_nil {r : Members} (hr : Built (.map r)) {k : Bytes} {e : Tree}
    (he : Ordered.get r k = some e) : e ≠ .nil :=
  hr.members.2.2.1 (k, e) (Ordered.mem_of_get he)

theorem update_eq_merge {r a : Members} (hr : Built (.map r)) (ha : Built (.map a)) :
    update (.map r) (.map a) =
      (.map (Ordered.merge updated r (agreeing r a)), if a.all (agrees r) then 0 else 1) :=
  update_of_built hr.members.1 (fun _ _ he => hr.get_ne_nil he) ha

/-! ### Compatible trees: the reference merge -/

theorem all_agree_iff {r a : Members} (ha : (Ordered.keys a).Nodup) :
    a.all (agrees r) = true ↔ ¬TopConflict r a := by
  rw [List.all_eq_true]
  constructor
  · rintro h ⟨k, e, v, he, hv, ht⟩
    have hag := h (k, v) (Ordered.mem_of_get hv)
    rw [agrees_of_get he] at hag
    exact ht (of_decide_eq_true hag)
  · intro h m hm
    cases hg : Ordered.get r m.1 with
    | none => simp only [agrees, hg]
    | some e =>
      rw [agrees_of_get hg]
      refine decide_eq_true ?_
      by_contra hne
      exact h ⟨m.1, e, m.2, hg, Ordered.get_of_mem ha hm, hne⟩

theorem agreeing_eq_self {r a : Members} (h : a.all (agrees r) = true) : agreeing r a = a :=
  List.takeWhile_eq_self_iff.mpr (List.all_eq_true.mp h)

theorem Compatible.not_top {r a : Members} (h : Compatible (.map r) (.map a)) :
    ¬TopConflict r a := fun ht => Compatible.not_conflict ht.conflict h

theorem updated_eq_merged {e v : Tree} (hc : e.Compatible v) (he : e.Built) (hv : v.Built) :
    updated e v = e.merged v := by
  induction hc with
  | leaf ht hm =>
    have hvm := ht ▸ hm
    rw [updated_of_type_ne _ hvm, merged_of_type_ne _ hvm]
  | @map r a h ih =>
    have hall := (all_agree_iff hv.members.1).mpr (Compatible.not_top (.map h))
    rw [updated_map, update_eq_merge he hv, agreeing_eq_self hall, merged_map]
    exact congrArg Tree.map (Ordered.merge_congr he.members.1 fun k e' v' he' hv' =>
      ih k e' v' he' hv' (he.get he') (hv.get hv'))

theorem Compatible.map_right {r : Members} {b : Tree} (h : Compatible (.map r) b) :
    ∃ b', b = .map b' := type_eq_map.mp h.type_eq.symm

theorem Compatible.update {r a : Tree} (hc : r.Compatible a) (hm : r.type = some .map)
    (hr : r.Built) (ha : a.Built) : r.update a = (r.merged a, 0) := by
  obtain ⟨r, rfl⟩ := type_eq_map.mp hm
  obtain ⟨a, rfl⟩ := hc.map_right
  have hall := (all_agree_iff ha.members.1).mpr hc.not_top
  have hval := updated_eq_merged hc hr ha
  rw [updated_map] at hval
  rw [← hval, update_eq_merge hr ha, if_pos hall]

end Pillowtalk.Tree
