import Mathlib.Data.List.Induction
import Mathlib.Data.List.Nodup

/-!
# Insertion-ordered dictionaries

A dictionary is a list of members. `set` keeps the place of a key that is
present and appends one that is not; `merge` is what updating member by member
comes to, stated at once.
-/

namespace Ordered
variable {K V : Type} [DecidableEq K]

abbrev Dict (K V : Type) := List (K × V)

def keys (d : Dict K V) : List K := d.map Prod.fst

def get : Dict K V → K → Option V
  | [], _ => none
  | (k', v) :: d, k => if k' = k then some v else get d k

def set : Dict K V → K → V → Dict K V
  | [], k, v => [(k, v)]
  | (k', v') :: d, k, v => if k' = k then (k', v) :: d else (k', v') :: set d k v

def unset : Dict K V → K → Dict K V
  | [], _ => []
  | (k', v') :: d, k => if k' = k then d else (k', v') :: unset d k

/-! ### Lookup -/

@[simp] theorem get_nil (k : K) : get ([] : Dict K V) k = none := rfl

theorem get_cons (m : K × V) (d : Dict K V) (k : K) :
    get (m :: d) k = if m.1 = k then some m.2 else get d k := rfl

theorem get_eq_none_iff {d : Dict K V} {k : K} : get d k = none ↔ k ∉ keys d := by
  induction d with
  | nil => simp [keys]
  | cons m d ih =>
    rw [get_cons]
    by_cases hk : m.1 = k
    · simp [hk, keys]
    · have hne : k ≠ m.1 := fun he => hk he.symm
      simpa [hk, hne, keys] using ih

theorem mem_of_get {d : Dict K V} {k : K} {v : V} (h : get d k = some v) : (k, v) ∈ d := by
  induction d with
  | nil => cases h
  | cons m d ih =>
    rw [get_cons] at h
    split at h
    · next hk =>
      cases h
      subst hk
      exact List.mem_cons_self ..
    · exact List.mem_cons_of_mem _ (ih h)

theorem mem_keys_of_get {d : Dict K V} {k : K} {v : V} (h : get d k = some v) : k ∈ keys d :=
  List.mem_map.mpr ⟨(k, v), mem_of_get h, rfl⟩

theorem get_of_mem {d : Dict K V} (hd : (keys d).Nodup) {k : K} {v : V} (h : (k, v) ∈ d) :
    get d k = some v := by
  induction d with
  | nil => cases h
  | cons m d ih =>
    have hn : m.1 ∉ keys d ∧ (keys d).Nodup := List.nodup_cons.mp hd
    rcases List.mem_cons.mp h with he | hm
    · rw [← he, get_cons, if_pos rfl]
    · have hne : m.1 ≠ k := fun he => hn.1 (he ▸ List.mem_map.mpr ⟨(k, v), hm, rfl⟩)
      rw [get_cons, if_neg hne]
      exact ih hn.2 hm

theorem get_append (d e : Dict K V) (k : K) : get (d ++ e) k = (get d k).or (get e k) := by
  induction d with
  | nil => simp
  | cons m d ih =>
    rw [List.cons_append, get_cons, get_cons]
    split
    · rfl
    · exact ih

theorem get_filter_notMem (d : Dict K V) (ks : List K) (k : K) :
    get (d.filter fun m => m.1 ∉ ks) k = if k ∈ ks then none else get d k := by
  induction d with
  | nil => simp
  | cons m d ih =>
    by_cases hm : m.1 ∈ ks
    · rw [List.filter_cons_of_neg (by simpa using hm), ih, get_cons]
      by_cases hk : k ∈ ks
      · rw [if_pos hk, if_pos hk]
      · have hne : m.1 ≠ k := fun he => hk (he ▸ hm)
        rw [if_neg hk, if_neg hk, if_neg hne]
    · rw [List.filter_cons_of_pos (by simpa using hm), get_cons, get_cons, ih]
      by_cases hk : m.1 = k
      · subst hk
        rw [if_pos rfl, if_neg hm, if_pos rfl]
      · rw [if_neg hk, if_neg hk]

theorem get_mapValues {W : Type} (f : K → V → W) (d : Dict K V) (k : K) :
    get (d.map fun m => (m.1, f m.1 m.2)) k = (get d k).map (f k) := by
  induction d with
  | nil => rfl
  | cons m d ih =>
    rw [List.map_cons, get_cons, get_cons]
    by_cases hk : m.1 = k
    · subst hk
      rw [if_pos rfl, if_pos rfl, Option.map_some]
    · rw [if_neg hk, if_neg hk, ih]

/-! ### Setting and unsetting -/

theorem set_of_not_mem {d : Dict K V} {k : K} (v : V) (h : k ∉ keys d) :
    set d k v = d ++ [(k, v)] := by
  induction d with
  | nil => rfl
  | cons m d ih =>
    have hne : m.1 ≠ k := fun he => h (he ▸ List.mem_cons_self ..)
    have hr : k ∉ keys d := fun hm => h (List.mem_cons_of_mem _ hm)
    simp only [set, if_neg hne, ih hr, List.cons_append]

theorem set_append_cons {pre : Dict K V} {k : K} (v v' : V) (post : Dict K V)
    (h : k ∉ keys pre) : set (pre ++ (k, v) :: post) k v' = pre ++ (k, v') :: post := by
  induction pre with
  | nil => simp [set]
  | cons m pre ih =>
    have hne : m.1 ≠ k := fun he => h (he ▸ List.mem_cons_self ..)
    have hr : k ∉ keys pre := fun hm => h (List.mem_cons_of_mem _ hm)
    simp only [List.cons_append, set, if_neg hne, ih hr]

theorem keys_set_of_mem {d : Dict K V} {k : K} (v : V) (h : k ∈ keys d) :
    keys (set d k v) = keys d := by
  induction d with
  | nil => cases h
  | cons m d ih =>
    simp only [set]
    by_cases hk : m.1 = k
    · simp [hk, keys]
    · have hr : k ∈ keys d := by
        rcases List.mem_cons.mp h with he | hm
        · exact absurd he.symm hk
        · exact hm
      rw [if_neg hk]
      exact congrArg (m.1 :: ·) (ih hr)

theorem keys_set (d : Dict K V) (k : K) (v : V) :
    keys (set d k v) = if k ∈ keys d then keys d else keys d ++ [k] := by
  split
  · next h => exact keys_set_of_mem v h
  · next h =>
    rw [set_of_not_mem v h]
    simp [keys]

theorem nodup_keys_set {d : Dict K V} (hd : (keys d).Nodup) (k : K) (v : V) :
    (keys (set d k v)).Nodup := by
  rw [keys_set]
  split
  · exact hd
  · next h => exact List.nodup_append.mpr ⟨hd, List.nodup_singleton k, by
      intro a ha b hb he
      rw [List.mem_singleton] at hb
      exact h (hb ▸ he ▸ ha)⟩

theorem mem_set {d : Dict K V} {k : K} {v : V} {m : K × V} (h : m ∈ set d k v) :
    m = (k, v) ∨ m ∈ d := by
  induction d with
  | nil => exact Or.inl (List.mem_singleton.mp h)
  | cons n d ih =>
    simp only [set] at h
    split at h
    · next hk =>
      rcases List.mem_cons.mp h with rfl | h
      · exact Or.inl (hk ▸ rfl)
      · exact Or.inr (List.mem_cons_of_mem _ h)
    · rcases List.mem_cons.mp h with rfl | h
      · exact Or.inr (List.mem_cons_self ..)
      · exact (ih h).imp_right (List.mem_cons_of_mem _)

theorem get_set (d : Dict K V) (k k' : K) (v : V) :
    get (set d k v) k' = if k = k' then some v else get d k' := by
  induction d with
  | nil => simp [set, get]
  | cons m d ih =>
    simp only [set]
    by_cases hk : m.1 = k
    · subst hk
      rw [if_pos rfl, get_cons, get_cons]
      split <;> rfl
    · rw [if_neg hk, get_cons, get_cons, ih]
      by_cases hk' : m.1 = k'
      · have hne : ¬k = k' := fun he => hk (hk'.trans he.symm)
        rw [if_pos hk', if_pos hk', if_neg hne]
      · rw [if_neg hk', if_neg hk']

/-- The value of the last entry of a key, in a list that may repeat keys. -/
def lastOf (e : List (K × V)) (k : K) : Option V :=
  ((e.filter fun m => m.1 = k).getLast?).map Prod.snd

theorem get_foldl_set (d : Dict K V) (e : List (K × V)) (k : K) :
    get (e.foldl (fun d m => set d m.1 m.2) d) k = (lastOf e k).or (get d k) := by
  induction e using List.reverseRecOn with
  | nil => rfl
  | append_singleton e m ih =>
    rw [List.foldl_append, List.foldl_cons, List.foldl_nil, get_set, ih]
    by_cases hk : m.1 = k
    · simp [lastOf, hk]
    · simp [lastOf, hk]

theorem unset_of_not_mem {d : Dict K V} {k : K} (h : k ∉ keys d) : unset d k = d := by
  induction d with
  | nil => rfl
  | cons m d ih =>
    have hne : m.1 ≠ k := fun he => h (he ▸ List.mem_cons_self ..)
    have hr : k ∉ keys d := fun hm => h (List.mem_cons_of_mem _ hm)
    simp only [unset, if_neg hne, ih hr]

theorem unset_append_cons {pre : Dict K V} {k : K} (v : V) (post : Dict K V)
    (h : k ∉ keys pre) : unset (pre ++ (k, v) :: post) k = pre ++ post := by
  induction pre with
  | nil => simp [unset]
  | cons m pre ih =>
    have hne : m.1 ≠ k := fun he => h (he ▸ List.mem_cons_self ..)
    have hr : k ∉ keys pre := fun hm => h (List.mem_cons_of_mem _ hm)
    simp only [List.cons_append, unset, if_neg hne, ih hr]

theorem unset_sublist (d : Dict K V) (k : K) : (unset d k).Sublist d := by
  induction d with
  | nil => exact List.Sublist.slnil
  | cons m d ih =>
    simp only [unset]
    split
    · exact List.sublist_cons_self m d
    · exact ih.cons_cons m

theorem nodup_keys_unset {d : Dict K V} (hd : (keys d).Nodup) (k : K) :
    (keys (unset d k)).Nodup := hd.sublist ((unset_sublist d k).map Prod.fst)

theorem get_unset {d : Dict K V} (hd : (keys d).Nodup) (k k' : K) :
    get (unset d k) k' = if k = k' then none else get d k' := by
  induction d with
  | nil => simp [unset]
  | cons m d ih =>
    have hn : m.1 ∉ keys d ∧ (keys d).Nodup := List.nodup_cons.mp hd
    simp only [unset]
    by_cases hk : m.1 = k
    · subst hk
      rw [if_pos rfl, get_cons]
      split
      · next he =>
        subst he
        exact get_eq_none_iff.mpr hn.1
      · rfl
    · rw [if_neg hk, get_cons, get_cons, ih hn.2]
      by_cases hk' : m.1 = k'
      · have hne : ¬k = k' := fun he => hk (hk'.trans he.symm)
        rw [if_pos hk', if_pos hk', if_neg hne]
      · rw [if_neg hk', if_neg hk']

/-! ### Histories -/

inductive Change (K V : Type) where
  | set (k : K) (v : V)
  | unset (k : K)

def Change.apply (d : Dict K V) : Change K V → Dict K V
  | .set k v => Ordered.set d k v
  | .unset k => Ordered.unset d k

/-- The dictionary that a history of changes makes of the empty one. -/
def replay (cs : List (Change K V)) : Dict K V := cs.foldl Change.apply []

def Change.onKey (k : K) (o : Option V) : Change K V → Option V
  | .set k' v => if k' = k then some v else o
  | .unset k' => if k' = k then none else o

/-- The value of the last `set` of a key that no `unset` follows. -/
def latest (cs : List (Change K V)) (k : K) : Option V := cs.foldl (Change.onKey k) none

theorem replay_concat (cs : List (Change K V)) (c : Change K V) :
    replay (cs ++ [c]) = c.apply (replay cs) := by
  simp only [replay, List.foldl_append, List.foldl_cons, List.foldl_nil]

theorem nodup_keys_replay (cs : List (Change K V)) : (keys (replay cs)).Nodup := by
  induction cs using List.reverseRecOn with
  | nil => exact List.nodup_nil
  | append_singleton cs c ih =>
    rw [replay_concat]
    cases c with
    | set k v => exact nodup_keys_set ih k v
    | unset k => exact nodup_keys_unset ih k

/-- The keys are among those that were set. -/
theorem mem_keys_replay {cs : List (Change K V)} {k : K} (h : k ∈ keys (replay cs)) :
    ∃ v, Change.set k v ∈ cs := by
  induction cs using List.reverseRecOn with
  | nil => cases h
  | append_singleton cs c ih =>
    have hold (hk : k ∈ keys (replay cs)) : ∃ v, Change.set k v ∈ cs ++ [c] :=
      (ih hk).imp fun _ hv => List.mem_append_left _ hv
    rw [replay_concat] at h
    cases c with
    | set k' v =>
      obtain ⟨m, hm, rfl⟩ := List.mem_map.mp h
      rcases mem_set hm with rfl | hm
      · exact ⟨v, List.mem_append_right _ (List.mem_singleton_self _)⟩
      · exact hold (List.mem_map_of_mem hm)
    | unset k' => exact hold (((unset_sublist _ k').map Prod.fst).subset h)

theorem get_replay (cs : List (Change K V)) (k : K) : get (replay cs) k = latest cs k := by
  induction cs using List.reverseRecOn with
  | nil => rfl
  | append_singleton cs c ih =>
    have hlatest : latest (cs ++ [c]) k = c.onKey k (latest cs k) := by
      simp only [latest, List.foldl_append, List.foldl_cons, List.foldl_nil]
    rw [replay_concat, hlatest, ← ih]
    cases c with
    | set k' v => exact get_set (replay cs) k' k v
    | unset k' => exact get_unset (nodup_keys_replay cs) k' k

/-! ### Merging -/

def joined (f : V → V → V) (a : Dict K V) (k : K) (e : V) : V :=
  match get a k with
  | none => e
  | some v => f e v

/-- The members of `a` whose key `r` lacks. -/
def lacking (r a : Dict K V) : Dict K V := a.filter fun m => m.1 ∉ keys r

/-- The members of `r` come first and keep their order, a shared key with the
two values combined by `f`; then the members of `a` whose key `r` lacks. -/
def merge (f : V → V → V) (r a : Dict K V) : Dict K V :=
  (r.map fun m => (m.1, joined f a m.1 m.2)) ++ lacking r a

/-- One member of the second dictionary. -/
def upsert (f : V → V → V) (d : Dict K V) (m : K × V) : Dict K V :=
  match get d m.1 with
  | none => set d m.1 m.2
  | some e => set d m.1 (f e m.2)

theorem joined_concat_ne (f : V → V → V) (a : Dict K V) (m : K × V) {k : K} (e : V)
    (h : m.1 ≠ k) : joined f (a ++ [m]) k e = joined f a k e := by
  simp only [joined, get_append, get_cons, if_neg h, get_nil, Option.or_none]

@[simp] theorem merge_nil (f : V → V → V) (r : Dict K V) : merge f r [] = r := by
  simp [merge, joined, lacking]

theorem keys_merge (f : V → V → V) (r a : Dict K V) :
    keys (merge f r a) = keys r ++ (keys a).filter fun k => k ∉ keys r := by
  simp only [keys, merge, lacking, List.map_append, List.map_map, Function.comp_def,
    List.filter_map]

theorem get_merge (f : V → V → V) (r a : Dict K V) (k : K) :
    get (merge f r a) k = match get r k, get a k with
      | some e, some v => some (f e v)
      | some e, none => some e
      | none, w => w := by
  rw [merge, lacking, get_append, get_mapValues (joined f a), get_filter_notMem]
  cases hr : get r k with
  | none =>
    have hn := get_eq_none_iff.mp hr
    simp [hn]
  | some e => cases ha : get a k <;> simp [joined, ha]

theorem merge_congr {f g : V → V → V} {r a : Dict K V} (hr : (keys r).Nodup)
    (h : ∀ k e v, get r k = some e → get a k = some v → f e v = g e v) :
    merge f r a = merge g r a := by
  have hmap : (r.map fun m => (m.1, joined f a m.1 m.2)) =
      r.map fun m => (m.1, joined g a m.1 m.2) := by
    apply List.map_congr_left
    intro m hm
    have hget : get r m.1 = some m.2 := get_of_mem hr hm
    simp only [joined]
    cases ha : get a m.1 with
    | none => rfl
    | some v => exact Prod.ext rfl (h m.1 m.2 v hget ha)
  rw [merge, merge, hmap]

theorem merge_concat (f : V → V → V) {r a : Dict K V} (hr : (keys r).Nodup) (m : K × V)
    (hm : m.1 ∉ keys a) : merge f r (a ++ [m]) = upsert f (merge f r a) m := by
  have hget : get a m.1 = none := get_eq_none_iff.mpr hm
  simp only [upsert]
  rw [get_merge, hget]
  cases he : get r m.1 with
  | none =>
    have hn : m.1 ∉ keys r := get_eq_none_iff.mp he
    have hmerged : m.1 ∉ keys (merge f r a) := by
      rw [keys_merge]
      intro h
      rcases List.mem_append.mp h with h | h
      · exact hn h
      · exact hm (List.mem_filter.mp h).1
    show _ = set (merge f r a) m.1 m.2
    rw [set_of_not_mem m.2 hmerged]
    have hold : (r.map fun x => (x.1, joined f (a ++ [m]) x.1 x.2)) =
        r.map fun x => (x.1, joined f a x.1 x.2) := by
      apply List.map_congr_left
      intro x hx
      rw [joined_concat_ne]
      exact fun h => hn (h ▸ List.mem_map.mpr ⟨x, hx, rfl⟩)
    simp only [merge, lacking, List.filter_append, hold, List.append_assoc]
    simp [hn]
  | some e =>
    obtain ⟨pre, post, hsplit⟩ := List.append_of_mem (mem_of_get he)
    have hkeys : keys r = keys pre ++ m.1 :: keys post := by
      rw [hsplit, keys, List.map_append, List.map_cons]
      rfl
    rw [hkeys] at hr
    obtain ⟨-, hcons, hdis⟩ := List.nodup_append.mp hr
    have hpre : m.1 ∉ keys pre := fun h => hdis _ h _ (List.mem_cons_self ..) rfl
    have hpost : m.1 ∉ keys post := (List.nodup_cons.mp hcons).1
    have hold : ∀ d : Dict K V, m.1 ∉ keys d →
        (d.map fun x => (x.1, joined f (a ++ [m]) x.1 x.2)) =
          d.map fun x => (x.1, joined f a x.1 x.2) := by
      intro d hd
      apply List.map_congr_left
      intro x hx
      rw [joined_concat_ne]
      exact fun h => hd (h ▸ List.mem_map.mpr ⟨x, hx, rfl⟩)
    have hkey : m.1 ∈ keys r := mem_keys_of_get he
    have hfilter : ((a ++ [m]).filter fun x => x.1 ∉ keys r) = a.filter fun x => x.1 ∉ keys r := by
      rw [List.filter_append]
      simp [hkey]
    have hmid : joined f a m.1 e = e := by simp only [joined, hget]
    have hnew : joined f (a ++ [m]) m.1 e = f e m.2 := by simp [joined, get_append, hget, get]
    show _ = set (merge f r a) m.1 (f e m.2)
    simp only [merge, lacking, hfilter]
    rw [hsplit]
    simp only [List.map_append, List.map_cons, hold pre hpre, hold post hpost, hmid, hnew,
      List.append_assoc, List.cons_append]
    rw [set_append_cons]
    intro h
    simp only [keys, List.map_map, Function.comp_def] at h
    exact hpre h

/-- Updating member by member is merging. -/
theorem foldl_upsert (f : V → V → V) {r : Dict K V} (hr : (keys r).Nodup) (a : Dict K V)
    (ha : (keys a).Nodup) : a.foldl (upsert f) r = merge f r a := by
  induction a using List.reverseRecOn with
  | nil => simp
  | append_singleton a m ih =>
    simp only [keys, List.map_append, List.map_cons, List.map_nil] at ha
    obtain ⟨had, -, hdis⟩ := List.nodup_append.mp ha
    have hm : m.1 ∉ keys a := fun h => hdis _ h _ (List.mem_singleton_self _) rfl
    rw [List.foldl_append, List.foldl_cons, List.foldl_nil, ih had, merge_concat f hr m hm]

end Ordered
