import Pillowtalk.Library.Ordered
import Pillowtalk.Generate

/-!
# Trees as values

What a `pt_node_t*` stands for, without addresses: `nil` is the `NULL`
pointer. The functions here are the abstract counterparts of the generator, of
`pt_map_set`, `pt_clone` and `pt_map_update`.
-/

namespace Pillowtalk

inductive Tree where
  | nil
  | scalar (v : Scalar)
  | array (len : UInt32) (elems : List Tree)
  | map (members : List (Bytes × Tree))

namespace Tree

abbrev Members := Ordered.Dict Bytes Tree

@[elab_as_elim, induction_eliminator]
theorem ind {motive : Tree → Prop} (nil : motive .nil) (scalar : ∀ v, motive (.scalar v))
    (array : ∀ len es, (∀ e ∈ es, motive e) → motive (.array len es))
    (map : ∀ ms, (∀ m ∈ ms, motive m.2) → motive (.map ms)) : ∀ t, motive t
  | .nil => nil
  | .scalar v => scalar v
  | .array len es => array len es fun e _ => ind nil scalar array map e
  | .map ms => map ms fun m _ => ind nil scalar array map m.2
termination_by t => sizeOf t
decreasing_by
  · have hlt := List.sizeOf_lt_of_mem ‹e ∈ es›
    simp only [Tree.array.sizeOf_spec]
    omega
  · have hlt := List.sizeOf_lt_of_mem ‹m ∈ ms›
    obtain ⟨k, v⟩ := m
    simp only [Prod.mk.sizeOf_spec, Tree.map.sizeOf_spec] at hlt ⊢
    omega

def type : Tree → Option PtType
  | .nil => none
  | .scalar v => some v.type
  | .array _ _ => some .array
  | .map _ => some .map

theorem type_eq_none {t : Tree} : t.type = none ↔ t = .nil := by
  cases t <;> simp [type]

theorem type_eq_map {t : Tree} : t.type = some .map ↔ ∃ ms, t = .map ms := by
  cases t with
  | nil => simp [type]
  | scalar v => cases v <;> simp [type, Scalar.type]
  | array len es => simp [type]
  | map ms => simp [type]

/-! ### Generation -/

mutual
def calls : Tree → List GenCall
  | .nil => [.null]
  | .scalar v => [generateScalar v]
  | .array _ es => .arrayOpen :: (callsElems es ++ [.arrayClose])
  | .map ms => .mapOpen :: (callsMembers ms ++ [.mapClose])
def callsElems : List Tree → List GenCall
  | [] => []
  | e :: es => e.calls ++ callsElems es
def callsMembers : List (Bytes × Tree) → List GenCall
  | [] => []
  | (k, v) :: ms => .string (cstr k) :: (v.calls ++ callsMembers ms)
end

/-- The value `pt_map_get` returns. -/
def lookup (ms : Members) (k : Bytes) : Tree := (Ordered.get ms k).getD .nil

/-- `pt_map_set`, which refuses a `NULL` value. -/
def setMember (ms : Members) (k : Bytes) : Tree → Members
  | .nil => ms
  | v => Ordered.set ms k v

theorem setMember_of_ne {v : Tree} (h : v ≠ .nil) (ms : Members) (k : Bytes) :
    setMember ms k v = Ordered.set ms k v := by
  cases v with
  | nil => exact absurd rfl h
  | scalar v => rfl
  | array len es => rfl
  | map ms => rfl

end Tree

def cloneValue : Scalar → Scalar
  | .string value => .string (cstr value)
  | v => v

namespace Tree

mutual
def clone : Tree → Tree
  | .nil => .nil
  | .scalar v => .scalar (cloneValue v)
  | .array _ es => .array (UInt32.ofNat es.length) (cloneElems es)
  | .map ms => .map (cloneMembers [] ms)
def cloneElems : List Tree → List Tree
  | [] => []
  | e :: es => e.clone :: cloneElems es
def cloneMembers (acc : List (Bytes × Tree)) : List (Bytes × Tree) → List (Bytes × Tree)
  | [] => acc
  | (k, v) :: ms => cloneMembers (setMember acc (cstr k) v.clone) ms
end

theorem cloneElems_eq_map (es : List Tree) : cloneElems es = es.map clone := by
  induction es with
  | nil => rfl
  | cons e es ih => simp only [cloneElems, List.map_cons, ih]

theorem clone_eq_nil {t : Tree} : t.clone = .nil ↔ t = .nil := by
  cases t <;> simp [clone]

mutual
def update (root : Tree) : Tree → Tree × Int32
  | .map a => match root with
    | .map r => (.map (updateMembers r a).1, (updateMembers r a).2)
    | _ => (root, 1)
  | _ => (root, 1)
def updateMembers (r : List (Bytes × Tree)) :
    List (Bytes × Tree) → List (Bytes × Tree) × Int32
  | [] => (r, 0)
  | (k, v) :: rest =>
    if v.type = none then updateMembers r rest
    else if (lookup r (cstr k)).type = none then
      updateMembers (Ordered.set r (cstr k) v.clone) rest
    else if v.type ≠ (lookup r (cstr k)).type then (r, 1)
    else if v.type = some .map then
      updateMembers (Ordered.set r (cstr k) (update (lookup r (cstr k)) v).1) rest
    else updateMembers (Ordered.set r (cstr k) v.clone) rest
end

theorem update_of_not_map {root : Tree} (h : ∀ ms, root ≠ .map ms) (a : Tree) :
    root.update a = (root, 1) := by
  cases a with
  | map a => cases root <;> simp_all [update]
  | nil => simp only [update]
  | scalar v => simp only [update]
  | array len es => simp only [update]

theorem update_of_additions_not_map {a : Tree} (h : ∀ ms, a ≠ .map ms) (root : Tree) :
    root.update a = (root, 1) := by
  cases a with
  | map a => exact absurd rfl (h a)
  | nil => simp only [update]
  | scalar v => simp only [update]
  | array len es => simp only [update]

/-! ### What holds of every map in a tree -/

inductive MapsAll (D : Members → Prop) : Tree → Prop where
  | nil : MapsAll D .nil
  | scalar (v : Scalar) : MapsAll D (.scalar v)
  | array {len : UInt32} {es : List Tree} (h : ∀ e ∈ es, MapsAll D e) : MapsAll D (.array len es)
  | map {ms : List (Bytes × Tree)} (hd : D ms) (h : ∀ m ∈ ms, MapsAll D m.2) :
      MapsAll D (.map ms)

theorem MapsAll.mono {D E : Members → Prop} {t : Tree} (h : t.MapsAll D)
    (hde : ∀ ms, D ms → E ms) : t.MapsAll E := by
  induction h with
  | nil => exact .nil
  | scalar v => exact .scalar v
  | array h ih => exact .array ih
  | map hd h ih => exact .map (hde _ hd) ih

theorem MapsAll.and {D E : Members → Prop} {t : Tree} (h : t.MapsAll D) (h' : t.MapsAll E) :
    t.MapsAll fun ms => D ms ∧ E ms := by
  induction h with
  | nil => exact .nil
  | scalar v => exact .scalar v
  | array _ ih =>
    cases h' with
    | array hes => exact .array fun e he => ih e he (hes e he)
  | map hd _ ih =>
    cases h' with
    | map hd' hms => exact .map ⟨hd, hd'⟩ fun m hm => ih m hm (hms m hm)

theorem MapsAll.members {D : Members → Prop} {ms : Members} (h : (Tree.map ms).MapsAll D) :
    D ms ∧ ∀ m ∈ ms, m.2.MapsAll D := by
  cases h with
  | map hd hms => exact ⟨hd, hms⟩

theorem MapsAll.elem {D : Members → Prop} {len : UInt32} {es : List Tree}
    (h : (Tree.array len es).MapsAll D) : ∀ e ∈ es, e.MapsAll D := by
  cases h with
  | array hes => exact hes

theorem MapsAll.lookup {D : Members → Prop} {ms : Members} (h : (Tree.map ms).MapsAll D)
    (k : Bytes) : (lookup ms k).MapsAll D := by
  cases hg : Ordered.get ms k with
  | none =>
    rw [Tree.lookup, hg]
    exact .nil
  | some e =>
    rw [Tree.lookup, hg]
    exact h.members.2 _ (Ordered.mem_of_get hg)

/-- No map has two members with the same key. -/
def KeysDistinct (t : Tree) : Prop := t.MapsAll fun ms => (Ordered.keys ms).Nodup

/-! ### Keys that a search tells apart -/

def FitKeys (ms : Members) : Prop := ∀ k ∈ Ordered.keys ms, Fits k

instance (ms : Members) : Decidable (FitKeys ms) :=
  inferInstanceAs (Decidable (∀ k ∈ Ordered.keys ms, Fits k))

/-- No key of a map is too long to be found. -/
def ShortKeys (t : Tree) : Prop := t.MapsAll FitKeys

/-- The keys of a map are of a given set. -/
def KeysIn (keys : Set Bytes) (t : Tree) : Prop :=
  t.MapsAll fun ms => ∀ k ∈ Ordered.keys ms, k ∈ keys

structure Keyed (ms : Members) : Prop where
  nodup : (Ordered.keys ms).Nodup
  fit : FitKeys ms

/-- In every map a search for a key finds what is stored under it. -/
def Searchable (t : Tree) : Prop := t.MapsAll Keyed

theorem Searchable.distinct {t : Tree} (h : t.Searchable) : t.KeysDistinct :=
  MapsAll.mono h fun _ hk => hk.nodup

theorem Searchable.short {t : Tree} (h : t.Searchable) : t.ShortKeys :=
  MapsAll.mono h fun _ hk => hk.fit

theorem keysIn_single {keys : Set Bytes} {k : Bytes} {v : Tree} (hk : k ∈ keys)
    (hv : v.KeysIn keys) : (Tree.map [(k, v)]).KeysIn keys := by
  refine .map (fun k' hk' => ?_) fun m hm => ?_
  · rw [List.mem_singleton.mp hk']
    exact hk
  · rw [List.mem_singleton.mp hm]
    exact hv

theorem shortKeys_single {k : Bytes} {v : Tree} (hk : Fits k) (hv : v.ShortKeys) :
    (Tree.map [(k, v)]).ShortKeys := by
  have hkeys : (Tree.map [(k, v)]).KeysIn {k | Fits k} := keysIn_single hk hv
  exact hkeys

theorem fits_cstr {k : Bytes} (h : Fits k) : Fits (cstr k) :=
  lt_of_le_of_lt (List.takeWhile_sublist _).length_le h

theorem keyed_nil : Keyed [] := ⟨List.nodup_nil, fun _ hk => absurd hk List.not_mem_nil⟩

theorem Keyed.set {ms : Members} (h : Keyed ms) {k : Bytes} (hk : Fits k) (v : Tree) :
    Keyed (Ordered.set ms k v) := by
  refine ⟨Ordered.nodup_keys_set h.nodup k v, fun k' hk' => ?_⟩
  obtain ⟨m, hm, rfl⟩ := List.mem_map.mp hk'
  rcases Ordered.mem_set hm with rfl | hm
  · exact hk
  · exact h.fit m.1 (List.mem_map_of_mem hm)

theorem Keyed.setMember {ms : Members} (h : Keyed ms) {k : Bytes} (hk : Fits k) (v : Tree) :
    Keyed (setMember ms k v) := by
  by_cases hne : v = .nil
  · subst hne
    exact h
  · rw [setMember_of_ne hne]
    exact h.set hk v

theorem Keyed.unset {ms : Members} (h : Keyed ms) (k : Bytes) : Keyed (Ordered.unset ms k) :=
  ⟨Ordered.nodup_keys_unset h.nodup k,
    fun k' hk' => h.fit k' (((Ordered.unset_sublist ms k).map Prod.fst).subset hk')⟩

theorem Searchable.set {ms : Members} (h : (Tree.map ms).Searchable) {k : Bytes} (hk : Fits k)
    {v : Tree} (hv : v.Searchable) : (Tree.map (Ordered.set ms k v)).Searchable := by
  refine .map (h.members.1.set hk v) fun m hm => ?_
  rcases Ordered.mem_set hm with rfl | hm
  · exact hv
  · exact h.members.2 m hm

theorem Searchable.setMember {ms : Members} (h : (Tree.map ms).Searchable) {k : Bytes}
    (hk : Fits k) {v : Tree} (hv : v.Searchable) : (Tree.map (setMember ms k v)).Searchable := by
  by_cases hne : v = .nil
  · subst hne
    exact h
  · rw [setMember_of_ne hne]
    exact h.set hk hv

theorem searchable_cloneMembers {acc ms : Members} (hacc : (Tree.map acc).Searchable)
    (hk : FitKeys ms) (hv : ∀ m ∈ ms, m.2.clone.Searchable) :
    (Tree.map (cloneMembers acc ms)).Searchable := by
  induction ms generalizing acc with
  | nil =>
    rw [cloneMembers]
    exact hacc
  | cons m ms ih =>
    obtain ⟨k, v⟩ := m
    have hfit : Fits k := hk k (List.mem_cons_self ..)
    rw [cloneMembers]
    exact ih (hacc.setMember (fits_cstr hfit) (hv _ (List.mem_cons_self ..)))
      (fun k' hk' => hk k' (List.mem_cons_of_mem _ hk'))
      fun m hm => hv m (List.mem_cons_of_mem _ hm)

/-- A clone repeats no key, whatever the original does. -/
theorem ShortKeys.clone {t : Tree} (h : t.ShortKeys) : t.clone.Searchable := by
  induction h with
  | nil =>
    rw [Tree.clone]
    exact .nil
  | scalar v =>
    rw [Tree.clone]
    exact .scalar _
  | array h ih =>
    rw [Tree.clone, cloneElems_eq_map]
    refine .array fun e he => ?_
    obtain ⟨e', hmem, rfl⟩ := List.mem_map.mp he
    exact ih e' hmem
  | map hd h ih =>
    rw [Tree.clone]
    exact searchable_cloneMembers (.map keyed_nil fun m hm => absurd hm List.not_mem_nil) hd ih

theorem searchable_updateMembers {r a : Members} (hr : (Tree.map r).Searchable)
    (ha : (Tree.map a).ShortKeys)
    (hu : ∀ m ∈ a, ∀ e : Tree, e.Searchable → (e.update m.2).1.Searchable) :
    (Tree.map (updateMembers r a).1).Searchable := by
  induction a generalizing r with
  | nil =>
    rw [updateMembers]
    exact hr
  | cons m a ih =>
    obtain ⟨k, v⟩ := m
    obtain ⟨hkeys, hvals⟩ := ha.members
    have hk : Fits (cstr k) := fits_cstr (hkeys k (List.mem_cons_self ..))
    have hv : v.ShortKeys := hvals _ (List.mem_cons_self ..)
    have hrest : ∀ {r : Members}, (Tree.map r).Searchable →
        (Tree.map (updateMembers r a).1).Searchable := fun hr =>
      ih hr (.map (fun k' hk' => hkeys k' (List.mem_cons_of_mem _ hk'))
        fun m hm => hvals m (List.mem_cons_of_mem _ hm))
        fun m hm => hu m (List.mem_cons_of_mem _ hm)
    rw [updateMembers]
    split_ifs
    · exact hrest hr
    · exact hrest (hr.set hk hv.clone)
    · exact hr
    · exact hrest (hr.set hk (hu _ (List.mem_cons_self ..) _ (hr.lookup _)))
    · exact hrest (hr.set hk hv.clone)

theorem Searchable.update {r : Tree} (hr : r.Searchable) {a : Tree} (ha : a.ShortKeys) :
    (r.update a).1.Searchable := by
  induction a generalizing r with
  | nil =>
    rw [update_of_additions_not_map (by simp)]
    exact hr
  | scalar v =>
    rw [update_of_additions_not_map (by simp)]
    exact hr
  | array len es ih =>
    rw [update_of_additions_not_map (by simp)]
    exact hr
  | map a ih =>
    by_cases hm : ∃ ms, r = .map ms
    · obtain ⟨ms, rfl⟩ := hm
      simp only [Tree.update]
      exact searchable_updateMembers hr ha fun m hm e he => ih m hm he (ha.members.2 m hm)
    · rw [update_of_not_map (fun ms he => hm ⟨ms, he⟩)]
      exact hr

/-! ### Trees that the constructors and editors build -/

end Tree

def Scalar.Built : Scalar → Prop
  | .string value => 0 ∉ value
  | _ => True

namespace Tree

/-- No `NULL` member, C strings without inner NUL, and every stored length the
number of elements. -/
inductive Plain : Tree → Prop where
  | nil : Plain .nil
  | scalar {v : Scalar} (h : v.Built) : Plain (.scalar v)
  | array {es : List Tree} (h : ∀ e ∈ es, Plain e) :
      Plain (.array (UInt32.ofNat es.length) es)
  | map {ms : List (Bytes × Tree)} (hk : ∀ m ∈ ms, 0 ∉ m.1) (hv : ∀ m ∈ ms, m.2 ≠ .nil)
      (h : ∀ m ∈ ms, Plain m.2) : Plain (.map ms)

structure Built (t : Tree) : Prop where
  plain : t.Plain
  distinct : t.KeysDistinct

theorem Built.members {ms : Members} (h : Built (.map ms)) :
    (Ordered.keys ms).Nodup ∧ (∀ m ∈ ms, 0 ∉ m.1) ∧ (∀ m ∈ ms, m.2 ≠ .nil) ∧
      ∀ m ∈ ms, m.2.Built := by
  obtain ⟨hp, hd⟩ := h
  cases hp with
  | map hk hv h => exact ⟨hd.members.1, hk, hv, fun m hm => ⟨h m hm, hd.members.2 m hm⟩⟩

theorem built_map {ms : Members} (hd : (Ordered.keys ms).Nodup) (hk : ∀ m ∈ ms, 0 ∉ m.1)
    (hv : ∀ m ∈ ms, m.2 ≠ .nil) (h : ∀ m ∈ ms, m.2.Built) : Built (.map ms) :=
  ⟨.map hk hv fun m hm => (h m hm).plain, .map hd fun m hm => (h m hm).distinct⟩

theorem cloneValue_of_built {v : Scalar} (h : v.Built) : cloneValue v = v := by
  cases v with
  | string value => exact congrArg Scalar.string (cstr_of_not_mem h)
  | null => rfl
  | boolean value => rfl
  | integer value => rfl
  | double value => rfl

/-- Members that are set one after another under distinct keys line up. -/
theorem cloneMembers_of_built (acc ms : Members) (hd : (Ordered.keys (acc ++ ms)).Nodup)
    (hk : ∀ m ∈ ms, 0 ∉ m.1) (hv : ∀ m ∈ ms, m.2 ≠ .nil) (hc : ∀ m ∈ ms, m.2.clone = m.2) :
    cloneMembers acc ms = acc ++ ms := by
  induction ms generalizing acc with
  | nil => simp [cloneMembers]
  | cons m ms ih =>
    obtain ⟨k, v⟩ := m
    have hkey : cstr k = k := cstr_of_not_mem (hk (k, v) (List.mem_cons_self ..))
    have hval : v.clone = v := hc (k, v) (List.mem_cons_self ..)
    have hne : v ≠ .nil := hv (k, v) (List.mem_cons_self ..)
    have hfresh : k ∉ Ordered.keys acc := by
      intro hm
      simp only [Ordered.keys, List.map_append, List.map_cons] at hd
      exact (List.nodup_append.mp hd).2.2 _ hm _ (List.mem_cons_self ..) rfl
    have hsplit : acc ++ (k, v) :: ms = acc ++ [(k, v)] ++ ms := by simp
    simp only [cloneMembers, hkey, hval]
    rw [setMember_of_ne hne, Ordered.set_of_not_mem v hfresh, hsplit]
    rw [hsplit] at hd
    exact ih (acc ++ [(k, v)]) hd (fun m hm => hk m (List.mem_cons_of_mem _ hm))
      (fun m hm => hv m (List.mem_cons_of_mem _ hm))
      (fun m hm => hc m (List.mem_cons_of_mem _ hm))

theorem clone_of_built {t : Tree} (h : t.Built) : t.clone = t := by
  obtain ⟨hp, hd⟩ := h
  induction hp with
  | nil => rfl
  | scalar h => simp only [clone, cloneValue_of_built h]
  | array h ih =>
    simp only [clone, cloneElems_eq_map]
    rw [List.map_congr_left fun e he => ih e he (hd.elem e he), List.map_id']
  | map hk hv h ih =>
    simp only [clone]
    rw [cloneMembers_of_built [] _ hd.members.1 hk hv fun m hm => ih m hm (hd.members.2 m hm)]
    rfl

end Tree
end Pillowtalk
