import Pillowtalk.Ownership

/-!
# What cloning and merging leave alone

A clone lives on addresses of its own, and nothing is written or released below
them, whatever the source looks like. A merge sets members of maps that are
reached from its first argument by way of member values; another map loses
nothing to it unless it goes altogether.
-/

namespace Pillowtalk
open Addressed

variable [HashFcn]

/-- A pointer into `S`. -/
def PtrIn (S : ℕ → Prop) (p : Ptr) : Prop := ∀ a, p = some a → S a

omit [HashFcn] in
theorem ptrIn_null (S : ℕ → Prop) : PtrIn S none := by
  intro a ha
  cases ha

/-- Everything that a node points to is in `S`, members included. -/
def Node.Links (S : ℕ → Prop) : Node → Prop
  | .array head _ => ∀ p ∈ head, PtrIn S p
  | .map kvs => ∀ hd ∈ kvs.items, S hd.elt
  | .keyValue _ value => PtrIn S value
  | .scalar _ => True

/-! ### A clone -/

/-- No node at `n` or above points below `n`. -/
def ClosedAbove (n : ℕ) (h : Heap) : Prop :=
  ∀ a, n ≤ a → ∀ c, h.cell a = some c → c.Links (n ≤ ·)

namespace ClosedAbove
variable {n : ℕ} {h h' : Heap}

theorem shrunk (hc : ClosedAbove n h) (hs : Memory.Shrunk h h') : ClosedAbove n h' := by
  intro a ha c hca
  exact hc a ha c (hs.cell_eq_some hca)

theorem alloc (hc : ClosedAbove n h) {c : Node} (hl : c.Links (n ≤ ·)) :
    ClosedAbove n (h.alloc c) := by
  intro a ha d hda
  by_cases han : a = h.next
  · subst han
    rw [Memory.alloc_cell_next] at hda
    cases hda
    exact hl
  · rw [Memory.alloc_cell_ne _ _ han] at hda
    exact hc a ha d hda

theorem modify (hc : ClosedAbove n h) {p : ℕ} {f : Node → Node}
    (hf : ∀ c, h.cell p = some c → c.Links (n ≤ ·) → (f c).Links (n ≤ ·)) :
    ClosedAbove n (h.modify p f) := by
  intro a ha d hda
  rw [Memory.modify_cell] at hda
  split at hda
  · next he =>
    subst he
    obtain ⟨c, hca, rfl⟩ := Option.map_eq_some_iff.mp hda
    exact hf c hca (hc a ha c hca)
  · exact hc a ha d hda

theorem kvValue (hc : ClosedAbove n h) {kv : ℕ} (hkv : n ≤ kv) :
    PtrIn (n ≤ ·) (kvValue h kv) := by
  unfold Pillowtalk.kvValue
  split
  · next hcell => exact hc kv hkv _ hcell
  · exact ptrIn_null _

/-- Releasing a node at `n` or above stays there. -/
theorem freeNode (hc : ClosedAbove n h) (fuel : ℕ) {h₁ : Heap} (hs : Memory.Shrunk h h₁)
    {p : Ptr} (hp : PtrIn (n ≤ ·) p) :
    Memory.Keeps (· < n) h₁ (freeNode fuel h₁ p) := by
  induction fuel generalizing h₁ p with
  | zero => exact Memory.Keeps.refl _ _
  | succ fuel ih =>
    cases p with
    | none => exact Memory.Keeps.refl _ _
    | some a =>
      have ha : n ≤ a := hp a rfl
      have hfree : ∀ (h₂ : Heap) (x : ℕ), n ≤ x → Memory.Keeps (· < n) h₂ (h₂.free x) :=
        fun h₂ x hx => (Memory.keeps_free h₂ x).mono fun y hy => (lt_of_lt_of_le hy hx).ne
      simp only [Pillowtalk.freeNode]
      split
      · next kvs hcell =>
        have helt := hc.shrunk hs a ha _ hcell
        have hloop := List.foldlRecOn kvs.items (fun h cur =>
            (Pillowtalk.freeNode fuel h (Pillowtalk.kvValue h cur.elt)).free cur.elt)
          (motive := fun h₂ => Memory.Shrunk h h₂ ∧ Memory.Keeps (· < n) h₁ h₂)
          ⟨hs, Memory.Keeps.refl _ _⟩ (by
            rintro h₂ ⟨hs₂, hk₂⟩ cur hcur
            have hvalue := ih hs₂ ((hc.shrunk hs₂).kvValue (helt cur hcur))
            have hshrunk := (freeNode_shrunk fuel h₂ (Pillowtalk.kvValue h₂ cur.elt)).trans
              (Memory.shrunk_free _ cur.elt)
            exact ⟨hs₂.trans hshrunk, (hk₂.trans hvalue).trans (hfree _ _ (helt cur hcur))⟩)
        exact hloop.2.trans (hfree _ a ha)
      · next head len hcell =>
        have helem := hc.shrunk hs a ha _ hcell
        have hloop := List.foldlRecOn head (Pillowtalk.freeNode fuel)
          (motive := fun h₂ => Memory.Shrunk h h₂ ∧ Memory.Keeps (· < n) h₁ h₂)
          ⟨hs, Memory.Keeps.refl _ _⟩ (by
            rintro h₂ ⟨hs₂, hk₂⟩ node hnode
            exact ⟨hs₂.trans (freeNode_shrunk _ _ _), hk₂.trans (ih hs₂ (helem node hnode))⟩)
        exact hloop.2.trans (hfree _ a ha)
      · exact hfree _ a ha

end ClosedAbove

/-- Since `h₀` nothing below `n` was written, and nothing above points there. -/
structure AboveOnly (n : ℕ) (h₀ h : Heap) : Prop where
  le : n ≤ h.next
  closed : ClosedAbove n h
  keeps : Memory.Keeps (· < n) h₀ h

theorem AboveOnly.start (h : Heap) : AboveOnly h.next h h := by
  refine ⟨le_refl _, fun a ha c hc => ?_, Memory.Keeps.refl _ _⟩
  exact absurd (Memory.lt_next hc) (not_lt.mpr ha)

theorem AboveOnly.ptMapSet {n : ℕ} {h₀ h : Heap} (ha : AboveOnly n h₀ h) {map : Ptr}
    (hm : PtrIn (n ≤ ·) map) (key : Option Bytes) {value : Ptr} (hv : PtrIn (n ≤ ·) value) :
    AboveOnly n h₀ (ptMapSet h map key value) := by
  have hstore : ∀ (h₂ : Heap) (x : ℕ) (f : Node → Node), n ≤ x →
      Memory.Keeps (· < n) h₂ (h₂.modify x f) :=
    fun h₂ x f hx => (Memory.keeps_modify h₂ x f).mono fun y hy => (lt_of_lt_of_le hy hx).ne
  unfold Pillowtalk.ptMapSet
  split
  · next a kvs k v hmap =>
    obtain ⟨rfl, hcell⟩ := asMap_eq_some.mp hmap
    have hna : n ≤ a := hm a rfl
    have hitems := ha.closed a hna _ hcell
    split
    · next hd hf =>
      have helt : n ≤ hd.elt := hitems hd (Uthash.hashFind_mem hf)
      have hs := ptFreeNode_shrunk h (kvValue h hd.elt)
      have hfree : Memory.Keeps (· < n) h (ptFreeNode h (kvValue h hd.elt)) :=
        ha.closed.freeNode _ (Memory.Shrunk.refl h) (ha.closed.kvValue helt)
      refine ⟨le_of_le_of_eq ha.le hs.1.symm, (ha.closed.shrunk hs).modify fun c _ hc => ?_,
        (ha.keeps.trans hfree).trans (hstore _ _ _ helt)⟩
      cases c with
      | keyValue key' old => exact hv
      | scalar x => trivial
      | array head len => exact hc
      | map kvs' => exact hc
    · refine ⟨Nat.le_succ_of_le ha.le,
        (ha.closed.alloc (c := .keyValue (cstr k) (some v)) hv).modify fun c hca _ => ?_, ?_⟩
      · rw [Memory.alloc_cell_old _ _ (Memory.lt_next hcell), hcell] at hca
        cases hca
        intro hd hmem
        rcases List.mem_append.mp hmem with hmem | hmem
        · exact hitems hd hmem
        · rw [List.mem_singleton.mp hmem]
          exact ha.le
      · have halloc : Memory.Keeps (· < n) h (h.alloc (.keyValue (cstr k) (some v))) :=
          (Memory.keeps_alloc h _).mono fun y hy => lt_of_lt_of_le hy ha.le
        exact (ha.keeps.trans halloc).trans (hstore _ _ _ hna)
  · exact ha

theorem AboveOnly.ptArrayPushBack {n : ℕ} {h₀ h : Heap} (ha : AboveOnly n h₀ h) {array : Ptr}
    (hm : PtrIn (n ≤ ·) array) {node : Ptr} (hn : PtrIn (n ≤ ·) node) :
    AboveOnly n h₀ (ptArrayPushBack h array node) := by
  unfold Pillowtalk.ptArrayPushBack
  split
  · next a head len harr =>
    obtain ⟨rfl, hcell⟩ := asArray_eq_some.mp harr
    have hna : n ≤ a := hm a rfl
    have hstore := (Memory.keeps_modify h a (Node.setArray (head ++ [node]) (len + 1))).mono
      (T := (· < n)) fun y hy => (lt_of_lt_of_le hy hna).ne
    refine ⟨ha.le, ha.closed.modify fun c hca hc => ?_, ha.keeps.trans hstore⟩
    rw [hcell] at hca
    cases hca
    intro p hp
    rcases List.mem_append.mp hp with hp | hp
    · exact hc p hp
    · exact (List.mem_singleton.mp hp) ▸ hn
  · exact ha

theorem AboveOnly.copying (n : ℕ) (h₀ : Heap) :
    Copying (AboveOnly n h₀) (fun _ => PtrIn (n ≤ ·)) (PtrIn (n ≤ ·)) where
  null _ := ptrIn_null _
  later _ _ _ _ hp := hp
  target _ _ hp := hp
  alloc h c hc ha := by
    have hlinks : c.Links (n ≤ ·) := by
      cases hc with
      | scalar hv => trivial
      | array => exact fun p hp => absurd hp List.not_mem_nil
      | map => exact fun hd hmem => absurd hmem List.not_mem_nil
    have halloc := (Memory.keeps_alloc h c).mono (T := (· < n))
      fun y hy => lt_of_lt_of_le hy ha.le
    refine ⟨⟨Nat.le_succ_of_le ha.le, ha.closed.alloc hlinks, ha.keeps.trans halloc⟩, ?_⟩
    intro a he
    cases he
    exact ha.le
  set _ _ key _ _ _ _ _ _ ha hm hv := ha.ptMapSet hm (some key) hv
  push _ _ _ ha hm hn := ha.ptArrayPushBack hm hn
  get h root key ha hr := by
    unfold ptMapGet
    split
    · next a kvs _ hmap =>
      obtain ⟨rfl, hcell⟩ := asMap_eq_some.mp hmap
      split
      · next hd hf =>
        have helt : n ≤ hd.elt := ha.closed a (hr a rfl) _ hcell hd (Uthash.hashFind_mem hf)
        exact ha.closed.kvValue helt
      · exact ptrIn_null _
    · exact ptrIn_null _

/-- `pt_clone` writes and releases no old node. -/
theorem cloneNode_keeps (fuel : ℕ) (h : Heap) (p : Ptr) :
    Memory.Keeps (· < h.next) h (cloneNode fuel h p).1 :=
  ((AboveOnly.copying h.next h).cloneNode fuel (AboveOnly.start h) p).holds.keeps

/-! ### Another map -/

/-- The map at `m`, with the items `kvs`, is gone, or it and its members are as they were. -/
def KeepsMap (m : ℕ) (kvs : Uthash ℕ) (h h' : Heap) : Prop :=
  h'.cell m = none ∨
    h'.cell m = some (.map kvs) ∧ ∀ hd ∈ kvs.items, h'.cell hd.elt = h.cell hd.elt

namespace KeepsMap
variable {m : ℕ} {kvs : Uthash ℕ} {h h' h'' : Heap}

theorem refl (hm : h.cell m = some (.map kvs)) : KeepsMap m kvs h h :=
  Or.inr ⟨hm, fun _ _ => rfl⟩

theorem step (hk : KeepsMap m kvs h h') (hlt : m < h'.next) (hl : Later h' h'')
    (hstep : h'.cell m = some (.map kvs) → KeepsMap m kvs h' h'') : KeepsMap m kvs h h'' := by
  rcases hk with hdead | ⟨hcell, hmembers⟩
  · exact Or.inl (hl.dead m hlt hdead)
  · rcases hstep hcell with hdead | ⟨hcell', hmembers'⟩
    · exact Or.inl hdead
    · exact Or.inr ⟨hcell', fun hd hmem => (hmembers' hd hmem).trans (hmembers hd hmem)⟩

/-- Where no old cell changes. -/
theorem of_old (hs : Sane h) (hm : h.cell m = some (.map kvs))
    (hk : Memory.Keeps (· < h.next) h h') : KeepsMap m kvs h h' := by
  refine Or.inr ⟨(hk m (Memory.lt_next hm)).trans hm, fun hd hmem => ?_⟩
  obtain ⟨value, hc⟩ := hs.owned.member m kvs hm hd hmem
  exact hk hd.elt (Memory.lt_next hc)

theorem free (hs : Sane h) (hm : h.cell m = some (.map kvs)) {p : Ptr} (hp : Proper h p) :
    KeepsMap m kvs h (ptFreeNode h p) := by
  rcases (ptFreeNode_shrunk h p).2 m with he | he
  · have hlive : (ptFreeNode h p).cell m ≠ none := by
      rw [he, hm]
      exact Option.some_ne_none _
    exact Or.inr ⟨he.trans hm, freeNode_keepsMembers hs _ (Memory.Shrunk.refl h) hp m kvs trivial
      hm hlive⟩
  · exact Or.inl he

/-- A store into a node that is neither the map nor one of its members. -/
theorem modify (hm : h.cell m = some (.map kvs)) {p : ℕ} (hpm : p ≠ m)
    (hp : ∀ hd ∈ kvs.items, hd.elt ≠ p) (f : Node → Node) : KeepsMap m kvs h (h.modify p f) :=
  Or.inr ⟨(Memory.modify_cell_ne _ _ hpm.symm).trans hm,
    fun hd hmem => Memory.modify_cell_ne _ _ (hp hd hmem)⟩

theorem elt_ne (hs : Sane h) (hm : h.cell m = some (.map kvs)) {p : ℕ} {n : Node}
    (hp : h.cell p = some n) (hn : ∀ key value, n ≠ .keyValue key value) :
    ∀ hd ∈ kvs.items, hd.elt ≠ p := by
  rintro hd hmem rfl
  obtain ⟨value, hc⟩ := hs.owned.member m kvs hm hd hmem
  rw [hp] at hc
  exact hn _ _ (Option.some.inj hc)

theorem setArray (hs : Sane h) (hm : h.cell m = some (.map kvs)) {a : ℕ} {head : List Ptr}
    {len : UInt32} (ha : h.cell a = some (.array head len)) (head' : List Ptr) (len' : UInt32) :
    KeepsMap m kvs h (h.modify a (Node.setArray head' len')) := by
  refine modify hm ?_ (elt_ne hs hm ha fun _ _ he => by cases he) _
  rintro rfl
  rw [hm] at ha
  cases ha

theorem ptMapSet (hs : Sane h) (hm : h.cell m = some (.map kvs)) {map : Ptr}
    (hne : map ≠ some m) (key : Option Bytes) (value : Ptr) :
    KeepsMap m kvs h (ptMapSet h map key value) := by
  unfold Pillowtalk.ptMapSet
  split
  · next a kvsa k v hmap =>
    obtain ⟨rfl, hc⟩ := asMap_eq_some.mp hmap
    have ham : a ≠ m := fun he => hne (congrArg some he)
    split
    · next hd hf =>
      have hmem := Uthash.hashFind_mem hf
      obtain ⟨old, hkv⟩ := hs.owned.member a kvsa hc hd hmem
      have hdm : hd.elt ≠ m := by
        intro he
        rw [he, hm] at hkv
        cases hkv
      have hother : ∀ x ∈ kvs.items, x.elt ≠ hd.elt := fun x hx he =>
        ham (hs.owned.one m a kvs kvsa hm hc x hx hd hmem he).symm
      have hfree : KeepsMap m kvs h (ptFreeNode h (kvValue h hd.elt)) := free hs hm hs.value
      refine hfree.step ?_ (Later.setValue _ _ _) fun hcell => modify hcell hdm hother _
      rw [(ptFreeNode_shrunk h _).1]
      exact Memory.lt_next hm
    · refine Or.inr ⟨(addMember_old (Memory.lt_next hm).ne ham.symm).trans hm, fun x hx => ?_⟩
      obtain ⟨old, hkv⟩ := hs.owned.member m kvs hm x hx
      exact addMember_old (Memory.lt_next hkv).ne
        (elt_ne hs hm hc (fun _ _ he => by cases he) x hx)
  · exact refl hm

theorem ptMapUnset (hs : Sane h) (hm : h.cell m = some (.map kvs)) {map : Ptr}
    (hne : map ≠ some m) (key : Bytes) : KeepsMap m kvs h (ptMapUnset h map key) := by
  unfold Pillowtalk.ptMapUnset
  split
  · next a kvsa hmap =>
    obtain ⟨rfl, hc⟩ := asMap_eq_some.mp hmap
    have ham : a ≠ m := fun he => hne (congrArg some he)
    split
    · next hd hf =>
      have hmem := Uthash.hashFind_mem hf
      obtain ⟨hdel, -⟩ := hs.hashDelete hc hmem
      obtain ⟨old, hkv⟩ := hs.owned.member a kvsa hc hd hmem
      have hdm : m ≠ hd.elt := by
        intro he
        rw [← he, hm] at hkv
        cases hkv
      have hset : KeepsMap m kvs h (h.modify a (Node.setKeyValues (kvsa.hashDelete hd))) :=
        modify hm ham (elt_ne hs hm hc fun _ _ he => by cases he) _
      have hlt : m < h.next := Memory.lt_next hm
      have hfree := hset.step hlt
        (Later.shrunk (ptFreeNode_shrunk _ (kvValue _ hd.elt))) fun hcell =>
          free hdel hcell hdel.value
      refine hfree.step ?_ (Later.shrunk (Memory.shrunk_free _ _)) fun hcell => ?_
      · rw [(ptFreeNode_shrunk _ _).1]
        exact hlt
      · refine Or.inr ⟨(Memory.free_cell_ne _ hdm).trans hcell, fun x hx => ?_⟩
        exact Memory.free_cell_ne _ fun he =>
          ham (hs.owned.one m a kvs kvsa hm hc x hx hd hmem he).symm
    · exact refl hm
  · exact refl hm

theorem ptArrayPushBack (hs : Sane h) (hm : h.cell m = some (.map kvs)) (array node : Ptr) :
    KeepsMap m kvs h (ptArrayPushBack h array node) := by
  unfold Pillowtalk.ptArrayPushBack
  split
  · next ha => exact setArray hs hm (asArray_eq_some.mp ha).2 _ _
  · exact refl hm

theorem ptArrayPushFront (hs : Sane h) (hm : h.cell m = some (.map kvs)) (array node : Ptr) :
    KeepsMap m kvs h (ptArrayPushFront h array node) := by
  unfold Pillowtalk.ptArrayPushFront
  split
  · next ha => exact setArray hs hm (asArray_eq_some.mp ha).2 _ _
  · exact refl hm

theorem ptArrayRemove (hs : Sane h) (hm : h.cell m = some (.map kvs)) (array node : Ptr) :
    KeepsMap m kvs h (ptArrayRemove h array node) := by
  unfold Pillowtalk.ptArrayRemove
  split
  · next a head len ha =>
    have hcell := (asArray_eq_some.mp ha).2
    have helem := hs.stored a _ hcell
    split
    · next hmem =>
      have hsane : Sane (h.modify a (Node.setArray (head.erase node) (len - 1))) :=
        hs.setArray a _ fun p hp => helem p (List.mem_of_mem_erase hp)
      have hset := setArray hs hm hcell (head.erase node) (len - 1)
      have hlt : m < h.next := Memory.lt_next hm
      refine hset.step hlt (Later.shrunk (ptFreeNode_shrunk _ _)) fun hc => ?_
      exact free hsane hc ((helem node hmem).later (Later.setArray h a _ _))
    · exact refl hm
  · exact refl hm

end KeepsMap

/-! ### A merge -/

/-- The map `m` is `a`, or is reached from it by way of member values. -/
inductive Below (h : Heap) (m : ℕ) : ℕ → Prop where
  | here : Below h m m
  | member {a v : ℕ} {kvs : Uthash ℕ} {hd : HashHandle ℕ} (hc : h.cell a = some (.map kvs))
      (hmem : hd ∈ kvs.items) (hv : kvValue h hd.elt = some v) (hb : Below h m v) : Below h m a

/-- The values in maps of `S` are in `S`. -/
def ClosedMaps (S : ℕ → Prop) (h : Heap) : Prop :=
  ∀ a kvs, S a → h.cell a = some (.map kvs) → ∀ hd ∈ kvs.items, PtrIn S (kvValue h hd.elt)

namespace ClosedMaps
variable {S : ℕ → Prop} {h h' : Heap}

theorem shrunk (hc : ClosedMaps S h) (hs : Memory.Shrunk h h') : ClosedMaps S h' := by
  intro a kvs ha hcell hd hmem
  have hold : h.cell a = some (.map kvs) := hs.cell_eq_some hcell
  rcases Located.kvValue_shrunk hs hd.elt with he | he
  · rw [he]
    exact hc a kvs ha hold hd hmem
  · rw [he]
    exact ptrIn_null S

theorem setValue (hc : ClosedMaps S h) (kv : ℕ) {v : Ptr} (hv : PtrIn S v) :
    ClosedMaps S (h.modify kv (Node.setValue v)) := by
  intro a kvs ha hcell hd hmem
  have hold : h.cell a = some (.map kvs) := by
    rw [Memory.modify_cell] at hcell
    split at hcell
    · obtain ⟨n, hn, hf⟩ := Option.map_eq_some_iff.mp hcell
      cases n <;> cases hf
      exact hn
    · exact hcell
  have hvalue := hc a kvs ha hold hd hmem
  unfold kvValue at hvalue ⊢
  rw [Memory.modify_cell]
  split
  · next key value hn =>
    split at hn
    · obtain ⟨n, hn', hf⟩ := Option.map_eq_some_iff.mp hn
      cases n <;> cases hf
      exact hv
    · rw [hn] at hvalue
      exact hvalue
  · exact ptrIn_null S

theorem addMember (hs : Sane h) (hc : ClosedMaps S h) {a : ℕ} {kvs : Uthash ℕ}
    (hcell : h.cell a = some (.map kvs)) (key : Bytes) {value : Ptr} (hv : PtrIn S value) :
    ClosedMaps S (addMember h a kvs key value) := by
  have hkeep : ∀ b kvs', h.cell b = some (.map kvs') → ∀ hd ∈ kvs'.items,
      kvValue (Pillowtalk.addMember h a kvs key value) hd.elt = kvValue h hd.elt := by
    intro b kvs' hb hd hmem
    obtain ⟨old, hkv⟩ := hs.owned.member b kvs' hb hd hmem
    have hcell' : (Pillowtalk.addMember h a kvs key value).cell hd.elt = h.cell hd.elt :=
      addMember_old (Memory.lt_next hkv).ne
        (KeepsMap.elt_ne hs hb hcell (fun _ _ he => by cases he) hd hmem)
    unfold kvValue
    rw [hcell']
  intro b kvs' hb hcell' hd hmem
  rcases addMember_maps hcell hcell' with ⟨rfl, rfl⟩ | ⟨-, hold⟩
  · rcases List.mem_append.mp hmem with hmem | hmem
    · rw [hkeep b kvs hcell hd hmem]
      exact hc b kvs hb hcell hd hmem
    · rw [List.mem_singleton.mp hmem, kvValue_of_cell (addMember_new hcell key value)]
      exact hv
  · rw [hkeep b kvs' hold hd hmem]
    exact hc b kvs' hb hold hd hmem

theorem ptMapSet (hs : Sane h) (hc : ClosedMaps S h) (map : Ptr) (key : Option Bytes)
    {value : Ptr} (hv : PtrIn S value) : ClosedMaps S (ptMapSet h map key value) := by
  unfold Pillowtalk.ptMapSet
  split
  · next hmap =>
    split
    · exact (hc.shrunk (ptFreeNode_shrunk h _)).setValue _ hv
    · exact addMember hs hc (asMap_eq_some.mp hmap).2 _ hv
  · exact hc

/-- A store that changes neither maps nor members. -/
theorem of_eq (hc : ClosedMaps S h)
    (hmap : ∀ a kvs, h'.cell a = some (.map kvs) → kvs.items = [] ∨ h.cell a = some (.map kvs))
    (hkv : ∀ a kvs, h.cell a = some (.map kvs) → ∀ hd ∈ kvs.items,
      kvValue h' hd.elt = kvValue h hd.elt) : ClosedMaps S h' := by
  intro a kvs ha hcell hd hmem
  rcases hmap a kvs hcell with hnil | hold
  · rw [hnil] at hmem
    cases hmem
  · rw [hkv a kvs hold hd hmem]
    exact hc a kvs ha hold hd hmem

theorem alloc (hs : Sane h) (hc : ClosedMaps S h) {n : Node} (hn : n.New) :
    ClosedMaps S (h.alloc n) := by
  refine hc.of_eq ?_ ?_
  · intro a kvs hcell
    by_cases ha : a = h.next
    · subst ha
      rw [Memory.alloc_cell_next] at hcell
      cases hn <;> cases hcell
      exact Or.inl rfl
    · exact Or.inr ((Memory.alloc_cell_ne _ _ ha) ▸ hcell)
  · intro a kvs hcell hd hmem
    obtain ⟨old, hkv⟩ := hs.owned.member a kvs hcell hd hmem
    unfold kvValue
    rw [Memory.alloc_cell_old _ _ (Memory.lt_next hkv)]

theorem ptArrayPushBack (hs : Sane h) (hc : ClosedMaps S h) (array node : Ptr) :
    ClosedMaps S (ptArrayPushBack h array node) := by
  unfold Pillowtalk.ptArrayPushBack
  split
  · next a head len harr =>
    have ha := (asArray_eq_some.mp harr).2
    refine hc.of_eq ?_ ?_
    · intro b kvs hcell
      rw [Memory.modify_cell] at hcell
      split at hcell
      · obtain ⟨n, hn, hf⟩ := Option.map_eq_some_iff.mp hcell
        cases n <;> cases hf
        exact Or.inr hn
      · exact Or.inr hcell
    · intro b kvs hcell hd hmem
      have hne := KeepsMap.elt_ne hs hcell ha (fun _ _ he => by cases he) hd hmem
      unfold kvValue
      rw [Memory.modify_cell_ne _ _ hne]
  · exact hc

end ClosedMaps

/-- Merging into `S` since `h₀`, where the map `m` is not in `S`. -/
structure Merging (S : ℕ → Prop) (m : ℕ) (kvs : Uthash ℕ) (h₀ h : Heap) : Prop where
  sane : Sane h
  later : Later h₀ h
  closed : ClosedMaps S h
  keeps : KeepsMap m kvs h₀ h

theorem Merging.copying {S : ℕ → Prop} {m : ℕ} {kvs : Uthash ℕ} {h₀ : Heap}
    (hm : h₀.cell m = some (.map kvs)) (hS : ¬S m) (hnew : ∀ a, h₀.next ≤ a → S a) :
    Copying (Merging S m kvs h₀) (fun h p => Proper h p ∧ PtrIn S p) (PtrIn S) where
  null h := ⟨proper_null h, ptrIn_null S⟩
  later _ _ _ hl hp := ⟨hp.1.later hl, hp.2⟩
  target _ _ hp := hp.2
  alloc h n hn hi := by
    have hlt := lt_of_lt_of_le (Memory.lt_next hm) hi.later.le
    refine ⟨⟨hi.sane.alloc hn.leaf, hi.later.trans (Later.alloc h n),
      hi.closed.alloc hi.sane hn, ?_⟩, proper_alloc h hn.leaf, ?_⟩
    · exact hi.keeps.step hlt (Later.alloc h n) fun hc =>
        KeepsMap.of_old hi.sane hc (Memory.keeps_alloc h n)
    · intro a he
      cases he
      exact hnew _ hi.later.le
  set _ _ key _ h map value _ _ hi ht hv := by
    have hlt := lt_of_lt_of_le (Memory.lt_next hm) hi.later.le
    have hne : map ≠ some m := fun he => hS (ht m he)
    have hlater := Later.ptMapSet h map (some key) value
    refine ⟨hi.sane.ptMapSet map (some key) hv.1, hi.later.trans hlater,
      hi.closed.ptMapSet hi.sane map (some key) hv.2, ?_⟩
    exact hi.keeps.step hlt hlater fun hc => KeepsMap.ptMapSet hi.sane hc hne (some key) value
  push h array node hi _ hn := by
    have hlt := lt_of_lt_of_le (Memory.lt_next hm) hi.later.le
    refine ⟨hi.sane.ptArrayPushBack array hn.1, hi.later.trans (Later.ptArrayPushBack h array node),
      hi.closed.ptArrayPushBack hi.sane array node, ?_⟩
    exact hi.keeps.step hlt (Later.ptArrayPushBack h array node) fun hc =>
      KeepsMap.ptArrayPushBack hi.sane hc array node
  get h root key hi ht := by
    unfold ptMapGet
    split
    · next a kvs' _ hmap =>
      obtain ⟨rfl, hcell⟩ := asMap_eq_some.mp hmap
      split
      · next hd hf => exact hi.closed a kvs' (ht a rfl) hcell hd (Uthash.hashFind_mem hf)
      · exact ptrIn_null S
    · exact ptrIn_null S

/-- `pt_map_update` changes no map but those it reaches from its first argument. -/
theorem updateMap_keepsMap {h : Heap} (hs : Sane h) {m : ℕ} {kvs : Uthash ℕ}
    (hm : h.cell m = some (.map kvs)) (fuel : ℕ) {root : Ptr}
    (hroot : PtrIn (fun a => ¬Below h m a) root) (additions : Ptr) (append : Int32) :
    KeepsMap m kvs h (updateMap fuel h root additions append).1 := by
  have hnew : ∀ a, h.next ≤ a → ¬Below h m a := by
    intro a ha hb
    cases hb with
    | here => exact absurd (Memory.lt_next hm) (not_lt.mpr ha)
    | member hc _ _ _ => exact absurd (Memory.lt_next hc) (not_lt.mpr ha)
  have hclosed : ClosedMaps (fun a => ¬Below h m a) h :=
    fun a kvs' ha hc hd hmem v hv hb => ha (.member hc hmem hv hb)
  have hcopying := Merging.copying (S := fun a => ¬Below h m a) hm (fun hb => hb .here) hnew
  exact (hcopying.updateMap fuel ⟨hs, Later.refl h, hclosed, KeepsMap.refl hm⟩ hroot additions
    append).keeps

end Pillowtalk
