import Pillowtalk.Copying
import Pillowtalk.Located
import Pillowtalk.Parser

/-!
# Who holds the members of maps

A member of a map is a node of its own, and it is released together with its
map or by `pt_map_unset`. `Sane` says that no pointer which the caller can get
hold of points to such a node, and that every map has its members to itself.
Both are kept by every function, whatever the caller passes among the pointers
that it was given.
-/

namespace Pillowtalk
open Addressed

variable [HashFcn]

/-- `NULL`, or an address that was handed out and is not that of a member. -/
def Proper (h : Heap) (p : Ptr) : Prop :=
  ∀ a, p = some a → a < h.next ∧ ∀ key value, h.cell a ≠ some (.keyValue key value)

/-- All the pointers that a node stores, `next` links apart. -/
def Node.Stores (P : Ptr → Prop) : Node → Prop
  | .array head _ => ∀ p ∈ head, P p
  | .keyValue _ value => P value
  | _ => True

theorem Node.Stores.mono {P Q : Ptr → Prop} {n : Node} (h : n.Stores P) (hpq : ∀ p, P p → Q p) :
    n.Stores Q := by
  cases n with
  | array head len => exact fun p hp => hpq p (h p hp)
  | keyValue key value => exact hpq value h
  | scalar v => trivial
  | map kvs => trivial

/-- Every item of a map is a live member with the same key, and it is an item
of no other map, nor twice of this one. -/
structure Owned (h : Heap) : Prop where
  member : ∀ a kvs, h.cell a = some (.map kvs) → ∀ hd ∈ kvs.items,
    ∃ value, h.cell hd.elt = some (.keyValue hd.key value)
  once : ∀ a kvs, h.cell a = some (.map kvs) → (kvs.items.map HashHandle.elt).Nodup
  one : ∀ a b kvs kvs', h.cell a = some (.map kvs) → h.cell b = some (.map kvs') →
    ∀ hd ∈ kvs.items, ∀ hd' ∈ kvs'.items, hd.elt = hd'.elt → a = b

structure Sane (h : Heap) : Prop where
  owned : Owned h
  stored : Memory.Every (Node.Stores (Proper h)) h

/-! ### Proper pointers -/

theorem proper_null (h : Heap) : Proper h none := by
  intro a ha
  cases ha

theorem Proper.later {h h' : Heap} (hl : Later h h') {p : Ptr} (hp : Proper h p) : Proper h' p := by
  intro a ha
  obtain ⟨hlt, hkv⟩ := hp a ha
  refine ⟨lt_of_lt_of_le hlt hl.le, fun key value hc => ?_⟩
  obtain ⟨value', hc'⟩ := hl.keyValue a hlt key value hc
  exact hkv key value' hc'

theorem proper_of_cell {h : Heap} {a : ℕ} {n : Node} (hc : h.cell a = some n)
    (hn : ∀ key value, n ≠ .keyValue key value) : Proper h (some a) := by
  intro b hb
  cases hb
  refine ⟨Memory.lt_next hc, fun key value hkv => hn key value ?_⟩
  rw [hc] at hkv
  exact Option.some.inj hkv

/-- A node that holds no other node. -/
inductive Node.Leaf : Node → Prop where
  | scalar (v : Scalar) : Leaf (.scalar v)
  | array : Leaf (.array [] 0)
  | map : Leaf (.map hashNull)

theorem Node.New.leaf {n : Node} (hn : n.New) : n.Leaf := by
  cases hn with
  | scalar hv => exact .scalar _
  | array => exact .array
  | map => exact .map

theorem Node.Leaf.not_keyValue {n : Node} (hn : n.Leaf) (key : Bytes) (value : Ptr) :
    n ≠ .keyValue key value := by
  intro he
  cases hn <;> cases he

theorem Node.Leaf.stores {n : Node} (hn : n.Leaf) (P : Ptr → Prop) : n.Stores P := by
  cases hn with
  | scalar v => trivial
  | array => exact fun p hp => absurd hp List.not_mem_nil
  | map => trivial

theorem proper_alloc (h : Heap) {n : Node} (hn : n.Leaf) : Proper (h.alloc n) (some h.next) :=
  proper_of_cell (Memory.alloc_cell_next h n) hn.not_keyValue

theorem Sane.value {h : Heap} (hs : Sane h) {kv : ℕ} : Proper h (kvValue h kv) := by
  unfold kvValue
  split
  · next hc => exact hs.stored kv _ hc
  · exact proper_null h

/-! ### Changes that keep the members of maps -/

/-- Maps may lose items, and the members that are left keep their keys. -/
theorem Owned.of_sublist {h h' : Heap} (ho : Owned h)
    (hmap : ∀ b kvs', h'.cell b = some (.map kvs') → kvs'.items = [] ∨
      ∃ kvs : Uthash ℕ, h.cell b = some (.map kvs) ∧ kvs'.items.Sublist kvs.items)
    (hkv : ∀ b kvs', h'.cell b = some (.map kvs') → ∀ hd ∈ kvs'.items, ∀ value,
      h.cell hd.elt = some (.keyValue hd.key value) →
        ∃ value', h'.cell hd.elt = some (.keyValue hd.key value')) : Owned h' := by
  have hold : ∀ b kvs', h'.cell b = some (.map kvs') → ∀ hd ∈ kvs'.items,
      ∃ kvs : Uthash ℕ, h.cell b = some (.map kvs) ∧ hd ∈ kvs.items := by
    intro b kvs' hb hd hmem
    rcases hmap b kvs' hb with hnil | ⟨kvs, hc, hsub⟩
    · rw [hnil] at hmem
      cases hmem
    · exact ⟨kvs, hc, hsub.subset hmem⟩
  refine ⟨?_, ?_, ?_⟩
  · intro a kvs' ha hd hmem
    obtain ⟨kvs, hc, hin⟩ := hold a kvs' ha hd hmem
    obtain ⟨value, hval⟩ := ho.member a kvs hc hd hin
    exact hkv a kvs' ha hd hmem value hval
  · intro a kvs' ha
    rcases hmap a kvs' ha with hnil | ⟨kvs, hc, hsub⟩
    · rw [hnil]
      exact List.nodup_nil
    · exact (ho.once a kvs hc).sublist (hsub.map _)
  · intro a b kvs kvs' ha hb hd hmem hd' hmem' he
    obtain ⟨kvs₁, hc, hin⟩ := hold a kvs ha hd hmem
    obtain ⟨kvs₂, hc', hin'⟩ := hold b kvs' hb hd' hmem'
    exact ho.one a b kvs₁ kvs₂ hc hc' hd hin hd' hin' he

theorem Sane.alloc {h : Heap} (hs : Sane h) {n : Node} (hn : n.Leaf) : Sane (h.alloc n) := by
  constructor
  · refine hs.owned.of_sublist ?_ ?_
    · intro b kvs' hb
      by_cases hbn : b = h.next
      · subst hbn
        rw [Memory.alloc_cell_next] at hb
        cases hn <;> cases hb
        exact Or.inl rfl
      · rw [Memory.alloc_cell_ne _ _ hbn] at hb
        exact Or.inr ⟨kvs', hb, List.Sublist.refl _⟩
    · intro b kvs' _ hd _ value hc
      exact ⟨value, (Memory.alloc_cell_old _ _ (Memory.lt_next hc)).trans hc⟩
  · have hold : Memory.Every (Node.Stores (Proper (h.alloc n))) h :=
      fun a c hc => (hs.stored a c hc).mono fun p hp => hp.later (Later.alloc h n)
    exact hold.alloc (hn.stores _)

/-- A store that changes no map, no key and no type. -/
theorem Sane.modify {h : Heap} (hs : Sane h) (p : ℕ) {f : Node → Node}
    (hmap : ∀ n kvs, f n = .map kvs → n = .map kvs)
    (hkey : ∀ key value, ∃ value', f (.keyValue key value) = .keyValue key value')
    (hkv : ∀ n key value, f n = .keyValue key value → ∃ value', n = .keyValue key value')
    (hf : ∀ n, n.Stores (Proper h) → (f n).Stores (Proper h)) : Sane (h.modify p f) := by
  constructor
  · refine hs.owned.of_sublist ?_ ?_
    · intro b kvs' hb
      rw [Memory.modify_cell] at hb
      split at hb
      · obtain ⟨n, hn, hfn⟩ := Option.map_eq_some_iff.mp hb
        exact Or.inr ⟨kvs', (hmap n kvs' hfn) ▸ hn, List.Sublist.refl _⟩
      · exact Or.inr ⟨kvs', hb, List.Sublist.refl _⟩
    · intro b kvs' _ hd _ value hc
      rw [Memory.modify_cell, hc]
      split
      · obtain ⟨value', hv⟩ := hkey hd.key value
        exact ⟨value', congrArg some hv⟩
      · exact ⟨value, rfl⟩
  · intro a c hc
    have hstored : c.Stores (Proper h) := by
      rw [Memory.modify_cell] at hc
      split at hc
      · obtain ⟨n, hn, rfl⟩ := Option.map_eq_some_iff.mp hc
        exact hf n (hs.stored a n hn)
      · exact hs.stored a c hc
    exact hstored.mono fun q hq => hq.later (Later.modify h p hkv)

/-! ### A new member -/

/-- `HASH_ADD_KEYPTR` with a new `pt_key_value_t`. -/
def addMember (h : Heap) (a : ℕ) (kvs : Uthash ℕ) (key : Bytes) (value : Ptr) : Heap :=
  (h.alloc (.keyValue key value)).modify a (Node.setKeyValues (kvs.hashAddKeyptr key h.next))

theorem addMember_map {h : Heap} {a : ℕ} {kvs : Uthash ℕ} (hc : h.cell a = some (.map kvs))
    (key : Bytes) (value : Ptr) :
    (addMember h a kvs key value).cell a = some (.map (kvs.hashAddKeyptr key h.next)) :=
  Memory.modify_cell_self _ ((Memory.alloc_cell_old _ _ (Memory.lt_next hc)).trans hc)

theorem addMember_new {h : Heap} {a : ℕ} {kvs : Uthash ℕ} (hc : h.cell a = some (.map kvs))
    (key : Bytes) (value : Ptr) :
    (addMember h a kvs key value).cell h.next = some (.keyValue key value) := by
  have hne : h.next ≠ a := (Memory.lt_next hc).ne'
  exact (Memory.modify_cell_ne _ _ hne).trans (Memory.alloc_cell_next _ _)

theorem addMember_old {h : Heap} {a : ℕ} {kvs : Uthash ℕ} {key : Bytes} {value : Ptr} {b : ℕ}
    (hb : b ≠ h.next) (hba : b ≠ a) : (addMember h a kvs key value).cell b = h.cell b :=
  (Memory.modify_cell_ne _ _ hba).trans (Memory.alloc_cell_ne _ _ hb)

theorem Later.addMember (h : Heap) (a : ℕ) (kvs : Uthash ℕ) (key : Bytes) (value : Ptr) :
    Later h (addMember h a kvs key value) :=
  (Later.alloc h _).trans (Later.setKeyValues _ _ _)

theorem addMember_maps {h : Heap} {a b : ℕ} {kvs kvs' : Uthash ℕ} {key : Bytes} {value : Ptr}
    (hc : h.cell a = some (.map kvs))
    (hb : (addMember h a kvs key value).cell b = some (.map kvs')) :
    (b = a ∧ kvs' = kvs.hashAddKeyptr key h.next) ∨ (b ≠ a ∧ h.cell b = some (.map kvs')) := by
  by_cases hba : b = a
  · subst hba
    rw [addMember_map hc] at hb
    cases hb
    exact Or.inl ⟨rfl, rfl⟩
  · refine Or.inr ⟨hba, ?_⟩
    by_cases hbn : b = h.next
    · subst hbn
      rw [addMember_new hc] at hb
      cases hb
    · rwa [addMember_old hbn hba] at hb

theorem Owned.addMember {h : Heap} (ho : Owned h) {a : ℕ} {kvs : Uthash ℕ}
    (hc : h.cell a = some (.map kvs)) (key : Bytes) (value : Ptr) :
    Owned (addMember h a kvs key value) := by
  have hlive : ∀ b kvs', h.cell b = some (.map kvs') → ∀ hd ∈ kvs'.items, hd.elt < h.next := by
    intro b kvs' hb hd hmem
    obtain ⟨v, hv⟩ := ho.member b kvs' hb hd hmem
    exact Memory.lt_next hv
  have hkeep : ∀ b kvs', h.cell b = some (.map kvs') → ∀ hd ∈ kvs'.items,
      (Pillowtalk.addMember h a kvs key value).cell hd.elt = h.cell hd.elt := by
    intro b kvs' hb hd hmem
    obtain ⟨v, hv⟩ := ho.member b kvs' hb hd hmem
    refine addMember_old (hlive b kvs' hb hd hmem).ne fun he => ?_
    rw [he, hc] at hv
    cases hv
  refine ⟨?_, ?_, ?_⟩
  · intro b kvs' hb hd hmem
    rcases addMember_maps hc hb with ⟨rfl, rfl⟩ | ⟨-, hb⟩
    · rcases List.mem_append.mp hmem with hmem | hmem
      · rw [hkeep b kvs hc hd hmem]
        exact ho.member b kvs hc hd hmem
      · rw [List.mem_singleton.mp hmem]
        exact ⟨value, addMember_new hc key value⟩
    · rw [hkeep b kvs' hb hd hmem]
      exact ho.member b kvs' hb hd hmem
  · intro b kvs' hb
    rcases addMember_maps hc hb with ⟨rfl, rfl⟩ | ⟨-, hb⟩
    · rw [Uthash.items_hashAddKeyptr, List.map_append]
      refine List.nodup_append.mpr ⟨ho.once b kvs hc, List.nodup_singleton _, ?_⟩
      intro x hx y hy he
      obtain ⟨hd, hmem, rfl⟩ := List.mem_map.mp hx
      have hlt := hlive b kvs hc hd hmem
      rw [he, List.mem_singleton.mp hy] at hlt
      exact lt_irrefl _ hlt
    · exact ho.once b kvs' hb
  · intro b b' kvs₁ kvs₂ hb hb' hd hmem hd' hmem' he
    have hfresh : ∀ c kvs', h.cell c = some (.map kvs') → ∀ x ∈ kvs'.items, x.elt ≠ h.next :=
      fun c kvs' hcc x hx => (hlive c kvs' hcc x hx).ne
    rcases addMember_maps hc hb with ⟨rfl, rfl⟩ | ⟨-, hold⟩
    · rcases addMember_maps hc hb' with ⟨rfl, rfl⟩ | ⟨-, hold'⟩
      · rfl
      · rcases List.mem_append.mp hmem with hmem | hmem
        · exact ho.one b b' _ _ hc hold' hd hmem hd' hmem' he
        · rw [List.mem_singleton.mp hmem] at he
          exact absurd he.symm (hfresh b' kvs₂ hold' hd' hmem')
    · rcases addMember_maps hc hb' with ⟨rfl, rfl⟩ | ⟨-, hold'⟩
      · rcases List.mem_append.mp hmem' with hmem' | hmem'
        · exact ho.one b b' _ _ hold hc hd hmem hd' hmem' he
        · rw [List.mem_singleton.mp hmem'] at he
          exact absurd he (hfresh b kvs₁ hold hd hmem)
      · exact ho.one b b' kvs₁ kvs₂ hold hold' hd hmem hd' hmem' he

theorem Sane.addMember {h : Heap} (hs : Sane h) {a : ℕ} {kvs : Uthash ℕ}
    (hc : h.cell a = some (.map kvs)) (key : Bytes) {value : Ptr} (hv : Proper h value) :
    Sane (addMember h a kvs key value) := by
  refine ⟨hs.owned.addMember hc key value, ?_⟩
  have hlater := Later.addMember h a kvs key value
  have hold : Memory.Every (Node.Stores (Proper (Pillowtalk.addMember h a kvs key value))) h :=
    fun b c hc => (hs.stored b c hc).mono fun p hp => hp.later hlater
  have hnew : (Node.keyValue key value).Stores (Proper (Pillowtalk.addMember h a kvs key value)) :=
    hv.later hlater
  refine (hold.alloc hnew).modify fun c hcc => ?_
  rw [Memory.alloc_cell_old _ _ (Memory.lt_next hc), hc] at hcc
  cases hcc
  trivial

/-! ### Freeing -/

/-- A map of `h` that is in `S` and survives until `h₂` has lost no member since `h₁`. -/
def KeepsMembers (h : Heap) (S : ℕ → Prop) (h₁ h₂ : Heap) : Prop :=
  ∀ b kvs, S b → h.cell b = some (.map kvs) → h₂.cell b ≠ none →
    ∀ hd ∈ kvs.items, h₂.cell hd.elt = h₁.cell hd.elt

theorem KeepsMembers.refl (h : Heap) (S : ℕ → Prop) (h₁ : Heap) : KeepsMembers h S h₁ h₁ :=
  fun _ _ _ _ _ _ _ => rfl

theorem KeepsMembers.trans {h : Heap} {S : ℕ → Prop} {h₁ h₂ h₃ : Heap}
    (h12 : KeepsMembers h S h₁ h₂) (h23 : KeepsMembers h S h₂ h₃) (hs : Memory.Shrunk h₂ h₃) :
    KeepsMembers h S h₁ h₃ := by
  intro b kvs hb hc hlive hd hmem
  have hlive₂ : h₂.cell b ≠ none := by
    rcases hs.2 b with he | he
    · rwa [← he]
    · exact absurd he hlive
  rw [h23 b kvs hb hc hlive hd hmem, h12 b kvs hb hc hlive₂ hd hmem]

theorem KeepsMembers.mono {h : Heap} {S T : ℕ → Prop} {h₁ h₂ : Heap}
    (hk : KeepsMembers h S h₁ h₂) (hst : ∀ b, T b → S b) : KeepsMembers h T h₁ h₂ :=
  fun b kvs hb => hk b kvs (hst b hb)

/-- Releasing a node that is no member, after everything in it. -/
theorem KeepsMembers.free {h : Heap} (ho : Owned h) {a : ℕ} (ha : Proper h (some a)) {h₁ h₂ : Heap}
    (hk : KeepsMembers h (· ≠ a) h₁ h₂) : KeepsMembers h (fun _ => True) h₁ (h₂.free a) := by
  intro b kvs _ hc hlive hd hmem
  have hba : b ≠ a := by
    rintro rfl
    rw [Memory.free_cell, if_pos rfl] at hlive
    exact hlive rfl
  have hda : hd.elt ≠ a := by
    rintro rfl
    obtain ⟨value, hv⟩ := ho.member b kvs hc hd hmem
    exact (ha _ rfl).2 hd.key value hv
  rw [Memory.free_cell_ne _ hba] at hlive
  rw [Memory.free_cell_ne _ hda]
  exact hk b kvs hba hc hlive hd hmem

theorem freeNode_keepsMembers {h : Heap} (hs : Sane h) (fuel : ℕ) {h₁ : Heap}
    (hsh : Memory.Shrunk h h₁) {p : Ptr} (hp : Proper h p) :
    KeepsMembers h (fun _ => True) h₁ (freeNode fuel h₁ p) := by
  induction fuel generalizing h₁ p with
  | zero => exact KeepsMembers.refl _ _ _
  | succ fuel ih =>
    cases p with
    | none => exact KeepsMembers.refl _ _ _
    | some a =>
      have hcell : ∀ n, h₁.cell a = some n → h.cell a = some n := fun n hn =>
        hsh.cell_eq_some hn
      simp only [freeNode]
      split
      · next kvs hc =>
        have hval : ∀ (h₂ : Heap) (kv : ℕ), Memory.Shrunk h h₂ → Proper h (kvValue h₂ kv) := by
          intro h₂ kv hs₂
          rcases Located.kvValue_shrunk hs₂ kv with he | he
          · rw [he]
            exact hs.value
          · rw [he]
            exact proper_null h
        -- the members that go are those of `a`, which goes too
        have hloop := List.foldlRecOn kvs.items
          (fun h cur => (freeNode fuel h (kvValue h cur.elt)).free cur.elt)
          (motive := fun h₂ => Memory.Shrunk h h₂ ∧ KeepsMembers h (· ≠ a) h₁ h₂)
          ⟨hsh, KeepsMembers.refl _ _ _⟩ (by
            rintro h₂ ⟨hs₂, hk₂⟩ cur hcur
            have hfirst := freeNode_shrunk fuel h₂ (kvValue h₂ cur.elt)
            have hfree := Memory.shrunk_free (freeNode fuel h₂ (kvValue h₂ cur.elt)) cur.elt
            have hvalue := (ih hs₂ (hval h₂ cur.elt hs₂)).mono (T := (· ≠ a)) fun _ _ => trivial
            have hmember : KeepsMembers h (· ≠ a) (freeNode fuel h₂ (kvValue h₂ cur.elt))
                ((freeNode fuel h₂ (kvValue h₂ cur.elt)).free cur.elt) := by
              intro b kvs' hb hcb _ hd hmem
              refine Memory.free_cell_ne _ fun he => hb ?_
              exact hs.owned.one b a kvs' kvs hcb (hcell _ hc) hd hmem cur hcur he
            exact ⟨(hs₂.trans hfirst).trans hfree,
              (hk₂.trans hvalue hfirst).trans hmember hfree⟩)
        exact hloop.2.free hs.owned hp
      · next head len hc =>
        have helem : ∀ p ∈ head, Proper h p := fun p hp => hs.stored a _ (hcell _ hc) p hp
        have hloop := List.foldlRecOn head (freeNode fuel)
          (motive := fun h₂ => Memory.Shrunk h h₂ ∧ KeepsMembers h (fun _ => True) h₁ h₂)
          ⟨hsh, KeepsMembers.refl _ _ _⟩ (by
            rintro h₂ ⟨hs₂, hk₂⟩ node hnode
            have hfirst := freeNode_shrunk fuel h₂ node
            exact ⟨hs₂.trans hfirst, hk₂.trans (ih hs₂ (helem node hnode)) hfirst⟩)
        exact (hloop.2.mono fun _ _ => trivial).free hs.owned hp
      · exact (KeepsMembers.refl h _ h₁).free hs.owned hp

/-- Losing cells keeps a memory sane if the maps that are left keep their members. -/
theorem Sane.shrunk {h h' : Heap} (hs : Sane h) (hsh : Memory.Shrunk h h')
    (hk : KeepsMembers h (fun _ => True) h h') : Sane h' := by
  have hold : ∀ b n, h'.cell b = some n → h.cell b = some n := fun b n hb => hsh.cell_eq_some hb
  constructor
  · refine hs.owned.of_sublist ?_ ?_
    · exact fun b kvs hb => Or.inr ⟨kvs, hold b _ hb, List.Sublist.refl _⟩
    · intro b kvs hb hd hmem value hc
      have hlive : h'.cell b ≠ none := by
        rw [hb]
        exact Option.some_ne_none _
      exact ⟨value, (hk b kvs trivial (hold b _ hb) hlive hd hmem).trans hc⟩
  · exact fun a c hc => (hs.stored a c (hold a c hc)).mono fun p hp =>
      hp.later (Later.shrunk hsh)

theorem Sane.ptFreeNode {h : Heap} (hs : Sane h) {p : Ptr} (hp : Proper h p) :
    Sane (ptFreeNode h p) :=
  hs.shrunk (ptFreeNode_shrunk h p) (freeNode_keepsMembers hs _ (Memory.Shrunk.refl h) hp)

/-! ### The editors -/

namespace Later

theorem ptMapUnset (h : Heap) (map : Ptr) (key : Bytes) : Later h (ptMapUnset h map key) := by
  unfold Pillowtalk.ptMapUnset
  split
  · split
    · exact ((setKeyValues h _ _).trans (shrunk (ptFreeNode_shrunk _ _))).trans
        (shrunk (Memory.shrunk_free _ _))
    · exact refl h
  · exact refl h

theorem ptArrayPushFront (h : Heap) (array node : Ptr) :
    Later h (ptArrayPushFront h array node) := by
  unfold Pillowtalk.ptArrayPushFront
  split
  · exact setArray h _ _ _
  · exact refl h

theorem ptArrayRemove (h : Heap) (array node : Ptr) : Later h (ptArrayRemove h array node) := by
  unfold Pillowtalk.ptArrayRemove
  split
  · split
    · exact (setArray h _ _ _).trans (shrunk (ptFreeNode_shrunk _ _))
    · exact refl h
  · exact refl h

theorem copying (h : Heap) : Copying (Later h) (fun _ _ => True) (fun _ => True) where
  null _ := trivial
  later _ _ _ _ _ := trivial
  target _ _ _ := trivial
  alloc h' n _ hl := ⟨hl.trans (alloc h' n), trivial⟩
  set _ _ key _ h' map value _ _ hl _ _ := hl.trans (ptMapSet h' map (some key) value)
  push h' array value hl _ _ := hl.trans (ptArrayPushBack h' array value)
  get _ _ _ _ _ := trivial

end Later

namespace Sane

theorem setValue {h : Heap} (hs : Sane h) (kv : ℕ) {v : Ptr} (hv : Proper h v) :
    Sane (h.modify kv (Node.setValue v)) := by
  refine hs.modify kv ?_ (fun key value => ⟨v, rfl⟩) ?_ ?_
  · intro n kvs he
    cases n <;> cases he
    rfl
  · intro n key value he
    cases n with
    | keyValue key' value' =>
      cases he
      exact ⟨value', rfl⟩
    | scalar x => cases he
    | array head len => cases he
    | map kvs => cases he
  · intro n hn
    cases n with
    | keyValue key value => exact hv
    | scalar x => trivial
    | array head len => exact hn
    | map kvs => trivial

theorem setArray {h : Heap} (hs : Sane h) (a : ℕ) {head : List Ptr} (len : UInt32)
    (hhead : ∀ p ∈ head, Proper h p) : Sane (h.modify a (Node.setArray head len)) := by
  refine hs.modify a ?_ (fun key value => ⟨value, rfl⟩) ?_ ?_
  · intro n kvs he
    cases n <;> cases he
    rfl
  · intro n key value he
    cases n with
    | keyValue key' value' => exact ⟨value, he⟩
    | scalar x => cases he
    | array head' len' => cases he
    | map kvs => cases he
  · intro n hn
    cases n with
    | keyValue key value => exact hn
    | scalar x => trivial
    | array head' len' => exact hhead
    | map kvs => trivial

theorem attach {h : Heap} (hs : Sane h) (cur : ℕ) {v : Ptr} (hv : Proper h v) :
    Sane (h.modify cur (Node.attach v)) := by
  refine hs.modify cur ?_ (fun key value => ⟨v, rfl⟩) ?_ ?_
  · intro n kvs he
    cases n <;> cases he
    rfl
  · intro n key value he
    cases n with
    | keyValue key' value' =>
      cases he
      exact ⟨value', rfl⟩
    | scalar x => cases he
    | array head len => cases he
    | map kvs => cases he
  · intro n hn
    cases n with
    | keyValue key value => exact hv
    | scalar x => trivial
    | array head len =>
      intro p hp
      rcases List.mem_append.mp hp with hp | hp
      · exact hn p hp
      · exact (List.mem_singleton.mp hp) ▸ hv
    | map kvs => trivial

theorem ptMapSet {h : Heap} (hs : Sane h) (map : Ptr) (key : Option Bytes) {value : Ptr}
    (hv : Proper h value) : Sane (ptMapSet h map key value) := by
  unfold Pillowtalk.ptMapSet
  split
  · next a kvs k v hm =>
    obtain ⟨rfl, hc⟩ := asMap_eq_some.mp hm
    split
    · next hd _ =>
      have hfree := hs.ptFreeNode (p := kvValue h hd.elt) hs.value
      exact hfree.setValue _ (hv.later (Later.shrunk (ptFreeNode_shrunk h _)))
    · exact hs.addMember hc (cstr k) hv
  · exact hs

/-- The item that `HASH_DELETE` takes out belongs to no map any more. -/
theorem hashDelete {h : Heap} (hs : Sane h) {a : ℕ} {kvs : Uthash ℕ} {hd : HashHandle ℕ}
    (hc : h.cell a = some (.map kvs)) (hmem : hd ∈ kvs.items) :
    Sane (h.modify a (Node.setKeyValues (kvs.hashDelete hd))) ∧
      ∀ b kvs', (h.modify a (Node.setKeyValues (kvs.hashDelete hd))).cell b = some (.map kvs') →
        ∀ x ∈ kvs'.items, x.elt ≠ hd.elt := by
  have hmaps : ∀ b kvs', (h.modify a (Node.setKeyValues (kvs.hashDelete hd))).cell b =
      some (.map kvs') → (b = a ∧ kvs' = kvs.hashDelete hd) ∨ (b ≠ a ∧ h.cell b = some (.map kvs')) := by
    intro b kvs' hb
    by_cases hba : b = a
    · subst hba
      rw [Memory.modify_cell_self _ hc] at hb
      cases hb
      exact Or.inl ⟨rfl, rfl⟩
    · rw [Memory.modify_cell_ne _ _ hba] at hb
      exact Or.inr ⟨hba, hb⟩
  refine ⟨⟨hs.owned.of_sublist ?_ ?_, ?_⟩, ?_⟩
  · intro b kvs' hb
    rcases hmaps b kvs' hb with ⟨rfl, rfl⟩ | ⟨-, hb⟩
    · refine Or.inr ⟨kvs, hc, ?_⟩
      rw [Uthash.items_hashDelete]
      exact List.erase_sublist
    · exact Or.inr ⟨kvs', hb, List.Sublist.refl _⟩
  · intro b kvs' _ x _ value hx
    refine ⟨value, (Memory.modify_cell_ne _ _ fun he => ?_).trans hx⟩
    rw [he, hc] at hx
    cases hx
  · have hold : Memory.Every (Node.Stores (Proper
        (h.modify a (Node.setKeyValues (kvs.hashDelete hd))))) h :=
      fun b c hb => (hs.stored b c hb).mono fun p hp => hp.later (Later.setKeyValues h a _)
    refine hold.modify fun c hcc => ?_
    rw [hc] at hcc
    cases hcc
    trivial
  · intro b kvs' hb x hx he
    rcases hmaps b kvs' hb with ⟨rfl, rfl⟩ | ⟨hba, hb⟩
    · rw [Uthash.items_hashDelete] at hx
      have hnd := hs.owned.once b kvs hc
      have hxe : x = hd := List.inj_on_of_nodup_map hnd (List.mem_of_mem_erase hx) hmem he
      have hitems : kvs.items.Nodup := List.Nodup.of_map _ hnd
      exact hitems.not_mem_erase (hxe ▸ hx)
    · exact hba (hs.owned.one b a kvs' kvs hb hc x hx hd hmem he)

theorem ptMapUnset {h : Heap} (hs : Sane h) (map : Ptr) (key : Bytes) :
    Sane (ptMapUnset h map key) := by
  unfold Pillowtalk.ptMapUnset
  split
  · next a kvs hm =>
    obtain ⟨rfl, hc⟩ := asMap_eq_some.mp hm
    split
    · next hd hf =>
      obtain ⟨hdel, hgone⟩ := hs.hashDelete hc (Uthash.hashFind_mem hf)
      have hfree := hdel.ptFreeNode
        (p := kvValue (h.modify a (Node.setKeyValues (kvs.hashDelete hd))) hd.elt) hdel.value
      refine hfree.shrunk (Memory.shrunk_free _ _) ?_
      intro b kvs' _ hb _ x hx
      refine Memory.free_cell_ne _ ?_
      exact hgone b kvs' ((ptFreeNode_shrunk _ _).cell_eq_some hb) x hx
    · exact hs
  · exact hs

theorem ptArrayPushBack {h : Heap} (hs : Sane h) (array : Ptr) {node : Ptr}
    (hn : Proper h node) : Sane (ptArrayPushBack h array node) := by
  unfold Pillowtalk.ptArrayPushBack
  split
  · next a head len ha =>
    refine hs.setArray a _ fun p hp => ?_
    rcases List.mem_append.mp hp with hp | hp
    · exact hs.stored a _ (asArray_eq_some.mp ha).2 p hp
    · exact (List.mem_singleton.mp hp) ▸ hn
  · exact hs

theorem ptArrayPushFront {h : Heap} (hs : Sane h) (array : Ptr) {node : Ptr}
    (hn : Proper h node) : Sane (ptArrayPushFront h array node) := by
  unfold Pillowtalk.ptArrayPushFront
  split
  · next a head len ha =>
    refine hs.setArray a _ fun p hp => ?_
    rcases List.mem_cons.mp hp with rfl | hp
    · exact hn
    · exact hs.stored a _ (asArray_eq_some.mp ha).2 p hp
  · exact hs

theorem ptArrayRemove {h : Heap} (hs : Sane h) (array node : Ptr) :
    Sane (ptArrayRemove h array node) := by
  unfold Pillowtalk.ptArrayRemove
  split
  · next a head len ha =>
    have helem := hs.stored a _ (asArray_eq_some.mp ha).2
    split
    · next hmem =>
      have hset : Sane (h.modify a (Node.setArray (head.erase node) (len - 1))) :=
        hs.setArray a (len - 1) fun p hp => helem p (List.mem_of_mem_erase hp)
      exact hset.ptFreeNode ((helem node hmem).later (Later.setArray h a _ _))
    · exact hs
  · exact hs

theorem copying : Copying Sane Proper (fun _ => True) where
  null := proper_null
  later _ _ _ hl hp := hp.later hl
  target _ _ _ := trivial
  alloc h _ hn hs := ⟨hs.alloc hn.leaf, proper_alloc h hn.leaf⟩
  set _ _ key _ _ map _ _ _ hs _ hv := hs.ptMapSet map (some key) hv
  push _ array _ hs _ hv := hs.ptArrayPushBack array hv
  get _ _ _ _ _ := trivial

end Sane

/-! ### The parser -/

namespace Later

theorem attach (h : Heap) (cur : ℕ) (v : Ptr) : Later h (h.modify cur (Node.attach v)) := by
  refine modify h cur fun n key value hf => ?_
  cases n with
  | keyValue key' value' =>
    cases hf
    exact ⟨value', rfl⟩
  | scalar v => cases hf
  | array head len => cases hf
  | map kvs => cases hf

theorem addNewNode (s : ParserState) (n : Node) : Later s.heap (addNewNode s n).heap := by
  unfold Pillowtalk.addNewNode addNodeToContextContainer
  split
  · exact (alloc s.heap n).trans (attach _ _ _)
  · exact alloc s.heap n

theorem jsonMapKey {s s' : ParserState} {str : Bytes} (hk : jsonMapKey s str = some s') :
    Later s.heap s'.heap := by
  unfold Pillowtalk.jsonMapKey at hk
  split at hk
  · cases hk
  · split at hk
    · cases hk
      exact addMember s.heap _ _ str none
    · cases hk

theorem popContainer {s s' : ParserState} {type : PtType}
    (hp : popContainer s type = some s') : Later s.heap s'.heap := by
  unfold Pillowtalk.popContainer at hp
  split at hp
  · cases hp
  · split at hp
    · cases hp
      exact refl s.heap
    · cases hp

theorem callback {s s' : ParserState} {c : Callback} (hc : callback s c = some s') :
    Later s.heap s'.heap := by
  cases c with
  | mapKey str => exact jsonMapKey hc
  | endMap => exact popContainer hc
  | endArray => exact popContainer hc
  | null => exact (Option.some.inj hc) ▸ addNewNode s _
  | boolean b => exact (Option.some.inj hc) ▸ addNewNode s _
  | integer i => exact (Option.some.inj hc) ▸ addNewNode s _
  | double d => exact (Option.some.inj hc) ▸ addNewNode s _
  | string str => exact (Option.some.inj hc) ▸ addNewNode s _
  | startMap => exact (Option.some.inj hc) ▸ addNewNode s _
  | startArray => exact (Option.some.inj hc) ▸ addNewNode s _

end Later

/-- A parser with a sane memory and a root that the caller may have. -/
structure SaneParser (s : ParserState) : Prop where
  heap : Sane s.heap
  root : Proper s.heap s.root

namespace SaneParser
variable {s s' : ParserState}

theorem addNewNode (hs : SaneParser s) {n : Node} (hn : n.Leaf) : SaneParser (addNewNode s n) := by
  have halloc := hs.heap.alloc hn
  have hnew := proper_alloc s.heap hn
  unfold Pillowtalk.addNewNode addNodeToContextContainer
  split
  · next cur _ =>
    have hlater := (Later.alloc s.heap n).trans (Later.attach _ cur (some s.heap.next))
    exact ⟨halloc.attach cur hnew, hs.root.later hlater⟩
  · exact ⟨halloc, hnew⟩

theorem jsonMapKey (hs : SaneParser s) {str : Bytes} (hk : jsonMapKey s str = some s') :
    SaneParser s' := by
  have hlater := Later.jsonMapKey hk
  unfold Pillowtalk.jsonMapKey at hk
  split at hk
  · cases hk
  · next top rest _ =>
    split at hk
    · next kvs hc =>
      cases hk
      exact ⟨hs.heap.addMember hc str (proper_null _), hs.root.later hlater⟩
    · cases hk

theorem popContainer (hs : SaneParser s) {type : PtType} (hp : popContainer s type = some s') :
    SaneParser s' := by
  unfold Pillowtalk.popContainer at hp
  split at hp
  · cases hp
  · split at hp
    · cases hp
      exact ⟨hs.heap, hs.root⟩
    · cases hp

theorem callback (hs : SaneParser s) {c : Callback} (hc : callback s c = some s') :
    SaneParser s' := by
  cases c with
  | mapKey str => exact hs.jsonMapKey hc
  | endMap => exact hs.popContainer hc
  | endArray => exact hs.popContainer hc
  | null => exact (Option.some.inj hc) ▸ hs.addNewNode (.scalar _)
  | boolean b => exact (Option.some.inj hc) ▸ hs.addNewNode (.scalar _)
  | integer i => exact (Option.some.inj hc) ▸ hs.addNewNode (.scalar _)
  | double d => exact (Option.some.inj hc) ▸ hs.addNewNode (.scalar _)
  | string str => exact (Option.some.inj hc) ▸ hs.addNewNode (.scalar _)
  | startMap =>
    cases hc
    have hnew := hs.addNewNode .map
    exact ⟨hnew.heap, hnew.root⟩
  | startArray =>
    cases hc
    have hnew := hs.addNewNode .array
    exact ⟨hnew.heap, hnew.root⟩

end SaneParser

/-- What every callback keeps, a run of the parser keeps. -/
theorem runCallbacks_induction {P : ParserState → Prop}
    (hstep : ∀ s s' c, callback s c = some s' → P s → P s') {s s' : ParserState}
    {cs : List Callback} (hs : P s) (hr : runCallbacks s cs = some s') : P s' := by
  induction cs generalizing s with
  | nil =>
    cases hr
    exact hs
  | cons c cs ih =>
    obtain ⟨t, ht, hrest⟩ := Option.bind_eq_some_iff.mp hr
    exact ih (hstep s t c ht hs) hrest

theorem Sane.parseJson {h : Heap} (hs : Sane h) {cs : List Callback} {r : Heap × Ptr}
    (hr : parseJson h cs = some r) : Sane r.1 ∧ Proper r.1 r.2 := by
  obtain ⟨s, hrun, rfl⟩ := Option.map_eq_some_iff.mp hr
  have hparser : SaneParser s := runCallbacks_induction (fun s s' c hc hs => hs.callback hc)
    ⟨hs, proper_null h⟩ hrun
  exact ⟨hparser.heap, hparser.root⟩

theorem Later.parseJson {h : Heap} {cs : List Callback} {r : Heap × Ptr}
    (hr : parseJson h cs = some r) : Later h r.1 := by
  obtain ⟨s, hrun, rfl⟩ := Option.map_eq_some_iff.mp hr
  exact runCallbacks_induction (P := fun s => Later h s.heap)
    (fun s s' c hc hs => hs.trans (callback hc)) (refl h) hrun

end Pillowtalk
