import Pillowtalk.Session

/-!
# The generator emits one value

What `generate_node_json` writes is a complete value whenever everything below
the node is still allocated. A node of type `PT_KEY_VALUE` would write nothing
and leave its place empty; in a session none is ever in the place of a value.
-/

namespace Pillowtalk
open Addressed

/-- The call gives what the node stores, an `int` widened and a string up to its first NUL. -/
inductive IsScalar : Scalar → GenCall → Prop where
  | null : IsScalar .null .null
  | boolean (b : Int32) : IsScalar (.boolean b) (.bool b)
  | integer {i : Int32} {n : Int64} (h : n.toInt = i.toInt) : IsScalar (.integer i) (.integer n)
  | double (d : Double) : IsScalar (.double d) (.double d)
  | string (s : Bytes) : IsScalar (.string s) (.string (cstr s))

mutual
/-- The calls write one complete value for the tree, counting `n` values within it and itself.
Each part of a container is written for the node in that place, and `NULL` as one null. -/
inductive IsValue : Tree → List GenCall → ℕ → Prop where
  | null : IsValue .nil [.null] 1
  | scalar {v : Scalar} {c : GenCall} (h : IsScalar v c) : IsValue (.scalar v) [c] 1
  | array {len : UInt32} {es : List Tree} {cs : List GenCall} {n : ℕ} (h : IsElems es cs n) :
      IsValue (.array len es) (.arrayOpen :: (cs ++ [.arrayClose])) (n + 1)
  | map {ms : List (Bytes × Tree)} {cs : List GenCall} {n : ℕ} (h : IsMembers ms cs n) :
      IsValue (.map ms) (.mapOpen :: (cs ++ [.mapClose])) (n + 1)
inductive IsElems : List Tree → List GenCall → ℕ → Prop where
  | nil : IsElems [] [] 0
  | cons {e : Tree} {es : List Tree} {v cs : List GenCall} {m n : ℕ} (hv : IsValue e v m)
      (h : IsElems es cs n) : IsElems (e :: es) (v ++ cs) (m + n)
inductive IsMembers : List (Bytes × Tree) → List GenCall → ℕ → Prop where
  | nil : IsMembers [] [] 0
  | cons (key : Bytes) {e : Tree} {ms : List (Bytes × Tree)} {v cs : List GenCall} {m n : ℕ}
      (hv : IsValue e v m) (h : IsMembers ms cs n) :
      IsMembers ((key, e) :: ms) (.string (cstr key) :: (v ++ cs)) (m + n)
end

theorem isScalar_generateScalar (v : Scalar) : IsScalar v (generateScalar v) := by
  cases v with
  | null => exact .null
  | boolean value => exact .boolean value
  | integer value => exact .integer (Int32.toInt_toInt64 value)
  | double value => exact .double value
  | string value => exact .string value

namespace Tree

mutual
/-- The nodes of a tree, `NULL` ones counted, members not. -/
def count : Tree → ℕ
  | .nil => 1
  | .scalar _ => 1
  | .array _ es => countElems es + 1
  | .map ms => countMembers ms + 1
def countElems : List Tree → ℕ
  | [] => 0
  | e :: es => e.count + countElems es
def countMembers : List (Bytes × Tree) → ℕ
  | [] => 0
  | (_, v) :: ms => v.count + countMembers ms
end

theorem isElems_calls {es : List Tree} (h : ∀ e ∈ es, IsValue e e.calls e.count) :
    IsElems es (callsElems es) (countElems es) := by
  induction es with
  | nil => exact .nil
  | cons e es ih =>
    exact .cons (h e (List.mem_cons_self ..)) (ih fun f hf => h f (List.mem_cons_of_mem _ hf))

theorem isMembers_calls {ms : List (Bytes × Tree)}
    (h : ∀ m ∈ ms, IsValue m.2 m.2.calls m.2.count) :
    IsMembers ms (callsMembers ms) (countMembers ms) := by
  induction ms with
  | nil => exact .nil
  | cons m ms ih =>
    obtain ⟨k, v⟩ := m
    have hv : IsValue v v.calls v.count := h (k, v) (List.mem_cons_self ..)
    exact .cons k hv (ih fun n hn => h n (List.mem_cons_of_mem _ hn))

theorem isValue_calls (t : Tree) : IsValue t t.calls t.count := by
  induction t with
  | nil => exact .null
  | scalar v => exact .scalar (isScalar_generateScalar v)
  | array len es ih => exact .array (isElems_calls ih)
  | map ms ih => exact .map (isMembers_calls ih)

end Tree

section
variable [HashFcn]

/-! ### Structures that are still there -/

/-- Everything that is reached from `p` is allocated, and nothing is reached from
itself. Members of maps are nodes like the others here. -/
inductive Intact (h : Heap) : Ptr → Prop where
  | null : Intact h none
  | scalar {a : ℕ} {v : Scalar} (hc : h.cell a = some (.scalar v)) : Intact h (some a)
  | array {a : ℕ} {head : List Ptr} {len : UInt32} (hc : h.cell a = some (.array head len))
      (he : ∀ p ∈ head, Intact h p) : Intact h (some a)
  | map {a : ℕ} {kvs : Uthash ℕ} (hc : h.cell a = some (.map kvs))
      (hm : ∀ hd ∈ kvs.items, Intact h (some hd.elt)) : Intact h (some a)
  | keyValue {a : ℕ} {key : Bytes} {value : Ptr} (hc : h.cell a = some (.keyValue key value))
      (hv : Intact h value) : Intact h (some a)

namespace Located

theorem exists_elems {h : Heap} {head : List Ptr} (hh : ∀ p ∈ head, ∃ l, In h l ∧ l.ptr = p) :
    ∃ es : List Located, es.map ptr = head ∧ ∀ e ∈ es, In h e := by
  induction head with
  | nil => exact ⟨[], rfl, fun e he => absurd he List.not_mem_nil⟩
  | cons p head ih =>
    obtain ⟨l, hl, hp⟩ := hh p (List.mem_cons_self ..)
    obtain ⟨es, hes, hin⟩ := ih fun q hq => hh q (List.mem_cons_of_mem _ hq)
    refine ⟨l :: es, by rw [List.map_cons, hp, hes], fun e he => ?_⟩
    rcases List.mem_cons.mp he with rfl | he
    · exact hl
    · exact hin e he

theorem exists_members {h : Heap} {items : List (HashHandle ℕ)}
    (hh : ∀ hd ∈ items, ∃ l, In h l ∧ h.cell hd.elt = some (.keyValue hd.key l.ptr)) :
    ∃ ms : Members, items = ms.map Prod.fst ∧
      ∀ m ∈ ms, h.cell m.1.elt = some (.keyValue m.1.key m.2.ptr) ∧ In h m.2 := by
  induction items with
  | nil => exact ⟨[], rfl, fun m hm => absurd hm List.not_mem_nil⟩
  | cons hd items ih =>
    obtain ⟨l, hl, hc⟩ := hh hd (List.mem_cons_self ..)
    obtain ⟨ms, hms, hin⟩ := ih fun x hx => hh x (List.mem_cons_of_mem _ hx)
    refine ⟨(hd, l) :: ms, by rw [List.map_cons, ← hms], fun m hm => ?_⟩
    rcases List.mem_cons.mp hm with rfl | hm
    · exact ⟨hc, hl⟩
    · exact hin m hm

end Located

/-- In a sane memory an intact structure is a tree with values in all the places
of values: what a proper pointer points to, and what a member holds. -/
theorem Intact.located {h : Heap} (hs : Sane h) {p : Ptr} (hi : Intact h p) :
    (Proper h p → ∃ l, Located.In h l ∧ l.ptr = p) ∧
      ∀ a key value, p = some a → h.cell a = some (.keyValue key value) →
        ∃ l, Located.In h l ∧ l.ptr = value := by
  have hother : ∀ {a : ℕ} {n : Node}, h.cell a = some n → (∀ key value, n ≠ .keyValue key value) →
      ∀ b key value, some a = some b → h.cell b = some (.keyValue key value) →
        ∃ l, Located.In h l ∧ l.ptr = value := by
    intro a n hc hn b key value he hkv
    cases he
    rw [hc] at hkv
    exact absurd (Option.some.inj hkv) (hn key value)
  induction hi with
  | null => exact ⟨fun _ => ⟨.nil, .nil, rfl⟩, fun a key value he => absurd he (by simp)⟩
  | scalar hc => exact ⟨fun _ => ⟨_, .scalar hc, rfl⟩, hother hc fun _ _ he => by cases he⟩
  | @array a head len hc he ih =>
    refine ⟨fun _ => ?_, hother hc fun _ _ he => by cases he⟩
    obtain ⟨es, rfl, hes⟩ := Located.exists_elems fun p hp =>
      (ih p hp).1 (hs.stored a _ hc p hp)
    exact ⟨_, .array hc hes, rfl⟩
  | @map a kvs hc hm ih =>
    refine ⟨fun _ => ?_, hother hc fun _ _ he => by cases he⟩
    have hvalues : ∀ hd ∈ kvs.items, ∃ l, Located.In h l ∧
        h.cell hd.elt = some (.keyValue hd.key l.ptr) := by
      intro hd hmem
      obtain ⟨value, hkv⟩ := hs.owned.member a kvs hc hd hmem
      obtain ⟨l, hl, rfl⟩ := (ih hd hmem).2 hd.elt hd.key value rfl hkv
      exact ⟨l, hl, hkv⟩
    obtain ⟨ms, hms, hin⟩ := Located.exists_members hvalues
    exact ⟨_, .map hc hms (fun m hmem => (hin m hmem).1) (fun m hmem => (hin m hmem).2), rfl⟩
  | @keyValue a key value hc hv ih =>
    refine ⟨fun hp => absurd hc ((hp a rfl).2 key value), ?_⟩
    intro b key' value' he hkv
    cases he
    rw [hc] at hkv
    cases hkv
    exact ih.1 (hs.stored a _ hc)

/-- In every session no pointer that the caller has, that an array has for an
element or that a member has for its value is the address of a member; and
whatever tree the caller has a pointer to, the generator writes exactly one
value for it, node by node, with as many values in it as the tree has nodes. -/
theorem generate_one_value (cs : List Call) (hv : Session.start.Valid cs) :
    (∀ p ∈ (Session.start.run cs).given, Proper (Session.start.run cs).heap p) ∧
    Memory.Every (Node.Stores (Proper (Session.start.run cs).heap)) (Session.start.run cs).heap ∧
    generateNodeJson (Session.start.run cs).heap none = [.null] ∧
    ∀ p ∈ (Session.start.run cs).given, Intact (Session.start.run cs).heap p →
      ∃ l, Located.In (Session.start.run cs).heap l ∧ l.ptr = p ∧
        IsValue l.tree (generateNodeJson (Session.start.run cs).heap p) l.tree.count := by
  have hsound := Session.sound_start.run hv
  refine ⟨hsound.given, hsound.sane.stored, rfl, fun p hp hi => ?_⟩
  obtain ⟨l, hl, rfl⟩ := (hi.located hsound.sane).1 (hsound.given p hp)
  refine ⟨l, hl, rfl, ?_⟩
  rw [Located.generateNodeJson_eq hl]
  exact l.tree.isValue_calls

end

section
local instance cutFcn : HashFcn := hashMurFcn

/-- The text `{"a":` gives a map with one member and no value: `{"a":null}`. -/
theorem generate_one_value_cut :
    ∃ l, Located.In
        (Session.start.run [.op (.fromJson (.object [([97], .literal .null)]) 2)]).heap l ∧
      l.ptr = some 0 ∧ IsValue l.tree (generateNodeJson
        (Session.start.run [.op (.fromJson (.object [([97], .literal .null)]) 2)]).heap (some 0))
          l.tree.count := by
  refine (generate_one_value [.op (.fromJson (.object [([97], .literal .null)]) 2)]
    ⟨fun p hp => absurd hp List.not_mem_nil, trivial⟩).2.2.2 (some 0) (List.mem_cons_self ..) ?_
  refine .map rfl fun hd hmem => ?_
  have hhd : hd.elt = 1 := congrArg HashHandle.elt (List.mem_singleton.mp hmem)
  rw [hhd]
  exact .keyValue rfl .null

end
end Pillowtalk
