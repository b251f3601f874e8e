import Pillowtalk.Parser
import Pillowtalk.Tree

/-!
# Documents

A document is what a JSON parser reads: it fixes the callbacks that yajl
delivers for it and the tree that the callbacks should build. An open document
is one that is cut off inside its outermost container.
-/

namespace Pillowtalk

inductive Literal where
  | null
  | boolean (b : Bool)
  | integer (i : Int64)
  | double (d : Double)
  | string (s : Bytes)

namespace Literal

def callback : Literal → Callback
  | .null => .null
  | .boolean b => .boolean (if b then 1 else 0)
  | .integer i => .integer i
  | .double d => .double d
  | .string s => .string s

/-- What the node of a literal holds: integers narrowed to `int`, strings as copied. -/
def scalar : Literal → Scalar
  | .null => .null
  | .boolean b => .boolean (if b then 1 else 0)
  | .integer i => .integer i.toInt32
  | .double d => .double d
  | .string s => .string s

end Literal

inductive Json where
  | literal (v : Literal)
  | array (elems : List Json)
  | object (members : List (Bytes × Json))

namespace Json

@[elab_as_elim, induction_eliminator]
theorem ind {motive : Json → Prop} (literal : ∀ v, motive (.literal v))
    (array : ∀ es, (∀ e ∈ es, motive e) → motive (.array es))
    (object : ∀ ms, (∀ m ∈ ms, motive m.2) → motive (.object ms)) : ∀ j, motive j
  | .literal v => literal v
  | .array es => array es fun e _ => ind literal array object e
  | .object ms => object ms fun m _ => ind literal array object m.2
termination_by j => sizeOf j
decreasing_by
  · have hlt := List.sizeOf_lt_of_mem ‹e ∈ es›
    simp only [Json.array.sizeOf_spec]
    omega
  · have hlt := List.sizeOf_lt_of_mem ‹m ∈ ms›
    obtain ⟨k, v⟩ := m
    simp only [Prod.mk.sizeOf_spec, Json.object.sizeOf_spec] at hlt ⊢
    omega

mutual
def callbacks : Json → List Callback
  | .literal v => [v.callback]
  | .array es => .startArray :: (callbacksElems es ++ [.endArray])
  | .object ms => .startMap :: (callbacksMembers ms ++ [.endMap])
def callbacksElems : List Json → List Callback
  | [] => []
  | e :: es => e.callbacks ++ callbacksElems es
def callbacksMembers : List (Bytes × Json) → List Callback
  | [] => []
  | (k, v) :: ms => .mapKey k :: (v.callbacks ++ callbacksMembers ms)
end

mutual
def tree : Json → Tree
  | .literal v => .scalar v.scalar
  | .array es => .array (UInt32.ofNat es.length) (treeElems es)
  | .object ms => .map (treeMembers ms)
def treeElems : List Json → List Tree
  | [] => []
  | e :: es => e.tree :: treeElems es
def treeMembers : List (Bytes × Json) → List (Bytes × Tree)
  | [] => []
  | (k, v) :: ms => (k, v.tree) :: treeMembers ms
end

theorem callbacksElems_append (es fs : List Json) :
    callbacksElems (es ++ fs) = callbacksElems es ++ callbacksElems fs := by
  induction es with
  | nil => rfl
  | cons e es ih => simp only [List.cons_append, callbacksElems, ih, List.append_assoc]

theorem callbacksMembers_append (ms ns : List (Bytes × Json)) :
    callbacksMembers (ms ++ ns) = callbacksMembers ms ++ callbacksMembers ns := by
  induction ms with
  | nil => rfl
  | cons m ms ih =>
    obtain ⟨k, v⟩ := m
    simp only [List.cons_append, callbacksMembers, ih, List.append_assoc]

theorem treeElems_eq_map (es : List Json) : treeElems es = es.map tree := by
  induction es with
  | nil => rfl
  | cons e es ih => simp only [treeElems, List.map_cons, ih]

theorem treeMembers_eq_map (ms : List (Bytes × Json)) :
    treeMembers ms = ms.map fun m => (m.1, m.2.tree) := by
  induction ms with
  | nil => rfl
  | cons m ms ih =>
    obtain ⟨k, v⟩ := m
    simp only [treeMembers, List.map_cons, ih]

theorem tree_ne_nil (j : Json) : j.tree ≠ .nil := by
  cases j <;> simp [tree]

end Json

/-! ### Documents that are cut off -/

/-- A container that is still open: directly after `done`, after the key of a
member, or inside an element or a member value. -/
inductive OpenDoc where
  | array (done : List Json)
  | object (done : List (Bytes × Json))
  | objectKey (done : List (Bytes × Json)) (k : Bytes)
  | inArray (done : List Json) (inner : OpenDoc)
  | inObject (done : List (Bytes × Json)) (k : Bytes) (inner : OpenDoc)

namespace OpenDoc

def callbacks : OpenDoc → List Callback
  | .array done => .startArray :: Json.callbacksElems done
  | .object done => .startMap :: Json.callbacksMembers done
  | .objectKey done k => .startMap :: (Json.callbacksMembers done ++ [.mapKey k])
  | .inArray done inner => .startArray :: (Json.callbacksElems done ++ inner.callbacks)
  | .inObject done k inner =>
    .startMap :: (Json.callbacksMembers done ++ .mapKey k :: inner.callbacks)

/-- The tree with every open container closed; a key without its value has `NULL`. -/
def tree : OpenDoc → Tree
  | .array done => .array (UInt32.ofNat done.length) (Json.treeElems done)
  | .object done => .map (Json.treeMembers done)
  | .objectKey done k => .map (Json.treeMembers done ++ [(k, .nil)])
  | .inArray done inner =>
    .array (UInt32.ofNat (done.length + 1)) (Json.treeElems done ++ [inner.tree])
  | .inObject done k inner => .map (Json.treeMembers done ++ [(k, inner.tree)])

/-- The number of open containers. -/
def depth : OpenDoc → ℕ
  | .array _ => 1
  | .object _ => 1
  | .objectKey _ _ => 1
  | .inArray _ inner => inner.depth + 1
  | .inObject _ _ inner => inner.depth + 1

end OpenDoc

/-- How far a document has been read. -/
inductive Progress where
  | unread
  | unfinished (o : OpenDoc)
  | finished (j : Json)

namespace Progress

def callbacks : Progress → List Callback
  | .unread => []
  | .unfinished o => o.callbacks
  | .finished j => j.callbacks

def tree : Progress → Tree
  | .unread => .nil
  | .unfinished o => o.tree
  | .finished j => j.tree

def depth : Progress → ℕ
  | .unread => 0
  | .unfinished o => o.depth
  | .finished _ => 0

end Progress

/-! ### Arrays that `len` can count -/

/-- `len` of every array is the number of its elements. -/
inductive Tree.Counted : Tree → Prop where
  | nil : Counted .nil
  | scalar (v : Scalar) : Counted (.scalar v)
  | array {len : UInt32} {es : List Tree} (hlen : len.toNat = es.length)
      (h : ∀ e ∈ es, Counted e) : Counted (.array len es)
  | map {ms : List (Bytes × Tree)} (h : ∀ m ∈ ms, Counted m.2) : Counted (.map ms)

/-- Every array has fewer than 2^32 elements. -/
inductive Json.Short : Json → Prop where
  | literal (v : Literal) : Short (.literal v)
  | array {es : List Json} (hlen : es.length < 2 ^ 32) (h : ∀ e ∈ es, Short e) :
      Short (.array es)
  | object {ms : List (Bytes × Json)} (h : ∀ m ∈ ms, Short m.2) : Short (.object ms)

/-- `Json.Short` of what has been read. -/
def OpenDoc.Short : OpenDoc → Prop
  | .array done => done.length < 2 ^ 32 ∧ ∀ e ∈ done, e.Short
  | .object done => ∀ m ∈ done, m.2.Short
  | .objectKey done _ => ∀ m ∈ done, m.2.Short
  | .inArray done inner => done.length + 1 < 2 ^ 32 ∧ (∀ e ∈ done, e.Short) ∧ inner.Short
  | .inObject done _ inner => (∀ m ∈ done, m.2.Short) ∧ inner.Short

def Progress.Short : Progress → Prop
  | .unread => True
  | .unfinished o => o.Short
  | .finished j => j.Short

theorem toNat_ofNat_eq_iff (n : ℕ) : (UInt32.ofNat n).toNat = n ↔ n < 2 ^ 32 := by
  rw [UInt32.toNat_ofNat']
  constructor
  · intro h
    exact h ▸ Nat.mod_lt n (by decide)
  · exact Nat.mod_eq_of_lt

namespace Tree

theorem counted_array_iff {n : ℕ} {es : List Tree} (hn : es.length = n) :
    (Tree.array (UInt32.ofNat n) es).Counted ↔ n < 2 ^ 32 ∧ ∀ e ∈ es, e.Counted := by
  rw [← toNat_ofNat_eq_iff]
  constructor
  · rintro (_ | _ | ⟨hlen, h⟩ | _)
    exact ⟨hlen.trans hn, h⟩
  · exact fun ⟨hlen, h⟩ => .array (hlen.trans hn.symm) h

theorem counted_map_iff {ms : List (Bytes × Tree)} :
    (Tree.map ms).Counted ↔ ∀ m ∈ ms, m.2.Counted := by
  constructor
  · rintro (_ | _ | _ | h)
    exact h
  · exact .map

end Tree

theorem Json.short_array_iff {es : List Json} :
    (Json.array es).Short ↔ es.length < 2 ^ 32 ∧ ∀ e ∈ es, e.Short := by
  constructor
  · rintro (_ | ⟨hlen, h⟩ | _)
    exact ⟨hlen, h⟩
  · exact fun ⟨hlen, h⟩ => .array hlen h

theorem Json.short_object_iff {ms : List (Bytes × Json)} :
    (Json.object ms).Short ↔ ∀ m ∈ ms, m.2.Short := by
  constructor
  · rintro (_ | _ | h)
    exact h
  · exact .object

theorem Json.counted_iff (j : Json) : j.tree.Counted ↔ j.Short := by
  induction j with
  | literal v => exact iff_of_true (.scalar _) (.literal v)
  | array es ih =>
    have hlen : (treeElems es).length = es.length := by rw [treeElems_eq_map, List.length_map]
    rw [tree, Tree.counted_array_iff hlen, short_array_iff, treeElems_eq_map, List.forall_mem_map]
    exact and_congr_right fun _ => forall₂_congr ih
  | object ms ih =>
    rw [tree, Tree.counted_map_iff, short_object_iff, treeMembers_eq_map, List.forall_mem_map]
    exact forall₂_congr ih

theorem OpenDoc.counted_iff (o : OpenDoc) : o.tree.Counted ↔ o.Short := by
  have helems (done : List Json) : (∀ e ∈ Json.treeElems done, e.Counted) ↔
      ∀ e ∈ done, e.Short := by
    rw [Json.treeElems_eq_map, List.forall_mem_map]
    exact forall₂_congr fun e _ => e.counted_iff
  have hmembers (done : List (Bytes × Json)) : (∀ m ∈ Json.treeMembers done, m.2.Counted) ↔
      ∀ m ∈ done, m.2.Short := by
    rw [Json.treeMembers_eq_map, List.forall_mem_map]
    exact forall₂_congr fun m _ => m.2.counted_iff
  have hlength (done : List Json) : (Json.treeElems done).length = done.length := by
    rw [Json.treeElems_eq_map, List.length_map]
  induction o with
  | array done => rw [tree, Tree.counted_array_iff (hlength done), helems, Short]
  | object done => rw [tree, Tree.counted_map_iff, hmembers, Short]
  | objectKey done k =>
    rw [tree, Tree.counted_map_iff, List.forall_mem_append, hmembers, Short,
      List.forall_mem_singleton]
    exact and_iff_left .nil
  | inArray done inner ih =>
    rw [tree, Tree.counted_array_iff (by rw [List.length_append, hlength]; rfl),
      List.forall_mem_append, helems, List.forall_mem_singleton, Short]
    exact and_congr_right' (and_congr_right' ih)
  | inObject done k inner ih =>
    rw [tree, Tree.counted_map_iff, List.forall_mem_append, hmembers, List.forall_mem_singleton,
      Short]
    exact and_congr_right' ih

theorem Progress.counted_iff (r : Progress) : r.tree.Counted ↔ r.Short := by
  cases r with
  | unread => exact iff_of_true .nil trivial
  | unfinished o => exact o.counted_iff
  | finished j => exact j.counted_iff

/-! ### Every prefix is some progress -/

/-- A prefix that does not end within `xs` has read all of it. -/
theorem read_across {α : Type} {p xs ys : List α} (hp : p <+: xs ++ ys) :
    p <+: xs ∨ ∃ q, p = xs ++ q ∧ q <+: ys := by
  obtain ⟨rest, hrest⟩ := hp
  rcases List.append_eq_append_iff.mp hrest with ⟨mid, hxs, -⟩ | ⟨q, hpq, hys⟩
  · exact Or.inl ⟨mid, hxs.symm⟩
  · exact Or.inr ⟨q, hpq, rest, hys.symm⟩

theorem elems_prefix {es : List Json}
    (ih : ∀ e ∈ es, ∀ p, p <+: e.callbacks → ∃ r : Progress, r.callbacks = p) {p : List Callback}
    (hp : p <+: Json.callbacksElems es) : ∃ done, p = Json.callbacksElems done ∨
      ∃ inner : OpenDoc, p = Json.callbacksElems done ++ inner.callbacks := by
  induction es generalizing p with
  | nil => exact ⟨[], Or.inl (List.prefix_nil.mp hp)⟩
  | cons e es ihl =>
    rcases read_across hp with hp | ⟨q, rfl, hq⟩
    · obtain ⟨r, rfl⟩ := ih e (List.mem_cons_self ..) p hp
      cases r with
      | unread => exact ⟨[], Or.inl rfl⟩
      | unfinished o => exact ⟨[], Or.inr ⟨o, rfl⟩⟩
      | finished j => exact ⟨[j], Or.inl (List.append_nil _).symm⟩
    · obtain ⟨done, hd⟩ := ihl (fun f hf => ih f (List.mem_cons_of_mem _ hf)) hq
      refine ⟨e :: done, ?_⟩
      rcases hd with rfl | ⟨inner, rfl⟩
      · exact Or.inl rfl
      · exact Or.inr ⟨inner, (List.append_assoc ..).symm⟩

theorem members_prefix {ms : List (Bytes × Json)}
    (ih : ∀ m ∈ ms, ∀ p, p <+: m.2.callbacks → ∃ r : Progress, r.callbacks = p)
    {p : List Callback} (hp : p <+: Json.callbacksMembers ms) :
    ∃ done, p = Json.callbacksMembers done ∨
      (∃ k, p = Json.callbacksMembers done ++ [.mapKey k]) ∨
      ∃ (k : Bytes) (inner : OpenDoc),
        p = Json.callbacksMembers done ++ .mapKey k :: inner.callbacks := by
  induction ms generalizing p with
  | nil => exact ⟨[], Or.inl (List.prefix_nil.mp hp)⟩
  | cons m ms ihl =>
    obtain ⟨k, v⟩ := m
    rcases List.prefix_cons_iff.mp hp with rfl | ⟨t, rfl, ht⟩
    · exact ⟨[], Or.inl rfl⟩
    rcases read_across ht with ht | ⟨q, rfl, hq⟩
    · obtain ⟨r, rfl⟩ := ih (k, v) (List.mem_cons_self ..) t ht
      cases r with
      | unread => exact ⟨[], Or.inr (Or.inl ⟨k, rfl⟩)⟩
      | unfinished o => exact ⟨[], Or.inr (Or.inr ⟨k, o, rfl⟩)⟩
      | finished j => exact ⟨[(k, j)], Or.inl (by simp [Json.callbacksMembers, Progress.callbacks])⟩
    · obtain ⟨done, hd⟩ := ihl (fun n hn => ih n (List.mem_cons_of_mem _ hn)) hq
      refine ⟨(k, v) :: done, ?_⟩
      simp only [Json.callbacksMembers, List.cons_append, List.append_assoc]
      rcases hd with rfl | ⟨k', rfl⟩ | ⟨k', inner, rfl⟩
      · exact Or.inl rfl
      · exact Or.inr (Or.inl ⟨k', rfl⟩)
      · exact Or.inr (Or.inr ⟨k', inner, rfl⟩)

theorem Json.prefix_progress (j : Json) {p : List Callback} (hp : p <+: j.callbacks) :
    ∃ r : Progress, r.callbacks = p := by
  induction j generalizing p with
  | literal v =>
    rcases List.prefix_cons_iff.mp hp with rfl | ⟨t, rfl, ht⟩
    · exact ⟨.unread, rfl⟩
    · rw [List.prefix_nil.mp ht]
      exact ⟨.finished (.literal v), rfl⟩
  | array es ih =>
    rcases List.prefix_cons_iff.mp hp with rfl | ⟨t, rfl, ht⟩
    · exact ⟨.unread, rfl⟩
    rcases List.prefix_concat_iff.mp ht with rfl | ht
    · exact ⟨.finished (.array es), rfl⟩
    obtain ⟨done, rfl | ⟨inner, rfl⟩⟩ := elems_prefix (fun e he p => ih e he) ht
    · exact ⟨.unfinished (.array done), rfl⟩
    · exact ⟨.unfinished (.inArray done inner), rfl⟩
  | object ms ih =>
    rcases List.prefix_cons_iff.mp hp with rfl | ⟨t, rfl, ht⟩
    · exact ⟨.unread, rfl⟩
    rcases List.prefix_concat_iff.mp ht with rfl | ht
    · exact ⟨.finished (.object ms), rfl⟩
    obtain ⟨done, rfl | ⟨k, rfl⟩ | ⟨k, inner, rfl⟩⟩ := members_prefix (fun m hm p => ih m hm) ht
    · exact ⟨.unfinished (.object done), rfl⟩
    · exact ⟨.unfinished (.objectKey done k), rfl⟩
    · exact ⟨.unfinished (.inObject done k inner), rfl⟩

/-! ### What a document generates -/

/-- The generator call that writes what a callback delivers. -/
def Callback.call : Callback → GenCall
  | .null => .null
  | .boolean b => .bool b
  | .integer i => .integer i
  | .double d => .double d
  | .string s => .string s
  | .startMap => .mapOpen
  | .mapKey k => .string k
  | .endMap => .mapClose
  | .startArray => .arrayOpen
  | .endArray => .arrayClose

/-- What is left of a call after a stay in a node. -/
def GenCall.stored : GenCall → GenCall
  | .integer i => .integer i.toInt32.toInt64
  | .string s => .string (cstr s)
  | c => c

end Pillowtalk
