import Mathlib.Logic.Function.Basic
import Pillowtalk.Getters
import Pillowtalk.Path
import Pillowtalk.UpdateSpec

/-!
# Programs over the library

A caller keeps the trees it owns in variables, edits and reads them at the end
of lookups, gives trees away to maps and arrays, and frees the others. Such a
program can be understood without a memory: its variables hold values, an
assignment copies, and giving away clears a variable. Beside each command stands
what it comes to over values.
-/

namespace Pillowtalk
open Addressed

abbrev Var := ℕ

/-- A node inside a tree: the variable that holds the tree, and the lookups that
lead to the node. -/
structure Site where
  var : Var
  path : Path

/-- A constructor call. -/
inductive Maker where
  | null
  | bool (boolean : Int32)
  | integer (integer : Int32)
  | double (dbl : Double)
  | string (str : Bytes)
  | array
  | map

-- `mapSet`, `arrayPushBack` and `arrayPushFront` give the tree in `w` away, if the
-- node at `p` is of the type to take it. `arrayRemove` passes what `pt_array_get`
-- finds at `idx`. `freeNode` clears the variable.
inductive Cmd where
  | make (v : Var) (m : Maker)
  | fromJson (v : Var) (r : Progress)
  | clone (v : Var) (p : Site)
  | mapSet (p : Site) (key : Option Bytes) (w : Var)
  | mapUnset (p : Site) (key : Bytes)
  | mapUpdate (p q : Site) (append : Int32)
  | arrayPushBack (p : Site) (w : Var)
  | arrayPushFront (p : Site) (w : Var)
  | arrayRemove (p : Site) (idx : UInt32)
  | freeNode (v : Var)
  | read (p : Site)
  | toJson (p : Site)

/-- What a command lets the caller see. -/
inductive Output where
  | done
  | code (c : Int32)
  | reading (r : Reading)
  | json (calls : List GenCall)

/-! ### Over values -/

def Maker.tree : Maker → Tree
  | .null => .scalar .null
  | .bool boolean => .scalar (.boolean boolean)
  | .integer value => .scalar (.integer value)
  | .double dbl => .scalar (.double dbl)
  | .string str => .scalar (.string (cstr str))
  | .array => .array 0 []
  | .map => .map []

/-- The element that leaves: the one at `idx`, or the first `NULL` where `idx`
leads to none. -/
def Tree.leaving (es : List Tree) (idx : UInt32) : ℕ :=
  if ((es[idx.toNat]?).getD .nil).type = none then es.findIdx (·.type == none) else idx.toNat

def Tree.removed (len : UInt32) (es : List Tree) (idx : UInt32) : Tree :=
  if Tree.leaving es idx < es.length then .array (len - 1) (es.eraseIdx (Tree.leaving es idx))
  else .array len es

abbrev Store := Var → Tree

namespace Store

def start : Store := fun _ => .nil

def node (σ : Store) (p : Site) : Tree := (σ p.var).reach p.path

def put (σ : Store) (p : Site) (t : Tree) : Store :=
  Function.update σ p.var ((σ p.var).put p.path t)

def clear (σ : Store) (w : Var) : Store := Function.update σ w .nil

def step (σ : Store) : Cmd → Store × Output
  | .make v m => (Function.update σ v m.tree, .done)
  | .fromJson v r => (Function.update σ v r.tree, .done)
  | .clone v p => (Function.update σ v (σ.node p).clone, .done)
  | .mapSet p key w =>
    match σ.node p, key with
    | .map ms, some key => ((σ.put p (.map (Tree.setMember ms (cstr key) (σ w)))).clear w, .done)
    | _, _ => (σ, .done)
  | .mapUnset p key =>
    match σ.node p with
    | .map ms => (σ.put p (.map (Ordered.unset ms (cstr key))), .done)
    | _ => (σ, .done)
  | .mapUpdate p q _ =>
    match σ.node p with
    | .map ms =>
      (σ.put p ((Tree.map ms).update (σ.node q)).1, .code ((Tree.map ms).update (σ.node q)).2)
    | _ => (σ, .code 1)
  | .arrayPushBack p w =>
    match σ.node p with
    | .array len es => ((σ.put p (.array (len + 1) (es ++ [σ w]))).clear w, .done)
    | _ => (σ, .done)
  | .arrayPushFront p w =>
    match σ.node p with
    | .array len es => ((σ.put p (.array (len + 1) (σ w :: es))).clear w, .done)
    | _ => (σ, .done)
  | .arrayRemove p idx =>
    match σ.node p with
    | .array len es => (σ.put p (Tree.removed len es idx), .done)
    | _ => (σ, .done)
  | .freeNode v => (σ.clear v, .done)
  | .read p => (σ, .reading (σ.node p).reading)
  | .toJson p => (σ, .json (σ.node p).calls)

def run (σ : Store) : List Cmd → Store × List Output
  | [] => (σ, [])
  | c :: cs => ((run (σ.step c).1 cs).1, (σ.step c).2 :: (run (σ.step c).1 cs).2)

/-- What the caller sees to: no assignment goes over a tree, none is given to
itself or merged into itself, no text that is parsed repeats a key, and every key
stored can be found. -/
def Allows (σ : Store) : Cmd → Prop
  | .make v _ => σ v = .nil
  | .fromJson v r => σ v = .nil ∧ r.tree.Searchable
  | .clone v _ => σ v = .nil
  | .mapSet p key w => p.var ≠ w ∧ ∀ k ∈ key, Fits (cstr k)
  | .mapUpdate p q _ => p.var ≠ q.var
  | .arrayPushBack p w => p.var ≠ w
  | .arrayPushFront p w => p.var ≠ w
  | _ => True

def Valid : Store → List Cmd → Prop
  | _, [] => True
  | σ, c :: cs => σ.Allows c ∧ Valid (σ.step c).1 cs

end Store

/-! ### Over the memory -/

section
variable [HashFcn]

def Maker.make (h : Heap) : Maker → Heap × Ptr
  | .null => ptNullNew h
  | .bool boolean => ptBoolNew h boolean
  | .integer value => ptIntegerNew h value
  | .double dbl => ptDoubleNew h dbl
  | .string str => ptStringNew h str
  | .array => ptArrayNew h
  | .map => ptMapNew h

structure Client where
  heap : Heap
  env : Var → Ptr

namespace Client

def start : Client := ⟨heapEmpty, fun _ => none⟩

def node (c : Client) (p : Site) : Ptr := follow c.heap (c.env p.var) p.path

def assign (c : Client) (v : Var) (r : Heap × Ptr) : Client :=
  ⟨r.1, Function.update c.env v r.2⟩

/-- The memory has changed, and the tree in `w` may have been taken over. -/
def give (c : Client) (h : Heap) (w : Var) (taken : Bool) : Client :=
  ⟨h, if taken then Function.update c.env w none else c.env⟩

def step (c : Client) : Cmd → Client × Output
  | .make v m => (c.assign v (m.make c.heap), .done)
  | .fromJson v r => (c.assign v ((parseJson c.heap r.callbacks).getD (c.heap, none)), .done)
  | .clone v p => (c.assign v (ptClone c.heap (c.node p)), .done)
  | .mapSet p key w =>
    (c.give (ptMapSet c.heap (c.node p) key (c.env w)) w
      ((asMap c.heap (c.node p)).isSome && key.isSome), .done)
  | .mapUnset p key => (⟨ptMapUnset c.heap (c.node p) key, c.env⟩, .done)
  | .mapUpdate p q append =>
    (⟨(ptMapUpdate c.heap (c.node p) (c.node q) append).1, c.env⟩,
      .code (ptMapUpdate c.heap (c.node p) (c.node q) append).2)
  | .arrayPushBack p w =>
    (c.give (ptArrayPushBack c.heap (c.node p) (c.env w)) w
      (asArray c.heap (c.node p)).isSome, .done)
  | .arrayPushFront p w =>
    (c.give (ptArrayPushFront c.heap (c.node p) (c.env w)) w
      (asArray c.heap (c.node p)).isSome, .done)
  | .arrayRemove p idx =>
    (⟨ptArrayRemove c.heap (c.node p) (ptArrayGet c.heap (c.node p) idx), c.env⟩, .done)
  | .freeNode v => (c.assign v (ptFreeNode c.heap (c.env v), none), .done)
  | .read p => (c, .reading (readNode c.heap (c.node p)))
  | .toJson p => (c, .json (generateNodeJson c.heap (c.node p)))

def run (c : Client) : List Cmd → Client × List Output
  | [] => (c, [])
  | cmd :: cmds =>
    ((run (c.step cmd).1 cmds).1, (c.step cmd).2 :: (run (c.step cmd).1 cmds).2)

end Client

/-! ### Where the values are -/

/-- The variables hold the trees `L`, which are the values `σ`; they share no
cell, and there are no other cells. -/
structure Laid (c : Client) (σ : Store) (L : Var → Located) : Prop where
  within : ∀ v, Located.In c.heap (L v)
  ptr : ∀ v, (L v).ptr = c.env v
  tree : ∀ v, (L v).tree = σ v
  parted : Memory.Parted c.heap fun v => (L v).addrs
  keyed : Memory.Every Node.Keyed c.heap

namespace Laid
variable {c : Client} {σ : Store} {L : Var → Located}

theorem start : Laid Client.start Store.start fun _ => .nil := by
  constructor
  · exact fun _ => .nil
  · exact fun _ => rfl
  · exact fun _ => rfl
  · constructor
    · exact fun _ => List.nodup_nil
    · exact fun _ _ _ x hx => absurd hx List.not_mem_nil
    · exact fun _ x hx => absurd hx List.not_mem_nil
    · exact fun x hx => absurd rfl hx
  · exact Memory.every_empty _

theorem node (hl : Laid c σ L) (p : Site) :
    c.node p = ((L p.var).reach p.path).ptr ∧ Located.In c.heap ((L p.var).reach p.path) := by
  rw [Client.node, ← hl.ptr]
  exact Located.follow_eq (hl.within p.var) ((hl.within p.var).keyed hl.keyed) p.path

theorem tree_node (hl : Laid c σ L) (p : Site) :
    ((L p.var).reach p.path).tree = σ.node p := by
  rw [Located.tree_reach, hl.tree]
  rfl

/-- The tree in `v` became another. -/
theorem replace (hl : Laid c σ L) {v : Var} {h' : Heap} {l' : Located}
    (hy : Located.Yields c.heap h' (L v).addrs l') (hd : Memory.Every Node.Keyed h') :
    Laid ⟨h', Function.update c.env v l'.ptr⟩ (Function.update σ v l'.tree)
      (Function.update L v l') := by
  have hapart : ∀ u, u ≠ v → ∀ x ∈ (L v).addrs, x ∉ (L u).addrs :=
    fun u hu => hl.parted.apart v u hu.symm
  constructor
  · intro u
    by_cases hu : u = v
    · rw [hu, Function.update_self]
      exact hy.within
    · rw [Function.update_of_ne hu]
      exact hy.still (hl.within u) (hapart u hu)
  · intro u
    by_cases hu : u = v
    · rw [hu, Function.update_self]
      exact (Function.update_self v l'.ptr c.env).symm
    · rw [Function.update_of_ne hu, hl.ptr]
      exact (Function.update_of_ne hu l'.ptr c.env).symm
  · intro u
    by_cases hu : u = v
    · rw [hu, Function.update_self, Function.update_self]
    · rw [Function.update_of_ne hu, Function.update_of_ne hu, hl.tree]
  · apply hl.parted.swap hy.swaps (· = v)
    · exact fun x => ⟨fun hx => ⟨v, rfl, hx⟩, fun ⟨_, he, hx⟩ => he ▸ hx⟩
    · exact fun u hu => by rw [Function.update_of_ne hu]
    · rintro u rfl
      rw [Function.update_self]
      exact hy.nodup
    · rintro u rfl x hx
      rw [Function.update_self] at hx
      exact ⟨hx, Option.ne_none_iff_exists'.mpr (hy.within.live hx)⟩
    · exact fun x hx => ⟨v, rfl, by rwa [Function.update_self]⟩
    · rintro u w rfl rfl hne
      exact absurd rfl hne
  · exact hd

/-- The tree in `v` became another, and took over the one in `w`. -/
theorem take (hl : Laid c σ L) {v w : Var} (hvw : v ≠ w) {h' : Heap} {l' : Located}
    (hy : Located.Yields c.heap h' ((L v).addrs ++ (L w).addrs) l')
    (hd : Memory.Every Node.Keyed h') :
    Laid ⟨h', Function.update (Function.update c.env v l'.ptr) w none⟩
      (Function.update (Function.update σ v l'.tree) w .nil)
      (Function.update (Function.update L v l') w .nil) := by
  have hapart : ∀ u, u ≠ v → u ≠ w → ∀ x ∈ (L v).addrs ++ (L w).addrs, x ∉ (L u).addrs := by
    intro u hu huw x hx
    rcases List.mem_append.mp hx with hx | hx
    · exact hl.parted.apart v u hu.symm x hx
    · exact hl.parted.apart w u huw.symm x hx
  have hv : Function.update (Function.update L v l') w .nil v = l' := by
    rw [Function.update_of_ne hvw, Function.update_self]
  have hw : Function.update (Function.update L v l') w .nil w = .nil := Function.update_self ..
  have hother : ∀ u, u ≠ v → u ≠ w → Function.update (Function.update L v l') w .nil u = L u := by
    intro u hu huw
    rw [Function.update_of_ne huw, Function.update_of_ne hu]
  constructor
  · intro u
    by_cases huw : u = w
    · rw [huw, hw]
      exact .nil
    by_cases hu : u = v
    · rw [hu, hv]
      exact hy.within
    · rw [hother u hu huw]
      exact hy.still (hl.within u) (hapart u hu huw)
  · intro u
    show _ = Function.update (Function.update c.env v l'.ptr) w none u
    by_cases huw : u = w
    · rw [huw, hw, Function.update_self]
      rfl
    rw [Function.update_of_ne huw, Function.update_of_ne huw]
    by_cases hu : u = v
    · rw [hu, Function.update_self, Function.update_self]
    · rw [Function.update_of_ne hu, Function.update_of_ne hu, hl.ptr]
  · intro u
    by_cases huw : u = w
    · rw [huw, hw, Function.update_self]
      rfl
    rw [Function.update_of_ne huw, Function.update_of_ne huw]
    by_cases hu : u = v
    · rw [hu, Function.update_self, Function.update_self]
    · rw [Function.update_of_ne hu, Function.update_of_ne hu, hl.tree]
  · apply hl.parted.swap hy.swaps fun u => u = v ∨ u = w
    · intro x
      rw [List.mem_append]
      constructor
      · rintro (hx | hx)
        · exact ⟨v, Or.inl rfl, hx⟩
        · exact ⟨w, Or.inr rfl, hx⟩
      · rintro ⟨u, rfl | rfl, hx⟩
        · exact Or.inl hx
        · exact Or.inr hx
    · intro u hu
      rw [not_or] at hu
      rw [hother u hu.1 hu.2]
    · rintro u (rfl | rfl)
      · rw [hv]
        exact hy.nodup
      · rw [hw]
        exact List.nodup_nil
    · rintro u (rfl | rfl) x hx
      · rw [hv] at hx
        exact ⟨hx, Option.ne_none_iff_exists'.mpr (hy.within.live hx)⟩
      · rw [hw] at hx
        exact absurd hx List.not_mem_nil
    · exact fun x hx => ⟨v, Or.inl rfl, by rwa [hv]⟩
    · rintro u u' (rfl | rfl) (rfl | rfl) hne x hx hx'
      · exact hne rfl
      · rw [hw] at hx'
        exact List.not_mem_nil hx'
      · rw [hw] at hx
        exact List.not_mem_nil hx
      · exact hne rfl
  · exact hd

/-! ### An edit at a place -/

theorem put (hl : Laid c σ L) {p : Site} {h' : Heap} {w' : Located}
    (hne : (L p.var).reach p.path ≠ .nil)
    (hy : Located.Yields c.heap h' ((L p.var).reach p.path).addrs w')
    (hp : w'.ptr = ((L p.var).reach p.path).ptr) (hd : Memory.Every Node.Keyed h') :
    ∃ L', Laid ⟨h', c.env⟩ (σ.put p w'.tree) L' := by
  rw [← List.append_nil ((L p.var).reach p.path).addrs] at hy
  obtain ⟨l', hy', hptr, htree⟩ := Located.Yields.reach p.path (hl.within p.var)
    (hl.parted.nodup p.var) hne hy hp fun x hx => absurd hx List.not_mem_nil
  rw [List.append_nil] at hy'
  have hlaid := hl.replace hy' hd
  rw [hptr, hl.ptr, Function.update_eq_self, htree, hl.tree] at hlaid
  exact ⟨_, hlaid⟩

theorem putTaking (hl : Laid c σ L) {p : Site} {w : Var} (hvw : p.var ≠ w) {h' : Heap}
    {w' : Located} (hne : (L p.var).reach p.path ≠ .nil)
    (hy : Located.Yields c.heap h' (((L p.var).reach p.path).addrs ++ (L w).addrs) w')
    (hp : w'.ptr = ((L p.var).reach p.path).ptr) (hd : Memory.Every Node.Keyed h') :
    ∃ L', Laid (c.give h' w true) ((σ.put p w'.tree).clear w) L' := by
  obtain ⟨l', hy', hptr, htree⟩ := Located.Yields.reach p.path (hl.within p.var)
    (hl.parted.nodup p.var) hne hy hp (hl.parted.apart w p.var hvw.symm)
  have hlaid := hl.take hvw hy' hd
  rw [hptr, hl.ptr, Function.update_eq_self, htree, hl.tree] at hlaid
  exact ⟨_, hlaid⟩

/-- The node at a place and the tree in a variable beside it share no cell. -/
theorem nodup_beside (hl : Laid c σ L) {p : Site} {w : Var} (hvw : p.var ≠ w) :
    (((L p.var).reach p.path).addrs ++ (L w).addrs).Nodup := by
  apply List.nodup_append.mpr
  refine ⟨Located.nodup_reach p.path (hl.parted.nodup p.var), hl.parted.nodup w, ?_⟩
  rintro x hx y hy rfl
  exact hl.parted.apart p.var w hvw x (Located.reach_addrs p.path hx) hy

/-! ### One command -/

/-- What a command does to the memory and the variables it does to the values. -/
def Commutes (c : Client) (σ : Store) (cmd : Cmd) : Prop :=
  (∃ L', Laid (c.step cmd).1 (σ.step cmd).1 L') ∧ (c.step cmd).2 = (σ.step cmd).2

theorem assign (hl : Laid c σ L) {v : Var} (hv : c.env v = none) {r : Heap × Ptr} {l' : Located}
    (hy : Located.Yields c.heap r.1 [] l') (hp : r.2 = l'.ptr)
    (hd : Memory.Every Node.Keyed r.1) :
    ∃ L', Laid (c.assign v r) (Function.update σ v l'.tree) L' := by
  have hnil : L v = .nil := Located.ptr_eq_none.mp ((hl.ptr v).trans hv)
  have haddrs : (L v).addrs = [] := by
    rw [hnil]
    rfl
  rw [← haddrs] at hy
  have hlaid := hl.replace hy hd
  rw [← hp] at hlaid
  exact ⟨_, hlaid⟩

theorem make (hl : Laid c σ L) {v : Var} (hv : c.env v = none) (m : Maker) :
    Commutes c σ (.make v m) := by
  have hone : ∀ w : Scalar, Located.Yields c.heap (c.heap.alloc (.scalar w)) []
      (.scalar c.heap.next w) :=
    fun w => Located.Yields.new (.scalar (Memory.alloc_cell_next _ _)) rfl
  have hscalar : ∀ w : Scalar, ∃ L', Laid (c.assign v (newNode c.heap (.scalar w)))
      (Function.update σ v (.scalar w)) L' :=
    fun w => hl.assign (r := newNode c.heap (.scalar w)) hv (hone w) rfl
      (hl.keyed.alloc (show Node.Keyed (.scalar w) from ⟨trivial, trivial⟩))
  constructor
  · cases m with
    | null => exact hscalar .null
    | bool boolean => exact hscalar (.boolean boolean)
    | integer value => exact hscalar (.integer value)
    | double dbl => exact hscalar (.double dbl)
    | string str => exact hscalar (.string (cstr str))
    | array =>
      have hin : Located.In (c.heap.alloc (.array [] 0)) (.array c.heap.next 0 []) :=
        .array (Memory.alloc_cell_next _ _) fun e he => absurd he List.not_mem_nil
      exact hl.assign (r := ptArrayNew c.heap) hv (Located.Yields.new hin rfl) rfl
        (hl.keyed.alloc editable_keyed.arrayNew)
    | map =>
      have hin : Located.In (c.heap.alloc (.map hashNull)) (.map c.heap.next []) :=
        .map (Memory.alloc_cell_next _ _) rfl (fun m hm => absurd hm List.not_mem_nil)
          fun m hm => absurd hm List.not_mem_nil
      exact hl.assign (r := ptMapNew c.heap) hv (Located.Yields.new hin rfl) rfl
        (hl.keyed.alloc editable_keyed.mapNew)
  · rfl

theorem fromJson (hl : Laid c σ L) {v : Var} (hv : c.env v = none) {r : Progress}
    (hr : r.tree.Searchable) : Commutes c σ (.fromJson v r) := by
  obtain ⟨s, l, hparse, hp, htree⟩ := r.parseJson_eq c.heap
  constructor
  · simp only [Client.step, hparse, Option.getD_some, Store.step, ← htree]
    exact hl.assign hv (Located.yields_of_parsed hp) rfl (hp.keyed (htree ▸ hr) hl.keyed)
  · rfl

theorem clone (hl : Laid c σ L) {v : Var} (hv : c.env v = none) (p : Site) :
    Commutes c σ (.clone v p) := by
  obtain ⟨hnode, hin⟩ := hl.node p
  obtain ⟨l', hy, hptr, htree⟩ := Located.ptClone_yields hin (hin.keyed hl.keyed).short
  constructor
  · simp only [Client.step, hnode, Store.step, ← hl.tree_node p, ← htree]
    exact hl.assign hv hy hptr (editable_keyed.edit hl.keyed (.clone _) trivial)
  · rfl

theorem freeNode (hl : Laid c σ L) (v : Var) : Commutes c σ (.freeNode v) := by
  have hy : Located.Yields c.heap (ptFreeNode c.heap (L v).ptr) (L v).addrs .nil :=
    ⟨.nil, List.nodup_nil, Located.ptFreeNode_swaps (hl.within v) (hl.parted.nodup v)⟩
  have hlaid := hl.replace hy (editable_keyed.edit hl.keyed (.freeNode (L v).ptr) trivial)
  rw [hl.ptr] at hlaid
  constructor
  · exact ⟨_, hlaid⟩
  · rfl

theorem read (hl : Laid c σ L) (p : Site) : Commutes c σ (.read p) := by
  obtain ⟨hnode, hin⟩ := hl.node p
  constructor
  · exact ⟨L, hl⟩
  · simp only [Client.step, Store.step, hnode, Located.readNode_eq hin, hl.tree_node]

theorem toJson (hl : Laid c σ L) (p : Site) : Commutes c σ (.toJson p) := by
  obtain ⟨hnode, hin⟩ := hl.node p
  constructor
  · exact ⟨L, hl⟩
  · simp only [Client.step, Store.step, hnode, Located.generateNodeJson_eq hin, hl.tree_node]

/-! ### Commands on a map -/

/-- At a place there is a map, its keys distinct and all found, or there is none for either
side. -/
theorem map_or (hl : Laid c σ L) (p : Site) :
    (∃ a ms kvs, (L p.var).reach p.path = .map a ms ∧ c.heap.cell a = some (.map kvs) ∧
      c.node p = some a ∧ σ.node p = .map (Located.treeMembers ms) ∧
      Tree.Keyed (Located.treeMembers ms)) ∨
    asMap c.heap (c.node p) = none ∧ ∀ ms, σ.node p ≠ .map ms := by
  obtain ⟨hnode, hin⟩ := hl.node p
  have htree := hl.tree_node p
  by_cases hmap : ∃ a ms, (L p.var).reach p.path = .map a ms
  · obtain ⟨a, ms, hr⟩ := hmap
    rw [hr] at hnode hin htree
    obtain ⟨kvs, hc, -⟩ := hin.mapCell
    exact Or.inl ⟨a, ms, kvs, hr, hc, hnode, htree.symm, (hin.keyed hl.keyed).members.1⟩
  · right
    constructor
    · rw [hnode]
      exact Located.asMap_of_not_map hin fun a ms hr => hmap ⟨a, ms, hr⟩
    · intro ms hms
      obtain ⟨a, ns, hr, -⟩ := Located.tree_eq_map (htree.trans hms)
      exact hmap ⟨a, ns, hr⟩

theorem mapSet (hl : Laid c σ L) {p : Site} {w : Var} (hvw : p.var ≠ w) {key : Option Bytes}
    (hkey : ∀ k ∈ key, Fits (cstr k)) : Commutes c σ (.mapSet p key w) := by
  constructor
  · rcases hl.map_or p with ⟨a, ms, kvs, hr, hc, hnode, htree, hkeys⟩ | ⟨hnone, hnot⟩
    · cases key with
      | none =>
        simp only [Client.step, Store.step, hnode, htree, ptMapSet, Located.asMap_of_in hc,
          Option.isSome_none, Bool.and_false, Client.give, Bool.false_eq_true, if_false]
        exact ⟨L, hl⟩
      | some key =>
        have hin := (hl.node p).2
        have hnd := hl.nodup_beside hvw
        have hne : (L p.var).reach p.path ≠ .nil := by
          rw [hr]
          simp
        have hd : Memory.Every Node.Keyed (ptMapSet c.heap (some a) (some key) (c.env w)) :=
          editable_keyed.mapSet hl.keyed _ _ _ hkey
        simp only [Client.step, Store.step, hnode, htree, Located.asMap_of_in hc, Option.isSome_some,
          Bool.and_true]
        rw [hr] at hin hnd
        by_cases hw : L w = .nil
        · have henv : c.env w = none := (hl.ptr w).symm.trans (Located.ptr_eq_none.mpr hw)
          have hval : σ w = .nil := (hl.tree w).symm.trans (Located.tree_eq_nil.mpr hw)
          have hsame : ptMapSet c.heap (some a) (some key) none = c.heap := by
            simp only [ptMapSet, Located.asMap_of_in hc]
          have hy : Located.Yields c.heap c.heap (((L p.var).reach p.path).addrs ++ (L w).addrs)
              (.map a ms) := by
            rw [hr, hw]
            simp only [Located.addrs, List.append_nil]
            exact Located.Yields.refl hin (List.nodup_append.mp hnd).1
          rw [henv, hsame, hval]
          exact hl.putTaking hvw hne hy (by rw [hr]) hl.keyed
        · obtain ⟨ms', hy, hms'⟩ := Located.ptMapSet_yields hin (hl.within w) hw hnd hkeys key
          rw [hl.ptr, ← hr] at hy
          rw [← hl.tree, Tree.setMember_of_ne (Located.tree_eq_nil.not.mpr hw), ← hms']
          exact hl.putTaking hvw hne hy (by rw [hr]; rfl) hd
    · have hsame : ptMapSet c.heap (c.node p) key (c.env w) = c.heap := by
        simp only [ptMapSet, hnone]
      have hval : (σ.step (.mapSet p key w)).1 = σ := by
        simp only [Store.step]
        split
        · next hms => exact absurd hms (hnot _)
        · rfl
      rw [hval]
      simp only [Client.step, hnone, hsame, Option.isSome_none, Bool.false_and, Client.give,
        Bool.false_eq_true, if_false]
      exact ⟨L, hl⟩
  · simp only [Client.step, Store.step]
    split <;> rfl

theorem mapUnset (hl : Laid c σ L) (p : Site) (key : Bytes) :
    Commutes c σ (.mapUnset p key) := by
  constructor
  · rcases hl.map_or p with ⟨a, ms, kvs, hr, hc, hnode, htree, hkeys⟩ | ⟨hnone, hnot⟩
    · have hin := (hl.node p).2
      have hnd := Located.nodup_reach p.path (hl.parted.nodup p.var)
      have hne : (L p.var).reach p.path ≠ .nil := by
        rw [hr]
        simp
      rw [hr] at hin hnd
      obtain ⟨ms', hy, hms'⟩ := Located.ptMapUnset_yields hin hnd hkeys key
      simp only [Client.step, Store.step, hnode, htree, ← hms']
      rw [← hr] at hy
      exact hl.put hne hy (by rw [hr]; rfl)
        (editable_keyed.edit hl.keyed (.mapUnset (some a) key) trivial)
    · have hval : (σ.step (.mapUnset p key)).1 = σ := by
        simp only [Store.step]
      rw [hval]
      simp only [Client.step, ptMapUnset, hnone]
      exact ⟨L, hl⟩
  · simp only [Client.step, Store.step]
    split <;> rfl

theorem mapUpdate (hl : Laid c σ L) {p q : Site} (hpq : p.var ≠ q.var) (append : Int32) :
    Commutes c σ (.mapUpdate p q append) := by
  obtain ⟨hq, hinq⟩ := hl.node q
  rcases hl.map_or p with ⟨a, ms, kvs, hr, hc, hnode, htree, hkeys⟩ | ⟨hnone, hnot⟩
  · have hin := (hl.node p).2
    have hne : (L p.var).reach p.path ≠ .nil := by
      rw [hr]
      simp
    have hnd : (((L p.var).reach p.path).addrs ++ ((L q.var).reach q.path).addrs).Nodup := by
      apply List.nodup_append.mpr
      refine ⟨Located.nodup_reach p.path (hl.parted.nodup p.var),
        Located.nodup_reach q.path (hl.parted.nodup q.var), ?_⟩
      rintro x hx y hy rfl
      exact hl.parted.apart p.var q.var hpq x (Located.reach_addrs p.path hx)
        (Located.reach_addrs q.path hy)
    obtain ⟨r', hy, hptr, hupd, hcode⟩ :=
      Located.ptMapUpdate_yields hin hinq hnd (hin.keyed hl.keyed) (hinq.keyed hl.keyed).short append
    rw [hl.tree_node p, hl.tree_node q, htree] at hupd hcode
    have hd := editable_keyed.edit hl.keyed
      (.mapUpdate ((L p.var).reach p.path).ptr ((L q.var).reach q.path).ptr append
        (c.heap.next + 1)) trivial
    constructor
    · simp only [Client.step, Store.step, (hl.node p).1, hq, htree, ← hupd]
      exact hl.put hne hy hptr hd
    · simp only [Client.step, Store.step, (hl.node p).1, hq, htree, ← hcode]
  · have hstep : ptMapUpdate c.heap (c.node p) (c.node q) append = (c.heap, 1) :=
      Located.updateMap_of_root_none hnone _ append
    have hval : σ.step (.mapUpdate p q append) = (σ, .code 1) := by
      simp only [Store.step]
    rw [Commutes, hval]
    simp only [Client.step, hstep]
    exact ⟨⟨L, hl⟩, trivial⟩

/-! ### Commands on an array -/

theorem array_or (hl : Laid c σ L) (p : Site) :
    (∃ a len es, (L p.var).reach p.path = .array a len es ∧ c.node p = some a ∧
      σ.node p = .array len (Located.treeElems es)) ∨
    asArray c.heap (c.node p) = none ∧ ∀ len es, σ.node p ≠ .array len es := by
  obtain ⟨hnode, hin⟩ := hl.node p
  have htree := hl.tree_node p
  cases hr : (L p.var).reach p.path with
  | array a len es =>
    rw [hr] at hnode htree
    exact Or.inl ⟨a, len, es, rfl, hnode, htree.symm⟩
  | nil =>
    rw [hr] at hnode hin htree
    refine Or.inr ⟨hnode ▸ Located.asArray_of_not_array hin (by simp), ?_⟩
    rw [← htree]
    simp [Located.tree]
  | scalar a v =>
    rw [hr] at hnode hin htree
    refine Or.inr ⟨hnode ▸ Located.asArray_of_not_array hin (by simp), ?_⟩
    rw [← htree]
    simp [Located.tree]
  | map a ms =>
    rw [hr] at hnode hin htree
    refine Or.inr ⟨hnode ▸ Located.asArray_of_not_array hin (by simp), ?_⟩
    rw [← htree]
    simp [Located.tree]

theorem arrayPushBack (hl : Laid c σ L) {p : Site} {w : Var} (hvw : p.var ≠ w) :
    Commutes c σ (.arrayPushBack p w) := by
  constructor
  · rcases hl.array_or p with ⟨a, len, es, hr, hnode, htree⟩ | ⟨hnone, hnot⟩
    · have hin := (hl.node p).2
      have hnd := hl.nodup_beside hvw
      have hne : (L p.var).reach p.path ≠ .nil := by
        rw [hr]
        simp
      have hd := editable_keyed.edit hl.keyed (.arrayPushBack (some a) (c.env w)) trivial
      rw [hr] at hin hnd
      have hy := Located.ptArrayPushBack_yields hin (hl.within w) hnd
      have hval : (Located.array a (len + 1) (es ++ [L w])).tree =
          .array (len + 1) (Located.treeElems es ++ [σ w]) := by
        simp only [Located.tree, Located.treeElems_append, Located.treeElems, hl.tree]
      rw [← hr, hl.ptr] at hy
      simp only [Client.step, Store.step, hnode, htree, Located.asArray_of_in hin,
        Option.isSome_some, ← hval]
      exact hl.putTaking hvw hne hy (by rw [hr]; rfl) hd
    · have hval : (σ.step (.arrayPushBack p w)).1 = σ := by
        simp only [Store.step]
      rw [hval]
      simp only [Client.step, ptArrayPushBack, hnone, Option.isSome_none, Client.give,
        Bool.false_eq_true, if_false]
      exact ⟨L, hl⟩
  · simp only [Client.step, Store.step]
    split <;> rfl

theorem arrayPushFront (hl : Laid c σ L) {p : Site} {w : Var} (hvw : p.var ≠ w) :
    Commutes c σ (.arrayPushFront p w) := by
  constructor
  · rcases hl.array_or p with ⟨a, len, es, hr, hnode, htree⟩ | ⟨hnone, hnot⟩
    · have hin := (hl.node p).2
      have hnd := hl.nodup_beside hvw
      have hne : (L p.var).reach p.path ≠ .nil := by
        rw [hr]
        simp
      have hd := editable_keyed.edit hl.keyed (.arrayPushFront (some a) (c.env w)) trivial
      rw [hr] at hin hnd
      have hy := Located.ptArrayPushFront_yields hin (hl.within w) hnd
      have hval : (Located.array a (len + 1) (L w :: es)).tree =
          .array (len + 1) (σ w :: Located.treeElems es) := by
        simp only [Located.tree, Located.treeElems, hl.tree]
      rw [← hr, hl.ptr] at hy
      simp only [Client.step, Store.step, hnode, htree, Located.asArray_of_in hin,
        Option.isSome_some, ← hval]
      exact hl.putTaking hvw hne hy (by rw [hr]; rfl) hd
    · have hval : (σ.step (.arrayPushFront p w)).1 = σ := by
        simp only [Store.step]
      rw [hval]
      simp only [Client.step, ptArrayPushFront, hnone, Option.isSome_none, Client.give,
        Bool.false_eq_true, if_false]
      exact ⟨L, hl⟩
  · simp only [Client.step, Store.step]
    split <;> rfl

omit [HashFcn] in
/-- The element that `pt_array_remove` takes out is the first with its pointer,
and lies where the values say, or there is none. -/
theorem leaving_cases {es : List Located} (hnd : (Located.addrsElems es).Nodup) (idx : UInt32) :
    (∃ pre e post, es = pre ++ e :: post ∧ ((es[idx.toNat]?).getD .nil).ptr = e.ptr ∧
      e.ptr ∉ pre.map Located.ptr ∧ Tree.leaving (Located.treeElems es) idx = pre.length) ∨
    ((es[idx.toNat]?).getD .nil).ptr ∉ es.map Located.ptr ∧
      es.length ≤ Tree.leaving (Located.treeElems es) idx := by
  have hfound : ((Located.treeElems es)[idx.toNat]?).getD .nil =
      ((es[idx.toNat]?).getD .nil).tree := by
    rw [Located.treeElems_eq_map, List.getElem?_map]
    cases es[idx.toNat]? <;> rfl
  have htype : ((es[idx.toNat]?).getD .nil).tree.type = none ↔
      (es[idx.toNat]?).getD .nil = .nil := by
    rw [Tree.type_eq_none, Located.tree_eq_nil]
  have hnone : ∀ e : Located, (e.tree.type == none) = true ↔ e.ptr = none := by
    intro e
    rw [beq_iff_eq, Tree.type_eq_none, Located.tree_eq_nil, Located.ptr_eq_none]
  have hidx : (Located.treeElems es).findIdx (·.type == none) =
      es.findIdx fun e => e.tree.type == none := by
    rw [Located.treeElems_eq_map, List.findIdx_map]
    rfl
  unfold Tree.leaving
  rw [hfound, hidx]
  by_cases hnil : (es[idx.toNat]?).getD .nil = .nil
  · rw [if_pos (htype.mpr hnil), hnil]
    by_cases hsome : ∃ e ∈ es, (e.tree.type == none) = true
    · have hlt := List.findIdx_lt_length_of_exists hsome
      have he := (hnone _).mp (List.findIdx_getElem (w := hlt))
      obtain ⟨pre, post, hes, hlen⟩ := Located.split_of_getElem? (List.getElem?_eq_getElem hlt)
      refine Or.inl ⟨pre, _, post, hes, he.symm, ?_, hlen.symm⟩
      intro hmem
      obtain ⟨f, hf, hptr⟩ := List.mem_map.mp hmem
      obtain ⟨i, hi, rfl⟩ := List.getElem_of_mem hf
      have hget : es[i]? = some pre[i] := by
        rw [hes, List.getElem?_append_left hi, List.getElem?_eq_getElem hi]
      obtain ⟨hi', hget⟩ := List.getElem?_eq_some_iff.mp hget
      have hfalse := List.not_of_lt_findIdx (hlen ▸ hi)
      rw [hget, (hnone _).mpr (hptr.trans he)] at hfalse
      cases hfalse
    · right
      constructor
      · intro hmem
        obtain ⟨f, hf, hptr⟩ := List.mem_map.mp hmem
        exact hsome ⟨f, hf, (hnone f).mpr hptr⟩
      · apply (List.findIdx_eq_length.mpr _).ge
        exact fun e he => Bool.eq_false_iff.mpr fun ht => hsome ⟨e, he, ht⟩
  · rw [if_neg fun h => hnil (htype.mp h)]
    left
    cases he : es[idx.toNat]? with
    | none =>
      rw [he] at hnil
      exact absurd rfl hnil
    | some e =>
      rw [he, Option.getD_some] at hnil
      obtain ⟨pre, post, rfl, hlen⟩ := Located.split_of_getElem? he
      refine ⟨pre, e, post, rfl, rfl, ?_, hlen.symm⟩
      intro hmem
      obtain ⟨f, hf, hptr⟩ := List.mem_map.mp hmem
      obtain ⟨a, ha⟩ := Option.ne_none_iff_exists'.mp fun h => hnil (Located.ptr_eq_none.mp h)
      rw [Located.addrsElems_append] at hnd
      exact (List.nodup_append.mp hnd).2.2 a
        (Located.mem_addrsElems hf (Located.ptr_mem_addrs (hptr.trans ha))) a
        (List.mem_append_left _ (Located.ptr_mem_addrs ha)) rfl

theorem arrayRemove (hl : Laid c σ L) (p : Site) (idx : UInt32) :
    Commutes c σ (.arrayRemove p idx) := by
  constructor
  · rcases hl.array_or p with ⟨a, len, es, hr, hnode, htree⟩ | ⟨hnone, hnot⟩
    · have hin := (hl.node p).2
      have hnd := Located.nodup_reach p.path (hl.parted.nodup p.var)
      have hne : (L p.var).reach p.path ≠ .nil := by
        rw [hr]
        simp
      rw [hr] at hin hnd
      have hd := editable_keyed.edit hl.keyed
        (.arrayRemove (some a) (ptArrayGet c.heap (some a) idx)) trivial
      have hlength : (Located.treeElems es).length = es.length := by
        rw [Located.treeElems_eq_map, List.length_map]
      simp only [Client.step, Store.step, hnode, htree, Tree.removed, hlength]
      rw [Located.ptArrayGet_eq hin] at hd ⊢
      rcases leaving_cases (List.nodup_cons.mp hnd).2 idx with
        ⟨pre, e, post, hes, hget, hfirst, hleave⟩ | ⟨hout, hleave⟩
      · have hval : (Located.array a (len - 1) (pre ++ post)).tree =
            .array (len - 1) ((Located.treeElems es).eraseIdx pre.length) := by
          have hplace : (Located.treeElems pre).length = pre.length := by
            rw [Located.treeElems_eq_map, List.length_map]
          rw [hes, Located.tree, Located.treeElems_append, Located.treeElems_append,
            List.eraseIdx_append_of_length_le hplace.le, hplace, Nat.sub_self]
          rfl
        rw [hleave, if_pos (by rw [hes, List.length_append, List.length_cons]; omega), ← hval]
        rw [hget] at hd ⊢
        rw [hes] at hin hnd
        have hy := Located.ptArrayRemove_yields hin hnd hfirst
        rw [← hes, ← hr] at hy
        exact hl.put hne hy (by rw [hr]; rfl) hd
      · have hsame : ptArrayRemove c.heap (some a) ((es[idx.toNat]?).getD .nil).ptr = c.heap := by
          simp only [ptArrayRemove, Located.asArray_of_in hin, if_neg hout]
        have hy : Located.Yields c.heap c.heap ((L p.var).reach p.path).addrs (.array a len es) := by
          rw [hr]
          exact Located.Yields.refl hin hnd
        rw [hsame, if_neg (by omega)]
        exact hl.put hne hy (by rw [hr]) hl.keyed
    · have hval : (σ.step (.arrayRemove p idx)).1 = σ := by
        simp only [Store.step]
      rw [hval]
      simp only [Client.step, ptArrayRemove, hnone]
      exact ⟨L, hl⟩
  · simp only [Client.step, Store.step]
    split <;> rfl

/-! ### Programs -/

theorem env_none (hl : Laid c σ L) {v : Var} : c.env v = none ↔ σ v = .nil := by
  rw [← hl.ptr, ← hl.tree, Located.ptr_eq_none, Located.tree_eq_nil]

theorem step (hl : Laid c σ L) {cmd : Cmd} (ha : σ.Allows cmd) : Commutes c σ cmd := by
  cases cmd with
  | make v m => exact hl.make (hl.env_none.mpr ha) m
  | fromJson v r => exact hl.fromJson (hl.env_none.mpr ha.1) ha.2
  | clone v p => exact hl.clone (hl.env_none.mpr ha) p
  | mapSet p key w => exact hl.mapSet ha.1 ha.2
  | mapUnset p key => exact hl.mapUnset p key
  | mapUpdate p q append => exact hl.mapUpdate ha append
  | arrayPushBack p w => exact hl.arrayPushBack ha
  | arrayPushFront p w => exact hl.arrayPushFront ha
  | arrayRemove p idx => exact hl.arrayRemove p idx
  | freeNode v => exact hl.freeNode v
  | read p => exact hl.read p
  | toJson p => exact hl.toJson p

theorem run (hl : Laid c σ L) {cmds : List Cmd} (hv : σ.Valid cmds) :
    (∃ L', Laid (c.run cmds).1 (σ.run cmds).1 L') ∧ (c.run cmds).2 = (σ.run cmds).2 := by
  induction cmds generalizing c σ L with
  | nil => exact ⟨⟨L, hl⟩, rfl⟩
  | cons cmd cmds ih =>
    obtain ⟨⟨L', hl'⟩, hout⟩ := hl.step hv.1
    obtain ⟨hfinal, houts⟩ := ih hl' hv.2
    constructor
    · exact hfinal
    · simp only [Client.run, Store.run, hout, houts]

/-- The memory is empty exactly when the caller holds nothing. -/
theorem empty_iff (hl : Laid c σ L) : (∀ x, c.heap.cell x = none) ↔ ∀ v, σ v = .nil := by
  constructor
  · intro hnone v
    rw [← hl.env_none, ← hl.ptr, Located.ptr_eq_none]
    by_contra hne
    obtain ⟨a, ha⟩ := Option.ne_none_iff_exists'.mp fun h => hne (Located.ptr_eq_none.mp h)
    exact hl.parted.live v a (Located.ptr_mem_addrs ha) (hnone a)
  · intro hnil x
    by_contra hlive
    obtain ⟨v, hx⟩ := hl.parted.covered x hlive
    rw [Located.tree_eq_nil.mp ((hl.tree v).trans (hnil v))] at hx
    exact List.not_mem_nil hx

end Laid

omit [HashFcn] in
theorem Store.Valid.of_prefix {σ : Store} {cmds pre : List Cmd} (hv : σ.Valid cmds)
    (hp : pre <+: cmds) : σ.Valid pre := by
  induction pre generalizing σ cmds with
  | nil => trivial
  | cons cmd pre ih =>
    obtain ⟨post, rfl⟩ := hp
    exact ⟨hv.1, ih hv.2 ⟨post, rfl⟩⟩

/-- A program lets its caller see with pointers and cells what it lets it see with
values. After each command the live cells are those of the trees in the
variables, each in one tree only. -/
theorem client_refines {cmds : List Cmd} (hv : Store.start.Valid cmds) :
    (Client.start.run cmds).2 = (Store.start.run cmds).2 ∧ ∀ pre, pre <+: cmds →
      ∃ L, Laid (Client.start.run pre).1 (Store.start.run pre).1 L := by
  constructor
  · exact (Laid.start.run hv).2
  · exact fun pre hp => (Laid.start.run (hv.of_prefix hp)).1

/-- What a program has allocated is gone when, and only when, it has given up
all its trees. -/
theorem client_leaks_nothing {cmds : List Cmd} (hv : Store.start.Valid cmds) :
    (∀ x, (Client.start.run cmds).1.heap.cell x = none) ↔
      ∀ v, (Client.start.run cmds).1.env v = none := by
  obtain ⟨L, hl⟩ := (Laid.start.run hv).1
  rw [hl.empty_iff]
  exact forall_congr' fun v => hl.env_none.symm

end

/-- No caller can tell which hash function the library was built with. -/
theorem hash_unobservable (F G : HashFcn) {cmds : List Cmd} (hv : Store.start.Valid cmds) :
    (@Client.run F (@Client.start F) cmds).2 = (@Client.run G (@Client.start G) cmds).2 :=
  (@Laid.run F _ _ _ (@Laid.start F) cmds hv).2.trans
    (@Laid.run G _ _ _ (@Laid.start G) cmds hv).2.symm

/-- `{"k": ["s"]}` is built from three trees, copied in part, and freed. -/
def editing : List Cmd :=
  [.make 0 .map, .make 1 .array, .make 2 (.string [115]), .arrayPushBack ⟨1, []⟩ 2,
    .mapSet ⟨0, []⟩ (some [107]) 1, .clone 3 ⟨0, [.key [107]]⟩,
    .arrayRemove ⟨0, [.key [107]]⟩ 0, .toJson ⟨0, []⟩, .toJson ⟨3, []⟩, .freeNode 0,
    .freeNode 3]

theorem fits_editing : ∀ k ∈ some [107], Fits (cstr k) := by
  intro k hk
  cases hk
  decide

theorem valid_editing : Store.start.Valid editing :=
  ⟨rfl, rfl, rfl, Nat.succ_ne_self 1 |>.symm, ⟨Nat.zero_ne_one, fits_editing⟩, rfl, trivial, trivial,
    trivial, trivial, trivial, trivial⟩

theorem hash_unobservable_editing :
    (@Client.run hashMurFcn (@Client.start hashMurFcn) editing).2 =
      (@Client.run ⟨fun _ => 0⟩ (@Client.start ⟨fun _ => 0⟩) editing).2 :=
  hash_unobservable hashMurFcn ⟨fun _ => 0⟩ valid_editing

section
local instance clientFcn : HashFcn := hashMurFcn

theorem client_refines_editing :
    (Client.start.run editing).2 = [.done, .done, .done, .done, .done, .done, .done,
      .json [.mapOpen, .string [107], .arrayOpen, .arrayClose, .mapClose],
      .json [.arrayOpen, .string [115], .arrayClose], .done, .done] :=
  (client_refines valid_editing).1.trans rfl

/-- The element goes with the array that took it. -/
def pushed : List Cmd :=
  [.make 0 .array, .make 1 .null, .arrayPushBack ⟨0, []⟩ 1, .freeNode 0]

theorem valid_pushed : Store.start.Valid pushed := ⟨rfl, rfl, Nat.zero_ne_one, trivial, trivial⟩

theorem client_leaks_nothing_pushed :
    (Client.start.run pushed).2 = [.done, .done, .done, .done] ∧
      ∀ x, (Client.start.run pushed).1.heap.cell x = none := by
  refine ⟨rfl, (client_leaks_nothing valid_pushed).mpr fun v => ?_⟩
  show Function.update (Function.update (Function.update (Function.update (fun _ => none) 0
    (some 0)) 1 (some 1)) 1 none) 0 none v = none
  simp only [Function.update_apply]
  split
  · rfl
  · split <;> rfl

end
end Pillowtalk
