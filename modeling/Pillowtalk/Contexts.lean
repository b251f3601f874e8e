import Pillowtalk.Library.Links
import Pillowtalk.Parser

/-!
# The stack of the parser (`utlist.h:159-192`, `pillowtalk_impl.c:98-106`, `664-838`)

The contexts of the open containers are allocated one by one and linked by `next`;
`LL_PREPEND` and `LL_DELETE` move the head. The callbacks are those of `Parser`
otherwise. Reading through a pointer to nothing is undefined and has no result.
-/

namespace Pillowtalk
open Addressed Links

/-- `pt_container_ctx_t`. -/
structure CtxLinks where
  container : ℕ
  cur : Ptr
  next : Option ℕ

abbrev Ctxs := Memory CtxLinks

namespace Ctxs

def setNext (m : Ctxs) (a : ℕ) (next : Option ℕ) : Ctxs := m.modify a fun x => { x with next := next }

/-- `LL_PREPEND`. -/
def llPrepend (m : Ctxs) (head : Option ℕ) (add : ℕ) : Ctxs × Option ℕ :=
  (m.setNext add head, some add)

/-- The loop of `LL_DELETE`. -/
def llBefore (m : Ctxs) (del : ℕ) : ℕ → ℕ → Option ℕ
  | 0, _ => none
  | fuel + 1, el => (m.cell el).bind fun x =>
    match x.next with
    | some next => if next = del then some el else llBefore m del fuel next
    | none => some el

/-- `LL_DELETE`. -/
def llDelete (m : Ctxs) (head : Option ℕ) (del : ℕ) : Option (Ctxs × Option ℕ) :=
  if head = some del then (m.cell del).map fun x => (m, x.next)
  else head.bind fun el => (llBefore m del m.next el).bind fun el => (m.cell el).bind fun x =>
    match x.next with
    | some _ => (m.cell del).map fun d => (m.setNext el d.next, head)
    | none => some (m, head)

/-- `free_parser_ctx`, but for the context of the parser itself. -/
def freeParserCtx : ℕ → Ctxs → Option ℕ → Option Ctxs
  | _, m, none => some m
  | 0, _, some _ => none
  | fuel + 1, m, some oldHead => (m.llDelete (some oldHead) oldHead).bind fun r =>
    freeParserCtx fuel (r.1.free oldHead) r.2

end Ctxs

/-! ### Linked contexts -/

/-- A context by its address. -/
abbrev Frame := ℕ × ContainerCtx

def Frame.At (m : Ctxs) (f : Frame) (_ : Unit) (n : Option Frame) : Prop :=
  m.cell f.1 = some ⟨f.2.container, f.2.cur, n.map Prod.fst⟩

/-- The contexts `l` are linked from `head`. -/
structure Linked (m : Ctxs) (head : Option ℕ) (l : List Frame) : Prop where
  head : head = l.head?.map Prod.fst
  chain : Chain unlinked (Frame.At m) () l none
  nodup : (l.map Prod.fst).Nodup

section
variable {m m' : Ctxs} {head : Option ℕ} {f x del : Frame} {l l₁ l₂ r : List Frame}

theorem Linked.cell_of_mem (h : Linked m head l) (hf : f ∈ l) : (m.cell f.1).isSome := by
  obtain ⟨l₁, l₂, rfl⟩ := List.append_of_mem hf
  rw [h.chain.mid]
  rfl

theorem Linked.congr (h : Linked m head l) (hsame : ∀ f ∈ l, m'.cell f.1 = m.cell f.1) :
    Linked m' head l := by
  refine ⟨h.head, h.chain.congr ?_, h.nodup⟩
  intro f hf p n hat
  exact (hsame f hf).trans hat

theorem Linked.llPrepend (h : Linked m head l) {a : ℕ} {ctx : ContainerCtx} {next : Option ℕ}
    (ha : m.cell a = some ⟨ctx.container, ctx.cur, next⟩) (hnew : a ∉ l.map Prod.fst) :
    Linked (m.llPrepend head a).1 (m.llPrepend head a).2 ((a, ctx) :: l) := by
  have hother : ∀ f ∈ l, (m.setNext a head).cell f.1 = m.cell f.1 := fun f hf =>
    Memory.modify_cell_ne m _ fun he => hnew (he ▸ List.mem_map_of_mem hf)
  constructor
  · rfl
  · constructor
    · rw [Option.or_none, Frame.At, ← h.head]
      exact Memory.modify_cell_self _ ha
    · exact (h.congr hother).chain
  · exact List.nodup_cons.mpr ⟨hnew, h.nodup⟩

theorem llBefore_chain (h : Chain unlinked (Frame.At m) () (x :: r ++ del :: l₂) none)
    (hdel : del.1 ∉ (x :: r).map Prod.fst) {fuel : ℕ} (hf : r.length < fuel) :
    m.llBefore del.1 fuel x.1 = some ((x :: r).getLast (List.cons_ne_nil x r)).1 := by
  induction r generalizing x fuel with
  | nil =>
    cases fuel with
    | zero => exact absurd hf (Nat.not_lt_zero _)
    | succ fuel =>
      have hx : m.cell x.1 = some ⟨x.2.container, x.2.cur, some del.1⟩ := h.1
      rw [Ctxs.llBefore, hx, Option.bind_some]
      exact if_pos rfl
  | cons z r ih =>
    cases fuel with
    | zero => exact absurd hf (Nat.not_lt_zero _)
    | succ fuel =>
      have hx : m.cell x.1 = some ⟨x.2.container, x.2.cur, some z.1⟩ := h.1
      have hz : z.1 ≠ del.1 := fun he => hdel (he ▸ List.mem_cons_of_mem _ (List.mem_cons_self ..))
      have hrest := ih h.2 (fun hm => hdel (List.mem_cons_of_mem _ hm)) (Nat.lt_of_succ_lt_succ hf)
      rw [Ctxs.llBefore, hx, Option.bind_some, List.getLast_cons (List.cons_ne_nil z r)]
      exact (if_neg hz).trans hrest

/-- `LL_DELETE` takes an element out wherever it is in the list. -/
theorem Linked.llDelete (h : Linked m head (l₁ ++ del :: l₂)) :
    ∃ m', m.llDelete head del.1 = some (m', (l₁ ++ l₂).head?.map Prod.fst) ∧
      Linked m' ((l₁ ++ l₂).head?.map Prod.fst) (l₁ ++ l₂) ∧
      ∀ a, (m'.cell a).isSome = (m.cell a).isSome := by
  have hdel : m.cell del.1 = some ⟨del.2.container, del.2.cur, l₂.head?.map Prod.fst⟩ := by
    have hmid := h.chain.mid
    rwa [Option.or_none] at hmid
  have hnd := h.nodup
  rw [List.map_append, List.map_cons] at hnd
  obtain ⟨hnd₁, hnd₂, hdis⟩ := List.nodup_append.mp hnd
  have hnd' : ((l₁ ++ l₂).map Prod.fst).Nodup := by
    rw [List.map_append]
    exact List.nodup_append.mpr ⟨hnd₁, (List.nodup_cons.mp hnd₂).2,
      fun a ha b hb => hdis a ha b (List.mem_cons_of_mem _ hb)⟩
  cases l₁ with
  | nil =>
    refine ⟨m, ?_, ⟨rfl, h.chain.2, hnd'⟩, fun _ => rfl⟩
    rw [Ctxs.llDelete, if_pos (show head = some del.1 from h.head), hdel]
    rfl
  | cons x r =>
    have hnot : del.1 ∉ (x :: r).map Prod.fst := fun hm => hdis _ hm _ (List.mem_cons_self ..) rfl
    have hhead : head = some x.1 := h.head
    have hxdel : some x.1 ≠ some del.1 := by
      intro he
      exact hnot (Option.some.inj he ▸ List.mem_cons_self ..)
    have hlen : ((x :: r).map Prod.fst).length ≤ m.next := by
      apply Memory.length_le_next m hnd₁
      intro a ha
      obtain ⟨f, hf, rfl⟩ := List.mem_map.mp ha
      obtain ⟨c, hc⟩ := Option.isSome_iff_exists.mp (h.cell_of_mem (List.mem_append_left _ hf))
      exact Memory.lt_next hc
    rw [List.length_map] at hlen
    have hbefore := llBefore_chain h.chain hnot (Nat.lt_of_succ_le hlen)
    -- `y` is the element before `del`
    obtain ⟨pre, y, hsplit, hlast⟩ : ∃ pre y, x :: r = pre ++ [y] ∧
        (x :: r).getLast (List.cons_ne_nil x r) = y :=
      ⟨_, _, (List.dropLast_append_getLast (List.cons_ne_nil x r)).symm, rfl⟩
    rw [hlast] at hbefore
    have hy : m.cell y.1 = some ⟨y.2.container, y.2.cur, some del.1⟩ := by
      have hchain := h.chain
      rw [hsplit, List.append_assoc] at hchain
      exact hchain.mid
    have hother : ∀ a, a ≠ y.1 → (m.setNext y.1 (l₂.head?.map Prod.fst)).cell a = m.cell a :=
      fun a ha => Memory.modify_cell_ne m _ ha
    have hmem : y.1 ∈ (x :: r).map Prod.fst := by
      rw [hsplit]
      exact List.mem_map_of_mem (List.mem_append_right _ (List.mem_singleton_self y))
    have hafter : ∀ b ∈ l₂, b.1 ≠ y.1 := fun b hb he =>
      hdis _ hmem _ (List.mem_cons_of_mem _ (List.mem_map_of_mem hb)) he.symm
    refine ⟨m.setNext y.1 (l₂.head?.map Prod.fst), ?_, ⟨rfl, ?_, hnd'⟩, ?_⟩
    · simp only [Ctxs.llDelete, if_neg hxdel, hhead, Option.bind_some, hbefore, hy, hdel,
        Option.map_some]
      rfl
    · apply h.chain.erase
      · intro b p hb hat
        have hby : b = y := by
          rw [hsplit, List.getLast?_concat] at hb
          exact (Option.some.inj hb).symm
        rw [hby, Option.or_none]
        exact Memory.modify_cell_self _ hy
      · intro b hb p n hat
        have hne : b.1 ≠ y.1 := by
          apply ne_last_of_mem_dropLast hnd₁ _ hb
          rw [hsplit, List.getLast?_concat]
        exact (hother _ hne).trans hat
      · intro b n hb hat
        exact (hother _ (hafter b (List.mem_of_head? hb))).trans hat
      · intro b hb p n hat
        exact (hother _ (hafter b (List.mem_of_mem_tail hb))).trans hat
    · intro a
      rw [Ctxs.setNext, Memory.modify_cell]
      split
      · exact Option.isSome_map
      · rfl

end

/-! ### The callbacks -/

variable [HashFcn]

/-- `pt_parser_ctx_t`, with the memory that the callbacks write to. -/
structure LinkedParser where
  heap : Heap
  root : Ptr
  stack : Option ℕ
  ctxs : Ctxs

namespace LinkedParser

/-- `context->stack->cur`, if there is a stack. -/
def cur (s : LinkedParser) : Ptr := (s.stack.bind s.ctxs.cell).bind CtxLinks.cur

def addNodeToContextContainer (s : LinkedParser) (value : Ptr) : LinkedParser :=
  match s.cur with
  | some cur => { s with heap := s.heap.modify cur (Node.attach value) }
  | none => { s with root := value }

def addNewNode (s : LinkedParser) (n : Node) : LinkedParser :=
  addNodeToContextContainer { s with heap := s.heap.alloc n } (some s.heap.next)

def jsonMapKey (s : LinkedParser) (str : Bytes) : Option LinkedParser :=
  s.stack.bind fun stack => (s.ctxs.cell stack).bind fun top =>
  match s.heap.cell top.container with
  | some (.map kvs) => some { s with
      heap := (s.heap.alloc (.keyValue str none)).modify top.container
        (Node.setKeyValues (kvs.hashAddKeyptr str s.heap.next))
      ctxs := s.ctxs.modify stack fun x => { x with cur := some s.heap.next } }
  | _ => none

/-- `calloc` of a context and `LL_PREPEND`. -/
def pushContainer (s : LinkedParser) (container : ℕ) (cur : Ptr) : LinkedParser :=
  let r := Ctxs.llPrepend (s.ctxs.alloc ⟨container, cur, none⟩) s.stack s.ctxs.next
  { s with ctxs := r.1, stack := r.2 }

def jsonStartMap (s : LinkedParser) : LinkedParser :=
  pushContainer (addNewNode s (.map hashNull)) s.heap.next none

def jsonStartArray (s : LinkedParser) : LinkedParser :=
  pushContainer (addNewNode s (.array [] 0)) s.heap.next (some s.heap.next)

def popContainer (s : LinkedParser) (type : PtType) : Option LinkedParser :=
  s.stack.bind fun oldHead => (s.ctxs.cell oldHead).bind fun top =>
  if typeOf s.heap (some top.container) = some type then
    (s.ctxs.llDelete s.stack oldHead).map fun r =>
      { s with ctxs := r.1.free oldHead, stack := r.2 }
  else none

def callback (s : LinkedParser) : Callback → Option LinkedParser
  | .null => some (s.addNewNode (.scalar .null))
  | .boolean boolean => some (s.addNewNode (.scalar (.boolean boolean)))
  | .integer integer => some (s.addNewNode (.scalar (.integer integer.toInt32)))
  | .double dbl => some (s.addNewNode (.scalar (.double dbl)))
  | .string str => some (s.addNewNode (.scalar (.string str)))
  | .startMap => some s.jsonStartMap
  | .mapKey str => s.jsonMapKey str
  | .endMap => s.popContainer .map
  | .startArray => some s.jsonStartArray
  | .endArray => s.popContainer .array

def runCallbacks (s : LinkedParser) : List Callback → Option LinkedParser
  | [] => some s
  | c :: cs => (s.callback c).bind fun s => runCallbacks s cs

/-- `parse_json`, with the contexts that are left. -/
def parseJson (h : Heap) (cs : List Callback) : Option (Heap × Ptr × Ctxs) :=
  (runCallbacks ⟨h, none, none, Memory.empty⟩ cs).bind fun s =>
    (Ctxs.freeParserCtx s.ctxs.next s.ctxs s.stack).map fun ctxs => (s.heap, s.root, ctxs)

end LinkedParser

/-! ### The links and the list -/

/-- The links hold the stack of `t`, in the contexts `l`, and no other context is allocated. -/
structure Stacked (s : LinkedParser) (t : ParserState) (l : List Frame) : Prop where
  heap : s.heap = t.heap
  root : s.root = t.root
  stack : l.map Prod.snd = t.stack
  linked : Linked s.ctxs s.stack l
  live : ∀ a, (s.ctxs.cell a).isSome ↔ a ∈ l.map Prod.fst

namespace Stacked
variable {s : LinkedParser} {t : ParserState} {f : Frame} {l : List Frame}

theorem cons_top (h : Stacked s t (f :: l)) : s.stack = some f.1 ∧ t.stack = f.2 :: l.map Prod.snd ∧
    s.ctxs.cell f.1 = some ⟨f.2.container, f.2.cur, l.head?.map Prod.fst⟩ := by
  have hcell := h.linked.chain.1
  rw [Option.or_none] at hcell
  exact ⟨h.linked.head, h.stack.symm, hcell⟩

theorem cur_eq (h : Stacked s t l) : s.cur = t.cur := by
  cases l with
  | nil =>
    rw [LinkedParser.cur, ParserState.cur, h.linked.head, ← h.stack]
    rfl
  | cons f l =>
    obtain ⟨hs, ht, hcell⟩ := h.cons_top
    rw [LinkedParser.cur, ParserState.cur, hs, ht, Option.bind_some, hcell]
    rfl

theorem addNewNode (h : Stacked s t l) (n : Node) :
    Stacked (s.addNewNode n) (addNewNode t n) l := by
  have hcur : LinkedParser.cur { s with heap := s.heap.alloc n } =
      ParserState.cur { t with heap := t.heap.alloc n } := h.cur_eq
  rw [LinkedParser.addNewNode, Pillowtalk.addNewNode, LinkedParser.addNodeToContextContainer,
    addNodeToContextContainer, hcur, h.heap]
  cases ParserState.cur { t with heap := t.heap.alloc n } with
  | some cur => exact ⟨rfl, h.root, h.stack, h.linked, h.live⟩
  | none => exact ⟨rfl, rfl, h.stack, h.linked, h.live⟩

theorem pushContainer (h : Stacked s t l) (container : ℕ) (cur : Ptr) :
    Stacked (s.pushContainer container cur) (pushContainer t container cur)
      ((s.ctxs.next, ⟨container, cur⟩) :: l) := by
  have hnew : s.ctxs.next ∉ l.map Prod.fst := by
    intro hm
    obtain ⟨c, hc⟩ := Option.isSome_iff_exists.mp ((h.live _).mpr hm)
    exact absurd (Memory.lt_next hc) (Nat.lt_irrefl _)
  have hold : Linked (s.ctxs.alloc ⟨container, cur, none⟩) s.stack l := by
    apply h.linked.congr
    intro f hf
    exact Memory.alloc_cell_ne _ _ fun he => hnew (he ▸ List.mem_map_of_mem hf)
  constructor
  · exact h.heap
  · exact h.root
  · exact congrArg _ h.stack
  · exact hold.llPrepend (Memory.alloc_cell_next _ _) hnew
  · intro a
    show (((s.ctxs.alloc _).modify _ _).cell a).isSome ↔ a ∈ s.ctxs.next :: l.map Prod.fst
    rw [Memory.modify_cell, List.mem_cons, ← h.live a]
    by_cases ha : a = s.ctxs.next
    · rw [if_pos ha, ha, Memory.alloc_cell_next]
      simp
    · rw [if_neg ha, Memory.alloc_cell_ne _ _ ha]
      simp [ha]

/-- The top of the stack is taken off and released. -/
theorem popHead (h : Stacked s t (f :: l)) :
    ∃ m, s.ctxs.llDelete (some f.1) f.1 = some (m, l.head?.map Prod.fst) ∧
      Linked (m.free f.1) (l.head?.map Prod.fst) l ∧
      ∀ a, ((m.free f.1).cell a).isSome ↔ a ∈ l.map Prod.fst := by
  obtain ⟨hs, -, -⟩ := h.cons_top
  have hl : Linked s.ctxs (some f.1) ([] ++ f :: l) := hs ▸ h.linked
  obtain ⟨m, hm, hlinked, hlive⟩ := hl.llDelete
  obtain ⟨hnot, -⟩ := List.nodup_cons.mp h.linked.nodup
  refine ⟨m, hm, hlinked.congr ?_, fun a => ?_⟩
  · intro g hg
    exact Memory.free_cell_ne _ fun he => hnot (he ▸ List.mem_map_of_mem hg)
  · rw [Memory.free_cell]
    by_cases ha : a = f.1
    · have hno : f.1 ∉ l.map Prod.fst := hnot
      rw [if_pos ha, ha]
      simpa using hno
    · rw [if_neg ha, hlive, h.live, List.map_cons, List.mem_cons]
      simp [ha]

theorem popContainer (h : Stacked s t l) (type : PtType) :
    (popContainer t type = none ∧ s.popContainer type = none) ∨
      ∃ s' t' l', popContainer t type = some t' ∧ s.popContainer type = some s' ∧
        Stacked s' t' l' := by
  cases l with
  | nil =>
    refine Or.inl ⟨?_, ?_⟩
    · rw [Pillowtalk.popContainer, ← h.stack]
      rfl
    · rw [LinkedParser.popContainer, h.linked.head]
      rfl
  | cons f l =>
    obtain ⟨hs, ht, hcell⟩ := h.cons_top
    simp only [Pillowtalk.popContainer, ht, LinkedParser.popContainer, hs, Option.bind_some, hcell,
      h.heap]
    split
    · obtain ⟨m, hm, hlinked, hlive⟩ := h.popHead
      refine Or.inr ⟨⟨t.heap, s.root, l.head?.map Prod.fst, m.free f.1⟩, _, l, rfl, ?_, rfl, h.root,
        rfl, hlinked, hlive⟩
      rw [hm]
      rfl
    · exact Or.inl ⟨rfl, rfl⟩

theorem jsonMapKey (h : Stacked s t l) (str : Bytes) :
    (jsonMapKey t str = none ∧ s.jsonMapKey str = none) ∨
      ∃ s' t' l', jsonMapKey t str = some t' ∧ s.jsonMapKey str = some s' ∧ Stacked s' t' l' := by
  cases l with
  | nil =>
    refine Or.inl ⟨?_, ?_⟩
    · rw [Pillowtalk.jsonMapKey, ← h.stack]
      rfl
    · rw [LinkedParser.jsonMapKey, h.linked.head]
      rfl
  | cons f l =>
    obtain ⟨hs, ht, hcell⟩ := h.cons_top
    simp only [Pillowtalk.jsonMapKey, ht, LinkedParser.jsonMapKey, hs, Option.bind_some, hcell,
      h.heap]
    cases hmap : t.heap.cell f.2.container with
    | none => exact Or.inl ⟨rfl, rfl⟩
    | some n =>
      cases n with
      | map kvs =>
        have hnd := h.linked.nodup
        refine Or.inr ⟨_, _, (f.1, ⟨f.2.container, some t.heap.next⟩) :: l, rfl, rfl, rfl, h.root,
          rfl, ⟨?_, ⟨?_, ?_⟩, hnd⟩, ?_⟩
        · rfl
        · rw [Option.or_none]
          exact Memory.modify_cell_self _ hcell
        · apply h.linked.chain.2.congr
          intro g hg p n hat
          refine (Memory.modify_cell_ne _ _ fun he => ?_).trans hat
          exact (List.nodup_cons.mp hnd).1 (he ▸ List.mem_map_of_mem hg)
        · intro a
          have hlive := h.live a
          show ((s.ctxs.modify f.1 _).cell a).isSome ↔ a ∈ (f :: l).map Prod.fst
          rw [← hlive, Memory.modify_cell]
          split
          · rw [Option.isSome_map]
          · rfl
      | scalar value => exact Or.inl ⟨rfl, rfl⟩
      | array head len => exact Or.inl ⟨rfl, rfl⟩
      | keyValue key value => exact Or.inl ⟨rfl, rfl⟩

theorem jsonStartMap (h : Stacked s t l) : ∃ l', Stacked s.jsonStartMap (jsonStartMap t) l' := by
  refine ⟨((s.addNewNode (.map hashNull)).ctxs.next, ⟨t.heap.next, none⟩) :: l, ?_⟩
  rw [LinkedParser.jsonStartMap, h.heap]
  exact (h.addNewNode _).pushContainer _ _

theorem jsonStartArray (h : Stacked s t l) :
    ∃ l', Stacked s.jsonStartArray (jsonStartArray t) l' := by
  refine ⟨((s.addNewNode (.array [] 0)).ctxs.next, ⟨t.heap.next, some t.heap.next⟩) :: l, ?_⟩
  rw [LinkedParser.jsonStartArray, h.heap]
  exact (h.addNewNode _).pushContainer _ _

theorem callback (h : Stacked s t l) (c : Callback) :
    (callback t c = none ∧ s.callback c = none) ∨
      ∃ s' t' l', callback t c = some t' ∧ s.callback c = some s' ∧ Stacked s' t' l' := by
  cases c with
  | null => exact Or.inr ⟨_, _, l, rfl, rfl, h.addNewNode _⟩
  | boolean boolean => exact Or.inr ⟨_, _, l, rfl, rfl, h.addNewNode _⟩
  | integer integer => exact Or.inr ⟨_, _, l, rfl, rfl, h.addNewNode _⟩
  | double dbl => exact Or.inr ⟨_, _, l, rfl, rfl, h.addNewNode _⟩
  | string str => exact Or.inr ⟨_, _, l, rfl, rfl, h.addNewNode _⟩
  | startMap =>
    obtain ⟨l', h'⟩ := h.jsonStartMap
    exact Or.inr ⟨_, _, l', rfl, rfl, h'⟩
  | mapKey str => exact h.jsonMapKey str
  | endMap => exact h.popContainer .map
  | startArray =>
    obtain ⟨l', h'⟩ := h.jsonStartArray
    exact Or.inr ⟨_, _, l', rfl, rfl, h'⟩
  | endArray => exact h.popContainer .array

theorem runCallbacks (h : Stacked s t l) (cs : List Callback) :
    (runCallbacks t cs = none ∧ s.runCallbacks cs = none) ∨
      ∃ s' t' l', runCallbacks t cs = some t' ∧ s.runCallbacks cs = some s' ∧
        Stacked s' t' l' := by
  induction cs generalizing s t l with
  | nil => exact Or.inr ⟨s, t, l, rfl, rfl, h⟩
  | cons c cs ih =>
    rw [Pillowtalk.runCallbacks, LinkedParser.runCallbacks]
    rcases h.callback c with ⟨ht, hs⟩ | ⟨s₁, t₁, l₁, ht, hs, h₁⟩
    · rw [ht, hs]
      exact Or.inl ⟨rfl, rfl⟩
    · rw [ht, hs, Option.bind_some, Option.bind_some]
      exact ih h₁

/-- However many containers are still open, `free_parser_ctx` releases their contexts. -/
theorem freeParserCtx (h : Stacked s t l) {fuel : ℕ} (hf : l.length ≤ fuel) :
    ∃ m, Ctxs.freeParserCtx fuel s.ctxs s.stack = some m ∧ ∀ a, m.cell a = none := by
  induction l generalizing s t fuel with
  | nil =>
    refine ⟨s.ctxs, ?_, fun a => ?_⟩
    · rw [h.linked.head]
      cases fuel <;> rfl
    · refine Option.not_isSome_iff_eq_none.mp fun hsome => ?_
      exact absurd ((h.live a).mp hsome) List.not_mem_nil
  | cons f l ih =>
    cases fuel with
    | zero => exact absurd hf (Nat.not_succ_le_zero _)
    | succ fuel =>
      obtain ⟨hs, ht, -⟩ := h.cons_top
      obtain ⟨m, hm, hlinked, hlive⟩ := h.popHead
      have hrest : Stacked { s with ctxs := m.free f.1, stack := l.head?.map Prod.fst }
          { t with stack := l.map Prod.snd } l := ⟨h.heap, h.root, rfl, hlinked, hlive⟩
      obtain ⟨m', hm', hnone⟩ := ih hrest (Nat.le_of_succ_le_succ hf)
      refine ⟨m', ?_, hnone⟩
      rw [hs, Ctxs.freeParserCtx, hm, Option.bind_some]
      exact hm'

end Stacked

/-- Whatever callbacks are delivered, those of a text cut short among them, the linked
contexts lead them to the same nodes as the stack, and `parse_json` leaves none
of the contexts behind. -/
theorem parse_contexts (h : Heap) (cs : List Callback) :
    (LinkedParser.parseJson h cs).map (fun r => (r.1, r.2.1)) = parseJson h cs ∧
      ∀ r, LinkedParser.parseJson h cs = some r → ∀ a, r.2.2.cell a = none := by
  have hstart : Stacked ⟨h, none, none, Memory.empty⟩ (emptyParser h) [] := by
    refine ⟨rfl, rfl, rfl, ⟨rfl, trivial, List.nodup_nil⟩, fun a => ?_⟩
    simp [Memory.empty]
  rw [LinkedParser.parseJson, parseJson]
  rcases hstart.runCallbacks cs with ⟨ht, hs⟩ | ⟨s, t, l, ht, hs, hst⟩
  · rw [ht, hs]
    exact ⟨rfl, nofun⟩
  · have hlen : l.length ≤ s.ctxs.next := by
      rw [← List.length_map Prod.fst]
      apply Memory.length_le_next _ hst.linked.nodup
      intro a ha
      obtain ⟨c, hc⟩ := Option.isSome_iff_exists.mp ((hst.live a).mpr ha)
      exact Memory.lt_next hc
    obtain ⟨m, hm, hnone⟩ := hst.freeParserCtx hlen
    rw [ht, hs, Option.bind_some, hm, Option.map_some]
    constructor
    · rw [Option.map_some, Option.map_some, hst.heap, hst.root]
    · rintro r ⟨⟩
      exact hnone

end Pillowtalk
