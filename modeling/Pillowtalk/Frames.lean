import Pillowtalk.RoundTrip

/-!
# The parser stack (`pillowtalk_impl.c:664-801`, `pillowtalk_impl.h:64-75`)

The three fields of the context are set by different callbacks. Along the
callbacks of one document, read so far or to its end, they always agree: the
node that takes the next value is the innermost open array, or a member that
still has no value, and only the first value of all finds neither.
-/

namespace Pillowtalk
open Addressed

/-! ### The callbacks of one document, one by one -/

/-- Whether the document has begun, and the places of its open containers. -/
structure Expects where
  begun : Bool
  places : List Place

namespace Expects

def start : Expects := ⟨false, []⟩

def takesValue (e : Expects) : Bool :=
  match e.places with
  | [] => !e.begun
  | .key :: _ => false
  | _ => true

def next (e : Expects) : Callback → Option Expects
  | .startMap => if e.takesValue then some ⟨true, .key :: e.places⟩ else none
  | .startArray => if e.takesValue then some ⟨true, .elem :: e.places⟩ else none
  | .mapKey _ => match e.places with
    | .key :: places => some ⟨true, .value :: places⟩
    | _ => none
  | .endMap => match e.places with
    | .key :: places => some ⟨true, afterValue places⟩
    | _ => none
  | .endArray => match e.places with
    | .elem :: places => some ⟨true, afterValue places⟩
    | _ => none
  | _ => if e.takesValue then some ⟨true, afterValue e.places⟩ else none

def follow (e : Expects) : List Callback → Option Expects
  | [] => some e
  | c :: cs => (e.next c).bind fun e => e.follow cs

theorem follow_append (e : Expects) (cs ds : List Callback) :
    e.follow (cs ++ ds) = (e.follow cs).bind fun e => e.follow ds := by
  induction cs generalizing e with
  | nil => rfl
  | cons c cs ih =>
    simp only [List.cons_append, follow]
    cases e.next c with
    | none => rfl
    | some e => exact ih e

theorem next_literal {e : Expects} (he : e.takesValue = true) (v : Literal) :
    e.next v.callback = some ⟨true, afterValue e.places⟩ := by
  cases v <;> simp only [Literal.callback, next, he, if_true]

theorem next_mapKey (places : List Place) (k : Bytes) :
    next ⟨true, .key :: places⟩ (.mapKey k) = some ⟨true, .value :: places⟩ := rfl

theorem follow_json (j : Json) {e : Expects} (he : e.takesValue = true) :
    e.follow j.callbacks = some ⟨true, afterValue e.places⟩ := by
  induction j generalizing e with
  | literal v =>
    simp only [Json.callbacks, follow, next_literal he, Option.bind_some]
  | array es ih =>
    have helems : follow ⟨true, .elem :: e.places⟩ (Json.callbacksElems es) =
        some ⟨true, .elem :: e.places⟩ := by
      induction es with
      | nil => rfl
      | cons x es ihl =>
        rw [Json.callbacksElems, follow_append, ih x (List.mem_cons_self ..) rfl, Option.bind_some]
        exact ihl fun y hy => ih y (List.mem_cons_of_mem _ hy)
    simp only [Json.callbacks, follow, next, he, if_true, Option.bind_some, follow_append, helems]
  | object ms ih =>
    have hmembers : follow ⟨true, .key :: e.places⟩ (Json.callbacksMembers ms) =
        some ⟨true, .key :: e.places⟩ := by
      induction ms with
      | nil => rfl
      | cons m ms ihl =>
        obtain ⟨k, v⟩ := m
        have hval : follow ⟨true, .value :: e.places⟩ v.callbacks =
            some ⟨true, .key :: e.places⟩ := ih (k, v) (List.mem_cons_self ..) rfl
        rw [Json.callbacksMembers, follow, next_mapKey, Option.bind_some, follow_append, hval,
          Option.bind_some]
        exact ihl fun n hn => ih n (List.mem_cons_of_mem _ hn)
    simp only [Json.callbacks, follow, next, he, if_true, Option.bind_some, follow_append, hmembers]

theorem begun_of_next {e e' : Expects} {c : Callback} (h : e.next c = some e') :
    e'.begun = true := by
  cases c <;> simp only [next] at h <;> split at h <;> cases h <;> rfl

theorem begun_of_follow {e e' : Expects} {cs : List Callback} (hne : cs ≠ [])
    (h : e.follow cs = some e') : e'.begun = true := by
  obtain ⟨ds, c, rfl⟩ := (List.eq_nil_or_concat cs).resolve_left hne
  rw [List.concat_eq_append, follow_append] at h
  obtain ⟨e₁, -, h⟩ := Option.bind_eq_some_iff.mp h
  obtain ⟨e₂, hnext, h⟩ := Option.bind_eq_some_iff.mp h
  cases h
  exact begun_of_next hnext

theorem exists_follow_take (j : Json) (n : ℕ) :
    ∃ e, start.follow (j.callbacks.take n) = some e := by
  have hall := follow_json j (show start.takesValue = true from rfl)
  rw [← List.take_append_drop n j.callbacks, follow_append] at hall
  obtain ⟨e, he, -⟩ := Option.bind_eq_some_iff.mp hall
  exact ⟨e, he⟩

end Expects

/-! ### Frames -/

variable [HashFcn]

/-- `cur` of an array is the array, `cur` of a map its last member, if any. -/
inductive FrameOk (h : Heap) (f : ContainerCtx) : Prop where
  | array {head : List Ptr} {len : UInt32} (hc : h.cell f.container = some (.array head len))
      (hcur : f.cur = some f.container)
  | map {kvs : Uthash ℕ} (hc : h.cell f.container = some (.map kvs))
      (hcur : f.cur = kvs.items.getLast?.map HashHandle.elt)

/-- `v` is the value that was last put into the container. -/
inductive LastIn (h : Heap) (f : ContainerCtx) (v : Ptr) : Prop where
  | array {head : List Ptr} {len : UInt32} (hc : h.cell f.container = some (.array head len))
      (hlast : head.getLast? = some v)
  | map {kvs : Uthash ℕ} {kv : ℕ} {key : Bytes} (hc : h.cell f.container = some (.map kvs))
      (hcur : f.cur = some kv) (hkv : h.cell kv = some (.keyValue key v))

structure StackOk (s : ParserState) : Prop where
  frames : ∀ f ∈ s.stack, FrameOk s.heap f
  nested : s.stack.IsChain fun inner outer => LastIn s.heap outer (some inner.container)
  bottom : ∀ c ∈ (s.stack.map ContainerCtx.container).getLast?, s.root = some c

/-- The container of a frame fits the place of the next token. -/
inductive PlaceOf (h : Heap) (f : ContainerCtx) : Place → Prop where
  | elem {head : List Ptr} {len : UInt32} (hc : h.cell f.container = some (.array head len)) :
      PlaceOf h f .elem
  | key {kvs : Uthash ℕ} (hc : h.cell f.container = some (.map kvs)) : PlaceOf h f .key
  | value {kvs : Uthash ℕ} {kv : ℕ} {key : Bytes} {v : Ptr}
      (hc : h.cell f.container = some (.map kvs)) (hcur : f.cur = some kv)
      (hkv : h.cell kv = some (.keyValue key v)) : PlaceOf h f .value

def ContainerCtx.Avoids (f : ContainerCtx) (c : ℕ) : Prop := f.container ≠ c ∧ f.cur ≠ some c

section
variable {h h' : Heap} {c : ℕ} {f : ContainerCtx}

theorem cell_kept (hk : Memory.Keeps (fun x => x < h.next ∧ x ≠ c) h h') {x : ℕ} {n : Node}
    (hc : h.cell x = some n) (hx : x ≠ c) : h'.cell x = some n :=
  (hk x ⟨Memory.lt_next hc, hx⟩).trans hc

theorem FrameOk.keeps (hf : FrameOk h f) (hk : Memory.Keeps (fun x => x < h.next ∧ x ≠ c) h h')
    (ha : f.Avoids c) : FrameOk h' f := by
  cases hf with
  | array hc hcur => exact .array (cell_kept hk hc ha.1) hcur
  | map hc hcur => exact .map (cell_kept hk hc ha.1) hcur

theorem LastIn.keeps {v : Ptr} (hf : LastIn h f v)
    (hk : Memory.Keeps (fun x => x < h.next ∧ x ≠ c) h h') (ha : f.Avoids c) : LastIn h' f v := by
  cases hf with
  | array hc hlast => exact .array (cell_kept hk hc ha.1) hlast
  | map hc hcur hkv =>
    exact .map (cell_kept hk hc ha.1) hcur (cell_kept hk hkv fun he => ha.2 (he ▸ hcur))

theorem PlaceOf.keeps {p : Place} (hf : PlaceOf h f p)
    (hk : Memory.Keeps (fun x => x < h.next ∧ x ≠ c) h h') (ha : f.Avoids c) : PlaceOf h' f p := by
  cases hf with
  | elem hc => exact .elem (cell_kept hk hc ha.1)
  | key hc => exact .key (cell_kept hk hc ha.1)
  | value hc hcur hkv =>
    exact .value (cell_kept hk hc ha.1) hcur (cell_kept hk hkv fun he => ha.2 (he ▸ hcur))

/-- A frame with an inner container open has neither an array nor an empty member
of another frame as its `cur`. -/
theorem FrameOk.avoids {x : ℕ} (hf : FrameOk h f) (hl : LastIn h f (some x))
    (hne : f.container ≠ c) (hc : ∀ key x, h.cell c ≠ some (.keyValue key (some x))) :
    f.Avoids c := by
  refine ⟨hne, fun he => ?_⟩
  cases hf with
  | array hcell hcur =>
    rw [he, Option.some.injEq] at hcur
    exact hne hcur.symm
  | map hcell hcur =>
    cases hl with
    | array hcell' hlast =>
      rw [hcell] at hcell'
      cases hcell'
    | map hcell' hcur' hkv =>
      rw [he, Option.some.injEq] at hcur'
      exact hc _ _ (hcur' ▸ hkv)

theorem places_keep {rest : List ContainerCtx} {ps : List Place}
    (hl : List.Forall₂ (PlaceOf h) rest ps)
    (hk : Memory.Keeps (fun x => x < h.next ∧ x ≠ c) h h') (ha : ∀ g ∈ rest, g.Avoids c) :
    List.Forall₂ (PlaceOf h') rest ps := by
  induction hl with
  | nil => exact .nil
  | cons hg _ ih =>
    exact .cons (hg.keeps hk (ha _ (List.mem_cons_self ..)))
      (ih fun g hg => ha g (List.mem_cons_of_mem _ hg))

/-- The innermost frame may change, if its container stays the same. -/
theorem chain_keeps {f' : ContainerCtx} {rest : List ContainerCtx}
    (hn : (f :: rest).IsChain fun inner outer => LastIn h outer (some inner.container))
    (hk : Memory.Keeps (fun x => x < h.next ∧ x ≠ c) h h') (ha : ∀ g ∈ rest, g.Avoids c)
    (hcont : f'.container = f.container) :
    (f' :: rest).IsChain fun inner outer => LastIn h' outer (some inner.container) := by
  induction rest generalizing f f' with
  | nil => exact List.isChain_singleton _
  | cons g rest ih =>
    rw [List.isChain_cons_cons] at hn ⊢
    refine ⟨?_, ih hn.2 (fun x hx => ha x (List.mem_cons_of_mem _ hx)) rfl⟩
    rw [hcont]
    exact hn.1.keeps hk (ha g (List.mem_cons_self ..))

end

theorem last_of_chain {h : Heap} {f : ContainerCtx} {rest : List ContainerCtx}
    (hn : (f :: rest).IsChain fun inner outer => LastIn h outer (some inner.container)) :
    ∀ g ∈ rest, ∃ x, LastIn h g (some x) := by
  induction rest generalizing f with
  | nil => exact fun g hg => absurd hg List.not_mem_nil
  | cons f' rest ih =>
    rw [List.isChain_cons_cons] at hn
    intro g hg
    rcases List.mem_cons.mp hg with rfl | hg
    · exact ⟨_, hn.1⟩
    · exact ih hn.2 g hg

/-! ### The invariant -/

/-- The state agrees with what may come next. -/
structure Framed (s : ParserState) (e : Expects) : Prop where
  ok : StackOk s
  places : List.Forall₂ (PlaceOf s.heap) s.stack e.places
  nodup : (s.stack.map ContainerCtx.container).Nodup
  idle : e.begun = false → s.stack = [] ∧ s.root = none
  begun : e.begun = true → s.root ≠ none
  pending : e.places.head? = some .value → ∀ f ∈ s.stack.head?, LastIn s.heap f none

theorem emptyParser_framed (h : Heap) : Framed (emptyParser h) Expects.start where
  ok := by
    refine ⟨fun f hf => absurd hf List.not_mem_nil, List.IsChain.nil, fun c hc => ?_⟩
    cases hc
  places := .nil
  nodup := List.nodup_nil
  idle := fun _ => ⟨rfl, rfl⟩
  begun := fun he => by cases he
  pending := fun he => by cases he

/-- The open containers below the innermost one are not affected by a change of
the innermost one at `c`. -/
theorem Framed.change {s : ParserState} {e : Expects} {f f' : ContainerCtx}
    {rest : List ContainerCtx} {p p' : Place} {ps : List Place} {h' : Heap} {c : ℕ}
    (hf : Framed s e) (hst : s.stack = f :: rest) (hp : e.places = p :: ps)
    (hk : Memory.Keeps (fun x => x < s.heap.next ∧ x ≠ c) s.heap h')
    (hne : ∀ g ∈ rest, g.container ≠ c)
    (hc : ∀ key x, s.heap.cell c ≠ some (.keyValue key (some x)))
    (hcont : f'.container = f.container) (hframe : FrameOk h' f') (hplace : PlaceOf h' f' p') :
    StackOk ⟨h', s.root, f' :: rest⟩ ∧
      List.Forall₂ (PlaceOf h') (f' :: rest) (p' :: ps) ∧
      ((f' :: rest).map ContainerCtx.container).Nodup := by
  have hok := hf.ok
  have hlists := hf.places
  have hnd := hf.nodup
  have hbottom := hok.bottom
  have hnested := hok.nested
  rw [hst] at hlists hnd hbottom hnested
  rw [hp] at hlists
  have hmem : ∀ g ∈ rest, g ∈ s.stack := fun g hg => hst ▸ List.mem_cons_of_mem _ hg
  have havoid : ∀ g ∈ rest, g.Avoids c := by
    intro g hg
    obtain ⟨x, hx⟩ := last_of_chain hnested g hg
    exact (hok.frames g (hmem g hg)).avoids hx (hne g hg) hc
  refine ⟨⟨?_, ?_, ?_⟩, ?_, ?_⟩
  · intro g hg
    rcases List.mem_cons.mp hg with rfl | hg
    · exact hframe
    · exact (hok.frames g (hmem g hg)).keeps hk (havoid g hg)
  · exact chain_keeps hnested hk havoid hcont
  · rw [List.map_cons, hcont]
    rw [List.map_cons] at hbottom
    exact hbottom
  · cases hlists with
    | cons _ hrest => exact .cons hplace (places_keep hrest hk havoid)
  · rw [List.map_cons, hcont]
    exact hnd

/-! ### One callback -/

/-- The node that takes the next value: an array, or a member without a value. -/
def TakesValue (h : Heap) (c : ℕ) : Prop :=
  (∃ head len, h.cell c = some (.array head len)) ∨ ∃ key, h.cell c = some (.keyValue key none)

theorem Framed.target {s : ParserState} {e : Expects} (hf : Framed s e)
    (he : e.takesValue = true) :
    (e = Expects.start ∧ s.stack = [] ∧ s.root = none) ∨
      ∃ f rest p ps c, s.stack = f :: rest ∧ e.places = p :: ps ∧ f.cur = some c ∧
        ((p = .elem ∧ f.container = c ∧ ∃ head len, s.heap.cell c = some (.array head len)) ∨
          (p = .value ∧ ∃ kvs key, s.heap.cell f.container = some (.map kvs) ∧
            s.heap.cell c = some (.keyValue key none))) := by
  obtain ⟨begun, places⟩ := e
  have hlists := hf.places
  cases places with
  | nil =>
    cases begun with
    | true => cases he
    | false => exact Or.inl ⟨rfl, hf.idle rfl⟩
  | cons p ps =>
    obtain ⟨f, rest, hpf, -, hst⟩ := List.forall₂_cons_right_iff.mp hlists
    have hframe := hf.ok.frames f (hst ▸ List.mem_cons_self ..)
    cases hpf with
    | key hc => cases he
    | elem hc =>
      cases hframe with
      | array hc' hcur =>
        exact Or.inr ⟨f, rest, .elem, ps, _, hst, rfl, hcur, Or.inl ⟨rfl, rfl, _, _, hc⟩⟩
      | map hc' hcur =>
        rw [hc] at hc'
        cases hc'
    | value hc hcur hkv =>
      have hlast := hf.pending rfl f (by rw [hst]; rfl)
      cases hlast with
      | array hc' _ =>
        rw [hc] at hc'
        cases hc'
      | map hc' hcur' hkv' =>
        exact Or.inr ⟨f, rest, .value, ps, _, hst, rfl, hcur', Or.inr ⟨rfl, _, _, hc, hkv'⟩⟩

/-- A value has just gone to its place, and its container is not closed yet. -/
structure Filled (s : ParserState) (v : ℕ) (places : List Place) : Prop where
  ok : StackOk s
  places : List.Forall₂ (PlaceOf s.heap) s.stack places
  nodup : (s.stack.map ContainerCtx.container).Nodup
  last : ∀ f ∈ s.stack.head?, LastIn s.heap f (some v)
  root : s.root ≠ none ∧ (s.stack = [] → s.root = some v)
  old : ∀ f ∈ s.stack, f.container ≠ v

theorem Framed.container_lt {s : ParserState} {e : Expects} (hf : Framed s e) {f : ContainerCtx}
    (hmem : f ∈ s.stack) : f.container < s.heap.next := by
  cases hf.ok.frames f hmem with
  | array hc _ => exact Memory.lt_next hc
  | map hc _ => exact Memory.lt_next hc

theorem Framed.root_ne_none {s : ParserState} {e : Expects} (hf : Framed s e)
    {f : ContainerCtx} {rest : List ContainerCtx} (hst : s.stack = f :: rest) : s.root ≠ none := by
  refine hf.begun ?_
  by_contra hnot
  have hidle := (hf.idle (Bool.eq_false_iff.mpr hnot)).1
  rw [hst] at hidle
  cases hidle

/-- No frame below the innermost one has the target as its container. -/
theorem Framed.container_ne {s : ParserState} {e : Expects} (hf : Framed s e)
    {f : ContainerCtx} {rest : List ContainerCtx} {c : ℕ} (hst : s.stack = f :: rest)
    (hc : f.container = c ∨ ∃ key v, s.heap.cell c = some (.keyValue key v)) :
    ∀ g ∈ rest, g.container ≠ c := by
  rintro g hg rfl
  rcases hc with hc | ⟨key, v, hc⟩
  · have hnd := hf.nodup
    rw [hst, List.map_cons, List.nodup_cons] at hnd
    exact hnd.1 (List.mem_map.mpr ⟨g, hg, hc.symm⟩)
  · cases hf.ok.frames g (hst ▸ List.mem_cons_of_mem _ hg) with
    | array hc' _ =>
      rw [hc] at hc'
      cases hc'
    | map hc' _ =>
      rw [hc] at hc'
      cases hc'

theorem Framed.fill {s : ParserState} {e : Expects} (hf : Framed s e) (he : e.takesValue = true)
    (n : Node) : Filled (addNewNode s n) s.heap.next e.places := by
  have hold : ∀ f ∈ (addNewNode s n).stack, f.container ≠ s.heap.next := by
    intro f hmem
    rw [addNewNode_stack] at hmem
    have hlt := hf.container_lt hmem
    omega
  rcases hf.target he with ⟨rfl, hst, hroot⟩ | ⟨f, rest, p, ps, c, hst, hp, hcur, hplace⟩
  · have hs : addNewNode s n = ⟨s.heap.alloc n, some s.heap.next, []⟩ := by
      rw [addNewNode_of_none (by rw [ParserState.cur, hst]; rfl), hst]
    rw [hs] at hold ⊢
    refine ⟨⟨fun g hg => absurd hg List.not_mem_nil, List.IsChain.nil, fun c hc => ?_⟩, .nil,
      List.nodup_nil, fun g hg => ?_, ⟨fun h => (by cases h), fun _ => rfl⟩, hold⟩
    · cases hc
    · cases hg
  · have hs : addNewNode s n = ⟨(s.heap.alloc n).modify c (Node.attach (some s.heap.next)), s.root,
        f :: rest⟩ := by
      rw [addNewNode_of_cur (by rw [ParserState.cur, hst]; exact hcur), hst]
    have hroot := hf.root_ne_none hst
    have hframe := hf.ok.frames f (hst ▸ List.mem_cons_self ..)
    have hkeep : Memory.Keeps (fun x => x < s.heap.next ∧ x ≠ c) s.heap
        ((s.heap.alloc n).modify c (Node.attach (some s.heap.next))) := by
      intro x hx
      rw [Memory.modify_cell_ne _ _ hx.2, Memory.alloc_cell_old _ _ hx.1]
    have hat : ∀ m, s.heap.cell c = some m →
        ((s.heap.alloc n).modify c (Node.attach (some s.heap.next))).cell c =
          some (m.attach (some s.heap.next)) := by
      intro m hm
      refine Memory.modify_cell_self _ ?_
      rw [Memory.alloc_cell_old _ _ (Memory.lt_next hm), hm]
    rw [hs] at hold ⊢
    rcases hplace with ⟨rfl, rfl, head, len, hcell⟩ | ⟨rfl, kvs, key, hmap, hcell⟩
    · have hnot : ∀ key x, s.heap.cell f.container ≠ some (.keyValue key (some x)) := by
        intro key x h
        rw [hcell] at h
        cases h
      obtain ⟨hok, hlists, hnd⟩ := hf.change hst hp hkeep (hf.container_ne hst (Or.inl rfl))
        hnot rfl (.array (hat _ hcell) hcur) (PlaceOf.elem (hat _ hcell))
      rw [← hp] at hlists
      refine ⟨hok, hlists, hnd, ?_, ⟨hroot, fun h => by cases h⟩, hold⟩
      intro g hg
      cases hg
      exact .array (hat _ hcell) (List.getLast?_concat ..)
    · have hne : f.container ≠ c := by
        rintro rfl
        rw [hcell] at hmap
        cases hmap
      have hmap' := cell_kept hkeep hmap hne
      have hframe' : FrameOk ((s.heap.alloc n).modify c (Node.attach (some s.heap.next))) f := by
        cases hframe with
        | array hc _ =>
          rw [hmap] at hc
          cases hc
        | map hc hlast =>
          rw [hmap] at hc
          cases hc
          exact .map hmap' hlast
      have hnot : ∀ key x, s.heap.cell c ≠ some (.keyValue key (some x)) := by
        intro key x h
        rw [hcell] at h
        cases h
      obtain ⟨hok, hlists, hnd⟩ := hf.change hst hp hkeep
        (hf.container_ne hst (Or.inr ⟨_, _, hcell⟩)) hnot rfl hframe'
        (PlaceOf.value hmap' hcur (hat _ hcell))
      rw [← hp] at hlists
      refine ⟨hok, hlists, hnd, ?_, ⟨hroot, fun h => by cases h⟩, hold⟩
      intro g hg
      cases hg
      exact .map hmap' hcur (hat _ hcell)

omit [HashFcn] in
theorem head_afterValue (places : List Place) : (afterValue places).head? ≠ some .value := by
  cases places with
  | nil => exact fun h => by cases h
  | cons p places => cases p <;> exact fun h => by cases h

theorem places_afterValue {h : Heap} {stack : List ContainerCtx} {places : List Place}
    (hl : List.Forall₂ (PlaceOf h) stack places) :
    List.Forall₂ (PlaceOf h) stack (afterValue places) := by
  cases hl with
  | nil => exact .nil
  | cons hp hrest =>
    cases hp with
    | elem hc => exact .cons (.elem hc) hrest
    | key hc => exact .cons (.key hc) hrest
    | value hc _ _ => exact .cons (.key hc) hrest

theorem Filled.scalar {s : ParserState} {v : ℕ} {places : List Place} (hf : Filled s v places) :
    Framed s ⟨true, afterValue places⟩ where
  ok := hf.ok
  places := places_afterValue hf.places
  nodup := hf.nodup
  idle := fun h => by cases h
  begun := fun _ => hf.root.1
  pending := fun h => absurd h (head_afterValue places)

theorem Filled.push {s : ParserState} {v : ℕ} {places : List Place} {cur : Ptr} {p : Place}
    (hf : Filled s v places) (hframe : FrameOk s.heap ⟨v, cur⟩) (hplace : PlaceOf s.heap ⟨v, cur⟩ p)
    (hp : p ≠ .value) : Framed (pushContainer s v cur) ⟨true, p :: places⟩ := by
  refine ⟨⟨?_, ?_, ?_⟩, .cons hplace hf.places, ?_, fun h => (by cases h), fun _ => hf.root.1,
    fun h => ?_⟩
  · intro g hg
    rcases List.mem_cons.mp hg with rfl | hg
    · exact hframe
    · exact hf.ok.frames g hg
  · have hnested := hf.ok.nested
    have hlast := hf.last
    simp only [pushContainer]
    cases hst : s.stack with
    | nil => exact List.isChain_singleton _
    | cons f rest =>
      rw [hst] at hnested hlast
      exact List.isChain_cons_cons.mpr ⟨hlast f rfl, hnested⟩
  · have hbottom := hf.ok.bottom
    have hroot := hf.root.2
    simp only [pushContainer]
    cases hst : s.stack with
    | nil =>
      intro c hc
      cases hc
      exact hroot hst
    | cons f rest =>
      rw [hst] at hbottom
      rw [List.map_cons, List.map_cons, List.getLast?_cons_cons]
      exact hbottom
  · refine List.nodup_cons.mpr ⟨fun hmem => ?_, hf.nodup⟩
    obtain ⟨f, hmem, hfv⟩ := List.mem_map.mp hmem
    exact hf.old f hmem hfv
  · exact absurd (Option.some.inj h) hp

theorem Framed.pop {s : ParserState} {e : Expects} {p : Place} {ps : List Place}
    {f : ContainerCtx} {rest : List ContainerCtx} (hf : Framed s e) (hst : s.stack = f :: rest)
    (hp : e.places = p :: ps) : Framed { s with stack := rest } ⟨true, afterValue ps⟩ := by
  have hroot := hf.root_ne_none hst
  have hlists := hf.places
  have hnested := hf.ok.nested
  have hbottom := hf.ok.bottom
  have hnd := hf.nodup
  rw [hst] at hlists hnested hbottom hnd
  rw [hp] at hlists
  cases hlists with
  | cons _ hrest =>
    refine ⟨⟨?_, ?_, ?_⟩, places_afterValue hrest, (List.nodup_cons.mp hnd).2,
      fun h => (by cases h), fun _ => hroot, fun h => absurd h (head_afterValue ps)⟩
    · exact fun g hg => hf.ok.frames g (hst ▸ List.mem_cons_of_mem _ hg)
    · exact hnested.tail
    · intro c hc
      refine hbottom c ?_
      cases rest with
      | nil => cases hc
      | cons g rest =>
        rw [List.map_cons, List.map_cons, List.getLast?_cons_cons]
        exact hc

theorem Framed.mapKey {s : ParserState} {e : Expects} {ps : List Place} (hf : Framed s e)
    (hp : e.places = .key :: ps) (k : Bytes) :
    ∃ s', jsonMapKey s k = some s' ∧ Framed s' ⟨true, .value :: ps⟩ := by
  have hlists := hf.places
  rw [hp] at hlists
  obtain ⟨f, rest, hpf, -, hst⟩ := List.forall₂_cons_right_iff.mp hlists
  cases hpf with
  | @key kvs hc =>
    have hlt := Memory.lt_next hc
    have hkeep : Memory.Keeps (fun x => x < s.heap.next ∧ x ≠ f.container) s.heap
        ((s.heap.alloc (.keyValue k none)).modify f.container
          (Node.setKeyValues (kvs.hashAddKeyptr k s.heap.next))) := by
      intro x hx
      rw [Memory.modify_cell_ne _ _ hx.2, Memory.alloc_cell_old _ _ hx.1]
    have hmap : ((s.heap.alloc (.keyValue k none)).modify f.container
        (Node.setKeyValues (kvs.hashAddKeyptr k s.heap.next))).cell f.container =
          some (.map (kvs.hashAddKeyptr k s.heap.next)) := by
      have hold : (s.heap.alloc (.keyValue k none)).cell f.container = some (.map kvs) := by
        rw [Memory.alloc_cell_old _ _ hlt, hc]
      rw [Memory.modify_cell_self _ hold]
      rfl
    have hkv : ((s.heap.alloc (.keyValue k none)).modify f.container
        (Node.setKeyValues (kvs.hashAddKeyptr k s.heap.next))).cell s.heap.next =
          some (.keyValue k none) := by
      have hne : s.heap.next ≠ f.container := by omega
      rw [Memory.modify_cell_ne _ _ hne, Memory.alloc_cell_next]
    have hframe : FrameOk ((s.heap.alloc (.keyValue k none)).modify f.container
        (Node.setKeyValues (kvs.hashAddKeyptr k s.heap.next))) ⟨f.container, some s.heap.next⟩ := by
      refine .map hmap ?_
      rw [Uthash.items_hashAddKeyptr, List.getLast?_concat]
      rfl
    have hplace : PlaceOf ((s.heap.alloc (.keyValue k none)).modify f.container
        (Node.setKeyValues (kvs.hashAddKeyptr k s.heap.next))) ⟨f.container, some s.heap.next⟩
          .value := .value hmap rfl hkv
    have hnot : ∀ key x, s.heap.cell f.container ≠ some (.keyValue key (some x)) := by
      intro key x h
      rw [hc] at h
      cases h
    obtain ⟨hok, hplaces, hnd⟩ :=
      Framed.change hf hst hp hkeep (hf.container_ne hst (Or.inl rfl)) hnot
        (show (⟨f.container, some s.heap.next⟩ : ContainerCtx).container = f.container from rfl)
        hframe hplace
    refine ⟨_, by simp only [jsonMapKey, hst, hc], hok, hplaces, hnd, fun h => (by cases h),
      fun _ => hf.root_ne_none hst, fun _ g hg => ?_⟩
    cases hg
    exact .map hmap rfl hkv

theorem Framed.popContainer {s : ParserState} {e : Expects} {p : Place} {ps : List Place}
    {type : PtType} (hf : Framed s e) (hp : e.places = p :: ps)
    (htype : p = .key ∧ type = .map ∨ p = .elem ∧ type = .array) :
    ∃ s', popContainer s type = some s' ∧ Framed s' ⟨true, afterValue ps⟩ := by
  have hlists := hf.places
  rw [hp] at hlists
  obtain ⟨f, rest, hpf, -, hst⟩ := List.forall₂_cons_right_iff.mp hlists
  refine ⟨{ s with stack := rest }, ?_, hf.pop hst hp⟩
  rcases htype with ⟨rfl, rfl⟩ | ⟨rfl, rfl⟩
  · cases hpf with
    | key hc => exact popContainer_eq hst hc
  · cases hpf with
    | elem hc => exact popContainer_eq hst hc

theorem Framed.curLive {s : ParserState} {e : Expects} (hf : Framed s e)
    (he : e.takesValue = true) : s.CurLive := by
  intro c hc
  rcases hf.target he with ⟨-, hst, -⟩ | ⟨f, rest, p, ps, c', hst, -, hcur, hplace⟩
  · rw [ParserState.cur, hst] at hc
    cases hc
  · rw [ParserState.cur, hst, List.head?_cons, Option.bind_some, hcur] at hc
    cases hc
    rcases hplace with ⟨-, -, head, len, hcell⟩ | ⟨-, kvs, key, -, hcell⟩
    · exact Memory.lt_next hcell
    · exact Memory.lt_next hcell

/-- Every callback that may come next succeeds and keeps the invariant. -/
theorem Framed.step {s : ParserState} {e e' : Expects} {c : Callback} (hf : Framed s e)
    (he : e.next c = some e') : ∃ s', callback s c = some s' ∧ Framed s' e' := by
  have hvalue : ∀ n : Node, (if e.takesValue then some ⟨true, afterValue e.places⟩ else none) =
      some e' → Framed (addNewNode s n) e' := by
    intro n hn
    split at hn
    · next htakes =>
      cases hn
      exact (hf.fill htakes n).scalar
    · cases hn
  cases c with
  | null => exact ⟨_, rfl, hvalue _ he⟩
  | boolean b => exact ⟨_, rfl, hvalue _ he⟩
  | integer i => exact ⟨_, rfl, hvalue _ he⟩
  | double d => exact ⟨_, rfl, hvalue _ he⟩
  | string str => exact ⟨_, rfl, hvalue _ he⟩
  | startMap =>
    simp only [Expects.next] at he
    split at he
    · next htakes =>
      cases he
      have hcell := addNewNode_cell (hf.curLive htakes) (Node.map hashNull)
      have hframe : FrameOk (addNewNode s (.map hashNull)).heap ⟨s.heap.next, none⟩ :=
        .map hcell rfl
      exact ⟨_, rfl, (hf.fill htakes _).push hframe (PlaceOf.key hcell) (by decide)⟩
    · cases he
  | startArray =>
    simp only [Expects.next] at he
    split at he
    · next htakes =>
      cases he
      have hcell := addNewNode_cell (hf.curLive htakes) (.array [] 0)
      have hframe : FrameOk (addNewNode s (.array [] 0)).heap ⟨s.heap.next, some s.heap.next⟩ :=
        .array hcell rfl
      exact ⟨_, rfl, (hf.fill htakes _).push hframe (PlaceOf.elem hcell) (by decide)⟩
    · cases he
  | mapKey k =>
    simp only [Expects.next] at he
    split at he
    · next hp =>
      cases he
      exact hf.mapKey hp k
    · cases he
  | endMap =>
    simp only [Expects.next] at he
    split at he
    · next hp =>
      cases he
      exact hf.popContainer hp (Or.inl ⟨rfl, rfl⟩)
    · cases he
  | endArray =>
    simp only [Expects.next] at he
    split at he
    · next hp =>
      cases he
      exact hf.popContainer hp (Or.inr ⟨rfl, rfl⟩)
    · cases he

theorem Framed.follow {s : ParserState} {e e' : Expects} {cs : List Callback} (hf : Framed s e)
    (he : e.follow cs = some e') : ∃ s', runCallbacks s cs = some s' ∧ Framed s' e' := by
  induction cs generalizing s e with
  | nil =>
    cases he
    exact ⟨s, rfl, hf⟩
  | cons c cs ih =>
    obtain ⟨e₁, hnext, hrest⟩ := Option.bind_eq_some_iff.mp he
    obtain ⟨s₁, hcall, hf₁⟩ := hf.step hnext
    obtain ⟨s', hrun, hf'⟩ := ih hf₁ hrest
    exact ⟨s', by rw [runCallbacks, hcall, Option.bind_some, hrun], hf'⟩

/-! ### Where a value goes -/

omit [HashFcn] in
theorem Expects.takesValue_of_next {e e' : Expects} {c : Callback} (hv : c.IsValue)
    (h : e.next c = some e') : e.takesValue = true := by
  cases c with
  | mapKey k => exact absurd hv id
  | endMap => exact absurd hv id
  | endArray => exact absurd hv id
  | _ =>
    simp only [next] at h
    split at h
    · next ht => exact ht
    · cases h

/-- A value goes to `cur`, or becomes the root where there is none. -/
theorem callback_value {s s' : ParserState} {c : Callback} (hv : c.IsValue)
    (h : callback s c = some s') : ∃ n, s'.heap = (addNewNode s n).heap ∧
      s'.root = if s.cur = none then some s.heap.next else s.root := by
  have hroot : ∀ n, (addNewNode s n).root =
      if s.cur = none then some s.heap.next else s.root := by
    intro n
    cases hc : s.cur with
    | none => rw [addNewNode_of_none hc, if_pos rfl]
    | some a => rw [addNewNode_of_cur hc, if_neg (by simp)]
  cases c with
  | mapKey k => exact absurd hv id
  | endMap => exact absurd hv id
  | endArray => exact absurd hv id
  | _ =>
    cases h
    exact ⟨_, rfl, hroot _⟩

theorem callback_other {s s' : ParserState} {c : Callback} (hv : ¬c.IsValue)
    (h : callback s c = some s') : s'.root = s.root := by
  have hpop : ∀ type, popContainer s type = some s' → s'.root = s.root := by
    intro type hp
    unfold popContainer at hp
    split at hp
    · cases hp
    · split at hp
      · cases hp
        rfl
      · cases hp
  cases c with
  | mapKey k =>
    simp only [callback, jsonMapKey] at h
    split at h
    · cases h
    · split at h
      · cases h
        rfl
      · cases h
  | endMap => exact hpop .map h
  | endArray => exact hpop .array h
  | _ => exact absurd trivial hv

/-- The `n`-th callback of a document finds its place: the first one makes the
root, and a later value goes to an array or to a member without a value. -/
structure Placed (n : ℕ) (s s' : ParserState) (c : Callback) : Prop where
  first : n = 0 → c.IsValue ∧ s.cur = none ∧ s.root = none ∧ s'.root = some s.heap.next
  later : n ≠ 0 → s'.root = s.root
  target : n ≠ 0 → c.IsValue → ∃ a m, s.cur = some a ∧ TakesValue s.heap a ∧
    s.heap.cell a = some m ∧ s'.heap.cell a = some (m.attach (some s.heap.next))

theorem Framed.placed {s s' : ParserState} {e e' : Expects} {c : Callback} {n : ℕ}
    (hf : Framed s e) (he : e.next c = some e') (hs : callback s c = some s')
    (hstart : n = 0 → e = Expects.start) (hbegun : n ≠ 0 → e.begun = true) : Placed n s s' c := by
  have hlater : n ≠ 0 → c.IsValue → ∃ a m, s.cur = some a ∧ TakesValue s.heap a ∧
      s.heap.cell a = some m := by
    intro hn hv
    rcases hf.target (Expects.takesValue_of_next hv he) with ⟨rfl, -, -⟩ |
      ⟨f, rest, p, ps, a, hst, -, hcur, hplace⟩
    · cases hbegun hn
    · have hcur' : s.cur = some a := by rw [ParserState.cur, hst, List.head?_cons, Option.bind_some, hcur]
      rcases hplace with ⟨-, -, head, len, hcell⟩ | ⟨-, kvs, key, -, hcell⟩
      · exact ⟨a, _, hcur', Or.inl ⟨_, _, hcell⟩, hcell⟩
      · exact ⟨a, _, hcur', Or.inr ⟨_, hcell⟩, hcell⟩
  refine ⟨fun hn => ?_, fun hn => ?_, fun hn hv => ?_⟩
  · have hstart := hstart hn
    subst hstart
    obtain ⟨hst, hroot⟩ := hf.idle rfl
    have hcur : s.cur = none := by rw [ParserState.cur, hst]; rfl
    have hv : c.IsValue := by
      cases c with
      | mapKey k => cases he
      | endMap => cases he
      | endArray => cases he
      | _ => exact trivial
    obtain ⟨m, -, hnew⟩ := callback_value hv hs
    rw [if_pos hcur] at hnew
    exact ⟨hv, hcur, hroot, hnew⟩
  · by_cases hv : c.IsValue
    · obtain ⟨a, m, hcur, -, -⟩ := hlater hn hv
      obtain ⟨m', -, hnew⟩ := callback_value hv hs
      rw [hcur, if_neg (by simp)] at hnew
      exact hnew
    · exact callback_other hv hs
  · obtain ⟨a, m, hcur, htakes, hcell⟩ := hlater hn hv
    obtain ⟨m', hheap, -⟩ := callback_value hv hs
    refine ⟨a, m, hcur, htakes, hcell, ?_⟩
    rw [hheap, addNewNode_of_cur hcur]
    refine Memory.modify_cell_self _ ?_
    rw [Memory.alloc_cell_old _ _ (Memory.lt_next hcell), hcell]

/-- After any number of callbacks of a document the stack is in order, every node
delivered so far is in the tree of the root, and the next callback succeeds and
finds its place. -/
theorem parser_stack_ok (j : Json) (h : Heap) (n : ℕ) :
    ∃ s, runCallbacks (emptyParser h) (j.callbacks.take n) = some s ∧ StackOk s ∧
      (∃ l, Located.In s.heap l ∧ l.ptr = s.root ∧
        Memory.Allotted h.next s.heap.next l.addrs) ∧
      ∀ c, j.callbacks[n]? = some c → ∃ s', callback s c = some s' ∧ Placed n s s' c := by
  obtain ⟨e, he⟩ := Expects.exists_follow_take j n
  obtain ⟨s, hrun, hf⟩ := (emptyParser_framed h).follow he
  refine ⟨s, hrun, hf.ok, ?_, fun c hc => ?_⟩
  · obtain ⟨r, hr⟩ := j.prefix_progress (List.take_prefix n j.callbacks)
    obtain ⟨s', l, hrun', hp, -⟩ := r.parsed h
    rw [hr, hrun, Option.some.injEq] at hrun'
    subst hrun'
    exact ⟨l, hp.within, hp.root.symm, hp.allotted⟩
  · obtain ⟨hlt, hget⟩ := List.getElem?_eq_some_iff.mp hc
    obtain ⟨e₁, he₁⟩ := Expects.exists_follow_take j (n + 1)
    rw [List.take_succ_eq_append_getElem hlt, Expects.follow_append, he, Option.bind_some,
      hget] at he₁
    obtain ⟨e', hnext, -⟩ := Option.bind_eq_some_iff.mp he₁
    obtain ⟨s', hs, -⟩ := hf.step hnext
    refine ⟨s', hs, hf.placed hnext hs ?_ ?_⟩
    · rintro rfl
      cases he
      rfl
    · intro hn
      refine Expects.begun_of_follow (fun hnil => ?_) he
      have hlen := congrArg List.length hnil
      rw [List.length_take, List.length_nil] at hlen
      omega

end Pillowtalk
