import Pillowtalk.Accounting
import Pillowtalk.Client

/-!
# Programs with documents and responses (`pillowtalk_impl.c:87-149`)

A program works on its trees and makes requests. The root of a response is one
of its trees, to be read and edited like the others, but it belongs to the
response and goes with it. Beside the memory of the nodes stands that of the
bytes, and beside each act what it comes to over values.
-/

namespace Pillowtalk
open Addressed Allocated

/-- What the library is used with: whether `realloc` stays where it is, the version of yajl,
how far it gets into a text, its generator and the text of what is generated. -/
structure Outside where
  stays : ℕ → UInt64 → Bool
  version : YajlVersion
  read : Bytes → Progress
  gen : YajlGen
  render : List GenCall → Bytes

-- `pt_delete` is as `pt_get` here. The root of the response is kept in `v`, which
-- `freeResponse` clears.
inductive Act where
  | doc (cmd : Cmd)
  | get (v : Var) (t : Transfer)
  | unparsedGet (t : Transfer)
  | putRaw (v : Var) (upload : Option Upload) (t : Transfer)
  | put (v : Var) (p : Site) (t : Transfer)
  | freeResponse (v : Option Var) (response : ℕ)

/-- What an act lets the program see; the root of a response is left out. -/
inductive Shown where
  | doc (o : Output)
  | response (res : PtResponse)

/-- The variables that a command assigns, gives away or clears. -/
def Cmd.spends : Cmd → Option Var
  | .make v _ => some v
  | .fromJson v _ => some v
  | .clone v _ => some v
  | .mapSet _ _ w => some w
  | .arrayPushBack _ w => some w
  | .arrayPushFront _ w => some w
  | .freeNode v => some v
  | _ => none

/-! ### Over values -/

/-- The trees, the responses, and the variables with the roots of these. -/
structure Desk where
  store : Store
  served : Served
  holder : ℕ → Option Var

/-- What `yajl_parse` is given of a response. -/
def Outside.text (out : Outside) (res : PtResponse) : Option Bytes :=
  ((res.rawJson.getD []).load 0 (out.version.length res.rawJsonLen)).bind Block.values

namespace Desk

def start : Desk := ⟨Store.start, Memory.empty, fun _ => none⟩

variable (out : Outside)

def json (d : Desk) (p : Site) : Option Bytes :=
  if (d.store.node p).type.isSome then
    some (out.render (out.gen.output (out.gen.run (out.gen.alloc 0) (d.store.node p).calls)))
  else none

/-- A request was answered, and what came is parsed. -/
def parsed (d : Desk) (v : Var) (served : Served) : Option (Desk × Shown) :=
  (served.cell d.served.next).bind fun res => (out.text res).map fun text =>
    (⟨Function.update d.store v (out.read text).tree, served,
      Function.update d.holder d.served.next (some v)⟩, .response res)

def unparsed (d : Desk) (served : Served) : Option (Desk × Shown) :=
  (served.cell d.served.next).map fun res =>
    (⟨d.store, served, Function.update d.holder d.served.next none⟩, .response res)

def step (d : Desk) : Act → Option (Desk × Shown)
  | .doc cmd => some ({ d with store := (d.store.step cmd).1 }, .doc (d.store.step cmd).2)
  | .get v t => (d.served.step (.get t)).bind (d.parsed out v)
  | .unparsedGet t => (d.served.step (.get t)).bind d.unparsed
  | .putRaw v upload t => (d.served.step (.putRaw upload t)).bind (d.parsed out v)
  | .put v p t => (d.served.step (.put (d.json out p) t)).bind (d.parsed out v)
  | .freeResponse v response => (d.served.step (.freeResponse (some response))).map fun served =>
    (⟨v.elim d.store d.store.clear, served, d.holder⟩, .doc .done)

def run (d : Desk) : List Act → Option (Desk × List Shown)
  | [] => some (d, [])
  | a :: as => (d.step out a).bind fun r => (run r.1 as).map fun q => (q.1, r.2 :: q.2)

/-- No response has its root in `v`. -/
def Free (d : Desk) (v : Var) : Prop :=
  ∀ r, (d.served.cell r).isSome = true → d.holder r ≠ some v

/-- The root of the response will be in `v`, and what is parsed repeats no key and has none
that cannot be found. -/
def Takes (d : Desk) (v : Var) (a : Act) : Prop :=
  d.store v = .nil ∧ d.Free v ∧
    ∀ d' shown, d.step out a = some (d', shown) → (d'.store v).Searchable

/-- What the caller sees to, beside the rules for trees: a root is not given away, freed or
written over while it belongs to a response. -/
def Allows (d : Desk) : Act → Prop
  | .doc cmd => d.store.Allows cmd ∧ ∀ v ∈ cmd.spends, d.Free v
  | .get v t => d.Takes out v (.get v t)
  | .unparsedGet _ => True
  | .putRaw v upload t => d.Takes out v (.putRaw v upload t)
  | .put v p t => d.Takes out v (.put v p t)
  | .freeResponse v response => d.holder response = v

def Valid : Desk → List Act → Prop
  | _, [] => True
  | d, a :: as => d.Allows out a ∧ ∀ d' shown, d.step out a = some (d', shown) → Valid d' as

end Desk

def Act.abandons : Act → ℕ
  | .doc _ => 0
  | .get _ t => t.abandons
  | .unparsedGet t => t.abandons
  | .putRaw _ _ t => t.abandons
  | .put _ _ t => t.abandons
  | .freeResponse _ _ => 0

def Act.Clean : Act → Prop
  | .doc _ => True
  | .get _ t => t.Clean
  | .unparsedGet t => t.Clean
  | .putRaw _ _ t => t.Clean
  | .put _ _ t => t.Clean
  | .freeResponse _ _ => True

theorem Act.abandons_eq_zero_iff (a : Act) : a.abandons = 0 ↔ a.Clean := by
  cases a with
  | doc cmd => exact iff_of_true rfl trivial
  | get v t => exact t.abandons_eq_zero_iff
  | unparsedGet t => exact t.abandons_eq_zero_iff
  | putRaw v upload t => exact t.abandons_eq_zero_iff
  | put v p t => exact t.abandons_eq_zero_iff
  | freeResponse v r => exact iff_of_true rfl trivial

/-! ### Over the memory -/

section
variable [HashFcn]

/-- `roots` are the `root` fields of the responses. -/
structure World where
  client : Client
  exchanges : Exchanges
  roots : ℕ → Ptr

namespace World

def start : World := ⟨Client.start, Exchanges.start, fun _ => none⟩

variable (out : Outside)

/-- What `pt_put` sends of a document. -/
def json (w : World) (p : Site) : Option Bytes :=
  if (w.client.node p).isSome then
    (ptToJson out.gen w.client.heap (w.client.node p) 0).map out.render
  else none

/-- The response that a request has made. -/
def last (w : World) (exchanges : Exchanges) : Option PtResponse :=
  (exchanges.responses.cell w.exchanges.responses.next).map fun l => l.response exchanges.blocks

def parsed (w : World) (v : Var) (exchanges : Exchanges) : Option (World × Shown) :=
  (w.last exchanges).bind fun res =>
    (parseResponse out.version (fun text => (out.read text).callbacks) w.client.heap res).map
      fun (h, res') => (⟨w.client.assign v (h, res'.root), exchanges,
        Function.update w.roots w.exchanges.responses.next res'.root⟩, .response res)

def unparsed (w : World) (exchanges : Exchanges) : Option (World × Shown) :=
  (w.last exchanges).map fun res =>
    (⟨w.client, exchanges, Function.update w.roots w.exchanges.responses.next none⟩, .response res)

/-- The tree at `root` is freed, and the variable that had it is cleared. -/
def release (c : Client) (v : Option Var) (root : Ptr) : Client :=
  ⟨ptFreeNode c.heap root, v.elim c.env fun v => Function.update c.env v none⟩

def step (w : World) : Act → Option (World × Shown)
  | .doc cmd => some ({ w with client := (w.client.step cmd).1 }, .doc (w.client.step cmd).2)
  | .get v t => (w.exchanges.step out.stays (.get t)).bind (w.parsed out v)
  | .unparsedGet t => (w.exchanges.step out.stays (.get t)).bind w.unparsed
  | .putRaw v upload t => (w.exchanges.step out.stays (.putRaw upload t)).bind (w.parsed out v)
  | .put v p t => (w.exchanges.step out.stays (.put (w.json out p) t)).bind (w.parsed out v)
  | .freeResponse v response =>
    (w.exchanges.step out.stays (.freeResponse (some response))).map fun exchanges =>
      (⟨release w.client v (w.roots response), exchanges, w.roots⟩, .doc .done)

def run (w : World) : List Act → Option (World × List Shown)
  | [] => some (w, [])
  | a :: as => (w.step out a).bind fun r => (run r.1 as).map fun q => (q.1, r.2 :: q.2)

end World

/-! ### What the program holds -/

/-- The program has the trees and the responses of `d`, and the blocks `lost` are out of
its reach. The root of a response is in the variable that is kept for it. -/
structure Held (w : World) (d : Desk) (lost : List ℕ) : Prop where
  laid : ∃ L, Laid w.client d.store L
  accounted : Accounted w.exchanges d.served lost
  root : ∀ r, (d.served.cell r).isSome = true → w.roots r = (d.holder r).bind w.client.env
  single : ∀ r r' v, (d.served.cell r).isSome = true → (d.served.cell r').isSome = true →
    d.holder r = some v → d.holder r' = some v → r = r'

theorem Client.env_step (c : Client) {cmd : Cmd} {v : Var} (hv : v ∉ cmd.spends) :
    (c.step cmd).1.env v = c.env v := by
  have hassign : ∀ (u : Var) (r : Heap × Ptr), v ∉ some u → (c.assign u r).env v = c.env v :=
    fun u r hu => Function.update_of_ne (fun he => hu (Option.mem_some_iff.mpr he.symm)) _ _
  have hgive : ∀ (u : Var) (h : Heap) (taken : Bool), v ∉ some u →
      (c.give h u taken).env v = c.env v := by
    intro u h taken hu
    cases taken with
    | true => exact Function.update_of_ne (fun he => hu (Option.mem_some_iff.mpr he.symm)) _ _
    | false => rfl
  cases cmd with
  | make u m => exact hassign u _ hv
  | fromJson u r => exact hassign u _ hv
  | clone u p => exact hassign u _ hv
  | mapSet p key u => exact hgive u _ _ hv
  | mapUnset p key => rfl
  | mapUpdate p q append => rfl
  | arrayPushBack p u => exact hgive u _ _ hv
  | arrayPushFront p u => exact hgive u _ _ hv
  | arrayRemove p idx => rfl
  | freeNode u => exact hassign u _ hv
  | read p => rfl
  | toJson p => rfl

omit [HashFcn] in
theorem Served.request_alloc {σ σ' : Served} {upload : Option Upload} {t : Transfer}
    (h : σ.request upload t = some σ') : ∃ res, σ' = σ.alloc res := by
  obtain ⟨r, -, rfl⟩ := Option.map_eq_some_iff.mp h
  exact ⟨r.1, rfl⟩

namespace Held
variable {w : World} {d d' : Desk} {lost : List ℕ} {shown : Shown} {out : Outside}

theorem start : Held World.start Desk.start [] := by
  constructor
  · exact ⟨_, Laid.start⟩
  · exact Accounted.start
  · intro r hr
    cases hr
  · intro r r' v hr
    cases hr

/-- A command on the trees. -/
theorem doc (h : Held w d lost) {cmd : Cmd} (ha : d.store.Allows cmd)
    (hfree : ∀ v ∈ cmd.spends, d.Free v) :
    (w.client.step cmd).2 = (d.store.step cmd).2 ∧
      Held { w with client := (w.client.step cmd).1 } { d with store := (d.store.step cmd).1 }
        lost := by
  obtain ⟨L, hl⟩ := h.laid
  obtain ⟨hlaid, hout⟩ := hl.step ha
  refine ⟨hout, hlaid, h.accounted, fun r hr => ?_, h.single⟩
  rw [h.root r hr]
  cases hv : d.holder r with
  | none => rfl
  | some v => exact (Client.env_step _ fun hm => hfree v hm r hr hv).symm

/-- One response more, with its root in the variable `u`, if there is one. -/
theorem answered (h : Held w d lost) {c : Client} {σ : Store} (hl : ∃ L, Laid c σ L)
    {e : Exchanges} {res : PtResponse} {lost' : List ℕ}
    (hacc : Accounted e (d.served.alloc res) lost') {u : Option Var}
    (henv : ∀ x, u ≠ some x → c.env x = w.client.env x) (hfree : ∀ v ∈ u, d.Free v) :
    Held ⟨c, e, Function.update w.roots w.exchanges.responses.next (u.bind c.env)⟩
      ⟨σ, d.served.alloc res, Function.update d.holder d.served.next u⟩ lost' := by
  have hold : ∀ r, r ≠ d.served.next → ((d.served.alloc res).cell r).isSome = true →
      (d.served.cell r).isSome = true := by
    intro r hr hlive
    rwa [Memory.alloc_cell_ne _ _ hr] at hlive
  rw [h.accounted.next]
  constructor
  · exact hl
  · exact hacc
  · intro r hlive
    show Function.update w.roots _ _ r = (Function.update d.holder _ _ r).bind c.env
    by_cases hr : r = d.served.next
    · rw [hr, Function.update_self, Function.update_self]
    · rw [Function.update_of_ne hr, Function.update_of_ne hr, h.root r (hold r hr hlive)]
      cases hx : d.holder r with
      | none => rfl
      | some x => exact (henv x fun hu => hfree x hu r (hold r hr hlive) hx).symm
  · intro r r' v hlive hlive' hv hv'
    replace hv : Function.update d.holder _ _ r = some v := hv
    replace hv' : Function.update d.holder _ _ r' = some v := hv'
    by_cases hr : r = d.served.next
    · by_cases hr' : r' = d.served.next
      · exact hr.trans hr'.symm
      · rw [hr, Function.update_self] at hv
        rw [Function.update_of_ne hr'] at hv'
        exact absurd hv' (hfree v hv r' (hold r' hr' hlive'))
    · by_cases hr' : r' = d.served.next
      · rw [hr', Function.update_self] at hv'
        rw [Function.update_of_ne hr] at hv
        exact absurd hv (hfree v hv' r (hold r hr hlive))
      · rw [Function.update_of_ne hr] at hv
        rw [Function.update_of_ne hr'] at hv'
        exact h.single r r' v (hold r hr hlive) (hold r' hr' hlive') hv hv'

theorem last (h : Held w d lost) {e : Exchanges} {served : Served} {lost' : List ℕ}
    (hacc : Accounted e served lost') : w.last e = served.cell d.served.next := by
  rw [World.last, h.accounted.next]
  exact hacc.response _

/-- The response of a request is parsed into a variable that is free for it. -/
theorem parsed (h : Held w d lost) {e : Exchanges} {res : PtResponse} {lost' : List ℕ}
    (hacc : Accounted e (d.served.alloc res) lost') {v : Var} (hv : d.store v = .nil)
    (hfree : d.Free v) (hd : d.parsed out v (d.served.alloc res) = some (d', shown))
    (hkeys : (d'.store v).Searchable) :
    ∃ w', w.parsed out v e = some (w', shown) ∧ Held w' d' lost' := by
  obtain ⟨L, hl⟩ := h.laid
  rw [Desk.parsed, Memory.alloc_cell_next, Option.bind_some] at hd
  obtain ⟨text, htext, hd⟩ := Option.map_eq_some_iff.mp hd
  cases hd
  replace hkeys : (Function.update d.store v (out.read text).tree v).Searchable := hkeys
  rw [Function.update_self] at hkeys
  obtain ⟨hlaid, -⟩ := hl.fromJson (hl.env_none.mpr hv) hkeys
  obtain ⟨s, l, hparse, -, -⟩ := (out.read text).parseJson_eq w.client.heap
  simp only [Client.step, Store.step, hparse, Option.getD_some] at hlaid
  have hroot : (w.client.assign v (s.heap, l.ptr)).env v = l.ptr := Function.update_self ..
  have hheld := h.answered hlaid hacc (u := some v)
    (fun u hu => Function.update_of_ne (fun he => hu (congrArg some he.symm)) _ _)
    (fun u hu => Option.mem_some_iff.mp hu ▸ hfree)
  rw [Option.bind_some, hroot] at hheld
  refine ⟨_, ?_, hheld⟩
  rw [World.parsed, h.last hacc, Memory.alloc_cell_next, Option.bind_some, parseResponse,
    parseText]
  rw [Outside.text] at htext
  rw [htext, Option.bind_some, hparse]
  rfl

theorem unparsed (h : Held w d lost) {e : Exchanges} {res : PtResponse} {lost' : List ℕ}
    (hacc : Accounted e (d.served.alloc res) lost')
    (hd : d.unparsed (d.served.alloc res) = some (d', shown)) :
    ∃ w', w.unparsed e = some (w', shown) ∧ Held w' d' lost' := by
  rw [Desk.unparsed, Memory.alloc_cell_next, Option.map_some] at hd
  cases hd
  refine ⟨_, ?_, h.answered h.laid hacc (u := none) (fun _ _ => rfl) fun v hv => by cases hv⟩
  rw [World.unparsed, h.last hacc, Memory.alloc_cell_next]
  rfl

/-- The root goes with its response, and so does the variable that had it. -/
theorem freeResponse (h : Held w d lost) {v : Option Var} {r : ℕ} (hv : d.holder r = v)
    (hd : d.step out (.freeResponse v r) = some (d', shown)) :
    ∃ w', w.step out (.freeResponse v r) = some (w', shown) ∧ Held w' d' lost := by
  obtain ⟨served, hstep, hd⟩ := Option.map_eq_some_iff.mp hd
  cases hd
  obtain ⟨e, new, he, hacc, hlen⟩ := h.accounted.step out.stays hstep
  rw [List.length_eq_zero_iff.mp hlen, List.append_nil] at hacc
  obtain ⟨res, hres, rfl⟩ := Option.map_eq_some_iff.mp hstep
  obtain ⟨L, hl⟩ := h.laid
  have hroot := h.root r (hres ▸ rfl)
  rw [hv] at hroot
  have hold : ∀ r', ((d.served.free r).cell r').isSome = true →
      r' ≠ r ∧ (d.served.cell r').isSome = true := by
    intro r' hlive
    rw [Memory.free_cell] at hlive
    split at hlive
    · cases hlive
    · next hne => exact ⟨hne, hlive⟩
  refine ⟨⟨World.release w.client v (w.roots r), e, w.roots⟩, ?_, ?_⟩
  · rw [World.step, he]
    rfl
  · constructor
    · rw [hroot]
      cases v with
      | none => exact ⟨L, hl⟩
      | some u => exact (hl.freeNode u).1
    · exact hacc
    · intro r' hlive
      obtain ⟨hne, hlive'⟩ := hold r' hlive
      show w.roots r' = (d.holder r').bind (World.release w.client v (w.roots r)).env
      rw [h.root r' hlive']
      cases hx : d.holder r' with
      | none => rfl
      | some x =>
        cases v with
        | none => rfl
        | some u =>
          have hxu : x ≠ u := by
            rintro rfl
            exact hne (h.single r' r x hlive' (hres ▸ rfl) hx hv)
          exact (Function.update_of_ne hxu _ _).symm
    · intro r₁ r₂ x h₁ h₂
      exact h.single r₁ r₂ x (hold r₁ h₁).2 (hold r₂ h₂).2

theorem json (h : Held w d lost) (p : Site) : w.json out p = d.json out p := by
  obtain ⟨L, hl⟩ := h.laid
  obtain ⟨hnode, hin⟩ := hl.node p
  have hsome : (w.client.node p).isSome = (d.store.node p).type.isSome := by
    rw [hnode, ← hl.tree_node p]
    cases (L p.var).reach p.path <;> rfl
  rw [World.json, Desk.json, hsome, ← hl.tree_node p, ptToJson, hnode,
    Located.generateNodeJson_eq hin]
  rfl

/-- A request whose response is parsed. -/
theorem request (h : Held w d lost) {x : Exchange} {upload : Option Upload} {t : Transfer}
    (hx : d.served.step x = d.served.request upload t) {v : Var} (hv : d.store v = .nil)
    (hfree : d.Free v) (hd : (d.served.step x).bind (d.parsed out v) = some (d', shown))
    (hkeys : (d'.store v).Searchable) :
    ∃ w' new, (w.exchanges.step out.stays x).bind (w.parsed out v) = some (w', shown) ∧
      Held w' d' (lost ++ new) ∧ new.length = x.abandons := by
  obtain ⟨served, hstep, hparsed⟩ := Option.bind_eq_some_iff.mp hd
  obtain ⟨e, new, he, hacc, hlen⟩ := h.accounted.step out.stays hstep
  obtain ⟨res, rfl⟩ := Served.request_alloc (hx ▸ hstep)
  obtain ⟨w', hw, hheld⟩ := h.parsed hacc hv hfree hparsed hkeys
  refine ⟨w', new, ?_, hheld, hlen⟩
  rw [he, Option.bind_some, hw]

theorem step (h : Held w d lost) {a : Act} (ha : d.Allows out a)
    (hd : d.step out a = some (d', shown)) :
    ∃ w' new, w.step out a = some (w', shown) ∧ Held w' d' (lost ++ new) ∧
      new.length = a.abandons := by
  cases a with
  | doc cmd =>
    obtain ⟨hout, hheld⟩ := h.doc ha.1 ha.2
    cases hd
    refine ⟨_, [], ?_, (List.append_nil lost).symm ▸ hheld, rfl⟩
    rw [World.step, hout]
  | get v t => exact h.request rfl ha.1 ha.2.1 hd (ha.2.2 d' shown hd)
  | unparsedGet t =>
    obtain ⟨served, hstep, hunparsed⟩ := Option.bind_eq_some_iff.mp hd
    obtain ⟨e, new, he, hacc, hlen⟩ := h.accounted.step out.stays hstep
    obtain ⟨res, rfl⟩ := Served.request_alloc hstep
    obtain ⟨w', hw, hheld⟩ := h.unparsed hacc hunparsed
    refine ⟨w', new, ?_, hheld, hlen⟩
    rw [World.step, he, Option.bind_some, hw]
  | putRaw v upload t => exact h.request rfl ha.1 ha.2.1 hd (ha.2.2 d' shown hd)
  | put v p t =>
    have hrequest := h.request rfl ha.1 ha.2.1 hd (ha.2.2 d' shown hd)
    rwa [← h.json p] at hrequest
  | freeResponse v r =>
    obtain ⟨w', hw, hheld⟩ := h.freeResponse ha hd
    exact ⟨w', [], hw, (List.append_nil lost).symm ▸ hheld, rfl⟩

theorem run (h : Held w d lost) {as : List Act} (hv : d.Valid out as) {shown : List Shown}
    (hd : d.run out as = some (d', shown)) :
    ∃ w' new, w.run out as = some (w', shown) ∧ Held w' d' (lost ++ new) ∧
      new.length = (as.map Act.abandons).sum := by
  induction as generalizing w d lost shown with
  | nil =>
    cases hd
    exact ⟨w, [], rfl, (List.append_nil lost).symm ▸ h, rfl⟩
  | cons a as ih =>
    obtain ⟨⟨d₁, shown₁⟩, hstep, hrest⟩ := Option.bind_eq_some_iff.mp hd
    obtain ⟨⟨d₂, shown₂⟩, hrun, hlast⟩ := Option.map_eq_some_iff.mp hrest
    cases hlast
    obtain ⟨w₁, new₁, hw₁, hheld₁, hlen₁⟩ := h.step hv.1 hstep
    obtain ⟨w₂, new₂, hw₂, hheld₂, hlen₂⟩ := ih hheld₁ (hv.2 d₁ shown₁ hstep) hrun
    refine ⟨w₂, new₁ ++ new₂, ?_, List.append_assoc .. ▸ hheld₂, ?_⟩
    · rw [World.run, hw₁, Option.bind_some, hw₂]
      rfl
    · rw [List.length_append, hlen₁, hlen₂, List.map_cons, List.sum_cons]

end Held

/-! ### Whole programs -/

/-- A program with documents and responses sees with nodes, links and blocks what it sees
with values, and no more is out of its reach than its transfers abandoned. -/
theorem application_refines (out : Outside) {acts : List Act} {d : Desk} {shown : List Shown}
    (hv : Desk.start.Valid out acts) (hrun : Desk.start.run out acts = some (d, shown)) :
    ∃ w lost, World.start.run out acts = some (w, shown) ∧ Held w d lost ∧
      lost.length = (acts.map Act.abandons).sum :=
  Held.start.run hv hrun

omit [HashFcn] in
theorem sum_abandons_eq_zero_iff (acts : List Act) :
    (acts.map Act.abandons).sum = 0 ↔ ∀ a ∈ acts, a.Clean := by
  rw [List.sum_eq_zero_iff_forall_eq_nat, List.forall_mem_map]
  exact forall₂_congr fun a _ => a.abandons_eq_zero_iff

/-- When it has given up its trees and its responses, no node is left, and no block either
if and only if every transfer was clean. -/
theorem application_leaks_iff (out : Outside) {acts : List Act} {d : Desk} {shown : List Shown}
    (hv : Desk.start.Valid out acts) (hrun : Desk.start.run out acts = some (d, shown))
    (htrees : ∀ v, d.store v = .nil) (hfreed : ∀ r, d.served.cell r = none) :
    ∃ w, World.start.run out acts = some (w, shown) ∧ (∀ x, w.client.heap.cell x = none) ∧
      ((∀ a, w.exchanges.blocks.cell a = none) ↔ ∀ a ∈ acts, a.Clean) := by
  obtain ⟨w, lost, hw, hheld, hlen⟩ := Held.start.run hv hrun
  obtain ⟨L, hl⟩ := hheld.laid
  refine ⟨w, hw, hl.empty_iff.mpr htrees, ?_⟩
  rw [hheld.accounted.empty_iff hfreed, ← sum_abandons_eq_zero_iff, ← hlen]
  rfl

end

/-! ### A document is fetched, edited and sent back -/

/-- yajl on `[]`, and on `[{"k":7}]` the other way. -/
def outside : Outside where
  stays _ _ := false
  version := .two
  read text := if text = [91, 93] then .finished (.array []) else .unread
  gen := yajl
  render
    | [.arrayOpen, .mapOpen, .string _, .integer _, .mapClose, .arrayClose] =>
      [91, 123, 34, 107, 34, 58, 55, 125, 93]
    | _ => []

/-- `{"k":7}` is built and goes to the end of the array in 0, where it is read. -/
def edits : List Cmd :=
  [.make 1 .map, .make 2 (.integer 7), .mapSet ⟨1, []⟩ (some [107]) 2, .arrayPushBack ⟨0, []⟩ 1,
    .read ⟨0, [.index 0, .key [107]]⟩]

def bothWays : List Act :=
  .get 0 piecemeal :: (edits.map .doc ++
    [.put 3 ⟨0, []⟩ piecemeal, .freeResponse (some 0) 0, .freeResponse (some 3) 1])

/-- `[]` with its NUL. -/
def emptyArray : PtResponse := ⟨none, 200, some [some 91, some 93, some 0], 2⟩

def fetched : Desk :=
  ⟨Function.update Store.start 0 (.array 0 []), Memory.empty.alloc emptyArray,
    Function.update (fun _ => none) 0 (some 0)⟩

def edited : Desk := { fetched with store := (fetched.store.run edits).1 }

def sentBack : Desk :=
  ⟨Function.update edited.store 3 (.array 0 []), edited.served.alloc emptyArray,
    Function.update edited.holder 1 (some 3)⟩

def freedBoth : Desk :=
  ⟨(sentBack.store.clear 0).clear 3, (sentBack.served.free 0).free 1, sentBack.holder⟩

def shownBoth : List Shown :=
  [.response emptyArray, .doc .done, .doc .done, .doc .done, .doc .done,
    .doc (.reading (Tree.scalar (.integer 7)).reading), .response emptyArray, .doc .done, .doc .done]

theorem step_get : Desk.start.step outside (.get 0 piecemeal) =
    some (fetched, .response emptyArray) := rfl

theorem step_put : edited.step outside (.put 3 ⟨0, []⟩ piecemeal) =
    some (sentBack, .response emptyArray) := rfl

theorem run_docs (out : Outside) (d : Desk) (cmds : List Cmd) (as : List Act) :
    d.run out (cmds.map .doc ++ as) =
      (({ d with store := (d.store.run cmds).1 } : Desk).run out as).map fun q =>
        (q.1, (d.store.run cmds).2.map .doc ++ q.2) := by
  induction cmds generalizing d with
  | nil => exact Option.map_id'.symm
  | cons cmd cmds ih =>
    rw [List.map_cons, List.cons_append, Desk.run, Desk.step, Option.bind_some, ih, Option.map_map]
    rfl

theorem run_bothWays : Desk.start.run outside bothWays = some (freedBoth, shownBoth) := by
  have hshown : (fetched.store.run edits).2 = [.done, .done, .done, .done,
      .reading (Tree.scalar (.integer 7)).reading] := rfl
  rw [bothWays, Desk.run, step_get, Option.bind_some, run_docs, hshown]
  show (((edited.run outside [.put 3 ⟨0, []⟩ piecemeal, .freeResponse (some 0) 0,
    .freeResponse (some 3) 1]).map _).map _) = _
  rw [Desk.run, step_put]
  rfl

theorem takes_of_step {out : Outside} {d d' : Desk} {v : Var} {a : Act} {shown : Shown}
    (hv : d.store v = .nil) (hfree : d.Free v) (hstep : d.step out a = some (d', shown))
    (hkeys : (d'.store v).Searchable) : d.Takes out v a := by
  refine ⟨hv, hfree, fun d₁ shown₁ h₁ => ?_⟩
  rw [hstep] at h₁
  cases h₁
  exact hkeys

theorem valid_cons {out : Outside} {d d' : Desk} {a : Act} {as : List Act} {shown : Shown}
    (ha : d.Allows out a) (hstep : d.step out a = some (d', shown)) (has : d'.Valid out as) :
    d.Valid out (a :: as) := by
  refine ⟨ha, fun d₁ shown₁ h₁ => ?_⟩
  rw [hstep] at h₁
  cases h₁
  exact has

/-- Commands that spend no root of a response. -/
theorem valid_docs {out : Outside} {d : Desk} {cmds : List Cmd} {as : List Act}
    (hv : d.store.Valid cmds) (hfree : ∀ cmd ∈ cmds, ∀ v ∈ cmd.spends, d.Free v)
    (has : ({ d with store := (d.store.run cmds).1 } : Desk).Valid out as) :
    d.Valid out (cmds.map .doc ++ as) := by
  induction cmds generalizing d with
  | nil => exact has
  | cons cmd cmds ih =>
    have hrest := ih (d := { d with store := (d.store.step cmd).1 }) hv.2
      (fun c hc => hfree c (List.mem_cons_of_mem _ hc)) has
    exact valid_cons ⟨hv.1, hfree cmd (List.mem_cons_self ..)⟩ rfl hrest

theorem valid_bothWays : Desk.start.Valid outside bothWays := by
  have hkeys : (Tree.array 0 []).Searchable := .array fun e he => absurd he List.not_mem_nil
  have hroot : ∀ v, v ≠ 0 → fetched.Free v := by
    intro v hv r _ hr
    replace hr : (Function.update (fun _ => none) 0 (some 0) : ℕ → Option Var) r = some v := hr
    rw [Function.update_apply] at hr
    split at hr
    · exact hv (Option.some.inj hr).symm
    · cases hr
  have hfits : ∀ k ∈ some [107], Fits (cstr k) := by
    rintro k ⟨⟩
    decide
  have hedits : fetched.store.Valid edits :=
    ⟨rfl, rfl, ⟨Nat.succ_ne_self 1 |>.symm, hfits⟩, Nat.zero_ne_one, trivial, trivial⟩
  refine valid_cons (takes_of_step rfl (fun r hr => by cases hr) step_get hkeys) step_get ?_
  refine valid_docs hedits ?_ ?_
  · intro cmd hcmd v hv
    apply hroot
    rintro rfl
    simp only [edits, List.mem_cons, List.not_mem_nil, or_false] at hcmd
    rcases hcmd with rfl | rfl | rfl | rfl | rfl <;> cases hv
  · have hfree : edited.Free 3 := hroot 3 (by decide)
    exact valid_cons (takes_of_step rfl hfree step_put hkeys) step_put
      (valid_cons rfl rfl (valid_cons rfl rfl trivial))

theorem store_freedBoth (v : Var) : freedBoth.store v = .nil := by
  match v with
  | 0 | 1 | 2 | 3 => rfl
  | _ + 4 => rfl

theorem served_freedBoth (r : ℕ) : freedBoth.served.cell r = none := by
  show (((fetched.served.alloc emptyArray).free 0).free 1).cell r = none
  rw [Memory.free_cell]
  split
  · rfl
  · next h1 =>
    rw [Memory.free_cell]
    split
    · rfl
    · next h0 =>
      rw [Memory.alloc_cell_ne _ _ h1]
      exact Memory.alloc_cell_ne _ _ h0

section
local instance applicationFcn : HashFcn := hashMurFcn

theorem application_refines_both : ∃ w, ∃ lost : List ℕ,
    World.start.run outside bothWays = some (w, shownBoth) ∧ Held w freedBoth lost ∧
      lost.length = 0 :=
  application_refines outside valid_bothWays run_bothWays

theorem application_leaks_iff_both : ∃ w shown,
    World.start.run outside bothWays = some (w, shown) ∧ (∀ x, w.client.heap.cell x = none) ∧
      ∀ a, w.exchanges.blocks.cell a = none := by
  obtain ⟨w, hw, hheap, hblocks⟩ :=
    application_leaks_iff outside valid_bothWays run_bothWays store_freedBoth served_freedBoth
  refine ⟨w, _, hw, hheap, hblocks.mpr fun a ha => ?_⟩
  rcases List.mem_cons.mp ha with rfl | ha
  · exact piecemeal_clean
  rcases List.mem_append.mp ha with ha | ha
  · obtain ⟨cmd, -, rfl⟩ := List.mem_map.mp ha
    trivial
  · simp only [List.mem_cons, List.not_mem_nil, or_false] at ha
    rcases ha with rfl | rfl | rfl
    · exact piecemeal_clean
    · trivial
    · trivial

end
end Pillowtalk
