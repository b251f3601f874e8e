import Pillowtalk.Library.Emitter
import Pillowtalk.RoundTrip

/-!
# Serialisation (`pillowtalk_impl.c:415-444`)

`pt_to_json` makes its calls on a `yajl_gen`, ignores what they answer and takes
the text that is there in the end. yajl is a parameter: `YajlGen` has what the
code relies on, `YajlGen.Lawful` the rules by which yajl refuses a call.
-/

namespace Pillowtalk
open Addressed

/-- A `yajl_gen`; `output` is its buffer, given by the calls that wrote it. -/
structure YajlGen extends Emitter GenCall where
  alloc : Int32 → State
  output_alloc : ∀ beautify, output (alloc beautify) = []

section
variable [HashFcn]

def ptToJson (y : YajlGen) (h : Heap) (root : Ptr) (beautify : Int32) : Option (List GenCall) :=
  some (y.output (y.run (y.alloc beautify) (generateNodeJson h root)))

end

/-! ### What a text shows of a tree -/

namespace Tree

mutual
/-- Every member of `t` is there with its own key and value, and the elements
are there in their order. -/
def Shown : Tree → Json → Prop
  | .nil, j => j = .literal .null
  | .scalar v, j => j = .literal v.literal
  | .array _ es, j => ∃ js, j = .array js ∧ ShownElems es js
  | .map ms, j => ∃ js js', j = .object js ∧ js'.Perm js ∧ ShownMembers ms js'
def ShownElems : List Tree → List Json → Prop
  | [], _ => True
  | e :: es, js => ∃ pre j post, js = pre ++ j :: post ∧ e.Shown j ∧ ShownElems es post
def ShownMembers : List (Bytes × Tree) → List (Bytes × Json) → Prop
  | [], _ => True
  | (k, v) :: ms, js =>
    ∃ pre j post, js = pre ++ (cstr k, j) :: post ∧ v.Shown j ∧ ShownMembers ms post
end

/-- There is a member or an element that a text could lose. -/
def HasParts : Tree → Prop
  | .array _ es => es ≠ []
  | .map ms => ms ≠ []
  | _ => False

theorem shown_json (t : Tree) : t.Shown t.json := by
  induction t with
  | nil => simp only [json, Shown]
  | scalar v => simp only [json, Shown]
  | array len es ih =>
    simp only [json, Shown]
    refine ⟨_, rfl, ?_⟩
    induction es with
    | nil => simp only [ShownElems]
    | cons e es ihl =>
      simp only [jsonElems, ShownElems]
      exact ⟨[], _, _, rfl, ih e (List.mem_cons_self ..),
        ihl fun f hf => ih f (List.mem_cons_of_mem _ hf)⟩
  | map ms ih =>
    simp only [json, Shown]
    refine ⟨_, _, rfl, List.Perm.refl _, ?_⟩
    induction ms with
    | nil => simp only [ShownMembers]
    | cons m ms ihl =>
      obtain ⟨k, v⟩ := m
      simp only [jsonMembers, ShownMembers]
      exact ⟨[], _, _, rfl, ih (k, v) (List.mem_cons_self ..),
        ihl fun n hn => ih n (List.mem_cons_of_mem _ hn)⟩

theorem length_callbacksMembers_perm {js js' : List (Bytes × Json)} (h : js'.Perm js) :
    (Json.callbacksMembers js').length = (Json.callbacksMembers js).length := by
  induction h with
  | nil => rfl
  | cons m _ ih =>
    simp only [Json.callbacksMembers, List.length_cons, List.length_append, ih]
  | swap m n l =>
    simp only [Json.callbacksMembers, List.length_cons, List.length_append]
    omega
  | trans _ _ ih₁ ih₂ => exact ih₁.trans ih₂

theorem length_calls_le (t : Tree) {j : Json} (h : t.Shown j) :
    t.calls.length ≤ j.callbacks.length := by
  induction t generalizing j with
  | nil =>
    simp only [Shown] at h
    rw [h]
    exact Nat.le_refl _
  | scalar v =>
    simp only [Shown] at h
    rw [h]
    exact Nat.le_refl _
  | array len es ih =>
    simp only [Shown] at h
    obtain ⟨js, rfl, hes⟩ := h
    have helems : (callsElems es).length ≤ (Json.callbacksElems js).length := by
      induction es generalizing js with
      | nil => exact Nat.zero_le _
      | cons e es ihl =>
        simp only [ShownElems] at hes
        obtain ⟨pre, j, post, rfl, he, hrest⟩ := hes
        have hhead := ih e (List.mem_cons_self ..) he
        have htail := ihl (fun f hf => ih f (List.mem_cons_of_mem _ hf)) post hrest
        simp only [Json.callbacksElems_append, callsElems, Json.callbacksElems,
          List.length_append]
        omega
    simp only [calls, Json.callbacks, List.length_cons, List.length_append]
    omega
  | map ms ih =>
    simp only [Shown] at h
    obtain ⟨js, js', rfl, hp, hms⟩ := h
    have hmembers : (callsMembers ms).length ≤ (Json.callbacksMembers js').length := by
      clear hp
      induction ms generalizing js' with
      | nil => exact Nat.zero_le _
      | cons m ms ihl =>
        obtain ⟨k, v⟩ := m
        simp only [ShownMembers] at hms
        obtain ⟨pre, j, post, rfl, hv, hrest⟩ := hms
        have hhead : v.calls.length ≤ j.callbacks.length := ih (k, v) (List.mem_cons_self ..) hv
        have htail := ihl (fun n hn => ih n (List.mem_cons_of_mem _ hn)) post hrest
        simp only [Json.callbacksMembers_append, callsMembers, Json.callbacksMembers,
          List.length_append, List.length_cons]
        omega
    rw [length_callbacksMembers_perm hp] at hmembers
    simp only [calls, Json.callbacks, List.length_cons, List.length_append]
    omega

/-- A text that is read again as a document with all of the tree in it, if there
is anything to be in it. -/
def Presents (text : List GenCall) (t : Tree) : Prop :=
  t.HasParts → ∃ j : Json, reread [] text = j.callbacks ∧ t.Shown j

end Tree

theorem length_reread (places : List Place) (cs : List GenCall) :
    (reread places cs).length = cs.length := by
  induction cs generalizing places with
  | nil => simp only [reread, List.length_nil]
  | cons c cs ih =>
    cases c with
    | string s =>
      cases places with
      | nil => simp only [reread, List.length_cons, ih]
      | cons p places => cases p <;> simp only [reread, List.length_cons, ih]
    | null => simp only [reread, List.length_cons, ih]
    | bool b => simp only [reread, List.length_cons, ih]
    | integer i => simp only [reread, List.length_cons, ih]
    | double d => simp only [reread, List.length_cons, ih]
    | mapOpen => simp only [reread, List.length_cons, ih]
    | mapClose => simp only [reread, List.length_cons, ih]
    | arrayOpen => simp only [reread, List.length_cons, ih]
    | arrayClose => simp only [reread, List.length_cons, ih]

theorem YajlGen.output_calls (y : YajlGen) (beautify : Int32) (cs : List GenCall) :
    y.output (y.run (y.alloc beautify) cs) = y.taken (y.alloc beautify) cs := by
  rw [y.output_run, y.output_alloc, List.nil_append]

theorem Tree.presents_iff (y : YajlGen) (t : Tree) (beautify : Int32) :
    Presents (y.output (y.run (y.alloc beautify) t.calls)) t ↔
      (t.HasParts → y.acceptsAll (y.alloc beautify) t.calls = true) := by
  rw [y.output_calls]
  constructor
  · intro h hparts
    obtain ⟨j, hread, hshown⟩ := h hparts
    have hlen := t.length_calls_le hshown
    rw [← hread, length_reread] at hlen
    exact y.acceptsAll_of_length_le hlen
  · intro h hparts
    rw [y.taken_of_acceptsAll (h hparts)]
    exact ⟨t.json, reread_root t, t.shown_json⟩

section
variable [HashFcn]

/-- The text is right, or there is none, exactly when no call was refused that
wrote a part of the tree. -/
theorem ptToJson_presents_iff (y : YajlGen) {h : Heap} {l : Located} (hl : Located.In h l)
    (beautify : Int32) :
    (ptToJson y h l.ptr beautify = none ∨
      ∃ text, ptToJson y h l.ptr beautify = some text ∧ Tree.Presents text l.tree) ↔
    (l.tree.HasParts →
      y.acceptsAll (y.alloc beautify) (generateNodeJson h l.ptr) = true) := by
  rw [Located.generateNodeJson_eq hl, ← Tree.presents_iff]
  simp only [ptToJson, Located.generateNodeJson_eq hl, Option.some.injEq, reduceCtorEq, false_or,
    exists_eq_left']

end

/-! ### When yajl refuses a call -/

/-- Where the next token stands after a call. -/
def nextPlaces : List Place → GenCall → List Place
  | .key :: places, .string _ => .value :: places
  | places, .mapOpen => .key :: places
  | places, .arrayOpen => .elem :: places
  | places, .mapClose => afterValue places.tail
  | places, .arrayClose => afterValue places.tail
  | places, _ => afterValue places

def placesAfter (text : List GenCall) : List Place := text.foldl nextPlaces []

theorem placesAfter_concat (text : List GenCall) (c : GenCall) :
    placesAfter (text ++ [c]) = nextPlaces (placesAfter text) c := by
  simp only [placesAfter, List.foldl_append, List.foldl_cons, List.foldl_nil]

/-- The rules of yajl: no NaN and no infinity, only a string or the end of the map
where a key belongs, and any string where a value belongs. -/
structure YajlGen.Lawful (y : YajlGen) : Prop where
  finite : ∀ g d, d.isFinite = false → (y.write g (.double d)).2 = false
  key : ∀ g c, (placesAfter (y.output g)).head? = some .key → (y.write g c).2 = true →
    c = .mapClose ∨ ∃ s, c = .string s
  value : ∀ g s, (placesAfter (y.output g)).head? = some .value → (y.write g (.string s)).2 = true

theorem YajlGen.Lawful.finite_of_acceptsAll {y : YajlGen} (hy : y.Lawful) {g : y.State}
    {cs : List GenCall} (h : y.acceptsAll g cs = true) :
    ∀ d, GenCall.double d ∈ cs → d.isFinite = true := by
  induction cs generalizing g with
  | nil => exact fun d hd => absurd hd List.not_mem_nil
  | cons c cs ih =>
    simp only [Emitter.acceptsAll, Bool.and_eq_true] at h
    intro d hd
    rcases List.mem_cons.mp hd with rfl | hd
    · by_contra hinf
      have hrefused := hy.finite g d (Bool.not_eq_true _ ▸ hinf)
      rw [hrefused] at h
      exact absurd h.1 Bool.false_ne_true
    · exact ih h.2 d hd

def GenCall.isFinite : GenCall → Bool
  | .double d => d.isFinite
  | _ => true

def GenCall.fitsKey : GenCall → Bool
  | .string _ => true
  | .mapClose => true
  | _ => false

/-- Refusing what the rules forbid, and every call after the end of the document. -/
def yajlTakes (text : List GenCall) (c : GenCall) : Bool :=
  match (placesAfter text).head? with
  | some .key => c.fitsKey
  | some _ => c.isFinite
  | none => text.isEmpty && c.isFinite

abbrev yajl : YajlGen where
  State := List GenCall
  write text c := if yajlTakes text c then (text ++ [c], true) else (text, false)
  output text := text
  output_taken text c h := by
    split at h
    · next ht => rw [if_pos ht]
    · cases h
  output_refused text c h := by
    split at h
    · cases h
    · next ht => rw [if_neg ht]
  alloc _ := []
  output_alloc _ := rfl

theorem yajl_write (text : yajl.State) (c : GenCall) :
    (yajl.write text c).2 = yajlTakes text c := by
  simp only [yajl]
  cases yajlTakes text c <;> rfl

theorem yajl_lawful : yajl.Lawful where
  finite text d hd := by
    rw [yajl_write]
    simp only [yajlTakes, GenCall.isFinite, hd, GenCall.fitsKey, Bool.and_false]
    split <;> rfl
  key text c hkey htaken := by
    have hplaces : (placesAfter text).head? = some .key := hkey
    rw [yajl_write] at htaken
    simp only [yajlTakes, hplaces] at htaken
    cases c with
    | string s => exact Or.inr ⟨s, rfl⟩
    | mapClose => exact Or.inl rfl
    | null => cases htaken
    | bool b => cases htaken
    | integer i => cases htaken
    | double d => cases htaken
    | mapOpen => cases htaken
    | arrayOpen => cases htaken
    | arrayClose => cases htaken
  value text s hvalue := by
    have hplaces : (placesAfter text).head? = some .value := hvalue
    rw [yajl_write]
    simp only [yajlTakes, hplaces, GenCall.isFinite]

/-! ### What yajl takes of a tree -/

/-- From the places `ps` on, yajl takes all of `cs` and is then at `ps'`. -/
def Taken (ps : List Place) (cs : List GenCall) (ps' : List Place) : Prop :=
  ∀ text, placesAfter text = ps → (ps = [] → text = []) →
    yajl.acceptsAll text cs = true ∧ placesAfter (text ++ cs) = ps'

theorem taken_nil (ps : List Place) : Taken ps [] ps := by
  intro text htext _
  rw [List.append_nil]
  exact ⟨rfl, htext⟩

theorem taken_single {ps : List Place} {c : GenCall} (hc : c.isFinite = true)
    (hkey : ps.head? = some .key → c.fitsKey = true) : Taken ps [c] (nextPlaces ps c) := by
  intro text htext hempty
  rw [placesAfter_concat, htext]
  refine ⟨?_, rfl⟩
  have htakes : yajlTakes text c = true := by
    simp only [yajlTakes, htext]
    cases ps with
    | nil => simp only [List.head?_nil, hempty rfl, List.isEmpty_nil, hc, Bool.and_true]
    | cons p ps =>
      cases p with
      | key => exact hkey rfl
      | elem => exact hc
      | value => exact hc
  simp only [Emitter.acceptsAll, htakes, if_true, Bool.and_true]

theorem Taken.append {ps ps' ps'' : List Place} {cs ds : List GenCall} (hc : Taken ps cs ps')
    (hd : Taken ps' ds ps'') (hne : ps' ≠ []) : Taken ps (cs ++ ds) ps'' := by
  intro text htext hempty
  obtain ⟨hcs, hmid⟩ := hc text htext hempty
  obtain ⟨hds, hend⟩ := hd (text ++ cs) hmid fun h => absurd h hne
  have hrun : yajl.run text cs = text ++ cs := by
    have hout := yajl.output_run text cs
    rw [yajl.taken_of_acceptsAll hcs] at hout
    exact hout
  rw [yajl.acceptsAll_append, hcs, hrun, hds, ← List.append_assoc]
  exact ⟨rfl, hend⟩

theorem taken_value {ps : List Place} (hp : ps.head? ≠ some .key) {c : GenCall}
    (hc : c.isFinite = true) (hnext : ∀ p, p ≠ .key → ∀ ps, nextPlaces (p :: ps) c =
      afterValue (p :: ps)) (hnil : nextPlaces [] c = []) : Taken ps [c] (afterValue ps) := by
  have hstep : nextPlaces ps c = afterValue ps := by
    cases ps with
    | nil => exact hnil
    | cons p ps => exact hnext p (fun he => hp (congrArg some he)) ps
  rw [← hstep]
  exact taken_single hc fun hk => absurd hk hp

/-- Where a value belongs, the calls of a tree are taken as one value. -/
theorem taken_calls (t : Tree) {ps : List Place} (hp : ps.head? ≠ some .key)
    (hfin : ∀ d, GenCall.double d ∈ t.calls → d.isFinite = true) :
    Taken ps t.calls (afterValue ps) := by
  induction t generalizing ps with
  | nil => exact taken_value hp rfl (fun p _ _ => by cases p <;> rfl) rfl
  | scalar v =>
    simp only [Tree.calls] at hfin ⊢
    cases v with
    | double d =>
      exact taken_value hp (hfin d (List.mem_singleton_self _))
        (fun p _ _ => by cases p <;> rfl) rfl
    | null => exact taken_value hp rfl (fun p _ _ => by cases p <;> rfl) rfl
    | boolean b => exact taken_value hp rfl (fun p _ _ => by cases p <;> rfl) rfl
    | integer i => exact taken_value hp rfl (fun p _ _ => by cases p <;> rfl) rfl
    | string s =>
      refine taken_value hp rfl (fun p hk _ => ?_) rfl
      cases p with
      | key => exact absurd rfl hk
      | elem => rfl
      | value => rfl
  | array len es ih =>
    simp only [Tree.calls, List.mem_cons, List.mem_append] at hfin ⊢
    have helems : Taken (.elem :: ps) (Tree.callsElems es) (.elem :: ps) := by
      clear hp
      induction es with
      | nil => exact taken_nil _
      | cons e es ihl =>
        simp only [Tree.callsElems, List.mem_append] at hfin ⊢
        have he : Taken (.elem :: ps) e.calls (.elem :: ps) :=
          ih e (List.mem_cons_self ..) (by simp) fun d hd =>
            hfin d (Or.inr (Or.inl (Or.inl hd)))
        refine he.append (ihl (fun f hf => ih f (List.mem_cons_of_mem _ hf)) fun d hd => ?_)
          (List.cons_ne_nil _ _)
        rcases hd with hd | hd | hd
        · exact hfin d (Or.inl hd)
        · exact hfin d (Or.inr (Or.inl (Or.inr hd)))
        · exact hfin d (Or.inr (Or.inr hd))
    have hopen : Taken ps [.arrayOpen] (.elem :: ps) := by
      have h := taken_single (show GenCall.arrayOpen.isFinite = true from rfl)
        fun hk => absurd hk hp
      simpa only [nextPlaces] using h
    have hclose : Taken (.elem :: ps) [.arrayClose] (afterValue ps) :=
      taken_single rfl (by simp)
    exact hopen.append (helems.append hclose (List.cons_ne_nil _ _)) (List.cons_ne_nil _ _)
  | map ms ih =>
    simp only [Tree.calls, List.mem_cons, List.mem_append] at hfin ⊢
    have hmembers : Taken (.key :: ps) (Tree.callsMembers ms) (.key :: ps) := by
      clear hp
      induction ms with
      | nil => exact taken_nil _
      | cons m ms ihl =>
        obtain ⟨k, v⟩ := m
        simp only [Tree.callsMembers, List.mem_cons, List.mem_append] at hfin ⊢
        have hkey : Taken (.key :: ps) [.string (cstr k)] (.value :: ps) :=
          taken_single rfl fun _ => rfl
        have hv : Taken (.value :: ps) v.calls (.key :: ps) :=
          ih (k, v) (List.mem_cons_self ..) (by simp) fun d hd =>
            hfin d (Or.inr (Or.inl (Or.inr (Or.inl hd))))
        have hrest := ihl (fun n hn => ih n (List.mem_cons_of_mem _ hn)) fun d hd => by
          rcases hd with hd | hd | hd
          · exact hfin d (Or.inl hd)
          · exact hfin d (Or.inr (Or.inl (Or.inr (Or.inr hd))))
          · exact hfin d (Or.inr (Or.inr hd))
        exact hkey.append (hv.append hrest (List.cons_ne_nil _ _)) (List.cons_ne_nil _ _)
    have hopen : Taken ps [.mapOpen] (.key :: ps) := by
      have h := taken_single (show GenCall.mapOpen.isFinite = true from rfl)
        fun hk => absurd hk hp
      simpa only [nextPlaces] using h
    have hclose : Taken (.key :: ps) [.mapClose] (afterValue ps) :=
      taken_single rfl fun _ => rfl
    exact hopen.append (hmembers.append hclose (List.cons_ne_nil _ _)) (List.cons_ne_nil _ _)

/-- yajl takes all the calls of a tree exactly when its doubles are finite. -/
theorem yajl_acceptsAll_iff (t : Tree) (beautify : Int32) :
    yajl.acceptsAll (yajl.alloc beautify) t.calls = true ↔
      ∀ d, GenCall.double d ∈ t.calls → d.isFinite = true :=
  ⟨fun h => yajl_lawful.finite_of_acceptsAll h,
    fun h => (taken_calls t (show ([] : List Place).head? ≠ some .key by simp) h [] rfl
      fun _ => rfl).1⟩

/-! ### A map with a double -/

/-- `{"a":d,"b":1}`. -/
def doubleMap (d : Double) : List Edit :=
  [.mapNew, .doubleNew d, .mapSet (some 0) (some [97]) (some 1), .integerNew 1,
    .mapSet (some 0) (some [98]) (some 3)]

def doubleNan : Double := ⟨0x7ff8000000000000⟩
def doubleOne : Double := ⟨0x3ff0000000000000⟩

section
local instance serialiseFcn : HashFcn := hashMurFcn

theorem doubleMap_in {d : Double} (hd : d = doubleNan ∨ d = doubleOne) :
    Located.In (build (doubleMap d)) (.map 0 [(keyHandle 2 [97], .scalar 1 (.double d)),
      (keyHandle 4 [98], .scalar 3 (.integer 1))]) := by
  have hval : ∀ h : Heap, h.cell 1 = some (.scalar (.double d)) →
      h.cell 3 = some (.scalar (.integer 1)) →
      ∀ m ∈ [(keyHandle 2 [97], Located.scalar 1 (.double d)),
        (keyHandle 4 [98], Located.scalar 3 (.integer 1))], Located.In h m.2 := by
    intro h h1 h3 m hm
    simp only [List.mem_cons, List.not_mem_nil, or_false] at hm
    rcases hm with rfl | rfl
    · exact .scalar h1
    · exact .scalar h3
  rcases hd with rfl | rfl
  · refine .map rfl rfl ?_ (hval _ rfl rfl)
    intro m hm
    simp only [List.mem_cons, List.not_mem_nil, or_false] at hm
    rcases hm with rfl | rfl <;> rfl
  · refine .map rfl rfl ?_ (hval _ rfl rfl)
    intro m hm
    simp only [List.mem_cons, List.not_mem_nil, or_false] at hm
    rcases hm with rfl | rfl <;> rfl

/-- `{"a":1.0,"b":1}` comes out. -/
theorem ptToJson_presents_double : ∃ text,
    ptToJson yajl (build (doubleMap doubleOne)) (some 0) 0 = some text ∧
      Tree.Presents text (.map [([97], .scalar (.double doubleOne)),
        ([98], .scalar (.integer 1))]) := by
  have h := (ptToJson_presents_iff yajl (doubleMap_in (Or.inr rfl)) 0).mpr
    fun _ => by decide +kernel
  rcases h with h | h
  · cases h
  · exact h

-- `{"a":"b"}`: the key of the second member has become the value of the first.
example : ptToJson yajl (build (doubleMap doubleNan)) (some 0) 0 =
    some [.mapOpen, .string [97], .string [98], .mapClose] := by decide +kernel

end

theorem ptToJson_presents_fails : ¬∀ [HashFcn] (y : YajlGen), y.Lawful →
    ∀ (h : Heap) (l : Located) (beautify : Int32), Located.In h l →
      ptToJson y h l.ptr beautify = none ∨
        ∃ text, ptToJson y h l.ptr beautify = some text ∧ Tree.Presents text l.tree := by
  intro hall
  let fcn : HashFcn := hashMurFcn
  have hin := doubleMap_in (Or.inl rfl)
  rcases hall yajl yajl_lawful _ _ 0 hin with h | ⟨text, htext, hpresents⟩
  · cases h
  · cases htext
    rw [Located.generateNodeJson_eq hin] at hpresents
    have htaken := (Tree.presents_iff yajl _ 0).mp hpresents (List.cons_ne_nil _ _)
    exact absurd htaken (by decide +kernel)

end Pillowtalk
