import Pillowtalk.Reachable

/-!
# Round trips

Decoding and encoding: what `generate_node_json` writes for a parsed document,
callback by callback. Encoding and decoding: the calls of a tree, read again as
the callbacks of the text they generate.
-/

namespace Pillowtalk
open Addressed

/-! ### Decode, then encode -/

/-- The payload survives a stay in a node: an `int` for an integer, a C string
for a string or a key. -/
def Callback.Fits : Callback → Prop
  | .integer i => -2 ^ 31 ≤ i.toInt ∧ i.toInt < 2 ^ 31
  | .string s => 0 ∉ s
  | .mapKey k => 0 ∉ k
  | _ => True

theorem toInt64_toInt32_eq_iff (i : Int64) :
    i.toInt32.toInt64 = i ↔ -2 ^ 31 ≤ i.toInt ∧ i.toInt < 2 ^ 31 := by
  have hval : i.toInt32.toInt64.toInt = i.toInt.bmod (2 ^ 32) := by
    rw [Int32.toInt_toInt64, Int64.toInt_toInt32]
  rw [← Int64.toInt_inj, hval]
  constructor
  · intro h
    have hle := Int.le_bmod (x := i.toInt) (m := 2 ^ 32) (by decide)
    have hlt := Int.bmod_lt (x := i.toInt) (m := 2 ^ 32) (by decide)
    omega
  · intro h
    exact Int.bmod_eq_of_le (by omega) (by omega)

/-- Where the next token of a JSON text stands. -/
inductive Place where
  | elem
  | key
  | value
deriving DecidableEq

/-- A value has been written at the innermost place. -/
def afterValue : List Place → List Place
  | .value :: places => .key :: places
  | places => places

/-- The callbacks that yajl delivers for the text that a sequence of calls
generates: a string where a key belongs is a key, a boolean is 0 or 1. -/
def reread : List Place → List GenCall → List Callback
  | _, [] => []
  | places, .null :: cs => .null :: reread (afterValue places) cs
  | places, .bool b :: cs => .boolean (if b ≠ 0 then 1 else 0) :: reread (afterValue places) cs
  | places, .integer i :: cs => .integer i :: reread (afterValue places) cs
  | places, .double d :: cs => .double d :: reread (afterValue places) cs
  | .key :: places, .string k :: cs => .mapKey k :: reread (.value :: places) cs
  | places, .string s :: cs => .string s :: reread (afterValue places) cs
  | places, .mapOpen :: cs => .startMap :: reread (.key :: places) cs
  | places, .mapClose :: cs => .endMap :: reread (afterValue places.tail) cs
  | places, .arrayOpen :: cs => .startArray :: reread (.elem :: places) cs
  | places, .arrayClose :: cs => .endArray :: reread (afterValue places.tail) cs

/-- The literal that reading again finds for a scalar. -/
def Scalar.literal : Scalar → Literal
  | .null => .null
  | .boolean b => .boolean (b ≠ 0)
  | .integer i => .integer i.toInt64
  | .double d => .double d
  | .string s => .string (cstr s)

/-- What a boolean is after reading again. -/
def Scalar.identify : Scalar → Scalar
  | .boolean b => .boolean (if b ≠ 0 then 1 else 0)
  | v => v

/-- What reading again makes of a scalar: it finds a string up to its first NUL byte. -/
def Scalar.respelled : Scalar → Scalar
  | .boolean b => .boolean (if b ≠ 0 then 1 else 0)
  | .string s => .string (cstr s)
  | v => v

namespace Tree

def isNil : Tree → Bool
  | .nil => true
  | _ => false

mutual
/-- The document that the calls of a tree spell. -/
def json : Tree → Json
  | .nil => .literal .null
  | .scalar v => .literal v.literal
  | .array _ es => .array (jsonElems es)
  | .map ms => .object (jsonMembers ms)
def jsonElems : List Tree → List Json
  | [] => []
  | e :: es => e.json :: jsonElems es
def jsonMembers : List (Bytes × Tree) → List (Bytes × Json)
  | [] => []
  | (k, v) :: ms => (cstr k, v.json) :: jsonMembers ms
end

mutual
/-- A `NULL` root or element is a null, and a boolean is 0 or 1. -/
def identify : Tree → Tree
  | .nil => .scalar .null
  | .scalar v => .scalar v.identify
  | .array len es => .array len (identifyElems es)
  | .map ms => .map (identifyMembers ms)
def identifyElems : List Tree → List Tree
  | [] => []
  | e :: es => e.identify :: identifyElems es
def identifyMembers : List (Bytes × Tree) → List (Bytes × Tree)
  | [] => []
  | (k, v) :: ms => (k, if v.isNil then .nil else v.identify) :: identifyMembers ms
end

mutual
/-- What reading again makes of any tree: every `NULL` is a null, a key ends at its first NUL
byte, and the elements of an array are counted anew. -/
def respelled : Tree → Tree
  | .nil => .scalar .null
  | .scalar v => .scalar v.respelled
  | .array _ es => .array (UInt32.ofNat es.length) (respelledElems es)
  | .map ms => .map (respelledMembers ms)
def respelledElems : List Tree → List Tree
  | [] => []
  | e :: es => e.respelled :: respelledElems es
def respelledMembers : List (Bytes × Tree) → List (Bytes × Tree)
  | [] => []
  | (k, v) :: ms => (cstr k, v.respelled) :: respelledMembers ms
end

theorem isNil_eq_false {t : Tree} (h : t ≠ .nil) : t.isNil = false := by
  cases t with
  | nil => exact absurd rfl h
  | scalar v => rfl
  | array len es => rfl
  | map ms => rfl

theorem reread_scalar (v : Scalar) {places : List Place} (hp : places.head? ≠ some .key)
    (rest : List GenCall) : reread places (generateScalar v :: rest) =
      v.literal.callback :: reread (afterValue places) rest := by
  cases v with
  | null => simp only [generateScalar, reread, Scalar.literal, Literal.callback]
  | boolean b => simp only [generateScalar, reread, Scalar.literal, Literal.callback,
      decide_eq_true_eq]
  | integer i => simp only [generateScalar, reread, Scalar.literal, Literal.callback]
  | double d => simp only [generateScalar, reread, Scalar.literal, Literal.callback]
  | string s =>
    simp only [generateScalar, Scalar.literal, Literal.callback]
    cases places with
    | nil => simp only [reread]
    | cons p places =>
      cases p with
      | key => exact absurd rfl hp
      | elem => simp only [reread]
      | value => simp only [reread]

theorem reread_calls (t : Tree) (places : List Place) (hp : places.head? ≠ some .key)
    (rest : List GenCall) :
    reread places (t.calls ++ rest) = t.json.callbacks ++ reread (afterValue places) rest := by
  induction t generalizing places rest with
  | nil => simp only [calls, List.singleton_append, reread, json, Json.callbacks, Literal.callback]
  | scalar v =>
    simp only [calls, List.singleton_append, json, Json.callbacks]
    exact reread_scalar v hp rest
  | array len es ih =>
    have helems : ∀ rest, reread (.elem :: places) (callsElems es ++ rest) =
        Json.callbacksElems (jsonElems es) ++ reread (.elem :: places) rest := by
      induction es with
      | nil => exact fun rest => rfl
      | cons e es ihl =>
        intro rest
        have he := ih e (List.mem_cons_self ..) (.elem :: places) (by simp)
          (callsElems es ++ rest)
        simp only [callsElems, jsonElems, Json.callbacksElems, List.append_assoc]
        rw [he, ← ihl (fun f hf => ih f (List.mem_cons_of_mem _ hf)) rest]
        rfl
    simp only [calls, json, Json.callbacks, List.cons_append, List.append_assoc, reread]
    rw [helems]
    simp only [List.nil_append, reread, List.tail_cons]
  | map ms ih =>
    have hmembers : ∀ rest, reread (.key :: places) (callsMembers ms ++ rest) =
        Json.callbacksMembers (jsonMembers ms) ++ reread (.key :: places) rest := by
      induction ms with
      | nil => exact fun rest => rfl
      | cons m ms ihl =>
        intro rest
        obtain ⟨k, v⟩ := m
        have hv := ih (k, v) (List.mem_cons_self ..) (.value :: places) (by simp)
          (callsMembers ms ++ rest)
        simp only [callsMembers, jsonMembers, Json.callbacksMembers, List.cons_append,
          List.append_assoc, reread]
        rw [hv, ← ihl (fun n hn => ih n (List.mem_cons_of_mem _ hn)) rest]
        rfl
    simp only [calls, json, Json.callbacks, List.cons_append, List.append_assoc, reread]
    rw [hmembers]
    simp only [List.nil_append, reread, List.tail_cons]

theorem reread_root (t : Tree) : reread [] t.calls = t.json.callbacks := by
  have hread := t.reread_calls [] (by simp) []
  simpa [reread] using hread

theorem respelled_scalar {v : Scalar} (h : v.Built) : v.respelled = v.identify := by
  cases v with
  | string s => exact congrArg Scalar.string (cstr_of_not_mem h)
  | null => rfl
  | boolean b => rfl
  | integer i => rfl
  | double d => rfl

theorem identifyElems_eq_map (es : List Tree) : identifyElems es = es.map identify := by
  induction es with
  | nil => rfl
  | cons e es ih => simp only [identifyElems, List.map_cons, ih]

theorem respelledElems_eq_map (es : List Tree) : respelledElems es = es.map respelled := by
  induction es with
  | nil => rfl
  | cons e es ih => simp only [respelledElems, List.map_cons, ih]

/-- Of a tree that the constructors and editors can build, reading again changes only what JSON
does not tell apart. -/
theorem Plain.respelled {t : Tree} (h : t.Plain) : t.respelled = t.identify := by
  induction h with
  | nil => rfl
  | scalar h => simp only [Tree.respelled, identify, respelled_scalar h]
  | @array es h ih =>
    simp only [Tree.respelled, identify, respelledElems_eq_map, identifyElems_eq_map]
    exact congrArg _ (List.map_congr_left ih)
  | @map ms hk hv h ih =>
    simp only [Tree.respelled, identify]
    clear h
    congr 1
    induction ms with
    | nil => rfl
    | cons m ms ihl =>
      obtain ⟨k, v⟩ := m
      have hkey : cstr k = k := cstr_of_not_mem (hk (k, v) (List.mem_cons_self ..))
      have hval : v.respelled = v.identify := ih (k, v) (List.mem_cons_self ..)
      have hnil := isNil_eq_false (hv (k, v) (List.mem_cons_self ..))
      have hrest := ihl (fun m hm => hk m (List.mem_cons_of_mem _ hm))
        (fun m hm => hv m (List.mem_cons_of_mem _ hm))
        (fun m hm => ih m (List.mem_cons_of_mem _ hm))
      simp only at hnil
      simp only [respelledMembers, identifyMembers, hkey, hval, hnil, hrest, Bool.false_eq_true,
        if_false]

end Tree

section
variable [HashFcn]

end

section
local instance rereadFcn : HashFcn := hashMurFcn

end

end Pillowtalk
