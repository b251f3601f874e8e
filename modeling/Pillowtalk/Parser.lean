import Pillowtalk.Node

/-!
# The yajl callbacks (`pillowtalk_impl.c:646-801`)

The parser context is the root and a stack of open containers, innermost
first. A callback whose `assert` fails stops the program (`none`). yajl passes
integers as 64-bit values, booleans as 0 or 1, and strings and keys as bytes
with a length, NUL bytes from `\u0000` included.
-/

namespace Pillowtalk
open Addressed

inductive Callback where
  | null
  | boolean (boolean : Int32)
  | integer (integer : Int64)
  | double (dbl : Double)
  | string (str : Bytes)
  | startMap
  | mapKey (str : Bytes)
  | endMap
  | startArray
  | endArray
deriving DecidableEq

structure ContainerCtx where
  container : ℕ
  cur : Ptr

variable [HashFcn]

/-- `pt_parser_ctx_t`, with the memory the callbacks write to. -/
structure ParserState where
  heap : Heap
  root : Ptr
  stack : List ContainerCtx

/-- `stack->cur`, the node that takes the next value. -/
def ParserState.cur (s : ParserState) : Ptr := s.stack.head?.bind ContainerCtx.cur

-- The last case is the branch that prints "Shouldn't get here".
def Node.attach (value : Ptr) : Node → Node
  | .array head len => .array (head ++ [value]) (len + 1)
  | .keyValue key _ => .keyValue key value
  | n => n

def addNodeToContextContainer (s : ParserState) (value : Ptr) : ParserState :=
  match s.cur with
  | some cur => { s with heap := s.heap.modify cur (Node.attach value) }
  | none => { s with root := value }

/-! ### Values -/

def addNewNode (s : ParserState) (n : Node) : ParserState :=
  addNodeToContextContainer { s with heap := s.heap.alloc n } (some s.heap.next)

def jsonNull (s : ParserState) : ParserState := addNewNode s (.scalar .null)
def jsonBoolean (s : ParserState) (boolean : Int32) : ParserState :=
  addNewNode s (.scalar (.boolean boolean))
-- `node->value = integer` narrows a `long long` to an `int`
def jsonInteger (s : ParserState) (integer : Int64) : ParserState :=
  addNewNode s (.scalar (.integer integer.toInt32))
def jsonDouble (s : ParserState) (dbl : Double) : ParserState :=
  addNewNode s (.scalar (.double dbl))
def jsonString (s : ParserState) (str : Bytes) : ParserState :=
  addNewNode s (.scalar (.string str))

/-! ### Containers -/

def jsonMapKey (s : ParserState) (str : Bytes) : Option ParserState :=
  match s.stack with
  | [] => none
  | top :: rest => match s.heap.cell top.container with
    | some (.map kvs) => some { s with
        heap := (s.heap.alloc (.keyValue str none)).modify top.container
          (Node.setKeyValues (kvs.hashAddKeyptr str s.heap.next))
        stack := { top with cur := some s.heap.next } :: rest }
    | _ => none

def pushContainer (s : ParserState) (container : ℕ) (cur : Ptr) : ParserState :=
  { s with stack := ⟨container, cur⟩ :: s.stack }

def jsonStartMap (s : ParserState) : ParserState :=
  pushContainer (addNewNode s (.map hashNull)) s.heap.next none

def jsonStartArray (s : ParserState) : ParserState :=
  pushContainer (addNewNode s (.array [] 0)) s.heap.next (some s.heap.next)

def popContainer (s : ParserState) (type : PtType) : Option ParserState :=
  match s.stack with
  | [] => none
  | top :: rest =>
    if typeOf s.heap (some top.container) = some type then some { s with stack := rest } else none

def jsonEndMap (s : ParserState) : Option ParserState := popContainer s .map
def jsonEndArray (s : ParserState) : Option ParserState := popContainer s .array

/-! ### A run of the parser -/

def callback (s : ParserState) : Callback → Option ParserState
  | .null => some (jsonNull s)
  | .boolean boolean => some (jsonBoolean s boolean)
  | .integer integer => some (jsonInteger s integer)
  | .double dbl => some (jsonDouble s dbl)
  | .string str => some (jsonString s str)
  | .startMap => some (jsonStartMap s)
  | .mapKey str => jsonMapKey s str
  | .endMap => jsonEndMap s
  | .startArray => some (jsonStartArray s)
  | .endArray => jsonEndArray s

def runCallbacks (s : ParserState) : List Callback → Option ParserState
  | [] => some s
  | c :: cs => (callback s c).bind fun s => runCallbacks s cs

/-- The context that `parse_json` allocates with `calloc`. -/
def emptyParser (h : Heap) : ParserState := ⟨h, none, []⟩

/-- `parse_json`, given the callbacks that yajl delivers for the text: whatever
its status, the root that they have built so far. -/
def parseJson (h : Heap) (cs : List Callback) : Option (Heap × Ptr) :=
  (runCallbacks (emptyParser h) cs).map fun s => (s.heap, s.root)

theorem runCallbacks_append (s : ParserState) (cs ds : List Callback) :
    runCallbacks s (cs ++ ds) = (runCallbacks s cs).bind fun s => runCallbacks s ds := by
  induction cs generalizing s with
  | nil => rfl
  | cons c cs ih =>
    simp only [List.cons_append, runCallbacks]
    cases callback s c with
    | none => rfl
    | some s => exact ih s

end Pillowtalk
