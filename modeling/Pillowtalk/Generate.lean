import Pillowtalk.Node

/-!
# The generator (`pillowtalk_impl.c:889-950`)

The functions ignore the status of every `yajl_gen` call, so the calls they
make depend on the tree alone.
-/

namespace Pillowtalk
open Addressed

inductive GenCall where
  | null
  | bool (boolean : Int32)
  | integer (number : Int64)
  | double (number : Double)
  | string (str : Bytes)
  | mapOpen
  | mapClose
  | arrayOpen
  | arrayClose
deriving DecidableEq

-- An `int` is passed as a `long long`, a string with its `strlen`.
def generateScalar : Scalar → GenCall
  | .null => .null
  | .boolean value => .bool value
  | .integer value => .integer value.toInt64
  | .double value => .double value
  | .string value => .string (cstr value)

variable [HashFcn]

def generateMembers (generate : Ptr → List GenCall) (h : Heap) :
    List (HashHandle ℕ) → List GenCall
  | [] => []
  | cur :: rest =>
    match h.cell cur.elt with
    | some (.keyValue key value) =>
      .string (cstr key) :: (generate value ++ generateMembers generate h rest)
    | _ => generateMembers generate h rest

def generateElems (generate : Ptr → List GenCall) : List Ptr → List GenCall
  | [] => []
  | node :: rest => generate node ++ generateElems generate rest

def generateNode : ℕ → Heap → Ptr → List GenCall
  | 0, _, _ => []
  | _ + 1, _, none => [.null]
  | fuel + 1, h, some a =>
    match h.cell a with
    | some (.array head _) =>
      .arrayOpen :: (generateElems (generateNode fuel h) head ++ [.arrayClose])
    | some (.map kvs) =>
      .mapOpen :: (generateMembers (generateNode fuel h) h kvs.items ++ [.mapClose])
    | some (.scalar v) => [generateScalar v]
    | _ => []

def generateNodeJson (h : Heap) (node : Ptr) : List GenCall := generateNode (h.next + 1) h node

end Pillowtalk
