import Pillowtalk.FromJson
import Pillowtalk.Sending

/-!
# A document goes out and comes back (`pillowtalk_impl.c:115-149`, `531-644`)

What `pt_put` sends of a document is what a server keeps, and `pt_get` is handed it
in whatever pieces. Between the two trees lie the generator, the copy that is
sent from, the buffer that is received into, three lengths and the parser.
-/

namespace Pillowtalk
open Addressed Allocated

/-! ### The document of a text -/

section
variable [HashFcn]

/-- What `pt_put` hands to `http_operation`. -/
def docUpload (y : YajlGen) (render : List GenCall → Bytes) (h : Heap) (doc : Ptr) :
    Option Upload :=
  if doc.isSome then (ptToJson y h doc 0).map fun calls => putUpload (render calls ++ [0]) else none

theorem ptPut_eq (version : YajlVersion) (yajl : Bytes → List Callback) (y : YajlGen)
    (render : List GenCall → Bytes) (h : Heap) (doc : Ptr) (t : Transfer) :
    ptPut version yajl y render h doc t =
      (httpOperation (docUpload y render h doc) t).bind fun res =>
        parseResponse version yajl h res.1 := rfl

end

/-! ### The document `[true,null]` -/

section
local instance putGetFcn : HashFcn := hashMurFcn

end

end Pillowtalk
