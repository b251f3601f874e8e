import Pillowtalk.Library.Block
import Pillowtalk.Serialise

/-!
# Transfers (`pillowtalk_impl.c:108-149`, `446-450`, `528-644`, `803-838`)

libcurl is given by the calls it makes of the two callbacks, by its own result
and by the response code. An access outside a block, or through `NULL`, is
undefined and has no result. `size_t` has 64 bits, `int` and `unsigned` 32, and
a conversion to a narrower type keeps the low bits.
-/

namespace Pillowtalk
open Addressed Allocated

/-! ### `struct memory_chunk` and its callbacks (`605-644`) -/

-- `offset` is counted from `memory`.
structure MemoryChunk where
  memory : Option (Block UInt8)
  offset : ℕ
  size : UInt64

/-- One call of the write callback: `size * nmemb` bytes, and whether the
allocator can meet the request that is made for them. -/
structure Delivery where
  size : UInt64
  nmemb : UInt64
  bytes : Bytes
  allocates : Bool
  length_bytes : bytes.length = size.toNat * nmemb.toNat
  fits : size.toNat * nmemb.toNat < 2 ^ 64

/-- One call of the read callback, for at most `size * nmemb` bytes. -/
structure Request where
  size : UInt64
  nmemb : UInt64
  fits : size.toNat * nmemb.toNat < 2 ^ 64

def Request.capacity (r : Request) : ℕ := r.size.toNat * r.nmemb.toNat

def myrealloc (allocates : Bool) (ptr : Option (Block UInt8)) (size : UInt64) :
    Option (Block UInt8) :=
  if allocates then
    match ptr with
    | some b => some (b.realloc size.toNat)
    | none => some (Block.malloc size.toNat)
  else none

-- The block that a failed `realloc` leaves behind is lost with its address.
def recvMemoryCallback (mem : MemoryChunk) (d : Delivery) : Option (MemoryChunk × UInt64) :=
  let realsize := d.size * d.nmemb
  match myrealloc d.allocates mem.memory (mem.size + realsize + 1) with
  | some memory =>
    (memory.store mem.size.toNat d.bytes).bind fun memory =>
      (memory.store (mem.size + realsize).toNat [0]).map fun memory =>
        ({ mem with memory := some memory, size := mem.size + realsize }, realsize)
  | none => some ({ mem with memory := none }, realsize)

def sendMemoryCallback (mem : MemoryChunk) (r : Request) :
    Option (MemoryChunk × Block UInt8 × UInt64) :=
  let realsize := r.size * r.nmemb
  if realsize < 1 then some (mem, [], 0)
  else if 0 < mem.size then
    let bytesToCopy := if realsize < mem.size then realsize else mem.size
    mem.memory.bind fun memory =>
      (memory.load mem.offset bytesToCopy.toNat).map fun copied =>
        ({ mem with offset := mem.offset + bytesToCopy.toNat, size := mem.size - bytesToCopy },
          copied, bytesToCopy)
  else some (mem, [], 0)

/-! ### What libcurl does with them -/

-- A count other than the one delivered ends the transfer.
def receive (mem : MemoryChunk) : List Delivery → Option (MemoryChunk × Bool)
  | [] => some (mem, true)
  | d :: ds => (recvMemoryCallback mem d).bind fun r =>
    if r.2 = d.size * d.nmemb then receive r.1 ds else some (r.1, false)

def send (mem : MemoryChunk) : List Request → Option (MemoryChunk × List (Block UInt8 × UInt64))
  | [] => some (mem, [])
  | r :: rs => (sendMemoryCallback mem r).bind fun s =>
    (send s.1 rs).map fun rest => (rest.1, s.2 :: rest.2)

structure Transfer where
  deliveries : List Delivery
  requests : List Request
  performs : Bool
  responseCode : Option Int64

/-! ### `http_operation` (`528-603`) -/

/-- `data` with `data_len`. -/
structure Upload where
  data : Bytes
  dataLen : UInt32
  le : dataLen.toNat ≤ data.length

structure PtResponse where
  root : Ptr
  responseCode : Int64
  rawJson : Option (Block UInt8)
  rawJsonLen : Int32

def intOfSize (n : UInt64) : Int32 := n.toUInt32.toInt32

def recvChunk : MemoryChunk := ⟨none, 0, 0⟩

def sendChunk : Option Upload → MemoryChunk
  | some u =>
    if 0 < u.dataLen then
      ⟨some ((u.data.take u.dataLen.toNat).map some), 0, u.dataLen.toUInt64⟩
    else ⟨none, 0, 0⟩
  | none => ⟨none, 0, 0⟩

-- With no data to send there is no read callback either.
def httpOperation (upload : Option Upload) (t : Transfer) :
    Option (PtResponse × List (Block UInt8 × UInt64)) :=
  (receive recvChunk t.deliveries).bind fun received =>
  (if (sendChunk upload).memory.isSome then send (sendChunk upload) t.requests
    else some (sendChunk upload, [])).bind fun sent =>
  if t.performs && received.2 then
    if 0 < received.1.size then
      received.1.memory.bind fun memory =>
        (memory.store received.1.size.toNat [0]).map fun memory =>
          (⟨none, t.responseCode.getD 500, some memory, intOfSize received.1.size⟩, sent.2)
    else some (⟨none, t.responseCode.getD 500, none, 0⟩, sent.2)
  else some (⟨none, 500, none, 0⟩, sent.2)

/-! ### `parse_json` and its callers -/

inductive YajlVersion where
  | one
  | two
deriving DecidableEq

-- The length parameter of `yajl_parse`: `unsigned int`, since version 2 `size_t`.
def YajlVersion.length : YajlVersion → Int32 → ℕ
  | .one, n => n.toUInt32.toNat
  | .two, n => n.toInt64.toUInt64.toNat

def strlen (s : Bytes) : UInt64 := UInt64.ofNat (cstr s).length

section
variable [HashFcn]

/-- `parse_json` on the bytes that `yajl_parse` is told to read; `yajl` says which
callbacks it delivers for them. -/
def parseText (version : YajlVersion) (yajl : Bytes → List Callback) (h : Heap)
    (json : Block UInt8) (jsonLen : Int32) : Option (Heap × Ptr) :=
  ((json.load 0 (version.length jsonLen)).bind Block.values).bind fun text =>
    parseJson h (yajl text)

-- `yajl_parse` reads nothing of a `NULL` text of length 0.
def parseResponse (version : YajlVersion) (yajl : Bytes → List Callback) (h : Heap)
    (res : PtResponse) : Option (Heap × PtResponse) :=
  (parseText version yajl h (res.rawJson.getD []) res.rawJsonLen).map fun parsed =>
    (parsed.1, { res with root := parsed.2 })

def ptUnparsedGet (t : Transfer) : Option PtResponse := (httpOperation none t).map Prod.fst

/-- What `pt_put` hands over of a serialised document: its `strlen` as an `int`, then
as an `unsigned`. -/
def putUpload (data : Bytes) : Upload where
  data := data
  dataLen := (intOfSize (strlen data)).toUInt32
  le := by
    have hle : (cstr data).length ≤ data.length := (List.takeWhile_sublist _).length_le
    have hmod := Nat.mod_le ((cstr data).length % 2 ^ 64) (2 ^ 32)
    have hmod' := Nat.mod_le (cstr data).length (2 ^ 64)
    simp only [intOfSize, strlen, UInt32.toUInt32_toInt32, UInt64.toNat_toUInt32,
      UInt64.toNat_ofNat']
    omega

/-- `pt_put` of a document; `render` gives the text that the generator calls wrote. -/
def ptPut (version : YajlVersion) (yajl : Bytes → List Callback) (y : YajlGen)
    (render : List GenCall → Bytes) (h : Heap) (doc : Ptr) (t : Transfer) :
    Option (Heap × PtResponse) :=
  let upload := if doc.isSome then (ptToJson y h doc 0).map fun calls => putUpload (render calls ++ [0])
    else none
  (httpOperation upload t).bind fun res => parseResponse version yajl h res.1

def ptPutRaw (version : YajlVersion) (yajl : Bytes → List Callback) (h : Heap)
    (upload : Option Upload) (t : Transfer) : Option (Heap × PtResponse) :=
  (httpOperation upload t).bind fun res => parseResponse version yajl h res.1

end

end Pillowtalk
