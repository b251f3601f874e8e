import Pillowtalk.Receiving

/-!
# The blocks of an exchange (`pillowtalk_impl.c:87-96`, `108-149`, `531-627`)

The buffers of a transfer by their addresses: `realloc` may move the one that
is received into, the one that is sent from goes when the transfer is over, and
`raw_json` goes with its response. What nobody points to any more is lost. The
tree at `root` is not counted here.
-/

namespace Pillowtalk
open Addressed Allocated

/-- The blocks of bytes that are allocated. -/
abbrev Blocks := Memory (Block UInt8)

/-- `struct memory_chunk`; `offset` is counted from `memory`. -/
structure ChunkLinks where
  memory : Option ℕ
  offset : ℕ
  size : UInt64

/-- `pt_response_t`. -/
structure ResponseLinks where
  root : Ptr
  responseCode : Int64
  rawJson : Option ℕ
  rawJsonLen : Int32

def ChunkLinks.chunk (c : ChunkLinks) (m : Blocks) : MemoryChunk :=
  ⟨c.memory.bind m.cell, c.offset, c.size⟩

def ResponseLinks.response (l : ResponseLinks) (m : Blocks) : PtResponse :=
  ⟨l.root, l.responseCode, l.rawJson.bind m.cell, l.rawJsonLen⟩

/-! ### The callbacks on addresses -/

namespace Blocks

/-- A copy to where `p` points. -/
def store (m : Blocks) (p off : ℕ) (xs : Bytes) : Option Blocks :=
  (m.cell p).bind fun b => (b.store off xs).map fun b => m.modify p fun _ => b

section
-- whether `realloc` finds room for the block where it is
variable (stays : ℕ → UInt64 → Bool)

def realloc (m : Blocks) (p : ℕ) (size : UInt64) : Blocks × ℕ :=
  if stays p size then (m.modify p fun b => b.realloc size.toNat, p)
  else ((m.alloc (((m.cell p).getD []).realloc size.toNat)).free p, m.next)

def myrealloc (allocates : Bool) (m : Blocks) (ptr : Option ℕ) (size : UInt64) :
    Blocks × Option ℕ :=
  if allocates then
    match ptr with
    | some p => ((realloc stays m p size).1, some (realloc stays m p size).2)
    | none => (m.alloc (Block.malloc size.toNat), some m.next)
  else (m, none)

def recvMemoryCallback (m : Blocks) (mem : ChunkLinks) (d : Delivery) :
    Option (Blocks × ChunkLinks × UInt64) :=
  let realsize := d.size * d.nmemb
  match myrealloc stays d.allocates m mem.memory (mem.size + realsize + 1) with
  | (m, some memory) =>
    (m.store memory mem.size.toNat d.bytes).bind fun m =>
      (m.store memory (mem.size + realsize).toNat [0]).map fun m =>
        (m, { mem with memory := some memory, size := mem.size + realsize }, realsize)
  | (m, none) => some (m, { mem with memory := none }, realsize)

def receive (m : Blocks) (mem : ChunkLinks) : List Delivery → Option (Blocks × ChunkLinks × Bool)
  | [] => some (m, mem, true)
  | d :: ds => (recvMemoryCallback stays m mem d).bind fun r =>
    if r.2.2 = d.size * d.nmemb then receive r.1 r.2.1 ds else some (r.1, r.2.1, false)

end

/-- `malloc` and `memcpy` of the data. -/
def sendChunk (m : Blocks) : Option Upload → Blocks × ChunkLinks
  | some u =>
    if 0 < u.dataLen then
      (m.alloc ((u.data.take u.dataLen.toNat).map some), ⟨some m.next, 0, u.dataLen.toUInt64⟩)
    else (m, ⟨none, 0, 0⟩)
  | none => (m, ⟨none, 0, 0⟩)

/-- `if (p) free(p)`. -/
def free? (m : Blocks) : Option ℕ → Blocks
  | some p => m.free p
  | none => m

/-- What `http_operation` makes of the chunk once the transfer is over. -/
def answer (m : Blocks) (recvChunk : ChunkLinks) (t : Transfer) (taken : Bool) :
    Option (Blocks × ResponseLinks) :=
  if t.performs && taken then
    if 0 < recvChunk.size then
      recvChunk.memory.bind fun memory =>
        (m.store memory recvChunk.size.toNat [0]).map fun m =>
          (m, ⟨none, t.responseCode.getD 500, some memory, intOfSize recvChunk.size⟩)
    else some (m, ⟨none, t.responseCode.getD 500, none, 0⟩)
  else some (m, ⟨none, 500, none, 0⟩)

/-- `http_operation`. The read callback changes no block. -/
def httpOperation (stays : ℕ → UInt64 → Bool) (m : Blocks) (upload : Option Upload) (t : Transfer) :
    Option (Blocks × ResponseLinks × List (Block UInt8 × UInt64)) :=
  let (m, sendChunk) := m.sendChunk upload
  (m.receive stays ⟨none, 0, 0⟩ t.deliveries).bind fun r =>
  (if sendChunk.memory.isSome then send (sendChunk.chunk r.1) t.requests
    else some (sendChunk.chunk r.1, [])).bind fun sent =>
  (answer r.1 r.2.1 t r.2.2).map fun x => (free? x.1 sendChunk.memory, x.2, sent.2)

end Blocks

/-! ### Programs that make requests -/

-- `pt_delete` and `pt_unparsed_get` are as `pt_get` here. `json` is what
-- `pt_to_json` returned.
inductive Exchange where
  | get (t : Transfer)
  | putRaw (upload : Option Upload) (t : Transfer)
  | put (json : Option Bytes) (t : Transfer)
  | freeResponse (response : Option ℕ)

structure Exchanges where
  blocks : Blocks
  responses : Memory ResponseLinks

namespace Exchanges

def start : Exchanges := ⟨Memory.empty, Memory.empty⟩

variable (stays : ℕ → UInt64 → Bool)

def request (s : Exchanges) (upload : Option Upload) (t : Transfer) : Option Exchanges :=
  (s.blocks.httpOperation stays upload t).map fun r => ⟨r.1, s.responses.alloc r.2.1⟩

-- To release what is not allocated is undefined.
def step (s : Exchanges) : Exchange → Option Exchanges
  | .get t => s.request stays none t
  | .putRaw upload t => s.request stays upload t
  | .put (some json) t =>
    let data := s.blocks.next
    (({ s with blocks := s.blocks.alloc ((json ++ [0]).map some) } : Exchanges).request stays
      (some (putUpload (json ++ [0]))) t).map fun s => { s with blocks := s.blocks.free data }
  | .put none t => s.request stays none t
  | .freeResponse (some response) => (s.responses.cell response).map fun res =>
    ⟨s.blocks.free? res.rawJson, s.responses.free response⟩
  | .freeResponse none => some s

def run (s : Exchanges) : List Exchange → Option Exchanges
  | [] => some s
  | x :: xs => (s.step stays x).bind fun s => run s xs

end Exchanges

/-- The responses that have not been freed, as values. -/
abbrev Served := Memory PtResponse

namespace Served

def request (σ : Served) (upload : Option Upload) (t : Transfer) : Option Served :=
  (httpOperation upload t).map fun r => σ.alloc r.1

def step (σ : Served) : Exchange → Option Served
  | .get t => σ.request none t
  | .putRaw upload t => σ.request upload t
  | .put json t => σ.request (json.map fun json => putUpload (json ++ [0])) t
  | .freeResponse (some response) => (σ.cell response).map fun _ => σ.free response
  | .freeResponse none => some σ

def run (σ : Served) : List Exchange → Option Served
  | [] => some σ
  | x :: xs => (σ.step x).bind fun σ => run σ xs

end Served

/-! ### What a transfer loses -/

/-- The blocks that a failing `realloc` leaves behind; `held` says whether there is one. -/
def dropped (held : Bool) : List Delivery → ℕ
  | [] => 0
  | d :: ds => (if held && !d.allocates then 1 else 0) + dropped d.allocates ds

/-- Whether there is a block in the end. -/
def holds (held : Bool) : List Delivery → Bool
  | [] => held
  | d :: ds => holds d.allocates ds

/-- The bytes that were counted. -/
def stored : List Delivery → ℕ
  | [] => 0
  | d :: ds => (if d.allocates then d.bytes.length else 0) + stored ds

/-- A block that is there in the end becomes `raw_json` only if the transfer
succeeds and the block is not empty. -/
def Transfer.abandons (t : Transfer) : ℕ :=
  dropped false t.deliveries +
    if holds false t.deliveries && !(t.performs && decide (0 < stored t.deliveries)) then 1 else 0

def Exchange.abandons : Exchange → ℕ
  | .get t => t.abandons
  | .putRaw _ t => t.abandons
  | .put _ t => t.abandons
  | .freeResponse _ => 0

end Pillowtalk
