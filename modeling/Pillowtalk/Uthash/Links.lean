import Mathlib.Data.UInt
import Mathlib.Logic.Function.Basic
import Pillowtalk.Library.Links
import Pillowtalk.Uthash.Hash

/-!
# The links of a hash (`uthash.h:58-232`, `452-565`, `707-764`)

The macros on the `UT_hash_handle`s themselves: application order by `next` and
`prev`, which point at elements, chains by `hh_next` and `hh_prev`, which point at handles. A
handle is named by the element it lies in, so `ELMT_FROM_HH` is no step here. The loops
take a bound on the handles that they meet, for which `num_items` is enough.
They are the macros of a build with `HASH_DEBUG`, where `HASH_FSCK` ends the
program when it finds a broken link or a wrong count.
-/

namespace Pillowtalk
open Links

variable {ι : Type}

/-- `UT_hash_handle`. -/
structure HandleLinks (ι : Type) where
  prev : Option ι
  next : Option ι
  hhPrev : Option ι
  hhNext : Option ι
  key : Bytes
  hashv : UInt32

/-- `UT_hash_bucket`. -/
structure BucketLinks (ι : Type) where
  hhHead : Option ι
  count : UInt32
  expandMult : UInt32

/-- `UT_hash_table`. -/
structure TableLinks (ι : Type) where
  buckets : ℕ → BucketLinks ι
  numBuckets : UInt32
  log2NumBuckets : UInt32
  numItems : UInt32
  tail : Option ι
  idealChainMaxlen : UInt32
  nonidealItems : UInt32
  ineffExpands : UInt32
  noexpand : UInt32

/-- `head`, the table that hangs off it, and the handles in the elements. -/
structure HashLinks (ι : Type) where
  head : Option ι
  tbl : TableLinks ι
  hh : ι → HandleLinks ι

def zeroLinks : BucketLinks ι := ⟨none, 0, 0⟩

def setLinks (buckets : ℕ → BucketLinks ι) (b : ℕ) (bucket : BucketLinks ι) : ℕ → BucketLinks ι :=
  fun i => if i = b then bucket else buckets i

/-! ### Searching -/

/-- `HASH_FIND_IN_BKT` from `out` on. A search that is not through after so many handles has
no result. -/
def findFrom (hh : ι → HandleLinks ι) (key : Bytes) : ℕ → Option ι → Option (Option ι)
  | _, none => some none
  | 0, some _ => none
  | fuel + 1, some out =>
    if keyEquals (hh out).key key then some (some out) else findFrom hh key fuel (hh out).hhNext

namespace HashLinks

def find [HashFcn] (s : HashLinks ι) (key : Bytes) : Option (Option ι) :=
  match s.head with
  | some _ => findFrom s.hh key s.tbl.numItems.toNat
      (s.tbl.buckets (hashToBkt (HashFcn.hash key) s.tbl.numBuckets)).hhHead
  | none => some none

/-- `for(kv = head; kv != NULL; kv = kv->hh.next)`. -/
def each (s : HashLinks ι) : List ι :=
  walk (fun e => (s.hh e).next) s.tbl.numItems.toNat s.head

end HashLinks

/-! ### Adding -/

variable [DecidableEq ι]

def setHandle (hh : ι → HandleLinks ι) (e : ι) (f : HandleLinks ι → HandleLinks ι) :
    ι → HandleLinks ι := Function.update hh e (f (hh e))

/-- The store through a handle pointer that may be `NULL`: `if (p) p->.. = ..`. -/
def setHandle? (hh : ι → HandleLinks ι) (p : Option ι) (f : HandleLinks ι → HandleLinks ι) :
    ι → HandleLinks ι :=
  match p with
  | some e => setHandle hh e f
  | none => hh

/-- A handle becomes the first of a chain, before `first`. -/
def linkFirst (hh : ι → HandleLinks ι) (first : Option ι) (add : ι) : ι → HandleLinks ι :=
  setHandle? (setHandle hh add fun x => { x with hhNext := first, hhPrev := none }) first
    fun x => { x with hhPrev := some add }

structure Expansion (ι : Type) where
  hh : ι → HandleLinks ι
  buckets : ℕ → BucketLinks ι
  nonideal : UInt32

/-- The body of the loop of `HASH_EXPAND_BUCKETS`. -/
def expandHandle (numBkts ideal : UInt32) (s : Expansion ι) (thh : ι) : Expansion ι :=
  let b := hashToBkt (s.hh thh).hashv numBkts
  let count := (s.buckets b).count + 1
  let nonideal := ideal < count
  { hh := linkFirst s.hh (s.buckets b).hhHead thh
    buckets := setLinks s.buckets b ⟨some thh, count,
      if nonideal then count / ideal else (s.buckets b).expandMult⟩
    nonideal := if nonideal then s.nonideal + 1 else s.nonideal }

-- `hh_next` is read before the body overwrites it
def expandFrom (numBkts ideal : UInt32) : ℕ → Expansion ι → Option ι → Expansion ι
  | 0, s, _ => s
  | _, s, none => s
  | fuel + 1, s, some thh =>
    expandFrom numBkts ideal fuel (expandHandle numBkts ideal s thh) (s.hh thh).hhNext

namespace HashLinks

/-- `HASH_EXPAND_BUCKETS`. -/
def expandBuckets (s : HashLinks ι) : HashLinks ι :=
  let ideal := s.tbl.numItems >>> (s.tbl.log2NumBuckets + 1) +
    if s.tbl.numItems &&& (s.tbl.numBuckets * 2 - 1) ≠ 0 then 1 else 0
  let x := (List.range s.tbl.numBuckets.toNat).foldl
    (fun x b =>
      expandFrom (s.tbl.numBuckets * 2) ideal s.tbl.numItems.toNat x (s.tbl.buckets b).hhHead)
    ⟨s.hh, fun _ => zeroLinks, 0⟩
  let ineff := if s.tbl.numItems >>> 1 < x.nonideal then s.tbl.ineffExpands + 1 else 0
  { s with
    hh := x.hh
    tbl := { s.tbl with
      buckets := x.buckets
      numBuckets := s.tbl.numBuckets * 2
      log2NumBuckets := s.tbl.log2NumBuckets + 1
      idealChainMaxlen := ideal
      nonidealItems := x.nonideal
      ineffExpands := ineff
      noexpand := if 1 < ineff then 1 else s.tbl.noexpand } }

/-- A handle comes into its bucket. -/
def intoBkt (s : HashLinks ι) (b : ℕ) (add : ι) : HashLinks ι :=
  let bucket := s.tbl.buckets b
  { s with
    hh := linkFirst s.hh bucket.hhHead add
    tbl := { s.tbl with
      buckets := setLinks s.tbl.buckets b ⟨some add, bucket.count + 1, bucket.expandMult⟩ } }

-- When `2 * num_buckets` is 0, the source stores past what `malloc` gave.
/-- `HASH_ADD_TO_BKT`. -/
def addToBkt (s : HashLinks ι) (b : ℕ) (add : ι) : Option (HashLinks ι) :=
  let s := s.intoBkt b add
  let bucket := s.tbl.buckets b
  if (bucket.expandMult + 1) * 10 ≤ bucket.count ∧ s.tbl.noexpand ≠ 1 then
    if s.tbl.numBuckets * 2 = 0 then none else some s.expandBuckets
  else some s

/-- `HASH_MAKE_TABLE`. -/
def makeTable (add : ι) : TableLinks ι :=
  ⟨fun _ => zeroLinks, 32, 5, 0, some add, 0, 0, 0, 0⟩

/-- The part of `HASH_ADD_KEYPTR` on the application order. -/
def append (s : HashLinks ι) (add : ι) : HashLinks ι :=
  match s.head with
  | none =>
    { s with
      head := some add
      tbl := makeTable add
      hh := setHandle s.hh add fun x => { x with prev := none } }
  | some _ =>
    { s with
      tbl := { s.tbl with tail := some add }
      hh := setHandle (setHandle? s.hh s.tbl.tail fun x => { x with next := some add }) add
        fun x => { x with prev := s.tbl.tail } }

/-- `HASH_ADD_KEYPTR` as far as the bucket. -/
def enter [HashFcn] (s : HashLinks ι) (key : Bytes) (add : ι) : HashLinks ι :=
  let s := { s with hh := setHandle s.hh add fun x => { x with next := none, key := key } }
  let s := s.append add
  { s with
    tbl := { s.tbl with numItems := s.tbl.numItems + 1 }
    hh := setHandle s.hh add fun x => { x with hashv := HashFcn.hash key } }

/-- `HASH_ADD_KEYPTR` but for `HASH_FSCK`. -/
def addKeyptr [HashFcn] (s : HashLinks ι) (key : Bytes) (add : ι) : Option (HashLinks ι) :=
  let s := s.enter key add
  s.addToBkt (hashToBkt (HashFcn.hash key) s.tbl.numBuckets) add

end HashLinks

/-! ### Deleting -/

/-- One of the two pairs of links in a handle. -/
structure LinkFields (ι : Type) where
  prev : HandleLinks ι → Option ι
  next : HandleLinks ι → Option ι
  setPrev : Option ι → HandleLinks ι → HandleLinks ι
  setNext : Option ι → HandleLinks ι → HandleLinks ι
  prev_setPrev : ∀ p x, prev (setPrev p x) = p
  next_setPrev : ∀ p x, next (setPrev p x) = next x
  prev_setNext : ∀ p x, prev (setNext p x) = prev x
  next_setNext : ∀ p x, next (setNext p x) = p

def orderFields : LinkFields ι where
  prev := HandleLinks.prev
  next := HandleLinks.next
  setPrev p x := { x with prev := p }
  setNext p x := { x with next := p }
  prev_setPrev _ _ := rfl
  next_setPrev _ _ := rfl
  prev_setNext _ _ := rfl
  next_setNext _ _ := rfl

def chainFields : LinkFields ι where
  prev := HandleLinks.hhPrev
  next := HandleLinks.hhNext
  setPrev p x := { x with hhPrev := p }
  setNext p x := { x with hhNext := p }
  prev_setPrev _ _ := rfl
  next_setPrev _ _ := rfl
  prev_setNext _ _ := rfl
  next_setNext _ _ := rfl

/-- "The usual patch-up process": the neighbours of `del` are linked to each other. -/
def patchUp (F : LinkFields ι) (hh : ι → HandleLinks ι) (del : ι) : ι → HandleLinks ι :=
  let hh := setHandle? hh (F.prev (hh del)) (F.setNext (F.next (hh del)))
  setHandle? hh (F.next (hh del)) (F.setPrev (F.prev (hh del)))

namespace HashLinks

/-- `HASH_DEL_IN_BKT`. -/
def delInBkt (s : HashLinks ι) (b : ℕ) (del : ι) : HashLinks ι :=
  let bucket := s.tbl.buckets b
  let first := if bucket.hhHead = some del then (s.hh del).hhNext else bucket.hhHead
  { s with
    hh := patchUp chainFields s.hh del
    tbl := { s.tbl with
      buckets := setLinks s.tbl.buckets b ⟨first, bucket.count - 1, bucket.expandMult⟩ } }

/-- The part of `HASH_DELETE` on the application order. -/
def unlink (s : HashLinks ι) (del : ι) : HashLinks ι :=
  let tail := if s.tbl.tail = some del then (s.hh del).prev else s.tbl.tail
  let head := if (s.hh del).prev = none then (s.hh del).next else s.head
  { s with
    head := head
    tbl := { s.tbl with tail := tail }
    hh := patchUp orderFields s.hh del }

/-- `HASH_DELETE` but for `HASH_FSCK`; with the last element the table is freed. -/
def delete (s : HashLinks ι) (del : ι) : HashLinks ι :=
  if (s.hh del).prev = none ∧ (s.hh del).next = none then { s with head := none }
  else
    let s := s.unlink del
    let s := s.delInBkt (hashToBkt (s.hh del).hashv s.tbl.numBuckets) del
    { s with tbl := { s.tbl with numItems := s.tbl.numItems - 1 } }

end HashLinks

/-! ### `HASH_FSCK` (`uthash.h:178-232`) -/

/-- One `while (_thh)` loop: the number of handles, if every link back is to the
one before. -/
def fsckFrom (next prev : ι → Option ι) : ℕ → Option ι → Option ι → Option UInt32
  | _, _, none => some 0
  | 0, _, some _ => none
  | fuel + 1, before, some thh =>
    if prev thh = before then
      (fsckFrom next prev fuel (some thh) (next thh)).map (· + 1)
    else none

namespace HashLinks

def fsckBucket (s : HashLinks ι) (b : ℕ) : Bool :=
  fsckFrom (fun e => (s.hh e).hhNext) (fun e => (s.hh e).hhPrev) s.tbl.numItems.toNat none
    (s.tbl.buckets b).hhHead == some (s.tbl.buckets b).count

def fsck (s : HashLinks ι) : Bool :=
  match s.head with
  | none => true
  | some head =>
    (List.range s.tbl.numBuckets.toNat).all s.fsckBucket &&
      ((List.range s.tbl.numBuckets.toNat).map fun b => (s.tbl.buckets b).count).sum ==
        s.tbl.numItems &&
      fsckFrom (fun e => (s.hh e).next) (fun e => (s.hh e).prev) s.tbl.numItems.toNat none
        (some head) == some s.tbl.numItems

end HashLinks
end Pillowtalk
