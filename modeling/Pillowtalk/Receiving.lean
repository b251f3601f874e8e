import Pillowtalk.Sending

/-!
# The response body (`pillowtalk_impl.c:578-627`)

The write callback reports every chunk as taken, also one that it had no memory
for. After such a failure the pointer is `NULL` while `size` still counts the
bytes that are gone, and the next call allocates a block without them.
-/

namespace Pillowtalk
open Allocated

def body (ds : List Delivery) : Bytes := ds.flatMap Delivery.bytes

theorem body_concat (ds : List Delivery) (d : Delivery) : body (ds ++ [d]) = body ds ++ d.bytes := by
  simp only [body, List.flatMap_append, List.flatMap_cons, List.flatMap_nil, List.append_nil]

theorem Delivery.toNat_realsize (d : Delivery) : (d.size * d.nmemb).toNat = d.bytes.length := by
  rw [UInt64.toNat_mul, d.length_bytes]
  exact Nat.mod_eq_of_lt d.fits

theorem myrealloc_eq (ptr : Option (Block UInt8)) (size : UInt64) :
    myrealloc true ptr size = some ((ptr.getD []).realloc size.toNat) := by
  cases ptr with
  | none => exact congrArg some (Block.malloc_eq_realloc _)
  | some b => rfl

/-! ### One call -/

/-- What a larger block keeps of the bytes received before. -/
def MemoryChunk.kept (m : MemoryChunk) : Block UInt8 := (m.memory.getD []).realloc m.size.toNat

theorem recvMemoryCallback_stores {m : MemoryChunk} {d : Delivery} (ha : d.allocates = true)
    (hfit : m.size.toNat + d.bytes.length + 1 < 2 ^ 64) :
    recvMemoryCallback m d = some ({ m with
      memory := some (m.kept ++ d.bytes.map some ++ [some 0])
      size := m.size + d.size * d.nmemb }, d.size * d.nmemb) := by
  have hreal := d.toNat_realsize
  have hsize : (m.size + d.size * d.nmemb).toNat = m.size.toNat + d.bytes.length := by
    rw [UInt64.toNat_add, hreal]
    exact Nat.mod_eq_of_lt (by omega)
  have hreq : (m.size + d.size * d.nmemb + 1).toNat = m.size.toNat + d.bytes.length + 1 := by
    rw [UInt64.toNat_add, hsize]
    exact Nat.mod_eq_of_lt hfit
  obtain ⟨rest, hblock, hrest⟩ := (m.memory.getD []).exists_realloc_eq_append
    (show m.size.toNat ≤ m.size.toNat + d.bytes.length + 1 by omega)
  have hkept : m.kept.length = m.size.toNat := Block.length_realloc _ _
  have hcopy : Block.store (m.kept ++ rest) m.size.toNat d.bytes =
      some (m.kept ++ d.bytes.map some ++ rest.drop d.bytes.length) :=
    Block.store_end hkept (by omega)
  have hnul : Block.store (m.kept ++ d.bytes.map some ++ rest.drop d.bytes.length)
      (m.size.toNat + d.bytes.length) [0] = some (m.kept ++ d.bytes.map some ++ [some 0]) := by
    have hlen : (rest.drop d.bytes.length).length = 1 := by
      rw [List.length_drop]
      omega
    have hend : (m.kept ++ d.bytes.map some).length = m.size.toNat + d.bytes.length := by
      rw [List.length_append, hkept, List.length_map]
    have hone : [(0 : UInt8)].length ≤ (rest.drop d.bytes.length).length := le_of_eq hlen.symm
    have hdrop : (rest.drop d.bytes.length).drop [(0 : UInt8)].length = [] :=
      List.drop_of_length_le (le_of_eq hlen)
    rw [Block.store_end hend hone, hdrop, List.append_nil]
    rfl
  simp only [recvMemoryCallback, ha, myrealloc_eq, hreq, hblock, hsize]
  rw [← MemoryChunk.kept, hcopy, Option.bind_some, hnul, Option.map_some]

/-- The request wraps around, and the copy leaves the small block that it gets. -/
theorem recvMemoryCallback_overflows {m : MemoryChunk} {d : Delivery} (ha : d.allocates = true)
    (hbig : 2 ^ 64 ≤ m.size.toNat + d.bytes.length + 1) : recvMemoryCallback m d = none := by
  have hreal := d.toNat_realsize
  have hd := d.fits
  rw [← d.length_bytes] at hd
  have hm := m.size.toNat_lt
  have hreq : (m.size + d.size * d.nmemb + 1).toNat < m.size.toNat + d.bytes.length := by
    rw [UInt64.toNat_add, UInt64.toNat_add, hreal, UInt64.toNat_one]
    omega
  have hshort : ((m.memory.getD []).realloc (m.size + d.size * d.nmemb + 1).toNat).length <
      m.size.toNat + d.bytes.length := by
    rw [Block.length_realloc]
    exact hreq
  simp only [recvMemoryCallback, ha, myrealloc_eq, Block.store_of_lt hshort, Option.bind_none]

theorem recvMemoryCallback_loses {m : MemoryChunk} {d : Delivery} (ha : d.allocates = false) :
    recvMemoryCallback m d = some ({ m with memory := none }, d.size * d.nmemb) := by
  simp only [recvMemoryCallback, ha, myrealloc, Bool.false_eq_true, if_false]

/-- No call reports a failure. -/
theorem recvMemoryCallback_count {m m' : MemoryChunk} {d : Delivery} {count : UInt64}
    (h : recvMemoryCallback m d = some (m', count)) : count = d.size * d.nmemb := by
  cases ha : d.allocates with
  | false =>
    rw [recvMemoryCallback_loses ha] at h
    cases h
    rfl
  | true =>
    rcases Nat.lt_or_ge (m.size.toNat + d.bytes.length + 1) (2 ^ 64) with hfit | hbig
    · rw [recvMemoryCallback_stores ha hfit] at h
      cases h
      rfl
    · rw [recvMemoryCallback_overflows ha hbig] at h
      cases h

theorem receive_concat (m : MemoryChunk) (ds : List Delivery) (d : Delivery) :
    receive m (ds ++ [d]) = (receive m ds).bind fun r =>
      (recvMemoryCallback r.1 d).map fun s => (s.1, true) := by
  induction ds generalizing m with
  | nil =>
    simp only [List.nil_append, receive, Option.bind_some]
    cases hcall : recvMemoryCallback m d with
    | none => rfl
    | some s => simp only [Option.bind_some, recvMemoryCallback_count hcall, if_true, Option.map_some]
  | cons e ds ih =>
    simp only [List.cons_append, receive]
    cases hcall : recvMemoryCallback m e with
    | none => rfl
    | some s => simp only [Option.bind_some, recvMemoryCallback_count hcall, if_true, ih]

/-! ### A run of calls -/

/-- Some byte had been received, or was being received, when a reallocation failed. -/
def Gap (ds : List Delivery) : Prop :=
  ∃ d ∈ ds.dropWhile fun d => d.bytes.isEmpty, d.allocates = false

theorem dropWhile_of_body_nil {ds : List Delivery} (h : body ds = []) :
    (ds.dropWhile fun d => d.bytes.isEmpty) = [] := by
  rw [List.dropWhile_eq_nil_iff]
  intro d hd
  rw [List.isEmpty_iff]
  exact List.flatMap_eq_nil_iff.mp h d hd

theorem dropWhile_concat {ds : List Delivery} (h : body ds ≠ []) (d : Delivery) :
    ((ds ++ [d]).dropWhile fun d => d.bytes.isEmpty) =
      (ds.dropWhile fun d => d.bytes.isEmpty) ++ [d] := by
  have hne : (ds.dropWhile fun d => d.bytes.isEmpty) ≠ [] := by
    intro hnil
    rw [List.dropWhile_eq_nil_iff] at hnil
    exact h (List.flatMap_eq_nil_iff.mpr fun e he => List.isEmpty_iff.mp (hnil e he))
  rw [List.dropWhile_append, if_neg fun he => hne (List.isEmpty_iff.mp he)]

theorem Gap.body_ne_nil {ds : List Delivery} (h : Gap ds) : body ds ≠ [] := by
  obtain ⟨e, he, -⟩ := h
  intro hnil
  rw [dropWhile_of_body_nil hnil] at he
  cases he

theorem gap_concat_iff {ds : List Delivery} {d : Delivery} :
    Gap (ds ++ [d]) ↔ Gap ds ∨ body (ds ++ [d]) ≠ [] ∧ d.allocates = false := by
  by_cases hb : body ds = []
  · have hno : ¬Gap ds := fun h => h.body_ne_nil hb
    have hall : (ds.dropWhile fun d => d.bytes.isEmpty).isEmpty = true :=
      List.isEmpty_iff.mpr (dropWhile_of_body_nil hb)
    rw [body_concat, hb, List.nil_append, Gap, List.dropWhile_append, if_pos hall,
      List.dropWhile_cons]
    cases hd : d.bytes with
    | nil => simp [hno]
    | cons x xs => simp [hno]
  · have hne : body (ds ++ [d]) ≠ [] := by
      rw [body_concat]
      exact fun h => hb (List.append_eq_nil_iff.mp h).1
    simp only [Gap, dropWhile_concat hb, List.mem_append, List.mem_singleton]
    constructor
    · rintro ⟨e, he | rfl, ha⟩
      · exact Or.inl ⟨e, he, ha⟩
      · exact Or.inr ⟨hne, ha⟩
    · rintro (⟨e, he, ha⟩ | ⟨-, ha⟩)
      · exact ⟨e, Or.inl he, ha⟩
      · exact ⟨d, Or.inr rfl, ha⟩

/-- Where the chunk can be after the calls `ds`. -/
inductive Received (ds : List Delivery) (m : MemoryChunk) : Prop where
  | start (hds : ds = []) (hm : m.memory = none) (hs : m.size.toNat = 0)
  | whole (hm : m.memory = some ((body ds).map some ++ [some 0]))
      (hs : m.size.toNat = (body ds).length) (hfit : (body ds).length + 1 < 2 ^ 64)
      (hlast : ∀ d ∈ ds.getLast?, d.allocates = true) (hgap : ¬Gap ds)
  | nothing (hb : body ds = []) (hm : m.memory = none) (hs : m.size.toNat = 0)
      (hlast : ∃ d ∈ ds.getLast?, d.allocates = false)
  | lost (hgap : Gap ds) (hlen : ∀ b, m.memory = some b → b.length = m.size.toNat + 1)
      (hs : m.size.toNat < (body ds).length ∨ m.size.toNat = (body ds).length ∧
        ∀ b, m.memory = some b → b.head? = some none)

theorem Received.size_le {ds : List Delivery} {m : MemoryChunk} (h : Received ds m) :
    m.size.toNat ≤ (body ds).length := by
  cases h with
  | start hds hm hs => omega
  | whole hm hs => omega
  | nothing hb hm hs => omega
  | lost _ _ hs => omega

theorem Received.length_memory {ds : List Delivery} {m : MemoryChunk} (h : Received ds m)
    {b : Block UInt8} (hb : m.memory = some b) : b.length = m.size.toNat + 1 := by
  cases h with
  | start _ hm =>
    rw [hm] at hb
    cases hb
  | whole hm hs =>
    rw [hm] at hb
    cases hb
    rw [List.length_append, List.length_map, hs, List.length_singleton]
  | nothing _ hm =>
    rw [hm] at hb
    cases hb
  | lost _ hlen => exact hlen b hb

theorem realloc_body (xs : Bytes) :
    Block.realloc (xs.map some ++ [some 0]) xs.length = xs.map some := by
  have hlen : (xs.map (some : UInt8 → Option UInt8)).length = xs.length := List.length_map _
  rw [Block.realloc, List.take_left' hlen, List.length_append, hlen]
  simp

theorem Received.kept_eq {ds : List Delivery} {m : MemoryChunk} (h : Received ds m)
    (hno : ¬Gap ds) : m.kept = (body ds).map some ∧ m.size.toNat = (body ds).length := by
  cases h with
  | start hds hm hs =>
    subst hds
    refine ⟨?_, hs⟩
    rw [MemoryChunk.kept, hm, hs]
    rfl
  | whole hm hs =>
    refine ⟨?_, hs⟩
    rw [MemoryChunk.kept, hm, hs]
    exact realloc_body _
  | nothing hb hm hs =>
    rw [MemoryChunk.kept, hm, hs, hb]
    exact ⟨rfl, rfl⟩
  | lost hgap => exact absurd hgap hno

/-- The first byte stays lost. -/
theorem head_kept {m : MemoryChunk} (hpos : 0 < m.size.toNat)
    (hhead : ∀ b, m.memory = some b → b.head? = some none) : m.kept.head? = some none := by
  obtain ⟨n, hn⟩ := Nat.exists_eq_succ_of_ne_zero (Nat.pos_iff_ne_zero.mp hpos)
  rw [MemoryChunk.kept, hn]
  cases hm : m.memory with
  | none => rfl
  | some b =>
    have hb := hhead b hm
    cases b with
    | nil => cases hb
    | cons x b => exact hb

theorem Received.loses {ds : List Delivery} {m : MemoryChunk} (h : Received ds m) {d : Delivery}
    (ha : d.allocates = false) : Received (ds ++ [d]) { m with memory := none } := by
  have hle := h.size_le
  have hbody := body_concat ds d
  by_cases hb : body (ds ++ [d]) = []
  · have hds : body ds = [] := by
      rw [hbody] at hb
      exact (List.append_eq_nil_iff.mp hb).1
    have hs : m.size.toNat = 0 := by
      rw [hds] at hle
      exact Nat.le_zero.mp hle
    exact .nothing hb rfl hs ⟨d, by rw [List.getLast?_concat]; rfl, ha⟩
  · refine .lost (gap_concat_iff.mpr (Or.inr ⟨hb, ha⟩)) (fun b hm => by cases hm) ?_
    have hsize : m.size.toNat ≤ (body (ds ++ [d])).length := by
      rw [hbody, List.length_append]
      omega
    rcases Nat.lt_or_eq_of_le hsize with hlt | heq
    · exact Or.inl hlt
    · exact Or.inr ⟨heq, fun b hm => by cases hm⟩

theorem Received.stores {ds : List Delivery} {m : MemoryChunk} (h : Received ds m) {d : Delivery}
    (ha : d.allocates = true) (hfit : m.size.toNat + d.bytes.length + 1 < 2 ^ 64) :
    Received (ds ++ [d]) { m with
      memory := some (m.kept ++ d.bytes.map some ++ [some 0])
      size := m.size + d.size * d.nmemb } := by
  have hsize : (m.size + d.size * d.nmemb).toNat = m.size.toNat + d.bytes.length := by
    rw [UInt64.toNat_add, d.toNat_realsize]
    exact Nat.mod_eq_of_lt (by omega)
  have hbody : (body (ds ++ [d])).length = (body ds).length + d.bytes.length := by
    rw [body_concat, List.length_append]
  by_cases hgap : Gap ds
  · have hkept : m.kept.length = m.size.toNat := Block.length_realloc _ _
    refine .lost (gap_concat_iff.mpr (Or.inl hgap)) (fun b hm => ?_) ?_
    · cases hm
      simp only [List.length_append, List.length_map, List.length_singleton, hkept, hsize]
    · cases h with
      | start hds => exact absurd (by rw [hds]; rfl) hgap.body_ne_nil
      | whole _ _ _ _ hno => exact absurd hgap hno
      | nothing hb => exact absurd hb hgap.body_ne_nil
      | lost _ _ hs =>
        simp only [hsize, hbody]
        rcases hs with hlt | ⟨heq, hhead⟩
        · exact Or.inl (by omega)
        · have hpos : 0 < m.size.toNat := by
            rw [heq]
            exact List.length_pos_iff.mpr hgap.body_ne_nil
          refine Or.inr ⟨by omega, fun b hm => ?_⟩
          cases hm
          rw [List.append_assoc, List.head?_append, head_kept hpos hhead]
          rfl
  · obtain ⟨hkept, hs⟩ := h.kept_eq hgap
    refine .whole ?_ ?_ ?_ ?_ ?_
    · rw [hkept, body_concat, List.map_append]
    · rw [hsize, hbody, hs]
    · rw [hbody]
      omega
    · intro e he
      rw [List.getLast?_concat] at he
      cases he
      exact ha
    · rw [gap_concat_iff, ha]
      simp [hgap]

/-- Either the chunk is in one of the known places, or the request for the bytes
received has wrapped around. -/
theorem receive_cases (ds : List Delivery) :
    (∃ m, receive recvChunk ds = some (m, true) ∧ Received ds m) ∨
      receive recvChunk ds = none ∧ 2 ^ 64 ≤ (body ds).length + 1 := by
  induction ds using List.reverseRecOn with
  | nil => exact Or.inl ⟨recvChunk, rfl, .start rfl rfl rfl⟩
  | append_singleton ds d ih =>
    have hbody : (body (ds ++ [d])).length = (body ds).length + d.bytes.length := by
      rw [body_concat, List.length_append]
    rw [receive_concat]
    rcases ih with ⟨m, hrun, hm⟩ | ⟨hrun, hbig⟩
    · rw [hrun, Option.bind_some]
      cases ha : d.allocates with
      | false =>
        rw [recvMemoryCallback_loses ha]
        exact Or.inl ⟨_, rfl, hm.loses ha⟩
      | true =>
        rcases Nat.lt_or_ge (m.size.toNat + d.bytes.length + 1) (2 ^ 64) with hfit | hover
        · rw [recvMemoryCallback_stores ha hfit]
          exact Or.inl ⟨_, rfl, hm.stores ha hfit⟩
        · have hle := hm.size_le
          rw [recvMemoryCallback_overflows ha hover]
          exact Or.inr ⟨rfl, by omega⟩
    · rw [hrun]
      exact Or.inr ⟨rfl, by omega⟩

/-! ### The whole body or none -/

/-- `memory` is the body and a NUL, if there was any call to write one. -/
def Whole (ds : List Delivery) (m : MemoryChunk) : Prop :=
  (ds ≠ [] → m.memory = some ((body ds).map some ++ [some 0])) ∧ m.size.toNat = (body ds).length

/-- The last reallocation is met, and so is every one from the first byte on. -/
def Unbroken (ds : List Delivery) : Prop := ¬Gap ds ∧ ∀ d ∈ ds.getLast?, d.allocates = true

theorem Received.whole_iff {ds : List Delivery} {m : MemoryChunk} (h : Received ds m) :
    Whole ds m ↔ Unbroken ds := by
  cases h with
  | start hds hm hs =>
    subst hds
    refine ⟨fun _ => ⟨fun hgap => hgap.body_ne_nil rfl, ?_⟩, fun _ => ⟨fun hne => absurd rfl hne, hs⟩⟩
    intro d hd
    cases hd
  | whole hm hs hfit hlast hgap => exact ⟨fun _ => ⟨hgap, hlast⟩, fun _ => ⟨fun _ => hm, hs⟩⟩
  | nothing hb hm hs hlast =>
    obtain ⟨d, hd, ha⟩ := hlast
    constructor
    · rintro ⟨hmem, -⟩
      have hne : ds ≠ [] := by
        rintro rfl
        cases hd
      rw [hm] at hmem
      cases hmem hne
    · rintro ⟨-, hall⟩
      rw [hall d hd] at ha
      cases ha
  | lost hgap hlen hs =>
    refine ⟨fun hw => ?_, fun hu => absurd hgap hu.1⟩
    have hne : ds ≠ [] := by
      rintro rfl
      exact hgap.body_ne_nil rfl
    obtain ⟨hmem, hsize⟩ := hw
    rcases hs with hlt | ⟨-, hhead⟩
    · omega
    · have hfirst := hhead _ (hmem hne)
      obtain ⟨x, xs, hx⟩ := List.exists_cons_of_ne_nil hgap.body_ne_nil
      rw [hx] at hfirst
      cases hfirst

/-- Either a call refused its bytes, and there is a 500 and no body, or the body
is whole in the chunk and in the response. -/
def ReceivesWhole (upload : Option Upload) (t : Transfer) : Prop :=
  ∃ m taken res, receive recvChunk t.deliveries = some (m, taken) ∧
    httpOperation upload t = some res ∧
    (taken = false ∧ res.1.responseCode = 500 ∧ res.1.rawJson = none ∨
      Whole t.deliveries m ∧ res.1.rawJson =
        if t.performs && !(body t.deliveries).isEmpty then
          some ((body t.deliveries).map some ++ [some 0])
        else none)

theorem httpOperation_whole (upload : Option Upload) {t : Transfer} {m : MemoryChunk}
    (hrun : receive recvChunk t.deliveries = some (m, true)) (hw : Whole t.deliveries m) :
    ∃ res, httpOperation upload t = some res ∧ res.1.rawJson =
      if t.performs && !(body t.deliveries).isEmpty then
        some ((body t.deliveries).map some ++ [some 0])
      else none := by
  obtain ⟨sent, hsent⟩ : ∃ sent, (if (sendChunk upload).memory.isSome then
      send (sendChunk upload) t.requests else some (sendChunk upload, [])) = some sent := by
    split
    · next hsome =>
      rcases send_sendChunk upload t.requests with hnone | ⟨m', pieces, hsend⟩
      · rw [hnone] at hsome
        cases hsome
      · exact ⟨_, hsend⟩
    · exact ⟨_, rfl⟩
  simp only [httpOperation, hrun, hsent, Option.bind_some, Bool.and_true]
  cases hp : t.performs with
  | false => exact ⟨_, rfl, rfl⟩
  | true =>
    simp only [if_true, Bool.true_and]
    have hpos : 0 < m.size ↔ body t.deliveries ≠ [] := by
      rw [UInt64.lt_iff_toNat_lt, hw.2, ← List.length_pos_iff]
      rfl
    by_cases hb : body t.deliveries = []
    · rw [if_neg (by rw [hpos]; simp [hb])]
      refine ⟨_, rfl, ?_⟩
      simp [hb]
    · have hne : t.deliveries ≠ [] := fun h => hb (by rw [h]; rfl)
      have hlen : ((body t.deliveries).map (some : UInt8 → Option UInt8)).length = m.size.toNat := by
        rw [List.length_map, hw.2]
      have hstore : Block.store ((body t.deliveries).map some ++ [some 0]) m.size.toNat [0] =
          some ((body t.deliveries).map some ++ [some 0]) := by
        have hone : [(0 : UInt8)].length ≤ ([some 0] : Block UInt8).length := Nat.le_refl 1
        have hdrop : ([some 0] : Block UInt8).drop [(0 : UInt8)].length = [] := rfl
        rw [Block.store_end hlen hone, hdrop, List.append_nil]
        rfl
      rw [if_pos (hpos.mpr hb), hw.1 hne, Option.bind_some, hstore]
      refine ⟨_, rfl, ?_⟩
      simp [hb]

/-- A transfer is received whole, or is seen to fail, exactly when no needed
reallocation fails and the bytes and a NUL can be counted. -/
theorem receivesWhole_iff (upload : Option Upload) (t : Transfer) :
    ReceivesWhole upload t ↔
      Unbroken t.deliveries ∧ (body t.deliveries).length + 1 < 2 ^ 64 := by
  constructor
  · rintro ⟨m, taken, res, hrun, -, hres⟩
    rcases receive_cases t.deliveries with ⟨m', hrun', hm⟩ | ⟨hnone, -⟩
    · rw [hrun'] at hrun
      cases hrun
      have hw : Whole t.deliveries m := by
        rcases hres with ⟨htaken, -⟩ | ⟨hw, -⟩
        · cases htaken
        · exact hw
      have hu := hm.whole_iff.mp hw
      refine ⟨hu, ?_⟩
      cases hm with
      | start hds =>
        rw [hds]
        exact (by decide : (0 : ℕ) + 1 < 2 ^ 64)
      | whole _ _ hfit => exact hfit
      | nothing hb =>
        rw [hb]
        exact (by decide : (0 : ℕ) + 1 < 2 ^ 64)
      | lost hgap => exact absurd hgap hu.1
    · rw [hnone] at hrun
      cases hrun
  · rintro ⟨hu, hfit⟩
    rcases receive_cases t.deliveries with ⟨m, hrun, hm⟩ | ⟨-, hbig⟩
    · have hw := hm.whole_iff.mpr hu
      obtain ⟨res, hres, hraw⟩ := httpOperation_whole upload hrun hw
      exact ⟨m, true, res, hrun, hres, Or.inr ⟨hw, hraw⟩⟩
    · omega

/-- `ab` arrives, and there is no memory for `c`: the NUL goes through `NULL`. -/
theorem receivesWhole_fails : ¬∀ upload t, ReceivesWhole upload t := by
  intro hall
  obtain ⟨m, taken, res, -, hres, -⟩ := hall none ⟨[⟨1, 2, [97, 98], true, rfl, by decide⟩,
    ⟨1, 1, [99], false, rfl, by decide⟩], [], true, some 200⟩
  cases hres

end Pillowtalk
