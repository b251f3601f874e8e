import Pillowtalk.Receiving

/-!
# Lengths between a buffer and the parser (`pillowtalk_impl.c:108-149`, `446-450`, `578-603`)

Every length goes through an `int`. On the way to `yajl_parse` it is then read as
unsigned, and with version 2 the sign is extended first.
-/

namespace Pillowtalk
open Addressed Allocated

/-- The lengths that come back from an `int` as they were. -/
def YajlVersion.Carries : YajlVersion → ℕ → Prop
  | .one, n => n < 2 ^ 32
  | .two, n => n < 2 ^ 31 ∨ 2 ^ 64 - 2 ^ 31 ≤ n ∧ n < 2 ^ 64

/-- `raw_json` without its NUL. -/
def PtResponse.bodyLen (res : PtResponse) : ℕ := (res.rawJson.map fun b => b.length - 1).getD 0

theorem length_one_intOfSize (n : UInt64) :
    YajlVersion.one.length (intOfSize n) = n.toNat % 2 ^ 32 := by
  simp only [YajlVersion.length, intOfSize, UInt32.toUInt32_toInt32, UInt64.toNat_toUInt32]

theorem length_two_intOfSize (n : UInt64) : YajlVersion.two.length (intOfSize n) =
    if n.toNat % 2 ^ 32 < 2 ^ 31 then n.toNat % 2 ^ 32 else n.toNat % 2 ^ 32 + 2 ^ 64 - 2 ^ 32 := by
  have hbits : YajlVersion.two.length (intOfSize n) =
      ((n.toBitVec.setWidth 32).signExtend 64).toNat := rfl
  rw [hbits, BitVec.toNat_signExtend, BitVec.msb_eq_decide]
  simp only [BitVec.toNat_setWidth, UInt64.toNat_toBitVec, decide_eq_true_eq]
  split <;> split <;> omega

theorem length_intOfSize_iff (version : YajlVersion) (n : UInt64) :
    version.length (intOfSize n) = n.toNat ↔ version.Carries n.toNat := by
  have hn := n.toNat_lt
  cases version with
  | one =>
    rw [length_one_intOfSize, YajlVersion.Carries]
    omega
  | two =>
    rw [length_two_intOfSize, YajlVersion.Carries]
    split <;> omega

theorem length_lt (version : YajlVersion) (n : Int32) : version.length n < 2 ^ 64 := by
  cases version with
  | one => exact n.toUInt32.toNat_lt.trans (by decide)
  | two => exact n.toInt64.toUInt64.toNat_lt

theorem YajlVersion.Carries.lt {version : YajlVersion} {n : ℕ} (h : version.Carries n) :
    n < 2 ^ 64 := by
  cases version with
  | one => exact lt_trans h (by decide)
  | two =>
    rcases h with h | ⟨-, h⟩
    · omega
    · exact h

theorem toNat_strlen {s : Bytes} (h : (cstr s).length < 2 ^ 64) :
    (strlen s).toNat = (cstr s).length := by
  rw [strlen, UInt64.toNat_ofNat']
  exact Nat.mod_eq_of_lt h

theorem length_strlen_iff (version : YajlVersion) (text : Bytes) :
    version.length (intOfSize (strlen text)) = (cstr text).length ↔
      version.Carries (cstr text).length := by
  rcases Nat.lt_or_ge (cstr text).length (2 ^ 64) with hfit | hbig
  · rw [← toNat_strlen hfit]
    exact length_intOfSize_iff version (strlen text)
  · have hlt := length_lt version (intOfSize (strlen text))
    constructor
    · intro h
      omega
    · intro h
      exact absurd h.lt (by omega)

/-! ### Responses -/

theorem httpOperation_bodyLen {upload : Option Upload} {t : Transfer} {res : PtResponse}
    {sent : List (Block UInt8 × UInt64)} (h : httpOperation upload t = some (res, sent)) :
    ∃ n : UInt64, res.rawJsonLen = intOfSize n ∧ res.bodyLen = n.toNat := by
  simp only [httpOperation, Option.bind_eq_some_iff] at h
  obtain ⟨⟨m, ok⟩, hreceive, s, -, h⟩ := h
  split at h
  · split at h
    · simp only [Option.bind_eq_some_iff, Option.map_eq_some_iff] at h
      obtain ⟨b, hb, b', hstore, h⟩ := h
      cases h
      refine ⟨m.size, rfl, ?_⟩
      rcases receive_cases t.deliveries with ⟨m', hrun, hm⟩ | ⟨hnone, -⟩
      · rw [hrun] at hreceive
        cases hreceive
        have hlen := hm.length_memory hb
        simp only [PtResponse.bodyLen, Option.map_some, Option.getD_some,
          Block.length_store hstore, hlen, Nat.add_sub_cancel]
      · rw [hnone] at hreceive
        cases hreceive
    · cases h
      exact ⟨0, rfl, rfl⟩
  · cases h
    exact ⟨0, rfl, rfl⟩

/-- Where no needed allocation fails, the body is all that was delivered. -/
theorem bodyLen_of_unbroken {upload : Option Upload} {t : Transfer} {res : PtResponse}
    {sent : List (Block UInt8 × UInt64)} (h : httpOperation upload t = some (res, sent))
    (hp : t.performs = true) (hu : Unbroken t.deliveries) :
    res.bodyLen = (body t.deliveries).length := by
  rcases receive_cases t.deliveries with ⟨m, hrun, hm⟩ | ⟨hnone, -⟩
  · obtain ⟨res', hres, hraw⟩ := httpOperation_whole upload hrun (hm.whole_iff.mpr hu)
    rw [h] at hres
    cases hres
    rw [PtResponse.bodyLen, hraw, hp]
    by_cases hb : body t.deliveries = []
    · simp [hb]
    · simp [hb]
  · simp only [httpOperation, hnone, Option.bind_none] at h
    cases h

/-! ### Uploads -/

theorem httpOperation_sent {u : Upload} {t : Transfer} {res : PtResponse}
    {sent : List (Block UInt8 × UInt64)} (h : httpOperation (some u) t = some (res, sent)) :
    if 0 < u.dataLen then ∃ m, send (sendChunk (some u)) t.requests = some (m, sent)
    else sent = [] := by
  simp only [httpOperation, Option.bind_eq_some_iff] at h
  obtain ⟨r, -, ⟨m, pieces⟩, hsend, h⟩ := h
  have hsent : pieces = sent := by
    split at h
    · split at h
      · simp only [Option.bind_eq_some_iff, Option.map_eq_some_iff] at h
        obtain ⟨b, -, b', -, h⟩ := h
        cases h
        rfl
      · cases h
        rfl
    · cases h
      rfl
  subst hsent
  by_cases hn : 0 < u.dataLen
  · rw [if_pos hn]
    simp only [sendChunk, if_pos hn, Option.isSome_some, if_true] at hsend
    exact ⟨m, by rw [sendChunk, if_pos hn, hsend]⟩
  · rw [if_neg hn]
    simp only [sendChunk, if_neg hn, Option.isSome_none, Bool.false_eq_true, if_false] at hsend
    cases hsend
    rfl

/-- All of `text` is copied and, given room, sent. -/
def UploadsWhole (u : Upload) (text : Bytes) : Prop :=
  (sendChunk (some u)).memory.getD [] = text.map some ∧
  (sendChunk (some u)).size.toNat = text.length ∧
  ∀ t res sent, httpOperation (some u) t = some (res, sent) → text.length ≤ capacity t.requests →
    sent.flatMap Prod.fst = text.map some

theorem cstr_nul {text : Bytes} (h : 0 ∉ text) : cstr (text ++ [0]) = text := by
  have hall : ∀ x ∈ text, decide (x ≠ 0) = true := by
    intro x hx
    rw [decide_eq_true_eq]
    rintro rfl
    exact h hx
  rw [cstr, List.takeWhile_append_of_pos hall]
  simp

theorem toNat_dataLen {text : Bytes} (h : 0 ∉ text) :
    (putUpload (text ++ [0])).dataLen.toNat = text.length % 2 ^ 32 := by
  simp only [putUpload, intOfSize, strlen, cstr_nul h, UInt32.toUInt32_toInt32,
    UInt64.toNat_toUInt32, UInt64.toNat_ofNat']
  omega

theorem toNat_sendChunk_size (u : Upload) : (sendChunk (some u)).size.toNat = u.dataLen.toNat := by
  by_cases hn : 0 < u.dataLen
  · simp only [sendChunk, if_pos hn, UInt32.toNat_toUInt64]
  · simp only [sendChunk, if_neg hn, UInt64.toNat_zero]
    rw [UInt32.lt_iff_toNat_lt, UInt32.toNat_zero] at hn
    omega

theorem uploadsWhole_of_dataLen {u : Upload} {text rest : Bytes} (hdata : u.data = text ++ rest)
    (hlen : u.dataLen.toNat = text.length) : UploadsWhole u text := by
  have htake : u.data.take u.dataLen.toNat = text := by
    rw [hdata, hlen]
    exact List.take_left
  by_cases hn : 0 < u.dataLen
  · have hsending := sendChunk_sending hn
    rw [htake] at hsending
    refine ⟨?_, by rw [toNat_sendChunk_size, hlen], fun t res sent h hcap => ?_⟩
    · rw [hsending.memory]
      rfl
    · have hsent := httpOperation_sent h
      rw [if_pos hn] at hsent
      obtain ⟨m, hsend⟩ := hsent
      obtain ⟨m', pieces, hrun, -, hpieces, -⟩ := hsending.run t.requests
      rw [hsend] at hrun
      cases hrun
      rw [hpieces, List.drop_zero, List.take_of_length_le hcap]
  · have hnil : text = [] := by
      rw [UInt32.lt_iff_toNat_lt, UInt32.toNat_zero] at hn
      exact List.length_eq_zero_iff.mp (by omega)
    refine ⟨?_, by rw [toNat_sendChunk_size, hlen], fun t res sent h hcap => ?_⟩
    · rw [hnil, sendChunk, if_neg hn]
      rfl
    · have hsent := httpOperation_sent h
      rw [if_neg hn] at hsent
      rw [hsent, hnil]
      rfl

theorem uploadsWhole_iff {text : Bytes} (h : 0 ∉ text) :
    UploadsWhole (putUpload (text ++ [0])) text ↔ text.length < 2 ^ 32 := by
  constructor
  · rintro ⟨-, hsize, -⟩
    rw [toNat_sendChunk_size] at hsize
    rw [← hsize]
    exact UInt32.toNat_lt _
  · intro hlt
    exact uploadsWhole_of_dataLen rfl ((toNat_dataLen h).trans (Nat.mod_eq_of_lt hlt))

/-! ### All three -/

/-- On every path the length told, or copied, is that of the bytes. -/
def LengthsSurvive (version : YajlVersion) : Prop :=
  (∀ upload t res sent, httpOperation upload t = some (res, sent) →
    version.length res.rawJsonLen = res.bodyLen) ∧
  (∀ text, version.length (intOfSize (strlen text)) = (cstr text).length) ∧
  ∀ text, 0 ∉ text → UploadsWhole (putUpload (text ++ [0])) text

/-- The parser is told the length of a response and of a text exactly when an `int`
carries it, and an upload is whole exactly when an `unsigned` can count it. -/
theorem lengthsSurvive_iff (version : YajlVersion) :
    (∀ upload t res sent, httpOperation upload t = some (res, sent) →
      (t.performs = true → Unbroken t.deliveries → res.bodyLen = (body t.deliveries).length) ∧
      (version.length res.rawJsonLen = res.bodyLen ↔ version.Carries res.bodyLen)) ∧
    (∀ text, version.length (intOfSize (strlen text)) = (cstr text).length ↔
      version.Carries (cstr text).length) ∧
    ∀ text, 0 ∉ text →
      (UploadsWhole (putUpload (text ++ [0])) text ↔ text.length < 2 ^ 32) := by
  refine ⟨fun upload t res sent h => ⟨fun hp hu => bodyLen_of_unbroken h hp hu, ?_⟩,
    length_strlen_iff version, fun text h => uploadsWhole_iff h⟩
  obtain ⟨n, hlen, hbody⟩ := httpOperation_bodyLen h
  rw [hlen, hbody]
  exact length_intOfSize_iff version n

/-- With version 2 a text of 2 ^ 31 bytes is read far past its end. -/
theorem lengthsSurvive_fails : ¬LengthsSurvive .two := by
  rintro ⟨-, htext, -⟩
  have hnul : (0 : UInt8) ∉ List.replicate (2 ^ 31) (97 : UInt8) := by
    intro h
    exact absurd (List.eq_of_mem_replicate h) (by decide)
  have hiff := length_strlen_iff .two (List.replicate (2 ^ 31) 97 ++ [0])
  rw [cstr_nul hnul, List.length_replicate] at hiff
  have htold := htext (List.replicate (2 ^ 31) 97 ++ [0])
  rw [cstr_nul hnul, List.length_replicate] at htold
  rcases hiff.mp htold with hlt | ⟨hge, -⟩
  · exact absurd hlt (by decide)
  · exact absurd hge (by decide)

end Pillowtalk
