import Pillowtalk.Http

/-!
# The upload (`pillowtalk_impl.c:559-566`, `629-644`)

However libcurl divides the upload, the pieces it is given are the data from
the front, without a gap and without an overlap.
-/

namespace Pillowtalk
open Allocated

theorem Request.toNat_realsize (r : Request) : (r.size * r.nmemb).toNat = r.capacity := by
  rw [UInt64.toNat_mul]
  exact Nat.mod_eq_of_lt r.fits

def capacity (rs : List Request) : ℕ := (rs.map Request.capacity).sum

/-- `sent` bytes of `data` have been copied out of the chunk. -/
structure Sending (data : Bytes) (m : MemoryChunk) (sent : ℕ) : Prop where
  memory : m.memory = some (data.map some)
  offset : m.offset = sent
  size : m.offset + m.size.toNat = data.length

theorem Sending.size_eq {data : Bytes} {m : MemoryChunk} {sent : ℕ} (h : Sending data m sent) :
    m.size.toNat = data.length - sent := by
  have hsize := h.size
  rw [h.offset] at hsize
  omega

theorem load_data {data : Bytes} {off n : ℕ} (h : off + n ≤ data.length) :
    Block.load (data.map some) off n = some (((data.drop off).take n).map some) := by
  unfold Block.load
  rw [List.length_map, if_pos h, List.map_take, List.map_drop]

/-! ### One call -/

/-- A call copies what is left, as far as it fits. -/
theorem Sending.step {data : Bytes} {m : MemoryChunk} {sent : ℕ} (h : Sending data m sent)
    (r : Request) : ∃ m' count, sendMemoryCallback m r =
        some (m', ((data.drop sent).take count.toNat).map some, count) ∧
      count.toNat = min r.capacity (data.length - sent) ∧
      Sending data m' (sent + count.toNat) := by
  have hreal := r.toNat_realsize
  have hsize := h.size_eq
  have hoff := h.offset
  have htotal := h.size
  unfold sendMemoryCallback
  by_cases hz : r.size * r.nmemb < 1
  · have hcap : r.capacity = 0 := by
      rw [UInt64.lt_iff_toNat_lt, hreal] at hz
      exact Nat.lt_one_iff.mp hz
    refine ⟨m, 0, ?_, ?_, ?_⟩
    · rw [if_pos hz]
      rfl
    · rw [hcap, Nat.zero_min]
      rfl
    · exact h
  · rw [if_neg hz]
    by_cases hs : 0 < m.size
    · rw [if_pos hs]
      have hcount : (if r.size * r.nmemb < m.size then r.size * r.nmemb else m.size).toNat =
          min r.capacity (data.length - sent) := by
        split
        · next hlt =>
          rw [UInt64.lt_iff_toNat_lt] at hlt
          omega
        · next hge =>
          rw [UInt64.lt_iff_toNat_lt] at hge
          omega
      generalize (if r.size * r.nmemb < m.size then r.size * r.nmemb else m.size) = count at hcount ⊢
      have hle : sent + count.toNat ≤ data.length := by omega
      have hsub : (m.size - count).toNat = m.size.toNat - count.toNat :=
        UInt64.toNat_sub_of_le _ _ (by rw [UInt64.le_iff_toNat_le]; omega)
      refine ⟨{ m with offset := sent + count.toNat, size := m.size - count }, count, ?_, hcount,
        ⟨h.memory, rfl, ?_⟩⟩
      · simp only [h.memory, hoff, Option.bind_some, load_data hle, Option.map_some]
      · show sent + count.toNat + (m.size - count).toNat = data.length
        rw [hsub]
        omega
    · have hnone : data.length - sent = 0 := by
        rw [UInt64.lt_iff_toNat_lt] at hs
        simp only [UInt64.toNat_zero] at hs
        omega
      refine ⟨m, 0, ?_, ?_, h⟩
      · rw [if_neg hs]
        rfl
      · rw [hnone, Nat.min_zero]
        rfl

/-! ### A run of calls -/

theorem Sending.run {data : Bytes} {m : MemoryChunk} {sent : ℕ} (h : Sending data m sent)
    (rs : List Request) : ∃ m' pieces, send m rs = some (m', pieces) ∧
      Sending data m' (min data.length (sent + capacity rs)) ∧
      pieces.flatMap Prod.fst = ((data.drop sent).take (capacity rs)).map some ∧
      List.Forall₂ (fun r p => p.1.length = p.2.toNat ∧ p.2.toNat ≤ r.capacity) rs pieces := by
  have hle : sent ≤ data.length := by
    have hsize := h.size
    rw [h.offset] at hsize
    omega
  induction rs generalizing m sent with
  | nil =>
    refine ⟨m, [], rfl, ?_, ?_, .nil⟩
    · have hmin : min data.length (sent + capacity []) = sent := by
        simp only [capacity, List.map_nil, List.sum_nil]
        omega
      rw [hmin]
      exact h
    · simp [capacity]
  | cons r rs ih =>
    obtain ⟨m₁, count, hcall, hcount, h₁⟩ := h.step r
    obtain ⟨m₂, pieces, hsend, h₂, hpieces, hall⟩ := ih h₁ (by omega)
    have hcap : capacity (r :: rs) = r.capacity + capacity rs := by
      simp only [capacity, List.map_cons, List.sum_cons]
    have htake : ((data.drop sent).take count.toNat).length = count.toNat := by
      rw [List.length_take, List.length_drop]
      omega
    refine ⟨m₂, (((data.drop sent).take count.toNat).map some, count) :: pieces, ?_, ?_, ?_, ?_⟩
    · simp only [send, hcall, Option.bind_some, hsend, Option.map_some]
    · have hmin : min data.length (sent + capacity (r :: rs)) =
          min data.length (sent + count.toNat + capacity rs) := by
        rw [hcap]
        omega
      rw [hmin]
      exact h₂
    · -- either the whole capacity was used, or nothing is left
      rw [List.flatMap_cons, hpieces, ← List.map_append, hcap]
      congr 1
      rcases le_total r.capacity (data.length - sent) with hfit | hshort
      · have hfull : count.toNat = r.capacity := by omega
        rw [hfull, ← List.drop_drop, ← List.take_add]
      · have hleft : count.toNat = data.length - sent := by omega
        have hrest : data.drop (sent + count.toNat) = [] := List.drop_of_length_le (by omega)
        have hlen : (data.drop sent).length = count.toNat := by
          rw [List.length_drop, hleft]
        rw [hrest, List.take_nil, List.append_nil, List.take_of_length_le (le_of_eq hlen),
          List.take_of_length_le (by omega)]
    · have hle' : count.toNat ≤ r.capacity := by omega
      refine .cons ⟨?_, hle'⟩ hall
      rw [List.length_map, htake]

theorem sendChunk_sending {u : Upload} (hn : 0 < u.dataLen) :
    Sending (u.data.take u.dataLen.toNat) (sendChunk (some u)) 0 := by
  have hlen : (u.data.take u.dataLen.toNat).length = u.dataLen.toNat := by
    rw [List.length_take]
    exact min_eq_left u.le
  have hchunk : sendChunk (some u) =
      ⟨some ((u.data.take u.dataLen.toNat).map some), 0, u.dataLen.toUInt64⟩ := by
    simp only [sendChunk, if_pos hn]
  rw [hchunk]
  refine ⟨rfl, rfl, ?_⟩
  rw [hlen, UInt32.toNat_toUInt64, Nat.zero_add]

theorem send_sendChunk (upload : Option Upload) (rs : List Request) :
    (sendChunk upload).memory = none ∨ ∃ m pieces, send (sendChunk upload) rs = some (m, pieces) := by
  cases upload with
  | none => exact Or.inl rfl
  | some u =>
    by_cases hn : 0 < u.dataLen
    · obtain ⟨m, pieces, hsend, -⟩ := (sendChunk_sending hn).run rs
      exact Or.inr ⟨m, pieces, hsend⟩
    · simp only [sendChunk, if_neg hn, true_or]

/-- After any calls the data has gone out from the front, as far as they had room
for it; the next one with room copies nothing exactly when all is sent. -/
theorem send_exactly_once (u : Upload) (hn : 0 < u.dataLen) (rs : List Request) :
    ∃ m pieces, send (sendChunk (some u)) rs = some (m, pieces) ∧
      pieces.flatMap Prod.fst = (u.data.take (min u.dataLen.toNat (capacity rs))).map some ∧
      List.Forall₂ (fun r p => p.1.length = p.2.toNat ∧ p.2.toNat ≤ r.capacity) rs pieces ∧
      m.memory = some ((u.data.take u.dataLen.toNat).map some) ∧
      m.offset + m.size.toNat = u.dataLen.toNat ∧
      ∀ r : Request, ∃ m' copied count, sendMemoryCallback m r = some (m', copied, count) ∧
        (0 < r.capacity → (count = 0 ↔ u.dataLen.toNat ≤ capacity rs)) ∧
        (u.dataLen.toNat ≤ capacity rs → count = 0) := by
  have hlen : (u.data.take u.dataLen.toNat).length = u.dataLen.toNat := by
    rw [List.length_take]
    exact min_eq_left u.le
  obtain ⟨m, pieces, hsend, hm, hpieces, hall⟩ := (sendChunk_sending hn).run rs
  rw [hlen, Nat.zero_add] at hm
  refine ⟨m, pieces, hsend, ?_, hall, hm.memory, hm.size.trans hlen, fun r => ?_⟩
  · rw [hpieces, List.drop_zero, List.take_take, Nat.min_comm]
  · obtain ⟨m', count, hcall, hcount, -⟩ := hm.step r
    have hzero : count = 0 ↔ count.toNat = 0 := by
      rw [← UInt64.toNat_inj, UInt64.toNat_zero]
    refine ⟨m', _, count, hcall, fun hr => ?_, fun hle => ?_⟩
    · rw [hzero]
      omega
    · rw [hzero]
      omega

/-- Three bytes into room for two, for none and for five. -/
theorem send_exactly_once_abc : ∃ m pieces,
    send (sendChunk (some ⟨[97, 98, 99], 3, by decide⟩))
      [⟨1, 2, by decide⟩, ⟨1, 0, by decide⟩, ⟨5, 1, by decide⟩] = some (m, pieces) ∧
    pieces.flatMap Prod.fst = [some 97, some 98, some 99] ∧ m.offset + m.size.toNat = 3 := by
  obtain ⟨m, pieces, hsend, hpieces, -, -, hend, -⟩ :=
    send_exactly_once ⟨[97, 98, 99], 3, by decide⟩ (by decide)
      [⟨1, 2, by decide⟩, ⟨1, 0, by decide⟩, ⟨5, 1, by decide⟩]
  exact ⟨m, pieces, hsend, hpieces, hend⟩

end Pillowtalk
