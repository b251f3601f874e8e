import Pillowtalk.Exchange

/-!
# Every block is accounted for

A block that is allocated is the `raw_json` of one response that has not been
freed, or one that a transfer abandoned. One call of a callback, one transfer and one
request keep the account, wherever `realloc` puts its blocks.
-/

namespace Pillowtalk
open Addressed Allocated

/-! ### One call -/

/-- The blocks that are allocated are those of `R` and, apart from them, that at `p`. -/
structure Owns (m : Blocks) (R : ℕ → Prop) (p : Option ℕ) : Prop where
  live : ∀ a, (m.cell a).isSome ↔ R a ∨ p = some a
  apart : ∀ a, R a → p ≠ some a

namespace Owns
variable {m : Blocks} {R : ℕ → Prop} {p : Option ℕ} {q : ℕ}

theorem lt_next (h : Owns m R p) {a : ℕ} (ha : R a) : a < m.next := by
  obtain ⟨b, hb⟩ := Option.isSome_iff_exists.mp ((h.live a).mpr (Or.inl ha))
  exact Memory.lt_next hb

theorem exists_cell (h : Owns m R (some q)) : ∃ b, m.cell q = some b :=
  Option.isSome_iff_exists.mp ((h.live q).mpr (Or.inr rfl))

/-- A block that nobody points to any more. -/
theorem lose (h : Owns m R (some q)) : Owns m (fun a => R a ∨ a = q) none := by
  constructor
  · intro a
    rw [h.live a, Option.some.injEq, eq_comm]
    simp
  · exact fun a _ => nofun

theorem alloc (h : Owns m R none) (b : Block UInt8) : Owns (m.alloc b) R (some m.next) := by
  constructor
  · intro a
    by_cases ha : a = m.next
    · rw [ha, Memory.alloc_cell_next]
      simp
    · rw [Memory.alloc_cell_ne _ _ ha, h.live a]
      have hne : some m.next ≠ some a := fun he => ha (Option.some.inj he).symm
      simp [hne]
  · rintro a ha he
    have hlt := h.lt_next ha
    cases he
    omega

/-- The part of `R` that is released. -/
theorem free_rest (h : Owns m R p) {d : ℕ} (hd : R d) : Owns (m.free d) (fun a => R a ∧ a ≠ d) p := by
  constructor
  · intro a
    rw [Memory.free_cell]
    by_cases ha : a = d
    · have hp := h.apart d hd
      simp [ha, hp]
    · rw [if_neg ha, h.live a]
      simp [ha]
  · exact fun a ha => h.apart a ha.1

theorem modify (h : Owns m R p) (a : ℕ) (f : Block UInt8 → Block UInt8) :
    Owns (m.modify a f) R p := by
  constructor
  · intro b
    rw [← h.live b, Memory.modify_cell]
    split
    · rw [Option.isSome_map]
    · rfl
  · exact h.apart

theorem keeps_modify (h : Owns m R (some q)) (f : Block UInt8 → Block UInt8) :
    Memory.Keeps R m (m.modify q f) :=
  (Memory.keeps_modify m q f).mono fun _ ha he => h.apart _ ha (congrArg some he.symm)

/-- What `realloc` gives. -/
theorem realloc (h : Owns m R (some q)) {b : Block UInt8} (hb : m.cell q = some b)
    (stays : ℕ → UInt64 → Bool) (size : UInt64) :
    Owns (Blocks.realloc stays m q size).1 R (some (Blocks.realloc stays m q size).2) ∧
      (Blocks.realloc stays m q size).1.cell (Blocks.realloc stays m q size).2 =
        some (b.realloc size.toNat) ∧
      Memory.Keeps R m (Blocks.realloc stays m q size).1 := by
  rw [Blocks.realloc]
  split
  · exact ⟨h.modify q _, Memory.modify_cell_self _ hb, h.keeps_modify _⟩
  · rw [hb, Option.getD_some]
    have hq : q < m.next := Memory.lt_next hb
    have hnext : m.next ≠ q := by omega
    refine ⟨?_, ?_, ?_⟩
    · constructor
      · intro a
        show ((m.alloc _).free q |>.cell a).isSome ↔ R a ∨ some m.next = some a
        rw [Memory.free_cell]
        by_cases ha : a = q
        · have hno : ¬R q := fun hR => h.apart q hR rfl
          simp [ha, hno, hnext]
        · rw [if_neg ha]
          by_cases han : a = m.next
          · rw [han, Memory.alloc_cell_next]
            simp
          · have hne : some q ≠ some a := fun he => ha (Option.some.inj he).symm
            have hne' : some m.next ≠ some a := fun he => han (Option.some.inj he).symm
            rw [Memory.alloc_cell_ne _ _ han, h.live a]
            simp [hne, hne']
      · rintro a ha he
        have hlt := h.lt_next ha
        cases he
        exact absurd hlt (Nat.lt_irrefl _)
    · show ((m.alloc _).free q).cell m.next = _
      rw [Memory.free_cell_ne _ hnext, Memory.alloc_cell_next]
    · intro a ha
      have hne : a ≠ q := fun he => h.apart a ha (congrArg some he.symm)
      show ((m.alloc _).free q).cell a = _
      rw [Memory.free_cell_ne _ hne, Memory.alloc_cell_old _ _ (h.lt_next ha)]

/-- What `myrealloc` gives when the request is met. -/
theorem myrealloc (h : Owns m R p) (stays : ℕ → UInt64 → Bool) (size : UInt64) :
    ∃ m' q, Blocks.myrealloc stays true m p size = (m', some q) ∧ Owns m' R (some q) ∧
      m'.cell q = some (((p.bind m.cell).getD []).realloc size.toNat) ∧ Memory.Keeps R m m' := by
  cases p with
  | none =>
    refine ⟨m.alloc (Block.malloc size.toNat), m.next, rfl, h.alloc _, ?_, ?_⟩
    · rw [Memory.alloc_cell_next, Block.malloc_eq_realloc]
      rfl
    · exact (Memory.keeps_alloc m _).mono fun _ ha => h.lt_next ha
  | some q =>
    obtain ⟨b, hb⟩ := h.exists_cell
    obtain ⟨howns, hcell, hkeeps⟩ := h.realloc hb stays size
    refine ⟨_, _, rfl, howns, ?_, hkeeps⟩
    rw [hcell, Option.bind_some, hb]
    rfl

/-- A copy into the block. -/
theorem store (h : Owns m R (some q)) {b b' : Block UInt8} (hb : m.cell q = some b) {off : ℕ}
    {xs : Bytes} (hs : b.store off xs = some b') :
    ∃ m', Blocks.store m q off xs = some m' ∧ Owns m' R (some q) ∧ m'.cell q = some b' ∧
      Memory.Keeps R m m' := by
  refine ⟨m.modify q fun _ => b', ?_, h.modify q _, Memory.modify_cell_self _ hb, h.keeps_modify _⟩
  rw [Blocks.store, hb, Option.bind_some, hs]
  rfl

end Owns

section
variable {m m₁ m₂ : Blocks} {R : ℕ → Prop} {p p₁ p₂ : Option ℕ} {q : ℕ} {c : ChunkLinks}
  {d : Delivery} {mem : MemoryChunk} (stays : ℕ → UInt64 → Bool)

theorem Owns.recv (h : Owns m R c.memory) (ha : d.allocates = true) {count : UInt64}
    (hrun : recvMemoryCallback (c.chunk m) d = some (mem, count)) :
    ∃ m' c', Blocks.recvMemoryCallback stays m c d = some (m', c', count) ∧ c'.chunk m' = mem ∧
      Owns m' R c'.memory ∧ c'.memory.isSome ∧ Memory.Keeps R m m' := by
  obtain ⟨m₁, q, hre, howns₁, hcell₁, hkeeps₁⟩ :=
    h.myrealloc stays (c.size + d.size * d.nmemb + 1)
  simp only [recvMemoryCallback, ha, myrealloc_eq, ChunkLinks.chunk] at hrun
  obtain ⟨b₂, hstore₁, hrun⟩ := Option.bind_eq_some_iff.mp hrun
  obtain ⟨b₃, hstore₂, hrun⟩ := Option.map_eq_some_iff.mp hrun
  obtain ⟨m₂, hm₂, howns₂, hcell₂, hkeeps₂⟩ := howns₁.store hcell₁ hstore₁
  obtain ⟨m₃, hm₃, howns₃, hcell₃, hkeeps₃⟩ := howns₂.store hcell₂ hstore₂
  cases hrun
  refine ⟨m₃, { c with memory := some q, size := c.size + d.size * d.nmemb }, ?_, ?_, howns₃, rfl,
    (hkeeps₁.trans hkeeps₂).trans hkeeps₃⟩
  · simp only [Blocks.recvMemoryCallback, ha, hre, hm₂, Option.bind_some, hm₃, Option.map_some]
  · rw [ChunkLinks.chunk, Option.bind_some, hcell₃]

theorem recv_fails (ha : d.allocates = false) :
    Blocks.recvMemoryCallback stays m c d = some (m, { c with memory := none }, d.size * d.nmemb) := by
  simp only [Blocks.recvMemoryCallback, ha, Blocks.myrealloc, Bool.false_eq_true, if_false]

theorem recvMemoryCallback_size {mem mem' : MemoryChunk} {count : UInt64}
    (hrun : recvMemoryCallback mem d = some (mem', count)) :
    mem'.size.toNat = mem.size.toNat + if d.allocates then d.bytes.length else 0 := by
  cases ha : d.allocates with
  | false =>
    rw [recvMemoryCallback_loses ha] at hrun
    cases hrun
    rfl
  | true =>
    rcases Nat.lt_or_ge (mem.size.toNat + d.bytes.length + 1) (2 ^ 64) with hfit | hover
    · rw [recvMemoryCallback_stores ha hfit] at hrun
      cases hrun
      rw [UInt64.toNat_add, d.toNat_realsize, if_pos rfl]
      exact Nat.mod_eq_of_lt (by omega)
    · rw [recvMemoryCallback_overflows ha hover] at hrun
      cases hrun

/-! ### All calls -/

theorem receive_size {ds : List Delivery} {mem mem' : MemoryChunk} {taken : Bool}
    (hrun : receive mem ds = some (mem', taken)) :
    mem'.size.toNat = mem.size.toNat + stored ds ∧ taken = true := by
  induction ds generalizing mem with
  | nil =>
    cases hrun
    exact ⟨rfl, rfl⟩
  | cons d ds ih =>
    obtain ⟨⟨mem₁, count⟩, hcall, hrest⟩ := Option.bind_eq_some_iff.mp hrun
    rw [if_pos (recvMemoryCallback_count hcall)] at hrest
    obtain ⟨hsize, htaken⟩ := ih hrest
    rw [hsize, recvMemoryCallback_size hcall, stored]
    exact ⟨by omega, htaken⟩

/-- The blocks of `R` are as they were, and `lost` came to those that nobody points to. -/
structure Loses (R : ℕ → Prop) (m m' : Blocks) (p : Option ℕ) (lost : List ℕ) : Prop where
  owns : Owns m' (fun a => R a ∨ a ∈ lost) p
  keeps : Memory.Keeps R m m'
  nodup : lost.Nodup
  apart : ∀ a ∈ lost, ¬R a

theorem Loses.nil (h : Owns m R p) : Loses R m m p [] := by
  constructor
  · simpa using h
  · exact Memory.Keeps.refl R m
  · exact List.nodup_nil
  · exact nofun

/-- The only pointer to a block is overwritten. -/
theorem Loses.forget (h : Owns m R (some q)) : Loses R m m none [q] := by
  constructor
  · simpa using h.lose
  · exact Memory.Keeps.refl R m
  · exact List.nodup_singleton q
  · intro a haq hR
    rw [List.mem_singleton.mp haq] at hR
    exact h.apart q hR rfl

theorem Loses.trans {lost₁ lost₂ : List ℕ} (h₁ : Loses R m m₁ p₁ lost₁)
    (h₂ : Loses (fun a => R a ∨ a ∈ lost₁) m₁ m₂ p₂ lost₂) :
    Loses R m m₂ p₂ (lost₁ ++ lost₂) := by
  constructor
  · simpa only [List.mem_append, or_assoc] using h₂.owns
  · exact h₁.keeps.trans (h₂.keeps.mono fun _ hR => Or.inl hR)
  · refine List.nodup_append.mpr ⟨h₁.nodup, h₂.nodup, ?_⟩
    rintro a ha₁ b ha₂ rfl
    exact h₂.apart a ha₂ (Or.inr ha₁)
  · intro a ha hR
    rcases List.mem_append.mp ha with ha | ha
    · exact h₁.apart a ha hR
    · exact h₂.apart a ha (Or.inl hR)

/-- A step that loses nothing comes before. -/
theorem Loses.after {lost : List ℕ} (hk : Memory.Keeps R m m₁) (h : Loses R m₁ m₂ p₂ lost) :
    Loses R m m₂ p₂ lost := ⟨h.owns, hk.trans h.keeps, h.nodup, h.apart⟩

theorem Owns.receive {ds : List Delivery} (h : Owns m R c.memory) {taken : Bool}
    (hrun : receive (c.chunk m) ds = some (mem, taken)) :
    ∃ m' c' lost, Blocks.receive stays m c ds = some (m', c', taken) ∧ c'.chunk m' = mem ∧
      c'.memory.isSome = holds c.memory.isSome ds ∧ Loses R m m' c'.memory lost ∧
      lost.length = dropped c.memory.isSome ds := by
  induction ds generalizing m c R with
  | nil =>
    cases hrun
    exact ⟨m, c, [], rfl, rfl, rfl, .nil h, rfl⟩
  | cons d ds ih =>
    obtain ⟨⟨mem₁, count⟩, hcall, hrest⟩ := Option.bind_eq_some_iff.mp hrun
    have hcount := recvMemoryCallback_count hcall
    rw [if_pos hcount] at hrest
    cases ha : d.allocates with
    | true =>
      obtain ⟨m₁, c₁, hm₁, hc₁, howns₁, hsome₁, hkeeps₁⟩ := h.recv stays ha hcall
      rw [← hc₁] at hrest
      obtain ⟨m', c', lost, hrec, hchunk, hheld, hloses, hlen⟩ := ih howns₁ hrest
      rw [hsome₁] at hlen hheld
      refine ⟨m', c', lost, ?_, hchunk, ?_, hloses.after hkeeps₁, ?_⟩
      · rw [Blocks.receive, hm₁, Option.bind_some, if_pos hcount]
        exact hrec
      · rw [holds, ha, hheld]
      · rw [dropped, ha, hlen, Bool.not_true, Bool.and_false, if_neg Bool.false_ne_true,
          Nat.zero_add]
    | false =>
      rw [recvMemoryCallback_loses ha] at hcall
      cases hcall
      -- what the chunk pointed to stays allocated
      obtain ⟨first, hfirst, hlen₁⟩ : ∃ first : List ℕ, Loses R m m none first ∧
          first.length = if c.memory.isSome then 1 else 0 := by
        cases hmem : c.memory with
        | none =>
          rw [hmem] at h
          exact ⟨[], .nil h, rfl⟩
        | some q =>
          rw [hmem] at h
          exact ⟨[q], .forget h, rfl⟩
      have hnone : Owns m (fun a => R a ∨ a ∈ first)
        ({ c with memory := none } : ChunkLinks).memory := hfirst.owns
      obtain ⟨m', c', lost, hrec, hchunk, hheld, hloses, hlen⟩ := ih hnone hrest
      refine ⟨m', c', first ++ lost, ?_, hchunk, ?_, hfirst.trans hloses, ?_⟩
      · rw [Blocks.receive, recv_fails stays ha, Option.bind_some, if_pos rfl]
        exact hrec
      · rw [holds, ha, hheld]
        rfl
      · rw [List.length_append, hlen₁, hlen, dropped, ha, Bool.not_false, Bool.and_true]
        rfl

/-! ### One transfer -/

theorem Owns.congr {R' : ℕ → Prop} (h : Owns m R p) (hR : ∀ a, R a ↔ R' a) : Owns m R' p := by
  rw [← show R = R' from funext fun a => propext (hR a)]
  exact h

/-- The buffer that is sent from, as one of the blocks that a transfer leaves alone. -/
theorem Owns.sendChunk (h : Owns m R none) (upload : Option Upload) :
    Owns (m.sendChunk upload).1 (fun a => R a ∨ (m.sendChunk upload).2.memory = some a) none ∧
      (m.sendChunk upload).2.chunk (m.sendChunk upload).1 = sendChunk upload ∧
      Memory.Keeps R m (m.sendChunk upload).1 ∧
      ∀ a, (m.sendChunk upload).2.memory = some a → ¬R a := by
  have hnothing : Owns m (fun a => R a ∨ none = some a) none := h.congr fun a => by simp
  have hno : ∀ a, none = some a → ¬R a := fun a ha => absurd ha (Option.some_ne_none a).symm
  cases upload with
  | none => exact ⟨hnothing, rfl, Memory.Keeps.refl R m, hno⟩
  | some u =>
    simp only [Blocks.sendChunk, Pillowtalk.sendChunk]
    split
    · refine ⟨?_, ?_, ?_, ?_⟩
      · exact ((h.alloc _).lose).congr fun a => by simp [eq_comm]
      · rw [ChunkLinks.chunk, Option.bind_some, Memory.alloc_cell_next]
      · exact (Memory.keeps_alloc m _).mono fun _ ha => h.lt_next ha
      · rintro a ha hR
        have hlt := h.lt_next hR
        cases ha
        exact absurd hlt (Nat.lt_irrefl _)
    · exact ⟨hnothing, rfl, Memory.Keeps.refl R m, hno⟩

/-- The buffer that is sent from is released. -/
theorem Loses.free {sent : Option ℕ} {lost : List ℕ}
    (h : Loses (fun a => R a ∨ sent = some a) m m₁ p lost) (hsent : ∀ a, sent = some a → ¬R a) :
    Loses R m (Blocks.free? m₁ sent) p lost := by
  have hno : ∀ a ∈ lost, ¬R a := fun a ha hR => h.apart a ha (Or.inl hR)
  have hkeeps : Memory.Keeps R m m₁ := h.keeps.mono fun _ hR => Or.inl hR
  cases sent with
  | none => exact ⟨h.owns.congr fun a => by simp, hkeeps, h.nodup, hno⟩
  | some d =>
    have hd : (R d ∨ some d = some d) ∨ d ∈ lost := Or.inl (Or.inr rfl)
    have hlost : d ∉ lost := fun hl => h.apart d hl (Or.inr rfl)
    constructor
    · apply (h.owns.free_rest hd).congr
      intro a
      by_cases ha : a = d
      · have hR := hsent d rfl
        simp [ha, hR, hlost]
      · have hne : d ≠ a := fun he => ha he.symm
        simp [ha, hne]
    · intro a hR
      have hne : a ≠ d := fun he => hsent d rfl (he ▸ hR)
      rw [Blocks.free?, Memory.free_cell_ne _ hne]
      exact hkeeps a hR
    · exact h.nodup
    · exact hno

/-- The buffer that is received into is forgotten, if there is one. -/
theorem Loses.end {lost : List ℕ} (h : Loses R m m₁ p lost) :
    ∃ lost', Loses R m m₁ none lost' ∧
      lost'.length = lost.length + if p.isSome then 1 else 0 := by
  cases p with
  | none => exact ⟨lost, h, rfl⟩
  | some q =>
    refine ⟨lost ++ [q], h.trans (.forget h.owns), ?_⟩
    rw [List.length_append]
    rfl

theorem Loses.answer {lost : List ℕ} (h : Loses R m m₁ c.memory lost) {t : Transfer}
    {res : PtResponse} {sent sent' : List (Block UInt8 × UInt64)}
    (hrun : (if t.performs && true then
        if 0 < (c.chunk m₁).size then
          (c.chunk m₁).memory.bind fun memory =>
            (memory.store (c.chunk m₁).size.toNat [0]).map fun memory =>
              ((⟨none, t.responseCode.getD 500, some memory, intOfSize (c.chunk m₁).size⟩ :
                PtResponse), sent)
        else some (⟨none, t.responseCode.getD 500, none, 0⟩, sent)
      else some (⟨none, 500, none, 0⟩, sent)) = some (res, sent')) :
    sent = sent' ∧ ∃ m₂ l lost', Blocks.answer m₁ c t true = some (m₂, l) ∧
      l.response m₂ = res ∧ Loses R m m₂ l.rawJson lost' ∧ lost'.length = lost.length +
        if c.memory.isSome && !(t.performs && decide (0 < c.size.toNat)) then 1 else 0 := by
  obtain ⟨lost', hend, hlen⟩ := h.end
  have hsize : (c.chunk m₁).size = c.size := rfl
  have hpos : 0 < c.size ↔ 0 < c.size.toNat := UInt64.lt_iff_toNat_lt
  rw [hsize] at hrun
  cases hp : t.performs with
  | false =>
    rw [hp, if_neg (by decide)] at hrun
    cases hrun
    refine ⟨rfl, m₁, ⟨none, 500, none, 0⟩, lost', ?_, rfl, hend, ?_⟩
    · rw [Blocks.answer, hp]
      rfl
    · rw [hlen, Bool.false_and, Bool.not_false, Bool.and_true]
  | true =>
    rw [hp, if_pos (by decide)] at hrun
    by_cases hs : 0 < c.size
    · rw [if_pos hs] at hrun
      obtain ⟨b, hb, hrun⟩ := Option.bind_eq_some_iff.mp hrun
      obtain ⟨b', hstore, hrun⟩ := Option.map_eq_some_iff.mp hrun
      cases hrun
      obtain ⟨q, hq, hcell⟩ := Option.bind_eq_some_iff.mp hb
      rw [hq] at h
      obtain ⟨m₂, hm₂, howns, hcell₂, hkeeps⟩ := h.owns.store hcell hstore
      refine ⟨rfl, m₂, ⟨none, t.responseCode.getD 500, some q, intOfSize c.size⟩, lost, ?_, ?_, ?_,
        ?_⟩
      · rw [Blocks.answer, hp, if_pos (by decide), if_pos hs, hq, Option.bind_some, hm₂]
        rfl
      · rw [ResponseLinks.response, Option.bind_some, hcell₂]
      · exact ⟨howns, h.keeps.trans (hkeeps.mono fun _ hR => Or.inl hR), h.nodup, h.apart⟩
      · rw [decide_eq_true (hpos.mp hs), Bool.true_and, Bool.not_true, Bool.and_false]
        rfl
    · rw [if_neg hs] at hrun
      cases hrun
      refine ⟨rfl, m₁, ⟨none, t.responseCode.getD 500, none, 0⟩, lost', ?_, rfl, hend, ?_⟩
      · rw [Blocks.answer, hp, if_pos (by decide), if_neg hs]
      · rw [hlen, decide_eq_false (mt hpos.mpr hs), Bool.and_false, Bool.not_false, Bool.and_true]

theorem Owns.httpOperation (h : Owns m R none) {upload : Option Upload} {t : Transfer}
    {res : PtResponse} {sent : List (Block UInt8 × UInt64)}
    (hrun : httpOperation upload t = some (res, sent)) :
    ∃ m' l lost, m.httpOperation stays upload t = some (m', l, sent) ∧ l.response m' = res ∧
      Loses R m m' l.rawJson lost ∧ lost.length = t.abandons := by
  obtain ⟨howns, hchunk, hkeeps, hsent⟩ := h.sendChunk upload
  obtain ⟨⟨mem, taken⟩, hreceive, hrun⟩ := Option.bind_eq_some_iff.mp hrun
  obtain ⟨⟨mem', sent'⟩, hsend, hrun⟩ := Option.bind_eq_some_iff.mp hrun
  obtain ⟨hsize, rfl⟩ := receive_size hreceive
  obtain ⟨m₂, c₂, lost, hrec₂, hc₂, hheld, hloses, hlen⟩ := Owns.receive stays
    (c := ⟨none, 0, 0⟩) howns hreceive
  rw [← hc₂] at hrun
  obtain ⟨rfl, m₃, l, lost', hanswer, hres, hloses', hlen'⟩ := hloses.answer hrun
  -- the transfer has left the buffer that is sent from alone
  have hview : (m.sendChunk upload).2.chunk m₂ = Pillowtalk.sendChunk upload := by
    rw [← hchunk]
    simp only [ChunkLinks.chunk]
    cases hs : (m.sendChunk upload).2.memory with
    | none => rfl
    | some d =>
      rw [Option.bind_some, Option.bind_some]
      exact congrArg (MemoryChunk.mk · _ _) (hloses.keeps d (Or.inr hs))
  have hsome : (m.sendChunk upload).2.memory.isSome =
      (Pillowtalk.sendChunk upload).memory.isSome := by
    rw [← hchunk]
    simp only [ChunkLinks.chunk]
    cases hs : (m.sendChunk upload).2.memory with
    | none => rfl
    | some d => exact ((howns.live d).mpr (Or.inl (Or.inr hs))).symm
  refine ⟨Blocks.free? m₃ (m.sendChunk upload).2.memory, l, lost', ?_, ?_,
    (hloses'.free hsent).after hkeeps, ?_⟩
  · simp only [Blocks.httpOperation, hrec₂, Option.bind_some, hview, hsome, hsend, hanswer,
      Option.map_some]
  · rw [← hres, ResponseLinks.response, ResponseLinks.response]
    cases hl : l.rawJson with
    | none => rfl
    | some q =>
      cases hs : (m.sendChunk upload).2.memory with
      | none => rfl
      | some d =>
        have hne : q ≠ d := by
          rintro rfl
          exact hloses'.owns.apart q (Or.inl (Or.inr hs)) hl
        rw [Option.bind_some, Option.bind_some, Blocks.free?, Memory.free_cell_ne _ hne]
  · have hc : c₂.size = mem.size := congrArg MemoryChunk.size hc₂
    have hstored : c₂.size.toNat = stored t.deliveries := by
      rw [hc, hsize]
      exact Nat.zero_add _
    rw [hlen', hlen, hheld, hstored]
    rfl

/-- The pointer `p` is stored somewhere. -/
theorem Owns.absorb (h : Owns m R p) : Owns m (fun a => R a ∨ p = some a) none := by
  constructor
  · intro a
    rw [h.live a]
    simp
  · exact fun a _ => nofun

end

/-! ### Any number of requests -/

/-- The block at `a` belongs to a response. -/
def Exchanges.Raw (s : Exchanges) (a : ℕ) : Prop :=
  ∃ r l, s.responses.cell r = some l ∧ l.rawJson = some a

/-- The responses are those of `σ`, each with a block of its own, and the other blocks
are `lost`. -/
structure Accounted (s : Exchanges) (σ : Served) (lost : List ℕ) : Prop where
  next : s.responses.next = σ.next
  response : ∀ r, (s.responses.cell r).map (fun l => l.response s.blocks) = σ.cell r
  owns : Owns s.blocks (fun a => s.Raw a ∨ a ∈ lost) none
  once : ∀ r r' l l' a, s.responses.cell r = some l → s.responses.cell r' = some l' →
    l.rawJson = some a → l'.rawJson = some a → r = r'
  nodup : lost.Nodup
  apart : ∀ a ∈ lost, ¬s.Raw a

namespace Accounted
variable {s : Exchanges} {σ σ' : Served} {lost : List ℕ} (stays : ℕ → UInt64 → Bool)

theorem start : Accounted Exchanges.start Memory.empty [] := by
  constructor
  · rfl
  · exact fun _ => rfl
  · constructor
    · intro a
      have hno : ¬Exchanges.start.Raw a := by
        rintro ⟨r, l, hr, -⟩
        cases hr
      simpa [Exchanges.start, Memory.empty] using hno
    · exact fun _ _ => nofun
  · intro r r' l l' a hr
    cases hr
  · exact List.nodup_nil
  · exact nofun

/-- What a response shows does not depend on the blocks of the others. -/
theorem response_keeps {m : Blocks} {R : ℕ → Prop} {l : ResponseLinks}
    (hk : Memory.Keeps R s.blocks m) (hl : ∀ a, l.rawJson = some a → R a) :
    l.response m = l.response s.blocks := by
  rw [ResponseLinks.response, ResponseLinks.response]
  cases hraw : l.rawJson with
  | none => rfl
  | some a => rw [Option.bind_some, Option.bind_some, hk a (hl a hraw)]

theorem request (h : Accounted s σ lost) {upload : Option Upload} {t : Transfer}
    (hrun : σ.request upload t = some σ') :
    ∃ s' new, s.request stays upload t = some s' ∧ Accounted s' σ' (lost ++ new) ∧
      new.length = t.abandons := by
  obtain ⟨⟨res, sent⟩, hhttp, rfl⟩ := Option.map_eq_some_iff.mp hrun
  obtain ⟨m, l, new, hm, hres, hloses, hlen⟩ := h.owns.httpOperation stays hhttp
  have hraw : ∀ a, Exchanges.Raw ⟨m, s.responses.alloc l⟩ a ↔ s.Raw a ∨ l.rawJson = some a := by
    intro a
    constructor
    · rintro ⟨r, l', hr, ha⟩
      by_cases hn : r = s.responses.next
      · rw [hn] at hr
        rw [show l = l' from Option.some.inj ((Memory.alloc_cell_next _ _).symm.trans hr)]
        exact Or.inr ha
      · exact Or.inl ⟨r, l', (Memory.alloc_cell_ne _ _ hn).symm.trans hr, ha⟩
    · rintro (⟨r, l', hr, ha⟩ | ha)
      · exact ⟨r, l', (Memory.alloc_cell_old _ _ (Memory.lt_next hr)).trans hr, ha⟩
      · exact ⟨_, l, Memory.alloc_cell_next _ _, ha⟩
  have hnew : ∀ a, l.rawJson = some a → ¬s.Raw a := fun a ha hs =>
    hloses.owns.apart a (Or.inl (Or.inl hs)) ha
  refine ⟨⟨m, s.responses.alloc l⟩, new, ?_, ?_, hlen⟩
  · rw [Exchanges.request, hm]
    rfl
  · constructor
    · exact congrArg (· + 1) h.next
    · intro r
      show ((s.responses.alloc l).cell r).map (fun l => l.response m) = (σ.alloc res).cell r
      by_cases hn : r = s.responses.next
      · rw [hn, Memory.alloc_cell_next, h.next, Memory.alloc_cell_next, Option.map_some, hres]
      · rw [Memory.alloc_cell_ne _ _ hn, Memory.alloc_cell_ne _ _ (h.next ▸ hn), ← h.response r]
        cases hr : s.responses.cell r with
        | none => rfl
        | some l' =>
          refine congrArg some (response_keeps hloses.keeps fun a ha => ?_)
          exact Or.inl ⟨r, l', hr, ha⟩
    · apply hloses.owns.absorb.congr
      intro a
      rw [hraw, List.mem_append]
      tauto
    · intro r r' l₁ l₂ a hr hr' ha ha'
      by_cases hn : r = s.responses.next
      · by_cases hn' : r' = s.responses.next
        · exact hn.trans hn'.symm
        · rw [hn] at hr
          cases (Memory.alloc_cell_next _ _).symm.trans hr
          exact absurd ⟨r', l₂, (Memory.alloc_cell_ne _ _ hn').symm.trans hr', ha'⟩ (hnew a ha)
      · by_cases hn' : r' = s.responses.next
        · rw [hn'] at hr'
          cases (Memory.alloc_cell_next _ _).symm.trans hr'
          exact absurd ⟨r, l₁, (Memory.alloc_cell_ne _ _ hn).symm.trans hr, ha⟩ (hnew a ha')
        · exact h.once r r' l₁ l₂ a ((Memory.alloc_cell_ne _ _ hn).symm.trans hr)
            ((Memory.alloc_cell_ne _ _ hn').symm.trans hr') ha ha'
    · refine List.nodup_append.mpr ⟨h.nodup, hloses.nodup, ?_⟩
      rintro a ha b hb rfl
      exact hloses.apart a hb (Or.inr ha)
    · intro a ha
      rw [hraw]
      rintro (hs | hl)
      · rcases List.mem_append.mp ha with ha | ha
        · exact h.apart a ha hs
        · exact hloses.apart a ha (Or.inl hs)
      · apply hloses.owns.apart a _ hl
        rcases List.mem_append.mp ha with ha | ha
        · exact Or.inl (Or.inr ha)
        · exact Or.inr ha

/-- The text that is sent is a block more for as long as the request lasts. -/
theorem allocText (h : Accounted s σ lost) (b : Block UInt8) :
    Accounted { s with blocks := s.blocks.alloc b } σ (s.blocks.next :: lost) := by
  have hnew : ¬(s.Raw s.blocks.next ∨ s.blocks.next ∈ lost) := fun hR =>
    absurd (h.owns.lt_next hR) (Nat.lt_irrefl _)
  have hkeeps : Memory.Keeps (fun a => s.Raw a ∨ a ∈ lost) s.blocks (s.blocks.alloc b) :=
    (Memory.keeps_alloc _ b).mono fun _ ha => h.owns.lt_next ha
  constructor
  · exact h.next
  · intro r
    rw [← h.response r]
    cases hr : s.responses.cell r with
    | none => rfl
    | some l => exact congrArg some (response_keeps hkeeps fun a ha => Or.inl ⟨r, l, hr, ha⟩)
  · apply (h.owns.alloc b).lose.congr
    intro a
    show _ ↔ s.Raw a ∨ a ∈ s.blocks.next :: lost
    rw [List.mem_cons]
    tauto
  · exact h.once
  · exact List.nodup_cons.mpr ⟨fun hm => hnew (Or.inr hm), h.nodup⟩
  · intro a ha
    rcases List.mem_cons.mp ha with rfl | ha
    · exact fun hs => hnew (Or.inl hs)
    · exact h.apart a ha

theorem freeText {text : ℕ} (h : Accounted s σ (text :: lost)) :
    Accounted { s with blocks := s.blocks.free text } σ lost := by
  obtain ⟨hnot, hnd⟩ := List.nodup_cons.mp h.nodup
  have hraw := h.apart text (List.mem_cons_self ..)
  have hkeeps : Memory.Keeps s.Raw s.blocks (s.blocks.free text) :=
    (Memory.keeps_free _ text).mono fun a ha he => hraw (he ▸ ha)
  constructor
  · exact h.next
  · intro r
    rw [← h.response r]
    cases hr : s.responses.cell r with
    | none => rfl
    | some l => exact congrArg some (response_keeps hkeeps fun a ha => ⟨r, l, hr, ha⟩)
  · apply (h.owns.free_rest (Or.inr (List.mem_cons_self ..))).congr
    intro a
    show (s.Raw a ∨ a ∈ text :: lost) ∧ a ≠ text ↔ s.Raw a ∨ a ∈ lost
    by_cases ha : a = text
    · rw [ha]
      simp [hraw, hnot]
    · simp [ha]
  · exact h.once
  · exact hnd
  · exact fun a ha => h.apart a (List.mem_cons_of_mem _ ha)

theorem freeResponse (h : Accounted s σ lost) {r : ℕ} {l : ResponseLinks}
    (hr : s.responses.cell r = some l) :
    Accounted ⟨s.blocks.free? l.rawJson, s.responses.free r⟩ (σ.free r) lost := by
  have hother : ∀ r' l' a, (s.responses.free r).cell r' = some l' → l'.rawJson = some a →
      s.responses.cell r' = some l' ∧ l.rawJson ≠ some a := by
    intro r' l' a hr' ha
    have hne : r' ≠ r := by
      rintro rfl
      rw [Memory.free_cell, if_pos rfl] at hr'
      cases hr'
    rw [Memory.free_cell_ne _ hne] at hr'
    exact ⟨hr', fun hl => hne (h.once r' r l' l a hr' hr ha hl)⟩
  have hraw : ∀ a, Exchanges.Raw ⟨s.blocks.free? l.rawJson, s.responses.free r⟩ a ↔
      s.Raw a ∧ l.rawJson ≠ some a := by
    intro a
    constructor
    · rintro ⟨r', l', hr', ha⟩
      obtain ⟨hcell, hne⟩ := hother r' l' a hr' ha
      exact ⟨⟨r', l', hcell, ha⟩, hne⟩
    · rintro ⟨⟨r', l', hr', ha⟩, hne⟩
      have hrr : r' ≠ r := by
        rintro rfl
        rw [hr] at hr'
        cases hr'
        exact hne ha
      exact ⟨r', l', (Memory.free_cell_ne _ hrr).trans hr', ha⟩
  have hlost : ∀ a ∈ lost, l.rawJson ≠ some a := fun a ha hl => h.apart a ha ⟨r, l, hr, hl⟩
  have hkeeps : Memory.Keeps (fun a => l.rawJson ≠ some a) s.blocks (s.blocks.free? l.rawJson) := by
    intro a ha
    cases hl : l.rawJson with
    | none => rfl
    | some q =>
      rw [hl] at ha
      exact Memory.free_cell_ne _ fun he => ha (congrArg some he.symm)
  constructor
  · exact h.next
  · intro r'
    show ((s.responses.free r).cell r').map (fun l' => l'.response (s.blocks.free? l.rawJson)) =
      (σ.free r).cell r'
    rw [Memory.free_cell σ]
    by_cases hne : r' = r
    · rw [if_pos hne, hne, Memory.free_cell, if_pos rfl]
      rfl
    · rw [if_neg hne, ← h.response r']
      have hcell : (s.responses.free r).cell r' = s.responses.cell r' := Memory.free_cell_ne _ hne
      rw [hcell]
      cases hr' : s.responses.cell r' with
      | none => rfl
      | some l' =>
        refine congrArg some (response_keeps hkeeps fun a ha => ?_)
        exact (hother r' l' a (hcell.trans hr') ha).2
  · cases hl : l.rawJson with
    | none =>
      apply h.owns.congr
      intro a
      have ha := hraw a
      rw [hl] at ha
      rw [ha]
      simp
    | some q =>
      apply (h.owns.free_rest (Or.inl ⟨r, l, hr, hl⟩)).congr
      intro a
      have ha := hraw a
      rw [hl] at ha
      rw [ha]
      have hq : q ∉ lost := fun hm => hlost q hm hl
      by_cases haq : a = q
      · rw [haq]
        simp [hq]
      · have hne : q ≠ a := fun he => haq he.symm
        simp [haq, hne]
  · intro r₁ r₂ l₁ l₂ a h₁ h₂ ha₁ ha₂
    exact h.once r₁ r₂ l₁ l₂ a (hother r₁ l₁ a h₁ ha₁).1 (hother r₂ l₂ a h₂ ha₂).1 ha₁ ha₂
  · exact h.nodup
  · intro a ha hs
    exact h.apart a ha ((hraw a).mp hs).1

theorem step (h : Accounted s σ lost) {x : Exchange} (hrun : σ.step x = some σ') :
    ∃ s' new, s.step stays x = some s' ∧ Accounted s' σ' (lost ++ new) ∧
      new.length = x.abandons := by
  cases x with
  | get t => exact h.request stays hrun
  | putRaw upload t => exact h.request stays hrun
  | put json t =>
    cases json with
    | none => exact h.request stays hrun
    | some json =>
      obtain ⟨s', new, hs', hacc, hlen⟩ :=
        (h.allocText ((json ++ [0]).map some)).request stays hrun
      refine ⟨{ s' with blocks := s'.blocks.free s.blocks.next }, new, ?_, hacc.freeText, hlen⟩
      exact congrArg (Option.map fun s' : Exchanges =>
        { s' with blocks := s'.blocks.free s.blocks.next }) hs'
  | freeResponse r =>
    cases r with
    | none =>
      cases hrun
      exact ⟨s, [], rfl, by rwa [List.append_nil], rfl⟩
    | some r =>
      obtain ⟨res, hres, rfl⟩ := Option.map_eq_some_iff.mp hrun
      rw [← h.response r] at hres
      obtain ⟨l, hl, -⟩ := Option.map_eq_some_iff.mp hres
      refine ⟨⟨s.blocks.free? l.rawJson, s.responses.free r⟩, [], ?_, ?_, rfl⟩
      · simp only [Exchanges.step, hl, Option.map_some]
      · rw [List.append_nil]
        exact h.freeResponse hl

theorem run (h : Accounted s σ lost) {xs : List Exchange} (hrun : σ.run xs = some σ') :
    ∃ s' new, s.run stays xs = some s' ∧ Accounted s' σ' (lost ++ new) ∧
      new.length = (xs.map Exchange.abandons).sum := by
  induction xs generalizing s σ lost with
  | nil =>
    cases hrun
    exact ⟨s, [], rfl, by rwa [List.append_nil], rfl⟩
  | cons x xs ih =>
    obtain ⟨σ₁, hx, hxs⟩ := Option.bind_eq_some_iff.mp hrun
    obtain ⟨s₁, new₁, hs₁, hacc₁, hlen₁⟩ := h.step stays hx
    obtain ⟨s₂, new₂, hs₂, hacc₂, hlen₂⟩ := ih hacc₁ hxs
    refine ⟨s₂, new₁ ++ new₂, ?_, ?_, ?_⟩
    · rw [Exchanges.run, hs₁, Option.bind_some, hs₂]
    · rwa [← List.append_assoc]
    · rw [List.length_append, hlen₁, hlen₂, List.map_cons, List.sum_cons]

/-- When no response is left, neither is any block but the lost ones. -/
theorem empty_iff (h : Accounted s σ lost) (hfreed : ∀ r, σ.cell r = none) :
    (∀ a, s.blocks.cell a = none) ↔ lost.length = 0 := by
  have hraw : ∀ a, ¬s.Raw a := by
    rintro a ⟨r, l, hr, -⟩
    have hcell := h.response r
    rw [hr, hfreed] at hcell
    cases hcell
  rw [List.length_eq_zero_iff]
  constructor
  · intro hnone
    refine List.eq_nil_iff_forall_not_mem.mpr fun a ha => ?_
    have hsome := (h.owns.live a).mpr (Or.inl (Or.inr ha))
    rw [hnone a] at hsome
    cases hsome
  · rintro rfl a
    refine Option.not_isSome_iff_eq_none.mp fun hsome => ?_
    have hcases := (h.owns.live a).mp hsome
    simp [hraw a] at hcases

end Accounted

/-! ### Transfers that lose nothing -/

/-- No request is refused after one that was met, and when the last one was met the
transfer succeeds and has brought a byte. -/
structure Transfer.Clean (t : Transfer) : Prop where
  met : t.deliveries.IsChain fun d e => d.allocates = true → e.allocates = true
  kept : (∃ d ∈ t.deliveries.getLast?, d.allocates = true) →
    t.performs = true ∧ ∃ d ∈ t.deliveries, d.allocates = true ∧ d.bytes ≠ []

theorem dropped_eq_zero_iff (held : Bool) (ds : List Delivery) :
    dropped held ds = 0 ↔ (held = true → ∀ d ∈ ds.head?, d.allocates = true) ∧
      ds.IsChain fun d e => d.allocates = true → e.allocates = true := by
  induction ds generalizing held with
  | nil => simp [dropped]
  | cons d ds ih =>
    rw [dropped, Nat.add_eq_zero_iff, ih]
    cases ds with
    | nil => cases held <;> cases hd : d.allocates <;> simp [hd]
    | cons e ds => cases held <;> cases hd : d.allocates <;> simp [hd]

theorem holds_concat (held : Bool) (ds : List Delivery) (d : Delivery) :
    holds held (ds ++ [d]) = d.allocates := by
  induction ds generalizing held with
  | nil => rfl
  | cons e ds ih => exact ih e.allocates

theorem holds_eq_true_iff (ds : List Delivery) :
    holds false ds = true ↔ ∃ d ∈ ds.getLast?, d.allocates = true := by
  cases ds using List.reverseRecOn with
  | nil => simp [holds]
  | append_singleton ds d =>
    rw [holds_concat, List.getLast?_concat]
    simp

theorem stored_pos_iff (ds : List Delivery) :
    0 < stored ds ↔ ∃ d ∈ ds, d.allocates = true ∧ d.bytes ≠ [] := by
  induction ds with
  | nil => simp [stored]
  | cons d ds ih =>
    rw [stored, Nat.add_pos_iff_pos_or_pos, ih, List.exists_mem_cons_iff]
    cases d.allocates <;> simp [List.length_pos_iff]

theorem Transfer.abandons_eq_zero_iff (t : Transfer) : t.abandons = 0 ↔ t.Clean := by
  have hif : (if holds false t.deliveries && !(t.performs && decide (0 < stored t.deliveries))
      then 1 else 0) = 0 ↔ (holds false t.deliveries = true →
        t.performs = true ∧ 0 < stored t.deliveries) := by
    cases holds false t.deliveries <;> cases t.performs <;> simp
  rw [Transfer.abandons, Nat.add_eq_zero_iff, dropped_eq_zero_iff, hif, holds_eq_true_iff,
    stored_pos_iff]
  constructor
  · exact fun h => ⟨h.1.2, h.2⟩
  · exact fun h => ⟨⟨fun hf => absurd hf Bool.false_ne_true, h.met⟩, h.kept⟩

def Exchange.Clean : Exchange → Prop
  | .get t => t.Clean
  | .putRaw _ t => t.Clean
  | .put _ t => t.Clean
  | .freeResponse _ => True

theorem Exchange.abandons_eq_zero_iff (x : Exchange) : x.abandons = 0 ↔ x.Clean := by
  cases x with
  | get t => exact t.abandons_eq_zero_iff
  | putRaw upload t => exact t.abandons_eq_zero_iff
  | put json t => exact t.abandons_eq_zero_iff
  | freeResponse r => exact iff_of_true rfl trivial

/-! ### Whole runs -/

/-- Wherever `realloc` moves a buffer, a program sees of its responses what `httpOperation`
says, each keeps its text while the others come and go, and the blocks beside
them are those that the transfers abandoned. -/
theorem exchanges_refine (stays : ℕ → UInt64 → Bool) {xs : List Exchange} {σ : Served}
    (hrun : Served.run Memory.empty xs = some σ) :
    ∃ s lost, Exchanges.start.run stays xs = some s ∧ Accounted s σ lost ∧
      lost.length = (xs.map Exchange.abandons).sum :=
  Accounted.start.run stays hrun

/-- `pt_free_response` of every response releases all blocks if and only if every
transfer was clean. -/
theorem exchanges_leak_iff (stays : ℕ → UInt64 → Bool) {xs : List Exchange} {σ : Served}
    (hrun : Served.run Memory.empty xs = some σ) (hfreed : ∀ r, σ.cell r = none) :
    ∃ s, Exchanges.start.run stays xs = some s ∧
      ((∀ a, s.blocks.cell a = none) ↔ ∀ x ∈ xs, x.Clean) := by
  obtain ⟨s, lost, hs, hacc, hlen⟩ := Accounted.start.run stays hrun
  refine ⟨s, hs, ?_⟩
  rw [hacc.empty_iff hfreed, List.nil_append, hlen, List.sum_eq_zero_iff_forall_eq_nat]
  constructor
  · intro h x hx
    exact x.abandons_eq_zero_iff.mp (h _ (List.mem_map_of_mem hx))
  · intro h n hn
    obtain ⟨x, hx, rfl⟩ := List.mem_map.mp hn
    exact x.abandons_eq_zero_iff.mpr (h x hx)

/-- Two bytes arrive, and the transfer fails after them. -/
def cutOff : Transfer := ⟨[⟨1, 2, [91, 93], true, rfl, by decide⟩], [], false, none⟩

/-- They arrive one by one. -/
def piecemeal : Transfer :=
  ⟨[⟨1, 1, [91], true, rfl, by decide⟩, ⟨1, 1, [93], true, rfl, by decide⟩], [], true, some 200⟩

theorem piecemeal_clean : piecemeal.Clean := by
  refine ⟨?_, fun _ => ⟨rfl, _, List.mem_cons_self .., rfl, List.cons_ne_nil _ _⟩⟩
  simp [piecemeal]

theorem exchanges_refine_both :
    ∃ s, ∃ lost : List ℕ,
      Exchanges.start.run (fun _ _ => false) [.get cutOff, .get piecemeal] = some s ∧
      (∃ l, s.responses.cell 1 = some l ∧
        (l.response s.blocks).rawJson = some [some 91, some 93, some 0]) ∧ lost.length = 1 := by
  obtain ⟨s, lost, hs, hacc, hlen⟩ := exchanges_refine (fun _ _ => false)
    (show Served.run Memory.empty [.get cutOff, .get piecemeal] = some _ from rfl)
  obtain ⟨l, hl, hres⟩ := Option.map_eq_some_iff.mp (hacc.response 1)
  refine ⟨s, lost, hs, ⟨l, hl, ?_⟩, hlen⟩
  rw [hres]
  rfl

theorem exchanges_leak_iff_clean :
    ∃ s, Exchanges.start.run (fun _ _ => true)
        [.put (some [110]) piecemeal, .freeResponse (some 0)] = some s ∧
      ∀ a, s.blocks.cell a = none := by
  obtain ⟨s, hs, hleak⟩ := exchanges_leak_iff (fun _ _ => true)
    (show Served.run Memory.empty [.put (some [110]) piecemeal, .freeResponse (some 0)] = some _
      from rfl) (by
      intro r
      rw [Memory.free_cell]
      split
      · rfl
      · next hr => exact Memory.alloc_cell_ne _ _ hr)
  refine ⟨s, hs, hleak.mpr fun x hx => ?_⟩
  rcases List.mem_cons.mp hx with rfl | hx
  · exact piecemeal_clean
  · rw [List.mem_singleton.mp hx]
    trivial

end Pillowtalk
