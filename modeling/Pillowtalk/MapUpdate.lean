import Pillowtalk.Merge
import Pillowtalk.UpdateSpec

/-!
# Merging built maps (`pillowtalk_impl.c:452-481`)

`pt_map_update` on maps built by the constructors and editors. `root` and
`additions` are two trees: they share no node. A key of 2^32 bytes or more is never
found, so the merge adds it a second time to a map that has it.
-/

namespace Pillowtalk
open Addressed

section
variable [HashFcn]

namespace Located

theorem Fresh.changed {h h₁ h₂ : Heap} {l l' v : Located} (hv : Fresh h h₁ v)
    (hl : Changed h₁ h₂ l l' v.addrs) : Changed h h₂ l l' [] := by
  refine ⟨hl.within, hl.nodup, ?_, ?_, hv.le.trans hl.le⟩
  · intro x hx
    rcases hl.addrs x hx with hx | hx | hx
    · exact Or.inl hx
    · exact Or.inr (Or.inr (hv.new x hx))
    · exact Or.inr (Or.inr (hv.le.trans hx))
  · intro x hx
    rw [hl.frame x ⟨lt_of_lt_of_le hx.1 hv.le, hx.2⟩, hv.old x hx.1]

end Located
end

/-! ### Three builds -/

section
local instance mapUpdateFcn : HashFcn := hashMurFcn

namespace Located

end Located
end

end Pillowtalk
