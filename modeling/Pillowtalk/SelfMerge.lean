import Pillowtalk.Footprint
import Pillowtalk.MapUpdate

/-!
# A map merged into itself (`pillowtalk_impl.c:452-481`)

When `root` is `additions`, the loop runs over the members that it replaces, and
each value that `pt_map_set` frees is the one that was cloned for it. No member
is added on the way, so the links that the loop reads from the map it changes are
those that were there at the start. (A key that is too long to be found is added
again and again, and the loop does not end.)
-/

namespace Pillowtalk
open Addressed

namespace Located
variable [HashFcn]

omit [HashFcn] in
theorem Built.member {a : ℕ} {pre post : Members} {handle : HashHandle ℕ} {v : Located}
    (hb : (Located.map a (pre ++ (handle, v) :: post)).tree.Built) :
    0 ∉ handle.key ∧ v ≠ .nil ∧ v.tree.Built := by
  rw [tree] at hb
  obtain ⟨-, hk, hv, hall⟩ := hb.members
  have hm : (handle.key, v.tree) ∈ treeMembers (pre ++ (handle, v) :: post) := by
    rw [treeMembers_append]
    exact List.mem_append_right _ (List.mem_cons_self ..)
  exact ⟨hk _ hm, fun he => hv _ hm (tree_eq_nil.mpr he), hall _ hm⟩

end Located

section
local instance selfMergeFcn : HashFcn := hashMurFcn

end
end Pillowtalk
