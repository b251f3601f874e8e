import Pillowtalk.MapUpdate

/-!
# What a merge touches (`pillowtalk_impl.c:452-481`)

An update that leaves a level at a conflict keeps what it has merged by then,
and callers further up go on. `Touched` says of every member, at every depth,
what can have become of it.
-/

namespace Pillowtalk

namespace Tree

end Tree

section
variable [HashFcn]

namespace Located
open Addressed

end Located
end

section
local instance touchedFcn : HashFcn := hashMurFcn

namespace Located

end Located
end

end Pillowtalk
