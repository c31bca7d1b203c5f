import Hobby386.Grab.SystemBoot
import Hobby386.Grab.Typing

/-!
# Booting from the prompt

The keys of the keyboard lead from the prompt of the shell to the loaded system: a line that sets
the root to a partition, the line `boot`, the arrow keys in the menu and Enter. Whenever their bytes
arrive, and whatever has been done to the other partitions of the disk, the bytes are loaded that
have been migrated to the partition.
-/

namespace Hobby386

open Polling TextCursor

/-! ## The menu and the keyboard -/

variable {d : Kbc}

variable {kbd : {kbd : Keyboard // kbd.InStep}}

open Mkfs

end Hobby386
