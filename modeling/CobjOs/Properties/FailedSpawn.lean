import CobjOs.Process.SpawnSpec
import CobjOs.Properties.MappedRegions
import CobjOs.Properties.NodeLifetime

/-!
# What a failed spawn leaves behind

`sys_spawn` returns `-1` in three places.  If the path leads to nothing, then the nodes on the way
were released again, and all that can stay is a page that `kmalloc` took for a slab; but a device on
the way stays allocated.  If the file cannot be read as a whole, its node and the buffer stay.  If
`elf_load` refuses the file, the address space stays, with its record, its tables and the pages that
were loaded, and so does the array of the copied arguments.
-/

namespace CobjOs

lemma Fs.AvoidsDevices.missing {fs fs' : Fs} {path : CStr} {res : Option Ptr}
    (h : fs.AvoidsDevices path) (hno : ∀ nd, ¬fs.Leads path nd) (hr : fs.Resolved path fs' res) :
    res = none ∧ fs'.vfs.nodes = fs.vfs.nodes := by
  cases hr with
  | noDrive _ heq => exact ⟨rfl, heq ▸ rfl⟩
  | root hdest hroot => exact absurd ⟨_, _, _, hdest, hroot, rfl⟩ (hno _)
  | walked hdest _ hroot _ hw =>
    cases hw with
    | found hdesc => exact absurd ⟨_, _, _, hdest, hroot, hdesc⟩ (hno _)
    | missing _ hnodes => exact ⟨rfl, hnodes⟩
    | stuck _ hmeets => exact absurd hmeets (h _ _ _ hdest hroot)

namespace System

/-- The file system after the start, with an empty heap on a small machine. -/
def small (files : Files) : System :=
  { files := files
    mm := smallMachine.slabInit
    addr := fun _ => 0
    kernel := .boot none }

end System

end CobjOs
