import Xv6.Fs.Image
import Xv6.Fs.TxRuns

set_option autoImplicit false

namespace Xv6

theorem syscall_log_user (sb : Superblock) (p : Nat) (prog : FsM Unit) (allowed : Syscalls sb p () prog) : LogUser prog := by
  obtain ⟨call, rfl⟩ := allowed
  have starts : Nets 0 (scheduled p) := nets_mem _
  have whole : Nets 0 (syscall sb p call) := nets_call starts (fun _ => nets_call_body sb p call)
  exact nets_log_user (nets_call whole (fun _ => nets_ret ()))

theorem boot_quiescent (disk : Nat → Block) (empty : (disk mkfsSuperblock.logstart).getLE 0 4 = 0) : Quiescent (boot disk) :=
  ⟨show 0 < mkfsSuperblock.nlog by decide, empty, rfl, rfl, rfl⟩

def createProg : FsM Unit :=
  syscall mkfsSuperblock 0 (.open (some [120]) (some (oCreate ||| oRdwr))) >>= fun _ => pure ()

-- No commit has begun, and the entry for x on the disk names a free inode.
def entryWithoutInode (trace : List FsEvent) (c : Config FsOp Fs Unit) : Bool :=
  (trace.all fun e => !e.act.startsCommit e.res) && (c.shared.disk 2).getLE 0 4 == 0 &&
    (c.shared.disk 59).getLE 32 2 == 2 && (getDinode (c.shared.disk 32) 2).type == 0

end Xv6
