import Xv6.Fs.FileTable
import Xv6.Fs.Footprint
import Xv6.Log.Admission
import Xv6.Log.Crash

set_option autoImplicit false

namespace Xv6

open Prog

def Op.isEnd {M N β : Type} : Op M N β → Bool
  | .endOp => true
  | _ => false

def createFails {β : Type} : FsOp β → Bool
  | .probe .createFailed => true
  | _ => false

-- On every path there are d more begin_ops than end_ops and failed creates.
inductive Nets : {α : Type} → Int → FsM α → Prop where
  | ret {α : Type} (a : α) : Nets 0 (.ret a)
  | client {α β : Type} (d : Int) (act : FsOp β) (next : β → FsM α) (plain : act.client = true)
      (succeeds : createFails act = false) (rest : ∀ r s s', act.exec s = .ok r s' → Nets d (next r)) : Nets d (.op act next)
  | failed {α : Type} (d e : Int) (next : Unit → FsM α) (total : e = d - 1) (rest : Nets d (next ())) :
      Nets e (.op (.probe .createFailed) next)
  | beginOp {α : Type} (d e : Int) (next : Unit → FsM α) (total : e = d + 1) (rest : Nets d (next ())) :
      Nets e (.op .beginOp next)
  | endOp {α : Type} (d e : Int) (next : Unit → FsM α) (total : e = d - 1) (rest : Nets d (next ())) :
      Nets e (endOp >>= next)

theorem nets_log_user {α : Type} {d : Int} {c : FsM α} (nets : Nets d c) : LogUser c := by
  induction nets with
  | ret a => exact .ret a
  | client d act next plain _ _ ih => exact .client act next plain ih
  | failed d e next _ _ ih => exact .client _ next rfl (fun _ _ _ _ => ih)
  | beginOp d e next _ _ ih => exact .beginOp next ih
  | endOp d e next _ _ ih => exact .endOp next ih

theorem nets_ret {α : Type} (a : α) : Nets 0 (.ret a : FsM α) := .ret a

theorem nets_bind {α β : Type} (d e : Int) (c : FsM α) (f : α → FsM β) (first : Nets d c) (rest : ∀ a, Nets e (f a)) :
    Nets (d + e) (c >>= f) := by
  induction first with
  | ret a =>
    rw [Int.zero_add]
    exact rest a
  | client d act next plain succeeds _ ih =>
    exact .client _ act _ plain succeeds (fun r s s' returned => ih r s s' returned)
  | failed d e' next total _ ih => exact .failed (d + e) _ _ (by omega) ih
  | beginOp d e' next total _ ih => exact .beginOp (d + e) _ _ (by omega) ih
  | endOp d e' next total _ ih =>
    rw [Prog.bind_assoc]
    exact .endOp (d + e) _ _ (by omega) ih

theorem nets_call {α β : Type} {d : Int} {c : FsM α} {f : α → FsM β} (first : Nets 0 c) (rest : ∀ a, Nets d (f a)) :
    Nets d (c >>= f) := by
  have sum := nets_bind 0 d c f first rest
  rwa [Int.zero_add] at sum

theorem nets_level {α : Type} {c : FsM α} (level : c.Each InodeLevel) : Nets 0 c := by
  induction c with
  | ret a => exact .ret a
  | op act next ih =>
    have kinds : act.client = true ∧ createFails act = false := by
      have holds := level.1
      cases act with
      | probe note => cases note <;> simp_all [InodeLevel, Op.client, createFails]
      | _ => simp_all [InodeLevel, Op.client, createFails]
    exact .client 0 act next kinds.1 kinds.2 (fun r _ _ _ => ih r (level.2 r))

theorem nets_panic {α : Type} (d : Int) (msg : String) : Nets d (kpanic msg : FsM α) :=
  .client d _ _ rfl rfl nofun

theorem nets_mem {β : Type} (f : Mem → Res Mem β) : Nets 0 (.lift (.mem f)) :=
  .client 0 _ _ rfl rfl (fun r _ _ _ => .ret r)

theorem nets_loop {body : Nat → FsM Unit} (each : ∀ i, Nets 0 (body i)) (i count : Nat) : Nets 0 (loop body i count) := by
  induction count generalizing i with
  | zero => exact nets_ret ()
  | succ count ih => exact nets_call (each i) (fun _ => ih (i + 1))

theorem nets_tx {α : Type} {body : FsM α} (closes : Nets (-1) body) : Nets 0 (beginOp >>= fun _ => body) :=
  .beginOp (-1) 0 _ rfl closes

theorem nets_end {α : Type} {rest : FsM α} (nets : Nets 0 rest) : Nets (-1) (endOp >>= fun _ => rest) :=
  .endOp 0 (-1) _ rfl nets

theorem nets_end_op : Nets (-1) endOp := by
  have closes := nets_end (nets_ret ())
  rwa [bind_unit] at closes

theorem nets_close {α : Type} (a : α) : Nets (-1) (endOp >>= fun _ => (pure a : FsM α)) := nets_end (nets_ret a)

variable (sb : Superblock)

theorem nets_fileclose (f : Nat) : Nets 0 (fileclose sb f) := by
  refine nets_call (nets_mem _) (fun last => ?_)
  cases last with
  | none => exact nets_ret ()
  | some ff =>
    dsimp only
    split
    · exact nets_tx (nets_call (nets_level (iput_level sb ff.ip)) (fun _ => nets_end_op))
    · exact nets_ret ()

-- Transactions opened and closed in turn: inside says whether one is open.
inductive Brackets : {α : Type} → Bool → FsM α → Prop where
  | ret {α : Type} (a : α) : Brackets false (.ret a)
  | level {α β : Type} {inside : Bool} {c : FsM α} {f : α → FsM β} (level : c.Each InodeLevel)
      (rest : ∀ a, Brackets inside (f a)) : Brackets inside (c >>= f)
  | mem {α β : Type} {inside : Bool} {f : Mem → Res Mem α} {k : α → FsM β}
      (keeps : ∀ m r next task, f m = .ok r next → FileInv m task → FileInv next task)
      (rest : ∀ m r next, f m = .ok r next → Brackets inside (k r)) : Brackets inside (.op (.mem f) k)
  | beginOp {α : Type} {f : Unit → FsM α} (rest : Brackets true (f ())) : Brackets false (beginOp >>= f)
  | endOp {α : Type} {f : Unit → FsM α} (rest : Brackets false (f ())) : Brackets true (endOp >>= f)

theorem nets_brackets {α : Type} {inside : Bool} {c : FsM α} (brackets : Brackets inside c) :
    Nets (if inside then -1 else 0) c := by
  induction brackets with
  | ret a => exact nets_ret a
  | level level _ ih => exact nets_call (nets_level level) ih
  | mem _ _ ih => exact .client _ _ _ rfl rfl (fun r s s' returned => by
    obtain ⟨m, stepped, -⟩ := on_mem_ok s s' _ r returned
    exact ih _ _ _ stepped)
  | beginOp _ ih => exact nets_tx ih
  | endOp _ ih => exact nets_end ih

theorem brackets_bind {α β : Type} {inside : Bool} {c : FsM α} {f : α → FsM β} (first : Brackets inside c)
    (rest : ∀ a, Brackets false (f a)) : Brackets inside (c >>= f) := by
  induction first with
  | ret a => exact rest a
  | level level _ ih =>
    rw [Prog.bind_assoc]
    exact .level level (fun a => ih a rest)
  | mem keeps _ ih => exact .mem keeps (fun m r next stepped => ih m r next stepped rest)
  | beginOp _ ih =>
    rw [Prog.bind_assoc]
    exact .beginOp (ih rest)
  | endOp _ ih =>
    rw [Prog.bind_assoc]
    exact .endOp (ih rest)

section

variable {β : Type} {inside : Bool}

theorem brackets_panic (msg : String) : Brackets inside (kpanic msg : FsM β) :=
  .mem nofun nofun

theorem brackets_close (a : β) : Brackets true (endOp >>= fun _ => (pure a : FsM β)) := .endOp (.ret a)

theorem brackets_file {f : Nat} {k : File → FsM β} (rest : ∀ file, Brackets inside (k file)) : Brackets inside (getFile f >>= k) :=
  .mem (fun _ _ _ _ stepped inv => by cases stepped; exact inv) (fun _ r _ _ => rest r)

theorem brackets_advance_off {f : Nat} {r : Int} {k : Unit → FsM β} (rest : Brackets inside (k ())) :
    Brackets inside (advanceOff f r >>= k) := by
  unfold advanceOff
  split
  · refine .mem (fun m _ _ task stepped inv => ?_) (fun _ _ _ _ => rest)
    cases stepped
    exact file_inv_set_file m task f _ inv rfl rfl
  · exact rest

end

theorem brackets_fileread (p f n : Nat) : Brackets false (fileread sb p f n) := by
  refine brackets_file (fun file => ?_)
  split
  · exact .ret _
  · split
    · exact .level choose_level (fun _ => .ret _)
    · refine .level (ilock_level sb p _) (fun _ => .level (readi_level sb p _ _ _) (fun _ => brackets_advance_off ?_))
      exact .level (iunlock_level _) (fun _ => .ret _)
    · exact brackets_panic _

theorem brackets_filewrite_loop (p f : Nat) (addr : Nat → UInt8) (n left i : Nat) :
    Brackets false (filewriteLoop sb p f addr n left i) := by
  have chunk (src : Nat → UInt8) (n1 : Nat) : Brackets false (filewriteChunk sb p f src n1) :=
    .beginOp (brackets_file (fun _ => .level (ilock_level sb p _) (fun _ => .level (writei_level sb p _ src _ n1) (fun _ =>
      brackets_advance_off (.level (iunlock_level _) (fun _ => brackets_close _))))))
  induction left generalizing i with
  | zero => exact .ret _
  | succ left ih =>
    unfold filewriteLoop
    split
    · refine brackets_bind (chunk _ _) (fun r => ?_)
      split
      · exact .ret _
      · split
        · exact brackets_panic _
        · exact ih _
    · exact .ret _

theorem brackets_filewrite (p f : Nat) (addr : Nat → UInt8) (n : Nat) :
    Brackets false (filewrite sb p f addr n) := by
  refine brackets_file (fun file => ?_)
  split
  · exact .ret _
  · split
    · exact .level choose_level (fun _ => .ret _)
    · exact brackets_filewrite_loop sb p f addr n n 0
    · exact brackets_panic _

theorem brackets_argfd (p : Nat) (fd : Option Int) : Brackets false (argfd p fd) := by
  refine .mem (fun _ _ _ _ stepped inv => by cases stepped; exact inv) (fun _ proc _ _ => ?_)
  cases fd with
  | none => exact .ret _
  | some fd =>
    dsimp only
    split
    · exact .ret _
    · exact .ret _

theorem brackets_sys_read (p : Nat) (fd : Option Int) (n : Option Nat) : Brackets false (sysRead sb p fd n) := by
  refine brackets_bind (brackets_argfd p fd) (fun arg => ?_)
  split
  · exact brackets_fileread sb p _ _
  · exact .ret _

theorem brackets_sys_write (p : Nat) (fd : Option Int) (data : Option (List UInt8)) :
    Brackets false (sysWrite sb p fd data) := by
  refine brackets_bind (brackets_argfd p fd) (fun arg => ?_)
  split
  · exact brackets_filewrite sb p _ _ _
  · exact .ret _

theorem brackets_sys_fstat (p : Nat) (fd : Option Int) (st : Bool) : Brackets false (sysFstat sb p fd st) := by
  refine brackets_bind (brackets_argfd p fd) (fun arg => ?_)
  split
  · refine brackets_file (fun file => ?_)
    split
    · exact .level (ilock_level sb p _) (fun _ => .level (iunlock_level _) (fun _ => .ret _))
    · exact .ret _
  · exact .ret _

theorem brackets_sys_link_bad (p ip : Nat) : Brackets true (sysLinkBad sb p ip) :=
  .level (ilock_level sb p ip) (fun _ => .level (mod_din_level ip _) (fun _ => .level (iupdate_level sb ip) (fun _ =>
    .level (iunlockput_level sb ip) (fun _ => brackets_close _))))

theorem brackets_sys_link (p : Nat) (old new : Option Path) : Brackets false (sysLink sb p old new) := by
  unfold sysLink
  split
  · rename_i old new
    refine .beginOp (.level (namei_level sb p old) (fun found => ?_))
    cases found with
    | none => exact brackets_close _
    | some ip =>
      refine .level (ilock_level sb p ip) (fun _ => .level (get_inode_level ip) (fun node => ?_))
      split
      · exact .level (iunlockput_level sb ip) (fun _ => brackets_close _)
      · refine .level (mod_din_level ip _) (fun _ => .level (iupdate_level sb ip) (fun _ =>
          .level (iunlock_level ip) (fun _ => .level (nameiparent_level sb p new) (fun parent => ?_))))
        cases parent with
        | none => exact brackets_sys_link_bad sb p ip
        | some parent =>
          refine .level (ilock_level sb p _) (fun _ => .level (get_inode_level ip) (fun node =>
            .level (dirlink_level sb p _ _ _) (fun linked => ?_)))
          split
          · exact .level (iunlockput_level sb _) (fun _ => .level (iput_level sb ip) (fun _ => brackets_close _))
          · exact .level (iunlockput_level sb _) (fun _ => brackets_sys_link_bad sb p ip)
  · exact .ret _

theorem unlink_parent_level (dp ip : Nat) : (unlinkParent sb dp ip).Each InodeLevel := by
  refine each_bind (get_inode_level ip) (fun node => ?_)
  split
  · exact each_bind (mod_din_level dp _) (fun _ => iupdate_level sb dp)
  · trivial

theorem removable_level (p ip : Nat) : (removable sb p ip).Each InodeLevel := by
  refine each_bind (get_inode_level ip) (fun node => ?_)
  split
  · exact isdirempty_level sb p ip
  · trivial

theorem brackets_sys_unlink_bad (dp : Nat) : Brackets true (sysUnlinkBad sb dp) :=
  .level (iunlockput_level sb dp) (fun _ => brackets_close _)

theorem brackets_sys_unlink_entry (p dp ip off : Nat) : Brackets true (sysUnlinkEntry sb p dp ip off) := by
  refine .level (writei_level sb p dp _ off 16) (fun r => ?_)
  split
  · exact brackets_panic _
  · exact .level (unlink_parent_level sb dp ip) (fun _ => .level (iunlockput_level sb dp) (fun _ =>
      .level (mod_din_level ip _) (fun _ => .level (iupdate_level sb ip) (fun _ =>
        .level (iunlockput_level sb ip) (fun _ => brackets_close _)))))

theorem brackets_sys_unlink (p : Nat) (path : Option Path) : Brackets false (sysUnlink sb p path) := by
  cases path with
  | none => exact .ret _
  | some path =>
    refine .beginOp (.level (nameiparent_level sb p path) (fun parent => ?_))
    cases parent with
    | none => exact brackets_close _
    | some parent =>
      refine .level (ilock_level sb p _) (fun _ => ?_)
      split
      · exact brackets_sys_unlink_bad sb _
      · refine .level (dirlookup_level sb p _ _) (fun found => ?_)
        cases found with
        | none => exact brackets_sys_unlink_bad sb _
        | some found =>
          refine .level (ilock_level sb p _) (fun _ => .level (get_inode_level _) (fun node => ?_))
          split
          · exact brackets_panic _
          · refine .level (removable_level sb p _) (fun empty => ?_)
            split
            · exact brackets_sys_unlink_entry sb p _ _ _
            · exact .level (iunlockput_level sb _) (fun _ => brackets_sys_unlink_bad sb _)

theorem brackets_sys_make (p type : Nat) (args : Option (Path × Nat × Nat)) :
    Brackets false (sysMake sb p type args) := by
  refine .beginOp ?_
  cases args with
  | none => exact brackets_close _
  | some args =>
    refine .level (create_level sb p _ type _ _) (fun ip => ?_)
    cases ip with
    | none => exact brackets_close _
    | some ip => exact .level (iunlockput_level sb ip) (fun _ => brackets_close _)

theorem put_cwd_level (p : Nat) : (putCwd sb p).Each InodeLevel := by
  refine each_bind (get_cwd_level p) (fun cwd => ?_)
  cases cwd with
  | none => exact level_of_entry (kpanic_entry _)
  | some cwd => exact iput_level sb cwd

theorem brackets_mod_proc {β : Type} {inside : Bool} {k : Unit → FsM β} (q : Nat) (f : Proc → Proc)
    (frame : ∀ proc, (f proc).ofile = proc.ofile ∧ (f proc).state = proc.state) (rest : Brackets inside (k ())) :
    Brackets inside (modProc q f >>= k) := by
  refine .mem (fun m _ _ task stepped inv => ?_) (fun _ _ _ _ => rest)
  cases stepped
  exact file_inv_set_proc m task q _ inv (frame _).1 (frame _).2

theorem brackets_sys_chdir (p : Nat) (path : Option Path) : Brackets false (sysChdir sb p path) := by
  refine .beginOp ?_
  cases path with
  | none => exact brackets_close _
  | some path =>
    refine .level (namei_level sb p path) (fun ip => ?_)
    cases ip with
    | none => exact brackets_close _
    | some ip =>
      refine .level (ilock_level sb p ip) (fun _ => .level (get_inode_level ip) (fun node => ?_))
      split
      · exact .level (iunlockput_level sb ip) (fun _ => brackets_close _)
      · refine .level (iunlock_level ip) (fun _ => .level (put_cwd_level sb p) (fun _ => .endOp ?_))
        exact brackets_mod_proc p _ (fun _ => ⟨rfl, rfl⟩) (.ret _)

theorem brackets_exec (p : Nat) (path : Path) : Brackets false (exec sb p path) := by
  refine .beginOp (.level (namei_level sb p path) (fun ip => ?_))
  cases ip with
  | none => exact brackets_close _
  | some ip =>
    have bad : Brackets true (iunlockput sb ip >>= fun _ => endOp >>= fun _ => (pure (-1) : FsM Int)) :=
      .level (iunlockput_level sb ip) (fun _ => brackets_close _)
    refine .level (ilock_level sb p ip) (fun _ => .level (readi_level sb p ip 0 52) (fun elf =>
      .level choose_level (fun accepted => ?_)))
    split
    · exact bad
    · refine .level choose_level (fun phnum => .level (load_segments_level sb p ip phnum) (fun loaded => ?_))
      split
      · exact bad
      · refine .level (iunlockput_level sb ip) (fun _ => .endOp (.level choose_level (fun stack => ?_)))
        split
        · exact .ret _
        · exact .ret _

theorem nets_sys_dup (p : Nat) (fd : Option Int) : Nets 0 (sysDup p fd) := by
  refine nets_call (nets_brackets (brackets_argfd p fd)) (fun arg => ?_)
  cases arg with
  | none => exact nets_ret _
  | some arg =>
    refine nets_call (nets_mem _) (fun new => ?_)
    cases new with
    | none => exact nets_ret _
    | some new => exact nets_call (nets_mem _) (fun _ => nets_ret _)

theorem nets_sys_close (p : Nat) (fd : Option Int) : Nets 0 (sysClose sb p fd) := by
  refine nets_call (nets_brackets (brackets_argfd p fd)) (fun arg => ?_)
  cases arg with
  | none => exact nets_ret _
  | some arg => exact nets_call (nets_mem _) (fun _ => nets_call (nets_fileclose sb _) (fun _ => nets_ret _))

theorem nets_sys_open_file (p ip omode : Nat) : Nets (-1) (sysOpenFile sb p ip omode) := by
  refine nets_call (nets_mem _) (fun f => ?_)
  cases f with
  | none => exact nets_call (nets_level (iunlockput_level sb ip)) (fun _ => nets_close _)
  | some f =>
    refine nets_call (nets_mem _) (fun fd => ?_)
    cases fd with
    | none => exact nets_call (nets_fileclose sb f) (fun _ => nets_call (nets_level (iunlockput_level sb ip)) (fun _ => nets_close _))
    | some fd =>
      refine nets_call (nets_level (iunlock_level ip)) (fun _ => nets_end ?_)
      exact nets_call (nets_mem _) (fun _ => nets_ret _)

theorem nets_fork (p : Nat) : Nets 0 (fork p) := by
  have slot : Nets 0 allocproc := by
    refine nets_call (nets_mem _) (fun slot => ?_)
    cases slot with
    | none => exact nets_ret _
    | some q =>
      refine nets_call (nets_level choose_level) (fun kstack => ?_)
      split
      · exact nets_call (nets_mem _) (fun _ => nets_ret _)
      · exact nets_ret _
  have files (q fd : Nat) : Nets 0 (forkFiles p q fd) := by
    refine nets_call (nets_mem _) (fun parent => ?_)
    split
    · exact nets_ret _
    · exact nets_call (nets_mem _) (fun _ => nets_mem _)
  have cwd (q : Nat) : Nets 0 (forkCwd p q) := by
    refine nets_call (nets_mem _) (fun cwd => ?_)
    cases cwd with
    | none => exact nets_panic 0 _
    | some cwd => exact nets_call (nets_level (idup_level cwd)) (fun _ => nets_mem _)
  refine nets_call slot (fun np => ?_)
  cases np with
  | none => exact nets_ret _
  | some q =>
    refine nets_call (nets_level choose_level) (fun pgdir => ?_)
    split
    · exact nets_call (nets_mem _) (fun _ => nets_ret _)
    · exact nets_call (nets_loop (files q) 0 nofile) (fun _ => nets_call (cwd q) (fun _ => nets_call (nets_mem _) (fun _ => nets_ret _)))

theorem nets_exit (p : Nat) : Nets 0 (exit sb p) := by
  have file (fd : Nat) : Nets 0 (exitFile sb p fd) := by
    refine nets_call (nets_mem _) (fun proc => ?_)
    split
    · exact nets_ret _
    · exact nets_call (nets_fileclose sb _) (fun _ => nets_mem _)
  unfold exit
  split
  · exact nets_panic 0 _
  · refine nets_call (nets_loop file 0 nofile) (fun _ => nets_tx (nets_call (nets_level (put_cwd_level sb p)) (fun _ => ?_)))
    exact nets_end (nets_call (nets_mem _) (fun _ => nets_call (nets_mem _) (fun _ => nets_ret _)))

theorem nets_sys_open (p : Nat) (path : Option Path) (omode : Option Nat) :
    Nets 0 (sysOpen sb p path omode) := by
  unfold sysOpen
  split
  · rename_i path omode
    refine nets_tx ?_
    split
    · refine nets_call (nets_level (create_level sb p path _ 0 0)) (fun ip => ?_)
      cases ip with
      | none => exact .failed 0 (-1) _ rfl (nets_ret _)
      | some ip => exact nets_sys_open_file sb p ip omode
    · refine nets_call (nets_level (namei_level sb p path)) (fun ip => ?_)
      cases ip with
      | none => exact nets_close _
      | some ip =>
        refine nets_call (nets_level (ilock_level sb p ip)) (fun _ => nets_call (nets_level (get_inode_level ip)) (fun node => ?_))
        split
        · exact nets_call (nets_level (iunlockput_level sb ip)) (fun _ => nets_close _)
        · exact nets_sys_open_file sb p ip omode
  · exact nets_ret _

theorem nets_call_body (p : Nat) (call : Call) : Nets 0 (callBody sb p call) := by
  cases call with
  | dup fd => exact nets_sys_dup p fd
  | read fd n => exact nets_brackets (brackets_sys_read sb p fd n)
  | write fd data => exact nets_brackets (brackets_sys_write sb p fd data)
  | close fd => exact nets_sys_close sb p fd
  | fstat fd st => exact nets_brackets (brackets_sys_fstat sb p fd st)
  | link old new => exact nets_brackets (brackets_sys_link sb p old new)
  | unlink path => exact nets_brackets (brackets_sys_unlink sb p path)
  | «open» path omode => exact nets_sys_open sb p path omode
  | mkdir path => exact nets_brackets (brackets_sys_make sb p tDir _)
  | mknod path major minor => exact nets_brackets (brackets_sys_make sb p tDev _)
  | chdir path => exact nets_brackets (brackets_sys_chdir sb p path)
  | exec path argvFits =>
    cases path with
    | none => exact nets_ret _
    | some path =>
      show Nets 0 (if argvFits then _ else _)
      split
      · exact nets_brackets (brackets_exec sb p path)
      · exact nets_ret _
  | fork => exact nets_fork p
  | exit => exact nets_exit sb p
  | wait child => exact nets_mem _

def Op.commits {M N β : Type} : Op M N β → Bool
  | .clearLog => true
  | act => act.quiet

theorem commit_each {M N : Type} : (commit : KProg M N Unit).Each (fun act => act.commits = true) := by
  have copies : (writeLog : KProg M N Unit).Each (fun act => act.commits = true) :=
    each_bind (each_lift rfl) (fun n => each_loop (fun _ => each_lift rfl) 0 n)
  have installs : (installTrans : KProg M N Unit).Each (fun act => act.commits = true) :=
    each_bind (each_lift rfl) (fun n => each_loop (fun _ => each_lift rfl) 0 n)
  refine each_bind (each_lift rfl) (fun n => ?_)
  split
  · exact each_bind copies (fun _ => each_bind (each_lift rfl) (fun _ => each_bind installs (fun _ =>
      each_bind (each_lift rfl) (fun _ => each_lift rfl))))
  · trivial

def opWeight {β : Type} (act : FsOp β) : Int :=
  if act.isBegin then 1 else if act.isEnd || createFails act then -1 else 0

theorem end_op_weighs : (endOp : FsM Unit).Weighs Op.exec opWeight (-1) := by
  intro doCommit s s' _
  cases doCommit with
  | false => rfl
  | true =>
    have neutral : (commit >>= fun _ => .lift .endCommit : FsM Unit).Each (fun act => opWeight act = 0) := by
      refine each_bind (each_mono commit_each ?_) (fun _ => each_lift rfl)
      intro γ act holds
      cases act <;> simp_all [Op.commits, Op.quiet, opWeight, Op.isBegin, Op.isEnd, createFails]
    exact weighs_each neutral

theorem nets_weighs {α : Type} {d : Int} {c : FsM α} (nets : Nets d c) : c.Weighs Op.exec opWeight d := by
  induction nets with
  | ret a => rfl
  | client d act next plain succeeds _ ih =>
    intro r s s' returned
    have neutral : opWeight act = 0 := by
      cases act <;> simp_all [Op.client, opWeight, Op.isBegin, Op.isEnd]
    show (next r).Weighs Op.exec opWeight (d - opWeight act)
    rw [neutral, Int.sub_zero]
    exact ih r s s' returned
  | failed d e next total _ ih =>
    intro _ _ _ _
    show (next ()).Weighs Op.exec opWeight (e - opWeight (.probe .createFailed))
    rw [show e - opWeight (.probe .createFailed) = d by simp [opWeight, Op.isBegin, Op.isEnd, createFails]; omega]
    exact ih
  | beginOp d e next total _ ih =>
    intro _ _ _ _
    show (next ()).Weighs Op.exec opWeight (e - opWeight .beginOp)
    rw [show e - opWeight .beginOp = d by simp [opWeight, Op.isBegin]; omega]
    exact ih
  | endOp d e next total _ ih =>
    rw [show e = -1 + d by omega]
    exact weighs_bind end_op_weighs (fun _ => ih)

theorem weight_sum (path : List ((γ : Type) × FsOp γ)) :
    (path.map fun s => opWeight s.2).sum = path.countP (fun s => s.2.isBegin) - path.countP (fun s => s.2.isEnd) -
      path.countP (fun s => createFails s.2) := by
  induction path with
  | nil => rfl
  | cons s rest ih =>
    obtain ⟨γ, act⟩ := s
    simp only [List.map_cons, List.sum_cons, ih, List.countP_cons]
    cases act with
    | probe note =>
      cases note
      all_goals simp [opWeight, Op.isBegin, Op.isEnd, createFails]
      all_goals omega
    | _ =>
      simp only [opWeight, Op.isBegin, Op.isEnd, createFails]
      simp <;> omega

-- sys_open returns without end_op after a failed create.
theorem call_path_balanced (p : Nat) (call : Call) (path : List ((γ : Type) × FsOp γ)) (r : Int)
    (taken : (callBody sb p call).Path Op.exec path r) :
    path.countP (fun s => s.2.isBegin) = path.countP (fun s => s.2.isEnd) ↔ path.any (fun s => createFails s.2) = false := by
  have counts := weight_sum path
  rw [weighs_path (nets_weighs (nets_call_body sb p call)) taken] at counts
  have none : path.any (fun s => createFails s.2) = false ↔ path.countP (fun s => createFails s.2) = 0 := by
    simp [List.countP_eq_zero]
  rw [none]
  omega

end Xv6
