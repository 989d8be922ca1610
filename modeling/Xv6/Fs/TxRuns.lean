import Xv6.Fs.TxBalance

set_option autoImplicit false

namespace Xv6

open Prog

abbrev FsEvent : Type 1 := Event FsOp Fs

def beginsBy (trace : List FsEvent) (p : Nat) : Nat := trace.countP fun e => e.pid == p && e.act.isBegin

def endsBy (trace : List FsEvent) (p : Nat) : Nat := trace.countP fun e => e.pid == p && e.act.isEnd

def Between (trace : List FsEvent) (p : Nat) : Prop := endsBy trace p < beginsBy trace p

def CreateSucceeds (e : FsEvent) : Prop := createFails e.act = false

structure TxInv (trace : List FsEvent) (s : Fs) (task : Nat → Task) : Prop where
  files : FileInv s.mem task
  counted : Counted (fun p => (task p).inTx = true) s.log.outstanding
  traced : ∀ p, beginsBy trace p = endsBy trace p + (if (task p).inTx then 1 else 0)

abbrev TxSafe {α : Type} (p : Nat) (Q : α → Task → Prop) (c : FsM α) (g : Task) : Prop :=
  Safe Op.exec CreateSucceeds TxInv p Q c g

theorem tx_inv_plain {β : Type} (act : FsOp β) (p : Nat) (trace : List FsEvent) (s next : Fs) (r : β)
    (task : Nat → Task) (g : Task) (inv : TxInv trace s task) (notBegin : act.isBegin = false) (notEnd : act.isEnd = false)
    (same : next.log.outstanding = s.log.outstanding) (inTx : g.inTx = (task p).inTx)
    (files : FileInv next.mem (upd task p g)) : TxInv (trace ++ [⟨p, act, r, s, next⟩]) next (upd task p g) := by
  have flag (q : Nat) : (upd task p g q).inTx = (task q).inTx := by
    by_cases here : q = p
    · subst here
      rw [upd_self, inTx]
    · rw [upd_ne here]
  refine ⟨files, ?_, ?_⟩
  · rw [same]
    exact counted_congr inv.counted (fun q => by rw [flag])
  · intro q
    have old := inv.traced q
    simp only [beginsBy, endsBy, List.countP_append, List.countP_singleton, notBegin, notEnd, Bool.and_false, flag,
      Bool.false_eq_true, if_false, Nat.add_zero] at old ⊢
    exact old

theorem tx_safe_level {α : Type} (p : Nat) (g : Task) (c : FsM α) (level : c.Each InodeLevel) (Q : α → Task → Prop)
    (final : ∀ a, Q a g) : TxSafe p Q c g := by
  induction c with
  | ret a => exact final a
  | op act k ih =>
    intro trace s task own inv r next executed _
    refine ⟨g, ?_, ih r (level.2 r)⟩
    have same : upd task p g = task := by
      rw [← own]
      exact upd_same task p
    obtain ⟨⟨sameFiles, sameProcs⟩, sameOut⟩ := inode_level_keeps act level.1 s next r executed
    have kinds : act.isBegin = false ∧ act.isEnd = false := by
      have holds := level.1
      cases act <;> simp_all [InodeLevel, Op.isBegin, Op.isEnd]
    refine tx_inv_plain act p trace s next r task g inv kinds.1 kinds.2 sameOut (by rw [own]) ?_
    rw [same]
    exact file_inv_frame s.mem next.mem task inv.files (by simp [sameFiles]) (by simp [sameFiles]) (by simp [sameProcs])
      (by simp [sameProcs])

theorem tx_safe_mem {β : Type} (p : Nat) (g : Task) (f : Mem → Res Mem β) (Q : β → Task → Prop)
    (step : ∀ m task r next, task p = g → FileInv m task → f m = .ok r next →
      ∃ g', g'.inTx = g.inTx ∧ FileInv next (upd task p g') ∧ Q r g') : TxSafe p Q (.lift (.mem f)) g := by
  intro trace s task own inv r next executed _
  obtain ⟨m, stepped, rfl⟩ := on_mem_ok s next _ r executed
  obtain ⟨g', inTx, files, post⟩ := step s.mem task r m own inv.files stepped
  exact ⟨g', tx_inv_plain _ p trace s _ r task g' inv rfl rfl rfl (by rw [inTx, own]) files, post⟩

theorem file_inv_tx (m : Mem) (task : Nat → Task) (p : Nat) (inTx : Bool) (inv : FileInv m task)
    (active : (task p).active = true) : FileInv m (upd task p { task p with inTx := inTx }) := by
  refine file_inv_task m task p inv _ rfl (fun fresh => fresh) rfl (inv.known p) rfl (inv.alive p) ?_
  intro inactive
  have now : (task p).active = false := inactive
  rw [active] at now
  cases now

theorem tx_safe_panic {α : Type} (p : Nat) (g : Task) (msg : String) (Q : α → Task → Prop) : TxSafe p Q (kpanic msg) g :=
  tx_safe_mem p g _ Q nofun

theorem tx_safe_begin (p : Nat) (g : Task) (active : g.active = true) (out : g.inTx = false) :
    TxSafe p (fun _ g' => g' = { g with inTx := true }) beginOp g := by
  intro trace s task own inv r next executed _
  obtain ⟨-, rfl⟩ := begin_op_ok s next executed
  subst own
  refine ⟨_, ⟨file_inv_tx s.mem task p true inv.files active, ?_, ?_⟩, rfl⟩
  · refine counted_enter p inv.counted (by simp [out]) (by simp) (fun q other => ?_)
    rw [upd_ne other]
  · intro q
    have old := inv.traced q
    simp only [beginsBy, endsBy, List.countP_append, List.countP_singleton] at old ⊢
    by_cases same : q = p
    · subst same
      simp_all [Op.isBegin, Op.isEnd]
    · have other : (p == q) = false := by simpa using fun equal => same equal.symm
      simp_all [Op.isBegin, Op.isEnd, upd_ne same]

theorem tx_safe_end (p : Nat) (g : Task) (active : g.active = true) (inside : g.inTx = true) :
    TxSafe p (fun _ g' => g' = { g with inTx := false }) endOp g := by
  have after (g : Task) : TxSafe p (fun _ g' => g' = g) (commit >>= fun _ => .lift .endCommit : FsM Unit) g := by
    have plain {β : Type} (act : FsOp β) (notBegin : act.isBegin = false) (notEnd : act.isEnd = false)
        (trace : List FsEvent) (s next : Fs) (r : β) (task : Nat → Task) (own : task p = g) (inv : TxInv trace s task)
        (sameMem : next.mem = s.mem) (sameOut : next.log.outstanding = s.log.outstanding) :
        TxInv (trace ++ [⟨p, act, r, s, next⟩]) next (upd task p g) := by
      refine tx_inv_plain act p trace s next r task g inv notBegin notEnd sameOut (by rw [own]) ?_
      rw [sameMem, ← own, upd_same]
      exact inv.files
    refine safe_call (commit_safe g g ?_ ?_ ?_) ?_
    · intro β act quiet h phase trace s task own inv r next executed
      rw [or_self] at phase
      rw [phase] at own ⊢
      obtain ⟨sameLog, sameMem⟩ := quiet_keeps_log act quiet s next r executed
      have kinds : act.isBegin = false ∧ act.isEnd = false := by
        cases act <;> simp_all [Op.quiet, Op.isBegin, Op.isEnd]
      exact plain act kinds.1 kinds.2 trace s next r task own inv sameMem (by rw [sameLog])
    · intro trace s task own inv _
      exact plain .lhN rfl rfl trace s s 0 task own inv rfl rfl
    · intro trace s task own inv
      exact plain .clearLog rfl rfl trace s s.clearLog () task own inv rfl rfl
    · rintro _ _ rfl trace s task own inv r next executed _
      cases executed
      exact ⟨_, plain .endCommit rfl rfl trace s s.endCommit () task own inv rfl rfl, rfl⟩
  intro trace s task own inv r next executed _
  obtain ⟨-, -, rfl⟩ := end_op_ok s next r executed
  subst own
  refine ⟨{ task p with inTx := false }, ⟨file_inv_tx s.mem task p false inv.files active, ?_, ?_⟩, ?_⟩
  · refine counted_leave p inv.counted inside (by simp) (fun q other => ?_)
    rw [upd_ne other]
  · intro q
    have old := inv.traced q
    simp only [beginsBy, endsBy, List.countP_append, List.countP_singleton] at old ⊢
    by_cases same : q = p
    · subst same
      simp_all [Op.isBegin, Op.isEnd]
    · have other : (p == q) = false := by simpa using fun equal => same equal.symm
      simp_all [Op.isBegin, Op.isEnd, upd_ne same]
  · cases r with
    | false => rfl
    | true => exact after _

section

variable {α β : Type} {p : Nat} {g : Task} {Q : β → Task → Prop}

theorem tx_then {c : FsM α} {f : α → FsM β} (level : c.Each InodeLevel) (rest : ∀ a, TxSafe p Q (f a) g) :
    TxSafe p Q (c >>= f) g := by
  refine safe_call (tx_safe_level p g c level (fun _ g' => g' = g) (fun _ => rfl)) ?_
  intro a g' same
  rw [same]
  exact rest a

theorem tx_begin_then {f : Unit → FsM β} (active : g.active = true) (out : g.inTx = false)
    (rest : TxSafe p Q (f ()) { g with inTx := true }) : TxSafe p Q (beginOp >>= f) g := by
  refine safe_call (tx_safe_begin p g active out) ?_
  intro a g' same
  rw [same]
  exact rest

theorem tx_end_then {f : Unit → FsM β} (active : g.active = true) (inside : g.inTx = true)
    (rest : TxSafe p Q (f ()) { g with inTx := false }) : TxSafe p Q (endOp >>= f) g := by
  refine safe_call (tx_safe_end p g active inside) ?_
  intro a g' same
  rw [same]
  exact rest

end

def Task.Calm (g : Task) : Prop :=
  g.inTx = false ∧ g.tmp = none ∧ g.fresh = false ∧ g.skip = none ∧ g.child = none

def Task.using (k : Option (Nat × Nat)) : Task := { Task.started with knows := k }

theorem using_calm (k : Option (Nat × Nat)) : (Task.using k).Calm := ⟨rfl, rfl, rfl, rfl, rfl⟩

theorem tx_fileclose {sb : Superblock} {p : Nat} {g g' : Task} (f : Nat) (active : g'.active = true) (out : g'.inTx = false)
    (sameTx : g'.inTx = g.inTx)
    (drop : ∀ m task file, task p = g → FileInv m task → file.ref = (m.ftable f).ref - 1 →
      (file.ref = 0 → file.type = .none) → FileInv (m.setFile f file) (upd task p g')) :
    TxSafe p (fun _ h => h = g') (fileclose sb f) g := by
  have dropped : TxSafe p (fun _ h => h = g') (filecloseRef f) g := by
    refine tx_safe_mem p g _ _ ?_
    intro m task r next own inv stepped
    dsimp only at stepped
    split at stepped
    · cases stepped
    · split at stepped
      · rename_i more
        cases stepped
        refine ⟨g', sameTx, drop m task _ own inv rfl ?_, rfl⟩
        intro zero
        have zero : (m.ftable f).ref - 1 = 0 := zero
        omega
      · cases stepped
        exact ⟨g', sameTx, drop m task _ own inv (by simp only; omega) (fun _ => rfl), rfl⟩
  refine safe_call dropped ?_
  intro last h same
  rw [same]
  cases last with
  | none => rfl
  | some ff =>
    dsimp only
    split
    · refine tx_begin_then active out (tx_then (iput_level sb ff.ip) (fun _ => ?_))
      refine safe_mono (tx_safe_end p _ active rfl) ?_
      intro _ h ended
      rw [ended, ← out]
    · rfl

theorem tx_fileclose_fresh {sb : Superblock} {p : Nat} (f : Nat) (g : Task) (active : g.active = true)
    (fresh : g.fresh = true) (tmp : g.tmp = some f) :
    TxSafe p (fun _ h => h = { g with tmp := none, fresh := false }) (fileclose sb f) g := by
  have dropped : TxSafe p (fun last h => h = { g with tmp := none, fresh := false } ∧ ∀ ff, last = some ff → ff.type = .none)
      (filecloseRef f) g := by
    refine tx_safe_mem p g _ _ ?_
    intro m task r next own inv stepped
    subst own
    have untyped := (inv.freshOnly p f fresh tmp).1
    have holds := holds_drop_tmp m task p { task p with tmp := none, fresh := false } rfl rfl
    have drop (file : File) (ref : file.ref = (m.ftable f).ref - 1) (type : file.ref = 0 → file.type = .none) :
        FileInv (m.setFile f file) (upd task p { task p with tmp := none, fresh := false }) := by
      refine file_inv_close m task p inv f (p, none) _ file active active rfl rfl rfl tmp
        (fun f' t held => ⟨(holds f' t held).1, fun _ => (holds f' t held).2⟩) ref type ?_
      rintro fd f' (skip | knows)
      · exact inv.skipped p fd f' skip
      · exact inv.known p fd f' knows
    dsimp only at stepped
    split at stepped
    · cases stepped
    · split at stepped
      · rename_i more
        cases stepped
        refine ⟨{ task p with tmp := none, fresh := false }, rfl, drop _ rfl ?_, rfl, nofun⟩
        intro zero
        have zero : (m.ftable f).ref - 1 = 0 := zero
        omega
      · cases stepped
        refine ⟨{ task p with tmp := none, fresh := false }, rfl, drop _ (by simp only; omega) (fun _ => rfl), rfl, ?_⟩
        intro ff same
        cases same
        exact untyped
  refine safe_call dropped ?_
  rintro last h ⟨same, type⟩
  rw [same]
  cases last with
  | none => rfl
  | some ff =>
    dsimp only
    rw [if_neg (by simp [type ff rfl])]
    rfl

theorem file_inv_lookup (m : Mem) (task : Nat → Task) (p : Nat) (g : Task) (k : Option (Nat × Nat)) (inv : FileInv m task)
    (own : task p = g) (active : g.active = true) (found : ∀ d f, k = some (d, f) → (m.proc p).ofile d = some f) :
    FileInv m (upd task p { g with knows := k }) := by
  subst own
  refine file_inv_task m task p inv _ rfl (fun fresh => fresh) rfl found rfl (inv.alive p) ?_
  intro inactive
  have now : (task p).active = false := inactive
  rw [active] at now
  cases now

def argSlot (fd : Option Int) (proc : Proc) : Option (Nat × Nat) :=
  match fd with
  | none => none
  | some fd => if fd < 0 ∨ fd ≥ nofile then none else (proc.ofile fd.toNat).map fun f => (fd.toNat, f)

theorem tx_argfd (p : Nat) (fd : Option Int) :
    TxSafe p (fun arg g => g = Task.using arg) (argfd p fd) Task.started := by
  have found (proc : Proc) (d f : Nat) (same : argSlot fd proc = some (d, f)) : proc.ofile d = some f := by
    unfold argSlot at same
    split at same
    · cases same
    · split at same
      · cases same
      · obtain ⟨f', slot, pair⟩ := Option.map_eq_some_iff.mp same
        cases pair
        exact slot
  have looked : TxSafe p (fun proc g => g = Task.using (argSlot fd proc)) (getProc p) Task.started := by
    refine tx_safe_mem p _ _ _ ?_
    intro m task r next own inv stepped
    cases stepped
    exact ⟨Task.using (argSlot fd (m.proc p)), rfl, file_inv_lookup m task p _ _ inv own rfl (found _), rfl⟩
  refine safe_call looked ?_
  intro proc g same
  rw [same]
  unfold argSlot
  cases fd with
  | none => rfl
  | some fd =>
    dsimp only
    split
    · rfl
    · rfl

theorem tx_fdalloc (p f : Nat) (g : Task) (active : g.active = true) (noSkip : g.skip = none) :
    TxSafe p (fun new h => match new with
      | none => h = g
      | some new => h = { g with skip := some (new, f) } ∧ ∀ d f', g.knows = some (d, f') → new ≠ d) (fdalloc p f) g := by
  refine tx_safe_mem p _ _ _ ?_
  intro m task r next own inv stepped
  dsimp only at stepped
  split at stepped
  · rename_i new search
    cases stepped
    have free : (m.proc p).ofile new = none := by simpa using List.find?_some search
    have kept := file_inv_fdalloc m task p inv new f (by rw [own, active]) free (by rw [own, noSkip])
    rw [own] at kept
    refine ⟨{ g with skip := some (new, f) }, rfl, kept, rfl, ?_⟩
    rintro d f' knows rfl
    have slot := inv.known p new f' (by rw [own, knows])
    rw [free] at slot
    cases slot
  · cases stepped
    refine ⟨g, rfl, ?_, rfl⟩
    rw [← own, upd_same]
    exact inv

theorem tx_filedup (p f d new : Nat) (different : new ≠ d) :
    TxSafe p (fun _ g => g = Task.using (some (d, f))) (filedup f) { Task.using (some (d, f)) with skip := some (new, f) } := by
  refine tx_safe_mem p _ _ _ ?_
  intro m task r next own inv stepped
  dsimp only at stepped
  split at stepped
  · cases stepped
  · cases stepped
    have slotD := inv.known p d f (by rw [own]; rfl)
    have slotNew := inv.skipped p new f (by rw [own])
    have held : Holds m task f (p, some d) := by
      refine ⟨slotD, ?_⟩
      rw [own]
      simpa using different
    refine ⟨Task.using (some (d, f)), rfl, ?_, rfl⟩
    refine file_inv_dup m task p inv f (p, some new) (p, some d) _ (by rw [own]; rfl) rfl (by rw [own]) rfl held (by simp) ?_ ?_
    · intro f' t now
      obtain ⟨q, e⟩ := t
      by_cases same : q = p
      · subst same
        cases e with
        | none => simp [Holds, Task.using, Task.started, Task.idle] at now
        | some e =>
          by_cases here : e = new
          · subst here
            rw [Holds, slotNew, Option.some.injEq] at now
            exact Or.inr ⟨now.1.symm, rfl⟩
          · refine Or.inl ⟨now.1, ?_⟩
            rw [own]
            simpa using fun equal => absurd equal.symm here
      · refine Or.inl ?_
        cases e <;> simpa only [Holds, upd_ne same] using now
    · rintro e f' (never | knows)
      · cases never
      · cases knows
        exact slotD

theorem tx_sys_dup (p : Nat) (fd : Option Int) : TxSafe p (fun _ g => g.Calm) (sysDup p fd) Task.started := by
  refine safe_call (tx_argfd p fd) (fun arg g same => ?_)
  rw [same]
  cases arg with
  | none => exact using_calm none
  | some arg =>
    obtain ⟨d, f⟩ := arg
    refine safe_call (tx_fdalloc p f _ rfl rfl) (fun new g post => ?_)
    cases new with
    | none =>
      rw [show g = _ from post]
      exact using_calm _
    | some new =>
      rw [post.1]
      refine safe_call (tx_filedup p f d new (post.2 d f rfl)) (fun _ g same => ?_)
      rw [same]
      exact using_calm _

theorem tx_sys_close (sb : Superblock) (p : Nat) (fd : Option Int) :
    TxSafe p (fun _ g => g.Calm) (sysClose sb p fd) Task.started := by
  refine safe_call (tx_argfd p fd) (fun arg g same => ?_)
  rw [same]
  cases arg with
  | none => exact using_calm none
  | some arg =>
    obtain ⟨d, f⟩ := arg
    have taken : TxSafe p (fun _ g => g = { Task.started with tmp := some f }) (setOfile p d none) (Task.using (some (d, f))) := by
      refine tx_safe_mem p _ _ _ ?_
      intro m task r next own inv stepped
      cases stepped
      have slot := inv.known p d f (by rw [own]; rfl)
      have kept := file_inv_take m task p inv d f (by rw [own]; rfl) (by rw [own]; rfl) (by rw [own]; rfl) slot
      rw [own] at kept
      exact ⟨{ Task.started with tmp := some f }, rfl, kept, rfl⟩
    have closed : TxSafe p (fun _ h => h = Task.started) (fileclose sb f) { Task.started with tmp := some f } := by
      refine tx_fileclose f rfl rfl rfl ?_
      intro m task file own inv ref type
      have holds := holds_drop_tmp m task p Task.started rfl (by rw [own])
      refine file_inv_close m task p inv f (p, none) _ file (by rw [own]; rfl) rfl (by rw [own]) rfl rfl (by simp [Holds, own])
        (fun f' t held => ⟨(holds f' t held).1, fun _ => (holds f' t held).2⟩) ref type ?_
      rintro e f' (never | never) <;> cases never
    refine safe_call taken (fun _ g same => ?_)
    rw [same]
    refine safe_call closed (fun _ g same => ?_)
    rw [same]
    exact using_calm none

def Task.within : Task := { Task.started with inTx := true }

theorem tx_brackets {α : Type} {p : Nat} {inside : Bool} {c : FsM α} (brackets : Brackets inside c) (g : Task)
    (active : g.active = true) (flag : g.inTx = inside) : TxSafe p (fun _ h => h = { g with inTx := false }) c g := by
  induction brackets generalizing g with
  | ret a =>
    rw [← flag]
    rfl
  | level level _ ih => exact tx_then level (fun a => ih a g active flag)
  | mem keeps _ ih =>
    intro trace s task own inv r next executed _
    obtain ⟨m, stepped, rfl⟩ := on_mem_ok s next _ r executed
    refine ⟨g, tx_inv_plain _ p trace s _ r task g inv rfl rfl rfl (by rw [own]) ?_, ih _ r m stepped g active flag⟩
    rw [← own, upd_same]
    exact keeps _ r m task stepped inv.files
  | beginOp _ ih => exact tx_begin_then active flag (ih { g with inTx := true } active rfl)
  | endOp _ ih => exact tx_end_then active flag (ih { g with inTx := false } active rfl)

theorem tx_calm {p : Nat} {c : FsM Int} (brackets : Brackets false c) : TxSafe p (fun _ g => g.Calm) c Task.started := by
  refine safe_mono (tx_brackets brackets Task.started rfl rfl) (fun _ h same => ?_)
  rw [same]
  exact using_calm none

theorem tx_close {p : Nat} (a : Int) : TxSafe p (fun _ g => g.Calm) (endOp >>= fun _ => (pure a : FsM Int)) Task.within :=
  tx_end_then rfl rfl (using_calm none)

theorem tx_filealloc (p : Nat) (g : Task) (active : g.active = true) (noTmp : g.tmp = none) :
    TxSafe p (fun f h => match f with
      | none => h = g
      | some f => h = { g with tmp := some f, fresh := true }) filealloc g := by
  refine tx_safe_mem p _ _ _ ?_
  intro m task r next own inv stepped
  dsimp only at stepped
  split at stepped
  · rename_i f search
    cases stepped
    have unused : (m.ftable f).ref = 0 := by simpa using List.find?_some search
    have kept := file_inv_alloc m task p inv f (by rw [own, active]) (by rw [own, noTmp]) unused
    rw [own] at kept
    exact ⟨{ g with tmp := some f, fresh := true }, rfl, kept, rfl⟩
  · cases stepped
    refine ⟨g, rfl, ?_, rfl⟩
    rw [← own, upd_same]
    exact inv

theorem tx_sys_open_file (sb : Superblock) (p ip omode : Nat) :
    TxSafe p (fun _ g => g.Calm) (sysOpenFile sb p ip omode) Task.within := by
  refine safe_call (tx_filealloc p _ rfl rfl) (fun f g post => ?_)
  cases f with
  | none =>
    rw [show g = _ from post]
    exact tx_then (iunlockput_level sb ip) (fun _ => tx_close _)
  | some f =>
    rw [show g = _ from post]
    refine safe_call (tx_fdalloc p f _ rfl rfl) (fun fd g post => ?_)
    cases fd with
    | none =>
      rw [show g = _ from post]
      refine safe_call (tx_fileclose_fresh f _ rfl rfl rfl) (fun _ g same => ?_)
      rw [same]
      exact tx_then (iunlockput_level sb ip) (fun _ => tx_close _)
    | some fd =>
      rw [post.1]
      refine tx_then (iunlock_level ip) (fun _ => tx_end_then rfl rfl ?_)
      refine safe_call (P := fun _ h => h = Task.started) (tx_safe_mem p _ _ _ ?_) (fun _ g same => ?_)
      · intro m task r next own inv stepped
        cases stepped
        have kept (file : File) := file_inv_opened m task p inv f fd file (by rw [own]; rfl) (by rw [own]) (by rw [own]) (by rw [own])
        rw [own] at kept
        exact ⟨Task.started, rfl, kept _ rfl, rfl⟩
      · rw [same]
        exact using_calm none

theorem tx_sys_open (sb : Superblock) (p : Nat) (path : Option Path) (omode : Option Nat) :
    TxSafe p (fun _ g => g.Calm) (sysOpen sb p path omode) Task.started := by
  unfold sysOpen
  split
  · rename_i path omode
    refine tx_begin_then rfl rfl ?_
    split
    · refine tx_then (create_level sb p path _ 0 0) (fun ip => ?_)
      cases ip with
      | none =>
        intro trace s task own inv r next executed met
        cases met
      | some ip => exact tx_sys_open_file sb p ip omode
    · refine tx_then (namei_level sb p path) (fun ip => ?_)
      cases ip with
      | none => exact tx_close _
      | some ip =>
        refine tx_then (ilock_level sb p ip) (fun _ => tx_then (get_inode_level ip) (fun node => ?_))
        split
        · exact tx_then (iunlockput_level sb ip) (fun _ => tx_close _)
        · exact tx_sys_open_file sb p ip omode
  · exact using_calm none

def Task.forking (q : Nat) : Task := { Task.started with child := some q }

theorem tx_release {p : Nat} (q : Nat) (state : ProcState) (a : Int) :
    TxSafe p (fun _ g => g.Calm) (modProc q (fun proc => { proc with state := state }) >>= fun _ => (pure a : FsM Int))
      (Task.forking q) := by
  refine safe_call (P := fun _ h => h = Task.started) (tx_safe_mem p _ _ _ ?_) (fun _ h same => ?_)
  · intro m task r next own inv stepped
    cases stepped
    have kept := file_inv_release m task p inv q state (by rw [own]; rfl) (by rw [own]; rfl)
    rw [own] at kept
    exact ⟨Task.started, rfl, kept, rfl⟩
  · rw [same]
    exact using_calm none

def takeSlot (m : Mem) : Res Mem (Option Nat) :=
  match (List.range nproc).find? fun q => (m.proc q).state = .unused with
  | some q => .ok (some q) (m.setProc q { m.proc q with state := .embryo })
  | none => .ok none m

theorem tx_allocproc (p : Nat) :
    TxSafe p (fun np g => match np with
      | none => g = Task.started
      | some q => g = Task.forking q) allocproc Task.started := by
  have slot : TxSafe p (fun np g => match np with
      | none => g = Task.started
      | some q => g = Task.forking q)
      (.lift (.mem takeSlot)) Task.started := by
    refine tx_safe_mem p _ _ _ ?_
    intro m task r next own inv stepped
    unfold takeSlot at stepped
    split at stepped
    · rename_i q search
      cases stepped
      have unused : (m.proc q).state = .unused := by simpa using List.find?_some search
      have kept := file_inv_allocproc m task p inv q (by rw [own]; rfl) unused
      rw [own] at kept
      exact ⟨Task.forking q, rfl, kept, rfl⟩
    · cases stepped
      refine ⟨Task.started, rfl, ?_, rfl⟩
      rw [← own, upd_same]
      exact inv
  refine safe_call slot (fun np g post => ?_)
  cases np with
  | none => exact post
  | some q =>
    rw [show g = _ from post]
    refine tx_then choose_level (fun kstack => ?_)
    split
    · refine safe_call (P := fun _ h => h = Task.started) (tx_safe_mem p _ _ _ ?_) (fun _ h same => same)
      intro m task r next own inv stepped
      cases stepped
      have kept := file_inv_release m task p inv q .unused (by rw [own]; rfl) (by rw [own]; rfl)
      rw [own] at kept
      exact ⟨Task.started, rfl, kept, rfl⟩
    · rfl

theorem tx_fork_files (p q fd : Nat) : TxSafe p (fun _ g => g = Task.forking q) (forkFiles p q fd) (Task.forking q) := by
  have looked : TxSafe p (fun proc g => g = { Task.forking q with knows := (proc.ofile fd).map fun f => (fd, f) })
      (getProc p) (Task.forking q) := by
    refine tx_safe_mem p _ _ _ ?_
    intro m task r next own inv stepped
    cases stepped
    refine ⟨{ Task.forking q with knows := ((m.proc p).ofile fd).map fun f => (fd, f) }, rfl,
      file_inv_lookup m task p _ _ inv own rfl ?_, rfl⟩
    intro d f same
    obtain ⟨f', slot, pair⟩ := Option.map_eq_some_iff.mp same
    cases pair
    exact slot
  refine safe_call looked (fun proc g same => ?_)
  rw [same]
  cases slot : proc.ofile fd with
  | none => rfl
  | some f =>
    have dup : TxSafe p (fun _ g => g = { Task.forking q with knows := some (fd, f), tmp := some f }) (filedup f)
        { Task.forking q with knows := some (fd, f) } := by
      refine tx_safe_mem p _ _ _ ?_
      intro m task r next own inv stepped
      dsimp only at stepped
      split at stepped
      · cases stepped
      · cases stepped
        have slotFd := inv.known p fd f (by rw [own])
        refine ⟨{ Task.forking q with knows := some (fd, f), tmp := some f }, rfl, ?_, rfl⟩
        refine file_inv_dup m task p inv f (p, none) (p, some fd) _ (by rw [own]; rfl) rfl (by rw [own]) rfl
          ⟨slotFd, by rw [own]; simp [Task.forking, Task.started, Task.idle]⟩ (by simp) ?_ ?_
        · intro f' t now
          obtain ⟨r, e⟩ := t
          by_cases same : r = p
          · subst same
            cases e with
            | none =>
              simp only [Holds, upd_self, Option.some.injEq] at now
              exact Or.inr ⟨now.symm, rfl⟩
            | some e =>
              refine Or.inl ⟨now.1, ?_⟩
              rw [own]
              simp [Task.forking, Task.started, Task.idle]
          · refine Or.inl ?_
            cases e <;> simpa only [Holds, upd_ne same] using now
        · rintro e f' (never | knows)
          · cases never
          · cases knows
            exact slotFd
    refine safe_call dup (fun _ g same => ?_)
    rw [same]
    refine tx_safe_mem p _ _ _ ?_
    intro m task r next own inv stepped
    cases stepped
    have kept := file_inv_give m task p inv q fd f (by rw [own]; rfl) (by rw [own]; rfl) (by rw [own]) (by rw [own]; rfl) (by rw [own]; rfl)
    rw [own] at kept
    exact ⟨Task.forking q, rfl, kept, rfl⟩

theorem tx_loop {p : Nat} {g : Task} {body : Nat → FsM Unit} (each : ∀ i, TxSafe p (fun _ h => h = g) (body i) g)
    (i count : Nat) : TxSafe p (fun _ h => h = g) (loop body i count) g := by
  induction count generalizing i with
  | zero => rfl
  | succ count ih =>
    refine safe_call (each i) (fun _ h same => ?_)
    rw [same]
    exact ih (i + 1)

theorem tx_fork (p : Nat) : TxSafe p (fun _ g => g.Calm) (fork p) Task.started := by
  refine safe_call (tx_allocproc p) (fun np g post => ?_)
  cases np with
  | none =>
    rw [show g = _ from post]
    exact using_calm none
  | some q =>
    rw [show g = _ from post]
    refine tx_then choose_level (fun pgdir => ?_)
    split
    · exact tx_release q .unused _
    · refine safe_call (tx_loop (tx_fork_files p q) 0 nofile) (fun _ g same => ?_)
      rw [same]
      have cwd : TxSafe p (fun _ g => g = Task.forking q) (forkCwd p q) (Task.forking q) := by
        refine tx_then (get_cwd_level p) (fun cwd => ?_)
        cases cwd with
        | none => exact tx_safe_panic p _ _ _
        | some cwd =>
          refine tx_then (idup_level cwd) (fun cwd => ?_)
          refine tx_safe_mem p _ _ _ ?_
          intro m task r next own inv stepped
          cases stepped
          refine ⟨Task.forking q, rfl, ?_, rfl⟩
          rw [← own, upd_same]
          exact file_inv_set_proc m task q _ inv rfl rfl
      refine safe_call cwd (fun _ g same => ?_)
      rw [same]
      exact tx_release q .runnable _

theorem tx_exit_file (sb : Superblock) (p fd : Nat) : TxSafe p (fun _ g => g = Task.started) (exitFile sb p fd) Task.started := by
  have looked : TxSafe p (fun proc g => g = Task.using ((proc.ofile fd).map fun f => (fd, f))) (getProc p) Task.started := by
    refine tx_safe_mem p _ _ _ ?_
    intro m task r next own inv stepped
    cases stepped
    refine ⟨Task.using (((m.proc p).ofile fd).map fun f => (fd, f)), rfl, file_inv_lookup m task p _ _ inv own rfl ?_, rfl⟩
    intro d f same
    obtain ⟨f', slot, pair⟩ := Option.map_eq_some_iff.mp same
    cases pair
    exact slot
  refine safe_call looked (fun proc g same => ?_)
  rw [same]
  cases slot : proc.ofile fd with
  | none => rfl
  | some f =>
    have closed : TxSafe p (fun _ h => h = { Task.started with skip := some (fd, f) }) (fileclose sb f) (Task.using (some (fd, f))) := by
      refine tx_fileclose f rfl rfl rfl ?_
      intro m task file own inv ref type
      have slotFd := inv.known p fd f (by rw [own]; rfl)
      refine file_inv_close m task p inv f (p, some fd) _ file (by rw [own]; rfl) rfl (by rw [own]; rfl) rfl rfl
        ⟨slotFd, by rw [own]; simp [Task.using, Task.started, Task.idle]⟩ ?_ ref type ?_
      · intro f' t now
        obtain ⟨q, e⟩ := t
        by_cases same : q = p
        · subst same
          cases e with
          | none => simp [Holds, Task.started, Task.idle] at now
          | some e =>
            refine ⟨⟨now.1, by rw [own]; simp [Task.using, Task.started, Task.idle]⟩, ?_⟩
            rintro rfl equal
            cases equal
            exact now.2 (by simp)
        · refine ⟨?_, fun _ equal => same (congrArg Prod.fst equal)⟩
          cases e <;> simpa only [Holds, upd_ne same] using now
      · rintro e f' (skip | never)
        · cases skip
          exact slotFd
        · cases never
    refine safe_call closed (fun _ g same => ?_)
    rw [same]
    refine tx_safe_mem p _ _ _ ?_
    intro m task r next own inv stepped
    cases stepped
    have kept := file_inv_forget m task p inv fd f (by rw [own]; rfl) (by rw [own])
    rw [own] at kept
    exact ⟨Task.started, rfl, kept, rfl⟩

theorem tx_exit (sb : Superblock) (p : Nat) : TxSafe p (fun _ g => g.Calm) (exit sb p) Task.started := by
  unfold exit
  split
  · exact tx_safe_panic p _ _ _
  · refine safe_call (tx_loop (tx_exit_file sb p) 0 nofile) (fun _ g same => ?_)
    rw [same]
    refine tx_begin_then rfl rfl (tx_then (put_cwd_level sb p) (fun _ => tx_end_then rfl rfl ?_))
    have cwd := brackets_mod_proc p (fun proc => { proc with cwd := none }) (fun _ => ⟨rfl, rfl⟩) (.ret ())
    refine safe_call (tx_brackets cwd Task.started rfl rfl) (fun _ h same => ?_)
    rw [same]
    refine safe_call (P := fun _ h => h = Task.idle) (tx_safe_mem p _ _ _ ?_) (fun _ g same => ?_)
    · intro m task r next own inv stepped
      cases stepped
      have kept := file_inv_exit m task p inv .zombie (by rw [own]; rfl) (by rw [own]; rfl) (by rw [own]; rfl) (by rw [own]; rfl) (by rw [own]; rfl)
      exact ⟨Task.idle, rfl, kept, rfl⟩
    · rw [same]
      exact ⟨rfl, rfl, rfl, rfl, rfl⟩

theorem tx_reap (p q : Nat) : TxSafe p (fun _ g => g.Calm) (reap q) Task.started := by
  refine tx_safe_mem p _ _ _ ?_
  intro m task r next own inv stepped
  dsimp only at stepped
  split at stepped
  · rename_i zombie
    cases stepped
    have kept := file_inv_reap m task p inv q (by rw [own]; rfl) zombie
    rw [own] at kept
    exact ⟨Task.started, rfl, kept, using_calm none⟩
  · cases stepped
    refine ⟨Task.started, rfl, ?_, using_calm none⟩
    rw [← own, upd_same]
    exact inv

theorem tx_call (sb : Superblock) (p : Nat) (call : Call) :
    TxSafe p (fun _ g => g.Calm) (callBody sb p call) Task.started := by
  cases call with
  | dup fd => exact tx_sys_dup p fd
  | read fd n => exact tx_calm (brackets_sys_read sb p fd n)
  | write fd data => exact tx_calm (brackets_sys_write sb p fd data)
  | close fd => exact tx_sys_close sb p fd
  | fstat fd st => exact tx_calm (brackets_sys_fstat sb p fd st)
  | link old new => exact tx_calm (brackets_sys_link sb p old new)
  | unlink path => exact tx_calm (brackets_sys_unlink sb p path)
  | «open» path omode => exact tx_sys_open sb p path omode
  | mkdir path => exact tx_calm (brackets_sys_make sb p tDir _)
  | mknod path major minor => exact tx_calm (brackets_sys_make sb p tDev _)
  | chdir path => exact tx_calm (brackets_sys_chdir sb p path)
  | exec path argvFits =>
    cases path with
    | none => exact using_calm none
    | some path =>
      show TxSafe p _ (if argvFits then _ else _) Task.started
      split
      · exact tx_calm (brackets_exec sb p path)
      · exact using_calm none
  | fork => exact tx_fork p
  | exit => exact tx_exit sb p
  | wait child => exact tx_reap p child

def Syscalls (sb : Superblock) (p : Nat) (_ : Unit) (prog : FsM Unit) : Prop :=
  ∃ call, prog = (syscall sb p call >>= fun _ => pure ())

theorem tx_syscall (sb : Superblock) (p : Nat) (call : Call) (g : Task) (calm : g.Calm) :
    TxSafe p (fun _ g => g.Calm) (syscall sb p call >>= fun _ => pure ()) g := by
  obtain ⟨inTx, tmp, fresh, skip, child⟩ := calm
  have starts : TxSafe p (fun _ h => h = Task.started) (scheduled p) g := by
    refine tx_safe_mem p _ _ _ ?_
    intro m task r next own inv stepped
    split at stepped
    · rename_i alive
      cases stepped
      refine ⟨Task.started, inTx.symm, file_inv_task m task p inv Task.started ?_ ?_ ?_ ?_ ?_ (fun _ => alive) ?_, rfl⟩
      · rw [own, tmp]
        rfl
      · intro never
        cases never
      · rw [own, skip]
        rfl
      · intro fd f never
        cases never
      · rw [own, child]
        rfl
      · intro never
        cases never
    · cases stepped
  refine safe_bind (safe_call starts (fun _ h same => ?_))
  rw [same]
  exact safe_mono (tx_call sb p call) (fun _ _ calm => calm)

structure Booted (s : Fs) : Prop where
  quiet : s.log.outstanding = 0
  counted : ∀ f, AtMost (fun t : Nat × Nat => (s.mem.proc t.1).ofile t.2 = some f) (s.mem.ftable f).ref
  untyped : ∀ f, (s.mem.ftable f).ref = 0 → (s.mem.ftable f).type = .none

theorem booted_inv (s : Fs) (booted : Booted s) : TxInv [] s (fun _ => Task.idle) := by
  refine ⟨⟨?_, booted.untyped, ?_, ?_, ?_, ?_, ?_, ?_, fun _ _ => rfl⟩, ?_, ?_⟩
  · intro f
    obtain ⟨bag, covers, size⟩ := booted.counted f
    refine ⟨bag.image (fun t => (t.1, some t.2)), ?_, ?_⟩
    · rintro ⟨p, e⟩ held
      cases e with
      | none => cases held
      | some fd => exact Finset.mem_image.mpr ⟨(p, fd), covers (p, fd) held.1, rfl⟩
    · have smaller := Finset.card_image_le (s := bag) (f := fun t => (t.1, some t.2))
      omega
  · intro p f never
    cases never
  · intro p fd f never
    cases never
  · intro p fd f never
    cases never
  · intro p never
    cases never
  · intro p q never
    cases never
  · intro p p' q never
    cases never
  · rw [booted.quiet]
    exact counted_none (by simp [Task.idle])
  · intro p
    rfl

theorem transactions_balance (sb : Superblock) :
    (∀ p call path r, (callBody sb p call).Path Op.exec path r →
      (path.countP (fun s => s.2.isBegin) = path.countP (fun s => s.2.isEnd) ↔
        path.any (fun s => createFails s.2) = false)) ∧
    (∀ s, Booted s → ∀ trace c, Reach Op.exec (Syscalls sb) CreateSucceeds ⟨s, fun _ => .ret ()⟩ trace c →
      Counted (Between trace) c.shared.log.outstanding ∧
      ((∀ p, c.thread p = .ret ()) → c.shared.log.outstanding = 0)) := by
  refine ⟨fun p call path r taken => call_path_balanced sb p call path r taken, ?_⟩
  intro s booted trace c reached
  have begins : ∃ task, TxInv [] s task ∧ ∀ p, TxSafe p (fun _ g => g.Calm) (.ret () : FsM Unit) (task p) :=
    ⟨fun _ => Task.idle, booted_inv s booted, fun _ => ⟨rfl, rfl, rfl, rfl, rfl⟩⟩
  have safe (p : Nat) (l : Unit) (g : Task) (prog : FsM Unit) (calm : g.Calm) (allowed : Syscalls sb p l prog) :
      TxSafe p (fun _ g => g.Calm) prog g := by
    obtain ⟨call, rfl⟩ := allowed
    exact tx_syscall sb p call g calm
  obtain ⟨task, inv, threads⟩ := reach_invariant _ begins safe reached
  have between (p : Nat) : Between trace p ↔ (task p).inTx = true := by
    have counts := inv.traced p
    cases inTx : (task p).inTx <;> simp [inTx] at counts <;> simp [Between] <;> omega
  refine ⟨counted_congr inv.counted between, fun outside => ?_⟩
  obtain ⟨members, iff, size⟩ := inv.counted
  have empty : members = ∅ := by
    refine Finset.eq_empty_of_forall_notMem (fun p member => ?_)
    have calm := threads p
    rw [outside p] at calm
    have inside : (task p).inTx = true := (iff p).mp member
    rw [calm.1] at inside
    cases inside
  rw [size, empty]
  rfl

def bareKernel : Fs where
  cache := fun _ => Buf.zero
  disk := fun _ => Buf.zero
  log := { start := mkfsSuperblock.logstart, size := mkfsSuperblock.nlog, outstanding := 0, committing := false, lh := [] }
  mem := {
    icache := fun k => ⟨if k = 0 then rootino else 0, if k = 0 then 1 else 0, false, 0, false, false, ⟨0, 0, 0, 0, 0, Buf.zero⟩⟩
    ftable := fun _ => ⟨.none, 0, false, false, 0, 0⟩
    proc := fun p => ⟨if p = 0 then .running else .unused, fun _ => none, if p = 0 then some 0 else none⟩
    oracle := fun _ => 0 }

theorem bare_kernel_booted : Booted bareKernel :=
  ⟨rfl, fun _ => at_most_none nofun (le_refl _), fun _ _ => rfl⟩

theorem transactions_balance_in_mkdir :
    ∃ trace c, Reach Op.exec (Syscalls mkfsSuperblock) CreateSucceeds ⟨bareKernel, fun _ => .ret ()⟩ trace c ∧
      Counted (Between trace) c.shared.log.outstanding ∧ c.shared.log.outstanding = 1 := by
  let prog : FsM Unit := syscall mkfsSuperblock 0 (.mkdir none) >>= fun _ => pure ()
  have called : Reach Op.exec (Syscalls mkfsSuperblock) CreateSucceeds ⟨bareKernel, fun _ => .ret ()⟩ []
      ⟨bareKernel, upd (fun _ => .ret ()) 0 prog⟩ := .call [] _ 0 () prog .init rfl ⟨_, rfl⟩
  have running := Reach.step [] _ 0 (.mem _) _ () _ called rfl rfl (by rfl)
  have begun := Reach.step _ _ 0 .beginOp _ () _ running rfl rfl (by rfl)
  exact ⟨_, _, begun, ((transactions_balance mkfsSuperblock).2 _ bare_kernel_booted _ _ begun).1, rfl⟩

-- open("/", O_CREATE) returns -1 and leaves its transaction open.
theorem failed_create_leaks_transaction :
    ∃ trace c, Reach Op.exec (Syscalls mkfsSuperblock) (fun _ => True) ⟨bareKernel, fun _ => .ret ()⟩ trace c ∧
      (∀ p, c.thread p = .ret ()) ∧ c.shared.log.outstanding = 1 := by
  let prog : FsM Unit := syscall mkfsSuperblock 0 (.open (some [slash]) (some oCreate)) >>= fun _ => pure ()
  have called : Reach Op.exec (Syscalls mkfsSuperblock) (fun _ => True) ⟨bareKernel, fun _ => .ret ()⟩ []
      ⟨bareKernel, upd (fun _ => .ret ()) 0 prog⟩ := .call [] _ 0 () prog .init rfl ⟨_, rfl⟩
  obtain ⟨last, finished, out⟩ : ∃ last, prog.run Op.exec bareKernel = .ok () last ∧ last.log.outstanding = 1 := ⟨_, rfl, rfl⟩
  obtain ⟨trace, reached⟩ := run_reach (fun _ => trivial) 0 prog _ called finished
  refine ⟨trace, _, reached, fun p => ?_, out⟩
  show upd (fun _ => ret ()) 0 (ret ()) p = (ret () : FsM Unit)
  by_cases same : p = 0
  · rw [same, upd_self]
  · rw [upd_ne same]

end Xv6
