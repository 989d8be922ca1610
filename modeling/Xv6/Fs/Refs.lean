import Mathlib.Algebra.Group.Pi.Basic
import Mathlib.Algebra.Order.Group.Int
import Mathlib.Tactic.Abel
import Xv6.Fs.TxBalance

set_option autoImplicit false

namespace Xv6

open Prog

def Mem.refs (m : Mem) (k : Nat) : Int := (m.icache k).ref

def Mem.locks (m : Mem) (k : Nat) : Bool := (m.icache k).locked

def one (k : Nat) : Nat → Int := fun j => if j = k then 1 else 0

structure Moves (m next : Mem) (d : Nat → Int) (l : Nat → Bool) : Prop where
  refs : next.refs = m.refs + d
  locks : next.locks = l

section

variable {m m' m'' : Mem} {d d' d'' : Nat → Int} {l l' : Nat → Bool} {k : Nat}

theorem moves_refl (m : Mem) : Moves m m 0 m.locks := ⟨(add_zero _).symm, rfl⟩

theorem moves_trans (first : Moves m m' d l) (second : Moves m' m'' d' l') (total : d'' = d + d') : Moves m m'' d'' l' := by
  refine ⟨?_, second.locks⟩
  rw [second.refs, first.refs, total, add_assoc]

theorem moves_holders (same : SameHolders m m') : Moves m m' 0 m.locks :=
  ⟨funext fun k => by rw [add_zero]; exact same.ref k, funext same.locked⟩

theorem moves_set (m : Mem) (k : Nat) (ip : Inode) :
    Moves m (m.setInode k ip) (fun j => if j = k then ip.ref - (m.icache k).ref else 0) (upd m.locks k ip.locked) := by
  refine ⟨funext fun j => ?_, funext fun j => ?_⟩
  · show (upd m.icache k ip j).ref = (m.icache j).ref + if j = k then ip.ref - (m.icache k).ref else 0
    by_cases here : j = k
    · rw [here, upd_self, if_pos rfl]
      omega
    · rw [upd_ne here, if_neg here, add_zero]
  · show (upd m.icache k ip j).locked = upd m.locks k ip.locked j
    by_cases here : j = k
    · rw [here, upd_self, upd_self]
    · rw [upd_ne here, upd_ne here]
      rfl

theorem moves_entry {ip : Inode} {l : Nat → Bool} (ref : ip.ref = (m.icache k).ref + d k) (other : ∀ j, j ≠ k → d j = 0)
    (lock : upd m.locks k ip.locked = l) : Moves m (m.setInode k ip) d l := by
  have set := moves_set m k ip
  refine ⟨set.refs.trans (congrArg (m.refs + ·) (funext fun j => ?_)), set.locks.trans lock⟩
  by_cases here : j = k
  · rw [here, if_pos rfl]
    omega
  · rw [if_neg here, other j here]

theorem locks_kept {ip : Inode} (same : ip.locked = (m.icache k).locked) : upd m.locks k ip.locked = m.locks := by
  rw [same]
  exact upd_same m.locks k

theorem moves_after (first : Moves m m' 0 m.locks) (later : Moves m' m'' d m'.locks) : Moves m m'' d m.locks :=
  ⟨by rw [later.refs, first.refs, add_zero], later.locks.trans first.locks⟩

def Found (m next : Mem) : Option (Nat × Nat) → Prop
  | none => Moves m next 0 m.locks
  | some (k, _) => Moves m next (one k) m.locks ∧ 1 ≤ next.refs k

theorem found_after {r : Option (Nat × Nat)} (first : Moves m m' 0 m.locks) (found : Found m' m'' r) : Found m m'' r := by
  cases r with
  | none => exact moves_after first found
  | some e => exact ⟨moves_after first found.1, found.2⟩

def Live (bad : String → Prop) (m : Mem) (k : Nat) : Prop := bad "ilock" → 1 ≤ m.refs k

def Reached (bad : String → Prop) (m next : Mem) (d : Nat → Int) : Option (Nat × Name) → Prop
  | none => Moves m next d m.locks
  | some (k, _) => Moves m next (d + one k) m.locks ∧ Live bad next k

theorem reached_after {bad : String → Prop} {r : Option (Nat × Name)} (first : Moves m m' d m.locks)
    (reached : Reached bad m' m'' d' r) (total : d'' = d + d') : Reached bad m m'' d'' r := by
  cases r with
  | none =>
    have later : Moves m' m'' d' m'.locks := reached
    rw [first.locks] at later
    exact moves_trans first later total
  | some e =>
    obtain ⟨later, live⟩ := reached
    rw [first.locks] at later
    exact ⟨moves_trans first later (by rw [total, add_assoc]), live⟩

theorem unlock_lock {l : Nat → Bool} (free : l k = false) : upd (upd l k true) k false = l := by
  rw [upd_twice, ← free]
  exact upd_same l k

theorem lock_put {m₁ m₂ m₃ : Mem} (free : m.locks k = false)
    (locked : Moves m m₁ 0 (upd m.locks k true)) (worked : Moves m₁ m₂ d m₁.locks)
    (dropped : Moves m₂ m₃ (-one k) (upd m₂.locks k false)) : Moves m m₃ (d - one k) m.locks := by
  rw [worked.locks, locked.locks, unlock_lock free] at dropped
  exact moves_trans (moves_trans locked worked rfl) dropped (by abel)

theorem one_self (k : Nat) : one k k = 1 := if_pos rfl

theorem one_ne {j : Nat} (different : j ≠ k) : one k j = 0 := if_neg different

end

section

variable {cond : Event FsOp Fs → Prop} {bad : String → Prop} {pid : Nat} {α : Type} {s : Fs}

abbrev Meets (cond : Event FsOp Fs → Prop) (bad : String → Prop) (pid : Nat) {α : Type} (c : FsM α) (s : Fs)
    (Q : α → Fs → Prop) : Prop := c.wp Op.exec cond bad pid s Q

theorem meets_mem {f : Mem → Res Mem α} (calm : ∀ msg, f s.mem = .panic msg → ¬ bad msg) :
    Meets cond bad pid (.lift (.mem f)) s fun r s' => ∃ m, f s.mem = .ok r m ∧ s' = { s with mem := m } := by
  refine wp_lift (fun r next executed => ?_) (fun msg stopped => calm msg (on_mem_panic stopped))
  exact on_mem_ok s next _ r executed

theorem meets_get (k : Nat) : Meets cond bad pid (getInode k) s fun r s' => r = s.mem.icache k ∧ s = s' :=
  fun _ => ⟨rfl, rfl⟩

theorem idup_moves (k : Nat) :
    Meets cond bad pid (idup k) s fun r s' => r = k ∧ Moves s.mem s'.mem (one k) s.mem.locks := by
  refine wp_call (meets_mem fun _ never => (by cases never)) ?_
  rintro _ s' ⟨m, result, rfl⟩
  cases result
  exact ⟨rfl, moves_entry (by rw [one_self]) (fun _ => one_ne) (locks_kept rfl)⟩

variable (only : ∀ msg, bad msg → msg ∈ refPanics)

include only

theorem meets_panic {msg : String} (calm : msg ∉ refPanics) {Q : α → Fs → Prop} : Meets cond bad pid (kpanic msg) s Q :=
  fun never => calm (only msg never)

theorem meets_contents {c : FsM α} (each : c.Each ContentLevel) :
    Meets cond bad pid c s fun _ s' => SameHolders s.mem s'.mem := by
  refine wp_each (R := fun s s' => SameHolders s.mem s'.mem) (fun s => same_holders_refl s.mem) ?_ ?_ ?_ each s
  · intro s t u first second
    exact ⟨⟨second.tables.1.trans first.tables.1, second.tables.2.trans first.tables.2⟩,
      fun k => (second.inum k).trans (first.inum k), fun k => (second.ref k).trans (first.ref k),
      fun k => (second.locked k).trans (first.locked k)⟩
  · exact fun act s next r level executed => (relates_keeps same_holders_refl act level s next r executed).1
  · intro γ act s msg level stopped never
    cases act with
    | mem f =>
      have leaves := level s.mem
      rw [on_mem_panic stopped] at leaves
      exact leaves (only msg never)
    | buf b f =>
      have leaves := level (s.cache b) s.mem
      rcases on_buf_panic stopped with own | ⟨_, _, _, -, full⟩
      · rw [own] at leaves
        exact leaves (only msg never)
      · rcases log_write_panic full with ⟨rfl, -⟩ | ⟨rfl, -⟩
        · exact absurd (only _ never) (by decide)
        · exact absurd (only _ never) (by decide)
    | probe note => cases stopped
    | _ => exact level.elim

theorem contents_move {c : FsM α} (each : c.Each ContentLevel) :
    Meets cond bad pid c s fun _ s' => Moves s.mem s'.mem 0 s.mem.locks :=
  wp_mono (meets_contents only each) fun _ _ same => moves_holders same

theorem iget_moves (inum : Nat) :
    Meets cond bad pid (iget inum) s fun k s' => Moves s.mem s'.mem (one k) s.mem.locks ∧ 1 ≤ s'.mem.refs k := by
  refine wp_mono (meets_mem fun msg stopped never => ?_) ?_
  · dsimp only at stopped
    split at stopped
    · cases stopped
    · split at stopped
      · cases stopped
      · cases stopped
        exact absurd (only _ never) (by decide)
  · rintro k s' ⟨m, result, rfl⟩
    dsimp only at result
    split at result
    case h_1 _ found =>
      cases result
      have held := List.find?_some found
      rw [decide_eq_true_eq] at held
      have moves : Moves s.mem (s.mem.setInode k { s.mem.icache k with ref := (s.mem.icache k).ref + 1 }) (one k) s.mem.locks :=
        moves_entry (by rw [one_self]) (fun _ => one_ne) (locks_kept rfl)
      refine ⟨moves, ?_⟩
      rw [moves.refs, Pi.add_apply, one_self]
      exact Int.le_add_of_nonneg_left (Int.le_of_lt held.1)
    case h_2 =>
      split at result
      case h_1 _ found =>
        cases result
        have unused := List.find?_some found
        rw [decide_eq_true_eq] at unused
        have moves : Moves s.mem (s.mem.setInode k { s.mem.icache k with inum := inum, ref := 1, valid := false, busy := false })
            (one k) s.mem.locks := moves_entry (by rw [unused, one_self]; rfl) (fun _ => one_ne) (locks_kept rfl)
        refine ⟨moves, ?_⟩
        rw [moves.refs, Pi.add_apply, one_self, Mem.refs, unused]
        decide
      case h_2 => cases result

theorem ilock_moves {sb : Superblock} {p k : Nat} (live : Live bad s.mem k) :
    Meets cond bad pid (ilock sb p k) s fun _ s' => s.mem.locks k = false ∧ Moves s.mem s'.mem 0 (upd s.mem.locks k true) := by
  refine wp_call (meets_get k) ?_
  rintro ip _ ⟨rfl, rfl⟩
  split
  case isTrue unheld =>
    intro never
    have held := live never
    unfold Mem.refs at held
    omega
  case isFalse =>
    refine wp_call (meets_mem fun msg stopped => ?_) ?_
    · split at stopped <;> cases stopped
    · rintro _ s' ⟨m, result, rfl⟩
      split at result
      case isTrue => cases result
      case isFalse unlocked =>
        cases result
        have free : s.mem.locks k = false := Bool.eq_false_iff.mpr unlocked
        have taken : Moves s.mem (s.mem.setInode k { s.mem.icache k with locked := true, pid := p }) 0 (upd s.mem.locks k true) :=
          moves_entry (add_zero _).symm (fun _ _ => rfl) rfl
        refine wp_call (meets_get k) ?_
        rintro ip _ ⟨rfl, rfl⟩
        split
        case isTrue => exact ⟨free, taken⟩
        case isFalse =>
          refine wp_mono (contents_move only ?_) fun _ last rest => ⟨free, ?_⟩
          · refine each_bind (each_lift fun _ _ => same_holders_set rfl rfl rfl) (fun _ =>
              each_bind (each_lift fun _ => same_holders_set rfl rfl rfl) (fun _ => each_bind (get_inode_contents k) (fun ip => ?_)))
            split
            · exact kpanic_contents (by decide)
            · trivial
          · rw [← taken.locks]
            exact moves_trans taken rest (add_zero 0).symm

theorem iunlock_moves (k : Nat) : Meets cond bad pid (iunlock k) s fun _ s' =>
    s.mem.locks k = true ∧ 1 ≤ s.mem.refs k ∧ Moves s.mem s'.mem 0 (upd s.mem.locks k false) := by
  refine wp_call (meets_get k) ?_
  rintro ip _ ⟨rfl, rfl⟩
  split
  case isTrue => exact meets_panic only (by decide)
  case isFalse held =>
    rw [Bool.or_eq_true, Bool.not_eq_true', decide_eq_true_eq, not_or, Bool.not_eq_false, Int.not_lt] at held
    refine wp_mono (meets_mem fun _ never => (by cases never)) ?_
    rintro _ s' ⟨m, result, rfl⟩
    cases result
    exact ⟨held.1, held.2, moves_entry (add_zero _).symm (fun _ _ => rfl) rfl⟩

variable (sb : Superblock)

theorem iput_moves (k : Nat) :
    Meets cond bad pid (iput sb k) s fun _ s' => Moves s.mem s'.mem (-one k) s.mem.locks := by
  have dropped (m : Mem) (ip : Inode) (ref : ip.ref = (m.icache k).ref - 1) (lock : ip.locked = (m.icache k).locked) :
      Moves m (m.setInode k ip) (-one k) m.locks := by
    refine moves_entry ?_ (fun j different => ?_) (locks_kept lock)
    · rw [ref, Pi.neg_apply, one_self]
      rfl
    · rw [Pi.neg_apply, one_ne different]
      rfl
  refine wp_call (meets_mem fun msg stopped never => ?_) ?_
  · split at stopped
    · split at stopped
      · cases stopped
        exact absurd (only _ never) (by decide)
      · cases stopped
    · cases stopped
  · rintro free s' ⟨m, result, rfl⟩
    split at result
    case isFalse =>
      cases result
      exact dropped _ _ rfl rfl
    case isTrue =>
      split at result
      case isTrue => cases result
      case isFalse =>
        cases result
        rw [if_pos rfl]
        have marked : Moves s.mem (s.mem.setInode k { s.mem.icache k with busy := true }) 0 s.mem.locks :=
          moves_holders (same_holders_set rfl rfl rfl)
        have body : (do
            probe (.freeing k)
            iputContents sb k
            modDin k fun d => { d with type := 0 }
            iupdate sb k : FsM Unit).Each ContentLevel :=
          each_bind (each_lift (by simp [Relates])) (fun _ => each_bind (iput_contents sb k) (fun _ =>
            each_bind (mod_din_contents k _) (fun _ => iupdate_contents sb k)))
        have split_ : iputFree sb k = (do
            probe (.freeing k)
            iputContents sb k
            modDin k fun d => { d with type := 0 }
            iupdate sb k : FsM Unit) >>= fun _ => iputDone k := by
          simp only [iputFree, bind_assoc]
        rw [split_]
        refine wp_call (contents_move only body) fun _ s₁ worked => ?_
        refine wp_mono (meets_mem fun _ never => (by cases never)) ?_
        rintro _ s₂ ⟨m, result, rfl⟩
        cases result
        have last := dropped s₁.mem { s₁.mem.icache k with valid := false, busy := false, ref := (s₁.mem.icache k).ref - 1 } rfl rfl
        rw [worked.locks, marked.locks] at last
        exact moves_trans (moves_trans marked worked rfl) last (by rw [add_zero, zero_add])

theorem iunlockput_moves (k : Nat) : Meets cond bad pid (iunlockput sb k) s fun _ s' =>
    s.mem.locks k = true ∧ Moves s.mem s'.mem (-one k) (upd s.mem.locks k false) := by
  refine wp_call (iunlock_moves only k) ?_
  rintro _ s₁ ⟨locked, -, unlocked⟩
  refine wp_mono (iput_moves only sb k) fun _ s₂ dropped => ⟨locked, ?_⟩
  rw [← unlocked.locks]
  exact moves_trans unlocked dropped (zero_add _).symm

theorem relock_moves {c : FsM α} (sb : Superblock) (p k : Nat) (each : c.Each ContentLevel) :
    Meets cond bad pid (iunlock k >>= fun _ => c >>= fun a => ilock sb p k >>= fun _ => pure a) s
      fun _ s' => Moves s.mem s'.mem 0 s.mem.locks := by
  refine wp_call (iunlock_moves only k) ?_
  rintro _ s₁ ⟨locked, held, unlocked⟩
  refine wp_call (contents_move only each) fun a s₂ moves => ?_
  have live : Live bad s₂.mem k := fun _ => by
    rw [moves.refs, unlocked.refs, add_zero, add_zero]
    exact held
  refine wp_call (ilock_moves only live) ?_
  rintro _ s₃ ⟨-, locks⟩
  have back : upd s₂.mem.locks k true = s.mem.locks := by
    rw [moves.locks, unlocked.locks, upd_twice, ← locked]
    exact upd_same _ _
  rw [back] at locks
  exact moves_trans (moves_trans unlocked moves rfl) locks (by rw [add_zero, add_zero])

theorem consoleread_moves (p k n : Nat) :
    Meets cond bad pid (consoleread sb p k n) s fun _ s' => Moves s.mem s'.mem 0 s.mem.locks := by
  have body : (do
      let r ← choose
      let bytes ← chooseBytes (min n (r - 1))
      pure (if r = 0 then none else some bytes) : FsM (Option (List UInt8))).Each ContentLevel :=
    each_bind choose_contents (fun _ => each_bind (choose_bytes_contents _) (fun _ => trivial))
  exact relock_moves only sb p k body

theorem readi_moves (p k off n : Nat) :
    Meets cond bad pid (readi sb p k off n) s fun _ s' => Moves s.mem s'.mem 0 s.mem.locks := by
  refine wp_call (meets_get k) ?_
  rintro ip _ ⟨rfl, rfl⟩
  split
  · split
    · exact moves_refl _
    · exact consoleread_moves only sb p k n
  · split
    · exact moves_refl _
    · split
      · exact moves_refl _
      · exact contents_move only (each_bind (readi_loop_contents sb k _ _ _ _) (fun _ => trivial))

theorem read_dirent_moves (p k off : Nat) {msg : String} (calm : msg ∉ refPanics) :
    Meets cond bad pid (readDirent sb p k off msg) s fun _ s' => Moves s.mem s'.mem 0 s.mem.locks := by
  refine wp_call (readi_moves only sb p k off 16) fun bytes s₁ moves => ?_
  cases bytes with
  | none => exact meets_panic only calm
  | some bytes =>
    dsimp only
    split
    · exact moves
    · exact meets_panic only calm

theorem dirlookup_moves (p k : Nat) (name : Name) :
    Meets cond bad pid (dirlookup sb p k name) s fun r s' => Found s.mem s'.mem r := by
  have search (off left : Nat) (s : Fs) :
      Meets cond bad pid (dirlookupFrom sb p k name off left) s fun r s' => Found s.mem s'.mem r := by
    induction left generalizing off s with
    | zero => exact moves_refl s.mem
    | succ left ih =>
      refine wp_call (read_dirent_moves only sb p k off (by decide)) fun de s₁ moves => ?_
      split
      · exact wp_mono (ih (off + 16) s₁) fun r s' found => found_after moves found
      · split
        · refine wp_call (iget_moves only de.inum) fun ip s₂ got => ?_
          exact found_after (r := some (ip, off)) moves got
        · exact wp_mono (ih (off + 16) s₁) fun r s' found => found_after moves found
  refine wp_call (meets_get k) ?_
  rintro dp _ ⟨rfl, rfl⟩
  split
  · exact meets_panic only (by decide)
  · exact search 0 _ s

theorem namex_loop_moves (p : Nat) (parent : Bool) (left ip : Nat) (path : Path) (live : Live bad s.mem ip) :
    Meets cond bad pid (namexLoop sb p parent left ip path) s fun r s' => Reached bad s.mem s'.mem (-one ip) r := by
  have stop (ip : Nat) (s : Fs) (live : Live bad s.mem ip) : Meets cond bad pid (if parent then do
      iput sb ip
      pure none
    else pure (some (ip, [])) : FsM (Option (Nat × Name))) s fun r s' => Reached bad s.mem s'.mem (-one ip) r := by
    split
    · exact wp_call (iput_moves only sb ip) fun _ s₁ dropped => dropped
    · refine ⟨?_, live⟩
      rw [neg_add_cancel]
      exact moves_refl _
  induction left generalizing ip path s with
  | zero => exact stop ip s live
  | succ left ih =>
    unfold namexLoop
    cases skipelem path with
    | none => exact stop ip s live
    | some elem =>
      refine wp_call (ilock_moves only live) ?_
      rintro _ s₁ ⟨free, locked⟩
      refine wp_call (meets_get ip) ?_
      rintro node _ ⟨rfl, rfl⟩
      split
      · refine wp_call (iunlockput_moves only sb ip) ?_
        rintro _ s₂ ⟨-, dropped⟩
        have moves := lock_put free locked (moves_refl s₁.mem) dropped
        rw [zero_sub] at moves
        exact moves
      · split
        · refine wp_call (iunlock_moves only ip) ?_
          rintro _ s₂ ⟨-, held, unlocked⟩
          rw [locked.locks, unlock_lock free] at unlocked
          refine ⟨moves_trans locked unlocked (by rw [neg_add_cancel, add_zero]), fun _ => ?_⟩
          rw [unlocked.refs, add_zero]
          exact held
        · refine wp_call (dirlookup_moves only sb p ip elem.1) fun next s₂ found => ?_
          cases next with
          | none =>
            refine wp_call (iunlockput_moves only sb ip) ?_
            rintro _ s₃ ⟨-, dropped⟩
            have moves := lock_put free locked found dropped
            rw [zero_sub] at moves
            exact moves
          | some next =>
            obtain ⟨got, held⟩ := found
            refine wp_call (iunlockput_moves only sb ip) ?_
            rintro _ s₃ ⟨-, dropped⟩
            have moves := lock_put free locked got dropped
            -- next may be ip itself, which was held before
            have live' : Live bad s₃.mem next.1 := by
              intro excluded
              by_cases same : next.1 = ip
              · have first := live excluded
                rw [moves.refs, same, Pi.add_apply, sub_self, Pi.zero_apply, add_zero]
                exact first
              · rw [dropped.refs, Pi.add_apply, Pi.neg_apply, one_ne same]
                omega
            refine wp_mono (ih next.1 elem.2 live') fun r s₄ reached => ?_
            exact reached_after moves reached (by abel)

def KnownCwd (bad : String → Prop) (m : Mem) (p : Nat) : Prop := ∀ k, (m.proc p).cwd = some k → bad "ilock" → 0 ≤ m.refs k

theorem namex_moves (p : Nat) (path : Path) (parent : Bool) (known : KnownCwd bad s.mem p) :
    Meets cond bad pid (namex sb p path parent) s fun r s' => Reached bad s.mem s'.mem 0 r := by
  have start : Meets cond bad pid (namexStart p path) s fun k s' => Moves s.mem s'.mem (one k) s.mem.locks ∧ Live bad s'.mem k := by
    unfold namexStart
    split
    · exact wp_mono (iget_moves only rootino) fun k s₁ got => ⟨got.1, fun _ => got.2⟩
    · refine wp_call (c := getCwd p) (P := fun r s' => r = (s.mem.proc p).cwd ∧ s = s') (fun _ => ⟨rfl, rfl⟩) ?_
      rintro cwd _ ⟨which, rfl⟩
      cases cwd with
      | none => exact meets_panic only (by decide)
      | some cwd =>
        refine wp_mono (idup_moves cwd) ?_
        rintro _ s₁ ⟨rfl, moves⟩
        refine ⟨moves, fun excluded => ?_⟩
        have held := known _ which.symm excluded
        rw [moves.refs, Pi.add_apply, one_self]
        omega
  refine wp_call start ?_
  rintro ip s₁ ⟨got, live⟩
  refine wp_mono (namex_loop_moves only sb p parent _ ip path live) fun r s₂ reached => ?_
  exact reached_after got reached (by abel)

theorem namei_moves (p : Nat) (path : Path) (known : KnownCwd bad s.mem p) :
    Meets cond bad pid (namei sb p path) s fun r s' =>
      match r with
      | none => Moves s.mem s'.mem 0 s.mem.locks
      | some k => Moves s.mem s'.mem (one k) s.mem.locks ∧ Live bad s'.mem k := by
  refine wp_call (namex_moves only sb p path false known) fun r s₁ reached => ?_
  cases r with
  | none => exact reached
  | some found =>
    obtain ⟨moves, live⟩ := reached
    rw [zero_add] at moves
    exact ⟨moves, live⟩

theorem load_segments_moves (p ip left : Nat) :
    Meets cond bad pid (loadSegments sb p ip left) s fun _ s' => Moves s.mem s'.mem 0 s.mem.locks := by
  have pages (left : Nat) (s : Fs) :
      Meets cond bad pid (loaduvm sb p ip left) s fun _ s' => Moves s.mem s'.mem 0 s.mem.locks := by
    induction left generalizing s with
    | zero => exact moves_refl _
    | succ left ih =>
      refine wp_call (contents_move only choose_contents) fun off s₁ first => ?_
      refine wp_call (contents_move only choose_contents) fun n s₂ second => ?_
      refine wp_call (readi_moves only sb p ip off n) fun bytes s₃ read => ?_
      have moves := moves_after (moves_after first second) read
      split
      · exact wp_mono (ih s₃) fun _ s₄ later => moves_after moves later
      · exact moves
  induction left generalizing s with
  | zero => exact moves_refl _
  | succ left ih =>
    refine wp_call (contents_move only choose_contents) fun off s₁ first => ?_
    refine wp_call (readi_moves only sb p ip off 32) fun ph s₂ read => ?_
    refine wp_call (contents_move only choose_contents) fun progLoad s₃ second => ?_
    have moves := moves_after (moves_after first read) second
    split
    · exact moves
    · split
      · exact wp_mono ih fun _ s₄ later => moves_after moves later
      · refine wp_call (contents_move only choose_contents) fun sane s₄ third => ?_
        refine wp_call (contents_move only choose_contents) fun count s₅ fourth => ?_
        have moves := moves_after moves (moves_after third fourth)
        refine wp_call (P := fun _ s' => Moves s₅.mem s'.mem 0 s₅.mem.locks) ?_ fun loaded s₆ fifth => ?_
        · unfold loadPages
          split
          · exact moves_refl _
          · exact pages count s₅
        · have moves := moves_after moves fifth
          split
          · exact wp_mono ih fun _ s₇ later => moves_after moves later
          · exact moves

end

section

variable {cond : Event FsOp Fs → Prop} {bad : String → Prop} {pid : Nat} {α : Type} {s s₁ s₂ : Fs} {Q : α → Fs → Prop}

theorem meets_level {c : FsM α} (level : c.Each InodeLevel) (meets : Meets cond bad pid c s Q) : Meets cond bad pid c s
    fun a s' => Q a s' ∧ SameTables s.mem s'.mem ∧ s'.log.outstanding = s.log.outstanding := by
  have kept : Meets cond (fun _ => False) pid c s fun _ s' =>
      SameTables s.mem s'.mem ∧ s'.log.outstanding = s.log.outstanding := by
    refine wp_each (R := fun s s' => SameTables s.mem s'.mem ∧ s'.log.outstanding = s.log.outstanding)
      (fun _ => ⟨⟨rfl, rfl⟩, rfl⟩) ?_ ?_ ?_ level s
    · intro s t u first second
      exact ⟨⟨second.1.1.trans first.1.1, second.1.2.trans first.1.2⟩, second.2.trans first.2⟩
    · exact fun act s next r level executed => inode_level_keeps act level s next r executed
    · exact fun _ _ _ _ _ never => never
  exact wp_and meets kept

theorem begin_op_meets :
    Meets cond bad pid beginOp s fun _ s' => s'.mem = s.mem ∧ s'.log.outstanding = s.log.outstanding + 1 := by
  refine wp_lift (fun _ next started => ?_) (fun msg stopped => ?_)
  · obtain ⟨-, rfl⟩ := begin_op_ok s next started
    exact ⟨rfl, rfl⟩
  · unfold Op.exec Sys.beginOp at stopped
    dsimp only at stopped
    split at stopped
    · cases stopped
    · split at stopped <;> cases stopped

theorem end_op_meets (only : ∀ msg, bad msg → msg ∈ refPanics) :
    Meets cond bad pid endOp s fun _ s' => s'.mem = s.mem ∧ s'.log.outstanding = s.log.outstanding - 1 := by
  have commits (s : Fs) : Meets cond bad pid commit s fun _ s' => s'.mem = s.mem ∧ s'.log.outstanding = s.log.outstanding := by
    refine wp_each (R := fun s s' : Fs => s'.mem = s.mem ∧ s'.log.outstanding = s.log.outstanding) (fun _ => ⟨rfl, rfl⟩)
      (fun _ _ _ first second => ⟨second.1.trans first.1, second.2.trans first.2⟩) ?_ ?_ commit_each s
    · intro γ act s next r kind executed
      cases act with
      | clearLog | lhN | writeHead | writeLog | install =>
        cases executed
        exact ⟨rfl, rfl⟩
      | _ => cases kind
    · intro γ act s msg kind stopped
      cases act with
      | clearLog | lhN | writeHead | writeLog | install => cases stopped
      | _ => cases kind
  refine wp_call (wp_lift (fun r next ended => end_op_ok s next r ended) (fun msg stopped never => ?_)) ?_
  · unfold Op.exec Sys.endOp at stopped
    dsimp only at stopped
    split at stopped
    · cases stopped
      exact absurd (only _ never) (by decide)
    · split at stopped <;> cases stopped
  · rintro doCommit _ ⟨-, -, rfl⟩
    cases doCommit with
    | false => exact ⟨rfl, rfl⟩
    | true =>
      refine wp_call (commits _) fun _ s₁ same => ?_
      exact fun _ => same

structure Inside (s s' : Fs) (d : Nat → Int) (l : Nat → Bool) : Prop where
  moves : Moves s.mem s'.mem d l
  tables : SameTables s.mem s'.mem
  outstanding : s'.log.outstanding = s.log.outstanding + 1

theorem inside_begin (started : s₁.mem = s.mem ∧ s₁.log.outstanding = s.log.outstanding + 1) : Inside s s₁ 0 s.mem.locks := by
  refine ⟨?_, ?_, started.2⟩
  · rw [started.1]
    exact moves_refl _
  · rw [started.1]
    exact ⟨rfl, rfl⟩

section

variable {d d' : Nat → Int} {l l' : Nat → Bool} {k : Nat}

def Level (s s' : Fs) : Prop := SameTables s.mem s'.mem ∧ s'.log.outstanding = s.log.outstanding

theorem inside_step (inside : Inside s s₁ d l) (moves : Moves s₁.mem s₂.mem d' l') (level : Level s₁ s₂) :
    Inside s s₂ (d + d') l' := by
  refine ⟨moves_trans inside.moves moves rfl, ?_, level.2.trans inside.outstanding⟩
  exact ⟨level.1.1.trans inside.tables.1, level.1.2.trans inside.tables.2⟩

theorem inside_take (inside : Inside s s₁ 0 l) (moves : Moves s₁.mem s₂.mem (one k) s₁.mem.locks) (level : Level s₁ s₂) :
    Inside s s₂ (one k) l := by
  rw [inside.moves.locks] at moves
  have step := inside_step inside moves level
  rwa [zero_add] at step

theorem inside_keep (inside : Inside s s₁ d l) (moves : Moves s₁.mem s₂.mem 0 s₁.mem.locks) (level : Level s₁ s₂) :
    Inside s s₂ d l := by
  rw [inside.moves.locks] at moves
  have step := inside_step inside moves level
  rwa [add_zero] at step

theorem inside_lock (inside : Inside s s₁ d l) (moves : Moves s₁.mem s₂.mem 0 (upd s₁.mem.locks k true)) (level : Level s₁ s₂) :
    Inside s s₂ d (upd l k true) := by
  rw [inside.moves.locks] at moves
  have step := inside_step inside moves level
  rwa [add_zero] at step

theorem inside_put (free : l k = false) (inside : Inside s s₁ d (upd l k true))
    (moves : Moves s₁.mem s₂.mem (-one k) (upd s₁.mem.locks k false)) (level : Level s₁ s₂) : Inside s s₂ (d - one k) l := by
  rw [inside.moves.locks, unlock_lock free] at moves
  have step := inside_step inside moves level
  rwa [← sub_eq_add_neg] at step

end

structure Traceless (s s' : Fs) : Prop where
  refs : s'.mem.refs = s.mem.refs
  locks : s'.mem.locks = s.mem.locks
  tables : SameTables s.mem s'.mem
  outstanding : s'.log.outstanding = s.log.outstanding

theorem traceless_end (only : ∀ msg, bad msg → msg ∈ refPanics) (inside : Inside s s₁ 0 s.mem.locks) {c : FsM α}
    {Q : α → Fs → Prop} (rest : ∀ s₂, Traceless s s₂ → Meets cond bad pid c s₂ Q) :
    Meets cond bad pid (endOp >>= fun _ => c) s₁ Q := by
  refine wp_call (end_op_meets only) ?_
  rintro _ s₂ ⟨same, outstanding⟩
  obtain ⟨moves, tables, open_⟩ := inside
  refine rest s₂ ⟨?_, ?_, ?_, ?_⟩
  · rw [same, moves.refs, add_zero]
  · rw [same, moves.locks]
  · rw [same]
    exact tables
  · rw [outstanding, open_]
    omega

theorem exec_traceless (only : ∀ msg, bad msg → msg ∈ refPanics) (sb : Superblock) (p : Nat) (path : Path)
    (known : KnownCwd bad s.mem p) : Meets cond bad pid (exec sb p path) s fun _ s' => Traceless s s' := by
  refine wp_call begin_op_meets fun _ s₁ started => ?_
  have inside := inside_begin started
  have known₁ : KnownCwd bad s₁.mem p := by
    rw [started.1]
    exact known
  refine wp_call (meets_level (namei_level sb p path) (namei_moves only sb p path known₁)) ?_
  rintro ip s₂ ⟨found, level⟩
  cases ip with
  | none => exact traceless_end only (inside_keep inside found level) fun _ traceless => traceless
  | some ip =>
    obtain ⟨got, live⟩ := found
    have inside := inside_take inside got level
    refine wp_call (meets_level (ilock_level sb p ip) (ilock_moves only live)) ?_
    rintro _ s₃ ⟨⟨free, locked⟩, level⟩
    rw [inside.moves.locks] at free
    have inside := inside_lock inside locked level
    -- label bad with the inode still locked
    have bad_ (s₄ : Fs) (inside : Inside s s₄ (one ip) (upd s.mem.locks ip true)) :
        Meets cond bad pid (iunlockput sb ip >>= fun _ => endOp >>= fun _ => (pure (-1) : FsM Int)) s₄
          fun _ s' => Traceless s s' := by
      refine wp_call (meets_level (iunlockput_level sb ip) (iunlockput_moves only sb ip)) ?_
      rintro _ s₅ ⟨⟨-, dropped⟩, level⟩
      have inside := inside_put free inside dropped level
      rw [sub_self] at inside
      exact traceless_end only inside fun _ traceless => traceless
    refine wp_call (meets_level (readi_level sb p ip 0 52) (readi_moves only sb p ip 0 52)) ?_
    rintro elf s₄ ⟨read, level⟩
    have inside := inside_keep inside read level
    refine wp_call (meets_level choose_level (contents_move only choose_contents)) ?_
    rintro accepted s₅ ⟨chosen, level⟩
    have inside := inside_keep inside chosen level
    split
    · exact bad_ s₅ inside
    · refine wp_call (meets_level choose_level (contents_move only choose_contents)) ?_
      rintro phnum s₆ ⟨chosen, level⟩
      have inside := inside_keep inside chosen level
      refine wp_call (meets_level (load_segments_level sb p ip phnum) (load_segments_moves only sb p ip phnum)) ?_
      rintro loaded s₇ ⟨loads, level⟩
      have inside := inside_keep inside loads level
      split
      · exact bad_ s₇ inside
      · refine wp_call (meets_level (iunlockput_level sb ip) (iunlockput_moves only sb ip)) ?_
        rintro _ s₈ ⟨⟨-, dropped⟩, level⟩
        have inside := inside_put free inside dropped level
        rw [sub_self] at inside
        refine traceless_end only inside fun s₉ traceless => ?_
        refine wp_call (meets_level choose_level (contents_move only choose_contents)) ?_
        rintro stack s' ⟨moves, tables, outstanding⟩
        have last : Traceless s s' := by
          refine ⟨?_, moves.locks.trans traceless.locks, ?_, outstanding.trans traceless.outstanding⟩
          · rw [moves.refs, add_zero, traceless.refs]
          · exact ⟨tables.1.trans traceless.tables.1, tables.2.trans traceless.tables.2⟩
        split
        · exact last
        · exact last

end

end Xv6
