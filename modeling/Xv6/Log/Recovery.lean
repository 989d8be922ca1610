import Mathlib.Data.List.GetD
import Xv6.Log.Model

set_option autoImplicit false

namespace Xv6

theorem put_entries_below (data : Block) (i : Nat) (lh : List Nat) (off k : Nat) (below : off + k ≤ 4 + 4 * i) :
    (putEntries data i lh).getLE off k = data.getLE off k := by
  induction lh generalizing data i with
  | nil => rfl
  | cons b rest ih =>
    rw [putEntries, ih _ (i + 1) (by omega)]
    exact Buf.getLE_putLE_outside data _ 4 b off k (Or.inl below)

theorem put_entries_at (data : Block) (i : Nat) (lh : List Nat) (j : Nat) (fits : 4 + 4 * (i + lh.length) ≤ 512)
    (bound : j < lh.length) (wide : ∀ b ∈ lh, b < 2 ^ 32) :
    (putEntries data i lh).getLE (4 + 4 * (i + j)) 4 = lh.getD j 0 := by
  induction lh generalizing data i j with
  | nil => simp at bound
  | cons b rest ih =>
    simp only [List.length_cons] at fits bound
    cases j with
    | zero =>
      have small : b < 256 ^ 4 := wide b (by simp)
      rw [putEntries, put_entries_below _ _ _ _ _ (by omega)]
      rw [Nat.add_zero, Buf.getLE_putLE data _ 4 b (by simp only [bsize]; omega)]
      simpa using Nat.mod_eq_of_lt small
    | succ j =>
      have later := ih (data.putLE (4 + 4 * i) 4 b) (i + 1) j (by omega) (by omega)
        (fun x member => wide x (by simp [member]))
      rw [putEntries, show i + (j + 1) = i + 1 + j by omega, later, List.getD_cons_succ]

theorem get_header_empty (data : Block) (empty : data.getLE 0 4 = 0) : getHeader data = [] := by
  simp [getHeader, headerCount, empty]

theorem get_header_put (data : Block) (lh : List Nat) (short : lh.length ≤ logsize)
    (wide : ∀ b ∈ lh, b < 2 ^ 32) : getHeader (putHeader data lh) = lh := by
  have count : headerCount (putHeader data lh) = lh.length := by
    have stored : (putHeader data lh).getLE 0 4 = lh.length := by
      rw [putHeader, put_entries_below _ _ _ _ _ (by omega), Buf.getLE_putLE _ _ _ _ (by simp only [bsize]; omega)]
      exact Nat.mod_eq_of_lt (by simp only [logsize, maxopblocks] at short; omega)
    rw [headerCount, stored, if_pos (by simp only [logsize, maxopblocks] at short; omega)]
  apply List.ext_getElem
  · simp [getHeader, count]
  · intro j left right
    have entry := put_entries_at (data.putLE 0 4 lh.length) 0 lh j
      (by simp only [logsize, maxopblocks] at short; omega) right wide
    rw [Nat.zero_add] at entry
    simp only [getHeader, List.getElem_map, List.getElem_range]
    rw [putHeader, entry, List.getD_eq_getElem]

-- Block numbers are 32-bit; home blocks are those outside the log area.
def Home (start size b : Nat) : Prop := b < 2 ^ 32 ∧ (b < start ∨ start + size ≤ b)

-- Each block listed in the on-disk header has its contents in the log, the others are in place.
structure Represents (start size : Nat) (disk v : Nat → Block) : Prop where
  room : (getHeader (disk start)).length < size
  home : ∀ b ∈ getHeader (disk start), Home start size b
  copies : ∀ i < (getHeader (disk start)).length, disk (start + i + 1) = v ((getHeader (disk start)).getD i 0)
  rest : ∀ b, Home start size b → b ∉ getHeader (disk start) → disk b = v b

structure Settled (start size : Nat) (disk v : Nat → Block) : Prop where
  room : 0 < size
  empty : (disk start).getLE 0 4 = 0
  inPlace : ∀ b, Home start size b → disk b = v b

theorem getD_mem (l : List Nat) (i : Nat) (bound : i < l.length) : l.getD i 0 ∈ l := by
  rw [List.getD_eq_getElem l 0 bound]
  exact List.getElem_mem bound

theorem home_ne_start (start size b : Nat) (home : Home start size b) (room : 0 < size) : b ≠ start := by
  rcases home.2 with below | above
  · omega
  · omega

theorem home_ne_log (start size b i : Nat) (home : Home start size b) (inside : i + 1 < size) : b ≠ start + i + 1 := by
  rcases home.2 with below | above
  · omega
  · omega

theorem settled_represents (start size : Nat) (disk v : Nat → Block) (settled : Settled start size disk v) :
    Represents start size disk v := by
  have header := get_header_empty _ settled.empty
  refine ⟨?_, ?_, ?_, ?_⟩
  · rw [header]
    exact settled.room
  · simp [header]
  · simp [header]
  · intro b home _
    exact settled.inPlace b home

theorem represents_congr (start size : Nat) (disk v w : Nat → Block) (rep : Represents start size disk v)
    (same : ∀ b, Home start size b → v b = w b) : Represents start size disk w := by
  refine ⟨rep.room, rep.home, ?_, ?_⟩
  · intro i bound
    rw [rep.copies i bound, same _ (rep.home _ (getD_mem _ i bound))]
  · intro b home outside
    rw [rep.rest b home outside, same b home]

theorem represents_install (start size : Nat) (disk v : Nat → Block) (b : Nat) (data : Block)
    (rep : Represents start size disk v) (listed : b ∈ getHeader (disk start)) :
    Represents start size (upd disk b data) v := by
  have room := rep.room
  have header : upd disk b data start = disk start :=
    upd_ne (home_ne_start start size b (rep.home b listed) (by omega)).symm
  refine ⟨?_, ?_, ?_, ?_⟩ <;> rw [header]
  · exact rep.room
  · exact rep.home
  · intro j bound
    rw [upd_ne (home_ne_log start size b j (rep.home b listed) (by omega)).symm]
    exact rep.copies j bound
  · intro c home outside
    rw [upd_ne (fun same : c = b => outside (same ▸ listed))]
    exact rep.rest c home outside

theorem represents_write_head (start size : Nat) (disk v : Nat → Block) (lh : List Nat) (data : Block)
    (header : getHeader data = lh) (room : lh.length < size) (home : ∀ b ∈ lh, Home start size b)
    (copies : ∀ i < lh.length, disk (start + i + 1) = v (lh.getD i 0))
    (rest : ∀ b, Home start size b → b ∉ lh → disk b = v b) : Represents start size (upd disk start data) v := by
  have stored : getHeader (upd disk start data start) = lh := by rw [upd_self, header]
  refine ⟨?_, ?_, ?_, ?_⟩ <;> rw [stored]
  · exact room
  · exact home
  · intro i bound
    rw [upd_ne (by omega)]
    exact copies i bound
  · intro b outer outside
    rw [upd_ne (home_ne_start start size b outer (by omega))]
    exact rest b outer outside

section

variable {M N : Type}

-- commit before its first write_head: the header on disk is empty, every block
-- modified in the cache is in the log list, and the first t of them are copied.
structure Copying (s : Sys M) (old : Nat → Block) (t : Nat) : Prop where
  settled : Settled s.log.start s.log.size s.disk old
  short : s.log.lh.length ≤ logsize
  room : s.log.lh.length < s.log.size
  home : ∀ b ∈ s.log.lh, Home s.log.start s.log.size b
  clean : ∀ b, Home s.log.start s.log.size b → b ∉ s.log.lh → s.cache b = s.disk b
  copied : ∀ i < t, s.disk (s.log.start + i + 1) = s.cache (s.log.lh.getD i 0) ∧
    s.cache (s.log.start + i + 1) = s.cache (s.log.lh.getD i 0)

-- install_trans: recovery would restore v, the buffers of the log blocks hold
-- the listed blocks of v, and the first t of them are at home.
structure Installing (s : Sys M) (v : Nat → Block) (t : Nat) : Prop where
  rep : Represents s.log.start s.log.size s.disk v
  listed : getHeader (s.disk s.log.start) = s.log.lh
  logged : ∀ i < s.log.lh.length, s.cache (s.log.start + i + 1) = v (s.log.lh.getD i 0)
  done : ∀ i < t, s.disk (s.log.lh.getD i 0) = v (s.log.lh.getD i 0)

structure Installed (s : Sys M) (v : Nat → Block) : Prop where
  rep : Represents s.log.start s.log.size s.disk v
  cleared : s.log.lh = []
  inPlace : ∀ b, Home s.log.start s.log.size b → s.disk b = v b

theorem copying_write_log (s : Sys M) (old : Nat → Block) (t : Nat) (copying : Copying s old t)
    (bound : t < s.log.lh.length) : Copying (s.writeLog t) old (t + 1) := by
  have room := copying.room
  have apart := home_ne_log s.log.start s.log.size
  have cacheHome (b : Nat) (home : Home s.log.start s.log.size b) :
      upd s.cache (s.log.start + t + 1) (s.cache (s.log.lh.getD t 0)) b = s.cache b :=
    upd_ne (apart b t home (by omega))
  refine ⟨⟨copying.settled.room, ?_, ?_⟩, copying.short, copying.room, copying.home, ?_, ?_⟩
  · show (upd s.disk _ _ s.log.start).getLE 0 4 = 0
    rw [upd_ne (by omega)]
    exact copying.settled.empty
  · intro b home
    show upd s.disk _ _ b = old b
    rw [upd_ne (apart b t home (by omega))]
    exact copying.settled.inPlace b home
  · intro b home outside
    show upd s.cache _ _ b = upd s.disk _ _ b
    rw [cacheHome b home, upd_ne (apart b t home (by omega))]
    exact copying.clean b home outside
  · intro i before
    show upd s.disk _ _ (s.log.start + i + 1) = upd s.cache _ _ (s.log.lh.getD i 0) ∧
      upd s.cache _ _ (s.log.start + i + 1) = upd s.cache _ _ (s.log.lh.getD i 0)
    rw [cacheHome _ (copying.home _ (getD_mem _ i (by omega)))]
    by_cases last : i = t
    · subst last
      simp only [upd_self, and_self]
    · rw [upd_ne (by omega), upd_ne (by omega)]
      exact copying.copied i (by omega)

theorem copying_write_head (s : Sys M) (old : Nat → Block) (copying : Copying s old s.log.lh.length) :
    Installing s.writeHead s.cache 0 := by
  have header := get_header_put (s.cache s.log.start) s.log.lh copying.short (fun b member => (copying.home b member).1)
  refine ⟨represents_write_head _ _ _ _ _ _ header copying.room copying.home ?_ ?_, ?_, ?_, by simp⟩
  · intro i bound
    exact (copying.copied i bound).1
  · intro b home outside
    exact (copying.clean b home outside).symm
  · show getHeader (upd s.disk _ _ s.log.start) = s.log.lh
    rw [upd_self, header]
  · intro i bound
    show upd s.cache _ _ (s.log.start + i + 1) = _
    rw [upd_ne (by omega)]
    exact (copying.copied i bound).2

theorem installing_install (s : Sys M) (v : Nat → Block) (t : Nat) (installing : Installing s v t)
    (bound : t < s.log.lh.length) : Installing (s.install t) v (t + 1) := by
  have room : s.log.lh.length < s.log.size := installing.listed ▸ installing.rep.room
  have member : s.log.lh.getD t 0 ∈ getHeader (s.disk s.log.start) := by
    rw [installing.listed]
    exact getD_mem _ t bound
  have home := installing.rep.home _ member
  have logged := installing.logged t bound
  refine ⟨represents_install _ _ _ _ _ _ installing.rep member, ?_, ?_, ?_⟩
  · show getHeader (upd s.disk _ _ s.log.start) = s.log.lh
    rw [upd_ne (home_ne_start _ _ _ home (by omega)).symm]
    exact installing.listed
  · intro i inside
    show upd s.cache _ _ (s.log.start + i + 1) = _
    have inside : i < s.log.lh.length := inside
    rw [upd_ne (home_ne_log _ _ _ i home (by omega)).symm]
    exact installing.logged i inside
  · intro i before
    show upd s.disk _ _ (s.log.lh.getD i 0) = v (s.log.lh.getD i 0)
    by_cases same : s.log.lh.getD i 0 = s.log.lh.getD t 0
    · rw [same, upd_self, logged]
    · rw [upd_ne same]
      have earlier : i < t := by
        rcases Nat.lt_succ_iff_lt_or_eq.mp before with lt | eq
        · exact lt
        · exact absurd (by rw [eq]) same
      exact installing.done i earlier

theorem installing_clear_log (s : Sys M) (v : Nat → Block) (installing : Installing s v s.log.lh.length) :
    Installed s.clearLog v := by
  refine ⟨installing.rep, rfl, ?_⟩
  intro b home
  show s.disk b = v b
  by_cases listed : b ∈ getHeader (s.disk s.log.start)
  · rw [installing.listed] at listed
    obtain ⟨i, bound, rfl⟩ := List.getElem_of_mem listed
    simpa only [List.getD_eq_getElem _ 0 bound] using installing.done i bound
  · exact installing.rep.rest b home listed

theorem installed_write_head (s : Sys M) (v : Nat → Block) (installed : Installed s v) :
    Settled s.log.start s.log.size s.writeHead.disk v := by
  have room := installed.rep.room
  refine ⟨by omega, ?_, ?_⟩
  · show (upd s.disk _ _ s.log.start).getLE 0 4 = 0
    rw [upd_self, installed.cleared]
    exact Buf.getLE_putLE _ 0 4 0 (by simp only [bsize]; omega)
  · intro b home
    show upd s.disk _ _ b = v b
    rw [upd_ne (home_ne_start _ _ b home (by omega))]
    exact installed.inPlace b home

theorem install_and_clear_along {pid : Nat} {P : List (Event (Op M N) (Sys M)) → Sys M → Prop} (start size : Nat)
    (v : Nat → Block) (holds : ∀ trace s, Represents start size s.disk v → P trace s)
    (trace : List (Event (Op M N) (Sys M))) (s : Sys M) (atStart : s.log.start = start) (atSize : s.log.size = size)
    (installing : Installing s v 0) :
    (installTrans >>= fun _ => .lift .clearLog >>= fun _ => writeHead : KProg M N Unit).Along Op.exec pid P
      (fun _ _ last => Settled start size last.disk v) trace s := by
  have now (t : Nat) (trace : List (Event (Op M N) (Sys M))) (s' : Sys M)
      (inv : Installing s' v t ∧ s'.log = s.log) : P trace s' := by
    apply holds
    rw [← atStart, ← atSize, ← inv.2]
    exact inv.1.rep
  apply Prog.along_bind
  refine ⟨now 0 trace s ⟨installing, rfl⟩, ?_⟩
  intro n middle counted
  cases counted
  refine Prog.along_mono (Prog.along_loop Op.install s.log.lh.length (fun t _ s' => Installing s' v t ∧ s'.log = s.log)
    now ?_ 0 _ (Nat.zero_add _) _ s ⟨installing, rfl⟩) ?_
  · intro t before s' next bound inv executed
    cases executed
    rw [← inv.2] at bound
    exact ⟨installing_install s' v t inv.1 bound, inv.2⟩
  · intro _ before s' inv
    have finished : Installing s' v s'.log.lh.length := inv.2 ▸ inv.1
    have installed := installing_clear_log s' v finished
    refine ⟨now _ before s' inv, ?_⟩
    intro _ cleared executed
    cases executed
    refine ⟨holds _ _ ?_, ?_⟩
    · rw [← atStart, ← atSize, ← inv.2]
      exact installed.rep
    · intro _ last executed
      cases executed
      have settled : Settled s'.log.start s'.log.size s'.clearLog.writeHead.disk v :=
        installed_write_head s'.clearLog v installed
      rw [inv.2, atStart, atSize] at settled
      exact ⟨holds _ _ (settled_represents _ _ _ _ settled), settled⟩

-- A machine that starts again has an empty buffer cache and a fresh struct log.
def reboot (start size : Nat) (m : M) (disk : Nat → Block) : Sys M where
  cache := disk
  disk := disk
  log := { start := start, size := size, outstanding := 0, committing := false, lh := [] }
  mem := m

theorem recover_along (pid start size : Nat) (m : M) (disk v : Nat → Block)
    (rep : Represents start size disk v) :
    (recoverFromLog : KProg M N Unit).Along Op.exec pid (fun _ s => Represents start size s.disk v)
      (fun _ _ last => Settled start size last.disk v) [] (reboot start size m disk) := by
  refine ⟨rep, ?_⟩
  intro _ next executed
  cases executed
  exact install_and_clear_along start size v (fun _ _ now => now) _ _ rfl rfl ⟨rep, rfl, rep.copies, by simp⟩

theorem install_loop_completes (i count : Nat) (s : Sys M) :
    ∃ last, (Prog.loop (fun tail => .lift (.install tail)) i count : KProg M N Unit).run Op.exec s = .ok () last := by
  induction count generalizing i s with
  | zero => exact ⟨s, rfl⟩
  | succ count ih => exact ih (i + 1) (s.install i)

theorem recover_completes (start size : Nat) (m : M) (disk : Nat → Block) :
    ∃ s, (recoverFromLog : KProg M N Unit).run Op.exec (reboot start size m disk) = .ok () s := by
  obtain ⟨middle, installed⟩ := install_loop_completes (N := N) 0 _ (reboot start size m disk).readHead
  refine ⟨middle.clearLog.writeHead, ?_⟩
  refine (Prog.run_bind_ok Op.exec _ _ _ _ _).mpr ⟨(), _, rfl, ?_⟩
  exact (Prog.run_bind_ok Op.exec _ _ _ _ _).mpr ⟨(), middle, installed, rfl⟩

-- Recovery may be interrupted any number of times.
inductive Recovers (M N : Type) (start size : Nat) : (Nat → Block) → (Nat → Block) → Prop where
  | completed (m : M) (disk : Nat → Block) (s : Sys M)
      (done : (recoverFromLog : KProg M N Unit).run Op.exec (reboot start size m disk) = .ok () s) :
      Recovers M N start size disk s.disk
  | interrupted (m : M) (pid : Nat) (disk last : Nat → Block) (trace : List (Event (Op M N) (Sys M))) (s : Sys M)
      (stopped : (recoverFromLog : KProg M N Unit).Stops Op.exec pid (reboot start size m disk) trace s)
      (again : Recovers M N start size s.disk last) : Recovers M N start size disk last

theorem recovers_settled {start size : Nat} {disk last v : Nat → Block} (rep : Represents start size disk v)
    (recovered : Recovers M N start size disk last) : Settled start size last v := by
  induction recovered with
  | completed m disk s done =>
    obtain ⟨_, settled⟩ := Prog.along_run (recover_along 0 start size m disk v rep) done
    exact settled
  | interrupted m pid disk last trace s stopped _ ih =>
    exact ih (Prog.along_stops (recover_along pid start size m disk v rep) stopped)

end

end Xv6
