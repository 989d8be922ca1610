import Xv6.Fs.Read

set_option autoImplicit false

namespace Xv6

def Dirent.text (de : Dirent) : Name := ((List.range dirsiz).map de.name).takeWhile (· ≠ 0)

def key (name : Name) : Name := name.take dirsiz

structure Binding where
  slot : Nat
  name : Name
  inum : Nat
deriving DecidableEq

def Dirent.binding (slot : Nat) (de : Dirent) : Option Binding := if de.inum = 0 then none else some ⟨slot, de.text, de.inum⟩

def bindings (img : Nat → Block) (d : Dinode) : List Binding :=
  (List.range (d.size / 16)).filterMap fun j => (dirEntry img d j).binding j

def lookup (img : Nat → Block) (d : Dinode) (name : Name) : Option Binding := (bindings img d).find? fun e => e.name = name

theorem strncmp_text (n : Nat) {name : Name} (text : 0 ∉ name) (q : Nat → UInt8) :
    strncmpEq (cstr name) q n = true ↔ name.take n = ((List.range n).map q).takeWhile (· ≠ 0) := by
  induction n generalizing name q with
  | zero => exact ⟨fun _ => List.take_zero, fun _ => rfl⟩
  | succ n ih =>
    have field : (List.range (n + 1)).map q = q 0 :: (List.range n).map fun i => q (i + 1) := by
      rw [List.range_succ_eq_map, List.map_cons, List.map_map]
      rfl
    rw [strncmpEq, field]
    cases name with
    | nil =>
      have ended : ¬ (cstr [] 0 ≠ 0 ∧ cstr [] 0 = q 0) := fun more => more.1 rfl
      rw [if_neg ended, beq_iff_eq, List.take_nil]
      by_cases last : q 0 = 0
      · rw [List.takeWhile_cons_of_neg (by simp [last]), last]
        exact ⟨fun _ => rfl, fun _ => rfl⟩
      · rw [List.takeWhile_cons_of_pos (by simp [last])]
        exact ⟨fun same => absurd same.symm last, fun never => by cases never⟩
    | cons a rest =>
      have first : cstr (a :: rest) 0 = a := rfl
      have shifted : (fun i => cstr (a :: rest) (i + 1)) = cstr rest := rfl
      have some_ : a ≠ 0 := fun zero => text (zero ▸ List.mem_cons_self)
      rw [first, List.take_succ_cons]
      by_cases same : a = q 0
      · rw [if_pos ⟨some_, same⟩, shifted, ih (fun member => text (List.mem_cons_of_mem a member)) fun i => q (i + 1),
          List.takeWhile_cons_of_pos (by simp [← same, some_]), ← same]
        exact ⟨fun rest => congrArg (a :: ·) rest, fun whole => (List.cons.inj whole).2⟩
      · rw [if_neg fun more => same more.2, beq_iff_eq]
        refine ⟨fun is => absurd is same, fun whole => ?_⟩
        by_cases last : q 0 = 0
        · rw [List.takeWhile_cons_of_neg (by simp [last])] at whole
          cases whole
        · rw [List.takeWhile_cons_of_pos (by simp [last])] at whole
          exact (List.cons.inj whole).1

theorem namecmp_text {name : Name} (text : 0 ∉ name) (de : Dirent) : namecmpEq (cstr name) de.name = true ↔ de.text = key name :=
  (strncmp_text dirsiz text de.name).trans eq_comm

section

variable {sb : Superblock} {st : Fs} {p k : Nat}

structure Readable (img : Nat → Block) (d : Dinode) : Prop where
  dir : d.type = tDir
  whole : d.size % 16 = 0
  small : d.size < 2 ^ 32
  solid : Solid img d d.size

theorem readable_inside {img : Nat → Block} {d : Dinode} (readable : Readable img d) {j : Nat} (inside : j < d.size / 16) :
    16 * (j + 1) ≤ d.size := by
  have whole := readable.whole
  omega

theorem readDirent_readable (readable : Readable st.cache (st.mem.icache k).din) {j : Nat} (inside : j < (st.mem.icache k).din.size / 16)
    (msg : String) : (readDirent sb p k (16 * j) msg).run Op.exec st = .ok (dirEntry st.cache (st.mem.icache k).din j) st := by
  have within := readable_inside readable inside
  exact readDirent_run readable.dir within readable.small (fun o low => readable.solid o (by omega)) msg

theorem dirlookupFrom_spec (readable : Readable st.cache (st.mem.icache k).din) {name : Name} (text : 0 ∉ name) (left base : Nat)
    (total : base + left = (st.mem.icache k).din.size / 16) :
    (dirlookupFrom sb p k name (16 * base) left).run Op.exec st =
      match ((List.range' base left).filterMap fun j => (dirEntry st.cache (st.mem.icache k).din j).binding j).find?
        fun e => e.name = key name with
      | none => .ok none st
      | some e => (iget e.inum >>= fun ip => pure (some (ip, 16 * e.slot)) : FsM _).run Op.exec st := by
  induction left generalizing base with
  | zero => rfl
  | succ left ih =>
    have read : (readDirent sb p k (16 * base) "dirlink read").run Op.exec st = _ :=
      readDirent_readable readable (show base < (st.mem.icache k).din.size / 16 by omega) _
    have rest := ih (base + 1) (by omega)
    rw [Nat.mul_succ] at rest
    rw [dirlookupFrom, Prog.run_bind _ read, List.range'_succ, List.filterMap_cons]
    generalize dirEntry st.cache (st.mem.icache k).din base = de
    unfold Dirent.binding
    by_cases empty : de.inum = 0
    · rw [if_pos empty, if_pos empty]
      exact rest
    · rw [if_neg empty, if_neg empty]
      dsimp only
      rw [List.find?_cons]
      by_cases same : namecmpEq (cstr name) de.name = true
      · have named := (namecmp_text text de).mp same
        rw [if_pos same]
        dsimp only
        rw [decide_eq_true named]
      · have other : ¬ de.text = key name := fun named => same ((namecmp_text text de).mpr named)
        rw [if_neg same]
        dsimp only
        rw [decide_eq_false other]
        exact rest

theorem dirlookup_spec (readable : Readable st.cache (st.mem.icache k).din) {name : Name} (text : 0 ∉ name) :
    (dirlookup sb p k name).run Op.exec st =
      match lookup st.cache (st.mem.icache k).din (key name) with
      | none => .ok none st
      | some e => (iget e.inum >>= fun ip => pure (some (ip, 16 * e.slot)) : FsM _).run Op.exec st := by
  have whole := readable.whole
  have count : ((st.mem.icache k).din.size + 15) / 16 = (st.mem.icache k).din.size / 16 := by omega
  rw [dirlookup, Prog.run_bind _ run_getInode, if_neg (not_not.mpr readable.dir), count]
  have scanned : (dirlookupFrom sb p k name (16 * 0) ((st.mem.icache k).din.size / 16)).run Op.exec st = _ :=
    dirlookupFrom_spec readable text _ 0 (Nat.zero_add _)
  rw [← List.range_eq_range'] at scanned
  exact scanned

end

end Xv6
