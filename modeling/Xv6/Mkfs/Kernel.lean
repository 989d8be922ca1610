import Xv6.Fs.Image
import Xv6.Mkfs.Sound

set_option autoImplicit false

namespace Xv6.Mkfs

section

variable {m : Mk} {files : List HostFile} {root : List UInt8} {fs : Contents}

theorem cstr_end {name : Name} (text : 0 ∉ name) (i : Nat) (ended : cstr name i = 0) : cstr name (i + 1) = 0 := by
  have past : name.length ≤ i := by
    by_contra inside
    have found : cstr name i = name.get ⟨i, Nat.lt_of_not_le inside⟩ := List.getD_eq_getElem _ _ (Nat.lt_of_not_le inside)
    exact text (ended ▸ found ▸ List.get_mem _ _)
  exact List.getD_eq_default _ _ (Nat.le_succ_of_le past)

theorem make_name_all (name : Name) (inum i : Nat) : (Dirent.make name inum).name i = cstr (name.take dirsiz) i := by
  by_cases inside : i < dirsiz
  · rw [make_name name inum inside, cstr, List.getD_eq_getElem?_getD, List.getD_eq_getElem?_getD, List.getElem?_take_of_lt inside]
  · rw [Dirent.name, if_neg inside, cstr, List.getD_eq_default]
    rw [List.length_take]
    exact Nat.le_trans (Nat.min_le_left _ _) (Nat.not_lt.mp inside)

theorem namecmp_make {a b : Name} (textA : 0 ∉ a) (textB : 0 ∉ b) (inum : Nat) :
    namecmpEq (cstr a) (Dirent.make b inum).name = true ↔ a.take dirsiz = b.take dirsiz := by
  have textB' : 0 ∉ b.take dirsiz := fun member => textB (List.mem_of_mem_take member)
  have named : (Dirent.make b inum).name = cstr (b.take dirsiz) := funext (make_name_all b inum)
  rw [namecmpEq, named, strncmpEq_iff dirsiz _ _ (cstr_end textA) (cstr_end textB'), take_eq_iff dirsiz textA textB]
  constructor
  · intro same i inside
    have byte := same i inside
    rw [← make_name_all b inum i, make_name b inum inside] at byte
    exact byte
  · intro same i inside
    rw [← make_name_all b inum i, make_name b inum inside]
    exact same i inside

theorem file_solid (formatted : Formatted m root fs) {i : Nat} {f : Nat × List UInt8} (found : fs[i]? = some f) :
    Solid m.img (dinode m.img (i + 2)) f.2.length ∧
      ∀ o < f.2.length, byteAt m.img (dinode m.img (i + 2)) o = f.2.getD o 0 := by
  obtain ⟨own, image⟩ := formatted.image
  have holds := image.disk.nodes (i + 1) _ (nodes_at (i := i + 1) found)
  constructor
  · intro o inside
    refine file_holes formatted (List.getElem?_eq_some_iff.mp found).1 ?_
    rw [formatted.sizes i f found]
    exact Nat.lt_of_le_of_lt (Nat.div_mul_le_self o bsize) inside
  · intro o inside
    exact holds.bytes o (Nat.lt_of_lt_of_le inside holds.room)

theorem root_solid (formatted : Formatted m root fs) : Solid m.img (dinode m.img rootino) root.length := by
  intro o inside
  have count : o / bsize < blockCount root.length := by
    refine Nat.div_lt_of_lt_mul ?_
    rw [Nat.mul_comm]
    exact Nat.lt_of_lt_of_le inside (blockCount_le _)
  have small := Nat.lt_of_lt_of_le count (root_short formatted)
  exact ⟨small, (root_blocks formatted small).mpr count⟩

theorem range_getD (c : List UInt8) : ((List.range c.length).map fun o => c.getD o 0) = c := by
  apply List.ext_getElem?
  intro i
  rw [List.getElem?_map]
  by_cases inside : i < c.length
  · rw [List.getElem?_range inside, Option.map_some, List.getD_eq_getElem _ _ inside, List.getElem?_eq_getElem inside]
  · rw [List.getElem?_eq_none (by rw [List.length_range]; omega), List.getElem?_eq_none (by omega), Option.map_none]

variable (formatted : Formatted m ((rootEntries files).flatMap direntBytes) (fileContents files))

include formatted

theorem readi_file {i : Nat} {file : HostFile} (found : files[i]? = some file) {st : Fs} {p k : Nat} (cached : st.cache = m.img)
    (loaded : (st.mem.icache k).din = dinode m.img (i + 2)) :
    (readi mkfsSuperblock p k 0 (dinode m.img (i + 2)).size).run Op.exec st = .ok (some (content file)) st := by
  have entry : (fileContents files)[i]? = some (tFile, content file) := by
    rw [fileContents, List.getElem?_map, found]
    rfl
  obtain ⟨own, image⟩ := formatted.image
  have holds := image.disk.nodes (i + 1) _ (nodes_at (i := i + 1) entry)
  have size := formatted.sizes i _ entry
  dsimp only at size
  obtain ⟨solid, bytes⟩ := file_solid formatted entry
  have type : (dinode m.img (i + 2)).type = tFile := holds.type
  have count : readiCount (dinode m.img (i + 2)).size 0 (dinode m.img (i + 2)).size = (content file).length := by
    rw [readiCount, if_neg (by omega), size]
  have small : (content file).length < 2 ^ 32 := small_size image (nodes_at (i := i + 1) entry)
  have read : (readi mkfsSuperblock p k 0 (dinode m.img (i + 2)).size).run Op.exec st = _ := readi_run
    (by rw [loaded, type]; decide) (by rw [loaded, cached, count, Nat.zero_add]; exact solid) (Nat.zero_le _) (by omega)
  rw [loaded, cached, count] at read
  rw [read]
  have same : ((List.range (content file).length).map fun o => byteAt m.img (dinode m.img (i + 2)) (0 + o)) = content file := by
    refine Eq.trans (List.map_congr_left fun o member => ?_) (range_getD (content file))
    rw [Nat.zero_add]
    exact bytes o (List.mem_range.mp member)
  rw [same]

theorem dirlookup_root {j : Nat} {name : Name} (found : (rootNames files)[j]? = some name)
    (first : ∀ i < j, ∀ other, (rootNames files)[i]? = some other → other.take dirsiz ≠ name.take dirsiz) {st : Fs} {p k : Nat}
    (cached : st.cache = m.img) (loaded : (st.mem.icache k).din = dinode m.img rootino) :
    (dirlookup mkfsSuperblock p k (name.take dirsiz)).run Op.exec st =
      (iget (entryInum j) >>= fun ip => pure (some (ip, 16 * j)) : FsM _).run Op.exec st := by
  have text := rootNames_text (List.mem_of_getElem? found)
  have cut : 0 ∉ name.take dirsiz := fun member => text (List.mem_of_mem_take member)
  have twice : (name.take dirsiz).take dirsiz = name.take dirsiz := by rw [List.take_take, Nat.min_self]
  obtain ⟨own, image⟩ := formatted.image
  obtain ⟨inside, entry, inum⟩ := entry_of_name formatted found
  have within : j < files.length + 2 := by
    rw [← rootNames_length]
    exact (List.getElem?_eq_some_iff.mp found).1
  have length := entries_bytes (rootEntries files)
  rw [rootEntries_length] at length
  have dir : (dinode m.img rootino).type = tDir := (image.disk.nodes 0 _ rfl).type
  have small : (dinode m.img rootino).size < 2 ^ 32 := (getDinode_small _ _).size
  have whole : 16 * (j + 1) ≤ (dinode m.img rootino).size := by
    have part := Nat.lt_div_mul_add (a := ((rootEntries files).flatMap direntBytes).length) (by decide : 0 < bsize)
    rw [formatted.rootSize, Nat.succ_mul (_ / bsize) bsize]
    omega
  have solid : Solid m.img (dinode m.img rootino) (16 * (j + 1)) := fun o below => root_solid formatted o (by omega)
  have number : (dirEntry m.img (dinode m.img rootino) j).inum = entryInum j := inum
  have same : namecmpEq (cstr (name.take dirsiz)) (dirEntry st.cache (st.mem.icache k).din j).name = true := by
    have here : dirEntry m.img (dinode m.img rootino) j = Dirent.make name (entryInum j) := entry
    rw [loaded, cached, here, namecmp_make cut text, twice]
  have lookup : (dirlookup mkfsSuperblock p k (name.take dirsiz)).run Op.exec st = _ := dirlookup_run
    (by rw [loaded]; exact dir) (by rw [loaded]; exact whole) (by rw [loaded]; exact small) (by rw [loaded, cached]; exact solid)
    (by rw [loaded, cached, number]; exact entryInum_ne_zero j) same ?_
  · rw [loaded, cached, number] at lookup
    exact lookup
  · intro i earlier
    have below : i < (rootNames files).length := by
      rw [rootNames_length]
      omega
    have found' := List.getElem?_eq_getElem below
    have entry' : dirEntry m.img (dinode m.img rootino) i = Dirent.make _ (entryInum i) := (entry_of_name formatted found').2.1
    rw [loaded, cached, entry', ← Bool.not_eq_true, namecmp_make cut (rootNames_text (List.mem_of_getElem? found')), twice]
    exact fun same => first i earlier _ found' same.symm

theorem ilock_readi_file {i : Nat} {file : HostFile} (found : files[i]? = some file) {st : Fs} {p k : Nat}
    (cached : st.cache = m.img) (agrees : Agrees mkfsSuperblock st k (i + 2)) :
    ∃ st', (ilock mkfsSuperblock p k >>= fun _ => readi mkfsSuperblock p k 0 (content file).length : FsM _).run Op.exec st =
      .ok (some (content file)) st' := by
  have entry : (fileContents files)[i]? = some (tFile, content file) := by
    rw [fileContents, List.getElem?_map, found]
    rfl
  have size : (dinode m.img (i + 2)).size = (content file).length := formatted.sizes i _ entry
  have typed : (dinode m.img (i + 2)).type ≠ 0 := by
    obtain ⟨own, image⟩ := formatted.image
    have holds := image.disk.nodes (i + 1) _ (nodes_at (i := i + 1) entry)
    have type : (dinode m.img (i + 2)).type = tFile := holds.type
    rw [type]
    decide
  rw [dinode, ← cached] at typed
  obtain ⟨ip, locked, -, -, din⟩ := ilock_run (p := p) agrees typed
  rw [cached] at din
  rw [Prog.run_bind _ locked, ← size]
  exact ⟨_, readi_file formatted found cached (by rw [withInode_self]; exact din)⟩

theorem ilock_dirlookup_root {j : Nat} {name : Name} (found : (rootNames files)[j]? = some name)
    (first : ∀ i < j, ∀ other, (rootNames files)[i]? = some other → other.take dirsiz ≠ name.take dirsiz) {st : Fs} {p k : Nat}
    (cached : st.cache = m.img) (agrees : Agrees mkfsSuperblock st k rootino) (can : CanGet st.mem (entryInum j)) :
    ∃ ip st', (ilock mkfsSuperblock p k >>= fun _ => dirlookup mkfsSuperblock p k (name.take dirsiz) : FsM _).run Op.exec st =
      .ok (some (ip, 16 * j)) st' ∧ (st'.mem.icache ip).inum = entryInum j := by
  have typed : (dinode m.img rootino).type ≠ 0 := by
    obtain ⟨own, image⟩ := formatted.image
    have type : (dinode m.img rootino).type = tDir := (image.disk.nodes 0 _ rfl).type
    rw [type]
    decide
  rw [dinode, ← cached] at typed
  obtain ⟨node, locked, names, ref, din⟩ := ilock_run (p := p) agrees typed
  rw [cached] at din
  have lookup : (dirlookup mkfsSuperblock p k (name.take dirsiz)).run Op.exec (st.withInode k node) = _ :=
    dirlookup_root formatted found first cached (by rw [withInode_self]; exact din)
  obtain ⟨ip, st', got, inum⟩ := iget_run (canGet_withInode ref (names.trans agrees.names.symm) can)
  rw [Prog.run_bind _ locked, lookup, Prog.run_bind _ got]
  exact ⟨ip, st', rfl, inum⟩

end

def Distinct (files : List HostFile) : Prop := ((rootNames files).map fun name => name.take dirsiz).Nodup

instance (files : List HostFile) : Decidable (Distinct files) := inferInstanceAs (Decidable (List.Nodup _))

theorem distinct_first {files : List HostFile} (distinct : Distinct files) {j : Nat} {name : Name}
    (found : (rootNames files)[j]? = some name) (i : Nat) (earlier : i < j) (other : Name)
    (found' : (rootNames files)[i]? = some other) : other.take dirsiz ≠ name.take dirsiz := by
  intro same
  have inside : i < ((rootNames files).map fun name => name.take dirsiz).length := by
    rw [List.length_map]
    exact (List.getElem?_eq_some_iff.mp found').1
  refine absurd ((List.getElem?_inj (j := j) inside distinct).mp ?_) (Nat.ne_of_lt earlier)
  rw [List.getElem?_map, List.getElem?_map, found, found', Option.map_some, Option.map_some, same]

-- The files are inodes 2, 3 and so on in the order of the arguments.
theorem kernel_reads_mkfs_image (files : List HostFile) (inodes : files.length + 1 < mkfsSuperblock.ninodes)
    (fits : Acceptable (contentsOf files)) :
    (Readable files → ∃ m, mkfs files = .ok m) ∧
    ∀ m, mkfs files = .ok m → ∀ i file, files[i]? = some file →
      (dinode m.img (i + 2)).size = (content file).length ∧
      (∀ (st : Fs) p k, st.cache = m.img → Agrees mkfsSuperblock st k (i + 2) →
        ∃ st', (ilock mkfsSuperblock p k >>= fun _ => readi mkfsSuperblock p k 0 (content file).length : FsM _).run Op.exec st =
          .ok (some (content file)) st') ∧
      (Distinct files → ∀ (st : Fs) p k, st.cache = m.img → Agrees mkfsSuperblock st k rootino → CanGet st.mem (i + 2) →
        ∃ ip off st', (ilock mkfsSuperblock p k >>= fun _ =>
          dirlookup mkfsSuperblock p k ((strip file.name).take dirsiz) : FsM _).run Op.exec st = .ok (some (ip, off)) st' ∧
          (st'.mem.icache ip).inum = i + 2) := by
  have spec := mkfs_spec files (Nat.lt_trans inodes (by decide))
  constructor
  · intro readable
    rcases spec with ⟨m, done, -⟩ | ⟨-, full⟩
    · exact ⟨m, done⟩
    · exact absurd ⟨readable, fits⟩ full
  · intro m done i file found
    have formatted : Formatted m ((rootEntries files).flatMap direntBytes) (fileContents files) := by
      rcases spec with ⟨m', done', formatted⟩ | ⟨⟨e, fails⟩, -⟩
      · rw [done] at done'
        cases done'
        exact formatted
      · rw [done] at fails
        cases fails
    have entry : (fileContents files)[i]? = some (tFile, content file) := by
      rw [fileContents, List.getElem?_map, found]
      rfl
    have name : (rootNames files)[i + 2]? = some (strip file.name) := by
      rw [rootNames, List.getElem?_cons_succ, List.getElem?_cons_succ, List.getElem?_map, found]
      rfl
    have number : entryInum (i + 2) = i + 2 := if_neg (by omega)
    refine ⟨formatted.sizes i _ entry, fun st p k cached agrees => ilock_readi_file formatted found cached agrees, ?_⟩
    intro distinct st p k cached agrees can
    have lookup := ilock_dirlookup_root (p := p) formatted name (distinct_first distinct name) cached agrees (number.symm ▸ can)
    rw [number] at lookup
    obtain ⟨ip, st', run, inum⟩ := lookup
    exact ⟨ip, _, st', run, inum⟩

theorem kernel_reads_mkfs_image_two : ∃ m, mkfs (emptyFiles 2) = .ok m ∧
    ∃ ip off st', (ilock mkfsSuperblock 0 0 >>= fun _ => dirlookup mkfsSuperblock 0 0 [98] : FsM _).run Op.exec (boot m.img) =
      .ok (some (ip, off)) st' ∧ (st'.mem.icache ip).inum = 3 := by
  obtain ⟨succeeds, reads⟩ := kernel_reads_mkfs_image (emptyFiles 2) (by decide) (by decide)
  obtain ⟨m, done⟩ := succeeds (by decide)
  have second := (reads m done 1 (emptyFile 1) rfl).2.2 (by decide) (boot m.img) 0 0 rfl
    ⟨rfl, Int.le_refl 1, rfl, nofun⟩ ⟨1, by decide, .inl rfl⟩
  exact ⟨m, done, second⟩

-- The host file "_.", whose stored name is that of the root directory's first entry.
theorem dot_text : 0 ∉ [underscore, 46] := by decide

theorem no_reads_sizes : ∀ pieces ∈ some ([] : List (List UInt8)), ∀ piece ∈ pieces, 0 < piece.length ∧ piece.length ≤ bsize := by
  intro pieces found piece member
  cases found
  cases member

def dotFile : HostFile where
  name := [underscore, 46]
  reads := some []
  text := dot_text
  sizes := no_reads_sizes

theorem stored_dot_is_root : ([dotFile].map fun file => (strip file.name).take dirsiz).Nodup ∧ ∃ m, mkfs [dotFile] = .ok m ∧
    ∃ ip off st', (ilock mkfsSuperblock 0 0 >>= fun _ =>
      dirlookup mkfsSuperblock 0 0 ((strip dotFile.name).take dirsiz) : FsM _).run Op.exec (boot m.img) = .ok (some (ip, off)) st' ∧
      (st'.mem.icache ip).inum = rootino := by
  refine ⟨by decide, ?_⟩
  rcases mkfs_spec [dotFile] (by decide) with ⟨m, done, formatted⟩ | ⟨-, full⟩
  · have first : (rootNames [dotFile])[0]? = some dot := rfl
    have agrees : Agrees mkfsSuperblock (boot m.img) 0 rootino := ⟨rfl, Int.le_refl 1, rfl, nofun⟩
    have lookup := ilock_dirlookup_root (p := 0) formatted first (fun i never => absurd never (Nat.not_lt_zero i)) rfl agrees
      ⟨0, by decide, .inr ⟨Int.zero_lt_one, rfl⟩⟩
    obtain ⟨ip, st', run, inum⟩ := lookup
    exact ⟨m, done, ip, _, st', run, inum⟩
  · exact absurd (by decide) full

end Xv6.Mkfs
