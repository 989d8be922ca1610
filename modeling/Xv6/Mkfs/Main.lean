import Xv6.Mkfs.Files

set_option autoImplicit false

namespace Xv6.Mkfs

def fileEntries : Nat → List HostFile → List Dirent
  | _, [] => []
  | inum, file :: rest => Dirent.make (strip file.name) inum :: fileEntries (inum + 1) rest

def rootEntries (files : List HostFile) : List Dirent :=
  Dirent.make dot rootino :: Dirent.make dotdot rootino :: fileEntries 2 files

def fileContents (files : List HostFile) : Contents := files.map fun file => (tFile, content file)

def contentsOf (files : List HostFile) : Contents := (tDir, (rootEntries files).flatMap direntBytes) :: fileContents files

def Readable (files : List HostFile) : Prop := ∀ file ∈ files, slash ∉ file.name ∧ file.reads ≠ none

section

variable {m m' : Mk} {ds : Contents} {r : List UInt8}

theorem addFiles_spec (files : List HostFile) (made : Made m ((tDir, r) :: ds)) (room : ds.length + 1 + files.length < inodeRoom) :
    (∃ m', addFiles m files = .ok m' ∧
      Made m' ((tDir, r ++ (fileEntries (ds.length + 2) files).flatMap direntBytes) :: (ds ++ fileContents files))) ∨
    (∃ e, addFiles m files = .error e) ∧ ¬ (Readable files ∧
      Acceptable ((tDir, r ++ (fileEntries (ds.length + 2) files).flatMap direntBytes) :: (ds ++ fileContents files))) := by
  induction files generalizing m r ds with
  | nil =>
    refine .inl ⟨m, rfl, ?_⟩
    rw [fileEntries, List.flatMap_nil, List.append_nil, fileContents, List.map_nil, List.append_nil]
    exact made
  | cons file rest ih =>
    rw [List.length_cons] at room
    have bytes : r ++ (fileEntries (ds.length + 2) (file :: rest)).flatMap direntBytes =
        r ++ entryBytes (ds.length + 2) file ++ (fileEntries (ds.length + 3) rest).flatMap direntBytes := by
      rw [fileEntries, List.flatMap_cons, List.append_assoc, entryBytes]
    have rest_ : ds ++ fileContents (file :: rest) = ds ++ [(tFile, content file)] ++ fileContents rest := by
      rw [List.append_assoc]
      rfl
    have length : (ds ++ [(tFile, content file)]).length = ds.length + 1 := by rw [List.length_append, List.length_singleton]
    rw [bytes, rest_, addFiles]
    rcases addFile_spec made (by omega) file with ⟨m', done, made'⟩ | ⟨⟨e, fails⟩, full⟩
    · rw [done]
      have later := ih made' (by omega)
      rw [length] at later
      rcases later with added | ⟨fails, full⟩
      · exact .inl added
      · exact .inr ⟨fails, fun fine => full ⟨fun f member => fine.1 f (List.mem_cons_of_mem _ member), fine.2⟩⟩
    · rw [fails]
      refine .inr ⟨⟨e, rfl⟩, fun fine => full ⟨fine.1 file List.mem_cons_self, acceptable_mono ?_ fine.2⟩⟩
      refine ⟨?_, below_append (below_refl _) _⟩
      exact Nat.le.intro List.length_append.symm

theorem start_made : Made start [] := by
  have zero : ∀ b, 1 < b → start.img b = Buf.zero := fun b high => if_neg (Nat.ne_of_gt high)
  refine ⟨⟨fun _ => (0, .indirect), ⟨?_, ?_, ?_, ?_, Nat.le_refl _, rfl⟩, rfl, by decide⟩, ?_, rfl, by decide, ?_⟩
  · exact nofun
  · exact nofun
  · exact fun b high low => absurd low (Nat.not_lt.mpr high)
  · exact fun b high => zero b (Nat.lt_of_lt_of_le (by decide) high)
  · exact nofun
  · intro inum _ _
    have block : start.img (mkfsSuperblock.iblock inum) = Buf.zero := by
      apply zero
      unfold Superblock.iblock
      exact Nat.lt_of_lt_of_le (by decide) (Nat.le_add_left mkfsSuperblock.inodestart _)
    rw [dinode, block]
    exact Buf.getLE_zero _ _

theorem direntBytes_length (de : Dirent) : (direntBytes de).length = 16 := by
  rw [direntBytes, List.length_map, List.length_range]

theorem first_room {t : Nat} {c : List UInt8} (short : c.length ≤ bsize) :
    c.length ≤ maxfile * bsize ∧ total [(t, c)] ≤ fssize := by
  have count : blockCount c.length ≤ 1 := blockCount_mono short
  have cost : (Node.full t c).cost ≤ 2 := by
    have extra : (if (Node.full t c).ind then 1 else 0) ≤ 1 := by
      split
      · exact Nat.le_refl 1
      · exact Nat.zero_le 1
    exact Nat.add_le_add count extra
  refine ⟨Nat.le_trans short (by decide), ?_⟩
  exact Nat.le_trans (Nat.add_le_add_left (Nat.add_le_add_right cost 0) mkfsNmeta) (by decide)

theorem makeRoot_spec : ∃ m, makeRoot start = .ok m ∧
    Made m [(tDir, direntBytes (Dirent.make dot rootino) ++ direntBytes (Dirent.make dotdot rootino))] := by
  obtain ⟨m₁, allocated, made₁⟩ := ialloc_spec (t := tDir) start_made (by decide) (by decide)
  have number : ialloc start tDir = .ok (rootino, m₁) := allocated
  have first := direntBytes_length (Dirent.make dot rootino)
  have second := direntBytes_length (Dirent.make dotdot rootino)
  unfold makeRoot
  rw [number]
  dsimp only [bind, Except.bind]
  rw [if_pos rfl]
  rcases iappend_spec (i := 0) made₁ rfl (direntBytes (Dirent.make dot rootino)) with ⟨m₂, done, made₂⟩ | ⟨-, full⟩
  · rcases iappend_spec (i := 0) made₂ rfl (direntBytes (Dirent.make dotdot rootino)) with ⟨m₃, done', made₃⟩ | ⟨-, full⟩
    · have done₁ : iappend m₁ rootino (direntBytes (Dirent.make dot rootino)) = .ok m₂ := done
      rw [done₁]
      exact ⟨m₃, done', made₃⟩
    · refine absurd (first_room ?_) full
      rw [List.length_append, List.length_append, first, second]
      decide
  · refine absurd (first_room ?_) full
    rw [List.length_append, first]
    decide

-- The finished image: the root is one block longer than its full blocks, and the bitmap is there.
structure Formatted (m : Mk) (root : List UInt8) (fs : Contents) : Prop where
  image : ∃ own, Image m (fun i => dinode m.img (i + 1)) (nodesOf ((tDir, root) :: fs)) own
  rootSize : (dinode m.img rootino).size = (root.length / bsize + 1) * bsize
  sizes : ∀ i f, fs[i]? = some f → (dinode m.img (i + 2)).size = f.2.length
  next : m.freeinode = fs.length + 2
  room : fs.length + 1 < inodeRoom
  bitmap : m.img mkfsSuperblock.bmapstart = (List.range m.freeblock).foldl setBit Buf.zero

theorem fixRoot_spec (made : Made m ((tDir, r) :: ds)) :
    ∃ m₁ m₂, fixRoot m = .ok m₁ ∧ balloc m₁ = .ok m₂ ∧ Formatted m₂ r ds := by
  obtain ⟨own, image⟩ := made.image
  have root : rootino < inodeRoom := by decide
  have size : (dinode m.img rootino).size = r.length := made.sizes 0 _ rfl
  have node : (nodesOf ((tDir, r) :: ds))[0]? = some (.full tDir r) := rfl
  have large : r.length ≤ maxfile * bsize := by
    have holds := image.disk.nodes 0 _ node
    exact Nat.le_trans holds.room (Nat.mul_le_mul_right _ holds.most)
  have before := getDinode_small (m.img (mkfsSuperblock.iblock rootino)) (rootino % ipb)
  have small : Small { dinode m.img rootino with size := (r.length / bsize + 1) * bsize } := by
    refine ⟨before.type, before.major, before.minor, before.nlink, ?_⟩
    have bound : (r.length / bsize + 1) * bsize ≤ (maxfile + 1) * bsize := by
      refine Nat.mul_le_mul_right _ (Nat.add_le_add_right ?_ 1)
      exact Nat.div_le_of_le_mul (Nat.mul_comm bsize maxfile ▸ large)
    exact Nat.lt_of_le_of_lt bound (by decide)
  obtain ⟨m₁, written, image₁, next, table⟩ := winode_spec image root small
  have fixed : fixRoot m = .ok m₁ := by
    unfold fixRoot rinode
    rw [rsect, if_pos (iblock_size image root)]
    have same : getDinode (m.img (mkfsSuperblock.iblock rootino)) (rootino % ipb) = dinode m.img rootino := rfl
    dsimp only [bind, Except.bind]
    rw [same, size]
    exact written
  have low : m₁.freeblock < bsize * 8 := Nat.lt_of_le_of_lt image₁.fits (by decide)
  have kept : ∀ inum < inodeRoom,
      dinode (upd m₁.img mkfsSuperblock.bmapstart ((List.range m₁.freeblock).foldl setBit Buf.zero)) inum =
        if inum = rootino then { dinode m.img rootino with size := (r.length / bsize + 1) * bsize } else dinode m.img inum := by
    intro inum inside
    rw [← table, dinode, upd_ne (Nat.ne_of_lt (iblock_low inside)), dinode]
  refine ⟨m₁, _, fixed, if_pos low, ⟨own, disk_congr (disk_meta image₁.disk ?_) ?_, ?_, image₁.fits⟩, ?_, ?_, ?_, made.room, ?_⟩
  · exact fun b high => upd_ne (Nat.ne_of_gt (Nat.lt_of_lt_of_le (by decide) high))
  · intro j inside
    have length : (nodesOf ((tDir, r) :: ds)).length = ((tDir, r) :: ds).length := List.length_map _
    have := made.room
    unfold wsect
    dsimp only
    rw [kept _ (by omega)]
    by_cases here : j = 0
    · rw [here, if_pos rfl]
      exact ⟨rfl, rfl, rfl⟩
    · have other : j + 1 ≠ rootino := fun same => here (Nat.succ.inj same)
      rw [if_neg other]
      exact ⟨rfl, rfl, rfl⟩
  · exact (Nat.max_eq_left (image₁.size ▸ (by decide : mkfsSuperblock.bmapstart < fssize))).trans image₁.size
  · unfold wsect
    dsimp only
    rw [kept _ root, if_pos rfl]
  · intro i f found
    have inside := (List.getElem?_eq_some_iff.mp found).1
    have := made.room
    rw [List.length_cons] at this
    have other : i + 2 ≠ rootino := fun same => absurd (Nat.succ.inj same) (Nat.succ_ne_zero i)
    unfold wsect
    dsimp only
    rw [kept _ (by omega), if_neg other]
    exact made.sizes (i + 1) f found
  · exact next.trans made.next

  · unfold wsect
    dsimp only
    rw [upd_self]

theorem mkfs_spec (files : List HostFile) (room : files.length + 1 < inodeRoom) :
    (∃ m, mkfs files = .ok m ∧ Formatted m ((rootEntries files).flatMap direntBytes) (fileContents files)) ∨
    (∃ e, mkfs files = .error e) ∧ ¬ (Readable files ∧ Acceptable (contentsOf files)) := by
  obtain ⟨m₁, rooted, made₁⟩ := makeRoot_spec
  have bytes : (rootEntries files).flatMap direntBytes =
      direntBytes (Dirent.make dot rootino) ++ direntBytes (Dirent.make dotdot rootino) ++ (fileEntries 2 files).flatMap direntBytes := by
    rw [rootEntries, List.flatMap_cons, List.flatMap_cons, List.append_assoc]
  unfold mkfs contentsOf
  rw [rooted, bytes]
  dsimp only [bind, Except.bind]
  rcases addFiles_spec files made₁ (by rw [List.length_nil]; omega) with ⟨m₂, added, made₂⟩ | ⟨⟨e, fails⟩, full⟩
  · obtain ⟨m₃, m₄, fixed, marked, formatted⟩ := fixRoot_spec made₂
    rw [added]
    dsimp only
    rw [fixed]
    exact .inl ⟨m₄, marked, formatted⟩
  · rw [fails]
    exact .inr ⟨⟨e, rfl⟩, full⟩

end

section

variable {m m' : Mk}

theorem winode_counter {inum : Nat} {d : Dinode} (done : winode m inum d = .ok m') : m'.freeinode = m.freeinode := by
  unfold winode rsect at done
  split at done
  case isTrue =>
    cases done
    rfl
  case isFalse => cases done

theorem needAddr_counter (m : Mk) (d : Dinode) (i : Nat) : (needAddr m d i).2.freeinode = m.freeinode := by
  unfold needAddr
  split
  · rfl
  · rfl

theorem needEntry_counter {ind j x : Nat} (done : needEntry m ind j = .ok (x, m')) : m'.freeinode = m.freeinode := by
  unfold needEntry rsect at done
  split at done
  case isTrue =>
    dsimp only [bind, Except.bind] at done
    split at done
    · cases done
      rfl
    · cases done
      rfl
  case isFalse => cases done

theorem block_counter {d d' : Dinode} {fbn x : Nat} (done : iappendBlock m d fbn = .ok (x, d', m')) :
    m'.freeinode = m.freeinode := by
  unfold iappendBlock at done
  split at done
  · cases done
    exact needAddr_counter m d fbn
  · dsimp only [bind, Except.bind] at done
    split at done
    · cases done
    next result entered =>
      cases done
      exact (needEntry_counter entered).trans (needAddr_counter m d ndirect)

theorem chunk_counter {d d' : Dinode} {off n : Nat} {p : List UInt8} (done : iappendChunk m d off p = .ok (d', m', n)) :
    m'.freeinode = m.freeinode := by
  unfold iappendChunk at done
  split at done
  · dsimp only [bind, Except.bind] at done
    split at done
    · cases done
    next result found =>
      unfold rsect at done
      split at done
      · cases done
      next buf read =>
        have kept : result.2.2.freeinode = m.freeinode := block_counter found
        cases done
        exact kept
  · cases done

theorem loop_counter {left off off' : Nat} {d d' : Dinode} {p : List UInt8}
    (done : iappendLoop left m d off p = .ok (d', off', m')) : m'.freeinode = m.freeinode := by
  induction left generalizing m d off p with
  | zero =>
    cases done
    rfl
  | succ left ih =>
    rw [iappendLoop] at done
    split at done
    · dsimp only [bind, Except.bind] at done
      split at done
      · cases done
      next result chunk => exact (ih done).trans (chunk_counter chunk)
    · cases done
      rfl

theorem iappend_counter {inum : Nat} {p : List UInt8} (done : iappend m inum p = .ok m') : m'.freeinode = m.freeinode := by
  unfold iappend at done
  dsimp only [bind, Except.bind] at done
  split at done
  · cases done
  next d read =>
    split at done
    · cases done
    next result looped => exact (winode_counter done).trans (loop_counter looped)

theorem pieces_counter {inum : Nat} (pieces : List (List UInt8)) (done : addPieces inum m pieces = .ok m') :
    m'.freeinode = m.freeinode := by
  induction pieces generalizing m with
  | nil =>
    cases done
    rfl
  | cons piece rest ih =>
    rw [addPieces] at done
    dsimp only [bind, Except.bind] at done
    split at done
    · cases done
    next m₁ first => exact (ih done).trans (iappend_counter first)

theorem ialloc_counter {t inum : Nat} (done : ialloc m t = .ok (inum, m')) : m'.freeinode = m.freeinode + 1 := by
  unfold ialloc at done
  dsimp only [bind, Except.bind] at done
  split at done
  · cases done
  next m₁ written =>
    cases done
    exact winode_counter written

theorem file_counter {file : HostFile} (done : addFile m file = .ok m') : m'.freeinode = m.freeinode + 1 := by
  unfold addFile at done
  split at done
  · cases done
  · split at done
    · cases done
    next pieces reads =>
      dsimp only [bind, Except.bind] at done
      split at done
      · cases done
      next result allocated =>
        split at done
        · cases done
        next m₂ entered => exact ((pieces_counter pieces done).trans (iappend_counter entered)).trans (ialloc_counter allocated)

theorem files_counter (files : List HostFile) (done : addFiles m files = .ok m') :
    m'.freeinode = m.freeinode + files.length := by
  induction files generalizing m with
  | nil =>
    cases done
    rfl
  | cons file rest ih =>
    rw [addFiles] at done
    dsimp only [bind, Except.bind] at done
    split at done
    · cases done
    next m₁ first => rw [ih done, file_counter first, List.length_cons, Nat.add_assoc, Nat.add_comm 1]

theorem mkfs_counter {files : List HostFile} (done : mkfs files = .ok m) : m.freeinode = files.length + 2 := by
  obtain ⟨m₁, rooted, made₁⟩ := makeRoot_spec
  unfold mkfs at done
  rw [rooted] at done
  dsimp only [bind, Except.bind] at done
  split at done
  · cases done
  next m₂ added =>
    split at done
    · cases done
    next m₃ fixed =>
      have marked : m.freeinode = m₃.freeinode := by
        unfold balloc at done
        split at done
        · cases done
          rfl
        · cases done
      have last : m₃.freeinode = m₂.freeinode := by
        unfold fixRoot at fixed
        dsimp only [bind, Except.bind] at fixed
        split at fixed
        · cases fixed
        next d read => exact winode_counter fixed
      rw [marked, last, files_counter files added, made₁.next, List.length_singleton, Nat.add_comm]

end

end Xv6.Mkfs
