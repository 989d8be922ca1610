import Mathlib.Data.List.Nodup
import Xv6.Fs.Bitmap
import Xv6.Mkfs.Entries

set_option autoImplicit false

namespace Xv6.Mkfs

def Used (m : Mk) (inum : Nat) : Prop := 1 ≤ inum ∧ inum < m.freeinode

def blockOf (m : Mk) (inum : Nat) (slot : Slot) : Nat := ref m.img (dinode m.img inum) slot

def rootEntry (m : Mk) (k : Nat) : Dirent := dirEntry m.img (dinode m.img rootino) k

structure ImageOk (m : Mk) : Prop where
  bitmap : ∀ b < bpb, bitSet (m.img mkfsSuperblock.bmapstart) b = true ↔
    b < mkfsNmeta ∨ ∃ inum slot, Used m inum ∧ blockOf m inum slot = b
  data : ∀ inum slot, Used m inum → blockOf m inum slot ≠ 0 → mkfsNmeta ≤ blockOf m inum slot ∧ blockOf m inum slot < fssize
  single : ∀ inum slot inum' slot', Used m inum → Used m inum' → blockOf m inum slot ≠ 0 →
    blockOf m inum slot = blockOf m inum' slot' → inum = inum' ∧ slot = slot'
  holes : ∀ inum bn, Used m inum → bn * bsize < (dinode m.img inum).size → bn < maxfile ∧ mapped m.img (dinode m.img inum) bn ≠ 0
  inodes : ∀ inum, Used m inum → inum < mkfsSuperblock.ninodes ∧ mkfsSuperblock.iblock inum < mkfsSuperblock.bmapstart
  names : ∀ k k', 16 * k < (dinode m.img rootino).size → 16 * k' < (dinode m.img rootino).size →
    (rootEntry m k).inum ≠ 0 → (rootEntry m k').inum ≠ 0 → (rootEntry m k).name = (rootEntry m k').name → k = k'
  links : ∀ k, 16 * k < (dinode m.img rootino).size → (rootEntry m k).inum ≠ 0 → Used m (rootEntry m k).inum ∧
    (dinode m.img (rootEntry m k).inum).type ≠ 0 ∧ (dinode m.img (rootEntry m k).inum).nlink = 1

-- There are inodes for all files, the root directory's last block is not full, names differ.
def Sound (files : List HostFile) : Prop :=
  files.length + 1 < mkfsSuperblock.ninodes ∧ (files.length + 2) % 32 ≠ 0 ∧
    ((rootNames files).map fun name => name.take dirsiz).Nodup

instance (files : List HostFile) : Decidable (Sound files) := inferInstanceAs (Decidable (_ ∧ _ ∧ _))

section

variable {m : Mk} {files : List HostFile} {fs : Contents} {root : List UInt8}

theorem used_index (formatted : Formatted m root fs) {inum : Nat} (used : Used m inum) :
    ∃ i, inum = i + 1 ∧ i < (nodesOf ((tDir, root) :: fs)).length := by
  have next := formatted.next
  obtain ⟨first, last⟩ := used
  refine ⟨inum - 1, (Nat.sub_add_cancel first).symm, ?_⟩
  rw [nodesOf, List.length_map, List.length_cons]
  omega

theorem index_used (formatted : Formatted m root fs) {i : Nat} (inside : i < (nodesOf ((tDir, root) :: fs)).length) : Used m (i + 1) := by
  rw [nodesOf, List.length_map, List.length_cons] at inside
  refine ⟨Nat.succ_pos i, ?_⟩
  rw [formatted.next]
  omega

theorem root_blocks (formatted : Formatted m root fs) {bn : Nat} (small : bn < maxfile) :
    mapped m.img (dinode m.img rootino) bn ≠ 0 ↔ bn < blockCount root.length := by
  obtain ⟨own, image⟩ := formatted.image
  exact (image.disk.nodes 0 _ rfl).map bn small

theorem root_short (formatted : Formatted m root fs) : blockCount root.length ≤ maxfile := by
  obtain ⟨own, image⟩ := formatted.image
  exact (image.disk.nodes 0 _ rfl).most

theorem rootEntry_eq (formatted : Formatted m ((rootEntries files).flatMap direntBytes) fs) {k : Nat}
    (inside : 16 * k < blockCount ((rootEntries files).flatMap direntBytes).length * bsize) :
    rootEntry m k = (rootEntries files).getD k Buf.zero := by
  obtain ⟨own, image⟩ := formatted.image
  have holds := image.disk.nodes 0 _ rfl
  apply Buf.ext_get
  intro j low
  rw [rootEntry, dirEntry, Buf.get_ofFn _ _ low, ← entries_get _ _ low]
  apply holds.bytes
  dsimp only [Node.full]
  unfold bsize at *
  omega

theorem formatted_bitmap (formatted : Formatted m root fs) (b : Nat) :
    bitSet (m.img mkfsSuperblock.bmapstart) b = true ↔ b < mkfsNmeta ∨ ∃ inum slot, Used m inum ∧ blockOf m inum slot = b := by
  obtain ⟨own, image⟩ := formatted.image
  rw [formatted.bitmap, bitSet_range (Nat.le_trans image.fits (by decide))]
  constructor
  · intro low
    by_cases early : b < mkfsNmeta
    · exact .inl early
    · obtain ⟨inside, leads⟩ := image.disk.owned b (Nat.not_lt.mp early) low
      exact .inr ⟨_, _, index_used formatted inside, leads⟩
  · rintro (early | ⟨inum, slot, used, here⟩)
    · exact Nat.lt_of_lt_of_le early image.disk.low
    · obtain ⟨i, rfl, inside⟩ := used_index formatted used
      by_cases none_ : b = 0
      · rw [none_]
        exact Nat.lt_of_lt_of_le (by decide) image.disk.low
      · have owns := image.disk.owns i slot inside (fun zero => none_ (here.symm.trans zero))
        exact here ▸ owns.2.1

theorem formatted_data (formatted : Formatted m root fs) (inum : Nat) (slot : Slot) (used : Used m inum)
    (some_ : blockOf m inum slot ≠ 0) : mkfsNmeta ≤ blockOf m inum slot ∧ blockOf m inum slot < fssize := by
  obtain ⟨own, image⟩ := formatted.image
  obtain ⟨i, rfl, inside⟩ := used_index formatted used
  obtain ⟨low, high, -⟩ := image.disk.owns i slot inside some_
  exact ⟨low, Nat.lt_of_lt_of_le high image.fits⟩

theorem formatted_single (formatted : Formatted m root fs) (inum : Nat) (slot : Slot) (inum' : Nat) (slot' : Slot)
    (used : Used m inum) (used' : Used m inum') (some_ : blockOf m inum slot ≠ 0)
    (same : blockOf m inum slot = blockOf m inum' slot') : inum = inum' ∧ slot = slot' := by
  obtain ⟨own, image⟩ := formatted.image
  obtain ⟨i, rfl, inside⟩ := used_index formatted used
  obtain ⟨i', rfl, inside'⟩ := used_index formatted used'
  have owner := (image.disk.owns i slot inside some_).2.2
  have owner' := (image.disk.owns i' slot' inside' fun zero => some_ (same.trans zero)).2.2
  have equal : (i, slot) = (i', slot') := by
    rw [← owner, ← owner']
    exact congrArg own same
  cases equal
  exact ⟨rfl, rfl⟩

theorem formatted_inodes (formatted : Formatted m root fs) (inum : Nat) (used : Used m inum) :
    mkfsSuperblock.iblock inum < mkfsSuperblock.bmapstart := by
  have := formatted.next
  have := formatted.room
  have := used.2
  exact iblock_low (by omega)

theorem formatted_links (formatted : Formatted m ((rootEntries files).flatMap direntBytes) (fileContents files)) (inum : Nat)
    (used : Used m inum) : (dinode m.img inum).type ≠ 0 ∧ (dinode m.img inum).nlink = 1 := by
  obtain ⟨own, image⟩ := formatted.image
  obtain ⟨i, rfl, inside⟩ := used_index formatted used
  have holds := image.disk.nodes i _ (List.getElem?_eq_getElem inside)
  refine ⟨?_, holds.nlink⟩
  have type : (dinode m.img (i + 1)).type = _ := holds.type
  rw [type]
  cases i with
  | zero => exact (by decide : tDir ≠ 0)
  | succ i =>
    have file : (nodesOf ((tDir, (rootEntries files).flatMap direntBytes) :: fileContents files)).get ⟨i + 1, inside⟩ ∈
        nodesOf (fileContents files) := List.getElem_mem _
    obtain ⟨f, member, same⟩ := List.mem_map.mp file
    obtain ⟨host, -, rfl⟩ := List.mem_map.mp member
    have typed := congrArg Node.type same
    exact typed ▸ (by decide : tFile ≠ 0)

theorem file_holes (formatted : Formatted m root fs) {i bn : Nat} (inside : i < fs.length)
    (below : bn * bsize < (dinode m.img (i + 2)).size) : bn < maxfile ∧ mapped m.img (dinode m.img (i + 2)) bn ≠ 0 := by
  obtain ⟨own, image⟩ := formatted.image
  have found := List.getElem?_eq_getElem inside
  have holds := image.disk.nodes (i + 1) _ (nodes_at (i := i + 1) found)
  rw [formatted.sizes i _ found] at below
  have count : bn < blockCount (fs.get ⟨i, inside⟩).2.length := by
    have enough := blockCount_le (fs.get ⟨i, inside⟩).2.length
    exact Nat.lt_of_mul_lt_mul_right (Nat.lt_of_lt_of_le below enough)
  have small := Nat.lt_of_lt_of_le count holds.most
  exact ⟨small, (holds.map bn small).mpr count⟩

theorem root_holes (formatted : Formatted m root fs) :
    (∀ bn, bn * bsize < (dinode m.img rootino).size → bn < maxfile ∧ mapped m.img (dinode m.img rootino) bn ≠ 0) ↔
      root.length % bsize ≠ 0 := by
  rw [formatted.rootSize]
  have most := root_short formatted
  rcases blockCount_mod root.length with ⟨full, count⟩ | ⟨part, count⟩
  · refine ⟨fun none_ => absurd (none_ (root.length / bsize) ?_) ?_, fun never => absurd full never⟩
    · exact Nat.mul_lt_mul_of_pos_right (Nat.lt_succ_self _) (by decide)
    · rintro ⟨small, some_⟩
      have below := (root_blocks formatted small).mp some_
      rw [count] at below
      exact Nat.lt_irrefl _ below
  · refine ⟨fun _ => part, fun _ bn below => ?_⟩
    have low : bn < blockCount root.length := by
      rw [count]
      exact Nat.lt_of_mul_lt_mul_right below
    have small := Nat.lt_of_lt_of_le low most
    exact ⟨small, (root_blocks formatted small).mpr low⟩

section

variable (formatted : Formatted m ((rootEntries files).flatMap direntBytes) (fileContents files))

include formatted

theorem entry_small {k : Nat} {name : Name} (found : (rootNames files)[k]? = some name) :
    entryInum k < files.length + 2 ∧ entryInum k < 256 ^ 2 := by
  have room := formatted.room
  have inside := (List.getElem?_eq_some_iff.mp found).1
  rw [rootNames_length] at inside
  rw [fileContents, List.length_map] at room
  have bound : inodeRoom < 256 ^ 2 := by decide
  have first : rootino = 1 := rfl
  unfold entryInum
  split
  · omega
  · omega

omit formatted in
theorem entryInum_ne_zero (k : Nat) : entryInum k ≠ 0 := by
  have first : rootino = 1 := rfl
  unfold entryInum
  split
  · omega
  · omega

theorem entry_of_name {k : Nat} {name : Name} (found : (rootNames files)[k]? = some name) :
    16 * k < (dinode m.img rootino).size ∧ rootEntry m k = Dirent.make name (entryInum k) ∧
      (rootEntry m k).inum = entryInum k := by
  have inside := (List.getElem?_eq_some_iff.mp found).1
  have length := entries_bytes (rootEntries files)
  rw [rootEntries_length] at length
  rw [rootNames_length] at inside
  have enough := blockCount_le ((rootEntries files).flatMap direntBytes).length
  have entry := rootEntry_eq (k := k) formatted (by omega)
  rw [List.getD_eq_getElem?_getD, rootEntries_get, found] at entry
  refine ⟨?_, entry, ?_⟩
  · have part := Nat.lt_div_mul_add (a := ((rootEntries files).flatMap direntBytes).length) (by decide : 0 < bsize)
    rw [formatted.rootSize, Nat.succ_mul (_ / bsize) bsize]
    omega
  · rw [entry]
    exact make_inum name (entry_small formatted found).2

theorem name_of_entry {k : Nat} (part : ((rootEntries files).flatMap direntBytes).length % bsize ≠ 0)
    (inside : 16 * k < (dinode m.img rootino).size) (some_ : (rootEntry m k).inum ≠ 0) :
    ∃ name, (rootNames files)[k]? = some name := by
  cases found : (rootNames files)[k]? with
  | some name => exact ⟨name, rfl⟩
  | none =>
    have count : blockCount ((rootEntries files).flatMap direntBytes).length =
        ((rootEntries files).flatMap direntBytes).length / bsize + 1 := by
      rcases blockCount_mod ((rootEntries files).flatMap direntBytes).length with ⟨full, -⟩ | ⟨-, count⟩
      · exact absurd full part
      · exact count
    rw [formatted.rootSize, ← count] at inside
    have entry := rootEntry_eq formatted inside
    rw [List.getD_eq_getElem?_getD, rootEntries_get, found] at entry
    rw [entry] at some_
    exact absurd zero_inum some_

theorem names_nodup
    (names : ∀ k k', 16 * k < (dinode m.img rootino).size → 16 * k' < (dinode m.img rootino).size →
      (rootEntry m k).inum ≠ 0 → (rootEntry m k').inum ≠ 0 → (rootEntry m k).name = (rootEntry m k').name → k = k') :
    ((rootNames files).map fun name => name.take dirsiz).Nodup := by
  rw [List.nodup_iff_getElem?_ne_getElem?]
  intro i j less inside same
  rw [List.length_map] at inside
  rw [List.getElem?_map, List.getElem?_map, List.getElem?_eq_getElem inside,
    List.getElem?_eq_getElem (Nat.lt_trans less inside), Option.map_some, Option.map_some, Option.some.injEq] at same
  have found := List.getElem?_eq_getElem inside
  have found' := List.getElem?_eq_getElem (Nat.lt_trans less inside)
  obtain ⟨low, entry, inum⟩ := entry_of_name formatted found
  obtain ⟨low', entry', inum'⟩ := entry_of_name formatted found'
  rw [← make_name_eq (rootNames_text (List.mem_of_getElem? found')) (rootNames_text (List.mem_of_getElem? found)), ← entry,
    ← entry'] at same
  refine absurd (names i j low' low ?_ ?_ same) (Nat.ne_of_lt less)
  · rw [inum']
    exact entryInum_ne_zero i
  · rw [inum]
    exact entryInum_ne_zero j

theorem nodup_names (part : ((rootEntries files).flatMap direntBytes).length % bsize ≠ 0)
    (nodup : ((rootNames files).map fun name => name.take dirsiz).Nodup) (k k' : Nat)
    (inside : 16 * k < (dinode m.img rootino).size) (inside' : 16 * k' < (dinode m.img rootino).size)
    (some_ : (rootEntry m k).inum ≠ 0) (some_' : (rootEntry m k').inum ≠ 0)
    (same : (rootEntry m k).name = (rootEntry m k').name) : k = k' := by
  obtain ⟨name, found⟩ := name_of_entry formatted part inside some_
  obtain ⟨name', found'⟩ := name_of_entry formatted part inside' some_'
  rw [(entry_of_name formatted found).2.1, (entry_of_name formatted found').2.1,
    make_name_eq (rootNames_text (List.mem_of_getElem? found)) (rootNames_text (List.mem_of_getElem? found'))] at same
  have inside : k < ((rootNames files).map fun name => name.take dirsiz).length := by
    rw [List.length_map]
    exact (List.getElem?_eq_some_iff.mp found).1
  refine (List.getElem?_inj inside nodup).mp ?_
  rw [List.getElem?_map, List.getElem?_map, found, found', Option.map_some, Option.map_some, same]

end

end

instance (fs : Contents) : Decidable (Acceptable fs) := inferInstanceAs (Decidable (_ ∧ _))

instance (files : List HostFile) : Decidable (Readable files) := inferInstanceAs (Decidable (∀ file ∈ files, _))

def emptyFile (i : Fin 30) : HostFile where
  name := [UInt8.ofNat (97 + i)]
  reads := some []
  text := by
    revert i
    decide
  sizes := fun _ found _ member => by
    cases found
    cases member

def emptyFiles (n : Nat) : List HostFile := (List.finRange 30).take n |>.map emptyFile

-- The image is as the kernel needs it exactly for the sound lists.
theorem mkfs_image_ok {m : Mk} {files : List HostFile} (done : mkfs files = .ok m) : ImageOk m ↔ Sound files := by
  have next := mkfs_counter done
  have split : files.length + 1 < mkfsSuperblock.ninodes →
      Formatted m ((rootEntries files).flatMap direntBytes) (fileContents files) := by
    intro room
    rcases mkfs_spec files (Nat.lt_trans room (by decide)) with ⟨m', done', formatted⟩ | ⟨⟨e, fails⟩, -⟩
    · rw [done] at done'
      cases done'
      exact formatted
    · rw [done] at fails
      cases fails
  have length := entries_bytes (rootEntries files)
  rw [rootEntries_length] at length
  have part : ((rootEntries files).flatMap direntBytes).length % bsize ≠ 0 ↔ (files.length + 2) % 32 ≠ 0 := by
    rw [length]
    unfold bsize
    omega
  constructor
  · intro ok
    have room := (ok.inodes (files.length + 1) ⟨Nat.succ_pos _, by omega⟩).1
    have formatted := split room
    refine ⟨room, part.mp ?_, names_nodup formatted ok.names⟩
    exact (root_holes formatted).mp fun bn => ok.holes rootino bn ⟨Nat.le_refl _, by rw [next]; exact Nat.succ_lt_succ (Nat.succ_pos _)⟩
  · rintro ⟨room, filled, nodup⟩
    have formatted := split room
    have ragged := part.mpr filled
    refine ⟨fun b _ => formatted_bitmap formatted b, formatted_data formatted, formatted_single formatted, ?_, ?_,
      nodup_names formatted ragged nodup, ?_⟩
    · intro inum bn used below
      obtain ⟨i, rfl, inside⟩ := used_index formatted used
      cases i with
      | zero => exact (root_holes formatted).mpr ragged bn below
      | succ i =>
        rw [nodesOf, List.length_map, List.length_cons] at inside
        exact file_holes formatted (Nat.lt_of_succ_lt_succ inside) below
    · intro inum used
      have := used.2
      exact ⟨by omega, formatted_inodes formatted inum used⟩
    · intro k inside some_
      obtain ⟨name, found⟩ := name_of_entry formatted ragged inside some_
      obtain ⟨-, -, inum⟩ := entry_of_name formatted found
      have small := (entry_small formatted found).1
      have used : Used m (rootEntry m k).inum := ⟨Nat.pos_of_ne_zero some_, by rw [inum, next]; exact small⟩
      exact ⟨used, formatted_links formatted _ used⟩

theorem mkfs_image_ok_two : Sound (emptyFiles 2) ∧ ∃ m, mkfs (emptyFiles 2) = .ok m ∧ ImageOk m := by
  have sound : Sound (emptyFiles 2) := by decide
  rcases mkfs_spec (emptyFiles 2) (by decide) with ⟨m, done, -⟩ | ⟨-, full⟩
  · exact ⟨sound, m, done, (mkfs_image_ok done).mpr sound⟩
  · exact absurd (by decide) full

-- The 32 entries fill the root directory's block, and its size is rounded up by another one.
theorem thirty_files_leave_hole : ∃ m, mkfs (emptyFiles 30) = .ok m ∧ ¬ ImageOk m ∧
    (dinode m.img rootino).size = 2 * bsize ∧ mapped m.img (dinode m.img rootino) 1 = 0 := by
  rcases mkfs_spec (emptyFiles 30) (by decide) with ⟨m, done, formatted⟩ | ⟨-, full⟩
  · have length : ((rootEntries (emptyFiles 30)).flatMap direntBytes).length = bsize := by
      rw [entries_bytes, rootEntries_length]
      rfl
    have hole : mapped m.img (dinode m.img rootino) 1 = 0 := by
      by_contra some_
      have below := (root_blocks formatted (by decide)).mp some_
      rw [length] at below
      exact absurd below (by decide)
    have size : (dinode m.img rootino).size = 2 * bsize := by
      rw [formatted.rootSize, length]
      rfl
    have used : Used m rootino := by
      refine ⟨Nat.le_refl _, ?_⟩
      rw [formatted.next]
      exact Nat.succ_lt_succ (Nat.succ_pos _)
    refine ⟨m, done, fun ok => ?_, size, hole⟩
    refine (ok.holes rootino 1 used ?_).2 hole
    rw [size]
    decide
  · exact absurd (by decide +kernel) full

end Xv6.Mkfs
