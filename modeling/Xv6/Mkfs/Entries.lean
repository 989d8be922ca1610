import Xv6.Mkfs.Main

set_option autoImplicit false

namespace Xv6.Mkfs

def rootNames (files : List HostFile) : List Name := dot :: dotdot :: files.map fun file => strip file.name

def entryInum (k : Nat) : Nat := if k < 2 then rootino else k

section

variable {files : List HostFile} {k : Nat}

theorem fileEntries_get (inum : Nat) (files : List HostFile) (k : Nat) :
    (fileEntries inum files)[k]? = (files[k]?).map fun file => Dirent.make (strip file.name) (inum + k) := by
  induction files generalizing inum k with
  | nil => rfl
  | cons file rest ih =>
    cases k with
    | zero => rfl
    | succ k =>
      rw [fileEntries, List.getElem?_cons_succ, List.getElem?_cons_succ, ih, Nat.add_assoc, Nat.add_comm 1]

theorem rootEntries_get (files : List HostFile) (k : Nat) :
    (rootEntries files)[k]? = ((rootNames files)[k]?).map fun name => Dirent.make name (entryInum k) := by
  match k with
  | 0 => rfl
  | 1 => rfl
  | k + 2 =>
    have inum : entryInum (k + 2) = 2 + k := by
      rw [entryInum, if_neg (by omega), Nat.add_comm]
    rw [rootEntries, rootNames, List.getElem?_cons_succ, List.getElem?_cons_succ, List.getElem?_cons_succ,
      List.getElem?_cons_succ, fileEntries_get, List.getElem?_map, Option.map_map, inum]
    rfl

theorem rootNames_length (files : List HostFile) : (rootNames files).length = files.length + 2 := by
  rw [rootNames, List.length_cons, List.length_cons, List.length_map]

theorem rootEntries_length (files : List HostFile) : (rootEntries files).length = files.length + 2 := by
  have counted : ∀ inum, (fileEntries inum files).length = files.length := by
    induction files with
    | nil => exact fun _ => rfl
    | cons file rest ih => exact fun inum => congrArg (· + 1) (ih (inum + 1))
  rw [rootEntries, List.length_cons, List.length_cons, counted]

theorem entries_bytes (entries : List Dirent) : (entries.flatMap direntBytes).length = 16 * entries.length := by
  induction entries with
  | nil => rfl
  | cons de rest ih =>
    rw [List.flatMap_cons, List.length_append, direntBytes_length, ih, List.length_cons]
    omega

theorem entries_get (entries : List Dirent) (k : Nat) {j : Nat} (inside : j < 16) :
    (entries.flatMap direntBytes).getD (16 * k + j) 0 = (entries.getD k Buf.zero).get j := by
  induction entries generalizing k with
  | nil => rw [List.flatMap_nil, List.getD_nil, List.getD_nil, Buf.get_zero]
  | cons de rest ih =>
    have length := direntBytes_length de
    rw [List.flatMap_cons]
    cases k with
    | zero =>
      rw [List.getD_append _ _ _ _ (by omega), List.getD_cons_zero, Nat.mul_zero, Nat.zero_add, direntBytes,
        List.getD_eq_getElem?_getD, List.getElem?_map, List.getElem?_range inside]
      rfl
    | succ k =>
      rw [List.getD_append_right _ _ _ _ (by omega), List.getD_cons_succ, ← ih]
      congr 1
      omega

theorem make_inum (name : Name) {inum : Nat} (small : inum < 256 ^ 2) : (Dirent.make name inum).inum = inum := by
  rw [Dirent.inum, Dirent.make, Buf.getLE_putLE _ _ _ _ (by decide), Nat.mod_eq_of_lt small]

theorem make_name (name : Name) (inum : Nat) {i : Nat} (inside : i < dirsiz) : (Dirent.make name inum).name i = name.getD i 0 := by
  have inside' : i < 14 := inside
  rw [Dirent.name, if_pos inside, Dirent.make, Buf.putLE, Buf.get_splice_outside _ _ _ _ _ (by omega),
    Buf.get_ofFn _ _ (by omega), if_pos (by unfold dirsiz; omega), Nat.add_sub_cancel_left]
  rfl

theorem zero_inum : Dirent.inum Buf.zero = 0 := Buf.getLE_zero _ _

end

theorem take_eq_iff {a b : Name} (n : Nat) (textA : 0 ∉ a) (textB : 0 ∉ b) :
    a.take n = b.take n ↔ ∀ i < n, a.getD i 0 = b.getD i 0 := by
  induction n generalizing a b with
  | zero => exact ⟨fun _ i never => absurd never (Nat.not_lt_zero i), fun _ => rfl⟩
  | succ n ih =>
    rw [Nat.forall_lt_succ_left]
    cases a with
    | nil =>
      cases b with
      | nil => exact ⟨fun _ => ⟨rfl, fun _ _ => rfl⟩, fun _ => rfl⟩
      | cons b bs =>
        refine ⟨nofun, fun same => absurd (List.mem_cons.mpr (.inl ?_)) textB⟩
        exact same.1
    | cons a as =>
      cases b with
      | nil =>
        refine ⟨nofun, fun same => absurd (List.mem_cons.mpr (.inl ?_)) textA⟩
        exact same.1.symm
      | cons b bs =>
        rw [List.take_succ_cons, List.take_succ_cons, List.cons.injEq,
          ih (fun member => textA (List.mem_cons_of_mem _ member)) (fun member => textB (List.mem_cons_of_mem _ member))]
        exact Iff.rfl

theorem strip_text {name : Name} (text : 0 ∉ name) : 0 ∉ strip name := by
  unfold strip
  split
  · exact fun member => text (List.mem_of_mem_tail member)
  · exact text

theorem rootNames_text {files : List HostFile} {name : Name} (member : name ∈ rootNames files) : 0 ∉ name := by
  rcases List.mem_cons.mp member with rfl | member
  · decide
  rcases List.mem_cons.mp member with rfl | member
  · decide
  · obtain ⟨file, -, rfl⟩ := List.mem_map.mp member
    exact strip_text file.text

theorem make_name_eq {a b : Name} (textA : 0 ∉ a) (textB : 0 ∉ b) (i j : Nat) :
    (Dirent.make a i).name = (Dirent.make b j).name ↔ a.take dirsiz = b.take dirsiz := by
  rw [take_eq_iff dirsiz textA textB]
  constructor
  · intro same o inside
    rw [← make_name a i inside, ← make_name b j inside, same]
  · intro same
    funext o
    by_cases inside : o < dirsiz
    · rw [make_name a i inside, make_name b j inside, same o inside]
    · rw [Dirent.name, Dirent.name, if_neg inside, if_neg inside]

end Xv6.Mkfs
