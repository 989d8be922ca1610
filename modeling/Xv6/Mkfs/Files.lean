import Xv6.Mkfs.Table

set_option autoImplicit false

namespace Xv6.Mkfs

abbrev Contents : Type := List (Nat × List UInt8)

def nodesOf (fs : Contents) : List Node := fs.map fun f => .full f.1 f.2

def total (fs : Contents) : Nat := mkfsNmeta + ((nodesOf fs).map Node.cost).sum

structure Made (m : Mk) (fs : Contents) : Prop where
  image : ∃ own, Image m (fun i => dinode m.img (i + 1)) (nodesOf fs) own
  sizes : ∀ i f, fs[i]? = some f → (dinode m.img (i + 1)).size = f.2.length
  next : m.freeinode = fs.length + 1
  room : fs.length < inodeRoom
  unused : ∀ inum < inodeRoom, inum = 0 ∨ fs.length < inum → (dinode m.img inum).type = 0

section

variable {m m' : Mk} {fs : Contents} {i t : Nat} {c : List UInt8}

theorem nodes_at {f : Nat × List UInt8} (at_ : fs[i]? = some f) : (nodesOf fs)[i]? = some (.full f.1 f.2) := by
  unfold nodesOf
  rw [List.getElem?_map, at_]
  rfl

theorem nodes_set (f : Nat × List UInt8) : (nodesOf fs).set i (.full f.1 f.2) = nodesOf (fs.set i f) := by
  unfold nodesOf
  rw [List.map_set]

theorem fits_iff (f : Nat × List UInt8) :
    Fits (nodesOf fs) i (.full f.1 f.2) ↔ f.2.length ≤ maxfile * bsize ∧ total (fs.set i f) ≤ fssize := by
  unfold Fits total
  rw [nodes_set]
  exact Iff.rfl

theorem keeps_dinode (keeps : Keeps m m') {inum : Nat} (inside : inum < inodeRoom) : dinode m'.img inum = dinode m.img inum := by
  unfold dinode
  rw [keeps.meta_ _ (Nat.lt_trans (iblock_low inside) (by decide))]

theorem iblock_size {own : Nat → Nat × Slot} {D : Nat → Dinode} {g : List Node} (image : Image m D g own) {inum : Nat}
    (inside : inum < inodeRoom) : mkfsSuperblock.iblock inum < m.size := by
  rw [image.size]
  exact Nat.lt_trans (iblock_low inside) (by decide)

theorem small_size {own : Nat → Nat × Slot} {D : Nat → Dinode} {g : List Node} (image : Image m D g own) {n : Node}
    (at_ : g[i]? = some n) : n.bytes.length < 256 ^ 4 := by
  have holds := image.disk.nodes i n at_
  have bound : n.blocks * bsize ≤ maxfile * bsize := Nat.mul_le_mul_right _ holds.most
  exact Nat.lt_of_le_of_lt (Nat.le_trans holds.room bound) (by decide)

theorem winode_spec {own : Nat → Nat × Slot} {D : Nat → Dinode} {g : List Node} (image : Image m D g own) {inum : Nat} {d : Dinode}
    (inside : inum < inodeRoom) (small : Small d) :
    ∃ m', winode m inum d = .ok m' ∧ Image m' D g own ∧ m'.freeinode = m.freeinode ∧
      ∀ inum', dinode m'.img inum' = if inum' = inum then d else dinode m.img inum' := by
  have low := iblock_low inside
  have bound := iblock_size image inside
  unfold winode
  rw [rsect, if_pos bound]
  refine ⟨_, rfl, ⟨?_, ?_, image.fits⟩, rfl, dinode_write small⟩
  · refine disk_meta image.disk fun b high => upd_ne ?_
    exact Nat.ne_of_gt (Nat.lt_of_lt_of_le (Nat.lt_trans low (by decide)) high)
  · exact (Nat.max_eq_left bound).trans image.size

theorem iappend_spec (made : Made m fs) (at_ : fs[i]? = some (t, c)) (p : List UInt8) :
    (∃ m', iappend m (i + 1) p = .ok m' ∧ Made m' (fs.set i (t, c ++ p))) ∨
    (∃ e, iappend m (i + 1) p = .error e) ∧ ¬ ((c ++ p).length ≤ maxfile * bsize ∧ total (fs.set i (t, c ++ p)) ≤ fssize) := by
  obtain ⟨own, image⟩ := made.image
  have inside := (List.getElem?_eq_some_iff.mp at_).1
  have room : i + 1 < inodeRoom := Nat.lt_of_le_of_lt inside made.room
  have size := made.sizes i _ at_
  have node := nodes_at at_
  unfold iappend rinode
  rw [rsect, if_pos (iblock_size image room)]
  have same : getDinode (m.img (mkfsSuperblock.iblock (i + 1))) ((i + 1) % ipb) = dinode m.img (i + 1) := rfl
  dsimp only [bind, Except.bind]
  rw [same, size]
  rcases loop_spec p.length image node p (Nat.le_refl _) with ⟨m', din, own', done, image', keeps, fields⟩ | ⟨⟨e, fails⟩, full⟩
  · rw [done]
    dsimp only
    have at_' : ((nodesOf fs).set i (.full t (c ++ p)))[i]? = some (.full t (c ++ p)) :=
      List.getElem?_set_self (List.getElem?_eq_some_iff.mp node).1
    have length : c.length + p.length = (c ++ p).length := List.length_append.symm
    have before := getDinode_small (m.img (mkfsSuperblock.iblock (i + 1))) ((i + 1) % ipb)
    rw [same] at before
    have small : Small { din with size := c.length + p.length } := by
      refine ⟨?_, ?_, ?_, ?_, ?_⟩
      · exact fields.type ▸ before.type
      · exact fields.major ▸ before.major
      · exact fields.minor ▸ before.minor
      · exact fields.nlink ▸ before.nlink
      · rw [length]
        exact small_size image' at_'
    obtain ⟨m'', written, image'', next, table⟩ := winode_spec image' room small
    refine .inl ⟨m'', written, ⟨own', ?_⟩, fun j f found => ?_, ?_, ?_, fun inum low unused => ?_⟩
    · have shown : (nodesOf fs).set i (.full t (c ++ p)) = nodesOf (fs.set i (t, c ++ p)) := nodes_set (t, c ++ p)
      rw [← shown]
      refine ⟨disk_congr image''.disk fun j inside' => ?_, image''.size, image''.fits⟩
      rw [table]
      by_cases here : j = i
      · rw [here, if_pos rfl, upd_self]
        exact ⟨rfl, rfl, rfl⟩
      · rw [if_neg (by omega), upd_ne here]
        have low : j + 1 < inodeRoom := by
          have := made.room
          rw [List.length_set, nodesOf, List.length_map] at inside'
          omega
        rw [keeps_dinode keeps low]
        exact ⟨rfl, rfl, rfl⟩
    · rw [table]
      by_cases here : j = i
      · rw [here, List.getElem?_set_self inside] at found
        cases found
        rw [here, if_pos rfl]
        exact length
      · rw [List.getElem?_set_ne (Ne.symm here)] at found
        have inside' := (List.getElem?_eq_some_iff.mp found).1
        rw [if_neg (by omega), keeps_dinode keeps (Nat.lt_of_le_of_lt inside' made.room)]
        exact made.sizes j f found
    · rw [next, keeps.freeinode, List.length_set]
      exact made.next
    · rw [List.length_set]
      exact made.room
    · rw [List.length_set] at unused
      rw [table, if_neg (by omega), keeps_dinode keeps low]
      exact made.unused inum low unused
  · rw [fails]
    refine .inr ⟨⟨e, rfl⟩, fun fits => full ((fits_iff (t, c ++ p)).mpr fits)⟩

theorem ialloc_spec (made : Made m fs) (room : fs.length + 1 < inodeRoom) (small : t < 256 ^ 2) :
    ∃ m', ialloc m t = .ok (fs.length + 1, m') ∧ Made m' (fs ++ [(t, [])]) := by
  obtain ⟨own, image⟩ := made.image
  have image' : Image { m with freeinode := m.freeinode + 1 } (fun i => dinode m.img (i + 1)) (nodesOf fs) own :=
    ⟨image.disk, image.size, image.fits⟩
  have smallD : Small (freshDinode t) := ⟨small, (by decide : 0 < 256 ^ 2), (by decide : 0 < 256 ^ 2), (by decide : 1 < 256 ^ 2),
    (by decide : 0 < 256 ^ 4)⟩
  obtain ⟨m', written, image'', next, table⟩ := winode_spec image' room smallD
  have grown := disk_new image''.disk t
  unfold ialloc
  rw [made.next]
  rw [made.next] at written
  rw [written]
  refine ⟨m', rfl, ⟨own, ?_⟩, fun j f found => ?_, ?_, ?_, fun inum low unused => ?_⟩
  · have shown : nodesOf (fs ++ [(t, [])]) = nodesOf fs ++ [⟨t, [], 0, false⟩] := by
      have none_ : blockCount 0 = 0 := by decide
      have empty : Node.full t [] = ⟨t, [], 0, false⟩ := by
        unfold Node.full
        rw [List.length_nil, none_]
        rfl
      unfold nodesOf
      rw [List.map_append, List.map_singleton, empty]
    rw [shown]
    refine ⟨disk_congr grown fun j inside => ?_, image''.size, image''.fits⟩
    have length : (nodesOf fs).length = fs.length := List.length_map _
    rw [table]
    by_cases here : j = fs.length
    · rw [here, if_pos rfl, length, upd_self]
      exact ⟨rfl, rfl, rfl⟩
    · rw [if_neg (by omega), length, upd_ne here]
      exact ⟨rfl, rfl, rfl⟩
  · rw [table]
    by_cases here : j = fs.length
    · rw [here, List.getElem?_concat_length] at found
      cases found
      rw [here, if_pos rfl]
      rfl
    · have inside := (List.getElem?_eq_some_iff.mp found).1
      rw [List.length_append, List.length_singleton] at inside
      rw [List.getElem?_append_left (by omega)] at found
      rw [if_neg (by omega)]
      exact made.sizes j f found
  · rw [next, made.next, List.length_append, List.length_singleton]
  · rw [List.length_append]
    exact room
  · rw [List.length_append, List.length_singleton] at unused
    rw [table, if_neg (by omega)]
    exact made.unused inum low (by omega)

end

def Acceptable (fs : Contents) : Prop := (∀ f ∈ fs, f.2.length ≤ maxfile * bsize) ∧ total fs ≤ fssize

def Below : Contents → Contents → Prop
  | [], _ => True
  | _ :: _, [] => False
  | a :: as, b :: bs => a.2.length ≤ b.2.length ∧ Below as bs

theorem below_refl (fs : Contents) : Below fs fs := by
  induction fs with
  | nil => trivial
  | cons a as ih => exact ⟨Nat.le_refl _, ih⟩

theorem below_append {as bs : Contents} (below : Below as bs) (cs : Contents) : Below as (bs ++ cs) := by
  induction as generalizing bs with
  | nil => trivial
  | cons a as ih =>
    cases bs with
    | nil => exact below.elim
    | cons b bs => exact ⟨below.1, ih below.2⟩

theorem below_concat (fs : Contents) (t t' : Nat) {a b : List UInt8} (less : a.length ≤ b.length) :
    Below (fs ++ [(t, a)]) (fs ++ [(t', b)]) := by
  induction fs with
  | nil => exact ⟨less, trivial⟩
  | cons f fs ih => exact ⟨Nat.le_refl _, ih⟩

theorem sum_mono {as bs : Contents} (below : Below as bs) :
    ((nodesOf as).map Node.cost).sum ≤ ((nodesOf bs).map Node.cost).sum := by
  induction as generalizing bs with
  | nil => exact Nat.zero_le _
  | cons a as ih =>
    cases bs with
    | nil => exact below.elim
    | cons b bs =>
      have first : (Node.full a.1 a.2).cost ≤ (Node.full b.1 b.2).cost := extra_mono (blockCount_mono below.1)
      exact Nat.add_le_add first (ih below.2)

theorem lengths_mono {as bs : Contents} {limit : Nat} (below : Below as bs) (bound : ∀ f ∈ bs, f.2.length ≤ limit) :
    ∀ f ∈ as, f.2.length ≤ limit := by
  induction as generalizing bs with
  | nil => exact nofun
  | cons a as ih =>
    cases bs with
    | nil => exact below.elim
    | cons b bs =>
      intro f member
      rcases List.mem_cons.mp member with rfl | later
      · exact Nat.le_trans below.1 (bound b List.mem_cons_self)
      · exact ih below.2 (fun g old => bound g (List.mem_cons_of_mem b old)) f later

theorem acceptable_mono {as bs : Contents} (below : Below as bs) (fine : Acceptable bs) : Acceptable as :=
  ⟨lengths_mono below fine.1, Nat.le_trans (Nat.add_le_add_left (sum_mono below) _) fine.2⟩

section

variable {m m' : Mk} {fs ds : Contents} {i t : Nat} {c r : List UInt8}

theorem addPieces_spec (made : Made m fs) (at_ : fs[i]? = some (t, c)) (pieces : List (List UInt8)) :
    (∃ m', addPieces (i + 1) m pieces = .ok m' ∧ Made m' (fs.set i (t, c ++ pieces.flatten))) ∨
    (∃ e, addPieces (i + 1) m pieces = .error e) ∧
      ¬ ((c ++ pieces.flatten).length ≤ maxfile * bsize ∧ total (fs.set i (t, c ++ pieces.flatten)) ≤ fssize) := by
  induction pieces generalizing m fs c with
  | nil =>
    obtain ⟨inside, found⟩ := List.getElem?_eq_some_iff.mp at_
    refine .inl ⟨m, rfl, ?_⟩
    rw [List.flatten_nil, List.append_nil, ← found, List.set_getElem_self]
    exact made
  | cons piece rest ih =>
    have inside := (List.getElem?_eq_some_iff.mp at_).1
    have whole : c ++ piece ++ rest.flatten = c ++ (piece :: rest).flatten := by rw [List.flatten_cons, List.append_assoc]
    rw [addPieces]
    rcases iappend_spec made at_ piece with ⟨m', done, made'⟩ | ⟨⟨e, fails⟩, full⟩
    · rw [done]
      have later := ih made' (List.getElem?_set_self inside)
      rw [whole, List.set_set] at later
      exact later
    · rw [fails]
      refine .inr ⟨⟨e, rfl⟩, fun fits => full ?_⟩
      have large := (fits_iff (t, c ++ (piece :: rest).flatten)).mpr fits
      have small := fits_mono (nodes_at at_) (a := c ++ piece) ?_ large
      · exact (fits_iff (t, c ++ piece)).mp small
      · have longer : (c ++ piece ++ rest.flatten).length = _ := List.length_append
        rw [whole] at longer
        exact Nat.le.intro longer.symm

def entryBytes (inum : Nat) (file : HostFile) : List UInt8 := direntBytes (Dirent.make (strip file.name) inum)

def content (file : HostFile) : List UInt8 := (file.reads.getD []).flatten

theorem set_last (fs : Contents) (f g : Nat × List UInt8) : (fs ++ [f]).set fs.length g = fs ++ [g] := by
  rw [List.set_append_right _ _ (Nat.le_refl _), Nat.sub_self]
  rfl

theorem addFile_spec (made : Made m ((tDir, r) :: ds)) (room : ds.length + 2 < inodeRoom) (file : HostFile) :
    (∃ m', addFile m file = .ok m' ∧
      Made m' ((tDir, r ++ entryBytes (ds.length + 2) file) :: (ds ++ [(tFile, content file)]))) ∨
    (∃ e, addFile m file = .error e) ∧ ¬ ((slash ∉ file.name ∧ file.reads ≠ none) ∧
      Acceptable ((tDir, r ++ entryBytes (ds.length + 2) file) :: (ds ++ [(tFile, content file)]))) := by
  unfold addFile
  by_cases slashes : slash ∈ file.name
  · rw [if_pos slashes]
    exact .inr ⟨⟨_, rfl⟩, fun fine => fine.1.1 slashes⟩
  rw [if_neg slashes]
  cases reads : file.reads with
  | none => exact .inr ⟨⟨_, rfl⟩, fun fine => fine.1.2 rfl⟩
  | some pieces =>
    have contents : content file = pieces.flatten := by
      unfold content
      rw [reads]
      rfl
    obtain ⟨m₁, allocated, made₁⟩ := ialloc_spec (t := tFile) made room (by decide)
    dsimp only
    rw [allocated]
    dsimp only [bind, Except.bind]
    rcases iappend_spec (i := 0) made₁ rfl (entryBytes (ds.length + 2) file) with ⟨m₂, entered, made₂⟩ | ⟨⟨e, fails⟩, full⟩
    · have entered' : iappend m₁ rootino (direntBytes (Dirent.make (strip file.name) (((tDir, r) :: ds).length + 1))) = .ok m₂ :=
        entered
      rw [entered']
      have last : ((tDir, r ++ entryBytes (ds.length + 2) file) :: (ds ++ [(tFile, [])]))[ds.length + 1]? = some (tFile, []) :=
        List.getElem?_concat_length
      rcases addPieces_spec made₂ last pieces with ⟨m₃, added, made₃⟩ | ⟨⟨e, fails⟩, full⟩
      · refine .inl ⟨m₃, added, ?_⟩
        rw [contents, ← set_last ds (tFile, [])]
        exact made₃
      · refine .inr ⟨⟨e, fails⟩, fun fine => full ⟨?_, ?_⟩⟩
        · rw [← contents]
          exact fine.2.1 (tFile, content file) (List.mem_cons_of_mem _ (List.mem_append_right _ List.mem_cons_self))
        · rw [contents, ← set_last ds (tFile, [])] at fine
          exact fine.2.2
    · have fails' : iappend m₁ rootino (direntBytes (Dirent.make (strip file.name) (((tDir, r) :: ds).length + 1))) = .error e :=
        fails
      rw [fails']
      refine .inr ⟨⟨e, rfl⟩, fun fine => full ?_⟩
      have below : Below ((tDir, r ++ entryBytes (ds.length + 2) file) :: (ds ++ [(tFile, [])]))
          ((tDir, r ++ entryBytes (ds.length + 2) file) :: (ds ++ [(tFile, content file)])) :=
        ⟨Nat.le_refl _, below_concat ds tFile tFile (Nat.zero_le _)⟩
      have small := acceptable_mono below fine.2
      exact ⟨small.1 _ List.mem_cons_self, small.2⟩

end

end Xv6.Mkfs
