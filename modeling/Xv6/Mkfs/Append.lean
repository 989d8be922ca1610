import Xv6.Mkfs.Disk

set_option autoImplicit false

namespace Xv6.Mkfs

def blockCount (len : Nat) : Nat := (len + (bsize - 1)) / bsize

def Node.full (type : Nat) (bytes : List UInt8) : Node where
  type := type
  bytes := bytes
  blocks := blockCount bytes.length
  ind := decide (ndirect < blockCount bytes.length)

structure Keeps (m m' : Mk) : Prop where
  size : m'.size = m.size
  freeinode : m'.freeinode = m.freeinode
  meta_ : ∀ b < mkfsNmeta, m'.img b = m.img b

structure Image (m : Mk) (D : Nat → Dinode) (g : List Node) (own : Nat → Nat × Slot) : Prop where
  disk : Disk m.img D m.freeblock g own
  size : m.size = fssize
  fits : m.freeblock ≤ fssize

section

variable {m m' : Mk} {D : Nat → Dinode} {g : List Node} {own : Nat → Nat × Slot} {i t : Nat} {c : List UInt8}

theorem blockCount_mod (len : Nat) :
    (len % bsize = 0 ∧ blockCount len = len / bsize) ∨ (len % bsize ≠ 0 ∧ blockCount len = len / bsize + 1) := by
  unfold blockCount bsize
  omega

theorem blockCount_le (len : Nat) : len ≤ blockCount len * bsize := by
  unfold blockCount bsize
  omega

theorem keeps_trans {m'' : Mk} (first : Keeps m m') (second : Keeps m' m'') : Keeps m m'' :=
  ⟨second.size.trans first.size, second.freeinode.trans first.freeinode,
    fun b low => (second.meta_ b low).trans (first.meta_ b low)⟩

theorem keeps_wsect {sec : Nat} (data : Block) (inside : sec < m.size) (high : mkfsNmeta ≤ sec) (free : Nat) :
    Keeps m (wsect { m with freeblock := free } sec data) :=
  ⟨Nat.max_eq_left inside, rfl, fun _ low => upd_ne (Nat.ne_of_lt (Nat.lt_of_lt_of_le low high))⟩

structure SameInode (d d' : Dinode) : Prop where
  type : d'.type = d.type
  major : d'.major = d.major
  minor : d'.minor = d.minor
  nlink : d'.nlink = d.nlink
  size : d'.size = d.size

theorem same_refl (d : Dinode) : SameInode d d := ⟨rfl, rfl, rfl, rfl, rfl⟩

theorem same_setAddr (d : Dinode) (j b : Nat) : SameInode d (d.setAddr j b) := ⟨rfl, rfl, rfl, rfl, rfl⟩

theorem indirect_inside (image : Image m D g own) (inside : i < g.length) (present : (D i).addr ndirect ≠ 0) :
    mkfsNmeta ≤ (D i).addr ndirect ∧ (D i).addr ndirect < m.size := by
  obtain ⟨low, high, -⟩ := image.disk.owns i .indirect inside present
  have same : ref m.img (D i) .indirect = (D i).addr ndirect := rfl
  have := image.fits
  rw [image.size]
  omega

theorem block_old (image : Image m D g own) (inside : i < g.length) {fbn : Nat}
    (used : mapped m.img (D i) fbn ≠ 0) : iappendBlock m (D i) fbn = .ok (mapped m.img (D i) fbn, D i, m) := by
  unfold iappendBlock
  by_cases direct : fbn < ndirect
  · rw [mapped_direct direct] at used ⊢
    rw [if_pos direct, needAddr, if_neg used]
  · have present : (D i).addr ndirect ≠ 0 := fun none_ => used (mapped_none direct none_)
    rw [mapped_entry direct present] at used ⊢
    rw [if_neg direct, needAddr, if_neg present]
    dsimp only
    rw [needEntry, rsect, if_pos (indirect_inside image inside present).2]
    dsimp only [bind, Except.bind]
    rw [if_neg used]

theorem block_direct {fbn : Nat} (direct : fbn < ndirect) (absent : (D i).addr fbn = 0) :
    iappendBlock m (D i) fbn =
      .ok (((D i).setAddr fbn m.freeblock).addr fbn, (D i).setAddr fbn m.freeblock, { m with freeblock := m.freeblock + 1 }) := by
  unfold iappendBlock
  rw [if_pos direct, needAddr, if_pos absent]

theorem entry_new {m : Mk} {ind j : Nat} (inside : ind < m.size) (absent : (m.img ind).getLE (4 * j) 4 = 0) :
    needEntry m ind j = .ok (((m.img ind).putLE (4 * j) 4 m.freeblock).getLE (4 * j) 4,
      wsect { m with freeblock := m.freeblock + 1 } ind ((m.img ind).putLE (4 * j) 4 m.freeblock)) := by
  rw [needEntry, rsect, if_pos inside]
  dsimp only [bind, Except.bind]
  rw [if_pos absent]

theorem block_entry {fbn : Nat} (indirect : ¬ fbn < ndirect) (present : (D i).addr ndirect ≠ 0) :
    iappendBlock m (D i) fbn = (needEntry m ((D i).addr ndirect) (fbn - ndirect)).map fun r => (r.1, D i, r.2) := by
  unfold iappendBlock
  rw [if_neg indirect, needAddr, if_neg present]
  dsimp only
  cases needEntry m ((D i).addr ndirect) (fbn - ndirect) <;> rfl

theorem block_both {fbn : Nat} (indirect : ¬ fbn < ndirect) (absent : (D i).addr ndirect = 0) :
    iappendBlock m (D i) fbn =
      (needEntry { m with freeblock := m.freeblock + 1 } (((D i).setAddr ndirect m.freeblock).addr ndirect) (fbn - ndirect)).map
        fun r => (r.1, (D i).setAddr ndirect m.freeblock, r.2) := by
  unfold iappendBlock
  rw [if_neg indirect, needAddr, if_pos absent]
  dsimp only
  cases needEntry { m with freeblock := m.freeblock + 1 } (((D i).setAddr ndirect m.freeblock).addr ndirect) (fbn - ndirect) <;> rfl

-- With the block, or with an error when the image has no room.
def Found (m : Mk) (D : Nat → Dinode) (g : List Node) (i fbn : Nat) (n : Node) : Prop :=
  (∃ m' din own', iappendBlock m (D i) fbn = .ok (mapped m'.img din fbn, din, m') ∧
    Disk m'.img (upd D i din) m'.freeblock (g.set i n) own' ∧ Keeps m m' ∧ SameInode (D i) din ∧
    (m'.freeblock ≤ fssize ∨ fssize ≤ mapped m'.img din fbn)) ∨
  (∃ e, iappendBlock m (D i) fbn = .error e) ∧ fssize < mkfsNmeta + ((g.set i n).map Node.cost).sum

section

variable (image : Image m D g own)
include image

theorem found_old {n : Node} (at_ : g[i]? = some n) {fbn : Nat} (small : fbn < maxfile)
    (used : fbn < n.blocks) : Found m D g i fbn n := by
  obtain ⟨inside, found⟩ := List.getElem?_eq_some_iff.mp at_
  have there := ((image.disk.nodes i n at_).map fbn small).mpr used
  refine .inl ⟨m, D i, own, block_old image inside there, ?_, ⟨rfl, rfl, fun _ _ => rfl⟩, same_refl _, .inl image.fits⟩
  rw [upd_same, ← found, List.set_getElem_self]
  exact image.disk

theorem found_direct {n : Node} (at_ : g[i]? = some n) (direct : n.blocks < ndirect) :
    Found m D g i n.blocks { n with blocks := n.blocks + 1 } := by
  have bound : m.freeblock < 2 ^ 32 := Nat.lt_of_le_of_lt image.fits (by decide)
  have same : mapped m.img (D i) n.blocks = (D i).addr n.blocks := mapped_direct direct
  have absent : (D i).addr n.blocks = 0 := by
    by_contra used
    rw [← same] at used
    exact Nat.lt_irrefl _ (((image.disk.nodes i n at_).map _ (Nat.lt_trans direct (by decide))).mp used)
  refine .inl ⟨{ m with freeblock := m.freeblock + 1 }, (D i).setAddr n.blocks m.freeblock, _,
    (block_direct direct absent).trans ?_, disk_direct image.disk at_ direct bound, ⟨rfl, rfl, fun _ _ => rfl⟩, same_setAddr _ _ _, ?_⟩
  · rw [mapped_direct direct]
  · rw [mapped_direct direct, addr_set bound (Nat.le_of_lt direct)]
    dsimp only
    omega

theorem found_entry {n : Node} (at_ : g[i]? = some n) (indirect : ndirect ≤ n.blocks)
    (room : n.blocks < maxfile) (some_ : n.ind = true) : Found m D g i n.blocks { n with blocks := n.blocks + 1 } := by
  have inside := (List.getElem?_eq_some_iff.mp at_).1
  have holds := image.disk.nodes i n at_
  have bound : m.freeblock < 2 ^ 32 := Nat.lt_of_le_of_lt image.fits (by decide)
  have present := holds.ind.mpr some_
  obtain ⟨low, high⟩ := indirect_inside image inside present
  have absent : (m.img ((D i).addr ndirect)).getLE (4 * (n.blocks - ndirect)) 4 = 0 := by
    by_contra used
    rw [← mapped_entry (Nat.not_lt_of_le indirect) present] at used
    exact Nat.lt_irrefl _ ((holds.map _ room).mp used)
  have grown := disk_entry image.disk at_ some_ indirect room bound
  generalize made : (m.img ((D i).addr ndirect)).putLE (4 * (n.blocks - ndirect)) 4 m.freeblock = entries at grown
  have here : mapped (upd m.img ((D i).addr ndirect) entries) (D i) n.blocks = entries.getLE (4 * (n.blocks - ndirect)) 4 := by
    rw [mapped_entry (Nat.not_lt_of_le indirect) present, upd_self]
  have value : entries.getLE (4 * (n.blocks - ndirect)) 4 = m.freeblock := by
    rw [← made, Buf.getLE_putLE _ _ _ _ (by unfold maxfile ndirect nindirect bsize at *; omega)]
    exact Nat.mod_eq_of_lt bound
  refine .inl ⟨wsect { m with freeblock := m.freeblock + 1 } ((D i).addr ndirect) entries, D i, upd own m.freeblock (i, .data n.blocks), ?_, ?_,
    keeps_wsect _ high low _, same_refl _, ?_⟩
  · rw [block_entry (Nat.not_lt_of_le indirect) present, entry_new high absent, made]
    dsimp only [Except.map, wsect]
    rw [here]
  · rw [upd_same]
    exact grown
  · dsimp only [wsect]
    rw [here, value]
    omega

theorem found_both {n : Node} (at_ : g[i]? = some n) (first : n.blocks = ndirect) (none_ : n.ind = false) :
    Found m D g i n.blocks { n with blocks := n.blocks + 1, ind := true } := by
  have inside := (List.getElem?_eq_some_iff.mp at_).1
  have holds := image.disk.nodes i n at_
  have bound : m.freeblock < 2 ^ 32 := Nat.lt_of_le_of_lt image.fits (by decide)
  have absent : (D i).addr ndirect = 0 := by
    by_contra used
    rw [holds.ind.mp used] at none_
    cases none_
  have indirect : ¬ n.blocks < ndirect := by omega
  have new : ((D i).setAddr ndirect m.freeblock).addr ndirect = m.freeblock := addr_set bound (Nat.le_refl _)
  have both := block_both (m := m) (D := D) (i := i) indirect absent
  by_cases room : m.freeblock < fssize
  · have image' : Image { m with freeblock := m.freeblock + 1 } (upd D i ((D i).setAddr ndirect m.freeblock))
        (g.set i { n with ind := true }) (upd own m.freeblock (i, .indirect)) :=
      ⟨disk_indirect image.disk at_ none_ bound, image.size, room⟩
    have at_' : (g.set i { n with ind := true })[i]? = some { n with ind := true } := List.getElem?_set_self inside
    have present : (upd D i ((D i).setAddr ndirect m.freeblock) i).addr ndirect ≠ 0 := by
      rw [upd_self, new]
      exact Nat.ne_of_gt (Nat.lt_of_lt_of_le (by decide) image.disk.low)
    have same : iappendBlock m (D i) n.blocks =
        iappendBlock { m with freeblock := m.freeblock + 1 } (upd D i ((D i).setAddr ndirect m.freeblock) i) n.blocks := by
      rw [both, block_entry indirect present, upd_self]
    have found := found_entry image' at_' (Nat.le_of_eq first.symm) (by dsimp only; rw [first]; decide) rfl
    unfold Found at found ⊢
    dsimp only at found
    rw [← same, List.set_set] at found
    rcases found with ⟨m', din, own', done, disk, keeps, fields, fits⟩ | fails
    · rw [upd_twice] at disk
      rw [upd_self] at fields
      refine .inl ⟨m', din, own', done, disk, ⟨keeps.size, keeps.freeinode, keeps.meta_⟩, ?_, fits⟩
      exact ⟨fields.type, fields.major, fields.minor, fields.nlink, fields.size⟩
    · exact .inr fails
  · refine .inr ⟨⟨.read, ?_⟩, ?_⟩
    · rw [both, needEntry, rsect, new, if_neg]
      · rfl
      · rw [image.size]
        exact room
    · have sums := cost_set { n with blocks := n.blocks + 1, ind := true } at_
      have count := image.disk.count
      have more : Node.cost { n with blocks := n.blocks + 1, ind := true } = n.cost + 2 := by
        unfold Node.cost
        rw [none_]
        rfl
      omega

theorem block_spec (at_ : g[i]? = some (.full t c)) (small : c.length / bsize < maxfile) :
    Found m D g i (c.length / bsize)
      { Node.full t c with blocks := c.length / bsize + 1, ind := decide (ndirect < c.length / bsize + 1) } := by
  have filled : (Node.full t c).blocks = blockCount c.length := rfl
  have marked : (Node.full t c).ind = decide (ndirect < blockCount c.length) := rfl
  rcases blockCount_mod c.length with ⟨-, count⟩ | ⟨-, count⟩
  · rw [count] at filled marked
    by_cases direct : c.length / bsize < ndirect
    · have found := found_direct image at_ (by rw [filled]; exact direct)
      have flag : decide (ndirect < c.length / bsize + 1) = (Node.full t c).ind := by
        rw [marked, decide_eq_decide]
        omega
      rw [flag]
      rw [filled] at found
      exact found
    · by_cases first : c.length / bsize = ndirect
      · have found := found_both image at_ (by rw [filled]; exact first) (by rw [marked, first]; decide)
        have flag : decide (ndirect < c.length / bsize + 1) = true := decide_eq_true (by omega)
        rw [flag]
        rw [filled] at found
        exact found
      · have found := found_entry image at_ (by rw [filled]; omega) (by rw [filled]; exact small) (by rw [marked]; exact decide_eq_true (by omega))
        have flag : decide (ndirect < c.length / bsize + 1) = (Node.full t c).ind := by
          rw [marked, decide_eq_decide]
          omega
        rw [flag]
        rw [filled] at found
        exact found
  · -- The last block has room.
    have node : { Node.full t c with blocks := c.length / bsize + 1, ind := decide (ndirect < c.length / bsize + 1) } = Node.full t c := by
      unfold Node.full
      rw [count]
    rw [node]
    exact found_old image at_ small (by rw [filled, count]; exact Nat.lt_succ_self _)

def Fits (g : List Node) (i : Nat) (n : Node) : Prop :=
  n.bytes.length ≤ maxfile * bsize ∧ mkfsNmeta + ((g.set i n).map Node.cost).sum ≤ fssize

theorem chunk_spec (at_ : g[i]? = some (.full t c)) (p : List UInt8) (some_ : 0 < p.length) {n1 : Nat}
    (part : n1 = min p.length ((c.length / bsize + 1) * bsize - c.length)) :
    (∃ m' din own', iappendChunk m (D i) c.length p = .ok (din, m', n1) ∧
      Image m' (upd D i din) (g.set i (.full t (c ++ p.take n1))) own' ∧ Keeps m m' ∧ SameInode (D i) din) ∨
    (∃ e, iappendChunk m (D i) c.length p = .error e) ∧ ¬ Fits g i (.full t (c ++ p.take n1)) := by
  have inside := (List.getElem?_eq_some_iff.mp at_).1
  have start := Nat.div_mul_le_self c.length bsize
  have stop : c.length < (c.length / bsize + 1) * bsize := by
    rw [Nat.mul_comm]
    exact Nat.lt_mul_div_succ _ (by decide)
  have length : (p.take n1).length = n1 := by
    rw [List.length_take]
    omega
  have count : blockCount (c ++ p.take n1).length = c.length / bsize + 1 := by
    rw [List.length_append, length]
    unfold blockCount bsize at *
    omega
  have node : { Node.full t c with blocks := c.length / bsize + 1, ind := decide (ndirect < c.length / bsize + 1), bytes := c ++ p.take n1 } =
      Node.full t (c ++ p.take n1) := by
    unfold Node.full
    rw [count]
  have cost : Node.cost { Node.full t c with blocks := c.length / bsize + 1, ind := decide (ndirect < c.length / bsize + 1) } =
      Node.cost (Node.full t (c ++ p.take n1)) := by rw [← node]; rfl
  unfold iappendChunk
  by_cases small : c.length / bsize < maxfile
  · rw [if_pos small]
    have sums := cost_set (.full t (c ++ p.take n1)) at_
    have sums' := cost_set { Node.full t c with blocks := c.length / bsize + 1, ind := decide (ndirect < c.length / bsize + 1) } at_
    rw [cost] at sums'
    rcases block_spec image at_ small with ⟨m', din, own', done, disk, keeps, fields, fits⟩ | ⟨⟨e, fails⟩, full⟩
    · rw [done]
      dsimp only [bind, Except.bind]
      have total := disk.count
      have at_' : (g.set i { Node.full t c with blocks := c.length / bsize + 1, ind := decide (ndirect < c.length / bsize + 1) })[i]? =
        some { Node.full t c with blocks := c.length / bsize + 1, ind := decide (ndirect < c.length / bsize + 1) } := List.getElem?_set_self inside
      by_cases room : m'.freeblock ≤ fssize
      · have used : ref m'.img (upd D i din i) (.data (c.length / bsize)) ≠ 0 := by
          rw [ref_data small]
          exact ((disk.nodes i _ at_').map _ small).mpr (Nat.lt_succ_self _)
        obtain ⟨low, high, -⟩ := disk.owns i _ (by rw [List.length_set]; exact inside) used
        rw [ref_data small, upd_self] at low high
        have there : mapped m'.img din (c.length / bsize) < m'.size := by
          rw [keeps.size, image.size]
          omega
        have written := disk_write disk at_' (p.take n1) (c.length / bsize) rfl start (by rw [length]; dsimp only [Node.full]; omega)
        rw [upd_self, List.set_set, length] at written
        have source : ∀ j < n1, p.getD j 0 = (p.take n1).getD j 0 := by
          intro j less
          rw [List.getD_eq_getElem?_getD, List.getD_eq_getElem?_getD, List.getElem?_take_of_lt less]
        rw [rsect, if_pos there]
        dsimp only
        rw [← part, Buf.splice_congr _ _ _ _ _ source]
        refine .inl ⟨_, din, own', rfl, ⟨?_, ?_, room⟩, ?_, fields⟩
        · rw [← node]
          exact written
        · exact (Nat.max_eq_left there).trans (keeps.size.trans image.size)
        · exact keeps_trans keeps (keeps_wsect _ there low _)
      · have beyond := fits.resolve_left room
        rw [rsect, if_neg]
        · refine .inr ⟨⟨_, rfl⟩, fun fits => room ?_⟩
          have bound := fits.2
          omega
        · rw [keeps.size, image.size]
          omega
    · rw [fails]
      refine .inr ⟨⟨e, rfl⟩, fun fits => ?_⟩
      have bound := fits.2
      omega
  · rw [if_neg small]
    refine .inr ⟨⟨_, rfl⟩, fun fits => small ?_⟩
    have long : (c ++ p.take n1).length ≤ maxfile * bsize := fits.1
    rw [List.length_append, length] at long
    have less : c.length < c.length + n1 := by omega
    exact (Nat.div_lt_iff_lt_mul (by decide)).mpr (Nat.lt_of_lt_of_le less long)

end

theorem blockCount_mono {a b : Nat} (less : a ≤ b) : blockCount a ≤ blockCount b := Nat.div_le_div_right (Nat.add_le_add_right less _)

theorem extra_mono {a b limit : Nat} (less : a ≤ b) :
    (a + if decide (limit < a) = true then 1 else 0) ≤ b + if decide (limit < b) = true then 1 else 0 := by
  by_cases large : limit < a
  · rw [if_pos (decide_eq_true large), if_pos (decide_eq_true (Nat.lt_of_lt_of_le large less))]
    exact Nat.add_le_add_right less _
  · rw [if_neg (by simpa using large)]
    exact Nat.le_trans less (Nat.le_add_right _ _)

theorem cost_mono {a b : List UInt8} (less : a.length ≤ b.length) : (Node.full t a).cost ≤ (Node.full t b).cost :=
  extra_mono (blockCount_mono less)

theorem fits_mono {a b : List UInt8} {n : Node} (at_ : g[i]? = some n) (less : a.length ≤ b.length) (fits : Fits g i (.full t b)) :
    Fits g i (.full t a) := by
  have first := cost_set (.full t a) at_
  have second := cost_set (.full t b) at_
  have costs := cost_mono (t := t) less
  have bound := fits.2
  exact ⟨Nat.le_trans less fits.1, by omega⟩

theorem loop_none (left : Nat) (image : Image m D g own) (at_ : g[i]? = some (.full t c)) :
    ∃ m' din own', iappendLoop left m (D i) c.length [] = .ok (din, c.length + 0, m') ∧
      Image m' (upd D i din) (g.set i (.full t (c ++ []))) own' ∧ Keeps m m' ∧ SameInode (D i) din := by
  obtain ⟨inside, found⟩ := List.getElem?_eq_some_iff.mp at_
  refine ⟨m, D i, own, ?_, ?_, ⟨rfl, rfl, fun _ _ => rfl⟩, same_refl _⟩
  · cases left <;> rfl
  · rw [List.append_nil, upd_same, ← found, List.set_getElem_self]
    exact image

theorem loop_spec (left : Nat) (image : Image m D g own) (at_ : g[i]? = some (.full t c)) (p : List UInt8) (enough : p.length ≤ left) :
    (∃ m' din own', iappendLoop left m (D i) c.length p = .ok (din, c.length + p.length, m') ∧
      Image m' (upd D i din) (g.set i (.full t (c ++ p))) own' ∧ Keeps m m' ∧ SameInode (D i) din) ∨
    (∃ e, iappendLoop left m (D i) c.length p = .error e) ∧ ¬ Fits g i (.full t (c ++ p)) := by
  induction left generalizing m D g own c p with
  | zero =>
    cases List.length_eq_zero_iff.mp (Nat.le_zero.mp enough)
    exact .inl (loop_none 0 image at_)
  | succ left ih =>
    by_cases some_ : p.length > 0
    · have inside := (List.getElem?_eq_some_iff.mp at_).1
      rw [iappendLoop, if_pos some_]
      generalize part : min p.length ((c.length / bsize + 1) * bsize - c.length) = n1
      have positive : 0 < n1 ∧ n1 ≤ p.length := by
        have stop : c.length < (c.length / bsize + 1) * bsize := by
          rw [Nat.mul_comm]
          exact Nat.lt_mul_div_succ _ (by decide)
        omega
      rcases chunk_spec image at_ p some_ part.symm with ⟨m', din, own', done, image', keeps, fields⟩ | ⟨⟨e, fails⟩, full⟩
      · rw [done]
        dsimp only [bind, Except.bind]
        have length : (c ++ p.take n1).length = c.length + n1 := by
          rw [List.length_append, List.length_take]
          omega
        have whole : c ++ p.take n1 ++ p.drop n1 = c ++ p := by rw [List.append_assoc, List.take_append_drop]
        have counts : c.length + n1 + (p.drop n1).length = c.length + p.length := by
          rw [List.length_drop]
          omega
        have rest := ih image' (List.getElem?_set_self inside) (p.drop n1) (by rw [List.length_drop]; omega)
        rw [upd_self, length, whole, counts] at rest
        rcases rest with ⟨m'', din', own'', done', image'', keeps', fields'⟩ | ⟨fails, full⟩
        · rw [upd_twice, List.set_set] at image''
          refine .inl ⟨m'', din', own'', done', image'', keeps_trans keeps keeps', ?_⟩
          exact ⟨fields'.type.trans fields.type, fields'.major.trans fields.major, fields'.minor.trans fields.minor,
            fields'.nlink.trans fields.nlink, fields'.size.trans fields.size⟩
        · unfold Fits at full
          rw [List.set_set] at full
          exact .inr ⟨fails, full⟩
      · rw [fails]
        refine .inr ⟨⟨e, rfl⟩, fun fits => full (fits_mono at_ ?_ fits)⟩
        rw [List.length_append, List.length_append, List.length_take]
        omega
    · cases List.length_eq_zero_iff.mp (Nat.eq_zero_of_not_pos some_)
      exact .inl (loop_none _ image at_)

end

end Xv6.Mkfs
