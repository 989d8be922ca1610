import Xv6.Vm.NullPte
import Xv6.Vm.Regions

set_option autoImplicit false

namespace Xv6.Vm

variable {k : Kernel} {t : Tables} {m m' m'' : Ram} {role role' role'' : Nat → Role} {cond : Event RamOp Ram → Prop}
  {bad : String → Prop} {pid : Nat}

def header (data : List UInt8) (phoff i : Nat) : Proghdr := .ofBytes ((data.drop (phoff + i * phSize)).take phSize)

def place (data : List UInt8) (img : Nat → UInt8) (ph : Proghdr) : Nat → UInt8 :=
  if ph.type = elfProgLoad then overlay img ph.vaddr (fun b => data.getD (ph.off + b) 0) ph.filesz else img

def fileImage (data : List UInt8) : Nat → UInt8 :=
  let elf := Elfhdr.ofBytes (data.take elfSize)
  ((List.range elf.phnum).map (header data elf.phoff)).foldl (place data) fun _ => 0

theorem file_read {data bytes : List UInt8} {i j off n : Nat}
    (read : (Source.ofFile data).readi i j off n = some bytes) (full : bytes.length = n) :
    off + n ≤ data.length ∧ bytes = (data.drop off).take n := by
  simp only [Source.ofFile] at read
  split at read
  · cases read
  · cases read
    rw [List.length_take, List.length_drop] at full
    exact ⟨by omega, rfl⟩

theorem getD_take_drop (data : List UInt8) {off n i : Nat} (inside : i < n) :
    ((data.drop off).take n).getD i 0 = data.getD (off + i) 0 := by
  rw [List.getD_eq_getElem?_getD, List.getD_eq_getElem?_getD, List.getElem?_take_of_lt inside, List.getElem?_drop]

theorem chunk_bounds {sz a : Nat} (more : a < sz) :
    (a + pgsize ≤ sz → chunk sz a = pgsize) ∧ (sz ≤ a + pgsize → a + chunk sz a = sz) := by
  unfold chunk
  simp only [pgsize]
  split <;> omega

theorem file_offset {data : List UInt8} {i offset sz : Nat} (small : data.length < 2 ^ 32) (start : offset < 2 ^ 32)
    (reads : (Source.ofFile data).Reads i offset sz 0) (j : Nat) (more : j * pgsize < sz) :
    u32 (offset + j * pgsize) = offset + j * pgsize := by
  refine Nat.mod_eq_of_lt ?_
  cases j with
  | zero =>
    rw [Nat.zero_mul]
    exact start
  | succ j =>
    have before : j * pgsize < sz := (Nat.mul_lt_mul_of_pos_right (Nat.lt_succ_self j) (by decide)).trans more
    have same := file_offset small start reads j before
    obtain ⟨bytes, read, full⟩ := reads j (Nat.zero_le j) before
    have whole := (chunk_bounds before).1
    rw [whole (by rw [← Nat.succ_mul]; exact Nat.le_of_lt more)] at read full
    rw [same] at read
    have inside := (file_read read full).1
    rw [Nat.succ_mul]
    omega

theorem file_segment {data : List UInt8} {i offset sz : Nat} (small : data.length < 2 ^ 32) (start : offset < 2 ^ 32)
    (reads : (Source.ofFile data).Reads i offset sz 0) {b : Nat} (inside : b < sz) :
    (Source.ofFile data).segment i offset sz b = data.getD (offset + b) 0 := by
  have split_ : b / pgsize * pgsize ≤ b ∧ b - b / pgsize * pgsize < pgsize := by
    simp only [pgsize]
    omega
  have more : b / pgsize * pgsize < sz := split_.1.trans_lt inside
  obtain ⟨bytes, read, full⟩ := reads (b / pgsize) (Nat.zero_le _) more
  obtain ⟨whole, last⟩ := chunk_bounds more
  have within : b - b / pgsize * pgsize < chunk sz (b / pgsize * pgsize) := by
    by_cases page : b / pgsize * pgsize + pgsize ≤ sz
    · rw [whole page]
      exact split_.2
    · have := last (by omega)
      omega
  have same := file_offset small start reads (b / pgsize) more
  rw [Source.segment, read, Option.getD_some, (file_read read full).2, same, getD_take_drop _ within]
  congr 1
  omega

theorem overlay_congr (img : Nat → UInt8) (va : Nat) {p p' : Nat → UInt8} {len : Nat} (same : ∀ b < len, p b = p' b) :
    overlay img va p len = overlay img va p' len := by
  funext a
  unfold overlay
  split
  · rw [same _ (by omega)]
  · rfl

theorem load_file {data : List UInt8} {phoff : Nat} (small : data.length < 2 ^ 32) (count i : Nat)
    (start : phoff + i * phSize < 2 ^ 32) (accepts : (Source.ofFile data).Accepts phoff count i) (img : Nat → UInt8) :
    (Source.ofFile data).load phoff count i img = ((List.range' i count).map (header data phoff)).foldl (place data) img := by
  induction count generalizing i img with
  | zero => rfl
  | succ count ih =>
    obtain ⟨bytes, read, full, segment, rest⟩ := accepts
    have offset : u32 (phoff + i * phSize) = phoff + i * phSize := Nat.mod_eq_of_lt start
    rw [offset] at read
    obtain ⟨inside, same⟩ := file_read read full
    have next : phoff + (i + 1) * phSize < 2 ^ 32 := by
      rw [Nat.succ_mul]
      omega
    have ph : Proghdr.ofBytes bytes = header data phoff i := congrArg Proghdr.ofBytes same
    rw [ph] at segment
    rw [Source.load, offset, read, Option.getD_some, ph, List.range'_succ, List.map_cons, List.foldl_cons]
    by_cases load : (header data phoff i).type = elfProgLoad
    · have start' : (header data phoff i).off < 2 ^ 32 := field_lt _ 4 4
      have bytes' := overlay_congr img (header data phoff i).vaddr
        fun b below => file_segment small start' (segment load) (b := b) below
      rw [if_neg (not_not.mpr load), bytes', ih (i + 1) next rest, place, if_pos load]
    · rw [if_pos load, ih (i + 1) next rest, place, if_neg load]

def userByte (m : Ram) (d a : Nat) : Option UInt8 := (lookup m d (a / pgsize)).map fun e => m.byte e.frame (a % pgsize)

-- The image of the file, a page without PTE_U, and one stack page with the arguments.
structure Built (m : Ram) (d sz : Nat) (tf : Trapframe) (data : List UInt8) (args : List Arg) : Prop where
  size : 2 * pgsize ≤ sz ∧ sz < kernbase ∧ sz % pgsize = 0
  pages : UserPages m d sz
  guard : ∃ e, lookup m d (sz / pgsize - 2) = some e ∧ e.u = false
  entry : tf.eip = (Elfhdr.ofBytes (data.take elfSize)).entry
  memory : ∃ img, (∀ a < sz, userByte m d a = some (img a)) ∧ (∀ a < sz - 2 * pgsize, img a = fileImage data a) ∧
    ArgStack img args (sz - pgsize) tf.esp sz

theorem built_of_ready {d c : Nat} {data : List UInt8} {args : List Arg} {image : Image} {img : Nat → UInt8}
    (ready : Ready k m d img c args (image.sz, image.esp) role) (file : img = fileImage data)
    (entry : image.eip = (Elfhdr.ofBytes (data.take elfSize)).entry) :
    Built m d image.sz ⟨image.eip, image.esp⟩ data args := by
  obtain ⟨⟨size, below⟩, img', stack, image_, args_⟩ := ready
  simp only at size below args_
  have number : image.sz / pgsize - 2 = c := by
    rw [size]
    simp only [pgsize]
    omega
  have total : npages image.sz = c + 2 := by
    rw [size]
    unfold npages
    simp only [pgsize]
    omega
  have page : image.sz - pgsize = (c + 1) * pgsize := by
    rw [size]
    simp only [pgsize]
    omega
  refine ⟨⟨?_, below, ?_⟩, fun n bound => ?_, ?_, entry, img', fun a inside => ?_, fun a inside => ?_, ?_⟩
  · rw [size]
    simp only [pgsize]
    omega
  · rw [size]
    exact Nat.mul_mod_left _ _
  · rw [total]
    refine ⟨fun there => ?_, fun inside => ?_⟩
    · obtain ⟨e, found⟩ := Option.isSome_iff_exists.mp there
      have low := stack.space.top _ n (lookup_page stack.space.frames stack.space.dir bound found)
      rwa [← size, total] at low
    · obtain ⟨e, found, -⟩ := stack.holds n inside
      rw [found]
      rfl
  · rw [number]
    exact stack.guard
  · have split_ : a / pgsize < c + 2 ∧ a % pgsize < pgsize ∧ a / pgsize * pgsize + a % pgsize = a := by
      rw [size] at inside
      simp only [pgsize] at *
      omega
    obtain ⟨e, found, bytes⟩ := stack.holds (a / pgsize) split_.1
    rw [userByte, found, Option.map_some, bytes _ split_.2.1, split_.2.2]
  · rw [image_ a, file]
    rw [size] at inside
    simp only [pgsize] at *
    omega
  · rw [page]
    exact args_

theorem built_congr {d sz : Nat} {tf : Trapframe} {data : List UInt8} {args : List Arg} (built : Built m d sz tf data args)
    (mapped : ∀ n < 2 ^ 19, lookup m' d n = lookup m d n)
    (words : ∀ n < 2 ^ 19, ∀ e, lookup m d n = some e → m'.word e.frame = m.word e.frame) : Built m' d sz tf data args := by
  obtain ⟨low, high, aligned⟩ := built.size
  have inside : ∀ a < sz, a / pgsize < 2 ^ 19 := by
    intro a below
    simp only [kernbase, pgsize] at *
    omega
  refine ⟨built.size, fun n bound => ?_, ?_, built.entry, ?_⟩
  · rw [mapped n bound]
    exact built.pages n bound
  · have last := inside (sz - 1) (by simp only [pgsize] at low; omega)
    rw [mapped _ (by simp only [pgsize] at last ⊢; omega)]
    exact built.guard
  · obtain ⟨img, bytes, rest⟩ := built.memory
    refine ⟨img, fun a below => ?_, rest⟩
    have here := bytes a below
    rw [userByte] at here ⊢
    rw [mapped _ (inside a below)]
    cases found : lookup m d (a / pgsize) with
    | none =>
      rw [found] at here
      cases here
    | some e =>
      rw [found, Option.map_some, Ram.byte] at here
      rw [Option.map_some, Ram.byte, words _ (inside a below) e found, here]

theorem freevm_other {d old : Nat} (frames : Frames k m role) (is : role d = .dir) (other : role old = .dir) (apart : old ≠ d) :
    Spec k cond bad pid (freevm old) m fun _ m' => (∀ n < 2 ^ 20, lookup m' d n = lookup m d n) ∧
      ∀ n < 2 ^ 19, ∀ e, lookup m d n = some e → m'.word e.frame = m.word e.frame := by
  have aside := frames_dissolve frames d (r := .out) trivial (by simp)
  have still : dissolve role d .out old = .dir := by simp [dissolve, other, Role.of, apart]
  refine Prog.wp_mono (freevm_spec aside still) ?_
  rintro - m' ⟨-, outside, -⟩
  have mine : ∀ f, (role f).of d f = true → m'.word f = m.word f := fun f of => outside f (if_pos of)
  refine ⟨fun n bound => ?_, fun n bound e found => ?_⟩
  · unfold lookup
    rw [mine d (by simp [is, Role.of])]
    by_cases present : (m.word d (n / 1024)).p = true
    · rw [mine _ (by simp [frames.dir d is _ (by omega) present, Role.of])]
    · simp [present]
  · exact mine _ (by simp [lookup_page frames is bound found, Role.of])

theorem exec_built_spec (found : ∀ m m', ¬ cond ⟨pid, .probe .nullPte, (), m, m'⟩) {p old : Nat} (path data : List UInt8)
    (args : List Arg) (frames : Frames k m role) (is : role old = .dir) (dir : t.pgdir p = some old) (small : data.length < 2 ^ 32) :
    Spec k cond bad pid (exec k t p path (some (.ofFile data)) args) m fun r m' => r.2 = true →
      ∃ d, r.1.pgdir p = some d ∧ Built m' d (r.1.sz p) (r.1.tf p) data args := by
  unfold exec
  split
  · intro never
    cases never
  refine spec_cur_some dir (Prog.wp_call (exec_image_spec found old _ args frames) ?_)
  rintro r m₁ (⟨rfl, -⟩ | ⟨image, role₁, rfl, was, grown, bytes, c, read, entry, accepts, ready⟩)
  · intro never
    cases never
  have header_ : bytes = data.take elfSize := by
    simp only [Source.ofFile] at read
    split at read
    · cases read
    · cases read
      rfl
  rw [header_] at entry accepts ready
  have start : (Elfhdr.ofBytes (data.take elfSize)).phoff + 0 * phSize < 2 ^ 32 := field_lt _ 28 4
  have file : (Source.ofFile data).load (Elfhdr.ofBytes (data.take elfSize)).phoff (Elfhdr.ofBytes (data.take elfSize)).phnum 0
      (fun _ => 0) = fileImage data := by
    rw [load_file small _ 0 start accepts, ← List.range_eq_range']
    rfl
  have built := built_of_ready ready file entry
  have apart : old ≠ image.pgdir := role_ne is was
  have still : role₁ old = .dir := by rw [grown_kept grown (by simp [is]), is]
  refine Prog.wp_call (freevm_other grown.frames (ready_space ready).dir still apart) ?_
  rintro - m₂ ⟨mapped, words⟩ -
  refine ⟨image.pgdir, upd_self _ _ _, ?_⟩
  have size : (((((t.setName p (nameOf (lastName path))).setTf p ⟨image.eip, image.esp⟩).setPgdir p (some image.pgdir)).setSz p
      image.sz).sz p) = image.sz := upd_self _ _ _
  have frame : (((((t.setName p (nameOf (lastName path))).setTf p ⟨image.eip, image.esp⟩).setPgdir p (some image.pgdir)).setSz p
      image.sz).tf p) = ⟨image.eip, image.esp⟩ := upd_self _ _ _
  rw [size, frame]
  exact built_congr built (fun n bound => mapped n (by omega)) words

-- The next frame for a process of 8196 pages, and an entry for it without zero bytes.
abbrev selfFrame : Nat := 0x3011
abbrev selfWord : Nat := 0x03011007

theorem self_word_nonzero (i : Nat) : leByte selfWord (i % 4) ≠ 0 := by
  have all : ∀ j < 4, leByte selfWord j ≠ 0 := by decide
  exact all _ (Nat.mod_lt i (by decide))

theorem self_len_short : 0x2002FFF < kernbase := by decide

def selfArg : Arg where
  len := 0x2002FFF
  byte i := leByte selfWord (i % 4)
  nonzero i _ := self_word_nonzero i
  short := self_len_short

-- The process has filled its memory with selfWord, up to a zero byte at 0x2002FFF.
def huge : Ram where
  freelist := List.range' 0x3011 1000
  word f i :=
    if f = 1000 then if i < 9 then permUser.entry (1001 + i) else .ofWord 0
    else if 1001 ≤ f ∧ f < 1010 then
      if i < 1024 ∧ 1024 * (f - 1001) + i < 8196 then permUser.entry (2000 + (1024 * (f - 1001) + i)) else .ofWord 0
    else if 2000 ≤ f ∧ f < 10196 then .ofWord (if f = 10194 ∧ i = 1023 then 0x00011007 else selfWord)
    else .ofWord 0
  notes := []

def hugeRole (f : Nat) : Role :=
  if f = 1000 then .dir
  else if 1001 ≤ f ∧ f < 1010 then .tbl 1000 (f - 1001)
  else if 2000 ≤ f ∧ f < 10196 then .page 1000 (f - 2000)
  else if 0x3011 ≤ f ∧ f < 0x3011 + 1000 then .free
  else .out

def hugeProc : Tables := { noTables 1000 with pgdir := fun _ => some 1000, sz := fun _ => 0x2004000 }

theorem huge_role (f : Nat) : (f = 1000 ∧ hugeRole f = .dir) ∨ (∃ i < 9, f = 1001 + i ∧ hugeRole f = .tbl 1000 i) ∨
    (∃ n < 8196, f = 2000 + n ∧ hugeRole f = .page 1000 n) ∨ ((0x3011 ≤ f ∧ f < 0x3011 + 1000) ∧ hugeRole f = .free) ∨
    (¬ (0x3011 ≤ f ∧ f < 0x3011 + 1000) ∧ hugeRole f = .out) := by
  by_cases dir : f = 1000
  · exact .inl ⟨dir, if_pos dir⟩
  by_cases table : 1001 ≤ f ∧ f < 1010
  · exact .inr (.inl ⟨f - 1001, by omega, by omega, by rw [hugeRole, if_neg dir, if_pos table]⟩)
  by_cases page : 2000 ≤ f ∧ f < 10196
  · exact .inr (.inr (.inl ⟨f - 2000, by omega, by omega, by rw [hugeRole, if_neg dir, if_neg table, if_pos page]⟩))
  by_cases free : 0x3011 ≤ f ∧ f < 0x3011 + 1000
  · exact .inr (.inr (.inr (.inl ⟨free, by rw [hugeRole, if_neg dir, if_neg table, if_neg page, if_pos free]⟩)))
  · exact .inr (.inr (.inr (.inr ⟨free, by rw [hugeRole, if_neg dir, if_neg table, if_neg page, if_neg free]⟩)))

theorem huge_role_table {i : Nat} (small : i < 9) : hugeRole (1001 + i) = .tbl 1000 i := by
  rw [hugeRole, if_neg (by omega), if_pos (by omega), Nat.add_sub_cancel_left]

theorem huge_role_page {n : Nat} (small : n < 8196) : hugeRole (2000 + n) = .page 1000 n := by
  rw [hugeRole, if_neg (by omega), if_neg (by omega), if_pos (by omega), Nat.add_sub_cancel_left]

theorem huge_table {i j : Nat} (small : i < 9) : huge.word (1001 + i) j =
    if j < 1024 ∧ 1024 * i + j < 8196 then permUser.entry (2000 + (1024 * i + j)) else .ofWord 0 := by
  have same : huge.word (1001 + i) j = if j < 1024 ∧ 1024 * (1001 + i - 1001) + j < 8196 then
      permUser.entry (2000 + (1024 * (1001 + i - 1001) + j)) else .ofWord 0 := by
    simp only [huge]
    rw [if_neg (by omega), if_pos (by omega)]
  rw [same, Nat.add_sub_cancel_left]

theorem huge_page {n j : Nat} (small : n < 8196) : huge.word (2000 + n) j =
    .ofWord (if n = 8194 ∧ j = 1023 then 0x00011007 else selfWord) := by
  have same : huge.word (2000 + n) j = .ofWord (if 2000 + n = 10194 ∧ j = 1023 then 0x00011007 else selfWord) := by
    simp only [huge]
    rw [if_neg (by omega), if_neg (by omega), if_pos (by omega)]
  have index : (2000 + n = 10194 ∧ j = 1023) ↔ (n = 8194 ∧ j = 1023) := by omega
  rw [same]
  simp only [index]

theorem huge_dir (i : Nat) : huge.word 1000 i = if i < 9 then permUser.entry (1001 + i) else .ofWord 0 := rfl

theorem huge_frames : Frames linked huge hugeRole := by
  refine ⟨List.nodup_range', fun f => ?_, fun f used => ?_, fun d is i _ present => ?_, fun t d i is => ?_,
    fun t d i is _ j small present => ?_, fun f d n is => ?_⟩
  · have member : f ∈ huge.freelist ↔ 0x3011 ≤ f ∧ f < 0x3011 + 1000 := List.mem_range'_1
    rw [member]
    rcases huge_role f with ⟨rfl, role_⟩ | ⟨i, _, rfl, role_⟩ | ⟨n, _, rfl, role_⟩ | ⟨inside, role_⟩ | ⟨outside, role_⟩ <;> rw [role_]
    · exact ⟨fun inside => absurd inside (by decide), fun never => (by cases never)⟩
    · exact ⟨fun inside => absurd inside (by omega), fun never => (by cases never)⟩
    · exact ⟨fun inside => absurd inside (by omega), fun never => (by cases never)⟩
    · exact ⟨fun _ => rfl, fun _ => inside⟩
    · exact ⟨fun inside => absurd inside outside, fun never => (by cases never)⟩
  · have range : 1000 ≤ f ∧ f < 0xE000 := by
      rcases huge_role f with ⟨rfl, -⟩ | ⟨i, _, rfl, -⟩ | ⟨n, _, rfl, -⟩ | ⟨inside, -⟩ | ⟨-, out⟩
      · decide
      · omega
      · omega
      · omega
      · exact absurd out used
    exact managed_low linked (Nat.le_trans linked_first (by omega)) range.2
  · rcases huge_role d with ⟨rfl, -⟩ | ⟨i, _, -, role_⟩ | ⟨n, _, -, role_⟩ | ⟨-, role_⟩ | ⟨-, role_⟩
    · rw [huge_dir] at present ⊢
      by_cases small : i < 9
      · rw [if_pos small, entry_frame]
        exact huge_role_table small
      · rw [if_neg small] at present
        cases present
    all_goals
      rw [is] at role_
      cases role_
  · rcases huge_role t with ⟨-, role_⟩ | ⟨j, small, rfl, role_⟩ | ⟨n, _, -, role_⟩ | ⟨-, role_⟩ | ⟨-, role_⟩ <;>
      rw [is] at role_ <;> cases role_
    rw [huge_dir, if_pos small]
    exact ⟨rfl, by omega, rfl, rfl⟩
  · rcases huge_role t with ⟨-, role_⟩ | ⟨i', low, rfl, role_⟩ | ⟨n, _, -, role_⟩ | ⟨-, role_⟩ | ⟨-, role_⟩ <;>
      rw [is] at role_ <;> cases role_
    rw [huge_table low] at present ⊢
    by_cases inside : j < 1024 ∧ 1024 * i + j < 8196
    · rw [if_pos inside, entry_frame]
      exact huge_role_page inside.2
    · rw [if_neg inside] at present
      cases present
  · rcases huge_role f with ⟨-, role_⟩ | ⟨i, _, -, role_⟩ | ⟨n', small, rfl, role_⟩ | ⟨-, role_⟩ | ⟨-, role_⟩ <;>
      rw [is] at role_ <;> cases role_
    have row : n / 1024 < 9 := by omega
    have column : n % 1024 < 1024 ∧ 1024 * (n / 1024) + n % 1024 < 8196 := by omega
    refine ⟨by omega, 1001 + n / 1024, huge_role_table row, ?_⟩
    rw [huge_table row, if_pos column, entry_frame]
    exact ⟨rfl, by omega⟩

theorem huge_lookup (n : Nat) : lookup huge 1000 n = if n < 8196 then some (permUser.entry (2000 + n)) else none := by
  rw [lookup, huge_dir]
  by_cases row : n / 1024 < 9
  · rw [if_pos row, entry_frame, huge_table row, entry_present, Bool.true_and]
    by_cases small : n < 8196
    · have column : n % 1024 < 1024 ∧ 1024 * (n / 1024) + n % 1024 < 8196 := by omega
      have number : 1024 * (n / 1024) + n % 1024 = n := by omega
      rw [if_pos column, number, if_pos small]
      rfl
    · have column : ¬ (n % 1024 < 1024 ∧ 1024 * (n / 1024) + n % 1024 < 8196) := by omega
      rw [if_neg column, if_neg small]
      rfl
  · have large : ¬ n < 8196 := by omega
    rw [if_neg row, if_neg large]
    rfl

theorem huge_user : UserPages huge 1000 0x2004000 := by
  intro n _
  rw [huge_lookup, show npages 0x2004000 = 8196 by decide]
  by_cases small : n < 8196
  · rw [if_pos small]
    exact ⟨fun _ => small, fun _ => rfl⟩
  · rw [if_neg small]
    exact ⟨fun never => (by cases never), fun inside => absurd inside small⟩

theorem huge_string {a : Nat} (inside : a ≤ selfArg.len) : userByte huge 1000 a = some (selfArg.buf a) := by
  have bound : a ≤ 0x2002FFF := inside
  have small : a / pgsize < 8196 := by
    simp only [pgsize]
    omega
  have column : a % pgsize % 4 = a % 4 := by
    simp only [pgsize]
    omega
  rw [userByte, huge_lookup, if_pos small, Option.map_some, entry_frame, Ram.byte, huge_page small, to_word_of_word, column, Arg.buf]
  by_cases last : a = 0x2002FFF
  · subst last
    decide
  · have before : a < selfArg.len := Nat.lt_of_le_of_ne inside last
    rw [if_pos before]
    by_cases word : a / pgsize = 8194 ∧ a % pgsize / 4 = 1023
    · have three : a % 4 < 3 := by
        simp only [pgsize] at word
        omega
      have same : ∀ i < 3, leByte 0x00011007 i = leByte selfWord i := by decide
      rw [if_pos word, same _ three]
      rfl
    · rw [if_neg word]
      rfl

theorem uva2ka_self {cur f va : Nat} {e : Pte} (pde : m.word f (pdx va) = e) (pte : m.word f (ptx va) = e)
    (self : e.p = true ∧ e.u = true ∧ e.frame = f) : Spec k cond bad pid (uva2ka cur f va) m fun r m' => r = some f ∧ m' = m := by
  unfold uva2ka
  refine Prog.wp_call (walk_find f va) ?_
  rintro r m' ⟨rfl, rfl⟩
  rw [pde, if_pos self.1, self.2.2]
  refine spec_read ⟨?_, rfl⟩
  rw [pte, userFrame, self.1, self.2.1, self.2.2]
  rfl

theorem copyout_self {cur f word : Nat} {src : Nat → UInt8} {Q : Bool → Ram → Prop} (small : word < 2 ^ 32)
    (self : (Pte.ofWord word).p = true ∧ (Pte.ofWord word).u = true ∧ (Pte.ofWord word).frame = f) (out : role f = .out)
    (fuel rest count : Nat) {va done : Nat} (aligned : va % 4096 = 0) (frames : Frames k m role)
    (full : ∀ j < 1024, m.word f j = .ofWord word) (bytes : ∀ i < count * 4096, src (done + i) = leByte word (i % 4))
    (last : ∀ m' va', va' % 4096 = 0 → Frames k m' role → (∀ j < 1024, m'.word f j = .ofWord word) →
      Spec k cond bad pid (copyoutLoop cur f src fuel va' (done + count * 4096) rest) m' Q) :
    Spec k cond bad pid (copyoutLoop cur f src (fuel + count) va done (count * 4096 + rest)) m Q := by
  induction count generalizing m va done with
  | zero =>
    have start := last m va aligned frames full
    rw [Nat.zero_mul, Nat.add_zero] at start
    rw [Nat.zero_mul, Nat.add_zero, Nat.zero_add]
    exact start
  | succ count ih =>
    have down : pgrounddown va = va := by
      unfold pgrounddown
      simp only [pgsize]
      omega
    have room : min (pgsize - (va - va)) ((count + 1) * 4096 + rest) = 4096 := by
      simp only [pgsize]
      omega
    have left : (count + 1) * 4096 + rest - 4096 = count * 4096 + rest := by omega
    rw [← Nat.add_assoc]
    unfold copyoutLoop
    rw [if_neg (by omega), down, room, Nat.sub_self]
    refine Prog.wp_call (uva2ka_self (full _ (pdx_lt va)) (full _ (ptx_lt va)) self) ?_
    rintro r m' ⟨rfl, rfl⟩
    refine spec_fill ?_
    rw [left]
    refine (ih ?_ (frames_fill frames (.inl (by rw [out]; trivial)) _) (fun j inside => ?_) (fun i inside => ?_)
      fun m'' va' aligned' frames' full' => ?_)
    · unfold u32
      simp only [pgsize]
      omega
    · rw [fill_self]
      refine moved_word small inside (fun i four => ?_) _
      rw [bytes _ (by omega), show (4 * j + i) % 4 = i by omega]
    · rw [Nat.add_assoc, bytes _ (by omega), show (4096 + i) % 4 = i % 4 by omega]
    · have total : done + 4096 + count * 4096 = done + (count + 1) * 4096 := by omega
      rw [total]
      exact last m'' va' aligned' frames' full'

theorem copyout_last {cur f word : Nat} {src : Nat → UInt8} (small : word < 2 ^ 32)
    (self : (Pte.ofWord word).p = true ∧ (Pte.ofWord word).u = true ∧ (Pte.ofWord word).frame = f) (out : role f = .out)
    (fuel : Nat) {va done : Nat} (aligned : va % 4096 = 0) (frames : Frames k m role)
    (full : ∀ j < 1024, m.word f j = .ofWord word) (bytes : ∀ i < 4092, src (done + i) = leByte word (i % 4)) :
    Spec k cond bad pid (copyoutLoop cur f src (fuel + 1) va done 4096) m fun r m' =>
      r = true ∧ Frames k m' role ∧ ∀ j < 1023, m'.word f j = .ofWord word := by
  have down : pgrounddown va = va := by
    unfold pgrounddown
    simp only [pgsize]
    omega
  have room : min (pgsize - (va - va)) 4096 = 4096 := by
    simp only [pgsize]
    omega
  unfold copyoutLoop
  rw [if_neg (by decide), down, room, Nat.sub_self]
  refine Prog.wp_call (uva2ka_self (full _ (pdx_lt va)) (full _ (ptx_lt va)) self) ?_
  rintro r m' ⟨rfl, rfl⟩
  refine spec_fill ?_
  rw [Nat.sub_self]
  have end_ : ∀ fuel va done, copyoutLoop cur f src fuel va done 0 = .ret true := by
    intro fuel va done
    cases fuel with
    | zero => rfl
    | succ fuel => rfl
  rw [end_]
  refine ⟨rfl, frames_fill frames (.inl (by rw [out]; trivial)) _, fun j inside => ?_⟩
  rw [fill_self]
  refine moved_word small (by omega) (fun i four => ?_) _
  rw [bytes _ (by omega), show (4 * j + i) % 4 = i by omega]

theorem self_word : (Pte.ofWord selfWord).p = true ∧ (Pte.ofWord selfWord).u = true ∧ (Pte.ofWord selfWord).frame = selfFrame := by
  decide

theorem self_arg_bytes {i : Nat} (inside : i < 0x2002FFF) : selfArg.buf i = leByte selfWord (i % 4) := if_pos inside

-- The first page goes to the directory itself, and then so do all others.
theorem copyout_attack {cur : Nat} (first : FirstWord m cur (.ofWord selfWord)) (missing : (m.word selfFrame 1015).p = false)
    (frames : Frames k m role) (out : role selfFrame = .out) :
    Spec k cond bad pid (copyout cur selfFrame 0xFDFFF000 selfArg.buf (selfArg.len + 1)) m fun r m' =>
      r = true ∧ Frames k m' role ∧ ∀ j < 1023, m'.word selfFrame j = .ofWord selfWord := by
  have start : pgrounddown 0xFDFFF000 = 0xFDFFF000 := by decide
  have next : u32 (0xFDFFF000 + pgsize) = 0xFE000000 := by decide
  have count : min (pgsize - (0xFDFFF000 - 0xFDFFF000)) 0x2003000 = 4096 := by decide
  have left : 0x2003000 - 4096 = 8193 * 4096 + 4096 := by decide
  have target : userFrame (.ofWord selfWord) = some selfFrame := by decide
  have length : selfArg.len + 1 = 0x2003000 := rfl
  have fuel : 0x2003000 = 0x2000FFD + 1 + 8193 + 1 := by decide
  unfold copyout
  rw [length]
  nth_rewrite 1 [fuel]
  unfold copyoutLoop
  rw [if_neg (by decide), start, count, next, Nat.sub_self]
  refine Prog.wp_call (uva2ka_null first missing) ?_
  rintro r m₁ ⟨rfl, rfl⟩
  rw [target]
  refine spec_fill ?_
  rw [left]
  have filled := frames_fill (frames_notes frames (.nullPte :: m.notes)) (f := selfFrame) (.inl (by rw [out]; trivial))
    (moved 0 4096 fun i => selfArg.buf (0 + i))
  refine copyout_self (by decide) self_word out (0x2000FFD + 1) 4096 8193 (by decide) filled (fun j inside => ?_)
    (fun i inside => ?_) fun m' va' aligned frames' full => ?_
  · rw [fill_self]
    refine moved_word (by decide) inside (fun i four => ?_) _
    rw [Nat.zero_add, self_arg_bytes (by omega), show (4 * j + i) % 4 = i by omega]
  · rw [self_arg_bytes (by omega), show (0 + 4096 + i) % 4 = i % 4 by omega]
  · refine copyout_last (by decide) self_word out 0x2000FFD aligned frames' full fun i inside => ?_
    rw [self_arg_bytes (by omega), show (0 + 4096 + 8193 * 4096 + i) % 4 = i % 4 by omega]

theorem huge_free : huge.freelist = selfFrame :: List.range' 0x3012 999 := List.range'_succ

theorem huge_free_length : huge.freelist.length = 1000 := by
  rw [huge_free, List.length_cons, List.length_range']

theorem huge_begun {start : Ram} (huge_ : start = huge) {role₂ : Nat → Role} (fresh : Fresh linked start m hugeRole role selfFrame)
    (begun : Begun linked m m' role role₂ selfFrame) : dissolve role₂ selfFrame .out 1000 = .dir ∧
      dissolve role₂ selfFrame .out selfFrame = .out ∧ FirstWord m' 1000 (.ofWord selfWord) ∧
      (m'.word selfFrame 1015).p = false ∧ m'.notes = [] := by
  have kept : ∀ g, g = 1000 ∨ g = 1001 ∨ g = 2000 → role₂ g = hugeRole g ∧ m'.word g = huge.word g := by
    intro g which
    have used : hugeRole g ≠ .free ∧ g ≠ selfFrame ∧ ∀ i, hugeRole g ≠ .tbl selfFrame i := by
      rcases which with rfl | rfl | rfl
      · exact ⟨nofun, by decide, nofun⟩
      · exact ⟨nofun, by decide, nofun⟩
      · exact ⟨nofun, by decide, nofun⟩
    have same := grown_kept fresh.toGrown used.1
    refine ⟨((begun.taken g).resolve_right fun new => ?_).trans same, ?_⟩
    · rw [same] at new
      exact used.1 new.1
    · rw [begun.data g (by rw [same]; exact used.1) used.2.1 (by rw [same]; exact used.2.2), fresh.data g used.1, huge_]
  refine ⟨?_, ?_, ⟨?_, ?_, ?_⟩, ?_, ?_⟩
  · rw [dissolve, (kept 1000 (.inl rfl)).1]
    rfl
  · simp [dissolve, begun.space.dir, Role.of]
  · rw [(kept 1000 (.inl rfl)).2]
    rfl
  · rw [(kept 1000 (.inl rfl)).2, show (huge.word 1000 0).frame = 1001 from rfl, (kept 1001 (.inr (.inl rfl))).2]
    rfl
  · rw [(kept 1000 (.inl rfl)).2, show (huge.word 1000 0).frame = 1001 from rfl, (kept 1001 (.inr (.inl rfl))).2,
      show (huge.word 1001 0).frame = 2000 from rfl, (kept 2000 (.inr (.inr rfl))).2]
    rfl
  · rw [begun.kept.pdes 1015 (by decide) (by decide)]
    refine fresh.pdes 1015 fun n covered => ?_
    rw [kmap_covers] at covered
    omega
  · rw [begun.notes, fresh.notes, huge_]
    rfl

theorem huge_exec {start : Ram} (same : start = huge) {args : List Arg} {P : Ram → Prop}
    (short : ¬ (args.length ≥ maxarg || args.any fun arg => arg.len ≥ hugeProc.sz 0) = true)
    (stack : ∀ m₁ role₁, Fresh linked start m₁ hugeRole role₁ selfFrame →
      Spec linked cond bad pid (execStack 1000 selfFrame 0 args) m₁ fun r m₂ => ∃ esp aside, r = some (2 * pgsize, esp) ∧
        Frames linked m₂ aside ∧ aside 1000 = .dir ∧ aside selfFrame = .out ∧ P m₂) :
    Spec linked cond bad pid (exec linked hugeProc 0 [] (some (.ofFile bareElf)) args) start fun r m' => r.2 = true ∧
      r.1.pgdir 0 = some selfFrame ∧ r.1.sz 0 = 2 * pgsize ∧
      ∃ m₂, P m₂ ∧ m'.word selfFrame = m₂.word selfFrame ∧ m'.notes = m₂.notes := by
  obtain ⟨read, length, magic, phnum⟩ := bare_elf_read
  have image : Spec linked cond bad pid (execImage linked 1000 (.ofFile bareElf) args) start fun r m₂ => ∃ eip esp aside,
      r = some ⟨selfFrame, 2 * pgsize, eip, esp⟩ ∧ Frames linked m₂ aside ∧ aside 1000 = .dir ∧ aside selfFrame = .out ∧ P m₂ := by
    unfold execImage
    simp only [read, length, magic]
    rw [if_neg (by decide), if_neg (by decide)]
    have frames : Frames linked start hugeRole := by
      rw [same]
      exact huge_frames
    refine Prog.wp_call (setupkvm_spec frames) ?_
    rintro r m₁ (⟨rfl, few, -⟩ | ⟨d, role₁, rfl, fresh⟩)
    · rw [same, huge_free_length] at few
      exact absurd few (by decide)
    · obtain ⟨rest, head⟩ := fresh.head
      obtain rfl : selfFrame = d := by
        rw [same, huge_free] at head
        exact (List.cons.inj head).1
      refine Prog.wp_call (P := fun r m₂ => ∃ esp aside, r = some (2 * pgsize, esp) ∧ Frames linked m₂ aside ∧
        aside 1000 = .dir ∧ aside selfFrame = .out ∧ P m₂) ?_ ?_
      · unfold execBody
        rw [phnum]
        exact stack m₁ role₁ fresh
      · rintro r m₂ ⟨esp, aside, rfl, rest⟩
        exact ⟨_, esp, aside, rfl, rest⟩
  unfold exec
  rw [if_neg short]
  refine spec_cur_some rfl (Prog.wp_call image ?_)
  rintro r m₂ ⟨eip, esp, aside, rfl, frames, is, out, holds⟩
  refine Prog.wp_call (freevm_spec frames is) ?_
  rintro - m' ⟨-, outside, notes⟩
  exact ⟨rfl, rfl, rfl, m₂, holds, outside selfFrame out, notes⟩

theorem exec_stack_attack {start : Ram} (same : start = huge) (fresh : Fresh linked start m hugeRole role selfFrame) :
    Spec linked cond bad pid (execStack 1000 selfFrame 0 [selfArg]) m fun r m' => ∃ esp aside, r = some (2 * pgsize, esp) ∧
      Frames linked m' aside ∧ aside 1000 = .dir ∧ aside selfFrame = .out ∧ ∀ j < 1019, m'.word selfFrame j = .ofWord selfWord := by
  refine exec_stack_begun (space_fresh fresh) (by rw [fresh.room, same, huge_free_length]; decide) fun m₂ role₂ begun => ?_
  obtain ⟨is, out, first, missing, -⟩ := huge_begun same fresh begun
  have frames := frames_dissolve begun.space.frames selfFrame (r := .out) trivial (by simp)
  generalize dissolve role₂ selfFrame .out = aside at is out frames
  have sp : u32 (2 * pgsize + 2 ^ 32 - u32 (selfArg.len + 1)) / 4 * 4 = 0xFDFFF000 := by decide
  refine Prog.wp_call (P := fun r m' => r = some ([0xFDFFF000], 0xFDFFF000) ∧ Frames linked m' aside ∧
    ∀ j < 1023, m'.word selfFrame j = .ofWord selfWord) ?_ ?_
  · unfold execArgs
    rw [if_neg (by decide)]
    simp only [sp]
    refine Prog.wp_call (copyout_attack first missing frames out) ?_
    rintro r m₃ ⟨rfl, frames₃, words⟩
    exact ⟨rfl, frames₃, words⟩
  · rintro r m₃ ⟨rfl, frames₃, words⟩
    have esp : u32 (0xFDFFF000 + 2 ^ 32 - 20) = 0xFDFFEFEC := by decide
    have size : (3 + [0xFDFFF000].length + 1) * 4 = 20 := by decide
    have down : pgrounddown 0xFDFFEFEC = 0xFDFFE000 := by decide
    have count : min (pgsize - (0xFDFFEFEC - 0xFDFFE000)) 20 = 20 := by decide
    have offset : 0xFDFFEFEC - 0xFDFFE000 = 4076 := by decide
    simp only [size, esp]
    refine Prog.wp_call (P := fun r m' => r = true ∧ Frames linked m' aside ∧ ∀ j < 1019, m'.word selfFrame j = .ofWord selfWord) ?_ ?_
    · unfold copyout copyoutLoop
      rw [if_neg (by decide), down, count, offset]
      refine Prog.wp_call (uva2ka_self (words _ (by decide)) (words _ (by decide)) self_word) ?_
      rintro r m₄ ⟨rfl, rfl⟩
      refine spec_fill ?_
      unfold copyoutLoop
      rw [if_pos (by decide)]
      refine ⟨rfl, frames_fill frames₃ (.inl (by rw [out]; trivial)) _, fun j inside => ?_⟩
      rw [fill_self, moved, if_neg (by omega), words j (by omega)]
    · rintro r m₄ ⟨rfl, frames₄, words₄⟩
      exact ⟨_, aside, rfl, frames₄, is, out, words₄⟩

theorem exec_stack_plain {start : Ram} (same : start = huge) (fresh : Fresh linked start m hugeRole role selfFrame) :
    Spec linked cond bad pid (execStack 1000 selfFrame 0 []) m fun r m' => ∃ esp aside, r = some (2 * pgsize, esp) ∧
      Frames linked m' aside ∧ aside 1000 = .dir ∧ aside selfFrame = .out ∧ m'.notes = [] := by
  refine exec_stack_begun (space_fresh fresh) (by rw [fresh.room, same, huge_free_length]; decide) fun m₂ role₂ begun => ?_
  obtain ⟨is, out, -, -, notes⟩ := huge_begun same fresh begun
  obtain ⟨f, stack⟩ := begun.stack
  have esp : u32 (2 * pgsize + 2 ^ 32 - 16) = 8176 := by decide
  have size : (3 + ([] : List Nat).length + 1) * 4 = 16 := by decide
  have pages : ∀ a < 16, pageOf 8176 a = 1 := by decide
  have user : ∀ a < 16, (userPage m₂ selfFrame (pageOf 8176 a)).isSome := by
    intro a below
    rw [pages a below, userPage, stack]
    rfl
  unfold execArgs
  simp only [Prog.pure_eq, Prog.ret_bind, size, esp]
  refine Prog.wp_call (copyout_spec (by decide) (by decide) begun.space.directory
    (.inl fun a below _ => table_of_user (user a below))) ?_
  rintro r m₃ ⟨rewritten, ⟨rfl, -, -⟩ | ⟨-, got, below, -, -, -, stop⟩⟩
  · exact ⟨8176, dissolve role₂ selfFrame .out, rfl, frames_dissolve rewritten.frames selfFrame trivial (by simp), is, out,
      rewritten.notes.trans notes⟩
  · have there := user got below
    rw [stop] at there
    cases there

end Xv6.Vm
