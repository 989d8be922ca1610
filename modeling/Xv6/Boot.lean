import Xv6.Vm.Memory

set_option autoImplicit false

-- bootmain.c. The kernel's ELF file is on the disk from sector 1 on.
namespace Xv6.Boot

open Vm (u32 elfMagic)

abbrev Bytes : Type := Nat → UInt8

abbrev sectsize : Nat := 512

abbrev phSize : Nat := 32

-- elf, and the end of the page that is read there.
abbrev scratch : Nat := 0x10000
abbrev scratchEnd : Nat := 0x11000

def readsect (disk : Bytes) (dst offset : Nat) (m : Bytes) : Bytes := fun a =>
  if u32 (a + 2 ^ 32 - dst) < sectsize then disk (offset * sectsize + u32 (a + 2 ^ 32 - dst)) else m a

-- none: the loop is not left within fuel rounds.
def readLoop (disk : Bytes) (epa : Nat) : Nat → Nat → Nat → Bytes → Option Bytes
  | 0, _, _, _ => none
  | fuel + 1, pa, offset, m =>
    if pa < epa then readLoop disk epa fuel (u32 (pa + sectsize)) (offset + 1) (readsect disk pa offset m) else some m

def readseg (disk : Bytes) (pa count offset : Nat) (m : Bytes) : Option Bytes :=
  readLoop disk (u32 (pa + count)) (2 ^ 23 + 1) (u32 (pa + 2 ^ 32 - offset % sectsize)) (offset / sectsize + 1) m

def stosb (addr cnt : Nat) (m : Bytes) : Bytes := fun a => if u32 (a + 2 ^ 32 - addr) < cnt then 0 else m a

def word (m : Bytes) (a : Nat) : Nat := leValue (fun i => m (a + i)) 4

structure Proghdr where
  off : Nat
  paddr : Nat
  filesz : Nat
  memsz : Nat

def Proghdr.ofBytes (m : Bytes) (ph : Nat) : Proghdr :=
  ⟨word m (ph + 4), word m (ph + 12), word m (ph + 16), word m (ph + 20)⟩

def load (disk : Bytes) (ph : Proghdr) (m : Bytes) : Option Bytes := do
  let m ← readseg disk ph.paddr ph.filesz ph.off m
  return if ph.memsz > ph.filesz then stosb (u32 (ph.paddr + ph.filesz)) (ph.memsz - ph.filesz) m else m

def loadLoop (disk : Bytes) (eph : Nat) : Nat → Nat → Bytes → Option Bytes
  | 0, _, _ => none
  | fuel + 1, ph, m =>
    if ph < eph then do
      let m ← load disk (.ofBytes m ph) m
      loadLoop disk eph fuel (u32 (ph + phSize)) m
    else some m

-- Memory when bootmain calls the entry point, or returns.
def bootmain (disk m : Bytes) : Option Bytes := do
  let m ← readseg disk scratch 4096 0 m
  if word m scratch ≠ elfMagic then return m
  else
    let ph := u32 (scratch + word m (scratch + 28))
    let phnum := leValue (fun i => m (scratch + 44 + i)) 2
    loadLoop disk (u32 (ph + phnum * phSize)) (phnum + 1) ph m

def file (disk : Bytes) : Bytes := fun o => disk (sectsize + o)

def phoff (disk : Bytes) : Nat := word (file disk) 28

def phnum (disk : Bytes) : Nat := leValue (fun i => file disk (44 + i)) 2

def header (disk : Bytes) (i : Nat) : Proghdr := .ofBytes (file disk) (phoff disk + i * phSize)

def headers (disk : Bytes) : List Proghdr := (List.range (phnum disk)).map (header disk)

structure Image (disk : Bytes) : Prop where
  magic : word (file disk) 0 = elfMagic
  inside : phoff disk + phnum disk * phSize ≤ 4096
  sizes : ∀ ph ∈ headers disk, ph.filesz ≤ ph.memsz
  range : ∀ ph ∈ headers disk, scratchEnd ≤ ph.paddr ∧ ph.paddr + ph.memsz ≤ 2 ^ 32
  apart : (headers disk).Pairwise fun ph later => ph.paddr + ph.memsz ≤ later.paddr

def Proghdr.Clear (ph : Proghdr) : Prop :=
  scratchEnd + ph.off % sectsize ≤ ph.paddr ∧ ph.paddr + ph.memsz + sectsize ≤ 2 ^ 32

def Proghdr.byte (disk : Bytes) (ph : Proghdr) (i : Nat) : UInt8 := if i < ph.filesz then file disk (ph.off + i) else 0

def Proghdr.before (disk : Bytes) (ph : Proghdr) (a : Nat) : Option UInt8 :=
  if a < ph.paddr ∧ ph.paddr ≤ a + ph.off % sectsize then some (file disk (ph.off + a - ph.paddr)) else none

def overread (disk : Bytes) : List Proghdr → Nat → Option UInt8
  | [], _ => none
  | ph :: rest, a => (overread disk rest a).or (ph.before disk a)

-- What is read over an earlier segment is what the segment has there.
def Harmless (disk : Bytes) : Prop :=
  ∀ first ph rest, headers disk = first ++ ph :: rest → ∀ i < ph.memsz, ∀ b,
    overread disk rest (ph.paddr + i) = some b → b = ph.byte disk i

variable {disk m m' : Bytes}

theorem readsect_at {dst offset a : Nat} (space : dst + sectsize ≤ 2 ^ 32) (addr : a < 2 ^ 32) :
    readsect disk dst offset m a = if dst ≤ a ∧ a < dst + sectsize then disk (offset * sectsize + (a - dst)) else m a := by
  unfold readsect u32
  simp only [sectsize] at *
  by_cases inside : dst ≤ a ∧ a < dst + 512
  · have place : (a + 2 ^ 32 - dst) % 2 ^ 32 = a - dst := by omega
    rw [if_pos inside, place, if_pos (by omega)]
  · rw [if_neg inside, if_neg (by omega)]

theorem readLoop_spec (disk : Bytes) (epa count pa offset fuel : Nat) (m : Bytes) (rounds : count = (epa - pa + 511) / 512)
    (space : pa + count * 512 < 2 ^ 32) (enough : count < fuel) : ∃ m', readLoop disk epa fuel pa offset m = some m' ∧
      ∀ a < 2 ^ 32, m' a = if pa ≤ a ∧ a < pa + count * 512 then disk (offset * 512 + (a - pa)) else m a := by
  induction count generalizing pa offset fuel m with
  | zero =>
    obtain ⟨fuel, rfl⟩ := Nat.exists_eq_succ_of_ne_zero (Nat.ne_of_gt enough)
    refine ⟨m, if_neg (by omega), fun a addr => ?_⟩
    rw [if_neg (by omega)]
  | succ count ih =>
    obtain ⟨fuel, rfl⟩ : ∃ left, fuel = left + 1 := ⟨fuel - 1, by omega⟩
    have next : u32 (pa + sectsize) = pa + 512 := Nat.mod_eq_of_lt (by simp only [sectsize]; omega)
    obtain ⟨m', finished, holds⟩ := ih (pa + 512) (offset + 1) fuel (readsect disk pa offset m) (by omega) (by omega) (by omega)
    refine ⟨m', ?_, fun a addr => ?_⟩
    · rw [readLoop, if_pos (by omega), next, finished]
    · rw [holds a addr, readsect_at (by simp only [sectsize]; omega) addr]
      simp only [sectsize]
      by_cases first : pa ≤ a ∧ a < pa + 512
      · rw [if_neg (by omega), if_pos first, if_pos (by omega)]
      · by_cases later : pa + 512 ≤ a ∧ a < pa + 512 + count * 512
        · have place : (offset + 1) * 512 + (a - (pa + 512)) = offset * 512 + (a - pa) := by omega
          rw [if_pos later, if_pos (by omega), place]
        · rw [if_neg later, if_neg first, if_neg (by omega)]

theorem readseg_spec (disk : Bytes) (pa count offset : Nat) (low : offset % sectsize ≤ pa)
    (high : pa + count + sectsize ≤ 2 ^ 32) (m : Bytes) :
    ∃ m', readseg disk pa count offset m = some m' ∧
      (∀ a, pa ≤ a + offset % sectsize → a < pa + count → m' a = file disk (offset + a - pa)) ∧
      ∀ a, a + offset % sectsize < pa → m' a = m a := by
  simp only [sectsize] at *
  have first : u32 (pa + 2 ^ 32 - offset % 512) = pa - offset % 512 := by
    unfold u32
    omega
  have last : u32 (pa + count) = pa + count := Nat.mod_eq_of_lt (by omega)
  obtain ⟨m', finished, holds⟩ := readLoop_spec disk (pa + count) _ (pa - offset % 512) (offset / 512 + 1)
    (2 ^ 23 + 1) m rfl (by omega) (by omega)
  refine ⟨m', ?_, fun a low high => ?_, fun a below => ?_⟩
  · rw [readseg, first, last, finished]
  · have place : (offset / 512 + 1) * 512 + (a - (pa - offset % 512)) = 512 + (offset + a - pa) := by omega
    rw [holds a (by omega), if_pos (by omega), file, place]
  · rw [holds a (by omega), if_neg (by omega)]

theorem load_spec {ph : Proghdr} (sizes : ph.filesz ≤ ph.memsz) (clear : ph.Clear) (m : Bytes) :
    ∃ m', load disk ph m = some m' ∧ (∀ i < ph.memsz, m' (ph.paddr + i) = ph.byte disk i) ∧
      ∀ a < ph.paddr, m' a = (ph.before disk a).getD (m a) := by
  obtain ⟨low, high⟩ := clear
  obtain ⟨m₁, finished, inside, below⟩ := readseg_spec disk ph.paddr ph.filesz ph.off (by omega) (by omega) m
  obtain ⟨m₂, rest, zero, same⟩ : ∃ m₂, load disk ph m = some m₂ ∧
      (∀ i, ph.filesz ≤ i → i < ph.memsz → m₂ (ph.paddr + i) = 0) ∧ ∀ a < ph.paddr + ph.filesz, m₂ a = m₁ a := by
    rw [load, finished]
    by_cases more : ph.memsz > ph.filesz
    · have start : u32 (ph.paddr + ph.filesz) = ph.paddr + ph.filesz := Nat.mod_eq_of_lt (by omega)
      refine ⟨_, rfl, fun i low high => ?_, fun a before => ?_⟩
      · rw [if_pos more, start]
        refine if_pos ?_
        unfold u32
        omega
      · rw [if_pos more, start]
        refine if_neg ?_
        unfold u32
        omega
    · refine ⟨_, rfl, fun i low high => absurd high (by omega), fun a _ => ?_⟩
      rw [if_neg more]
  refine ⟨m₂, rest, fun i small => ?_, fun a before => ?_⟩
  · unfold Proghdr.byte
    by_cases content : i < ph.filesz
    · have place : ph.off + (ph.paddr + i) - ph.paddr = ph.off + i := by omega
      rw [if_pos content, same _ (by omega), inside _ (by omega) (by omega), place]
    · rw [if_neg content, zero i (by omega) small]
  · rw [same a (by omega), Proghdr.before]
    by_cases read : a < ph.paddr ∧ ph.paddr ≤ a + ph.off % sectsize
    · rw [if_pos read, inside a read.2 (by omega)]
      rfl
    · rw [if_neg read, below a (by omega)]
      rfl

structure Loaded (disk : Bytes) (rest : List Proghdr) (m m' : Bytes) : Prop where
  below : ∀ a, (∀ ph ∈ rest, a < ph.paddr) → m' a = (overread disk rest a).getD (m a)
  segment : ∀ first ph later, rest = first ++ ph :: later → ∀ i < ph.memsz,
    m' (ph.paddr + i) = (overread disk later (ph.paddr + i)).getD (ph.byte disk i)

theorem loaded_cons {ph : Proghdr} {rest : List Proghdr} {m₁ : Bytes}
    (content : ∀ i < ph.memsz, m₁ (ph.paddr + i) = ph.byte disk i) (before : ∀ a < ph.paddr, m₁ a = (ph.before disk a).getD (m a))
    (apart : ∀ later ∈ rest, ph.paddr + ph.memsz ≤ later.paddr) (loaded : Loaded disk rest m₁ m') :
    Loaded disk (ph :: rest) m m' := by
  refine ⟨fun a low => ?_, fun first ph' later split i small => ?_⟩
  · rw [loaded.below a fun later member => low later (List.mem_cons_of_mem ph member), before a (low ph List.mem_cons_self),
      overread]
    cases overread disk rest a <;> rfl
  · cases first with
    | nil =>
      cases split
      rw [loaded.below _ fun later member => by have := apart later member; omega, content i small]
    | cons _ first =>
      cases split
      exact loaded.segment first ph' later rfl i small

def Kept (disk m : Bytes) : Prop := ∀ i < 4096, m (scratch + i) = file disk i

theorem word_kept (kept : Kept disk m) {o : Nat} (small : o + 4 ≤ 4096) : word m (scratch + o) = word (file disk) o := by
  refine le_value_congr _ _ _ fun i inside => ?_
  rw [Nat.add_assoc, kept _ (by omega)]

theorem loadLoop_spec (image : Image disk) (clear : ∀ ph ∈ headers disk, ph.Clear) (count i : Nat)
    (total : i + count = phnum disk) (m : Bytes) (kept : Kept disk m) :
    ∃ m', loadLoop disk (scratch + phoff disk + phnum disk * phSize) (count + 1) (scratch + phoff disk + i * phSize) m =
      some m' ∧ Loaded disk ((List.range' i count).map (header disk)) m m' := by
  have inside := image.inside
  simp only [phSize, scratch] at *
  induction count generalizing i m with
  | zero =>
    refine ⟨m, if_neg (by omega), fun _ _ => rfl, fun first ph later split => ?_⟩
    cases first <;> cases split
  | succ count ih =>
    have member : ∀ j, i ≤ j → j < phnum disk → header disk j ∈ headers disk := fun j _ small =>
      List.mem_map.mpr ⟨j, List.mem_range.mpr small, rfl⟩
    have here := member i (le_refl i) (by omega)
    have read : Proghdr.ofBytes m (0x10000 + phoff disk + i * 32) = header disk i := by
      simp only [Proghdr.ofBytes, header, phSize, Nat.add_assoc]
      rw [word_kept kept (by omega), word_kept kept (by omega), word_kept kept (by omega), word_kept kept (by omega)]
    obtain ⟨m₁, loads, content, before⟩ := load_spec (image.sizes _ here) (clear _ here) m
    have next : u32 (0x10000 + phoff disk + i * 32 + phSize) = 0x10000 + phoff disk + (i + 1) * 32 := by
      simp only [u32, phSize]
      omega
    have still : Kept disk m₁ := by
      intro o small
      have bound : 0x11000 + (header disk i).off % 512 ≤ (header disk i).paddr := (clear _ here).1
      have page : scratch + o < 0x11000 := Nat.add_lt_add_left small 0x10000
      rw [before _ (by omega), Proghdr.before, if_neg (by simp only [sectsize]; omega)]
      exact kept o small
    obtain ⟨m', finished, loaded⟩ := ih (i + 1) (by omega) m₁ still
    refine ⟨m', ?_, ?_⟩
    · rw [loadLoop, if_pos (by omega), read, loads, next]
      exact finished
    · rw [List.range'_succ]
      refine loaded_cons content before (fun later inRest => ?_) loaded
      obtain ⟨j, range, rfl⟩ := List.mem_map.mp inRest
      obtain ⟨above, small⟩ := List.mem_range'_1.mp range
      have sorted := List.pairwise_iff_getElem.mp (List.pairwise_map.mp image.apart) i j (by rw [List.length_range]; omega)
        (by rw [List.length_range]; omega) (by omega)
      rwa [List.getElem_range, List.getElem_range] at sorted

def sparse (bytes : List (Nat × UInt8)) : Bytes := fun a => (bytes.lookup (a - sectsize)).getD 0

-- Bytes 0x400 to 0x403 of the file are for 0x12000, and the byte at 0x200 + low for 0x12004.
def twoSegments (low : UInt8) : Bytes :=
  sparse [(0, 0x7F), (1, 0x45), (2, 0x4C), (3, 0x46), (28, 52), (44, 2), (57, 4), (65, 0x20), (66, 1), (68, 4), (72, 4), (88, low),
    (89, 2), (96, 4), (97, 0x20), (98, 1), (100, 1), (104, 1), (0x403, 7)]

theorem two_segments_image (low : UInt8) (is : low = 0 ∨ low = 1) : Image (twoSegments low) := by
  rcases is with rfl | rfl
  · exact ⟨by decide +kernel, by decide +kernel, by decide +kernel, by decide +kernel, by decide +kernel⟩
  · exact ⟨by decide +kernel, by decide +kernel, by decide +kernel, by decide +kernel, by decide +kernel⟩

end Xv6.Boot
