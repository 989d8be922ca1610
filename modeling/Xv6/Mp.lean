import Xv6.Lib.Prog
import Mathlib.Logic.Function.Iterate

set_option autoImplicit false

namespace Xv6.Mp

abbrev Addr : Type := UInt32
abbrev Mem : Type := Addr → UInt8

def ncpuMax : Nat := 8

def p2v (a : Addr) : Addr := a + 0x80000000

def sum (mem : Mem) (addr : Addr) : Nat → UInt8
  | 0 => 0
  | len + 1 => mem addr + sum mem (addr + 1) len

def memcmpEq (mem : Mem) (addr : Addr) (text : List UInt8) : Bool :=
  (List.range text.length).map (fun i => mem (addr + UInt32.ofNat i)) == text

def ushort (mem : Mem) (addr : Addr) : Addr := (mem addr).toUInt32 + 256 * (mem (addr + 1)).toUInt32

def uint (mem : Mem) (addr : Addr) : Addr := ushort mem addr + 65536 * ushort mem (addr + 2)

-- The search visits every sizeof(struct mp) = 16 bytes; len is a multiple of it.
def mpsearch1 (mem : Mem) (a : Addr) (len : Nat) : Option Addr :=
  ((List.range (len / 16)).map fun i => p2v a + UInt32.ofNat (16 * i)).find? fun p =>
    memcmpEq mem p [95, 77, 80, 95] && sum mem p 16 == 0

def mpsearch (mem : Mem) : Option Addr :=
  let bda := p2v 0x400
  let p := ushort mem (bda + 0x0E) * 16
  let found :=
    if p ≠ 0 then mpsearch1 mem p 1024
    else mpsearch1 mem (ushort mem (bda + 0x13) * 1024 - 1024) 1024
  match found with
  | some mp => some mp
  | none => mpsearch1 mem 0xF0000 0x10000

def physaddr (mem : Mem) (mp : Addr) : Addr := uint mem (mp + 4)
def imcrp (mem : Mem) (mp : Addr) : UInt8 := mem (mp + 12)
def length (mem : Mem) (conf : Addr) : Addr := ushort mem (conf + 4)
def version (mem : Mem) (conf : Addr) : UInt8 := mem (conf + 6)
def lapicaddr (mem : Mem) (conf : Addr) : Addr := uint mem (conf + 36)

def mpconfig (mem : Mem) : Option (Addr × Addr) :=
  match mpsearch mem with
  | none => none
  | some mp =>
    if physaddr mem mp = 0 then none
    else
      let conf := p2v (physaddr mem mp)
      if ¬ memcmpEq mem conf [80, 67, 77, 80] then none
      else if version mem conf ≠ 1 ∧ version mem conf ≠ 4 then none
      else if sum mem conf (length mem conf).toNat ≠ 0 then none
      else some (mp, conf)

-- What mpinit sets: the globals, cpus[].apicid, and the IMCR behind ports 0x22 and 0x23.
structure Globals where
  ismp : Bool
  ncpu : Nat
  apicid : Nat → UInt8
  lapic : Addr
  ioapicid : UInt8
  imcr : UInt8

def mpproc : UInt8 := 0
def mpbus : UInt8 := 1
def mpioapic : UInt8 := 2
def mpiointr : UInt8 := 3
def mplintr : UInt8 := 4

-- The body of the loop. The break of the default case leaves the switch only.
def entry (mem : Mem) (p : Addr) (g : Globals) : Addr × Globals :=
  if mem p = mpproc then
    (p + 20, if g.ncpu < ncpuMax then { g with apicid := upd g.apicid g.ncpu (mem (p + 1)), ncpu := g.ncpu + 1 } else g)
  else if mem p = mpioapic then (p + 8, { g with ioapicid := mem (p + 1) })
  else if mem p = mpbus ∨ mem p = mpiointr ∨ mem p = mplintr then (p + 8, g)
  else (p, { g with ismp := false })

def round (mem : Mem) (e : Addr) (s : Addr × Globals) : Addr × Globals :=
  if s.1 < e then entry mem s.1 s.2 else s

def entries (mem : Mem) (e : Addr) (rounds : Nat) (s : Addr × Globals) : Option Globals :=
  let s := (round mem e)^[rounds] s
  if s.1 < e then none else some s.2

def firstEntry (conf : Addr) : Addr := conf + 44
def tableEnd (mem : Mem) (conf : Addr) : Addr := conf + length mem conf

def begun (mem : Mem) (conf : Addr) (g : Globals) : Addr × Globals :=
  (firstEntry conf, { g with ismp := true, lapic := lapicaddr mem conf })

def settled (mem : Mem) (mp : Addr) (g : Globals) : Globals :=
  if g.ismp = false then { g with ncpu := 1, lapic := 0, ioapicid := 0 }
  else if imcrp mem mp ≠ 0 then { g with imcr := g.imcr ||| 1 }
  else g

def mpinit (mem : Mem) (rounds : Nat) (g : Globals) : Option Globals :=
  match mpconfig mem with
  | none => some g
  | some (mp, conf) => (entries mem (tableEnd mem conf) rounds (begun mem conf g)).map (settled mem mp)

def boot (imcr : UInt8) : Globals := ⟨false, 0, fun _ => 0, 0, 0, imcr⟩

def entrySize (type : UInt8) : Option Addr :=
  if type = mpproc then some 20
  else if type = mpioapic ∨ type = mpbus ∨ type = mpiointr ∨ type = mplintr then some 8
  else none

inductive EntryAt (mem : Mem) (e first : Addr) : Addr → Prop where
  | first : EntryAt mem e first first
  | next {p n : Addr} (here : EntryAt mem e first p) (more : p < e) (size : entrySize (mem p) = some n) :
      EntryAt mem e first (p + n)

inductive Known (mem : Mem) (e : Addr) : Addr → Prop where
  | ends {p : Addr} (past : ¬ p < e) : Known mem e p
  | entry {p n : Addr} (size : entrySize (mem p) = some n) (rest : Known mem e (p + n)) : Known mem e p

section

variable {mem : Mem} {e p n : Addr}

theorem entry_known (size : entrySize (mem p) = some n) (g : Globals) : (entry mem p g).1 = p + n := by
  unfold entrySize at size
  unfold entry
  split
  · rename_i proc
    rw [if_pos proc] at size
    cases size
    rfl
  · rename_i other
    rw [if_neg other] at size
    split at size
    · rename_i known
      cases size
      split
      · rfl
      · rename_i different
        rw [if_pos (known.resolve_left different)]
    · cases size

theorem entry_unknown (size : entrySize (mem p) = none) (g : Globals) : (entry mem p g).1 = p := by
  unfold entrySize at size
  split at size
  · cases size
  · rename_i noproc
    split at size
    · cases size
    · rename_i unknown
      unfold entry
      rw [if_neg noproc, if_neg fun same => unknown (.inl same), if_neg fun same => unknown (.inr same)]

theorem entry_ncpu (mem : Mem) (p : Addr) (g : Globals) (few : g.ncpu ≤ ncpuMax) : (entry mem p g).2.ncpu ≤ ncpuMax := by
  unfold entry
  split
  · show (if g.ncpu < ncpuMax then _ else g : Globals).ncpu ≤ ncpuMax
    split
    · rename_i room
      exact room
    · exact few
  · split
    · exact few
    · split
      · exact few
      · exact few

theorem rounds_ncpu (mem : Mem) (e : Addr) (rounds : Nat) (s : Addr × Globals) (few : s.2.ncpu ≤ ncpuMax) :
    ((round mem e)^[rounds] s).2.ncpu ≤ ncpuMax := by
  induction rounds generalizing s with
  | zero => exact few
  | succ rounds ih =>
    rw [Function.iterate_succ_apply]
    refine ih (round mem e s) ?_
    unfold round
    split
    · exact entry_ncpu mem s.1 s.2 few
    · exact few

theorem ends_of_known (known : Known mem e p) (g : Globals) : ∃ rounds, ¬ ((round mem e)^[rounds] (p, g)).1 < e := by
  induction known generalizing g with
  | ends past => exact ⟨0, past⟩
  | @entry p n size rest ih =>
    by_cases more : p < e
    · obtain ⟨rounds, past⟩ := ih (entry mem p g).2
      refine ⟨rounds + 1, ?_⟩
      have first : round mem e (p, g) = (p + n, (entry mem p g).2) := by
        rw [round, if_pos more, ← entry_known size g]
      rw [Function.iterate_succ_apply, first]
      exact past
    · exact ⟨0, more⟩

theorem known_of_ends (rounds : Nat) (s : Addr × Globals) (past : ¬ ((round mem e)^[rounds] s).1 < e) : Known mem e s.1 := by
  induction rounds generalizing s with
  | zero => exact .ends past
  | succ rounds ih =>
    rw [Function.iterate_succ_apply] at past
    have rest := ih (round mem e s) past
    by_cases more : s.1 < e
    · rw [round, if_pos more] at rest
      cases size : entrySize (mem s.1) with
      | some n =>
        rw [entry_known size] at rest
        exact .entry size rest
      | none =>
        rw [entry_unknown size] at rest
        exact rest
    · exact .ends more

theorem known_at {first : Addr} (known : Known mem e first) (here : EntryAt mem e first p) : Known mem e p := by
  induction here with
  | first => exact known
  | next _ more size ih =>
    cases ih with
    | ends past => exact absurd more past
    | entry same rest =>
      rw [size] at same
      cases same
      exact rest

theorem no_unknown {first : Addr} (known : Known mem e first) (here : EntryAt mem e first p) (more : p < e) :
    entrySize (mem p) ≠ none := by
  intro unknown
  cases known_at known here with
  | ends past => exact past more
  | entry size _ =>
    rw [unknown] at size
    cases size

theorem entrySize_some (size : entrySize (mem p) = some n) : n = 20 ∨ n = 8 := by
  unfold entrySize at size
  split at size
  · cases size
    exact .inl rfl
  · split at size
    · cases size
      exact .inr rfl
    · cases size

theorem advances (below : p.toNat + 20 < 2 ^ 32) (size : entrySize (mem p) = some n) : p.toNat < (p + n).toNat := by
  rw [UInt32.toNat_add]
  rcases entrySize_some size with rfl | rfl
  · show p.toNat < (p.toNat + 20) % 2 ^ 32
    omega
  · show p.toNat < (p.toNat + 8) % 2 ^ 32
    omega

theorem known_of_no_unknown {first : Addr} (room : e.toNat + 20 ≤ 2 ^ 32)
    (all : ∀ p, EntryAt mem e first p → p < e → entrySize (mem p) ≠ none) : Known mem e first := by
  suffices from_ : ∀ left p, EntryAt mem e first p → e.toNat - p.toNat ≤ left → Known mem e p from
    from_ _ first .first (Nat.le_refl _)
  intro left
  induction left with
  | zero =>
    intro p _ near
    refine .ends fun more => ?_
    have := UInt32.lt_iff_toNat_lt.mp more
    omega
  | succ left ih =>
    intro p here near
    by_cases more : p < e
    · obtain ⟨n, size⟩ := Option.ne_none_iff_exists'.mp (all p here more)
      have less := UInt32.lt_iff_toNat_lt.mp more
      have past : p.toNat < (p + n).toNat := advances (by omega) size
      exact .entry size (ih (p + n) (.next here more size) (by omega))
    · exact .ends more

end

theorem settled_ncpu (mem : Mem) (mp : Addr) (g : Globals) (few : g.ncpu ≤ ncpuMax) : (settled mem mp g).ncpu ≤ ncpuMax := by
  unfold settled
  split
  · show 1 ≤ ncpuMax
    decide
  · split
    · exact few
    · exact few

section

variable {mem : Mem} {mp conf : Addr} (found : mpconfig mem = some (mp, conf))
include found

theorem mpinit_some {rounds : Nat} {g g' : Globals} :
    mpinit mem rounds g = some g' ↔
      ¬ ((round mem (tableEnd mem conf))^[rounds] (begun mem conf g)).1 < tableEnd mem conf ∧
        settled mem mp ((round mem (tableEnd mem conf))^[rounds] (begun mem conf g)).2 = g' := by
  rw [mpinit, found]
  show Option.map (settled mem mp) (entries mem (tableEnd mem conf) rounds (begun mem conf g)) = some g' ↔ _
  unfold entries
  by_cases more : ((round mem (tableEnd mem conf))^[rounds] (begun mem conf g)).1 < tableEnd mem conf
  · rw [if_pos more]
    exact ⟨nofun, fun ended => absurd more ended.1⟩
  · rw [if_neg more, Option.map_some, Option.some.injEq]
    exact ⟨fun same => ⟨more, same⟩, And.right⟩

theorem terminates_iff_known (g : Globals) :
    (∃ rounds g', mpinit mem rounds g = some g') ↔ Known mem (tableEnd mem conf) (firstEntry conf) := by
  constructor
  · rintro ⟨rounds, g', done⟩
    exact known_of_ends rounds (begun mem conf g) ((mpinit_some found).mp done).1
  · intro known
    obtain ⟨rounds, past⟩ := ends_of_known known (begun mem conf g).2
    exact ⟨rounds, _, (mpinit_some found).mpr ⟨past, rfl⟩⟩

theorem mpinit_ncpu {rounds : Nat} {g g' : Globals} (few : g.ncpu ≤ ncpuMax) (done : mpinit mem rounds g = some g') :
    g'.ncpu ≤ ncpuMax := by
  obtain ⟨_, rfl⟩ := (mpinit_some found).mp done
  exact settled_ncpu mem mp _ (rounds_ncpu mem _ rounds (begun mem conf g) few)

end

-- An unknown entry is never left.
theorem mpinit_parses_iff (mem : Mem) (mp conf : Addr) (imcr : UInt8) (found : mpconfig mem = some (mp, conf)) :
    ((∃ rounds g, mpinit mem rounds (boot imcr) = some g) ∧
        (∀ rounds, ((round mem (tableEnd mem conf))^[rounds] (begun mem conf (boot imcr))).2.ncpu ≤ ncpuMax) ∧
        (∀ rounds g, mpinit mem rounds (boot imcr) = some g → g.ncpu ≤ ncpuMax) ∧
        ((∃ p, EntryAt mem (tableEnd mem conf) (firstEntry conf) p ∧ p < tableEnd mem conf ∧ entrySize (mem p) = none) →
          ∃ rounds g, mpinit mem rounds (boot imcr) = some g ∧ g.ismp = false ∧ g.ncpu = 1)) ↔
      Known mem (tableEnd mem conf) (firstEntry conf) := by
  constructor
  · rintro ⟨terminates, _, _, _⟩
    exact (terminates_iff_known found (boot imcr)).mp terminates
  · intro known
    refine ⟨(terminates_iff_known found (boot imcr)).mpr known, fun rounds => ?_, fun rounds g => ?_, ?_⟩
    · exact rounds_ncpu mem _ rounds (begun mem conf (boot imcr)) (Nat.zero_le _)
    · exact mpinit_ncpu found (Nat.zero_le _)
    · rintro ⟨p, here, more, unknown⟩
      exact absurd unknown (no_unknown known here more)

def ebda (image : List UInt8) (a : Addr) : UInt8 :=
  if a = p2v 0x40E then 0xC0 else if a = p2v 0x40F then 0x9F else image.getD (a - p2v 0x9FC00).toNat 0

def tableWith (type checksum : UInt8) : List UInt8 :=
  [95, 77, 80, 95, 0x10, 0xFC, 0x09, 0, 1, 4, 0x8B, 0, 0, 0, 0, 0] ++
    [80, 67, 77, 80, 52, 0, 4, checksum] ++ List.replicate 28 0 ++ [0, 0, 0xE0, 0xFE, 0, 0, 0, 0] ++
    [type, 0, 0, 0, 0, 0, 0, 0]

theorem mpinit_parses_bus_entry :
    mpconfig (ebda (tableWith mpbus 0xB9)) = some (p2v 0x9FC00, p2v 0x9FC10) ∧
      ∃ rounds g, mpinit (ebda (tableWith mpbus 0xB9)) rounds (boot 0) = some g := by
  have found : mpconfig (ebda (tableWith mpbus 0xB9)) = some (p2v 0x9FC00, p2v 0x9FC10) := by decide +kernel
  refine ⟨found, ((mpinit_parses_iff _ _ _ 0 found).mpr ?_).1⟩
  exact .entry (n := 8) (by decide +kernel) (.ends (by decide +kernel))

-- Entry type 9: mpconfig accepts the table and no number of rounds ends the loop.
theorem mpinit_hangs_on_unknown_entry :
    mpconfig (ebda (tableWith 9 0xB1)) = some (p2v 0x9FC00, p2v 0x9FC10) ∧
      EntryAt (ebda (tableWith 9 0xB1)) (tableEnd (ebda (tableWith 9 0xB1)) (p2v 0x9FC10)) (firstEntry (p2v 0x9FC10))
        (firstEntry (p2v 0x9FC10)) ∧
      firstEntry (p2v 0x9FC10) < tableEnd (ebda (tableWith 9 0xB1)) (p2v 0x9FC10) ∧
      entrySize (ebda (tableWith 9 0xB1) (firstEntry (p2v 0x9FC10))) = none ∧
      ∀ rounds, mpinit (ebda (tableWith 9 0xB1)) rounds (boot 0) = none := by
  have found : mpconfig (ebda (tableWith 9 0xB1)) = some (p2v 0x9FC00, p2v 0x9FC10) := by decide +kernel
  have more : firstEntry (p2v 0x9FC10) < tableEnd (ebda (tableWith 9 0xB1)) (p2v 0x9FC10) := by decide +kernel
  have unknown : entrySize (ebda (tableWith 9 0xB1) (firstEntry (p2v 0x9FC10))) = none := by decide +kernel
  refine ⟨found, .first, more, unknown, fun rounds => ?_⟩
  cases result : mpinit (ebda (tableWith 9 0xB1)) rounds (boot 0) with
  | none => rfl
  | some g => exact absurd unknown (no_unknown ((terminates_iff_known found (boot 0)).mp ⟨rounds, g, result⟩) .first more)

end Xv6.Mp
