import Mathlib.Data.List.Perm.Subperm
import Xv6.Ide.Model

set_option autoImplicit false

namespace Xv6.Ide

section

variable {s s' : State} {p b : Nat} {queue : List Nat}

theorem setBuf_self (s : State) (b : Nat) (x : DiskBuf) : (s.setBuf b x).buf b = x := upd_self _ _ _

theorem setBuf_ne (s : State) {b c : Nat} (x : DiskBuf) (other : c ≠ b) : (s.setBuf b x).buf c = s.buf c := upd_ne other

theorem setBuf_next (s : State) (b : Nat) (x : DiskBuf) (same : x.qnext = (s.buf b).qnext) : (s.setBuf b x).next = s.next := by
  funext c
  by_cases here : c = b
  · rw [here]
    unfold State.next
    rw [setBuf_self]
    exact same
  · unfold State.next
    rw [setBuf_ne _ _ here]

theorem test_spec {returned : Bool} (tested : s.test p b = .ok returned s') :
    (returned = true ∧ (s.buf b).body.done = true ∧ s' = s) ∨
    (returned = false ∧ (s.buf b).body.done = false ∧ s' = s.sleep p b) := by
  unfold State.test at tested
  split at tested
  case isTrue done =>
    cases tested
    exact .inl ⟨rfl, done, rfl⟩
  case isFalse busy =>
    cases tested
    exact .inr ⟨rfl, Bool.not_eq_true _ ▸ busy, rfl⟩

theorem append_spec (chain : Chain s.next s.idequeue queue) (nodup : queue.Nodup) (small : ∀ c ∈ queue, c < nbuf)
    (absent : b ∉ queue) (appended : s.append b = .ok () s') :
    Chain s'.next s'.idequeue (queue ++ [b]) ∧ (s'.idequeue = some b ↔ queue = []) ∧
      s'.disk = s.disk ∧ s'.active = s.active ∧ s'.raised = s.raised ∧ s'.port = s.port ∧
      ∀ c, (s'.buf c).body = (s.buf c).body ∧ (s'.buf c).owner = (s.buf c).owner := by
  have fields : ∀ (t : State) (c : Nat) (q : Option Nat) (d : Nat), ((t.setNext c q).buf d).body = (t.buf d).body ∧
      ((t.setNext c q).buf d).owner = (t.buf d).owner := by
    intro t c q d
    unfold State.setNext
    by_cases here : d = c
    · rw [here, setBuf_self]
      exact ⟨rfl, rfl⟩
    · rw [setBuf_ne _ _ here]
      exact ⟨rfl, rfl⟩
  have nextSelf : ∀ (t : State) (c : Nat) (q : Option Nat), (t.setNext c q).next c = q := by
    intro t c q
    unfold State.setNext State.next
    rw [setBuf_self]
  have nextOther : ∀ (t : State) (c d : Nat) (q : Option Nat), d ≠ c → (t.setNext c q).next d = t.next d := by
    intro t c d q other
    unfold State.setNext State.next
    rw [setBuf_ne _ _ other]
  have chain : Chain (s.setNext b none).next s.idequeue queue :=
    chain_congr _ (fun c member => nextOther s b c none fun same => absent (same ▸ member)) chain
  rcases List.eq_nil_or_concat queue with rfl | ⟨front, last, split⟩
  · have idle : s.idequeue = none := chain
    have start : s.append b = .ok () { s.setNext b none with idequeue := some b } := by
      unfold State.append
      dsimp only [State.setNext, State.setBuf]
      rw [idle]
    rw [start] at appended
    cases appended
    exact ⟨⟨rfl, nextSelf s b none⟩, ⟨fun _ => rfl, fun _ => rfl⟩, rfl, rfl, rfl, rfl, fields s b none⟩
  · rw [List.concat_eq_append] at split
    rw [split] at chain ⊢
    have lengths : (front ++ [last]).length ≤ nbuf := by
      rw [← split]
      have inside : queue ⊆ List.range nbuf := fun c member => List.mem_range.mpr (small c member)
      have bound := (List.subperm_of_subset nodup inside).length_le
      rw [List.length_range] at bound
      exact bound
    rw [List.length_append, List.length_singleton] at lengths
    obtain ⟨first, start, found⟩ := chain_last front last chain nbuf lengths
    have stop : s.append b = .ok () ((s.setNext b none).setNext last (some b)) := by
      unfold State.append
      dsimp only
      have same : (s.setNext b none).idequeue = some first := start
      rw [same]
      dsimp only
      rw [found]
    rw [stop] at appended
    cases appended
    have members : ∀ c ∈ front ++ [last], c ≠ b := by
      intro c member
      rw [← split] at member
      exact fun same => absent (same ▸ member)
    have distinct : (front ++ [last]).Nodup := split ▸ nodup
    have lastOther : last ≠ b := members last (List.mem_append_right _ List.mem_cons_self)
    refine ⟨chain_snoc front last b chain (fun c member => nextOther _ last c _ ?_) (nextSelf _ last _) ?_, ?_, rfl, rfl, rfl, rfl,
      fun c => ?_⟩
    · intro same
      exact (List.nodup_append.mp distinct).2.2 c member last List.mem_cons_self same
    · rw [nextOther _ last b _ (Ne.symm lastOther), nextSelf]
    · refine ⟨fun same => ?_, fun empty => ?_⟩
      · have here : s.idequeue = some b := same
        rw [start] at here
        cases here
        cases front with
        | nil => exact absurd (Option.some.inj (start.symm.trans chain.1)).symm lastOther
        | cons c rest => exact absurd (Option.some.inj (start.symm.trans chain.1)).symm (members c List.mem_cons_self)
      · exact absurd empty (List.append_ne_nil_of_right_ne_nil front (List.cons_ne_nil last []))
    · obtain ⟨body, owner⟩ := fields (s.setNext b none) last (some b) c
      obtain ⟨body', owner'⟩ := fields s b none c
      exact ⟨body.trans body', owner.trans owner'⟩

theorem enqueue_cases (chain : Chain s.next s.idequeue queue) (nodup : queue.Nodup) (small : ∀ c ∈ queue, c < nbuf)
    (absent : b ∉ queue) {returned : Bool} (queued : s.enqueue p b = .ok returned s') :
    returned = (s.buf b).body.done ∧ Chain s'.next s'.idequeue (queue ++ [b]) ∧ s'.disk = s.disk ∧ s'.raised = s.raised ∧ s'.port = s.port ∧
      ((queue = [] ∧ s'.active = s.active ++ [(s.buf b).body.command]) ∨ (queue ≠ [] ∧ s'.active = s.active)) ∧
      ∀ c, (s'.buf c).body = (s.buf c).body ∧ (s'.buf c).owner = (s.buf c).owner := by
  unfold State.enqueue at queued
  cases appended : s.append b with
  | panic msg =>
    rw [appended] at queued
    cases queued
  | blocked =>
    rw [appended] at queued
    cases queued
  | ok _ s₁ =>
    rw [appended] at queued
    dsimp only at queued
    obtain ⟨chain₁, first, disk, active, raised, port, fields⟩ := append_spec chain nodup small absent appended
    have body : (s₁.buf b).body = (s.buf b).body := (fields b).1
    have started : ∃ s₂ : State, s₂.test p b = .ok returned s' ∧ s₂.buf = s₁.buf ∧ s₂.idequeue = s₁.idequeue ∧ s₂.disk = s.disk ∧
        s₂.raised = s.raised ∧ s₂.port = s.port ∧ ((queue = [] ∧ s₂.active = s.active ++ [(s.buf b).body.command]) ∨
          (queue ≠ [] ∧ s₂.active = s.active)) := by
      by_cases empty : queue = []
      · rw [if_pos (first.mpr empty)] at queued
        unfold State.idestart at queued
        split at queued
        next s₂ start =>
          split at start
          · cases start
          · cases start
            refine ⟨_, queued, rfl, rfl, disk, raised, port, .inl ⟨empty, ?_⟩⟩
            dsimp only
            rw [active, body]
        · cases queued
        · cases queued
      · rw [if_neg fun here => empty (first.mp here)] at queued
        exact ⟨s₁, queued, rfl, rfl, disk, raised, port, .inr ⟨empty, active⟩⟩
    obtain ⟨s₂, tested, bufs, head, disk₂, raised₂, port₂, active₂⟩ := started
    have result : returned = (s.buf b).body.done ∧ s'.buf = s₁.buf ∧ s'.idequeue = s₁.idequeue ∧ s'.disk = s.disk ∧
        s'.raised = s.raised ∧ s'.port = s.port ∧ s'.active = s₂.active := by
      rcases test_spec tested with ⟨rfl, ended, rfl⟩ | ⟨rfl, busy, rfl⟩
      · rw [bufs, body] at ended
        exact ⟨ended.symm, bufs, head, disk₂, raised₂, port₂, rfl⟩
      · rw [bufs, body] at busy
        exact ⟨busy.symm, bufs, head, disk₂, raised₂, port₂, rfl⟩
    obtain ⟨done, bufs', head', disk', raised', port', active'⟩ := result
    have next : s'.next = s₁.next := by
      funext c
      unfold State.next
      rw [bufs']
    refine ⟨done, ?_, disk', raised', port', ?_, fun c => ?_⟩
    · rw [next, head']
      exact chain₁
    · rw [active']
      exact active₂
    · rw [bufs']
      exact fields c

end

end Xv6.Ide
