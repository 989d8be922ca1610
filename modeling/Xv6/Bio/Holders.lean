import Xv6.Bio.Model
import Xv6.Ide.Steps
import Xv6.Lib.Count

set_option autoImplicit false

namespace Xv6.Bio

open Ide (nbuf Body)

-- Where a process is in the code: between bget and acquiresleep, before the test of B_VALID,
-- inside iderw before and after the buffer is queued, in brelse after releasesleep.
inductive Phase where
  | out
  | wanting (h : Held)
  | fetched (h : Held)
  | starting (h : Held)
  | waiting (h : Held)
  | releasing (b : Nat)

structure Ghost where
  held : List Held
  changed : List Nat
  phase : Phase

def Phase.locked : Phase → List Held
  | .fetched h => [h]
  | .starting h => [h]
  | .waiting h => [h]
  | _ => []

def Phase.loose : Phase → Option Nat
  | .wanting h => some h.b
  | .releasing b => some b
  | _ => none

namespace Ghost

def locks (g : Ghost) : List Held := g.phase.locked ++ g.held

def Loose (g : Ghost) (b : Nat) : Prop := g.phase.loose = some b

def Uses (g : Ghost) (h : Held) : Prop := h ∈ g.locks ∨ g.phase = .wanting h

end Ghost

inductive Moves (p : Nat) : {β : Type} → Act β → β → Ghost → Ghost → Prop where
  | bget (dev blockno b : Nat) (recycled : Bool) (held : List Held) (changed : List Nat) :
      Moves p (.bget dev blockno) (b, recycled) ⟨held, changed, .out⟩ ⟨held, changed, .wanting ⟨b, dev, blockno⟩⟩
  | acquire (h : Held) (held : List Held) (changed : List Nat) :
      Moves p (.acquire p h.b) () ⟨held, changed, .wanting h⟩ ⟨held, changed, .fetched h⟩
  | valid (h : Held) (held : List Held) (changed : List Nat) :
      Moves p (.isValid h.b) true ⟨held, changed, .fetched h⟩ ⟨h :: held, changed, .out⟩
  | invalid (h : Held) (held : List Held) (changed : List Nat) :
      Moves p (.isValid h.b) false ⟨held, changed, .fetched h⟩ ⟨held, changed, .starting h⟩
  | check (h : Held) (held : List Held) (changed : List Nat) :
      Moves p (.check h.b) () ⟨held, changed, .starting h⟩ ⟨held, changed, .starting h⟩
  | enqueue (h : Held) (held : List Held) (changed : List Nat) :
      Moves p (.enqueue p h.b) false ⟨held, changed, .starting h⟩ ⟨held, changed, .waiting h⟩
  | enqueued (h : Held) (held : List Held) (changed : List Nat) :
      Moves p (.enqueue p h.b) true ⟨held, changed, .starting h⟩ ⟨h :: held, changed, .out⟩
  | wait (h : Held) (held : List Held) (changed : List Nat) :
      Moves p (.wait p h.b) false ⟨held, changed, .waiting h⟩ ⟨held, changed, .waiting h⟩
  | waited (h : Held) (held : List Held) (changed : List Nat) :
      Moves p (.wait p h.b) true ⟨held, changed, .waiting h⟩ ⟨h :: held, changed, .out⟩
  | mark (h : Held) (held : List Held) (changed : List Nat) (mine : h ∈ held) :
      Moves p (.mark h.b) () ⟨held, changed, .out⟩ ⟨held.erase h, without h.b changed, .starting h⟩
  | logWrite (h : Held) (held : List Held) (changed : List Nat) (mine : h ∈ held) :
      Moves p (.logWrite h.b) () ⟨held, changed, .out⟩ ⟨held, without h.b changed, .out⟩
  | edit (h : Held) (data : Block) (held : List Held) (changed : List Nat) (mine : h ∈ held) :
      Moves p (.edit h.b data) () ⟨held, changed, .out⟩ ⟨held, h.b :: changed, .out⟩
  | release (h : Held) (held : List Held) (changed : List Nat) (mine : h ∈ held) :
      Moves p (.release h.b) () ⟨held, changed, .out⟩ ⟨held.erase h, without h.b changed, .releasing h.b⟩
  | drop (b : Nat) (held : List Held) (changed : List Nat) :
      Moves p (.drop b) () ⟨held, changed, .releasing b⟩ ⟨held, changed, .out⟩
  | complete (failed : Bool) (g : Ghost) : Moves p (.complete failed) () g g
  | intr (found : Option (Nat × Outcome)) (g : Ghost) : Moves p .intr found g g
  | kill (q : Nat) (g : Ghost) : Moves p (.kill q) () g g

def Final : Task → Ghost → Prop
  | .idle held changed, g => g = ⟨held, changed, .out⟩
  | .waiting h held changed, g => g = ⟨held, changed, .waiting h⟩

section

variable {p : Nat}

abbrev FollowsMoves (p : Nat) : BioM Task → Ghost → Prop := Follows (Moves p) Final

theorem iderw_follows (h : Held) (held : List Held) (changed : List Nat) :
    FollowsMoves p (iderw p h held changed) ⟨held, changed, .starting h⟩ := by
  intro _
  refine ⟨_, .check h held changed, fun returned => ?_⟩
  cases returned with
  | false => exact ⟨_, .enqueue h held changed, rfl⟩
  | true => exact ⟨_, .enqueued h held changed, rfl⟩

theorem calls_follow {task : Task} {g : Ghost} {prog : BioM Task} (final : Final task g) (call : Calls p task prog) : FollowsMoves p prog g := by
  cases call with
  | bread dev blockno held changed =>
    cases final
    rintro ⟨b, recycled⟩
    refine ⟨_, .bget dev blockno b recycled held changed, fun _ => ⟨_, .acquire ⟨b, dev, blockno⟩ held changed, fun valid => ?_⟩⟩
    cases valid with
    | true => exact ⟨_, .valid ⟨b, dev, blockno⟩ held changed, rfl⟩
    | false => exact ⟨_, .invalid ⟨b, dev, blockno⟩ held changed, iderw_follows ⟨b, dev, blockno⟩ held changed⟩
  | bwrite h held changed mine =>
    cases final
    exact fun _ => ⟨_, .mark h held changed mine, iderw_follows h _ _⟩
  | brelse h held changed mine =>
    cases final
    exact fun _ => ⟨_, .release h held changed mine, fun _ => ⟨_, .drop h.b _ _, rfl⟩⟩
  | logWrite h held changed mine =>
    cases final
    exact fun _ => ⟨_, .logWrite h held changed mine, rfl⟩
  | edit h data held changed mine =>
    cases final
    exact fun _ => ⟨_, .edit h data held changed mine, rfl⟩
  | wait h held changed =>
    cases final
    intro returned
    cases returned with
    | false => exact ⟨_, .wait h held changed, rfl⟩
    | true => exact ⟨_, .waited h held changed, rfl⟩
  | complete failed held changed =>
    cases final
    exact fun _ => ⟨_, .complete failed _, rfl⟩
  | intr held changed =>
    cases final
    exact fun found => ⟨_, .intr found _, rfl⟩
  | kill q held changed =>
    cases final
    exact fun _ => ⟨_, .kill q _, rfl⟩

end

structure Holders (s : State) (ghosts : Nat → Ghost) : Prop where
  ring : ∃ order, Cycle s.next s.prev head order ∧ ∀ b, b ∈ order ↔ b < nbuf
  owner : ∀ p b, s.owner b = some p ↔ ∃ h ∈ (ghosts p).locks, h.b = b
  once : ∀ p, ((ghosts p).locks.map Held.b).Nodup
  count : ∀ b, ∃ n, Counted (fun p => (ghosts p).Loose b) n ∧ (s.refcnt b : Int) = (if s.owner b = none then 0 else 1) + n
  place : ∀ p h, (ghosts p).Uses h → h.b < nbuf ∧ (s.body h.b).dev = h.dev ∧ (s.body h.b).blockno = h.blockno
  loose : ∀ p b, (ghosts p).Loose b → b < nbuf

section

variable {s s' : State} {ghosts : Nat → Ghost} {g : Ghost} {p b : Nat}

theorem setBody_body (x : Body) (c : Nat) : (s.setBody b x).body c = if c = b then x else s.body c := by
  unfold State.setBody State.body Ide.State.setBody
  by_cases here : c = b
  · rw [here, Ide.setBuf_self, if_pos rfl]
  · rw [Ide.setBuf_ne _ _ here, if_neg here]

theorem setBody_owner (x : Body) (c : Nat) : (s.setBody b x).owner c = s.owner c := by
  unfold State.setBody State.owner Ide.State.setBody
  by_cases here : c = b
  · rw [here, Ide.setBuf_self]
  · rw [Ide.setBuf_ne _ _ here]

theorem setOwner_owner (q : Option Nat) (c : Nat) : (s.setOwner b q).owner c = if c = b then q else s.owner c := by
  unfold State.setOwner State.owner Ide.State.setOwner
  by_cases here : c = b
  · rw [here, Ide.setBuf_self, if_pos rfl]
  · rw [Ide.setBuf_ne _ _ here, if_neg here]

theorem setOwner_body (q : Option Nat) (c : Nat) : (s.setOwner b q).body c = s.body c := by
  unfold State.setOwner State.body Ide.State.setOwner
  by_cases here : c = b
  · rw [here, Ide.setBuf_self]
  · rw [Ide.setBuf_ne _ _ here]

theorem owner_unique (holders : Holders s ghosts) {q : Nat} {h h' : Held} (first : h ∈ (ghosts p).locks) (second : h' ∈ (ghosts q).locks)
    (same : h.b = h'.b) : p = q := by
  have mine := (holders.owner p h.b).mpr ⟨h, first, rfl⟩
  have other := (holders.owner q h.b).mpr ⟨h', second, same.symm⟩
  exact Option.some.inj (mine.symm.trans other)

theorem unused_free (holders : Holders s ghosts) (zero : s.refcnt b = 0) :
    s.owner b = none ∧ (∀ p, ¬ (ghosts p).Loose b) ∧ ∀ p h, (ghosts p).Uses h → h.b ≠ b := by
  obtain ⟨n, counted, total⟩ := holders.count b
  have some_ : 0 ≤ n := by
    obtain ⟨members, -, size⟩ := counted
    omega
  rw [zero] at total
  have free : s.owner b = none := by
    by_contra locked
    rw [if_neg locked] at total
    omega
  rw [if_pos free] at total
  have none_ : n = 0 := by omega
  rw [none_] at counted
  refine ⟨free, counted_zero counted, fun p h uses same => ?_⟩
  rcases uses with locked | wanting
  · have mine := (holders.owner p b).mpr ⟨h, locked, same⟩
    rw [free] at mine
    cases mine
  · refine counted_zero counted p ?_
    unfold Ghost.Loose
    rw [wanting, ← same]
    rfl

theorem counted_keep {n : Int} {c : Nat} (counted : Counted (fun q => (ghosts q).Loose c) n) (same : g.Loose c ↔ (ghosts p).Loose c) :
    Counted (fun q => (upd ghosts p g q).Loose c) n := by
  refine counted_congr counted fun q => ?_
  by_cases here : q = p
  · rw [here, upd_self]
    exact same
  · rw [upd_ne here]

theorem counted_gain {n : Int} {c : Nat} (counted : Counted (fun q => (ghosts q).Loose c) n) (before : ¬ (ghosts p).Loose c)
    (after : g.Loose c) : Counted (fun q => (upd ghosts p g q).Loose c) (n + 1) := by
  refine counted_enter p counted before ?_ fun q other => ?_
  · rw [upd_self]
    exact after
  · rw [upd_ne other]

theorem counted_lose {n : Int} {c : Nat} (counted : Counted (fun q => (ghosts q).Loose c) n) (before : (ghosts p).Loose c)
    (after : ¬ g.Loose c) : Counted (fun q => (upd ghosts p g q).Loose c) (n - 1) := by
  refine counted_leave p counted before ?_ fun q other => ?_
  · rw [upd_self]
    exact after
  · rw [upd_ne other]

theorem owner_keep (holders : Holders s ghosts) (owner : s'.owner = s.owner) (perm : g.locks.Perm (ghosts p).locks) :
    (∀ q c, s'.owner c = some q ↔ ∃ h ∈ (upd ghosts p g q).locks, h.b = c) ∧ ∀ q, ((upd ghosts p g q).locks.map Held.b).Nodup := by
  refine ⟨fun q c => ?_, fun q => ?_⟩
  · rw [owner, holders.owner]
    by_cases here : q = p
    · rw [here, upd_self]
      exact exists_congr fun h => and_congr_left fun _ => perm.mem_iff.symm
    · rw [upd_ne here]
  · by_cases here : q = p
    · rw [here, upd_self]
      exact (perm.map Held.b).nodup_iff.mpr (holders.once p)
    · rw [upd_ne here]
      exact holders.once q

theorem holders_keep (holders : Holders s ghosts) (next : s'.next = s.next) (prev : s'.prev = s.prev) (refcnt : s'.refcnt = s.refcnt)
    (owner : s'.owner = s.owner) (places : ∀ b, (s'.body b).dev = (s.body b).dev ∧ (s'.body b).blockno = (s.body b).blockno)
    (perm : g.locks.Perm (ghosts p).locks) (loose : g.phase.loose = (ghosts p).phase.loose)
    (wanting : ∀ h, g.phase = .wanting h → (ghosts p).phase = .wanting h) : Holders s' (upd ghosts p g) := by
  obtain ⟨owned, once⟩ := owner_keep holders owner perm
  refine ⟨?_, owned, once, fun c => ?_, fun q h uses => ?_, fun q c is => ?_⟩
  · rw [next, prev]
    exact holders.ring
  · obtain ⟨n, counted, total⟩ := holders.count c
    refine ⟨n, counted_keep counted ?_, by rw [refcnt, owner]; exact total⟩
    unfold Ghost.Loose
    rw [loose]
  · rw [(places h.b).1, (places h.b).2]
    by_cases here : q = p
    · rw [here, upd_self] at uses
      exact holders.place p h (uses.imp perm.mem_iff.mp (wanting h))
    · rw [upd_ne here] at uses
      exact holders.place q h uses
  · by_cases here : q = p
    · rw [here, upd_self] at is
      exact holders.loose p c (loose.symm.trans is)
    · rw [upd_ne here] at is
      exact holders.loose q c is

theorem holders_same (holders : Holders s ghosts) (next : s'.next = s.next) (prev : s'.prev = s.prev) (refcnt : s'.refcnt = s.refcnt)
    (owner : s'.owner = s.owner) (body : s'.body = s.body) : Holders s' ghosts := by
  refine ⟨?_, ?_, holders.once, ?_, ?_, holders.loose⟩
  · rw [next, prev]
    exact holders.ring
  · rw [owner]
    exact holders.owner
  · rw [refcnt, owner]
    exact holders.count
  · rw [body]
    exact holders.place

theorem holders_want {held : List Held} {changed : List Nat} {dev blockno : Nat} (holders : Holders s ghosts)
    (at_ : ghosts p = ⟨held, changed, .out⟩) (next : s'.next = s.next) (prev : s'.prev = s.prev)
    (refcnt : s'.refcnt = upd s.refcnt b (s.refcnt b + 1)) (owner : s'.owner = s.owner)
    (places : ∀ q h, (ghosts q).Uses h → (s'.body h.b).dev = (s.body h.b).dev ∧ (s'.body h.b).blockno = (s.body h.b).blockno)
    (small : b < nbuf) (here : (s'.body b).dev = dev ∧ (s'.body b).blockno = blockno) :
    Holders s' (upd ghosts p ⟨held, changed, .wanting ⟨b, dev, blockno⟩⟩) := by
  obtain ⟨owned, once⟩ := owner_keep (p := p) (g := ⟨held, changed, .wanting ⟨b, dev, blockno⟩⟩) holders owner
    (by rw [at_]; exact List.Perm.refl _)
  refine ⟨?_, owned, once, fun c => ?_, fun q h uses => ?_, fun q c is => ?_⟩
  · rw [next, prev]
    exact holders.ring
  · obtain ⟨n, counted, total⟩ := holders.count c
    by_cases same : c = b
    · rw [same] at counted total ⊢
      refine ⟨n + 1, counted_gain counted (by rw [at_]; exact nofun) rfl, ?_⟩
      rw [refcnt, upd_self, owner]
      push_cast
      rw [total, Int.add_assoc]
    · refine ⟨n, counted_keep counted ?_, by rw [refcnt, upd_ne same, owner]; exact total⟩
      rw [at_]
      exact ⟨fun here => absurd (Option.some.inj here).symm same, nofun⟩
  · by_cases mine : q = p
    · rw [mine, upd_self] at uses
      rcases uses with locked | wanting
      · have before : (ghosts p).Uses h := .inl (by rw [at_]; exact locked)
        rw [(places p h before).1, (places p h before).2]
        exact holders.place p h before
      · cases wanting
        exact ⟨small, here⟩
    · rw [upd_ne mine] at uses
      rw [(places q h uses).1, (places q h uses).2]
      exact holders.place q h uses
  · by_cases mine : q = p
    · rw [mine, upd_self] at is
      exact Option.some.inj is ▸ small
    · rw [upd_ne mine] at is
      exact holders.loose q c is

theorem order_short {order : List Nat} (members : ∀ c, c ∈ order ↔ c < nbuf) (distinct : order.Nodup) :
    order.length < nbuf + 1 := by
  have inside : order ⊆ List.range nbuf := fun c member => List.mem_range.mpr ((members c).mp member)
  have bound := (List.subperm_of_subset distinct inside).length_le
  rw [List.length_range] at bound
  exact Nat.lt_succ_of_le bound

theorem bget_cases (holders : Holders s ghosts) {dev blockno : Nat} {recycled : Bool} (got : s.bget dev blockno = .ok (b, recycled) s') :
    b < nbuf ∧ ((recycled = false ∧ (s.body b).dev = dev ∧ (s.body b).blockno = blockno ∧ s' = s.setRefcnt b (s.refcnt b + 1)) ∨
      (recycled = true ∧ s.refcnt b = 0 ∧ (s.body b).dirty = false ∧ s' = s.assign dev blockno b ∧
        ∀ c, c < nbuf → ¬ ((s.body c).dev = dev ∧ (s.body c).blockno = blockno))) := by
  obtain ⟨order, cycle, members⟩ := holders.ring
  have short := order_short members (List.nodup_cons.mp cycle.nodup).2
  unfold State.bget at got
  rw [cycle_scan cycle _ short] at got
  cases found : order.find? (s.cached dev blockno) with
  | some c =>
    rw [found] at got
    cases got
    have here := List.find?_some found
    have place : (s.body b).dev = dev ∧ (s.body b).blockno = blockno := of_decide_eq_true here
    exact ⟨(members b).mp (List.mem_of_find?_eq_some found), .inl ⟨rfl, place.1, place.2, rfl⟩⟩
  | none =>
    rw [found] at got
    dsimp only at got
    rw [cycle_scan_back cycle _ short] at got
    cases free : order.reverse.find? s.unused with
    | none =>
      rw [free] at got
      cases got
    | some c =>
      rw [free] at got
      cases got
      have here := List.find?_some free
      have unused : s.refcnt b = 0 ∧ (s.body b).dirty = false := of_decide_eq_true here
      refine ⟨(members b).mp (List.mem_reverse.mp (List.mem_of_find?_eq_some free)), .inr ⟨rfl, unused.1, unused.2, rfl, ?_⟩⟩
      intro c small place
      have absent := List.find?_eq_none.mp found c ((members c).mpr small)
      exact absent (decide_eq_true place)

theorem assign_body (dev blockno c : Nat) : (s.assign dev blockno b).body c =
    if c = b then { s.body b with dev := dev, blockno := blockno, valid := false, dirty := false } else s.body c :=
  setBody_body _ c

theorem holders_bget {held : List Held} {changed : List Nat} {dev blockno : Nat} {recycled : Bool} (holders : Holders s ghosts)
    (at_ : ghosts p = ⟨held, changed, .out⟩) (got : s.bget dev blockno = .ok (b, recycled) s') :
    Holders s' (upd ghosts p ⟨held, changed, .wanting ⟨b, dev, blockno⟩⟩) := by
  obtain ⟨small, ⟨-, first, second, rfl⟩ | ⟨-, zero, -, rfl, -⟩⟩ := bget_cases holders got
  · exact holders_want holders at_ rfl rfl rfl rfl (fun _ _ _ => ⟨rfl, rfl⟩) small ⟨first, second⟩
  · obtain ⟨-, -, free⟩ := unused_free holders zero
    refine holders_want holders at_ rfl rfl ?_ (funext fun c => setBody_owner _ c) (fun q h uses => ?_) small ?_
    · rw [zero]
      rfl
    · rw [assign_body, if_neg (free q h uses)]
      exact ⟨rfl, rfl⟩
    · rw [assign_body, if_pos rfl]
      exact ⟨rfl, rfl⟩

theorem holders_acquire {held : List Held} {changed : List Nat} {h : Held} (holders : Holders s ghosts)
    (at_ : ghosts p = ⟨held, changed, .wanting h⟩) (free : s.owner h.b = none) :
    Holders (s.setOwner h.b (some p)) (upd ghosts p ⟨held, changed, .fetched h⟩) := by
  have nobody : ∀ q k, k ∈ (ghosts q).locks → k.b ≠ h.b := by
    intro q k member same
    have owned := (holders.owner q h.b).mpr ⟨k, member, same⟩
    rw [free] at owned
    cases owned
  have mine : ∀ k, k ∈ held → k ∈ (ghosts p).locks := by
    intro k member
    rw [at_]
    exact member
  refine ⟨holders.ring, fun q c => ?_, fun q => ?_, fun c => ?_, fun q k uses => ?_, fun q c is => ?_⟩
  · rw [setOwner_owner]
    by_cases same : c = h.b
    · rw [if_pos same, same]
      by_cases here : q = p
      · rw [here, upd_self]
        exact ⟨fun _ => ⟨h, List.mem_cons_self, rfl⟩, fun _ => rfl⟩
      · rw [upd_ne here]
        exact ⟨fun owned => absurd (Option.some.inj owned).symm here, fun ⟨k, member, buffer⟩ => absurd buffer (nobody q k member)⟩
    · rw [if_neg same, holders.owner]
      by_cases here : q = p
      · rw [here, upd_self, at_]
        refine ⟨fun ⟨k, member, buffer⟩ => ⟨k, List.mem_cons_of_mem h member, buffer⟩, fun ⟨k, member, buffer⟩ => ?_⟩
        rcases List.mem_cons.mp member with rfl | old
        · exact absurd buffer.symm same
        · exact ⟨k, old, buffer⟩
      · rw [upd_ne here]
  · by_cases here : q = p
    · rw [here, upd_self]
      have before := holders.once p
      rw [at_] at before
      refine List.nodup_cons.mpr ⟨fun member => ?_, before⟩
      obtain ⟨k, inside, same⟩ := List.mem_map.mp member
      exact nobody p k (mine k inside) same
    · rw [upd_ne here]
      exact holders.once q
  · obtain ⟨n, counted, total⟩ := holders.count c
    rw [setOwner_owner]
    by_cases same : c = h.b
    · rw [same] at counted total ⊢
      refine ⟨n - 1, counted_lose counted (by rw [at_]; rfl) nofun, ?_⟩
      rw [if_pos free] at total
      rw [if_pos rfl, if_neg (by exact Option.some_ne_none p)]
      show (s.refcnt h.b : Int) = _
      omega
    · rw [if_neg same]
      refine ⟨n, counted_keep counted ?_, total⟩
      rw [at_]
      exact ⟨nofun, fun here => absurd (Option.some.inj here).symm same⟩
  · rw [setOwner_body]
    by_cases here : q = p
    · rw [here, upd_self] at uses
      refine holders.place p k ?_
      rcases uses with locked | wanting
      · rcases List.mem_cons.mp locked with rfl | old
        · exact .inr (by rw [at_])
        · exact .inl (mine k old)
      · cases wanting
    · rw [upd_ne here] at uses
      exact holders.place q k uses
  · by_cases here : q = p
    · rw [here, upd_self] at is
      cases is
    · rw [upd_ne here] at is
      exact holders.loose q c is

theorem holders_release {held : List Held} {changed changed' : List Nat} {h : Held} (holders : Holders s ghosts)
    (at_ : ghosts p = ⟨held, changed, .out⟩) (mine : h ∈ held) :
    Holders (s.setOwner h.b none) (upd ghosts p ⟨held.erase h, changed', .releasing h.b⟩) := by
  have locks : (ghosts p).locks = held := by rw [at_]; rfl
  have owned : s.owner h.b = some p := (holders.owner p h.b).mpr ⟨h, locks ▸ mine, rfl⟩
  have once := holders.once p
  rw [locks] at once
  have only : ∀ k ∈ held, k.b = h.b → k = h := fun k member same => List.inj_on_of_nodup_map once member mine same
  have distinct : held.Nodup := List.Nodup.of_map Held.b once
  refine ⟨holders.ring, fun q c => ?_, fun q => ?_, fun c => ?_, fun q k uses => ?_, fun q c is => ?_⟩
  · rw [setOwner_owner]
    by_cases same : c = h.b
    · rw [if_pos same, same]
      refine ⟨nofun, fun ⟨k, member, buffer⟩ => ?_⟩
      by_cases here : q = p
      · rw [here, upd_self] at member
        have inside : k ∈ held.erase h := member
        rw [only k (List.mem_of_mem_erase inside) buffer] at inside
        exact absurd inside distinct.not_mem_erase
      · rw [upd_ne here] at member
        have other := (holders.owner q h.b).mpr ⟨k, member, buffer⟩
        exact absurd (Option.some.inj (other.symm.trans owned)) here
    · rw [if_neg same, holders.owner]
      by_cases here : q = p
      · rw [here, upd_self, locks]
        refine ⟨fun ⟨k, member, buffer⟩ => ⟨k, ?_, buffer⟩, fun ⟨k, member, buffer⟩ => ⟨k, List.mem_of_mem_erase member, buffer⟩⟩
        exact (List.mem_erase_of_ne fun is => same (by rw [← buffer, is])).mpr member
      · rw [upd_ne here]
  · by_cases here : q = p
    · rw [here, upd_self]
      exact once.sublist (List.Sublist.map Held.b List.erase_sublist)
    · rw [upd_ne here]
      exact holders.once q
  · obtain ⟨n, counted, total⟩ := holders.count c
    rw [setOwner_owner]
    by_cases same : c = h.b
    · rw [same] at counted total ⊢
      refine ⟨n + 1, counted_gain counted (by rw [at_]; exact nofun) rfl, ?_⟩
      rw [owned, if_neg (Option.some_ne_none p)] at total
      rw [if_pos rfl, if_pos rfl]
      show (s.refcnt h.b : Int) = _
      omega
    · rw [if_neg same]
      refine ⟨n, counted_keep counted ?_, total⟩
      rw [at_]
      exact ⟨fun here => absurd (Option.some.inj here).symm same, nofun⟩
  · rw [setOwner_body]
    by_cases here : q = p
    · rw [here, upd_self] at uses
      refine holders.place p k ?_
      rcases uses with locked | wanting
      · exact .inl (locks ▸ List.mem_of_mem_erase locked)
      · cases wanting
    · rw [upd_ne here] at uses
      exact holders.place q k uses
  · by_cases here : q = p
    · rw [here, upd_self] at is
      have place := holders.place p h (.inl (locks ▸ mine))
      exact Option.some.inj is ▸ place.1
    · rw [upd_ne here] at is
      exact holders.loose q c is

theorem cycle_front {order : List Nat} (cycle : Cycle s.next s.prev head order) (member : b ∈ order) :
    ∃ order', Cycle ((s.unlink b).pushFront b).next ((s.unlink b).pushFront b).prev head order' ∧ ∀ c, c ∈ order' ↔ c ∈ order := by
  obtain ⟨xs, ys, rfl⟩ := List.append_of_mem member
  have inside : b ∈ head :: (xs ++ b :: ys) := List.mem_cons_of_mem head member
  obtain ⟨out, distinct⟩ := List.nodup_cons.mp cycle.nodup
  have other : s.next b ≠ b := by
    have after := ((joined_append xs b ys).mp cycle.joined).2
    rw [joined_first after]
    cases ys with
    | nil => exact fun same => out (same ▸ member)
    | cons y rest =>
      intro same
      have apart := (List.nodup_cons.mp (List.nodup_append.mp distinct).2.1).1
      exact apart (same ▸ List.mem_cons_self)
  have unlinked := cycle_unlink cycle
  have absent : b ∉ head :: (xs ++ ys) := by
    intro still
    rcases List.mem_cons.mp still with top | rest
    · exact out (top ▸ member)
    · exact (List.nodup_middle.mp distinct).notMem rest
  refine ⟨b :: (xs ++ ys), ?_, fun c => ?_⟩
  · have pushed := cycle_push unlinked absent
    have same : (s.unlink b).next = upd s.next (s.prev b) (s.next b) := by
      unfold State.unlink
      dsimp only
      rw [upd_ne (Ne.symm other)]
    have back : (s.unlink b).prev = upd s.prev (s.next b) (s.prev b) := rfl
    have top : b ≠ head := fun is => absent (is ▸ List.mem_cons_self)
    unfold State.pushFront
    dsimp only
    rw [same, back, upd_ne (Ne.symm top)]
    exact pushed
  · rw [List.mem_cons, List.mem_append, List.mem_append, List.mem_cons]
    constructor
    · rintro (here | left | right)
      · exact .inr (.inl here)
      · exact .inl left
      · exact .inr (.inr right)
    · rintro (left | here | right)
      · exact .inr (.inl left)
      · exact .inl here
      · exact .inr (.inr right)

theorem drop_fields : (s.drop b).refcnt = upd s.refcnt b (s.refcnt b - 1) ∧ (s.drop b).ide = s.ide ∧ (s.drop b).error = s.error := by
  unfold State.drop
  dsimp only
  split
  · exact ⟨rfl, rfl, rfl⟩
  · exact ⟨rfl, rfl, rfl⟩

theorem holders_drop {held : List Held} {changed : List Nat} (holders : Holders s ghosts) (at_ : ghosts p = ⟨held, changed, .releasing b⟩) :
    Holders (s.drop b) (upd ghosts p ⟨held, changed, .out⟩) := by
  have small : b < nbuf := holders.loose p b (by rw [at_]; rfl)
  obtain ⟨refcnt, ide, -⟩ := drop_fields (s := s) (b := b)
  have owner : (s.drop b).owner = s.owner := by
    unfold State.owner
    rw [ide]
  have body : (s.drop b).body = s.body := by
    unfold State.body
    rw [ide]
  obtain ⟨owned, once⟩ := owner_keep (p := p) (g := ⟨held, changed, .out⟩) holders owner (by rw [at_]; exact List.Perm.refl _)
  refine ⟨?_, owned, once, fun c => ?_, fun q h uses => ?_, fun q c is => ?_⟩
  · obtain ⟨order, cycle, members⟩ := holders.ring
    unfold State.drop
    dsimp only
    split
    · obtain ⟨order', cycle', same⟩ := cycle_front (s := s.setRefcnt b (s.refcnt b - 1)) cycle ((members b).mpr small)
      exact ⟨order', cycle', fun c => (same c).trans (members c)⟩
    · exact ⟨order, cycle, members⟩
  · obtain ⟨n, counted, total⟩ := holders.count c
    rw [refcnt, owner]
    by_cases same : c = b
    · rw [same] at counted total ⊢
      refine ⟨n - 1, counted_lose counted (by rw [at_]; rfl) nofun, ?_⟩
      have positive : 1 ≤ n := by
        obtain ⟨members, iff, size⟩ := counted
        have loose : (ghosts p).Loose b := by
          rw [at_]
          rfl
        have member : p ∈ members := (iff p).mpr loose
        have := Finset.card_pos.mpr ⟨p, member⟩
        omega
      rw [upd_self]
      split at total
      · rw [if_pos ‹_›]
        omega
      · rw [if_neg ‹_›]
        omega
    · rw [upd_ne same]
      refine ⟨n, counted_keep counted ?_, total⟩
      rw [at_]
      exact ⟨nofun, fun here => absurd (Option.some.inj here).symm same⟩
  · rw [body]
    by_cases here : q = p
    · rw [here, upd_self] at uses
      refine holders.place p h ?_
      rcases uses with locked | wanting
      · exact .inl (by rw [at_]; exact locked)
      · cases wanting
    · rw [upd_ne here] at uses
      exact holders.place q h uses
  · by_cases here : q = p
    · rw [here, upd_self] at is
      cases is
    · rw [upd_ne here] at is
      exact holders.loose q c is

theorem binitLoop_cycle (left : Nat) (order : List Nat) (cycle : Cycle s.next s.prev head order) (members : ∀ c, c ∈ order ↔ c < b)
    (total : b + left = nbuf) : ∃ order', Cycle (State.binitLoop left b s).next (State.binitLoop left b s).prev head order' ∧
      ∀ c, c ∈ order' ↔ c < nbuf := by
  induction left generalizing s b order with
  | zero =>
    refine ⟨order, cycle, fun c => ?_⟩
    rw [members, ← total]
    rfl
  | succ left ih =>
    have absent : b ∉ head :: order := by
      intro member
      rcases List.mem_cons.mp member with top | inside
      · have top' : b = nbuf := top
        omega
      · exact Nat.lt_irrefl b ((members b).mp inside)
    have top : b ≠ head := fun is => absent (is ▸ List.mem_cons_self)
    have pushed := cycle_push cycle absent
    refine ih (s := s.pushFront b) (b := b + 1) (b :: order) ?_ (fun c => ?_) (by omega)
    · unfold State.pushFront
      dsimp only
      rw [upd_ne (Ne.symm top)]
      exact pushed
    · rw [List.mem_cons, members]
      omega

theorem binitLoop_fields (left : Nat) : (State.binitLoop left b s).ide = s.ide ∧ (State.binitLoop left b s).refcnt = s.refcnt ∧
    (State.binitLoop left b s).error = s.error := by
  induction left generalizing s b with
  | zero => exact ⟨rfl, rfl, rfl⟩
  | succ left ih => exact ih (s := s.pushFront b) (b := b + 1)

theorem start_holders (disk : Nat → Nat → Block) (havedisk1 : Bool) :
    Holders (start disk havedisk1).shared fun _ => ⟨[], [], .out⟩ := by
  obtain ⟨ide, refcnt, -⟩ := binitLoop_fields (s := { State.boot disk havedisk1 with
    next := upd (State.boot disk havedisk1).next head head, prev := upd (State.boot disk havedisk1).prev head head }) (b := 0) nbuf
  have owner : ∀ b, (start disk havedisk1).shared.owner b = none := by
    intro b
    show ((State.binitLoop nbuf 0 _).ide.buf b).owner = none
    rw [ide]
    rfl
  refine ⟨?_, fun p b => ?_, fun _ => List.nodup_nil, fun b => ⟨0, counted_none nofun, ?_⟩,
    fun p h uses => ?_, nofun⟩
  · refine binitLoop_cycle nbuf [] ⟨⟨?_, ?_⟩, List.nodup_singleton head⟩ (fun c => ?_) (Nat.zero_add _)
    · exact upd_self (State.boot disk havedisk1).next head head
    · exact upd_self (State.boot disk havedisk1).prev head head
    · exact ⟨nofun, fun never => absurd never (Nat.not_lt_zero c)⟩
  · rw [owner b]
    exact ⟨nofun, fun ⟨h, never, _⟩ => nomatch never⟩
  · show (((State.binitLoop nbuf 0 _).refcnt b : Nat) : Int) = _
    rw [refcnt, owner b]
    rfl
  · rcases uses with never | never
    · cases never
    · cases never

end

end Xv6.Bio
