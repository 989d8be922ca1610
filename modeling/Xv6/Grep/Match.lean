import Mathlib.Data.List.Forall2
import Mathlib.Tactic.Common

set_option autoImplicit false

namespace Xv6.Grep

-- A NUL-terminated string is the list of its bytes before the NUL; a pointer into it is
-- the rest of the list.
abbrev Text : Type := List UInt8

def caret : UInt8 := 94
def dollar : UInt8 := 36
def asterisk : UInt8 := 42
def dot : UInt8 := 46

-- The last lines of matchhere: here is matchhere(re+1, ·).
def matchone (here : Text → Bool) (c : UInt8) : Text → Bool
  | [] => false
  | t :: text => if c = dot ∨ c = t then here text else false

def matchstar (here : Text → Bool) (c : UInt8) : Text → Bool
  | [] => here []
  | t :: text =>
    if here (t :: text) then true
    else if t = c ∨ c = dot then matchstar here c text
    else false

def matchhere : Text → Text → Bool
  | [] => fun _ => true
  | [c] => fun text => if c = dollar then text.isEmpty else matchone (fun _ => true) c text
  | c :: d :: re => if d = asterisk then matchstar (matchhere re) c else matchone (matchhere (d :: re)) c

def matchFrom (re : Text) : Text → Bool
  | [] => matchhere re []
  | t :: text => if matchhere re (t :: text) then true else matchFrom re text

def match_ (re text : Text) : Bool :=
  match re with
  | [] => matchFrom [] text
  | c :: rest => if c = caret then matchhere rest text else matchFrom (c :: rest) text

inductive Item where
  | star (c : UInt8)
  | eol
  | any
  | lit (c : UInt8)
deriving DecidableEq, Repr

def item (c : UInt8) : Item := if c = dot then .any else .lit c

def items : Text → List Item
  | [] => []
  | [c] => [if c = dollar then .eol else item c]
  | c :: d :: re => if d = asterisk then .star c :: items re else item c :: items (d :: re)

def Item.Denotes : Item → Text → Prop
  | .star c, piece => ∀ x ∈ piece, x = c ∨ c = dot
  | .eol, piece => piece = []
  | .any, piece => ∃ x, piece = [x]
  | .lit c, piece => piece = [c]

-- The items match the pieces in turn; nothing follows them if there is a $ among them.
def Starts (its : List Item) (text : Text) : Prop :=
  ∃ pieces rest, text = pieces.flatten ++ rest ∧ List.Forall₂ Item.Denotes its pieces ∧ (.eol ∈ its → rest = [])

-- Some substring of the text matches; with a leading ^, one at the beginning.
def Occurs (re text : Text) : Prop :=
  if re.head? = some caret then Starts (items re.tail) text
  else ∃ before after, text = before ++ after ∧ Starts (items re) after

theorem starts_nil (text : Text) : Starts [] text := ⟨[], text, rfl, .nil, nofun⟩

theorem starts_eol (text : Text) : Starts [.eol] text ↔ text = [] := by
  constructor
  · rintro ⟨pieces, rest, rfl, denotes, last⟩
    cases denotes with
    | cons first none =>
      cases none
      have piece : _ = [] := first
      rw [last List.mem_cons_self, piece]
      rfl
  · rintro rfl
    exact ⟨[[]], [], rfl, .cons rfl .nil, fun _ => rfl⟩

theorem starts_cons {it : Item} (different : it ≠ .eol) (its : List Item) (text : Text) :
    Starts (it :: its) text ↔ ∃ piece rest, text = piece ++ rest ∧ it.Denotes piece ∧ Starts its rest := by
  constructor
  · rintro ⟨pieces, rest, rfl, denotes, last⟩
    cases denotes with
    | @cons _ piece _ pieces first others =>
      refine ⟨piece, pieces.flatten ++ rest, by rw [List.flatten_cons, List.append_assoc], first, pieces, rest, rfl, others, ?_⟩
      exact fun member => last (List.mem_cons_of_mem it member)
  · rintro ⟨piece, text, rfl, first, pieces, rest, rfl, others, last⟩
    refine ⟨piece :: pieces, rest, by rw [List.flatten_cons, List.append_assoc], .cons first others, fun member => ?_⟩
    exact last ((List.mem_cons.mp member).resolve_left (Ne.symm different))

theorem item_ne_eol (c : UInt8) : item c ≠ .eol := by
  unfold item
  split <;> exact nofun

theorem item_denotes (c : UInt8) (piece : Text) : (item c).Denotes piece ↔ ∃ x, piece = [x] ∧ (c = dot ∨ c = x) := by
  unfold item
  split
  · next any =>
      exact ⟨fun ⟨x, same⟩ => ⟨x, same, .inl any⟩, fun ⟨x, same, _⟩ => ⟨x, same⟩⟩
  · next other =>
      constructor
      · intro same
        exact ⟨c, same, .inr rfl⟩
      · rintro ⟨x, rfl, either⟩
        rw [either.resolve_left other]
        rfl

theorem matchone_iff {here : Text → Bool} {its : List Item} (rest : ∀ text, here text = true ↔ Starts its text) (c : UInt8)
    (text : Text) : matchone here c text = true ↔ Starts (item c :: its) text := by
  rw [starts_cons (item_ne_eol c)]
  cases text with
  | nil =>
    refine ⟨nofun, ?_⟩
    rintro ⟨piece, rest, empty, denotes, -⟩
    obtain ⟨x, rfl, -⟩ := (item_denotes c piece).mp denotes
    cases empty
  | cons t text =>
    rw [matchone]
    constructor
    · intro matched
      split at matched
      · next accepts => exact ⟨[t], text, rfl, (item_denotes c [t]).mpr ⟨t, rfl, accepts⟩, (rest text).mp matched⟩
      · cases matched
    · rintro ⟨piece, after, split_, denotes, starts⟩
      obtain ⟨x, rfl, accepts⟩ := (item_denotes c piece).mp denotes
      cases split_
      rw [if_pos accepts]
      exact (rest _).mpr starts

theorem matchstar_iff {here : Text → Bool} {its : List Item} (rest : ∀ text, here text = true ↔ Starts its text) (c : UInt8)
    (text : Text) : matchstar here c text = true ↔ Starts (.star c :: its) text := by
  rw [@starts_cons (.star c) nofun its text]
  induction text with
  | nil =>
    rw [matchstar, rest]
    constructor
    · exact fun starts => ⟨[], [], rfl, nofun, starts⟩
    · rintro ⟨piece, after, empty, -, starts⟩
      rw [(List.append_eq_nil_iff.mp empty.symm).2] at starts
      exact starts
  | cons t text ih =>
    rw [matchstar]
    constructor
    · intro matched
      split at matched
      · next now => exact ⟨[], t :: text, rfl, nofun, (rest _).mp now⟩
      · split at matched
        · next accepts =>
            obtain ⟨piece, after, rfl, denotes, starts⟩ := ih.mp matched
            exact ⟨t :: piece, after, rfl, List.forall_mem_cons.mpr ⟨accepts, denotes⟩, starts⟩
        · cases matched
    · rintro ⟨piece, after, split_, denotes, starts⟩
      cases piece with
      | nil =>
        rw [List.nil_append] at split_
        rw [if_pos ((rest _).mpr (split_ ▸ starts))]
      | cons x piece =>
        cases split_
        obtain ⟨accepts, others⟩ := List.forall_mem_cons.mp denotes
        rw [if_pos accepts, ih.mpr ⟨piece, after, rfl, others, starts⟩]
        split <;> rfl

theorem matchhere_iff (re text : Text) : matchhere re text = true ↔ Starts (items re) text := by
  induction re using matchhere.induct generalizing text with
  | case1 => exact ⟨fun _ => starts_nil text, fun _ => rfl⟩
  | case2 c =>
    rw [matchhere, items]
    split
    · rw [starts_eol, List.isEmpty_iff]
    · exact matchone_iff (fun text => ⟨fun _ => starts_nil text, fun _ => rfl⟩) c text
  | case3 c re ih =>
    rw [matchhere, items, if_pos rfl, if_pos rfl]
    exact matchstar_iff ih c text
  | case4 c d re single ih =>
    rw [matchhere, items, if_neg single, if_neg single]
    exact matchone_iff ih c text

theorem match_from_iff (re text : Text) :
    matchFrom re text = true ↔ ∃ before after, text = before ++ after ∧ Starts (items re) after := by
  induction text with
  | nil =>
    rw [matchFrom, matchhere_iff]
    constructor
    · exact fun starts => ⟨[], [], rfl, starts⟩
    · rintro ⟨before, after, empty, starts⟩
      rw [(List.append_eq_nil_iff.mp empty.symm).2] at starts
      exact starts
  | cons t text ih =>
    rw [matchFrom]
    constructor
    · intro matched
      split at matched
      · next now => exact ⟨[], t :: text, rfl, (matchhere_iff re _).mp now⟩
      · obtain ⟨before, after, rfl, starts⟩ := ih.mp matched
        exact ⟨t :: before, after, rfl, starts⟩
    · rintro ⟨before, after, split_, starts⟩
      cases before with
      | nil =>
        rw [List.nil_append] at split_
        rw [if_pos ((matchhere_iff re _).mpr (split_ ▸ starts))]
      | cons x before =>
        cases split_
        rw [ih.mpr ⟨before, after, rfl, starts⟩]
        split <;> rfl

theorem match_iff_occurs (re text : Text) : match_ re text = true ↔ Occurs re text := by
  unfold match_ Occurs
  cases re with
  | nil => exact match_from_iff [] text
  | cons c rest =>
    by_cases anchored : c = caret
    · rw [if_pos (by rw [anchored]; rfl), anchored]
      exact matchhere_iff rest text
    · have other : (c :: rest).head? ≠ some caret := fun same => anchored (Option.some.inj same)
      rw [if_neg other]
      dsimp only
      rw [if_neg anchored]
      exact match_from_iff (c :: rest) text

-- "$*" is a run of dollars, and a * that comes first is a character.
example : match_ [36, 42, 98, 36] [97, 36, 36, 98] = true ∧ match_ [94, 42, 98] [98] = false := by decide

end Xv6.Grep
