import Mathlib.Computability.Language

/-! The matcher of `grep.c`. A string is the list of its bytes before the terminating zero. -/

namespace Xv6.Grep
open List
open scoped Computability

def caret : UInt8 := 94
def dollar : UInt8 := 36
def period : UInt8 := 46
def star : UInt8 := 42

/-- `matchstar`, `here` being `matchhere` of the pattern after the star. -/
def matchstar (c : UInt8) (here : List UInt8 → Bool) : List UInt8 → Bool
  | [] => here []
  | t :: text => here (t :: text) || ((t == c || c == period) && matchstar c here text)

def matchhere : List UInt8 → List UInt8 → Bool
  | [], _ => true
  -- re[1] is the terminating zero
  | [c], text =>
    if c = dollar then text.isEmpty
    else
      match text with
      | [] => false
      | t :: _ => c == period || c == t
  | c :: d :: re, text =>
    if d = star then matchstar c (matchhere re) text
    else
      match text with
      | [] => false
      | t :: text => (c == period || c == t) && matchhere (d :: re) text

def matchFrom (re : List UInt8) : List UInt8 → Bool
  | [] => matchhere re []
  | t :: text => matchhere re (t :: text) || matchFrom re text

def «match» : List UInt8 → List UInt8 → Bool
  | [], text => matchFrom [] text
  | c :: re, text => if c = caret then matchhere re text else matchFrom (c :: re) text

inductive Item where
  | one (c : UInt8)
  | many (c : UInt8)

/-- The items of a pattern, and whether it ends with an unstarred `$`. -/
def items : List UInt8 → List Item × Bool
  | [] => ([], false)
  | [c] => if c = dollar then ([], true) else ([.one c], false)
  | c :: d :: re =>
    if d = star then (.many c :: (items re).1, (items re).2) else (.one c :: (items (d :: re)).1, (items (d :: re)).2)

def Matches (c x : UInt8) : Prop := c = period ∨ c = x

def letter (c : UInt8) : Language UInt8 := {word | ∃ x, word = [x] ∧ Matches c x}

def Item.language : Item → Language UInt8
  | .one c => letter c
  | .many c => (letter c)∗

def language (re : List UInt8) : Language UInt8 := ((items re).1.map Item.language).prod

def body (re : List UInt8) : List UInt8 := if re.head? = some caret then re.tail else re

variable {c : UInt8}

theorem mem_kstar_letter {word : List UInt8} : word ∈ (letter c)∗ ↔ ∀ x ∈ word, Matches c x := by
  rw [Language.mem_kstar]
  constructor
  · rintro ⟨words, rfl, letters⟩ x member
    obtain ⟨word, inside, here⟩ := mem_flatten.mp member
    obtain ⟨y, rfl, agrees⟩ := letters word inside
    rw [mem_singleton.mp here]
    exact agrees
  · intro agree
    refine ⟨word.map fun x => [x], ?_, ?_⟩
    · induction word with
      | nil => rfl
      | cons x word ih => rw [map_cons, flatten_cons, ← ih fun y there => agree y (mem_cons_of_mem x there)]; rfl
    · intro single member
      obtain ⟨x, there, rfl⟩ := mem_map.mp member
      exact ⟨x, rfl, agree x there⟩

/-- The text starts with a word of the items, and a final `$` asks for all of it. -/
def Starts (re text : List UInt8) : Prop :=
  ∃ found after, text = found ++ after ∧ ((items re).2 = true → after = []) ∧ found ∈ language re

variable {text : List UInt8}

theorem matchstar_iff {here : List UInt8 → Bool} :
    matchstar c here text = true ↔ ∃ run rest, text = run ++ rest ∧ (∀ x ∈ run, Matches c x) ∧ here rest = true := by
  induction text with
  | nil =>
    rw [matchstar]
    constructor
    · exact fun matched => ⟨[], [], rfl, nofun, matched⟩
    · rintro ⟨run, rest, empty, -, matched⟩
      rw [(append_eq_nil_iff.mp empty.symm).2] at matched
      exact matched
  | cons t text ih =>
    have agrees : t = c ∨ c = period ↔ Matches c t := by rw [or_comm, eq_comm (a := t), Matches]
    simp only [matchstar, Bool.or_eq_true, Bool.and_eq_true, beq_iff_eq, agrees, ih]
    constructor
    · rintro (matched | ⟨first, run, rest, rfl, agree, matched⟩)
      · exact ⟨[], _, rfl, nofun, matched⟩
      · exact ⟨t :: run, rest, rfl, forall_mem_cons.mpr ⟨first, agree⟩, matched⟩
    · rintro ⟨run, rest, split, agree, matched⟩
      cases run with
      | nil =>
        rw [nil_append] at split
        exact .inl (split ▸ matched)
      | cons x run =>
        obtain ⟨rfl, rfl⟩ := cons.inj split
        obtain ⟨first, agree⟩ := forall_mem_cons.mp agree
        exact .inr ⟨first, run, rest, rfl, agree, matched⟩

theorem starts_many {re : List UInt8} :
    Starts (c :: star :: re) text ↔ ∃ run rest, text = run ++ rest ∧ (∀ x ∈ run, Matches c x) ∧ Starts re rest := by
  simp only [Starts, language, items, if_true, map_cons, prod_cons, Language.mem_mul, Item.language, mem_kstar_letter]
  constructor
  · rintro ⟨_, after, rfl, last, run, agree, found, matched, rfl⟩
    exact ⟨run, found ++ after, append_assoc .., agree, found, after, rfl, last, matched⟩
  · rintro ⟨run, _, rfl, agree, found, after, rfl, last, matched⟩
    exact ⟨run ++ found, after, (append_assoc ..).symm, last, run, agree, found, matched, rfl⟩

theorem starts_one {d : UInt8} {re : List UInt8} (plain : d ≠ star) :
    Starts (c :: d :: re) text ↔ ∃ x rest, text = x :: rest ∧ Matches c x ∧ Starts (d :: re) rest := by
  simp only [Starts, language, items, if_neg plain, map_cons, prod_cons, Language.mem_mul, Item.language]
  constructor
  · rintro ⟨_, after, rfl, last, _, ⟨x, rfl, agrees⟩, found, matched, rfl⟩
    exact ⟨x, found ++ after, rfl, agrees, found, after, rfl, last, matched⟩
  · rintro ⟨x, _, rfl, agrees, found, after, rfl, last, matched⟩
    exact ⟨x :: found, after, rfl, last, [x], ⟨x, rfl, agrees⟩, found, matched, rfl⟩

theorem starts_last (plain : c ≠ dollar) :
    Starts [c] text ↔ ∃ x rest, text = x :: rest ∧ Matches c x := by
  simp only [Starts, language, items, if_neg plain, map_cons, map_nil, prod_singleton, Item.language]
  constructor
  · rintro ⟨_, after, rfl, -, x, rfl, agrees⟩
    exact ⟨x, after, rfl, agrees⟩
  · rintro ⟨x, rest, rfl, agrees⟩
    exact ⟨[x], rest, rfl, nofun, x, rfl, agrees⟩

theorem matchhere_iff : ∀ re text : List UInt8, matchhere re text = true ↔ Starts re text
  | [], text => by simp [matchhere, Starts, language, items]
  | [c], text => by
    by_cases last : c = dollar
    · simp [matchhere, Starts, language, items, last]
    · cases text <;> simp [matchhere, last, starts_last, Matches]
  | c :: d :: re, text => by
    by_cases starred : d = star
    · simp only [matchhere, starred, if_true, matchstar_iff, starts_many, matchhere_iff re]
    · cases text <;> simp [matchhere, starred, starts_one, Matches, matchhere_iff (d :: re)]

theorem matchFrom_iff (re text : List UInt8) :
    matchFrom re text = true ↔ ∃ before rest, text = before ++ rest ∧ Starts re rest := by
  induction text with
  | nil => simp [matchFrom, matchhere_iff]
  | cons t text ih =>
    rw [matchFrom, Bool.or_eq_true, ih, matchhere_iff]
    constructor
    · rintro (here | ⟨before, rest, rfl, there⟩)
      · exact ⟨[], _, rfl, here⟩
      · exact ⟨t :: before, rest, rfl, there⟩
    · rintro ⟨before, rest, split, there⟩
      cases before with
      | nil =>
        rw [nil_append] at split
        exact .inl (split ▸ there)
      | cons x before =>
        obtain ⟨rfl, rfl⟩ := cons.inj split
        exact .inr ⟨before, rest, rfl, there⟩

/-- The text matches if and only if a part of it, at its start after a `^` and at its end before
a `$`, is a word of the items. -/
theorem match_iff (re text : List UInt8) :
    «match» re text = true ↔ ∃ before found after, text = before ++ found ++ after ∧
      (re.head? = some caret → before = []) ∧ ((items (body re)).2 = true → after = []) ∧ found ∈ language (body re) := by
  have whole : «match» re text = true ↔
      ∃ before rest, text = before ++ rest ∧ (re.head? = some caret → before = []) ∧ Starts (body re) rest := by
    cases re with
    | nil => simp [«match», body, matchFrom_iff]
    | cons c re =>
      by_cases anchored : c = caret
      · simp [«match», body, anchored, matchhere_iff]
      · simp [«match», body, anchored, matchFrom_iff]
  rw [whole]
  constructor
  · rintro ⟨before, _, rfl, first, found, after, rfl, last, matched⟩
    exact ⟨before, found, after, (append_assoc ..).symm, first, last, matched⟩
  · rintro ⟨before, found, after, rfl, first, last, matched⟩
    exact ⟨before, found ++ after, append_assoc .., first, found, after, rfl, last, matched⟩

end Xv6.Grep
