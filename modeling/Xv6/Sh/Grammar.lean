import Xv6.Sh.Model

/-! The language of the shell: which tokens a line is made of, and which sequences of tokens are
commands. -/

namespace Xv6.Sh
open Lib List

inductive Token where
  | bar
  | lparen
  | rparen
  | semi
  | amp
  | lt
  | gt
  | append
  | word (text : List UInt8)
  deriving DecidableEq, Repr

def IsWord (c : UInt8) : Prop := c ≠ 0 ∧ isSpace c = false ∧ isSymbol c = false

instance (c : UInt8) : Decidable (IsWord c) := inferInstanceAs (Decidable (_ ∧ _ ∧ _))

/-- The symbols of one character that begin no other one. -/
def Token.char? : Token → Option UInt8
  | .bar => some 124
  | .lparen => some 40
  | .rparen => some 41
  | .semi => some 59
  | .amp => some 38
  | .lt => some 60
  | _ => none

/-- The line `s` is this sequence of tokens, each as long as it can be. -/
inductive Lexes : List UInt8 → List Token → Prop where
  | nil : Lexes [] []
  | space {c s ts} (blank : isSpace c = true) : Lexes s ts → Lexes (c :: s) ts
  | symbol {t : Token} {c s ts} (is : t.char? = some c) : Lexes s ts → Lexes (c :: s) (t :: ts)
  | gt {s ts} (single : s.head? ≠ some 62) : Lexes s ts → Lexes (62 :: s) (.gt :: ts)
  | append {s ts} : Lexes s ts → Lexes (62 :: 62 :: s) (.append :: ts)
  | word {c w s ts} (chars : ∀ d ∈ c :: w, IsWord d) (ends : ∀ d, s.head? = some d → ¬ IsWord d) :
    Lexes s ts → Lexes (c :: w ++ s) (.word (c :: w) :: ts)

/-- The mode and the descriptor of a redirection. -/
def Token.redir? : Token → Option (Nat × Nat)
  | .lt => some (O_RDONLY, 0)
  | .gt => some (O_WRONLY ||| O_CREATE, 1)
  | .append => some (O_WRONLY ||| O_CREATE, 1)
  | _ => none

/-! In each of these relations the tokens of the phrase come first in the first list, and the
last list is what follows it. -/

inductive Redirs : List Token → List (Redir (List UInt8)) → List Token → Prop where
  | nil {ts} : Redirs ts [] ts
  | cons {t file mode fd ts rs rest} (is : Token.redir? t = some (mode, fd)) :
    Redirs ts rs rest → Redirs (t :: .word file :: ts) (⟨file, mode, fd⟩ :: rs) rest

inductive Args : List Token → List (List UInt8) → List (Redir (List UInt8)) → List Token → Prop where
  | nil {ts} : Args ts [] [] ts
  | cons {w ts more mid argv rs rest} : Redirs ts more mid → Args mid argv rs rest →
    Args (.word w :: ts) (w :: argv) (more ++ rs) rest

/-- `'&'*` after the first command, which makes the second one of it. -/
inductive Backs : List Token → Cmd (List UInt8) → Cmd (List UInt8) → List Token → Prop where
  | nil {ts cmd} : Backs ts cmd cmd ts
  | cons {ts cmd last rest} : Backs ts (.back cmd) last rest → Backs (.amp :: ts) cmd last rest

inductive Phrase where
  | line
  | pipe
  | cmd
  deriving DecidableEq, Repr

/-- The grammar, with the command that a phrase stands for. -/
inductive Derives : Phrase → List Token → Cmd (List UInt8) → List Token → Prop where
  | line {ts first mid cmd rest} : Derives .pipe ts first mid → Backs mid first cmd rest → Derives .line ts cmd rest
  | list {ts first mid left more right rest} : Derives .pipe ts first mid → Backs mid first left (.semi :: more) →
    Derives .line more right rest → Derives .line ts (.list left right) rest
  | command {ts cmd rest} : Derives .cmd ts cmd rest → Derives .pipe ts cmd rest
  | pipe {ts left mid right rest} : Derives .cmd ts left (.bar :: mid) → Derives .pipe mid right rest →
    Derives .pipe ts (.pipe left right) rest
  | block {ts cmd mid rs rest} : Derives .line ts cmd (.rparen :: mid) → Redirs mid rs rest →
    Derives .cmd (.lparen :: ts) (cmd.wrap rs) rest
  | simple {ts first mid argv rs rest} (few : argv.length ≤ MAXARGS - 1) : Redirs ts first mid → Args mid argv rs rest →
    Derives .cmd ts (Cmd.wrap (.exec argv) (first ++ rs)) rest

def Word.text (w : Word) : List UInt8 := w.q.take (w.q.length - w.eq.length)

def Redir.map {α β : Type} (f : α → β) (r : Redir α) : Redir β := ⟨f r.file, r.mode, r.fd⟩

def Cmd.map {α β : Type} (f : α → β) : Cmd α → Cmd β
  | .exec argv => .exec (argv.map f)
  | .redir cmd r => .redir (cmd.map f) (r.map f)
  | .pipe left right => .pipe (left.map f) (right.map f)
  | .list left right => .list (left.map f) (right.map f)
  | .back cmd => .back (cmd.map f)

def Cmd.text (cmd : Cmd Word) : Cmd (List UInt8) := cmd.map Word.text

theorem Cmd.text_wrap (cmd : Cmd Word) (rs : List (Redir Word)) :
    (cmd.wrap rs).text = cmd.text.wrap (rs.map (Redir.map Word.text)) := by
  induction rs generalizing cmd with
  | nil => rfl
  | cons r rs ih =>
    change ((cmd.redir r).wrap rs).text = _
    rw [ih]
    rfl

section Tokens

variable {s : List UInt8} {ts : List Token} {t : Token}

def Token.kind : Token → Kind
  | .bar => .bar
  | .lparen => .lparen
  | .rparen => .rparen
  | .semi => .semi
  | .amp => .amp
  | .lt => .lt
  | .gt => .gt
  | .append => .append
  | .word _ => .word

def Token.among (toks : List UInt8) : Token → Bool
  | .bar => toks.contains 124
  | .lparen => toks.contains 40
  | .rparen => toks.contains 41
  | .semi => toks.contains 59
  | .amp => toks.contains 38
  | .lt => toks.contains 60
  | .gt => toks.contains 62
  | .append => toks.contains 62
  | .word _ => false

def starts (toks : List UInt8) (ts : List Token) : Bool := ts.head?.any (Token.among toks)

theorem Token.char?_symbol {c : UInt8} (is : t.char? = some c) : c ∈ symbols ∧ c ≠ 62 := by
  cases t <;> cases is <;> decide

theorem symbol_not_space {c : UInt8} (is : c ∈ symbols) : isSpace c = false ∧ c ≠ 0 := by
  have all : symbols.all (fun c => !isSpace c && c != 0) = true := by decide
  have this := all_eq_true.mp all c is
  simpa using this

theorem Lexes.skip (lexes : Lexes s ts) : Lexes (s.dropWhile isSpace) ts := by
  induction lexes with
  | nil => exact .nil
  | space blank _ ih =>
    rw [dropWhile_cons, if_pos blank]
    exact ih
  | symbol is rest _ =>
    rw [dropWhile_cons, (symbol_not_space (Token.char?_symbol is).1).1]
    exact .symbol is rest
  | gt single rest _ => exact .gt single rest
  | append rest _ => exact .append rest
  | word chars ends rest _ =>
    rw [cons_append, dropWhile_cons, (chars _ mem_cons_self).2.1]
    exact .word chars ends rest

/-- A list that begins with no space. -/
def Tight (s : List UInt8) : Prop := ∀ c, s.head? = some c → isSpace c = false

theorem tight_dropWhile (s : List UInt8) : Tight (s.dropWhile isSpace) := by
  induction s with
  | nil => nofun
  | cons c s ih =>
    rw [dropWhile_cons]
    split
    next => exact ih
    next not =>
      intro d head
      obtain rfl := Option.some.inj head
      exact Bool.eq_false_iff.mpr not

theorem Lexes.tight_nil (lexes : Lexes s []) (tight : Tight s) : s = [] := by
  cases lexes with
  | nil => rfl
  | space blank _ =>
    have none := tight _ rfl
    rw [blank] at none
    cases none

theorem not_symbol {c : UInt8} (word : IsWord c) : c ∉ symbols := by
  intro member
  have symbol := word.2.2
  rw [isSymbol, contains_iff_mem.mpr member] at symbol
  cases symbol

theorem dropWhile_word {w s : List UInt8} (chars : ∀ d ∈ w, IsWord d) (ends : ∀ d, s.head? = some d → ¬ IsWord d)
    (nonzero : ∀ d ∈ s, d ≠ 0) : (w ++ s).dropWhile (fun c => !isSpace c && !isSymbol c) = s := by
  induction w with
  | nil =>
    cases s with
    | nil => rfl
    | cons d s =>
      rw [nil_append, dropWhile_cons, if_neg]
      intro both
      rw [Bool.and_eq_true, Bool.not_eq_true', Bool.not_eq_true'] at both
      exact ends d rfl ⟨nonzero d mem_cons_self, both⟩
  | cons c w ih =>
    have here := chars c mem_cons_self
    rw [cons_append, dropWhile_cons, here.2.1, here.2.2, Bool.not_false, Bool.and_self, if_pos rfl]
    exact ih fun d member => chars d (mem_cons_of_mem _ member)

theorem Lexes.nonzero (lexes : Lexes s ts) : ∀ d ∈ s, d ≠ 0 := by
  induction lexes with
  | nil => nofun
  | space blank _ ih =>
    intro d member
    rcases mem_cons.mp member with rfl | later
    · rintro rfl
      cases blank
    · exact ih d later
  | symbol is _ ih =>
    intro d member
    rcases mem_cons.mp member with rfl | later
    · exact (symbol_not_space (Token.char?_symbol is).1).2
    · exact ih d later
  | gt _ _ ih =>
    intro d member
    rcases mem_cons.mp member with rfl | later
    · decide
    · exact ih d later
  | append _ ih =>
    intro d member
    rcases mem_cons.mp member with rfl | later
    · decide
    · rcases mem_cons.mp later with rfl | last
      · decide
      · exact ih d last
  | word chars _ _ ih =>
    intro d member
    rcases mem_append.mp member with first | later
    · exact (chars d first).1
    · exact ih d later

theorem scan_symbol {c : UInt8} (is : t.char? = some c) (s : List UInt8) : scan (c :: s) = (t.kind, s) := by
  cases t <;> cases is <;> rfl

theorem scan_gt (single : s.head? ≠ some 62) : scan (62 :: s) = (.gt, s) := by
  cases s with
  | nil => rfl
  | cons d s =>
    have other : d ≠ 62 := fun same => single (congrArg some same)
    unfold scan
    simp only [show (62 : UInt8) ≠ 0 by decide, show (62 : UInt8) ≠ 124 by decide, show (62 : UInt8) ≠ 40 by decide,
      show (62 : UInt8) ≠ 41 by decide, show (62 : UInt8) ≠ 59 by decide, show (62 : UInt8) ≠ 38 by decide,
      show (62 : UInt8) ≠ 60 by decide, if_false, if_true]
    split
    next same => exact absurd (List.cons.inj same).1 other
    next => rfl

theorem scan_word {c : UInt8} {w : List UInt8} (word : IsWord c) :
    scan (c :: w) = (.word, (c :: w).dropWhile fun c => !isSpace c && !isSymbol c) := by
  have other : ∀ d ∈ symbols, c ≠ d := fun d member same => not_symbol word (same ▸ member)
  unfold scan
  dsimp only
  rw [if_neg word.1, if_neg (other 124 (by decide)), if_neg (other 40 (by decide)), if_neg (other 41 (by decide)),
    if_neg (other 59 (by decide)), if_neg (other 38 (by decide)), if_neg (other 60 (by decide)), if_neg (other 62 (by decide))]

theorem Lexes.scan (lexes : Lexes s (t :: ts)) (tight : Tight s) :
    ∃ rest, Sh.scan s = (t.kind, rest) ∧ Lexes rest ts ∧ ∀ text, t = .word text → (⟨s, rest⟩ : Word).text = text := by
  cases lexes with
  | space blank _ =>
    have none := tight _ rfl
    rw [blank] at none
    cases none
  | symbol is rest =>
    refine ⟨_, scan_symbol is _, rest, ?_⟩
    rintro text rfl
    cases is
  | gt single rest => exact ⟨_, scan_gt single, rest, nofun⟩
  | append rest => exact ⟨_, rfl, rest, nofun⟩
  | word chars ends rest =>
    refine ⟨_, ?_, rest, ?_⟩
    · rw [cons_append, scan_word (chars _ mem_cons_self), ← cons_append, dropWhile_word chars ends rest.nonzero]
      rfl
    · rintro text same
      cases same
      unfold Word.text
      dsimp only
      rw [length_append, Nat.add_sub_cancel, take_left']
      rfl

variable {stop : Stop → Prop}

theorem wp_gettoken {post : Kind × Word → List UInt8 → Prop} (lexes : Lexes s (t :: ts))
    (here : ∀ w s', Lexes s' ts → (∀ text, t = .word text → w.text = text) → post (t.kind, w) s') :
    wp gettoken post stop s := by
  obtain ⟨rest, token, more, text⟩ := lexes.skip.scan (tight_dropWhile s)
  unfold gettoken
  rw [wp_bind, wp_get]
  dsimp only
  rw [token, wp_bind, wp_set]
  exact wp_pure.mpr (here _ _ more.skip text)

theorem wp_gettoken_eof {post : Kind × Word → List UInt8 → Prop} (lexes : Lexes s []) (here : ∀ w, post (.eof, w) []) :
    wp gettoken post stop s := by
  unfold gettoken
  rw [wp_bind, wp_get]
  dsimp only
  rw [lexes.skip.tight_nil (tight_dropWhile s), wp_bind, wp_set]
  exact wp_pure.mpr (here _)

theorem Lexes.peekAt (lexes : Lexes s ts) (tight : Tight s) {toks : List UInt8} (symbolic : ∀ c ∈ toks, c ∈ symbols) :
    Sh.peekAt toks s = starts toks ts := by
  cases lexes with
  | nil => rfl
  | space blank _ =>
    have none := tight _ rfl
    rw [blank] at none
    cases none
  | @symbol t c s ts is _ =>
    have nonzero := (symbol_not_space (Token.char?_symbol is).1).2
    have same : Token.among toks t = toks.contains c := by
      cases t <;> cases is <;> rfl
    change (decide (c ≠ 0) && toks.contains c) = Token.among toks t
    rw [same, decide_eq_true nonzero, Bool.true_and]
  | gt _ _ => rfl
  | append _ => rfl
  | @word c w s ts chars _ _ =>
    have other : toks.contains c = false := by
      rw [Bool.eq_false_iff]
      intro member
      exact not_symbol (chars c mem_cons_self) (symbolic c (contains_iff_mem.mp member))
    change (decide (c ≠ 0) && toks.contains c) = false
    rw [other, Bool.and_false]

theorem wp_peek {post : Bool → List UInt8 → Prop} {toks : List UInt8} (lexes : Lexes s ts)
    (symbolic : toks.all symbols.contains = true)
    (here : ∀ s', Lexes s' ts → post (starts toks ts) s') : wp (peek toks) post stop s := by
  have each : ∀ c ∈ toks, c ∈ symbols := fun c member => contains_iff_mem.mp (all_eq_true.mp symbolic c member)
  unfold peek
  rw [wp_bind, wp_get]
  dsimp only
  rw [wp_bind, wp_set, wp_pure, lexes.skip.peekAt (tight_dropWhile s) each]
  exact here _ lexes.skip

theorem exists_char? {c : UInt8} (symbol : c ∈ symbols) (other : c ≠ 62) : ∃ t : Token, t.char? = some c := by
  unfold symbols at symbol
  simp only [mem_cons, not_mem_nil, or_false] at symbol
  rcases symbol with rfl | rfl | rfl | rfl | rfl | rfl | rfl
  · exact ⟨.lt, rfl⟩
  · exact ⟨.bar, rfl⟩
  · exact absurd rfl other
  · exact ⟨.amp, rfl⟩
  · exact ⟨.semi, rfl⟩
  · exact ⟨.lparen, rfl⟩
  · exact ⟨.rparen, rfl⟩

theorem exists_lexes (s : List UInt8) (nonzero : ∀ d ∈ s, d ≠ 0) : ∃ ts, Lexes s ts := by
  induction length : s.length using Nat.strongRecOn generalizing s with
  | _ n ih =>
    cases s with
    | nil => exact ⟨[], .nil⟩
    | cons c s =>
      rw [length_cons] at length
      have later : ∀ d ∈ s, d ≠ 0 := fun d member => nonzero d (mem_cons_of_mem _ member)
      by_cases blank : isSpace c = true
      · obtain ⟨ts, rest⟩ := ih s.length (by omega) s later rfl
        exact ⟨ts, .space blank rest⟩
      by_cases symbol : c ∈ symbols
      · by_cases angle : c = 62
        · subst angle
          by_cases double : s.head? = some 62
          · obtain ⟨more, rfl⟩ := List.head?_eq_some_iff.mp double
            rw [length_cons] at length
            obtain ⟨ts, rest⟩ := ih more.length (by omega) more (fun d member => later d (mem_cons_of_mem _ member)) rfl
            exact ⟨_, .append rest⟩
          · obtain ⟨ts, rest⟩ := ih s.length (by omega) s later rfl
            exact ⟨_, .gt double rest⟩
        · obtain ⟨t, is⟩ := exists_char? symbol angle
          obtain ⟨ts, rest⟩ := ih s.length (by omega) s later rfl
          exact ⟨_, .symbol is rest⟩
      · have word : IsWord c := by
          refine ⟨nonzero c mem_cons_self, Bool.eq_false_iff.mpr blank, Bool.eq_false_iff.mpr fun member => ?_⟩
          exact symbol (contains_iff_mem.mp member)
        have split := s.takeWhile_append_dropWhile (p := fun d => decide (IsWord d))
        have shorter : (s.dropWhile fun d => decide (IsWord d)).length ≤ s.length := (dropWhile_sublist _).length_le
        obtain ⟨ts, rest⟩ := ih _ (by omega) (s.dropWhile fun d => decide (IsWord d))
          (fun d member => later d ((dropWhile_sublist _).subset member)) rfl
        refine ⟨.word (c :: s.takeWhile fun d => decide (IsWord d)) :: ts, ?_⟩
        have whole := Lexes.word (c := c) (w := s.takeWhile fun d => decide (IsWord d)) ?_ ?_ rest
        · rwa [cons_append, split] at whole
        · intro d member
          rcases mem_cons.mp member with rfl | inside
          · exact word
          · exact of_decide_eq_true (all_eq_true.mp all_takeWhile d inside)
        · intro d head is
          have not := List.head?_dropWhile_not (fun d => decide (IsWord d)) s
          rw [head] at not
          exact absurd is (of_decide_eq_false not)

end Tokens

end Xv6.Sh
