import Xv6.Sh.Grammar

/-! The parser accepts the grammar and nothing else, and makes of a line the command that the
grammar gives it. -/

namespace Xv6.Sh
open Lib List

variable {last : Cmd (List UInt8)}

variable {s : List UInt8} {ts rest : List Token} {ph : Phrase}

section Lengths

theorem Lexes.length_le (lexes : Lexes s ts) : ts.length ≤ s.length := by
  induction lexes with
  | nil => exact Nat.le_refl _
  | space _ _ ih =>
    rw [length_cons]
    omega
  | symbol _ _ ih =>
    rw [length_cons, length_cons]
    omega
  | gt _ _ ih =>
    rw [length_cons, length_cons]
    omega
  | append _ ih =>
    rw [length_cons, length_cons, length_cons]
    omega
  | word _ _ _ ih =>
    rw [length_append, length_cons, length_cons]
    omega

variable {rs : List (Redir (List UInt8))}

theorem Redirs.length_le (redirs : Redirs ts rs rest) : rest.length ≤ ts.length := by
  induction redirs with
  | nil => exact Nat.le_refl _
  | cons _ _ ih =>
    rw [length_cons, length_cons]
    omega

theorem Args.length_le {argv : List (List UInt8)} (args : Args ts argv rs rest) :
    rest.length ≤ ts.length := by
  induction args with
  | nil => exact Nat.le_refl _
  | cons redirs _ ih =>
    have := redirs.length_le
    rw [length_cons]
    omega

theorem Backs.length_le {cmd : Cmd (List UInt8)} (backs : Backs ts cmd last rest) : rest.length ≤ ts.length := by
  induction backs with
  | nil => exact Nat.le_refl _
  | cons _ ih =>
    rw [length_cons]
    omega

theorem Derives.length_le {cmd : Cmd (List UInt8)} (derives : Derives ph ts cmd rest) :
    rest.length ≤ ts.length := by
  induction derives with
  | line _ backs ih => exact Nat.le_trans backs.length_le ih
  | list _ backs _ first second =>
    have := backs.length_le
    rw [length_cons] at this
    omega
  | command _ ih => exact ih
  | pipe _ _ first second =>
    rw [length_cons] at first
    omega
  | block _ redirs ih =>
    have := redirs.length_le
    rw [length_cons] at ih ⊢
    omega
  | simple _ redirs args => exact Nat.le_trans args.length_le redirs.length_le

end Lengths

variable {t : Token} {rs : List (Redir Word)}

variable {mode fd fuel : Nat} {argv : List Word}

section Sound

theorem starts_redir (ahead : starts [60, 62] ts = true) : ∃ t more mode fd, ts = t :: more ∧ t.redir? = some (mode, fd) := by
  cases ts with
  | nil => cases ahead
  | cons t more => cases t <;> first | exact ⟨_, _, _, _, rfl, rfl⟩ | cases ahead

theorem starts_single {c : UInt8} (char : t.char? = some c) (ahead : starts [c] ts = true) :
    ∃ more, ts = t :: more := by
  cases ts with
  | nil => cases ahead
  | cons u more =>
    cases t <;> cases char <;> cases u <;> first | exact ⟨more, rfl⟩ | cases ahead

theorem addRedir_eq (is : t.redir? = some (mode, fd)) (rs : List (Redir Word)) (file : Word) :
    addRedir rs t.kind file = rs ++ [⟨file, mode, fd⟩] := by
  cases t <;> cases is <;> rfl

theorem sound_redirsFrom (enough : ts.length < fuel) (lexes : Lexes s ts) :
    wp (parseredirsFrom fuel rs) (fun rs' s' => ∃ more rest, rs' = rs ++ more ∧
      Redirs ts (more.map (Redir.map Word.text)) rest ∧ Lexes s' rest) (· ≠ .fuel) s := by
  induction fuel generalizing s ts rs with
  | zero => omega
  | succ fuel ih =>
    unfold parseredirsFrom
    rw [wp_bind]
    apply wp_peek lexes (by decide)
    intro s₁ lexes₁
    cases ahead : starts [60, 62] ts with
    | false =>
      rw [if_neg (by decide)]
      exact wp_pure.mpr ⟨[], ts, (append_nil _).symm, .nil, lexes₁⟩
    | true =>
      obtain ⟨t, more, mode, fd, rfl, is⟩ := starts_redir ahead
      rw [length_cons] at enough
      rw [if_pos rfl, wp_bind]
      apply wp_gettoken lexes₁
      intro _ s₂ lexes₂ _
      dsimp only
      rw [wp_bind]
      cases more with
      | nil =>
        apply wp_gettoken_eof lexes₂
        intro file
        dsimp only
        rw [if_pos (by decide)]
        exact wp_throw.mpr nofun
      | cons u more =>
        rw [length_cons] at enough
        apply wp_gettoken lexes₂
        intro file s₃ lexes₃ text
        dsimp only
        by_cases word : u.kind = .word
        · obtain ⟨name, rfl⟩ : ∃ name, u = .word name := by
            cases u with
            | word name => exact ⟨name, rfl⟩
            | _ => cases word
          rw [if_neg (not_not.mpr word), addRedir_eq is]
          refine wp_mono (ih (by omega) lexes₃) ?_ fun _ stopped => stopped
          rintro rs' s' ⟨others, rest, rfl, redirs, last⟩
          refine ⟨⟨file, mode, fd⟩ :: others, rest, ?_, ?_, last⟩
          · rw [append_assoc]
            rfl
          · rw [map_cons, Redir.map, text name rfl]
            exact .cons is redirs
        · rw [if_pos word]
          exact wp_throw.mpr nofun

theorem sound_redirs (lexes : Lexes s ts) : wp parseredirs (fun rs s' => ∃ rest, Redirs ts (rs.map (Redir.map Word.text)) rest ∧
    Lexes s' rest) (· ≠ .fuel) s := by
  have length := lexes.length_le
  unfold parseredirs
  rw [wp_bind, wp_get]
  refine wp_mono (sound_redirsFrom (by omega) lexes) ?_ fun _ stopped => stopped
  rintro _ s' ⟨more, rest, rfl, redirs, last⟩
  exact ⟨rest, redirs, last⟩

theorem sound_args (enough : ts.length < fuel) (lexes : Lexes s ts)
    (few : argv.length ≤ MAXARGS - 1) :
    wp (parseargs fuel argv rs) (fun cmd s' => ∃ words more rest, Args ts words more rest ∧ Lexes s' rest ∧
      argv.length + words.length ≤ MAXARGS - 1 ∧
      cmd.text = Cmd.wrap (.exec (argv.map Word.text ++ words)) (rs.map (Redir.map Word.text) ++ more)) (· ≠ .fuel) s := by
  induction fuel generalizing s ts argv rs with
  | zero => omega
  | succ fuel ih =>
    have finish : ∀ s' rest, Lexes s' rest → Args ts [] [] rest → ∃ words more rest, Args ts words more rest ∧ Lexes s' rest ∧
        argv.length + words.length ≤ MAXARGS - 1 ∧ (Cmd.wrap (.exec argv) rs).text =
          Cmd.wrap (.exec (argv.map Word.text ++ words)) (rs.map (Redir.map Word.text) ++ more) := by
      intro s' rest last args
      refine ⟨[], [], rest, args, last, few, ?_⟩
      rw [Cmd.text_wrap, append_nil, append_nil]
      rfl
    unfold parseargs
    rw [wp_bind]
    apply wp_peek lexes (by decide)
    intro s₁ lexes₁
    cases starts [124, 41, 38, 59] ts with
    | true =>
      rw [if_pos rfl]
      exact wp_pure.mpr (finish s₁ ts lexes₁ .nil)
    | false =>
      rw [if_neg (by decide), wp_bind]
      cases ts with
      | nil =>
        apply wp_gettoken_eof lexes₁
        intro word
        dsimp only
        rw [if_pos rfl]
        exact wp_pure.mpr (finish [] [] .nil .nil)
      | cons t ts =>
        rw [length_cons] at enough
        apply wp_gettoken lexes₁
        intro word s₂ lexes₂ text
        dsimp only
        by_cases other : t.kind ≠ .word
        · rw [if_neg (by cases t <;> exact nofun), if_pos other]
          exact wp_throw.mpr nofun
        obtain ⟨name, rfl⟩ : ∃ name, t = .word name := by
          cases t with
          | word name => exact ⟨name, rfl⟩
          | _ => exact absurd nofun other
        rw [if_neg nofun, if_neg other]
        by_cases full : argv.length + 1 ≥ MAXARGS
        · rw [if_pos full]
          exact wp_throw.mpr nofun
        rw [if_neg full]
        refine wp_seq (sound_redirs lexes₂) (fun _ stopped => stopped) ?_
        rintro others s₃ ⟨mid, redirs, lexes₃⟩
        have shorter := redirs.length_le
        have count : (argv ++ [word]).length = argv.length + 1 := by rw [length_append, length_singleton]
        refine wp_mono (ih (by omega) lexes₃ (by omega)) ?_ fun _ stopped => stopped
        rintro cmd s' ⟨words, more, rest, args, last, few', cmdText⟩
        refine ⟨name :: words, others.map (Redir.map Word.text) ++ more, rest, .cons redirs args, last, ?_, ?_⟩
        · rw [length_cons]
          omega
        · rw [cmdText, map_append, map_append, append_assoc, append_assoc, map_singleton,
            text name rfl]
          rfl

theorem sound_backs {cmd : Cmd Word} (enough : ts.length < fuel) (lexes : Lexes s ts) :
    wp (parsebacks fuel cmd) (fun last s' => ∃ rest, Backs ts cmd.text last.text rest ∧ Lexes s' rest) (· ≠ .fuel) s := by
  induction fuel generalizing s ts cmd with
  | zero => omega
  | succ fuel ih =>
    unfold parsebacks
    rw [wp_bind]
    apply wp_peek lexes (by decide)
    intro s₁ lexes₁
    cases ahead : starts [38] ts with
    | false =>
      rw [if_neg (by decide)]
      exact wp_pure.mpr ⟨ts, .nil, lexes₁⟩
    | true =>
      obtain ⟨more, rfl⟩ := starts_single (t := .amp) rfl ahead
      rw [length_cons] at enough
      rw [if_pos rfl, wp_bind]
      apply wp_gettoken lexes₁
      intro _ s₂ lexes₂ _
      refine wp_mono (ih (by omega) lexes₂) ?_ fun _ stopped => stopped
      rintro last s' ⟨rest, backs, lexes₃⟩
      exact ⟨rest, .cons backs, lexes₃⟩

/-- The function that parses each phrase, and the fuel it takes for `n` tokens. -/
def parse : Phrase → Nat → ParseM (Cmd Word)
  | .line => parseline
  | .pipe => parsepipe
  | .cmd => parseexec

def fuelFor : Phrase → Nat → Nat
  | .line, n => 4 * n + 3
  | .pipe, n => 4 * n + 2
  | .cmd, n => 4 * n + 1

/-- What is returned is derived from tokens that were read. -/
def Parsed (ph : Phrase) (ts : List Token) (cmd : Cmd Word) (s : List UInt8) : Prop :=
  ∃ rest, Derives ph ts cmd.text rest ∧ Lexes s rest

theorem sound_line (pipe : ∀ s ts, Lexes s ts → fuelFor .pipe ts.length ≤ fuel →
      wp (parsepipe fuel) (Parsed .pipe ts) (· ≠ .fuel) s)
    (line : ∀ s ts, Lexes s ts → fuelFor .line ts.length ≤ fuel → wp (parseline fuel) (Parsed .line ts) (· ≠ .fuel) s)
    (lexes : Lexes s ts) (enough : fuelFor .line ts.length ≤ fuel + 1) :
    wp (parseline (fuel + 1)) (Parsed .line ts) (· ≠ .fuel) s := by
  simp only [fuelFor] at pipe line enough
  unfold parseline
  refine wp_seq (pipe s ts lexes (by omega)) (fun _ stopped => stopped) ?_
  rintro first s₁ ⟨mid, derives, lexes₁⟩
  have shorter := derives.length_le
  have length := lexes₁.length_le
  rw [wp_bind, wp_get]
  refine wp_seq (sound_backs (by omega) lexes₁) (fun _ stopped => stopped) ?_
  rintro left s₂ ⟨rest, backs, lexes₂⟩
  rw [wp_bind]
  apply wp_peek lexes₂ (by decide)
  intro s₃ lexes₃
  cases ahead : starts [59] rest with
  | false =>
    rw [if_neg (by decide)]
    exact wp_pure.mpr ⟨rest, .line derives backs, lexes₃⟩
  | true =>
    obtain ⟨more, rfl⟩ := starts_single (t := .semi) rfl ahead
    have fewer := backs.length_le
    rw [length_cons] at fewer
    rw [if_pos rfl, wp_bind]
    apply wp_gettoken lexes₃
    intro _ s₄ lexes₄ _
    refine wp_seq (line s₄ more lexes₄ (by omega)) (fun _ stopped => stopped) ?_
    rintro right s₅ ⟨rest, others, lexes₅⟩
    exact wp_pure.mpr ⟨rest, .list derives backs others, lexes₅⟩

theorem sound_pipe (exec : ∀ s ts, Lexes s ts → fuelFor .cmd ts.length ≤ fuel →
      wp (parseexec fuel) (Parsed .cmd ts) (· ≠ .fuel) s)
    (pipe : ∀ s ts, Lexes s ts → fuelFor .pipe ts.length ≤ fuel → wp (parsepipe fuel) (Parsed .pipe ts) (· ≠ .fuel) s)
    (lexes : Lexes s ts) (enough : fuelFor .pipe ts.length ≤ fuel + 1) :
    wp (parsepipe (fuel + 1)) (Parsed .pipe ts) (· ≠ .fuel) s := by
  simp only [fuelFor] at exec pipe enough
  unfold parsepipe
  refine wp_seq (exec s ts lexes (by omega)) (fun _ stopped => stopped) ?_
  rintro left s₁ ⟨rest, derives, lexes₁⟩
  have shorter := derives.length_le
  rw [wp_bind]
  apply wp_peek lexes₁ (by decide)
  intro s₂ lexes₂
  cases ahead : starts [124] rest with
  | false =>
    rw [if_neg (by decide)]
    exact wp_pure.mpr ⟨rest, .command derives, lexes₂⟩
  | true =>
    obtain ⟨more, rfl⟩ := starts_single (t := .bar) rfl ahead
    rw [length_cons] at shorter
    rw [if_pos rfl, wp_bind]
    apply wp_gettoken lexes₂
    intro _ s₃ lexes₃ _
    refine wp_seq (pipe s₃ more lexes₃ (by omega)) (fun _ stopped => stopped) ?_
    rintro right s₄ ⟨rest, others, lexes₄⟩
    exact wp_pure.mpr ⟨rest, .pipe derives others, lexes₄⟩

theorem sound_block (line : ∀ s ts, Lexes s ts → fuelFor .line ts.length ≤ fuel →
      wp (parseline fuel) (Parsed .line ts) (· ≠ .fuel) s)
    (lexes : Lexes s (.lparen :: ts)) (enough : fuelFor .line ts.length ≤ fuel) :
    wp (parseblock (fuel + 1)) (Parsed .cmd (.lparen :: ts)) (· ≠ .fuel) s := by
  have open_ : starts [40] (.lparen :: ts) = true := rfl
  unfold parseblock
  rw [wp_bind]
  apply wp_peek lexes (by decide)
  intro s₁ lexes₁
  rw [if_pos open_, wp_bind]
  apply wp_gettoken lexes₁
  intro _ s₂ lexes₂ _
  refine wp_seq (line s₂ ts lexes₂ enough) (fun _ stopped => stopped) ?_
  rintro cmd s₃ ⟨rest, derives, lexes₃⟩
  rw [wp_bind]
  apply wp_peek lexes₃ (by decide)
  intro s₄ lexes₄
  cases ahead : starts [41] rest with
  | false =>
    rw [if_neg (by decide)]
    exact wp_throw.mpr nofun
  | true =>
    obtain ⟨more, rfl⟩ := starts_single (t := .rparen) rfl ahead
    rw [if_pos rfl, wp_bind]
    apply wp_gettoken lexes₄
    intro _ s₅ lexes₅ _
    refine wp_seq (sound_redirs lexes₅) (fun _ stopped => stopped) ?_
    rintro rs s₆ ⟨rest, redirs, lexes₆⟩
    refine wp_pure.mpr ⟨rest, ?_, lexes₆⟩
    rw [Cmd.text_wrap]
    exact .block derives redirs

theorem sound_exec (block : ∀ s ts, Lexes s (.lparen :: ts) → fuelFor .line ts.length + 1 ≤ fuel →
      wp (parseblock fuel) (Parsed .cmd (.lparen :: ts)) (· ≠ .fuel) s)
    (lexes : Lexes s ts) (enough : fuelFor .cmd ts.length ≤ fuel + 1) :
    wp (parseexec (fuel + 1)) (Parsed .cmd ts) (· ≠ .fuel) s := by
  simp only [fuelFor] at block enough
  unfold parseexec
  rw [wp_bind]
  apply wp_peek lexes (by decide)
  intro s₁ lexes₁
  cases ahead : starts [40] ts with
  | true =>
    obtain ⟨more, rfl⟩ := starts_single (t := .lparen) rfl ahead
    rw [length_cons] at enough
    rw [if_pos rfl]
    exact block s₁ more lexes₁ (by omega)
  | false =>
    rw [if_neg (by decide)]
    refine wp_seq (sound_redirs lexes₁) (fun _ stopped => stopped) ?_
    rintro rs s₂ ⟨mid, redirs, lexes₂⟩
    have length := lexes₂.length_le
    rw [wp_bind, wp_get]
    refine wp_mono (sound_args (by omega) lexes₂ (Nat.zero_le _)) ?_ fun _ stopped => stopped
    rintro cmd s₃ ⟨words, more, rest, args, lexes₃, few, text⟩
    refine ⟨rest, ?_, lexes₃⟩
    rw [text]
    exact .simple (by rwa [length_nil, Nat.zero_add] at few) redirs args

/-- With enough fuel, the parser ends, and what it returns is derived. -/
theorem sound (fuel : Nat) :
    (∀ ph s ts, Lexes s ts → fuelFor ph ts.length ≤ fuel → wp (parse ph fuel) (Parsed ph ts) (· ≠ .fuel) s) ∧
    (∀ s ts, Lexes s (.lparen :: ts) → fuelFor .line ts.length + 1 ≤ fuel →
      wp (parseblock fuel) (Parsed .cmd (.lparen :: ts)) (· ≠ .fuel) s) := by
  induction fuel with
  | zero =>
    refine ⟨fun ph s ts _ enough => ?_, fun s ts _ enough => ?_⟩
    · cases ph <;> simp only [fuelFor] at enough <;> omega
    · omega
  | succ fuel ih =>
    obtain ⟨phrases, block⟩ := ih
    refine ⟨fun ph s ts lexes enough => ?_, fun s ts lexes enough => ?_⟩
    · cases ph with
      | line => exact sound_line (phrases .pipe) (phrases .line) lexes enough
      | pipe => exact sound_pipe (phrases .cmd) (phrases .pipe) lexes enough
      | cmd => exact sound_exec block lexes enough
    · exact sound_block (phrases .line) lexes (by omega)

end Sound

section Complete

/-- The tokens that can follow a phrase. -/
def follow : Phrase → List Token
  | .line => [.rparen]
  | .pipe => [.rparen, .amp, .semi]
  | .cmd => [.rparen, .amp, .semi, .bar]

def Follow (ph : Phrase) (ts : List Token) : Prop := ∀ t, ts.head? = some t → t ∈ follow ph

theorem Follow.starts {toks : List UInt8} (after : Follow ph ts)
    (none : ∀ t ∈ follow ph, Token.among toks t = false) : Sh.starts toks ts = false := by
  cases ts with
  | nil => rfl
  | cons t more => exact none t (after t rfl)

theorem Follow.mono {wider : Phrase} (after : Follow ph ts) (more : ∀ t ∈ follow ph, t ∈ follow wider) : Follow wider ts :=
  fun t head => more t (after t head)

theorem follow_cons (member : t ∈ follow ph) (ts : List Token) : Follow ph (t :: ts) := by
  intro u head
  obtain rfl := Option.some.inj head
  exact member

theorem Token.redir?_among (is : t.redir? = some (mode, fd)) : t.among [60, 62] = true := by
  cases t <;> cases is <;> rfl

variable {texts : List (Redir (List UInt8))}

theorem complete_redirsFrom
    (redirs : Redirs ts texts rest) (after : starts [60, 62] rest = false) (enough : ts.length < fuel) (lexes : Lexes s ts) :
    wp (parseredirsFrom fuel rs) (fun rs' s' => rs'.map (Redir.map Word.text) = rs.map (Redir.map Word.text) ++ texts ∧
      Lexes s' rest) (fun _ => False) s := by
  induction redirs generalizing s fuel rs with
  | nil =>
    obtain ⟨fuel, rfl⟩ : ∃ n, fuel = n + 1 := ⟨fuel - 1, by omega⟩
    unfold parseredirsFrom
    rw [wp_bind]
    apply wp_peek lexes (by decide)
    intro s₁ lexes₁
    rw [after, if_neg (by decide)]
    exact wp_pure.mpr ⟨(append_nil _).symm, lexes₁⟩
  | @cons t file mode fd ts texts rest is _ ih =>
    have ahead : starts [60, 62] (t :: .word file :: ts) = true := Token.redir?_among is
    obtain ⟨fuel, rfl⟩ : ∃ n, fuel = n + 1 := ⟨fuel - 1, by omega⟩
    rw [length_cons, length_cons] at enough
    unfold parseredirsFrom
    rw [wp_bind]
    apply wp_peek lexes (by decide)
    intro s₁ lexes₁
    rw [if_pos ahead, wp_bind]
    apply wp_gettoken lexes₁
    intro _ s₂ lexes₂ _
    dsimp only
    rw [wp_bind]
    apply wp_gettoken lexes₂
    intro name s₃ lexes₃ text
    dsimp only
    have word : (Token.word file).kind = .word := rfl
    rw [if_neg (not_not.mpr word), addRedir_eq is]
    refine wp_mono (ih after (by omega) lexes₃) ?_ fun _ stopped => stopped
    rintro rs' s' ⟨same, last⟩
    refine ⟨?_, last⟩
    rw [same, map_append, append_assoc, map_singleton, Redir.map, text file rfl]
    rfl

theorem complete_redirs (redirs : Redirs ts texts rest)
    (after : starts [60, 62] rest = false) (lexes : Lexes s ts) :
    wp parseredirs (fun rs s' => rs.map (Redir.map Word.text) = texts ∧ Lexes s' rest) (fun _ => False) s := by
  have length := lexes.length_le
  unfold parseredirs
  rw [wp_bind, wp_get]
  exact complete_redirsFrom redirs after (by omega) lexes

variable {more : List (Redir (List UInt8))} {words : List (List UInt8)}

theorem Args.starts (args : Args ts words more rest)
    (after : Follow .cmd rest) : Sh.starts [60, 62] ts = false := by
  cases args with
  | nil => exact after.starts (by decide)
  | cons _ _ => rfl

theorem complete_args
    (args : Args ts words more rest) (after : Follow .cmd rest) (enough : ts.length < fuel)
    (few : argv.length + words.length ≤ MAXARGS - 1) (lexes : Lexes s ts) :
    wp (parseargs fuel argv rs) (fun cmd s' => cmd.text =
      Cmd.wrap (.exec (argv.map Word.text ++ words)) (rs.map (Redir.map Word.text) ++ more) ∧ Lexes s' rest) (fun _ => False) s := by
  induction args generalizing s fuel argv rs with
  | @nil ts =>
    have finish : (Cmd.wrap (.exec argv) rs).text =
        Cmd.wrap (.exec (argv.map Word.text ++ [])) (rs.map (Redir.map Word.text) ++ []) := by
      rw [Cmd.text_wrap, append_nil, append_nil]
      rfl
    obtain ⟨fuel, rfl⟩ : ∃ n, fuel = n + 1 := ⟨fuel - 1, by omega⟩
    unfold parseargs
    rw [wp_bind]
    apply wp_peek lexes (by decide)
    intro s₁ lexes₁
    cases ts with
    | nil =>
      have ahead : starts [124, 41, 38, 59] [] = false := rfl
      rw [ahead, if_neg (by decide), wp_bind]
      apply wp_gettoken_eof lexes₁
      intro word
      dsimp only
      rw [if_pos rfl]
      exact wp_pure.mpr ⟨finish, .nil⟩
    | cons t ts =>
      have ahead : starts [124, 41, 38, 59] (t :: ts) = true := by
        have all : ∀ u ∈ follow .cmd, Token.among [124, 41, 38, 59] u = true := by decide
        exact all t (after t rfl)
      rw [if_pos ahead]
      exact wp_pure.mpr ⟨finish, lexes₁⟩
  | @cons w ts others mid words more rest redirs args ih =>
    have ahead : starts [124, 41, 38, 59] (.word w :: ts) = false := rfl
    have shorter := redirs.length_le
    obtain ⟨fuel, rfl⟩ : ∃ n, fuel = n + 1 := ⟨fuel - 1, by omega⟩
    rw [length_cons] at enough few
    unfold parseargs
    rw [wp_bind]
    apply wp_peek lexes (by decide)
    intro s₁ lexes₁
    rw [ahead, if_neg (by decide), wp_bind]
    apply wp_gettoken lexes₁
    intro word s₂ lexes₂ text
    have kind : (Token.word w).kind = .word := rfl
    have room : ¬ argv.length + 1 ≥ MAXARGS := by
      unfold MAXARGS at *
      omega
    have count : (argv ++ [word]).length = argv.length + 1 := by rw [length_append, length_singleton]
    dsimp only
    rw [if_neg nofun, if_neg (not_not.mpr kind), if_neg room]
    refine wp_seq (complete_redirs redirs (args.starts after) lexes₂) (fun _ stopped => stopped) ?_
    rintro rs' s₃ ⟨same, lexes₃⟩
    refine wp_mono (ih after (by omega) (by omega) lexes₃) ?_ fun _ stopped => stopped
    rintro cmd s' ⟨cmdText, last⟩
    refine ⟨?_, last⟩
    rw [cmdText, map_append, map_append, append_assoc, append_assoc, map_singleton, text w rfl, same]
    rfl

theorem complete_backs {cmd : Cmd Word} (backs : Backs ts cmd.text last rest)
    (after : starts [38] rest = false) (enough : ts.length < fuel) (lexes : Lexes s ts) :
    wp (parsebacks fuel cmd) (fun cmd' s' => cmd'.text = last ∧ Lexes s' rest) (fun _ => False) s := by
  generalize first : cmd.text = text at backs
  induction backs generalizing s fuel cmd with
  | nil =>
    obtain ⟨fuel, rfl⟩ : ∃ n, fuel = n + 1 := ⟨fuel - 1, by omega⟩
    unfold parsebacks
    rw [wp_bind]
    apply wp_peek lexes (by decide)
    intro s₁ lexes₁
    rw [after, if_neg (by decide)]
    exact wp_pure.mpr ⟨first, lexes₁⟩
  | @cons ts text last rest _ ih =>
    have ahead : starts [38] (.amp :: ts) = true := rfl
    obtain ⟨fuel, rfl⟩ : ∃ n, fuel = n + 1 := ⟨fuel - 1, by omega⟩
    rw [length_cons] at enough
    unfold parsebacks
    rw [wp_bind]
    apply wp_peek lexes (by decide)
    intro s₁ lexes₁
    rw [if_pos ahead, wp_bind]
    apply wp_gettoken lexes₁
    intro _ s₂ lexes₂ _
    exact ih after (by omega) lexes₂ (congrArg Cmd.back first)

theorem Backs.follow {cmd : Cmd (List UInt8)} (backs : Backs ts cmd last rest) (after : Follow .pipe rest) :
    Follow .pipe ts := by
  cases backs with
  | nil => exact after
  | cons _ => exact follow_cons (by decide) _

/-- A phrase that is followed by what can follow it is parsed as the grammar says. -/
theorem complete {cmd : Cmd (List UInt8)} (derives : Derives ph ts cmd rest) :
    ∀ {s : List UInt8} {fuel : Nat}, Follow ph rest → Lexes s ts → fuelFor ph ts.length ≤ fuel →
      wp (parse ph fuel) (fun cmd' s' => cmd'.text = cmd ∧ Lexes s' rest) (fun _ => False) s := by
  induction derives with
  | @line ts first mid cmd rest derives backs ih =>
    intro s fuel after lexes enough
    have wider : Follow .pipe rest := after.mono (by decide)
    have shorter := derives.length_le
    simp only [fuelFor] at enough ih
    obtain ⟨fuel, rfl⟩ : ∃ n, fuel = n + 1 := ⟨fuel - 1, by omega⟩
    change wp (parseline (fuel + 1)) _ _ _
    unfold parseline
    refine wp_seq (ih (backs.follow wider) lexes (by omega)) (fun _ stopped => stopped) ?_
    rintro left s₁ ⟨rfl, lexes₁⟩
    have length := lexes₁.length_le
    rw [wp_bind, wp_get]
    refine wp_seq (complete_backs backs (after.starts (by decide)) (by omega) lexes₁) (fun _ stopped => stopped) ?_
    rintro cmd' s₂ ⟨same, lexes₂⟩
    rw [wp_bind]
    apply wp_peek lexes₂ (by decide)
    intro s₃ lexes₃
    rw [after.starts (by decide), if_neg (by decide)]
    exact wp_pure.mpr ⟨same, lexes₃⟩
  | @list ts first mid left more right rest derives backs _ firstIh lineIh =>
    intro s fuel after lexes enough
    have ahead : starts [59] (.semi :: more) = true := rfl
    have shorter := derives.length_le
    have fewer := backs.length_le
    rw [length_cons] at fewer
    simp only [fuelFor] at enough firstIh lineIh
    obtain ⟨fuel, rfl⟩ : ∃ n, fuel = n + 1 := ⟨fuel - 1, by omega⟩
    change wp (parseline (fuel + 1)) _ _ _
    unfold parseline
    refine wp_seq (firstIh (backs.follow (follow_cons (by decide) more)) lexes (by omega)) (fun _ stopped => stopped) ?_
    rintro start s₁ ⟨rfl, lexes₁⟩
    have length := lexes₁.length_le
    rw [wp_bind, wp_get]
    refine wp_seq (complete_backs backs rfl (by omega) lexes₁) (fun _ stopped => stopped) ?_
    rintro left' s₂ ⟨rfl, lexes₂⟩
    rw [wp_bind]
    apply wp_peek lexes₂ (by decide)
    intro s₃ lexes₃
    rw [if_pos ahead, wp_bind]
    apply wp_gettoken lexes₃
    intro _ s₄ lexes₄ _
    refine wp_seq (lineIh after lexes₄ (by omega)) (fun _ stopped => stopped) ?_
    rintro right' s₅ ⟨rfl, lexes₅⟩
    exact wp_pure.mpr ⟨rfl, lexes₅⟩
  | @command ts cmd rest _ ih =>
    intro s fuel after lexes enough
    simp only [fuelFor] at enough ih
    obtain ⟨fuel, rfl⟩ : ∃ n, fuel = n + 1 := ⟨fuel - 1, by omega⟩
    change wp (parsepipe (fuel + 1)) _ _ _
    unfold parsepipe
    refine wp_seq (ih (after.mono (by decide)) lexes (by omega)) (fun _ stopped => stopped) ?_
    rintro cmd' s₁ ⟨same, lexes₁⟩
    rw [wp_bind]
    apply wp_peek lexes₁ (by decide)
    intro s₂ lexes₂
    rw [after.starts (by decide), if_neg (by decide)]
    exact wp_pure.mpr ⟨same, lexes₂⟩
  | @pipe ts left mid right rest derives _ leftIh rightIh =>
    intro s fuel after lexes enough
    have ahead : starts [124] (.bar :: mid) = true := rfl
    have shorter := derives.length_le
    rw [length_cons] at shorter
    simp only [fuelFor] at enough leftIh rightIh
    obtain ⟨fuel, rfl⟩ : ∃ n, fuel = n + 1 := ⟨fuel - 1, by omega⟩
    change wp (parsepipe (fuel + 1)) _ _ _
    unfold parsepipe
    refine wp_seq (leftIh (follow_cons (by decide) mid) lexes (by omega)) (fun _ stopped => stopped) ?_
    rintro left' s₁ ⟨rfl, lexes₁⟩
    rw [wp_bind]
    apply wp_peek lexes₁ (by decide)
    intro s₂ lexes₂
    rw [if_pos ahead, wp_bind]
    apply wp_gettoken lexes₂
    intro _ s₃ lexes₃ _
    refine wp_seq (rightIh after lexes₃ (by omega)) (fun _ stopped => stopped) ?_
    rintro right' s₄ ⟨rfl, lexes₄⟩
    exact wp_pure.mpr ⟨rfl, lexes₄⟩
  | @block ts cmd mid rs rest _ redirs ih =>
    intro s fuel after lexes enough
    have ahead : starts [40] (.lparen :: ts) = true := rfl
    have close : starts [41] (.rparen :: mid) = true := rfl
    rw [length_cons] at enough
    simp only [fuelFor] at enough ih
    obtain ⟨fuel, rfl⟩ : ∃ n, fuel = n + 2 := ⟨fuel - 2, by omega⟩
    change wp (parseexec (fuel + 1 + 1)) _ _ _
    unfold parseexec
    rw [wp_bind]
    apply wp_peek lexes (by decide)
    intro s₁ lexes₁
    rw [if_pos ahead]
    unfold parseblock
    rw [wp_bind]
    apply wp_peek lexes₁ (by decide)
    intro s₂ lexes₂
    rw [if_pos ahead, wp_bind]
    apply wp_gettoken lexes₂
    intro _ s₃ lexes₃ _
    refine wp_seq (ih (follow_cons (by decide) mid) lexes₃ (by omega)) (fun _ stopped => stopped) ?_
    rintro cmd' s₄ ⟨rfl, lexes₄⟩
    rw [wp_bind]
    apply wp_peek lexes₄ (by decide)
    intro s₅ lexes₅
    rw [if_pos close, wp_bind]
    apply wp_gettoken lexes₅
    intro _ s₆ lexes₆ _
    refine wp_seq (complete_redirs redirs (after.starts (by decide)) lexes₆) (fun _ stopped => stopped) ?_
    rintro rs' s₇ ⟨rfl, lexes₇⟩
    exact wp_pure.mpr ⟨Cmd.text_wrap cmd' rs', lexes₇⟩
  | @simple ts first mid argv rs rest few redirs args =>
    intro s fuel after lexes enough
    have ahead : starts [40] ts = false := by
      cases redirs with
      | nil =>
        cases args with
        | nil => exact after.starts (by decide)
        | cons _ _ => rfl
      | @cons t file mode fd more _ _ is _ => cases t <;> cases is <;> rfl
    simp only [fuelFor] at enough
    obtain ⟨fuel, rfl⟩ : ∃ n, fuel = n + 1 := ⟨fuel - 1, by omega⟩
    change wp (parseexec (fuel + 1)) _ _ _
    unfold parseexec
    rw [wp_bind]
    apply wp_peek lexes (by decide)
    intro s₁ lexes₁
    rw [ahead, if_neg (by decide)]
    refine wp_seq (complete_redirs redirs (args.starts after) lexes₁) (fun _ stopped => stopped) ?_
    rintro rs' s₂ ⟨rfl, lexes₂⟩
    have length := lexes₂.length_le
    rw [wp_bind, wp_get]
    exact complete_args args after (by omega) (by rwa [length_nil, Nat.zero_add]) lexes₂

end Complete

section Terminated

/-- The words of a command in the order in which `nulterminate` ends them. -/
def Cmd.words : Cmd Word → List Word
  | .exec argv => argv
  | .redir cmd r => cmd.words ++ [r.file]
  | .pipe left right | .list left right => left.words ++ right.words
  | .back cmd => cmd.words

/-- Each word of the command has a NUL behind it in the line buffer. -/
def Cmd.Terminated (size : Nat) (buf : List UInt8) (cmd : Cmd Word) : Prop :=
  ∀ word ∈ cmd.words, buf[size - word.eq.length]? = some 0

theorem nulterminate_eq (size : Nat) (cmd : Cmd Word) (buf : List UInt8) :
    nulterminate size cmd buf = cmd.words.foldl (fun buf word => terminate size buf word.eq) buf := by
  induction cmd generalizing buf with
  | exec argv => rfl
  | redir cmd r ih =>
    rw [nulterminate, ih, Cmd.words, foldl_append]
    rfl
  | pipe left right ihl ihr | list left right ihl ihr => rw [nulterminate, ihr, ihl, Cmd.words, foldl_append]
  | back cmd ih => exact ih buf

-- What is zero stays zero.
theorem foldl_terminate {size i : Nat} (words : List Word) {buf : List UInt8} (long : size < buf.length)
    (zero : buf[i]? = some 0 ∨ ∃ word ∈ words, i = size - word.eq.length) :
    (words.foldl (fun buf word => terminate size buf word.eq) buf)[i]? = some 0 := by
  induction words generalizing buf with
  | nil => simpa using zero
  | cons word words ih =>
    have kept : size < (buf.set (size - word.eq.length) 0).length := by rwa [length_set]
    apply ih kept
    grind

end Terminated

section Lines

variable {line : List UInt8} {cmd : Cmd Word}

theorem parsecmd_error {e : Stop} (ran : (parseline (4 * line.length + 3)).run line = .error e) : parsecmd line = .error e := by
  unfold parsecmd
  rw [ran]
  rfl

theorem parsecmd_ok (ran : (parseline (4 * line.length + 3)).run line = .ok (cmd, s)) :
    parsecmd line = if s.dropWhile isSpace ≠ [] then .error (.panic "syntax")
      else .ok (cmd, nulterminate line.length cmd (line ++ [0])) := by
  unfold parsecmd
  rw [ran]
  rfl

/-- `parsecmd` returns or panics. It returns a command if and only if the line is one of the
grammar, and then it is the command that the grammar gives the line, with each word ended by a
NUL in the buffer that it leaves. -/
theorem parsecmd_returns_iff (nonzero : ∀ c ∈ line, c ≠ 0) :
    parsecmd line ≠ .error .fuel ∧ (∀ cmd buf, parsecmd line = .ok (cmd, buf) → cmd.Terminated line.length buf) ∧
      ∀ tree : Cmd (List UInt8), (∃ cmd buf, parsecmd line = .ok (cmd, buf) ∧ cmd.text = tree) ↔
        ∃ ts, Lexes line ts ∧ Derives .line ts tree [] := by
  have enough : ∀ ts, Lexes line ts → fuelFor .line ts.length ≤ 4 * line.length + 3 := by
    intro ts lexes
    have := lexes.length_le
    simp only [fuelFor]
    omega
  have accepts : ∀ ts tree, Lexes line ts → Derives .line ts tree [] →
      wp (parseline (4 * line.length + 3)) (fun cmd s => cmd.text = tree ∧ Lexes s []) (fun _ => False) line :=
    fun ts tree lexes derives => complete derives nofun lexes (enough ts lexes)
  obtain ⟨ts, lexes⟩ := exists_lexes line nonzero
  have returns := (sound (4 * line.length + 3)).1 .line line ts lexes (enough ts lexes)
  cases ran : (parseline (4 * line.length + 3)).run line with
  | error e =>
    have known := wp.error returns ran
    rw [parsecmd_error ran]
    refine ⟨fun same => known (Except.error.inj same), nofun, fun tree => iff_of_false nofun ?_⟩
    rintro ⟨ts', lexes', derives⟩
    exact wp.error (accepts ts' tree lexes' derives) ran
  | ok result =>
    obtain ⟨cmd, s⟩ := result
    obtain ⟨rest, derives, last⟩ := wp.ok returns ran
    rw [parsecmd_ok ran]
    by_cases left : s.dropWhile isSpace ≠ []
    · rw [if_pos left]
      refine ⟨nofun, nofun, fun tree => iff_of_false nofun ?_⟩
      rintro ⟨ts', lexes', derives'⟩
      obtain ⟨-, none⟩ := wp.ok (accepts ts' tree lexes' derives') ran
      exact left (none.skip.tight_nil (tight_dropWhile s))
    · rw [if_neg left]
      refine ⟨nofun, ?_, fun tree => ⟨?_, ?_⟩⟩
      · intro cmd' buf same
        cases same
        exact fun word member => by
          rw [nulterminate_eq]
          exact foldl_terminate cmd.words (by simp) (.inr ⟨word, member, rfl⟩)
      · rintro ⟨cmd', buf, same, rfl⟩
        cases same
        have skipped := last.skip
        rw [not_not.mp left] at skipped
        cases skipped
        exact ⟨ts, lexes, derives⟩
      · rintro ⟨ts', lexes', derives'⟩
        exact ⟨cmd, _, rfl, (wp.ok (accepts ts' tree lexes' derives') ran).1⟩

theorem parsecmd_background : ∃ cmd buf, parsecmd [97, 124, 98, 38] = .ok (cmd, buf) ∧
    cmd.text = .back (.pipe (.exec [[97]]) (.exec [[98]])) ∧ cmd.Terminated 4 buf := by
  have nonzero : ∀ c ∈ ([97, 124, 98, 38] : List UInt8), c ≠ 0 := by simp
  obtain ⟨-, ended, same⟩ := parsecmd_returns_iff nonzero
  have ⟨cmd, buf, parsed, text⟩ := (same (.back (.pipe (.exec [[97]]) (.exec [[98]])))).mpr ?_
  · exact ⟨cmd, buf, parsed, text, ended cmd buf parsed⟩
  refine ⟨[.word [97], .bar, .word [98], .amp], ?_, ?_⟩
  · have b := Lexes.word (c := 98) (w := []) (forall_mem_singleton.mpr (by decide)) (fun d here => by cases here; decide) (.symbol (t := .amp) rfl .nil)
    exact .word (c := 97) (w := []) (forall_mem_singleton.mpr (by decide)) (fun d here => by cases here; decide) (.symbol (t := .bar) rfl b)
  · have word : ∀ (w : List UInt8) rest, Derives .cmd (.word w :: rest) (Cmd.wrap (.exec [w]) ([] ++ ([] ++ []))) rest :=
      fun w rest => .simple (by rw [length_singleton]; decide) .nil (.cons .nil .nil)
    exact .line (.pipe (word [97] _) (.command (word [98] _))) (.cons .nil)

end Lines

end Xv6.Sh
