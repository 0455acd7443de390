import Xv6.Lib.Hoare
import Xv6.Param

/-! The parser of `sh.c`. A pointer into the line is the rest of the line from there to the end,
and `*ps` is the state of the parser. -/

namespace Xv6.Sh
open Lib

def MAXARGS : Nat := 10

def whitespace : List UInt8 := [32, 9, 13, 10, 11]

def symbols : List UInt8 := [60, 124, 62, 38, 59, 40, 41]

def isSpace (c : UInt8) : Bool := whitespace.contains c

def isSymbol (c : UInt8) : Bool := symbols.contains c

/-- From `q` up to `eq`. -/
structure Word where
  q : List UInt8
  eq : List UInt8
  deriving DecidableEq, Repr

structure Redir (α : Type) where
  file : α
  mode : Nat
  fd : Nat
  deriving DecidableEq, Repr

/-- `struct cmd` and what is cast to it, over the strings that it has. -/
inductive Cmd (α : Type) where
  | exec (argv : List α)
  | redir (cmd : Cmd α) (r : Redir α)
  | pipe (left right : Cmd α)
  | list (left right : Cmd α)
  | back (cmd : Cmd α)
  deriving DecidableEq, Repr

def Cmd.wrap {α : Type} (cmd : Cmd α) (rs : List (Redir α)) : Cmd α := rs.foldl Cmd.redir cmd

/-- What `gettoken` returns: 0, a symbol, `'+'` for `>>`, or `'a'`. -/
inductive Kind where
  | eof
  | bar
  | lparen
  | rparen
  | semi
  | amp
  | lt
  | gt
  | append
  | word
  deriving DecidableEq, Repr

inductive Stop where
  | panic (message : String)
  -- a loop or a recursion has not ended
  | fuel
  deriving DecidableEq, Repr

abbrev ParseM := StateT (List UInt8) (Except Stop)

def panic {α : Type} (message : String) : ParseM α := throw (.panic message)

/-- The kind of the token at `s`, and where it ends. -/
def scan : List UInt8 → Kind × List UInt8
  | [] => (.eof, [])
  | c :: s =>
    if c = 0 then (.eof, c :: s)
    else if c = 124 then (.bar, s)
    else if c = 40 then (.lparen, s)
    else if c = 41 then (.rparen, s)
    else if c = 59 then (.semi, s)
    else if c = 38 then (.amp, s)
    else if c = 60 then (.lt, s)
    else if c = 62 then
      match s with
      | 62 :: s => (.append, s)
      | s => (.gt, s)
    else (.word, (c :: s).dropWhile fun c => !isSpace c && !isSymbol c)

def gettoken : ParseM (Kind × Word) := do
  let q := (← get).dropWhile isSpace
  let (ret, eq) := scan q
  set (eq.dropWhile isSpace)
  return (ret, ⟨q, eq⟩)

def peekAt (toks : List UInt8) : List UInt8 → Bool
  | [] => false
  | c :: _ => c ≠ 0 && toks.contains c

def peek (toks : List UInt8) : ParseM Bool := do
  let s := (← get).dropWhile isSpace
  set s
  return peekAt toks s

def addRedir (rs : List (Redir Word)) (tok : Kind) (file : Word) : List (Redir Word) :=
  match tok with
  | .lt => rs ++ [⟨file, O_RDONLY, 0⟩]
  | .gt => rs ++ [⟨file, O_WRONLY ||| O_CREATE, 1⟩]
  | .append => rs ++ [⟨file, O_WRONLY ||| O_CREATE, 1⟩]
  | _ => rs

/-- The loop of `parseredirs`, with `rs` read. -/
def parseredirsFrom : Nat → List (Redir Word) → ParseM (List (Redir Word))
  | 0, _ => throw .fuel
  | fuel + 1, rs => do
    if ← peek [60, 62] then do
      let (tok, _) ← gettoken
      let (kind, file) ← gettoken
      if kind ≠ .word then
        panic "missing file for redirection"
      else
        parseredirsFrom fuel (addRedir rs tok file)
    else
      return rs

def parseredirs : ParseM (List (Redir Word)) := do parseredirsFrom ((← get).length + 1) []

/-- The loop of `parseexec`, which collects arguments and redirections. -/
def parseargs : Nat → List Word → List (Redir Word) → ParseM (Cmd Word)
  | 0, _, _ => throw .fuel
  | fuel + 1, argv, rs => do
    if ← peek [124, 41, 38, 59] then
      return Cmd.wrap (.exec argv) rs
    else do
      let (tok, word) ← gettoken
      if tok = .eof then
        return Cmd.wrap (.exec argv) rs
      else if tok ≠ .word then
        panic "syntax"
      else if argv.length + 1 ≥ MAXARGS then
        panic "too many args"
      else do
        let more ← parseredirs
        parseargs fuel (argv ++ [word]) (rs ++ more)

def parsebacks : Nat → Cmd Word → ParseM (Cmd Word)
  | 0, _ => throw .fuel
  | fuel + 1, cmd => do
    if ← peek [38] then do
      let _ ← gettoken
      parsebacks fuel (.back cmd)
    else
      return cmd

mutual

def parseline : Nat → ParseM (Cmd Word)
  | 0 => throw .fuel
  | fuel + 1 => do
    let cmd ← parsepipe fuel
    let cmd ← parsebacks ((← get).length + 1) cmd
    if ← peek [59] then do
      let _ ← gettoken
      let right ← parseline fuel
      return .list cmd right
    else
      return cmd

def parsepipe : Nat → ParseM (Cmd Word)
  | 0 => throw .fuel
  | fuel + 1 => do
    let cmd ← parseexec fuel
    if ← peek [124] then do
      let _ ← gettoken
      let right ← parsepipe fuel
      return .pipe cmd right
    else
      return cmd

def parseblock : Nat → ParseM (Cmd Word)
  | 0 => throw .fuel
  | fuel + 1 => do
    if ← peek [40] then do
      let _ ← gettoken
      let cmd ← parseline fuel
      if ← peek [41] then do
        let _ ← gettoken
        let rs ← parseredirs
        return cmd.wrap rs
      else
        panic "syntax - missing )"
    else
      panic "parseblock"

def parseexec : Nat → ParseM (Cmd Word)
  | 0 => throw .fuel
  | fuel + 1 => do
    if ← peek [40] then
      parseblock fuel
    else do
      let rs ← parseredirs
      parseargs ((← get).length + 1) [] rs

end

/-- `*p = 0` in a line buffer of `size` bytes before its end. -/
def terminate (size : Nat) (buf : List UInt8) (p : List UInt8) : List UInt8 := buf.set (size - p.length) 0

def nulterminate (size : Nat) : Cmd Word → List UInt8 → List UInt8
  | .exec argv, buf => argv.foldl (fun buf word => terminate size buf word.eq) buf
  | .redir cmd r, buf => terminate size (nulterminate size cmd buf) r.file.eq
  | .pipe left right, buf => nulterminate size right (nulterminate size left buf)
  | .list left right, buf => nulterminate size right (nulterminate size left buf)
  | .back cmd, buf => nulterminate size cmd buf

/-- `parsecmd` of a line without NULs: the command, and the buffer that its words are in. -/
def parsecmd (line : List UInt8) : Except Stop (Cmd Word × List UInt8) := do
  let (cmd, s) ← (parseline (4 * line.length + 3)).run line
  let (_, s) ← (peek []).run s
  if s ≠ [] then
    throw (.panic "syntax")
  else
    return (cmd, nulterminate line.length cmd (line ++ [0]))

end Xv6.Sh
