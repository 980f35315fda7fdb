import Xv6.Sh.Token

/-!
# The shell's parser

`parsecmd` and what it calls, in `sh.c`. The parser fills in the `argv` of an `execcmd` to which
redirections already point; `Cmd.addArg` follows the redirections down to it. The recursion of the
model is bounded, and so are its loops, by the length of what is left of the line.
-/

namespace Xv6.Sh

open Prog

def MAXARGS : Nat := 10

def O_RDONLY : Nat := 0x000
def O_WRONLY : Nat := 0x001
def O_CREATE : Nat := 0x200
def O_TRUNC : Nat := 0x400

/-- `struct cmd` and the structures that start with it. The words are of type `W`: spans of the
line, or strings. -/
inductive Cmd (W : Type)
  | exec (argv : List W)
  | redir (cmd : Cmd W) (file : W) (mode fd : Nat)
  | pipe (left right : Cmd W)
  | list (left right : Cmd W)
  | back (cmd : Cmd W)
  deriving DecidableEq, Repr

namespace Cmd

variable {W V : Type}

def map (f : W → V) : Cmd W → Cmd V
  | exec argv => exec (argv.map f)
  | redir cmd file mode fd => redir (cmd.map f) (f file) mode fd
  | pipe left right => pipe (left.map f) (right.map f)
  | list left right => list (left.map f) (right.map f)
  | back cmd => back (cmd.map f)

/-- The words of a command, in the order of `nulterminate`. -/
def words : Cmd W → List W
  | exec argv => argv
  | redir cmd file _ _ => cmd.words ++ [file]
  | pipe left right => left.words ++ right.words
  | list left right => left.words ++ right.words
  | back cmd => cmd.words

/-- `argv[argc] = w` in the `execcmd` under the redirections. -/
def addArg (w : W) : Cmd W → Cmd W
  | exec argv => exec (argv ++ [w])
  | redir cmd file mode fd => redir (cmd.addArg w) file mode fd
  | cmd => cmd

end Cmd

/-! ## The functions that do not recurse -/

/-- The loop of `parseredirs`. -/
def redirLoop : Nat → Cmd Span → Parser (Cmd Span)
  | 0, _ => stop .fuel
  | n + 1, cmd => do
    let more ← peek ['<', '>']
    if more = true then
      let tok ← gettoken
      let file ← gettoken
      if file.ret ≠ 'a' then stop .missingFile
      else if tok.ret = '<' then redirLoop n (.redir cmd file.toSpan O_RDONLY 0)
      else if tok.ret = '>' then redirLoop n (.redir cmd file.toSpan (O_WRONLY ||| O_CREATE ||| O_TRUNC) 1)
      else if tok.ret = '+' then redirLoop n (.redir cmd file.toSpan (O_WRONLY ||| O_CREATE) 1)
      else redirLoop n cmd
    else return cmd

def parseredirs (cmd : Cmd Span) : Parser (Cmd Span) := do
  let s ← read id
  redirLoop (s.length + 1) cmd

/-- The loop of `parseexec`. -/
def argLoop : Nat → Nat → Cmd Span → Parser (Cmd Span)
  | 0, _, _ => stop .fuel
  | n + 1, argc, ret => do
    let atEnd ← peek ['|', ')', '&', ';']
    if atEnd = true then return ret
    else
      let tok ← gettoken
      if tok.ret = '\x00' then return ret
      else if tok.ret ≠ 'a' then stop .notWord
      else if argc + 1 ≥ MAXARGS then stop .tooManyArgs
      else
        let ret ← parseredirs (ret.addArg tok.toSpan)
        argLoop n (argc + 1) ret

/-- `parseexec` for what does not start with a parenthesis. -/
def parseargs : Parser (Cmd Span) := do
  let ret ← parseredirs (.exec [])
  let s ← read id
  argLoop (s.length + 1) 0 ret

/-- The loop of `parseline`. -/
def backLoop : Nat → Cmd Span → Parser (Cmd Span)
  | 0, _ => stop .fuel
  | n + 1, cmd => do
    let amp ← peek ['&']
    if amp = true then
      let _ ← gettoken
      backLoop n (.back cmd)
    else return cmd

/-! ## The functions that recurse -/

mutual

def parseline : Nat → Parser (Cmd Span)
  | 0 => stop .fuel
  | n + 1 => do
    let cmd ← parsepipe n
    let s ← read id
    let cmd ← backLoop (s.length + 1) cmd
    let semi ← peek [';']
    if semi = true then
      let _ ← gettoken
      let right ← parseline n
      return .list cmd right
    else return cmd

def parsepipe : Nat → Parser (Cmd Span)
  | 0 => stop .fuel
  | n + 1 => do
    let cmd ← parseexec n
    let bar ← peek ['|']
    if bar = true then
      let _ ← gettoken
      let right ← parsepipe n
      return .pipe cmd right
    else return cmd

def parseexec : Nat → Parser (Cmd Span)
  | 0 => stop .fuel
  | n + 1 => do
    let paren ← peek ['(']
    if paren = true then parseblock n else parseargs

def parseblock : Nat → Parser (Cmd Span)
  | 0 => stop .fuel
  | n + 1 => do
    let paren ← peek ['(']
    if paren = true then
      let _ ← gettoken
      let cmd ← parseline n
      let close ← peek [')']
      if close = true then
        let _ ← gettoken
        parseredirs cmd
      else stop .missingParen
    else stop .parseblock

end

/-! ## The whole line -/

/-- `*p = 0` -/
def terminate (buf : List Char) (p : List Char) : List Char := buf.set (buf.length - p.length) '\x00'

/-- NUL-terminate all the counted strings. -/
def nulterminate : Cmd Span → List Char → List Char
  | .exec argv, buf => argv.foldl (fun buf sp => terminate buf sp.eq) buf
  | .redir cmd file _ _, buf => terminate (nulterminate cmd buf) file.eq
  | .pipe left right, buf => nulterminate right (nulterminate left buf)
  | .list left right, buf => nulterminate right (nulterminate left buf)
  | .back cmd, buf => nulterminate cmd buf

/-- The command, and what is in the line's buffer when it is returned. -/
def parsecmd : Parser (Cmd Span × List Char) := do
  let line ← read id
  let cmd ← parseline (4 * line.length + 4)
  let _ ← peek []
  let s ← read id
  if s ≠ [] then stop (.leftovers s)
  else return (cmd, nulterminate cmd line)

/-- The string to which a word of a command points. -/
def cstr (buf : List Char) (sp : Span) : List Char := (buf.drop (buf.length - sp.q.length)).takeWhile (· != '\x00')

/-- The command as its users see it. -/
def parse (line : List Char) : Except Stop (Cmd (List Char)) :=
  match parsecmd line with
  | .ok (cmd, buf) _ => .ok (cmd.map (cstr buf))
  | .stop e _ => .error e

end Xv6.Sh
