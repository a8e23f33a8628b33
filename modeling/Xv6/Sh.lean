import Mathlib.Logic.Function.Basic

/-! The parser of the shell (`sh.c`). A pointer into the line is what is left of the line from there on. Each function runs for a
    number of rounds, and fails if that is not enough. -/

namespace Xv6
namespace Sh

abbrev MAXARGS : Nat := 10

abbrev O_RDONLY : Nat := 0x000

abbrev O_WRONLY : Nat := 0x001

abbrev O_CREATE : Nat := 0x200

/-- A pointer into the line. At its end, `[]`, there is a NUL. -/
abbrev Ptr := List UInt8

def deref (s : Ptr) : UInt8 := s.headD 0

def chars (s : String) : List UInt8 := s.toList.map Char.toUInt8

/-- `" \t\r\n\v"` -/
def whitespace : List UInt8 := [32, 9, 13, 10, 11]

def symbols : List UInt8 := chars "<|>&;()"

def strchr (s : List UInt8) (c : UInt8) : Bool := s.contains c

def skip (s : Ptr) : Ptr := s.dropWhile (strchr whitespace)

inductive Stop where
  | panic (msg : String)
  /-- A slot behind `argv` is written. -/
  | outOfBounds
  /-- There are not enough rounds. -/
  | rounds
  deriving DecidableEq

abbrev Res := Except Stop

/-- The words are given by where they start and where they end. -/
inductive Cmd where
  | exec (argv : List (Ptr × Ptr))
  | redir (cmd : Cmd) (file efile : Ptr) (mode fd : Nat)
  | pipe (left right : Cmd)
  | list (left right : Cmd)
  | back (cmd : Cmd)

/-- `gettoken`: what it returns, `*q`, `*eq` and `*ps`. -/
structure Got where
  ret : UInt8
  q : Ptr
  eq : Ptr
  s : Ptr

def gettoken (s : Ptr) : Got :=
  let q := skip s
  let (ret, s) : UInt8 × Ptr :=
    match q with
    | [] => (0, [])
    | c :: rest =>
      if c = 0 then (0, c :: rest)
      else if strchr (chars "|();&<") c then (c, rest)
      else if c = '>'.toUInt8 then if deref rest = '>'.toUInt8 then ('+'.toUInt8, rest.tail) else (c, rest)
      else ('a'.toUInt8, (c :: rest).dropWhile fun c => !strchr whitespace c && !strchr symbols c)
  ⟨ret, q, s, skip s⟩

/-- `peek`: what it returns, and `*ps`. -/
def peek (s : Ptr) (toks : String) : Bool × Ptr :=
  let s := skip s
  (deref s ≠ 0 && strchr (chars toks) (deref s), s)

def redircmd (tok : UInt8) (cmd : Cmd) (q eq : Ptr) : Cmd :=
  if tok = '<'.toUInt8 then .redir cmd q eq O_RDONLY 0
  else if tok = '>'.toUInt8 then .redir cmd q eq (O_WRONLY ||| O_CREATE) 1
  else if tok = '+'.toUInt8 then .redir cmd q eq (O_WRONLY ||| O_CREATE) 1
  else cmd

def parseredirs : Nat → Cmd → Ptr → Res (Cmd × Ptr)
  | 0, _, _ => .error .rounds
  | k + 1, cmd, s =>
    let (more, s) := peek s "<>"
    if more then
      let t := gettoken s
      let u := gettoken t.s
      if u.ret ≠ 'a'.toUInt8 then .error (.panic "missing file for redirection")
      else parseredirs k (redircmd t.ret cmd u.q u.eq) u.s
    else .ok (cmd, s)

/-- `cmd->argv[argc] = q`, with the slots before it filled. -/
def setArg (argv : List (Ptr × Ptr)) (q eq : Ptr) : Res (List (Ptr × Ptr)) :=
  if argv.length < MAXARGS then .ok (argv ++ [(q, eq)]) else .error .outOfBounds

/-- `cmd` is the EXEC command in `ret`: its words are known at the end. -/
def Cmd.setArgv (argv : List (Ptr × Ptr)) : Cmd → Cmd
  | .exec _ => .exec argv
  | .redir cmd file efile mode fd => .redir (cmd.setArgv argv) file efile mode fd
  | cmd => cmd

/-- `cmd->argv[argc] = 0`, and `parseexec` returns. -/
def endArgs (ret : Cmd) (argv : List (Ptr × Ptr)) (s : Ptr) : Res (Cmd × Ptr) :=
  if argv.length < MAXARGS then .ok (ret.setArgv argv, s) else .error .outOfBounds

/-- The loop of `parseexec`. -/
def parseargs : Nat → Cmd → List (Ptr × Ptr) → Ptr → Res (Cmd × Ptr)
  | 0, _, _, _ => .error .rounds
  | k + 1, ret, argv, s =>
    let (stop, s) := peek s "|)&;"
    if stop then endArgs ret argv s
    else
      let t := gettoken s
      if t.ret = 0 then endArgs ret argv t.s
      else if t.ret ≠ 'a'.toUInt8 then .error (.panic "syntax")
      else do
        let argv ← setArg argv t.q t.eq
        if argv.length ≥ MAXARGS then .error (.panic "too many args")
        else do
          let (ret, s) ← parseredirs k ret t.s
          parseargs k ret argv s

/-- The loop of `parseline`. -/
def parseback : Nat → Cmd → Ptr → Res (Cmd × Ptr)
  | 0, _, _ => .error .rounds
  | k + 1, cmd, s =>
    let (more, s) := peek s "&"
    if more then parseback k (.back cmd) (gettoken s).s else .ok (cmd, s)

mutual

def parseline : Nat → Ptr → Res (Cmd × Ptr)
  | 0, _ => .error .rounds
  | k + 1, s => do
    let (cmd, s) ← parsepipe k s
    let (cmd, s) ← parseback k cmd s
    let (more, s) := peek s ";"
    if more then do
      let (right, s) ← parseline k (gettoken s).s
      .ok (.list cmd right, s)
    else .ok (cmd, s)

def parsepipe : Nat → Ptr → Res (Cmd × Ptr)
  | 0, _ => .error .rounds
  | k + 1, s => do
    let (cmd, s) ← parseexec k s
    let (more, s) := peek s "|"
    if more then do
      let (right, s) ← parsepipe k (gettoken s).s
      .ok (.pipe cmd right, s)
    else .ok (cmd, s)

def parseexec : Nat → Ptr → Res (Cmd × Ptr)
  | 0, _ => .error .rounds
  | k + 1, s =>
    let (block, s) := peek s "("
    if block then parseblock k s
    else do
      let (ret, s) ← parseredirs k (.exec []) s
      parseargs k ret [] s

def parseblock : Nat → Ptr → Res (Cmd × Ptr)
  | 0, _ => .error .rounds
  | k + 1, s =>
    let (start, s) := peek s "("
    if start then do
      let (cmd, s) ← parseline k (gettoken s).s
      let (stop, s) := peek s ")"
      if stop then parseredirs k cmd (gettoken s).s else .error (.panic "syntax - missing )")
    else .error (.panic "parseblock")

end

/-- The line in memory, with `es` its end. -/
abbrev Buf := Nat → UInt8

def Buf.clear (es : Nat) (buf : Buf) (p : Ptr) : Buf := Function.update buf (es - p.length) 0

def nulterminate (es : Nat) : Cmd → Buf → Buf
  | .exec argv, buf => argv.foldl (fun buf x => buf.clear es x.2) buf
  | .redir cmd _ efile _ _, buf => (nulterminate es cmd buf).clear es efile
  | .pipe left right, buf => nulterminate es right (nulterminate es left buf)
  | .list left right, buf => nulterminate es right (nulterminate es left buf)
  | .back cmd, buf => nulterminate es cmd buf

def parsecmd (k : Nat) (line : List UInt8) : Res (Cmd × Buf) := do
  let (cmd, s) ← parseline k line
  let (_, s) := peek s ""
  if s ≠ [] then .error (.panic "syntax")
  else .ok (cmd, nulterminate line.length cmd fun i => line.getD i 0)

def Buf.string (es : Nat) (buf : Buf) (p : Ptr) : List UInt8 :=
  ((List.range p.length).map fun i => buf (es - p.length + i)).takeWhile (· ≠ 0)

end Sh
end Xv6
