import Xv6.Sysfile

namespace Xv6.Sh

def chr (c : Char) : Byte := BitVec.ofNat 8 c.toNat

def strchr (s : List Byte) (c : Byte) : Bool := s.any fun b => b == c

def whitespace : List Byte := [chr ' ', chr '\t', chr '\r', chr '\n', 11]

def symbols : List Byte := [chr '<', chr '|', chr '>', chr '&', chr ';', chr '(', chr ')']

abbrev MAXARGS : Nat := 10

-- A pointer into the line is the rest of the line from there on, which is empty at its end `es`. The
-- characters from `q` up to `eq` are a word.
structure Span where
  q : List Byte
  eq : List Byte
  deriving DecidableEq

inductive Symbol where
  | bar
  | lparen
  | rparen
  | semi
  | amp
  | lt
  | gt
  | append
  deriving DecidableEq

inductive Token where
  | symbol (symbol : Symbol)
  | word (word : Span)
  deriving DecidableEq

inductive Cmd where
  | exec (argv : List Span)
  | redir (cmd : Cmd) (file : Span) (mode : Word) (fd : Nat)
  | pipe (left right : Cmd)
  | list (left right : Cmd)
  | back (cmd : Cmd)
  deriving DecidableEq

-- Why the parser stops: the messages of panic, where `leftovers` comes before the one of parsecmd. A
-- recursion or loop that takes more turns than allowed stops, too.
inductive ShHalt where
  | turns
  | leftovers
  | missingFile
  | parseblock
  | missingParen
  | syntaxError
  | tooManyArgs
  deriving DecidableEq

abbrev Parse := Action (List Byte) ShHalt

def skip (s : List Byte) : List Byte := s.dropWhile (strchr whitespace)

def inWord (c : Byte) : Bool := !strchr whitespace c && !strchr symbols c

-- The symbols of one character, except for the one that may be the first of two.
def single (c : Byte) : Option Symbol :=
  if c = chr '|' then some .bar
  else if c = chr '(' then some .lparen
  else if c = chr ')' then some .rparen
  else if c = chr ';' then some .semi
  else if c = chr '&' then some .amp
  else if c = chr '<' then some .lt
  else none

-- The next token and what follows behind it. There is none at the end of the line.
def scan (s : List Byte) : Option Token × List Byte :=
  match skip s with
  | [] => (none, [])
  | c :: rest =>
    match single c with
    | some symbol => (some (.symbol symbol), skip rest)
    | none =>
      if c = chr '>' then
        match rest with
        | [] => (some (.symbol .gt), [])
        | d :: more =>
          if d = chr '>' then (some (.symbol .append), skip more) else (some (.symbol .gt), skip (d :: more))
      else
        let eq := (c :: rest).dropWhile inWord
        (some (.word ⟨c :: rest, eq⟩), skip eq)

def gettoken : Parse (Option Token) := do
  let s ← get
  set (scan s).2
  return (scan s).1

def peek (toks : List Byte) : Parse Bool := do
  let s ← get
  set (skip s)
  return (skip s).head?.any (strchr toks)

-- The loop of parseline.
def parsebacks : Nat → Cmd → Parse Cmd
  | 0, _ => throw .turns
  | turns + 1, cmd => do
      if ← peek [chr '&'] then
        let _ ← gettoken
        parsebacks turns (.back cmd)
      else return cmd

def redirect (tok : Option Token) (cmd : Cmd) (file : Span) : Cmd :=
  match tok with
  | some (.symbol .lt) => .redir cmd file O_RDONLY 0
  | some (.symbol .gt) => .redir cmd file (O_WRONLY ||| O_CREATE) 1
  | some (.symbol .append) => .redir cmd file (O_WRONLY ||| O_CREATE) 1
  | _ => cmd

def parseredirs : Nat → Cmd → Parse Cmd
  | 0, _ => throw .turns
  | turns + 1, cmd => do
      if ← peek [chr '<', chr '>'] then
        let tok ← gettoken
        match ← gettoken with
        | some (.word file) => parseredirs turns (redirect tok cmd file)
        | _ => throw .missingFile
      else return cmd

-- An argument is stored in the execcmd below the redirections.
def Cmd.push (word : Span) : Cmd → Cmd
  | .exec argv => .exec (argv ++ [word])
  | .redir cmd file mode fd => .redir (cmd.push word) file mode fd
  | cmd => cmd

-- The loop of parseexec.
def parseargs : Nat → Nat → Cmd → Parse Cmd
  | 0, _, _ => throw .turns
  | turns + 1, argc, ret => do
      if ← peek [chr '|', chr ')', chr '&', chr ';'] then return ret
      else
        match ← gettoken with
        | none => return ret
        | some (.symbol _) => throw .syntaxError
        | some (.word word) =>
          if argc + 1 ≥ MAXARGS then throw .tooManyArgs
          else
            let ret ← parseredirs turns (ret.push word)
            parseargs turns (argc + 1) ret

mutual

def parseline : Nat → Parse Cmd
  | 0 => throw .turns
  | turns + 1 => do
      let cmd ← parsepipe turns
      let cmd ← parsebacks turns cmd
      if ← peek [chr ';'] then
        let _ ← gettoken
        let right ← parseline turns
        return .list cmd right
      else return cmd

def parsepipe : Nat → Parse Cmd
  | 0 => throw .turns
  | turns + 1 => do
      let cmd ← parseexec turns
      if ← peek [chr '|'] then
        let _ ← gettoken
        let right ← parsepipe turns
        return .pipe cmd right
      else return cmd

def parseblock : Nat → Parse Cmd
  | 0 => throw .turns
  | turns + 1 => do
      if ← peek [chr '('] then
        let _ ← gettoken
        let cmd ← parseline turns
        if ← peek [chr ')'] then
          let _ ← gettoken
          parseredirs turns cmd
        else throw .missingParen
      else throw .parseblock

def parseexec : Nat → Parse Cmd
  | 0 => throw .turns
  | turns + 1 => do
      if ← peek [chr '('] then parseblock turns
      else
        let ret ← parseredirs turns (.exec [])
        parseargs turns 0 ret

end

-- Where a pointer into a line of this length points.
def address (length : Nat) (s : List Byte) : Nat := length - s.length

-- The ends of the words are overwritten in the buffer.
def nulterminate (length : Nat) : Cmd → List Byte → List Byte
  | .exec argv, buf => argv.foldl (fun buf word => buf.set (address length word.eq) 0) buf
  | .redir cmd file _ _, buf => (nulterminate length cmd buf).set (address length file.eq) 0
  | .pipe left right, buf => nulterminate length right (nulterminate length left buf)
  | .list left right, buf => nulterminate length right (nulterminate length left buf)
  | .back cmd, buf => nulterminate length cmd buf

-- parsecmd before it calls nulterminate.
def parsewhole (turns : Nat) : Parse Cmd := do
  let cmd ← parseline turns
  let _ ← peek []
  if (← get) ≠ [] then throw .leftovers
  else return cmd

-- The line is given without its terminator. The command comes with the buffer after it.
def parsecmd (turns : Nat) (line : List Byte) : Except ShHalt (Cmd × List Byte) :=
  ((parsewhole turns).run line).map fun pair => (pair.1, nulterminate line.length pair.1 (line ++ [0]))

end Xv6.Sh
