import Mathlib.Data.List.DropRight
import Mathlib.Logic.Function.Iterate
import Xv6.Sh

namespace Xv6.Sh

open Xv6.Action List

-- What gettoken returns until it returns 0. A line has no more tokens than characters.
def tokensIn : Nat → List Byte → List Token
  | 0, _ => []
  | turns + 1, s =>
    match scan s with
    | (none, _) => []
    | (some token, rest) => token :: tokensIn turns rest

def tokens (s : List Byte) : List Token := tokensIn s.length s

-- redir ::= ('<' | '>' | '>>') word
inductive Arrow where
  | input
  | output
  | append

def Arrow.symbol : Arrow → Symbol
  | input => .lt
  | output => .gt
  | append => .append

def Arrow.mode : Arrow → Word
  | input => O_RDONLY
  | output => O_WRONLY ||| O_CREATE
  | append => O_WRONLY ||| O_CREATE

def Arrow.fd : Arrow → Nat
  | input => 0
  | output => 1
  | append => 1

structure Redir where
  arrow : Arrow
  file : Span

def redirTokens (redirs : List Redir) : List Token :=
  redirs.flatMap fun redir => [.symbol redir.arrow.symbol, .word redir.file]

def wrap (redirs : List Redir) (cmd : Cmd) : Cmd :=
  redirs.foldl (fun cmd redir => .redir cmd redir.file redir.arrow.mode redir.arrow.fd) cmd

-- (word redir*)*
def argTokens (args : List (Span × List Redir)) : List Token :=
  args.flatMap fun arg => .word arg.1 :: redirTokens arg.2

inductive Phrase where
  | line
  | pipe
  | exec

-- The sentences of each phrase with the tree that their derivation determines.
--   line ::= pipe '&'* [';' line]
--   pipe ::= exec ['|' pipe]
--   exec ::= '(' line ')' redir* | redir* (word redir*)*
inductive Derives : Phrase → List Token → Cmd → Prop
  | line (n : Nat) {one : List Token} {cmd : Cmd} (h : Derives .pipe one cmd) :
      Derives .line (one ++ List.replicate n (.symbol .amp)) (Cmd.back^[n] cmd)
  | lines (n : Nat) {one two : List Token} {cmd right : Cmd} (h : Derives .pipe one cmd)
      (hright : Derives .line two right) :
      Derives .line (one ++ List.replicate n (.symbol .amp) ++ .symbol .semi :: two) (.list (Cmd.back^[n] cmd) right)
  | pipe {one : List Token} {cmd : Cmd} (h : Derives .exec one cmd) : Derives .pipe one cmd
  | pipes {one two : List Token} {cmd right : Cmd} (h : Derives .exec one cmd) (hright : Derives .pipe two right) :
      Derives .pipe (one ++ .symbol .bar :: two) (.pipe cmd right)
  | block (redirs : List Redir) {one : List Token} {cmd : Cmd} (h : Derives .line one cmd) :
      Derives .exec (.symbol .lparen :: one ++ .symbol .rparen :: redirTokens redirs) (wrap redirs cmd)
  | simple (redirs : List Redir) (args : List (Span × List Redir)) :
      Derives .exec (redirTokens redirs ++ argTokens args)
        (wrap (redirs ++ args.flatMap Prod.snd) (.exec (args.map Prod.fst)))

-- Each simple command has fewer than MAXARGS words.
def Cmd.Short : Cmd → Prop
  | .exec argv => argv.length < MAXARGS
  | .redir cmd _ _ _ => cmd.Short
  | .pipe left right => left.Short ∧ right.Short
  | .list left right => left.Short ∧ right.Short
  | .back cmd => cmd.Short

theorem skip_length_le (s : List Byte) : (skip s).length ≤ s.length := (List.dropWhile_suffix _).length_le

theorem skip_skip (s : List Byte) : skip (skip s) = skip s := List.dropWhile_idempotent _ s

theorem scan_skip (s : List Byte) : scan (skip s) = scan s := by
  unfold scan
  rw [skip_skip]

def Symbol.char : Symbol → Byte
  | bar => chr '|'
  | lparen => chr '('
  | rparen => chr ')'
  | semi => chr ';'
  | amp => chr '&'
  | lt => chr '<'
  | gt => chr '>'
  | append => chr '>'

variable {c : Byte} {rest s : List Byte} {token : Token}

theorem single_char {symbol : Symbol} (h : single c = some symbol) : symbol.char = c := by
  unfold single at h
  split_ifs at h with hc hc hc hc hc hc <;> (obtain rfl := Option.some.inj h; exact hc.symm)

theorem single_none (h : single c = none) (hgt : c ≠ chr '>') : strchr symbols c = false := by
  unfold single at h
  split_ifs at h with h1 h2 h3 h4 h5 h6
  simp only [strchr, any_eq_false, beq_iff_eq, symbols, mem_cons, not_mem_nil, or_false]
  rintro b (rfl | rfl | rfl | rfl | rfl | rfl | rfl) rfl <;> contradiction

-- The three outcomes of gettoken.
theorem scan_cases (s : List Byte) : (skip s = [] ∧ scan s = (none, [])) ∨
    (∃ symbol rest, (skip s).head? = some symbol.char ∧ scan s = (some (.symbol symbol), skip rest) ∧
      rest <:+ skip s ∧ rest.length < (skip s).length) ∨
    ∃ c rest, skip s = c :: rest ∧ strchr symbols c = false ∧
      scan s = (some (.word ⟨skip s, (skip s).dropWhile inWord⟩), skip ((skip s).dropWhile inWord)) := by
  unfold scan
  cases hs : skip s with
  | nil => exact .inl ⟨rfl, rfl⟩
  | cons c rest =>
    dsimp only
    cases hsingle : single c with
    | some symbol =>
      refine .inr (.inl ⟨symbol, rest, ?_, rfl, suffix_cons _ _, by simp⟩)
      rw [single_char hsingle, List.head?_cons]
    | none =>
      dsimp only
      split_ifs with hgt
      · refine .inr (.inl ?_)
        cases rest with
        | nil => exact ⟨.gt, [], by rw [hgt]; rfl, rfl, nil_suffix, by simp⟩
        | cons d more =>
          dsimp only
          split_ifs with happend
          · exact ⟨.append, more, by rw [hgt]; rfl, rfl, ⟨[c, d], rfl⟩, by simp only [length_cons]; omega⟩
          · exact ⟨.gt, d :: more, by rw [hgt]; rfl, rfl, suffix_cons _ _, by simp⟩
      · exact .inr (.inr ⟨c, rest, rfl, single_none hsingle hgt, rfl⟩)

theorem skip_head (s : List Byte) (h : skip s = c :: rest) : strchr whitespace c = false := by
  have hhead := List.head?_dropWhile_not (strchr whitespace) s
  rw [show s.dropWhile (strchr whitespace) = c :: rest from h] at hhead
  simpa using hhead

theorem scan_length_lt (h : scan s = (some token, rest)) : rest.length < s.length := by
  have hskip := skip_length_le s
  rcases scan_cases s with ⟨-, hscan⟩ | ⟨symbol, more, -, hscan, -, hlt⟩ | ⟨c, more, hs, hsymbol, hscan⟩
  · exact absurd (hscan.symm.trans h) (by simp)
  · obtain ⟨-, rfl⟩ := Prod.mk.inj (hscan.symm.trans h)
    have := skip_length_le more
    omega
  · obtain ⟨-, rfl⟩ := Prod.mk.inj (hscan.symm.trans h)
    have hc : inWord c = true := by simp [inWord, hsymbol, skip_head s hs]
    have hword : ((skip s).dropWhile inWord).length ≤ more.length := by
      rw [hs, dropWhile_cons_of_pos hc]
      exact (dropWhile_suffix _).length_le
    have hle := skip_length_le ((skip s).dropWhile inWord)
    rw [hs, length_cons] at hskip
    omega

-- More turns give no more tokens.
theorem tokensIn_eq {one two : Nat} (hone : s.length ≤ one) (htwo : s.length ≤ two) :
    tokensIn one s = tokensIn two s := by
  induction one generalizing two s with
  | zero =>
    obtain rfl := length_eq_zero_iff.mp (Nat.le_zero.mp hone)
    cases two with
    | zero => rfl
    | succ two => rfl
  | succ one ih =>
    cases two with
    | zero =>
      obtain rfl := length_eq_zero_iff.mp (Nat.le_zero.mp htwo)
      rfl
    | succ two =>
      rw [tokensIn, tokensIn]
      cases hscan : scan s with
      | mk token rest =>
        cases token with
        | none => rfl
        | some token =>
          have hlt := scan_length_lt hscan
          exact congrArg (token :: ·) (ih (by omega) (by omega))

theorem tokens_of_scan (h : scan s = (some token, rest)) : tokens s = token :: tokens rest := by
  have hlt := scan_length_lt h
  obtain ⟨n, hn⟩ := Nat.exists_eq_add_one_of_ne_zero (Nat.ne_of_gt (Nat.zero_lt_of_lt hlt))
  unfold tokens
  rw [hn, tokensIn, h]
  exact congrArg (token :: ·) (tokensIn_eq (by omega) le_rfl)

theorem tokens_of_end (h : scan s = (none, rest)) : tokens s = [] := by
  unfold tokens
  cases hn : s.length with
  | zero => rfl
  | succ n => rw [tokensIn, h]

theorem tokens_skip (s : List Byte) : tokens (skip s) = tokens s := by
  have hskip := scan_skip s
  cases hscan : scan s with
  | mk token rest =>
    rw [hscan] at hskip
    cases token with
    | none => rw [tokens_of_end hscan, tokens_of_end hskip]
    | some token => rw [tokens_of_scan hscan, tokens_of_scan hskip]

theorem tokens_eq_nil_iff : tokens s = [] ↔ skip s = [] := by
  constructor
  · intro h
    rcases scan_cases s with ⟨hs, -⟩ | ⟨symbol, rest, -, hscan, -⟩ | ⟨c, rest, -, -, hscan⟩
    · exact hs
    · exact absurd ((tokens_of_scan hscan).symm.trans h) (by simp)
    · exact absurd ((tokens_of_scan hscan).symm.trans h) (by simp)
  · intro h
    rw [← tokens_skip, h]
    rfl

-- Whether the next token begins with one of these characters.
def peeked (toks : List Byte) : List Token → Bool
  | .symbol symbol :: _ => strchr toks symbol.char
  | _ => false

@[simp] theorem peeked_symbol (toks : List Byte) (symbol : Symbol) (ts : List Token) :
    peeked toks (.symbol symbol :: ts) = strchr toks symbol.char := rfl

@[simp] theorem peeked_word (toks : List Byte) (word : Span) (ts : List Token) :
    peeked toks (.word word :: ts) = false := rfl

section Wp

variable {s : List Byte} {stops : ShHalt → Prop}

theorem gettoken_wp {returns : Option Token → List Byte → Prop}
    (h : ∀ rest, tokens rest = (tokens s).tail → returns (tokens s).head? rest) : wp gettoken s returns stops := by
  have hscan : returns (scan s).1 (scan s).2 := by
    rcases scan_cases s with ⟨-, hscan⟩ | ⟨symbol, rest, -, hscan, -⟩ | ⟨c, rest, -, -, hscan⟩
    · rw [tokens_of_end hscan] at h
      rw [hscan]
      exact h [] rfl
    · rw [tokens_of_scan hscan] at h
      rw [hscan]
      exact h (skip rest) rfl
    · rw [tokens_of_scan hscan] at h
      rw [hscan]
      exact h _ rfl
  exact hscan

-- peek looks at one character, which is enough as no word begins with a symbol.
theorem peek_wp {toks : List Byte} (htoks : ∀ c ∈ toks, strchr symbols c = true) {returns : Bool → List Byte → Prop}
    (h : ∀ rest, tokens rest = tokens s → returns (peeked toks (tokens s)) rest) : wp (peek toks) s returns stops := by
  have hpeek : (skip s).head?.any (strchr toks) = peeked toks (tokens s) := by
    rcases scan_cases s with ⟨hs, hscan⟩ | ⟨symbol, rest, hs, hscan, -⟩ | ⟨c, rest, hs, hsymbol, hscan⟩
    · rw [hs, tokens_of_end hscan]
      rfl
    · rw [hs, tokens_of_scan hscan]
      rfl
    · rw [hs, tokens_of_scan hscan]
      have hnot : strchr toks c = false := by
        refine any_eq_false.mpr fun b hb heq => ?_
        obtain rfl := beq_iff_eq.mp heq
        exact absurd (hsymbol.symm.trans (htoks b hb)) (by decide)
      exact hnot
  have hreturns : returns ((skip s).head?.any (strchr toks)) (skip s) := by
    rw [hpeek]
    exact h (skip s) (tokens_skip s)
  exact hreturns

end Wp

end Xv6.Sh
