import Xv6.Sh.Grammar

namespace Xv6.Sh

open Xv6.Action List

variable {s : List Byte} {ts used : List Token} {cmd : Cmd} {phrase : Phrase}

theorem char_inj {one two : Symbol} (h : one.char = two.char) (hgt : two.char ≠ chr '>') : one = two := by
  cases one <;> cases two <;> first | rfl | exact absurd h (by decide) | exact absurd rfl hgt

variable {toks : List Byte} {symbol : Symbol} {next : Cmd → Parse Cmd} {last : List Token}

theorem peeked_cons (h : peeked toks ts = true) :
    ∃ symbol rest, ts = .symbol symbol :: rest ∧ strchr toks symbol.char = true := by
  cases ts with
  | nil => exact absurd h Bool.false_ne_true
  | cons token rest =>
    cases token with
    | symbol symbol => exact ⟨symbol, rest, rfl, h⟩
    | word word => exact absurd h Bool.false_ne_true

theorem peeked_one (symbol : Symbol) (hgt : symbol.char ≠ chr '>') (h : peeked [symbol.char] ts = true) :
    ∃ rest, ts = .symbol symbol :: rest := by
  obtain ⟨other, rest, rfl, hother⟩ := peeked_cons h
  simp only [strchr, any_cons, any_nil, Bool.or_false, beq_iff_eq] at hother
  exact ⟨rest, by rw [char_inj hother.symm hgt]⟩

theorem peeked_arrow (h : peeked [chr '<', chr '>'] ts = true) :
    ∃ arrow rest, ts = .symbol (Arrow.symbol arrow) :: rest := by
  obtain ⟨symbol, rest, rfl, hsymbol⟩ := peeked_cons h
  cases symbol with
  | lt => exact ⟨.input, rest, rfl⟩
  | gt => exact ⟨.output, rest, rfl⟩
  | append => exact ⟨.append, rest, rfl⟩
  | bar | lparen | rparen | semi | amp => exact absurd hsymbol (by decide)

section Peek

variable {α : Type} {toks : List Byte} (htoks : ∀ c ∈ toks, strchr symbols c = true)
  {returns : α → List Byte → Prop} {stops : ShHalt → Prop} {other : Parse α}

include htoks

-- The parser takes the symbol that it has looked for.
theorem take_wp {next : Option Token → Parse α} (hs : tokens s = .symbol symbol :: ts)
    (hsymbol : strchr toks symbol.char = true)
    (h : ∀ rest, tokens rest = ts → wp (next (some (.symbol symbol))) rest returns stops) :
    wp (do if ← peek toks then next (← gettoken) else other) s returns stops := by
  rw [wp_bind]
  refine peek_wp htoks fun here hhere => ?_
  rw [hs] at hhere ⊢
  rw [peeked_symbol, if_pos hsymbol, wp_bind]
  refine gettoken_wp fun rest hrest => ?_
  rw [hhere] at hrest ⊢
  exact h rest hrest

theorem pass_wp {taken : Parse α} (hpeek : ¬peeked toks (tokens s) = true)
    (h : ∀ rest, tokens rest = tokens s → wp other rest returns stops) :
    wp (do if ← peek toks then taken else other) s returns stops := by
  rw [wp_bind]
  refine peek_wp htoks fun rest hrest => ?_
  rw [if_neg hpeek]
  exact h rest hrest

omit htoks in
-- The parser looks for this symbol, and takes it if it is there.
theorem accept_wp (symbol : Symbol) (hgt : symbol.char ≠ chr '>')
    (hsymbol : ∀ c ∈ [symbol.char], strchr symbols c = true) {next : Option Token → Parse α}
    (htake : ∀ ts rest, tokens s = .symbol symbol :: ts → tokens rest = ts →
      wp (next (some (.symbol symbol))) rest returns stops)
    (hpass : ∀ rest, tokens rest = tokens s → wp other rest returns stops) :
    wp (do if ← peek [symbol.char] then next (← gettoken) else other) s returns stops := by
  by_cases hpeek : peeked [symbol.char] (tokens s) = true
  · obtain ⟨ts, hts⟩ := peeked_one symbol hgt hpeek
    exact take_wp hsymbol hts (by simp [strchr]) fun rest => htake ts rest hts
  · exact pass_wp hsymbol hpeek hpass

end Peek

theorem wrap_append (one two : List Redir) (cmd : Cmd) : wrap (one ++ two) cmd = wrap two (wrap one cmd) :=
  List.foldl_append ..

theorem wrap_cons (redir : Redir) (redirs : List Redir) (cmd : Cmd) :
    wrap (redir :: redirs) cmd = wrap redirs (.redir cmd redir.file redir.arrow.mode redir.arrow.fd) := rfl

theorem redirect_arrow (arrow : Arrow) (cmd : Cmd) (file : Span) :
    redirect (some (.symbol arrow.symbol)) cmd file = .redir cmd file arrow.mode arrow.fd := by
  cases arrow with
  | input => rfl
  | output => rfl
  | append => rfl

theorem push_wrap (word : Span) (redirs : List Redir) : (wrap redirs cmd).push word = wrap redirs (cmd.push word) := by
  induction redirs generalizing cmd with
  | nil => rfl
  | cons redir redirs ih => exact ih

theorem wrap_short (redirs : List Redir) : (wrap redirs cmd).Short ↔ cmd.Short := by
  induction redirs generalizing cmd with
  | nil => rfl
  | cons redir redirs ih => exact ih

theorem back_short (n : Nat) : (Cmd.back^[n] cmd).Short ↔ cmd.Short := by
  induction n generalizing cmd with
  | zero => rfl
  | succ n ih => exact ih

-- A loop that takes more turns than it has has not had this many.
def Within (bound turns : Nat) (halt : ShHalt) : Prop := halt = .turns → turns ≤ bound

theorem parsebacks_wp (turns : Nat) :
    wp (parsebacks turns cmd) s
      (fun result rest => ∃ n, tokens s = List.replicate n (.symbol .amp) ++ tokens rest ∧ result = Cmd.back^[n] cmd)
      (Within (tokens s).length turns) := by
  induction turns generalizing s cmd with
  | zero => exact fun _ => Nat.zero_le _
  | succ turns ih =>
    rw [parsebacks]
    refine accept_wp .amp (by decide) (by decide) (fun ts next hts hnext => ?_) fun here hhere => ?_
    · rw [hts]
      refine ih.mono (fun result rest => ?_) fun halt hhalt hturns => ?_
      · rintro ⟨n, hused, rfl⟩
        refine ⟨n + 1, ?_, rfl⟩
        rw [replicate_succ, cons_append, ← hused, hnext]
      · have := hhalt hturns
        rw [hnext] at this
        rw [length_cons]
        omega
    · exact ⟨0, hhere.symm, rfl⟩

theorem parseredirs_wp (turns : Nat) :
    wp (parseredirs turns cmd) s
      (fun result rest => ∃ redirs, tokens s = redirTokens redirs ++ tokens rest ∧ result = wrap redirs cmd)
      (Within (tokens s).length turns) := by
  induction turns generalizing s cmd with
  | zero => exact fun _ => Nat.zero_le _
  | succ turns ih =>
    rw [parseredirs]
    by_cases hpeek : peeked [chr '<', chr '>'] (tokens s) = true
    · obtain ⟨arrow, ts, hts⟩ := peeked_arrow hpeek
      refine take_wp (by decide) hts (by cases arrow <;> decide) fun next hnext => ?_
      rw [hts, wp_bind]
      refine gettoken_wp fun last hlast => ?_
      rw [hnext] at hlast ⊢
      cases ts with
      | nil => exact fun hturns => absurd hturns (by decide)
      | cons token ts =>
        cases token with
        | symbol symbol => exact fun hturns => absurd hturns (by decide)
        | word file =>
          rw [tail_cons] at hlast
          refine ih.mono (fun result rest => ?_) fun halt hhalt hturns => ?_
          · rintro ⟨redirs, hused, rfl⟩
            refine ⟨⟨arrow, file⟩ :: redirs, ?_, ?_⟩
            · rw [redirTokens, flatMap_cons, ← redirTokens, append_assoc, ← hused, hlast]
              rfl
            · rw [redirect_arrow, wrap_cons]
          · have := hhalt hturns
            rw [hlast] at this
            simp only [length_cons]
            omega
    · exact pass_wp (by decide) hpeek fun here hhere => ⟨[], hhere.symm, rfl⟩

-- The rest of a simple command, of which these redirections and words have been read.
def ReadsArgs (redirs : List Redir) (argv : List Span) (ts : List Token) (result : Cmd) (rest : List Byte) : Prop :=
  ∃ args, ts = argTokens args ++ tokens rest ∧
    result = wrap (redirs ++ args.flatMap Prod.snd) (.exec (argv ++ args.map Prod.fst)) ∧
      (argv ++ args.map Prod.fst).length < MAXARGS

section Args

variable {redirs more : List Redir} {argv : List Span}

theorem ReadsArgs.stop (hargv : argv.length < MAXARGS) (h : tokens s = ts) :
    ReadsArgs redirs argv ts (wrap redirs (.exec argv)) s :=
  ⟨[], h.symm, by simp, by simpa using hargv⟩

theorem ReadsArgs.cons {word : Span} {rest : List Byte} (h : ReadsArgs (redirs ++ more) (argv ++ [word]) ts cmd rest) :
    ReadsArgs redirs argv (.word word :: redirTokens more ++ ts) cmd rest := by
  obtain ⟨args, rfl, rfl, hshort⟩ := h
  refine ⟨(word, more) :: args, ?_, ?_, ?_⟩
  · simp [argTokens]
  · simp
  · simpa using hshort

theorem parseargs_wp (turns : Nat) (hargv : argv.length < MAXARGS) :
    wp (parseargs turns argv.length (wrap redirs (.exec argv))) s (ReadsArgs redirs argv (tokens s))
      (Within (tokens s).length turns) := by
  induction turns generalizing s redirs argv with
  | zero => exact fun _ => Nat.zero_le _
  | succ turns ih =>
    rw [parseargs, wp_bind]
    refine peek_wp (by decide) fun here hhere => ?_
    by_cases hpeek : peeked [chr '|', chr ')', chr '&', chr ';'] (tokens s) = true
    · rw [if_pos hpeek]
      exact .stop hargv hhere
    rw [if_neg hpeek, wp_bind]
    refine gettoken_wp fun next hnext => ?_
    rw [hhere] at hnext ⊢
    cases hts : tokens s with
    | nil =>
      rw [hts] at hnext
      exact .stop hargv hnext
    | cons token ts =>
      rw [hts, tail_cons] at hnext
      cases token with
      | symbol symbol => exact fun hturns => absurd hturns (by decide)
      | word word =>
        dsimp only [List.head?_cons]
        by_cases hmany : argv.length + 1 ≥ MAXARGS
        · rw [if_pos hmany]
          exact fun hturns => absurd hturns (by decide)
        rw [if_neg hmany, wp_bind, push_wrap, Cmd.push]
        refine (parseredirs_wp turns).mono (fun result last => ?_) fun halt hhalt hturns => ?_
        · rintro ⟨more, hmore, rfl⟩
          rw [hnext] at hmore
          have hlength : argv.length + 1 = (argv ++ [word]).length := by simp
          rw [← wrap_append, hlength]
          refine (ih (by simpa using hmany)).mono (fun result rest hresult => ?_) fun halt hhalt hturns => ?_
          · rw [hmore]
            exact hresult.cons
          · have := hhalt hturns
            rw [hmore, length_cons, length_append]
            omega
        · have := hhalt hturns
          rw [hnext] at this
          rw [length_cons]
          omega

end Args

-- The parser has read a phrase, and stands behind it.
def Parsed (phrase : Phrase) (s : List Byte) (cmd : Cmd) (rest : List Byte) : Prop :=
  ∃ used, tokens s = used ++ tokens rest ∧ Derives phrase used cmd ∧ cmd.Short

section Step

variable {turns : Nat}
variable (hline : ∀ s, wp (parseline turns) s (Parsed .line s) (Within (4 * (tokens s).length + 3) turns))
variable (hpipe : ∀ s, wp (parsepipe turns) s (Parsed .pipe s) (Within (4 * (tokens s).length + 2) turns))
variable (hexec : ∀ s, wp (parseexec turns) s (Parsed .exec s) (Within (4 * (tokens s).length + 1) turns))
variable (hblock : ∀ s, wp (parseblock turns) s (Parsed .exec s) (Within (4 * (tokens s).length) turns))

include hline hpipe in
theorem parseline_step (s : List Byte) :
    wp (parseline (turns + 1)) s (Parsed .line s) (Within (4 * (tokens s).length + 3) (turns + 1)) := by
  rw [parseline, wp_bind]
  refine (hpipe s).mono (fun cmd one => ?_) fun halt hhalt hturns => ?_
  · rintro ⟨used, hused, hderives, hshort⟩
    rw [wp_bind]
    refine (parsebacks_wp turns).mono (fun back two => ?_) fun halt hhalt hturns => ?_
    · rintro ⟨n, hamps, rfl⟩
      rw [hamps, ← append_assoc] at hused
      refine accept_wp .semi (by decide) (by decide) (fun ts three hts hthree => ?_) fun here hhere => ?_
      · rw [wp_bind]
        refine (hline three).mono (fun right rest => ?_) fun halt hhalt hturns => ?_
        · rintro ⟨more, hmore, hright, hshort'⟩
          refine ⟨_, ?_, .lines n hderives hright, (back_short n).mpr hshort, hshort'⟩
          rw [hused, hts, ← hthree, hmore]
          simp
        · have := hhalt hturns
          rw [hthree] at this
          rw [hused, hts]
          simp only [length_append, length_cons]
          omega
      · refine ⟨_, ?_, .line n hderives, (back_short n).mpr hshort⟩
        rw [hused, hhere]
    · have := hhalt hturns
      rw [hused, length_append]
      omega
  · have := hhalt hturns
    omega

include hpipe hexec in
theorem parsepipe_step (s : List Byte) :
    wp (parsepipe (turns + 1)) s (Parsed .pipe s) (Within (4 * (tokens s).length + 2) (turns + 1)) := by
  rw [parsepipe, wp_bind]
  refine (hexec s).mono (fun cmd one => ?_) fun halt hhalt hturns => ?_
  · rintro ⟨used, hused, hderives, hshort⟩
    refine accept_wp .bar (by decide) (by decide) (fun ts two hts htwo => ?_) fun here hhere => ?_
    · rw [wp_bind]
      refine (hpipe two).mono (fun right rest => ?_) fun halt hhalt hturns => ?_
      · rintro ⟨more, hmore, hright, hshort'⟩
        refine ⟨_, ?_, .pipes hderives hright, hshort, hshort'⟩
        rw [hused, hts, ← htwo, hmore]
        simp
      · have := hhalt hturns
        rw [htwo] at this
        rw [hused, hts]
        simp only [length_append, length_cons]
        omega
    · refine ⟨used, ?_, .pipe hderives, hshort⟩
      rw [hused, hhere]
  · have := hhalt hturns
    omega

include hline in
theorem parseblock_step (s : List Byte) :
    wp (parseblock (turns + 1)) s (Parsed .exec s) (Within (4 * (tokens s).length) (turns + 1)) := by
  rw [parseblock]
  refine accept_wp .lparen (by decide) (by decide) (fun ts one hts hone => ?_)
    fun _ _ hturns => absurd hturns (by decide)
  rw [wp_bind]
  refine (hline one).mono (fun cmd two => ?_) fun halt hhalt hturns => ?_
  · rintro ⟨used, hused, hderives, hshort⟩
    refine accept_wp .rparen (by decide) (by decide) (fun more three hmore hthree => ?_)
      fun _ _ hturns => absurd hturns (by decide)
    refine (parseredirs_wp turns).mono (fun result rest => ?_) fun halt hhalt hturns => ?_
    · rintro ⟨redirs, hredirs, rfl⟩
      refine ⟨_, ?_, .block redirs hderives, (wrap_short redirs).mpr hshort⟩
      rw [hts, ← hone, hused, hmore, ← hthree, hredirs]
      simp
    · have := hhalt hturns
      rw [hthree] at this
      rw [hts, ← hone, hused, hmore]
      simp only [length_append, length_cons]
      omega
  · have := hhalt hturns
    rw [hone] at this
    rw [hts, length_cons]
    omega

include hblock in
theorem parseexec_step (s : List Byte) :
    wp (parseexec (turns + 1)) s (Parsed .exec s) (Within (4 * (tokens s).length + 1) (turns + 1)) := by
  rw [parseexec, wp_bind]
  refine peek_wp (by decide) fun here hhere => ?_
  split_ifs with hpeek
  · refine (hblock here).mono (fun cmd rest => ?_) fun halt hhalt hturns => ?_
    · rintro ⟨used, hused, hderives, hshort⟩
      exact ⟨used, hhere ▸ hused, hderives, hshort⟩
    · have := hhalt hturns
      rw [hhere] at this
      omega
  · rw [wp_bind]
    refine (parseredirs_wp turns).mono (fun ret one => ?_) fun halt hhalt hturns => ?_
    · rintro ⟨redirs, hredirs, rfl⟩
      have hfew : ([] : List Span).length < MAXARGS := by decide
      refine (parseargs_wp turns hfew).mono (fun cmd rest => ?_) fun halt hhalt hturns => ?_
      · rintro ⟨args, hargs, rfl, hshort⟩
        refine ⟨_, ?_, .simple redirs args, (wrap_short _).mpr hshort⟩
        rw [← hhere, hredirs, hargs, append_assoc]
      · have := hhalt hturns
        rw [← hhere, hredirs, length_append]
        omega
    · have := hhalt hturns
      rw [hhere] at this
      omega

end Step

theorem parse_wp (turns : Nat) (s : List Byte) :
    wp (parseline turns) s (Parsed .line s) (Within (4 * (tokens s).length + 3) turns) ∧
    wp (parsepipe turns) s (Parsed .pipe s) (Within (4 * (tokens s).length + 2) turns) ∧
    wp (parseexec turns) s (Parsed .exec s) (Within (4 * (tokens s).length + 1) turns) ∧
    wp (parseblock turns) s (Parsed .exec s) (Within (4 * (tokens s).length) turns) := by
  induction turns generalizing s with
  | zero => exact ⟨fun _ => Nat.zero_le _, fun _ => Nat.zero_le _, fun _ => Nat.zero_le _, fun _ => Nat.zero_le _⟩
  | succ turns ih =>
    have hline := fun s => (ih s).1
    have hpipe := fun s => (ih s).2.1
    have hexec := fun s => (ih s).2.2.1
    have hblock := fun s => (ih s).2.2.2
    exact ⟨parseline_step hline hpipe s, parsepipe_step hpipe hexec s, parseexec_step hblock s, parseblock_step hline s⟩

-- What may come behind a phrase in a line.
def enders : Phrase → List Symbol
  | .line => [.rparen]
  | .pipe => [.rparen, .amp, .semi]
  | .exec => [.rparen, .amp, .semi, .bar]

def Follow (phrase : Phrase) (ts : List Token) : Prop :=
  ∀ token ∈ ts.head?, ∃ symbol ∈ enders phrase, token = .symbol symbol

theorem Follow.nil : Follow phrase [] := by
  intro token htoken
  exact absurd htoken (by simp)

theorem Follow.cons (h : symbol ∈ enders phrase) (ts : List Token) : Follow phrase (.symbol symbol :: ts) := by
  intro token htoken
  obtain rfl := Option.some.inj htoken
  exact ⟨symbol, h, rfl⟩

theorem Follow.peeked_eq {found : Bool} (h : Follow phrase ts) (hts : ts ≠ [])
    (hsymbols : ∀ symbol ∈ enders phrase, strchr toks symbol.char = found) : peeked toks ts = found := by
  cases ts with
  | nil => exact absurd rfl hts
  | cons token rest =>
    obtain ⟨symbol, hsymbol, rfl⟩ := h token rfl
    exact hsymbols symbol hsymbol

theorem Follow.not_peeked (h : Follow phrase ts)
    (hsymbols : ∀ symbol ∈ enders phrase, strchr toks symbol.char = false) : peeked toks ts = false := by
  by_cases hts : ts = []
  · rw [hts]
    rfl
  · exact h.peeked_eq hts hsymbols

theorem Follow.mono {other : Phrase} (h : Follow phrase ts) (hle : ∀ symbol ∈ enders phrase, symbol ∈ enders other) :
    Follow other ts := by
  intro token htoken
  obtain ⟨symbol, hsymbol, rfl⟩ := h token htoken
  exact ⟨symbol, hle symbol hsymbol, rfl⟩

-- The parser can only return this, and stand there.
def Returns (action : Parse Cmd) (s : List Byte) (cmd : Cmd) (ts : List Token) : Prop :=
  wp action s (fun result rest => result = cmd ∧ tokens rest = ts) fun halt => halt = .turns

theorem Returns.bind {action : Parse Cmd} {result : Cmd} (h : Returns action s cmd ts)
    (hnext : ∀ rest, tokens rest = ts → Returns (next cmd) rest result last) :
    Returns (action >>= next) s result last := by
  rw [Returns, wp_bind]
  refine h.imp fun other rest => ?_
  rintro ⟨rfl, hrest⟩
  exact hnext rest hrest

section Complete

variable {turns : Nat}

theorem parsebacks_returns (n : Nat) (h : tokens s = List.replicate n (.symbol .amp) ++ ts)
    (hts : peeked [chr '&'] ts = false) : Returns (parsebacks turns cmd) s (Cmd.back^[n] cmd) ts := by
  induction n generalizing turns s cmd with
  | zero =>
    cases turns with
    | zero => rfl
    | succ turns =>
      rw [replicate_zero, nil_append] at h
      exact pass_wp (by decide) (by simp [h, hts]) fun here hhere => ⟨rfl, hhere.trans h⟩
  | succ n ih =>
    cases turns with
    | zero => rfl
    | succ turns =>
      rw [replicate_succ, cons_append] at h
      exact take_wp (by decide) h (by decide) fun next hnext => ih hnext

theorem parseredirs_returns (redirs : List Redir) (h : tokens s = redirTokens redirs ++ ts)
    (hts : peeked [chr '<', chr '>'] ts = false) : Returns (parseredirs turns cmd) s (wrap redirs cmd) ts := by
  induction redirs generalizing turns s cmd with
  | nil =>
    cases turns with
    | zero => rfl
    | succ turns =>
      exact pass_wp (by decide) (by simp [h, redirTokens, hts]) fun here hhere => ⟨rfl, hhere.trans h⟩
  | cons redir redirs ih =>
    cases turns with
    | zero => rfl
    | succ turns =>
      have hall : tokens s = .symbol redir.arrow.symbol :: .word redir.file :: (redirTokens redirs ++ ts) := by
        rw [h]
        simp [redirTokens]
      refine take_wp (by decide) hall (by cases redir.arrow <;> decide) fun next hnext => ?_
      rw [wp_bind]
      refine gettoken_wp fun last hlast => ?_
      rw [hnext, tail_cons] at hlast
      rw [hnext]
      dsimp only [List.head?_cons]
      rw [redirect_arrow, wrap_cons]
      exact ih hlast

theorem Follow.args (h : Follow .exec ts) (args : List (Span × List Redir))
    (hsymbols : ∀ symbol ∈ enders .exec, strchr toks symbol.char = false) :
    peeked toks (argTokens args ++ ts) = false := by
  cases args with
  | nil => exact h.not_peeked hsymbols
  | cons arg args => rfl

theorem parseargs_returns {redirs : List Redir} {argv : List Span} (args : List (Span × List Redir))
    (h : tokens s = argTokens args ++ ts) (hts : Follow .exec ts)
    (hshort : (argv ++ args.map Prod.fst).length < MAXARGS) :
    Returns (parseargs turns argv.length (wrap redirs (.exec argv))) s
      (wrap (redirs ++ args.flatMap Prod.snd) (.exec (argv ++ args.map Prod.fst))) ts := by
  induction args generalizing turns s redirs argv with
  | nil =>
    cases turns with
    | zero => rfl
    | succ turns =>
      rw [Returns, parseargs, wp_bind]
      refine peek_wp (by decide) fun here hhere => ?_
      rw [h, argTokens, flatMap_nil, nil_append] at hhere ⊢
      simp only [flatMap_nil, append_nil, map_nil]
      by_cases hnil : ts = []
      · subst hnil
        rw [if_neg (by decide), wp_bind]
        refine gettoken_wp fun next hnext => ?_
        rw [hhere] at hnext ⊢
        exact ⟨rfl, hnext⟩
      · rw [if_pos (hts.peeked_eq hnil (by decide))]
        exact ⟨rfl, hhere⟩
  | cons arg args ih =>
    cases turns with
    | zero => rfl
    | succ turns =>
      rw [Returns, parseargs, wp_bind]
      refine peek_wp (by decide) fun here hhere => ?_
      have hall : tokens s = .word arg.1 :: (redirTokens arg.2 ++ (argTokens args ++ ts)) := by
        rw [h]
        simp [argTokens]
      rw [hall] at hhere ⊢
      rw [peeked_word, if_neg Bool.false_ne_true, wp_bind]
      refine gettoken_wp fun next hnext => ?_
      rw [hhere, tail_cons] at hnext
      rw [hhere]
      dsimp only [List.head?_cons]
      have hfew : ¬argv.length + 1 ≥ MAXARGS := by
        simp only [length_append, length_map, length_cons] at hshort
        omega
      rw [if_neg hfew, wp_bind, push_wrap, Cmd.push]
      refine (parseredirs_returns arg.2 hnext (hts.args args (by decide))).imp fun ret last => ?_
      rintro ⟨rfl, hlast⟩
      have hlength : argv.length + 1 = (argv ++ [arg.1]).length := by simp
      rw [← wrap_append, hlength]
      have hmap : argv ++ (arg :: args).map Prod.fst = argv ++ [arg.1] ++ args.map Prod.fst := by simp
      have hflat : redirs ++ (arg :: args).flatMap Prod.snd = redirs ++ arg.2 ++ args.flatMap Prod.snd := by simp
      rw [hmap] at hshort
      rw [hmap, hflat]
      exact ih hlast hshort

def parser : Phrase → Nat → Parse Cmd
  | .line => parseline
  | .pipe => parsepipe
  | .exec => parseexec

-- Wherever these tokens are followed by what may follow, the parser reads them as this command.
def Accepts (phrase : Phrase) (used : List Token) (cmd : Cmd) : Prop :=
  ∀ s ts turns, tokens s = used ++ ts → Follow phrase ts → Returns (parser phrase turns) s cmd ts

variable {one two : List Token} {right : Cmd}

section

variable (h : Accepts .pipe one cmd) (n : Nat)

include h

theorem Accepts.backs (hused : tokens s = one ++ (List.replicate n (.symbol .amp) ++ ts)) (hts : Follow .pipe ts)
    (hamp : peeked [chr '&'] ts = false) {result : Cmd}
    (hnext : ∀ rest, tokens rest = ts → Returns (next (Cmd.back^[n] cmd)) rest result last) :
    Returns (do next (← parsebacks turns (← parsepipe turns))) s result last := by
  have hfollow : Follow .pipe (List.replicate n (.symbol .amp) ++ ts) := by
    cases n with
    | zero => exact hts
    | succ n => exact .cons (by decide) _
  refine (h s _ turns hused hfollow).bind fun here hhere => ?_
  exact (parsebacks_returns n hhere hamp).bind hnext

theorem Accepts.line : Accepts .line (one ++ List.replicate n (.symbol .amp)) (Cmd.back^[n] cmd) := by
  intro s ts turns hused hts
  cases turns with
  | zero => rfl
  | succ turns =>
    rw [append_assoc] at hused
    refine h.backs n hused (hts.mono (by decide)) (hts.not_peeked (by decide)) fun last hlast => ?_
    refine pass_wp (by decide) ?_ fun rest hrest => ⟨rfl, hrest.trans hlast⟩
    rw [hlast, hts.not_peeked (by decide)]
    exact Bool.false_ne_true

theorem Accepts.lines (hright : Accepts .line two right) :
    Accepts .line (one ++ List.replicate n (.symbol .amp) ++ .symbol .semi :: two)
      (.list (Cmd.back^[n] cmd) right) := by
  intro s ts turns hused hts
  cases turns with
  | zero => rfl
  | succ turns =>
    rw [append_assoc, append_assoc] at hused
    refine h.backs n hused (.cons (by decide) _) rfl fun last hlast => ?_
    refine take_wp (by decide) hlast (by decide) fun next hnext => ?_
    exact (hright next ts turns hnext hts).bind fun rest hrest => ⟨rfl, hrest⟩

end

theorem Accepts.pipe (h : Accepts .exec one cmd) : Accepts .pipe one cmd := by
  intro s ts turns hused hts
  cases turns with
  | zero => rfl
  | succ turns =>
    refine (h s ts turns hused (hts.mono (by decide))).bind fun last hlast => ?_
    refine pass_wp (by decide) ?_ fun rest hrest => ⟨rfl, hrest.trans hlast⟩
    rw [hlast, hts.not_peeked (by decide)]
    exact Bool.false_ne_true

theorem Accepts.pipes (h : Accepts .exec one cmd) (hright : Accepts .pipe two right) :
    Accepts .pipe (one ++ .symbol .bar :: two) (.pipe cmd right) := by
  intro s ts turns hused hts
  cases turns with
  | zero => rfl
  | succ turns =>
    rw [append_assoc] at hused
    refine (h s _ turns hused (.cons (by decide) _)).bind fun last hlast => ?_
    refine take_wp (by decide) hlast (by decide) fun next hnext => ?_
    exact (hright next ts turns hnext hts).bind fun rest hrest => ⟨rfl, hrest⟩

theorem Accepts.parseblock (h : Accepts .line one cmd) (redirs : List Redir)
    (hused : tokens s = .symbol .lparen :: (one ++ .symbol .rparen :: (redirTokens redirs ++ ts)))
    (hts : Follow .exec ts) : Returns (parseblock turns) s (wrap redirs cmd) ts := by
  cases turns with
  | zero => rfl
  | succ turns =>
    refine take_wp (by decide) hused (by decide) fun inner hinner => ?_
    refine (h inner _ turns hinner (.cons (by decide) _)).bind fun last hlast => ?_
    refine take_wp (by decide) hlast (by decide) fun next hnext => ?_
    exact parseredirs_returns redirs hnext (hts.not_peeked (by decide))

theorem Accepts.block (h : Accepts .line one cmd) (redirs : List Redir) :
    Accepts .exec (.symbol .lparen :: one ++ .symbol .rparen :: redirTokens redirs) (wrap redirs cmd) := by
  intro s ts turns hused hts
  cases turns with
  | zero => rfl
  | succ turns =>
    rw [append_assoc, cons_append, cons_append] at hused
    rw [Returns, parser, parseexec, wp_bind]
    refine peek_wp (by decide) fun here hhere => ?_
    rw [hused] at hhere ⊢
    rw [peeked_symbol, if_pos (by decide)]
    exact h.parseblock redirs hhere hts

theorem Accepts.simple (redirs : List Redir) (args : List (Span × List Redir))
    (hshort : (args.map Prod.fst).length < MAXARGS) :
    Accepts .exec (redirTokens redirs ++ argTokens args)
      (wrap (redirs ++ args.flatMap Prod.snd) (.exec (args.map Prod.fst))) := by
  intro s ts turns hused hts
  cases turns with
  | zero => rfl
  | succ turns =>
    rw [append_assoc] at hused
    have hpeek : peeked [chr '('] (tokens s) = false := by
      rw [hused]
      cases redirs with
      | nil => exact hts.args args (by decide)
      | cons redir redirs =>
        cases redir with
        | mk arrow file => cases arrow <;> rfl
    refine pass_wp (by decide) (by simp [hpeek]) fun here hhere => ?_
    rw [hused] at hhere
    refine (parseredirs_returns redirs hhere (hts.args args (by decide))).bind fun last hlast => ?_
    have hargs : (([] : List Span) ++ args.map Prod.fst).length < MAXARGS := hshort
    exact parseargs_returns args hlast hts hargs

theorem Derives.accepts (h : Derives phrase used cmd) (hshort : cmd.Short) : Accepts phrase used cmd := by
  induction h with
  | line n _ ih => exact (ih ((back_short n).mp hshort)).line n
  | lines n _ _ ih ihright => exact (ih ((back_short n).mp hshort.1)).lines n (ihright hshort.2)
  | pipe _ ih => exact (ih hshort).pipe
  | pipes _ _ ih ihright => exact (ih hshort.1).pipes (ihright hshort.2)
  | block redirs _ ih => exact (ih ((wrap_short redirs).mp hshort)).block redirs
  | simple redirs args => exact .simple redirs args ((wrap_short _).mp hshort)

end Complete

end Xv6.Sh
