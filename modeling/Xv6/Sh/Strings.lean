import Xv6.Sh.Theorems

namespace Xv6.Sh

open Xv6.Action List

variable {line s rest : List Byte} {word : Span} {cmd : Cmd} {phrase : Phrase} {used : List Token}

def Span.text (word : Span) : List Byte := word.q.take (word.q.length - word.eq.length)

theorem Span.text_append (text eq : List Byte) : Span.text ⟨text ++ eq, eq⟩ = text := by simp [Span.text]

-- What a pointer to the buffer is as a string.
def cstring (buf : List Byte) (i : Nat) : List Byte := (buf.drop i).takeWhile (· != 0)

def Cmd.words : Cmd → List Span
  | .exec argv => argv
  | .redir cmd file _ _ => cmd.words ++ [file]
  | .pipe left right => left.words ++ right.words
  | .list left right => left.words ++ right.words
  | .back cmd => cmd.words

-- The word is in the line, and ends where no word goes on.
structure InLine (line : List Byte) (word : Span) : Prop where
  q : word.q = word.text ++ word.eq
  line : word.q <:+ line
  text : ∀ c ∈ word.text, inWord c = true
  eq : ∀ c ∈ word.eq.head?, inWord c = false

theorem scan_suffix {token : Token} (h : scan s = (some token, rest)) : rest <:+ s := by
  have hskip : skip s <:+ s := dropWhile_suffix _
  rcases scan_cases s with ⟨-, hscan⟩ | ⟨symbol, more, -, hscan, hmore, -⟩ | ⟨c, more, -, -, hscan⟩
  · exact absurd (hscan.symm.trans h) (by simp)
  · obtain ⟨-, rfl⟩ := Prod.mk.inj (hscan.symm.trans h)
    exact ((dropWhile_suffix _).trans hmore).trans hskip
  · obtain ⟨-, rfl⟩ := Prod.mk.inj (hscan.symm.trans h)
    exact ((dropWhile_suffix _).trans (dropWhile_suffix _)).trans hskip

theorem scan_word (h : scan s = (some (.word word), rest)) (hs : s <:+ line) : InLine line word := by
  rcases scan_cases s with ⟨-, hscan⟩ | ⟨symbol, more, -, hscan, -, -⟩ | ⟨c, more, -, -, hscan⟩
  · exact absurd (hscan.symm.trans h) (by simp)
  · exact absurd (hscan.symm.trans h) (by simp)
  · obtain ⟨hword, -⟩ := Prod.mk.inj (hscan.symm.trans h)
    obtain rfl := Token.word.inj (Option.some.inj hword)
    have hsplit : (skip s).takeWhile inWord ++ (skip s).dropWhile inWord = skip s := takeWhile_append_dropWhile
    have htext := Span.text_append ((skip s).takeWhile inWord) ((skip s).dropWhile inWord)
    rw [hsplit] at htext
    refine ⟨by rw [htext, hsplit], (dropWhile_suffix _).trans hs, fun c hc => ?_, fun c hc => ?_⟩
    · rw [htext] at hc
      exact mem_takeWhile_imp hc
    · have hhead := List.head?_dropWhile_not inWord (skip s)
      rw [Option.mem_def.mp hc] at hhead
      simpa using hhead

theorem tokens_inLine (hs : s <:+ line) (hword : .word word ∈ tokens s) : InLine line word := by
  suffices h : ∀ turns, ∀ s, s <:+ line → .word word ∈ tokensIn turns s → InLine line word from h _ s hs hword
  intro turns
  induction turns with
  | zero => exact fun s _ hword => absurd hword not_mem_nil
  | succ turns ih =>
    intro s hs hword
    rw [tokensIn] at hword
    cases hscan : scan s with
    | mk token rest =>
      rw [hscan] at hword
      cases token with
      | none => exact absurd hword not_mem_nil
      | some token =>
        rcases mem_cons.mp hword with rfl | hword
        · exact scan_word hscan hs
        · exact ih rest ((scan_suffix hscan).trans hs) hword

theorem wrap_words (redirs : List Redir) : (wrap redirs cmd).words = cmd.words ++ redirs.map Redir.file := by
  induction redirs generalizing cmd with
  | nil => simp [wrap]
  | cons redir redirs ih =>
    rw [wrap_cons, ih]
    simp [Cmd.words]

theorem back_words (n : Nat) : (Cmd.back^[n] cmd).words = cmd.words := by
  induction n generalizing cmd with
  | zero => rfl
  | succ n ih => exact ih

theorem mem_redirTokens {redirs : List Redir} (h : word ∈ redirs.map Redir.file) : .word word ∈ redirTokens redirs := by
  obtain ⟨redir, hredir, rfl⟩ := mem_map.mp h
  exact mem_flatMap.mpr ⟨redir, hredir, by simp⟩

theorem mem_argTokens {args : List (Span × List Redir)}
    (h : word ∈ args.map Prod.fst ∨ word ∈ (args.flatMap Prod.snd).map Redir.file) : .word word ∈ argTokens args := by
  rcases h with h | h
  · obtain ⟨arg, harg, rfl⟩ := mem_map.mp h
    exact mem_flatMap.mpr ⟨arg, harg, mem_cons_self⟩
  · obtain ⟨redir, hredir, rfl⟩ := mem_map.mp h
    obtain ⟨arg, harg, hredir⟩ := mem_flatMap.mp hredir
    exact mem_flatMap.mpr ⟨arg, harg, mem_cons_of_mem _ (mem_redirTokens (mem_map_of_mem hredir))⟩

-- All words of the tree are words of the line.
theorem Derives.words (h : Derives phrase used cmd) : ∀ word ∈ cmd.words, .word word ∈ used := by
  induction h with
  | line n _ ih =>
    intro word hword
    rw [back_words] at hword
    exact mem_append_left _ (ih word hword)
  | lines n _ _ ih ihright =>
    intro word hword
    rw [Cmd.words, back_words, mem_append] at hword
    rcases hword with hword | hword
    · exact mem_append_left _ (mem_append_left _ (ih word hword))
    · exact mem_append_right _ (mem_cons_of_mem _ (ihright word hword))
  | pipe _ ih => exact ih
  | pipes _ _ ih ihright =>
    intro word hword
    rcases mem_append.mp hword with hword | hword
    · exact mem_append_left _ (ih word hword)
    · exact mem_append_right _ (mem_cons_of_mem _ (ihright word hword))
  | block redirs _ ih =>
    intro word hword
    rw [wrap_words, mem_append] at hword
    rcases hword with hword | hword
    · exact mem_append_left _ (mem_cons_of_mem _ (ih word hword))
    · exact mem_append_right _ (mem_cons_of_mem _ (mem_redirTokens hword))
  | simple redirs args =>
    intro word hword
    rw [wrap_words, Cmd.words, map_append, mem_append, mem_append] at hword
    rcases hword with hword | hword | hword
    · exact mem_append_right _ (mem_argTokens (.inl hword))
    · exact mem_append_left _ (mem_redirTokens hword)
    · exact mem_append_right _ (mem_argTokens (.inr hword))

-- The buffer after a NUL has been written at the end of each of these words.
def cut (length : Nat) (words : List Span) (buf : List Byte) : List Byte :=
  words.foldl (fun buf word => buf.set (address length word.eq) 0) buf

theorem nulterminate_eq (length : Nat) (cmd : Cmd) (buf : List Byte) :
    nulterminate length cmd buf = cut length cmd.words buf := by
  induction cmd generalizing buf with
  | exec argv => rfl
  | redir cmd file mode fd ih =>
    rw [nulterminate, ih, Cmd.words, cut, cut, foldl_append, foldl_cons, foldl_nil]
  | pipe left right ihleft ihright
  | list left right ihleft ihright => rw [nulterminate, ihleft, ihright, Cmd.words, cut, cut, cut, foldl_append]
  | back cmd ih => exact ih buf

variable {i : Nat} {before : List Byte}

theorem cut_of_ne {length : Nat} {words : List Span} (h : ∀ word ∈ words, address length word.eq ≠ i)
    (buf : List Byte) : (cut length words buf)[i]? = buf[i]? := by
  induction words generalizing buf with
  | nil => rfl
  | cons word words ih =>
    refine (ih (fun word hword => h word (mem_cons_of_mem _ hword)) _).trans ?_
    rw [List.getElem?_set_ne (h word mem_cons_self)]

theorem cut_of_eq {length : Nat} {words : List Span} (h : ∃ word ∈ words, address length word.eq = i)
    {buf : List Byte} (hi : i < buf.length) : (cut length words buf)[i]? = some 0 := by
  induction words generalizing buf with
  | nil =>
    obtain ⟨word, hword, -⟩ := h
    exact absurd hword not_mem_nil
  | cons first words ih =>
    -- A later word may end at the same place.
    by_cases hlater : ∃ word ∈ words, address length word.eq = i
    · exact ih hlater (by rwa [length_set])
    · have hfirst : address length first.eq = i := by
        obtain ⟨word, hword, heq⟩ := h
        rcases mem_cons.mp hword with rfl | hword
        · exact heq
        · exact absurd ⟨word, hword, heq⟩ hlater
      refine (cut_of_ne (fun word hword heq => hlater ⟨word, hword, heq⟩) _).trans ?_
      dsimp only
      rw [hfirst, List.getElem?_set_self hi]

theorem address_append (before : List Byte) : address (before ++ s).length s = before.length := by
  simp [address]

theorem takeWhile_eq_text {l text : List Byte} (htext : ∀ c ∈ text, c ≠ 0)
    (hget : ∀ i < text.length, l[i]? = text[i]?) (hend : l[text.length]? = some 0) : l.takeWhile (· != 0) = text := by
  induction text generalizing l with
  | nil =>
    cases l with
    | nil => rfl
    | cons c l =>
      obtain rfl := Option.some.inj hend
      rfl
  | cons c text ih =>
    have hfirst := hget 0 (by simp)
    cases l with
    | nil => exact absurd hfirst (by simp)
    | cons d l =>
      obtain rfl := Option.some.inj hfirst
      have hne : (d != 0) = true := bne_iff_ne.mpr (htext d mem_cons_self)
      have hrest := ih (fun c hc => htext c (mem_cons_of_mem _ hc)) (fun i hi => hget (i + 1) (by simpa using hi)) hend
      simp only [takeWhile_cons, hne, if_true, hrest]

-- The ends that nulterminate overwrites are in no word.
theorem InLine.address_ne {other : Span} (h : InLine line word) (hother : InLine line other)
    (hbefore : before ++ word.q = line) (hi : i < word.text.length) :
    address line.length other.eq ≠ before.length + i := by
  intro heq
  obtain ⟨start, hstart⟩ := hother.line
  have hget : (line)[before.length + i]? = word.text[i]? := by
    rw [← hbefore, List.getElem?_append_right (Nat.le_add_right _ _), Nat.add_sub_cancel_left, h.q,
      List.getElem?_append_left hi]
  have hhead : (line)[before.length + i]? = other.eq.head? := by
    rw [hother.q, ← append_assoc] at hstart
    rw [← hstart, address_append] at heq
    rw [← heq, ← hstart, List.getElem?_append_right le_rfl, Nat.sub_self, List.head?_eq_getElem?]
  have hc : word.text[i] ∈ other.eq.head? := by
    rw [← hhead, hget, List.getElem?_eq_getElem hi]
    rfl
  exact absurd ((hother.eq _ hc).symm.trans (h.text _ (getElem_mem hi))) (by decide)

theorem InLine.addresses (h : InLine line word) (hbefore : before ++ word.q = line) :
    address line.length word.q = before.length ∧ address line.length word.eq = before.length + word.text.length := by
  constructor
  · rw [← hbefore]
    exact address_append before
  · have hsplit : (before ++ word.text) ++ word.eq = line := by rw [append_assoc, ← h.q, hbefore]
    rw [← hsplit, address_append, length_append]

theorem cstring_cut {words : List Span} (hline : (0 : Byte) ∉ line) (hall : ∀ word ∈ words, InLine line word)
    (hword : word ∈ words) :
    cstring (cut line.length words (line ++ [0])) (address line.length word.q) = word.text := by
  have h := hall word hword
  obtain ⟨before, hbefore⟩ := h.line
  obtain ⟨hq, heq⟩ := h.addresses hbefore
  have hlength : before.length + word.text.length + word.eq.length = line.length := by
    rw [← hbefore, h.q, length_append, length_append, Nat.add_assoc]
  rw [hq]
  refine takeWhile_eq_text (fun c hc hzero => ?_) (fun i hi => ?_) ?_
  · refine hline (hbefore ▸ mem_append_right _ ?_)
    rw [h.q, ← hzero]
    exact mem_append_left _ hc
  · rw [List.getElem?_drop, cut_of_ne fun other hother => h.address_ne (hall other hother) hbefore hi]
    rw [List.getElem?_append_left (by omega), ← hbefore, List.getElem?_append_right (Nat.le_add_right _ _),
      Nat.add_sub_cancel_left, h.q, List.getElem?_append_left hi]
  · rw [List.getElem?_drop]
    refine cut_of_eq ⟨word, hword, heq⟩ ?_
    rw [length_append, length_singleton]
    omega

section Parsecmd

variable {turns : Nat} {buf : List Byte}

theorem parsewhole_wp (turns : Nat) (line : List Byte) :
    wp (parsewhole turns) line (fun cmd _ => Derives .line (tokens line) cmd ∧ cmd.Short)
      (Within (4 * (tokens line).length + 3) turns) := by
  rw [parsewhole, wp_bind]
  refine (parse_wp turns line).1.imp fun cmd rest => ?_
  rintro ⟨used, hused, hderives, hshort⟩
  have hpeek : wp (peek []) rest (fun _ last => last = skip rest) (Within (4 * (tokens line).length + 3) turns) := rfl
  rw [wp_bind]
  refine hpeek.imp fun _ last hlast => ?_
  rw [wp_bind, wp_get, wp_ite]
  split_ifs with hleft
  · exact fun hturns => absurd hturns (by decide)
  · rw [not_not, hlast, ← tokens_eq_nil_iff] at hleft
    rw [hleft, append_nil] at hused
    rw [hused]
    exact ⟨hderives, hshort⟩

theorem parsewhole_returns (h : Derives .line (tokens line) cmd) (hshort : cmd.Short) :
    wp (parsewhole turns) line (fun result _ => result = cmd) fun halt => halt = .turns := by
  rw [parsewhole, wp_bind]
  refine (h.accepts hshort line [] turns (append_nil _).symm .nil).imp fun result rest => ?_
  rintro ⟨rfl, hrest⟩
  have hpeek : wp (peek []) rest (fun _ last => last = skip rest) fun halt => halt = .turns := rfl
  rw [wp_bind]
  refine hpeek.imp fun _ last hlast => ?_
  rw [wp_bind, wp_get, hlast, tokens_eq_nil_iff.mp hrest]
  rfl

theorem parsecmd_eq_ok_iff : parsecmd turns line = .ok (cmd, buf) ↔
    (∃ rest, (parsewhole turns).run line = .ok (cmd, rest)) ∧ buf = nulterminate line.length cmd (line ++ [0]) := by
  unfold parsecmd
  cases hrun : (parsewhole turns).run line with
  | error halt => simp [Except.map]
  | ok pair =>
    obtain ⟨tree, rest⟩ := pair
    simp only [Except.map, Except.ok.injEq, Prod.mk.injEq]
    constructor
    · rintro ⟨rfl, rfl⟩
      exact ⟨⟨rest, rfl, rfl⟩, rfl⟩
    · rintro ⟨⟨_, rfl, -⟩, rfl⟩
      exact ⟨rfl, rfl⟩

theorem parsewhole_ends (hturns : 4 * (tokens line).length + 3 < turns) :
    (parsewhole turns).run line ≠ .error .turns := by
  intro hrun
  rcases (parsewhole_wp turns line).run with ⟨cmd, rest, hok, -⟩ | ⟨halt, herror, hhalt⟩
  · exact absurd (hrun.symm.trans hok) (by simp)
  · obtain rfl := Except.error.inj (hrun.symm.trans herror)
    exact absurd (hhalt rfl) (by omega)

theorem parsecmd_of_derives (hturns : 4 * (tokens line).length + 3 < turns) (h : Derives .line (tokens line) cmd)
    (hshort : cmd.Short) : ∃ buf, parsecmd turns line = .ok (cmd, buf) := by
  have hreturns : wp (parsewhole turns) line _ _ := parsewhole_returns h hshort
  rcases hreturns.run with ⟨result, rest, hrun, rfl⟩ | ⟨halt, hrun, rfl⟩
  · exact ⟨_, parsecmd_eq_ok_iff.mpr ⟨⟨rest, hrun⟩, rfl⟩⟩
  · exact absurd hrun (parsewhole_ends hturns)

theorem parsecmd_derives (h : parsecmd turns line = .ok (cmd, buf)) : Derives .line (tokens line) cmd ∧ cmd.Short := by
  obtain ⟨⟨rest, hrun⟩, -⟩ := parsecmd_eq_ok_iff.mp h
  exact (parsewhole_wp turns line).returned hrun

theorem parsecmd_inLine (h : parsecmd turns line = .ok (cmd, buf)) : ∀ word ∈ cmd.words, InLine line word :=
  fun word hword => tokens_inLine List.suffix_rfl ((parsecmd_derives h).1.words word hword)

theorem parsecmd_text (hline : (0 : Byte) ∉ line) (h : parsecmd turns line = .ok (cmd, buf)) :
    ∀ word ∈ cmd.words, cstring buf (address line.length word.q) = word.text := by
  intro word hword
  obtain ⟨-, rfl⟩ := parsecmd_eq_ok_iff.mp h
  rw [nulterminate_eq]
  exact cstring_cut hline (parsecmd_inLine h) hword

-- The parser ends, and it returns a command exactly for the sentences of the grammar, where the words
-- of the command are strings in the buffer then.
theorem parsecmd_iff (hline : (0 : Byte) ∉ line) (hturns : 4 * (tokens line).length + 3 < turns) :
    parsecmd turns line ≠ .error .turns ∧
    (∀ cmd, (∃ buf, parsecmd turns line = .ok (cmd, buf)) ↔ Derives .line (tokens line) cmd ∧ cmd.Short) ∧
    ∀ cmd buf, parsecmd turns line = .ok (cmd, buf) →
      ∀ word ∈ cmd.words, cstring buf (address line.length word.q) = word.text := by
  refine ⟨?_, fun cmd => ⟨?_, ?_⟩, fun cmd buf hbuf => parsecmd_text hline hbuf⟩
  · have hends := parsewhole_ends hturns
    unfold parsecmd
    intro hturns
    cases hrun : (parsewhole turns).run line with
    | error halt =>
      rw [hrun] at hturns hends
      exact hends (congrArg Except.error (Except.error.inj hturns))
    | ok pair =>
      rw [hrun] at hturns
      exact absurd hturns (by simp [Except.map])
  · rintro ⟨buf, hbuf⟩
    exact parsecmd_derives hbuf
  · rintro ⟨hderives, hshort⟩
    exact parsecmd_of_derives hturns hderives hshort

def blockLine : List Byte := ['(', 'a', ';', 'b', '&', ')', '>', 'c'].map chr

theorem parsecmd_iff_block : ∃ cmd buf, parsecmd 50 blockLine = .ok (cmd, buf) ∧
    Derives .line (tokens blockLine) cmd ∧ cmd.Short := by
  have hturns : 4 * (tokens blockLine).length + 3 < 50 := by decide +kernel
  have hok : (parsecmd 50 blockLine).isOk = true := by decide +kernel
  cases hparse : parsecmd 50 blockLine with
  | error halt => exact absurd hok (by simp [hparse, Except.isOk, Except.toBool])
  | ok pair => exact ⟨pair.1, pair.2, rfl, ((parsecmd_iff (by decide) hturns).2.1 pair.1).mp ⟨pair.2, hparse⟩⟩

-- The array of an execcmd. Its pointers are zero behind the arguments.
def argvArray (argv : List Span) (i : Fin MAXARGS) : Option Span := argv[i.val]?

def Cmd.argvs : Cmd → List (List Span)
  | .exec argv => [argv]
  | .redir cmd _ _ _ => cmd.argvs
  | .pipe left right => left.argvs ++ right.argvs
  | .list left right => left.argvs ++ right.argvs
  | .back cmd => cmd.argvs

theorem Cmd.Short.length_lt (h : cmd.Short) : ∀ argv ∈ cmd.argvs, argv.length < MAXARGS := by
  induction cmd with
  | exec argv =>
    intro other hother
    rw [mem_singleton.mp hother]
    exact h
  | redir cmd file mode fd ih => exact ih h
  | pipe left right ihleft ihright | list left right ihleft ihright =>
    intro argv hargv
    exact (mem_append.mp hargv).elim (ihleft h.1 argv) (ihright h.2 argv)
  | back cmd ih => exact ih h

theorem InLine.address_outside {other : Span} (h : InLine line word) (hother : InLine line other) :
    address line.length other.eq < address line.length word.q ∨
      address line.length word.eq ≤ address line.length other.eq := by
  obtain ⟨before, hbefore⟩ := h.line
  obtain ⟨hq, heq⟩ := h.addresses hbefore
  by_contra hinside
  rw [not_or, not_lt, not_le, hq, heq] at hinside
  obtain ⟨i, hi⟩ := Nat.exists_eq_add_of_le hinside.1
  exact h.address_ne hother hbefore (by omega) hi

theorem nulterminate_strings (hline : (0 : Byte) ∉ line) (h : parsecmd turns line = .ok (cmd, buf)) :
    (∀ word ∈ cmd.words, .word word ∈ tokens line ∧ cstring buf (address line.length word.q) = word.text ∧
      ∀ other ∈ cmd.words, address line.length other.eq < address line.length word.q ∨
        address line.length word.eq ≤ address line.length other.eq) ∧
    ∀ argv ∈ cmd.argvs, ∃ argc : Fin MAXARGS, argc = argv.length ∧ argvArray argv argc = none ∧
      ∀ i < argc, argvArray argv i ≠ none := by
  have hinLine := parsecmd_inLine h
  obtain ⟨hderives, hshort⟩ := parsecmd_derives h
  refine ⟨fun word hword => ⟨hderives.words word hword, parsecmd_text hline h word hword, ?_⟩, ?_⟩
  · intro other hother
    exact (hinLine word hword).address_outside (hinLine other hother)
  · intro argv hargv
    refine ⟨⟨argv.length, hshort.length_lt argv hargv⟩, rfl, ?_, ?_⟩
    · exact List.getElem?_eq_none le_rfl
    · intro i hi
      rw [argvArray, List.getElem?_eq_getElem hi]
      exact Option.some_ne_none _

-- One character stands between the words of this line.
def redirLine : List Byte := ['a', '<', 'b', '>', 'c', '|', 'd'].map chr

theorem nulterminate_strings_redirs : ∃ cmd buf, parsecmd 50 redirLine = .ok (cmd, buf) ∧
    ∀ word ∈ cmd.words, cstring buf (address redirLine.length word.q) = word.text := by
  have hok : (parsecmd 50 redirLine).isOk = true := by decide +kernel
  cases hparse : parsecmd 50 redirLine with
  | error halt => exact absurd hok (by simp [hparse, Except.isOk, Except.toBool])
  | ok pair =>
    exact ⟨pair.1, pair.2, rfl, fun word hword => ((nulterminate_strings (by decide) hparse).1 word hword).2.1⟩

end Parsecmd

end Xv6.Sh
