import Xv6.Grep
import Mathlib.Data.List.Infix

namespace Xv6.Grep

open List

abbrev sizeofBuf : Nat := 1024

def strchr : List Byte → Byte → Option Nat
  | [], _ => none
  | b :: s, c => if b = 0 then none else if b = c then some 0 else (strchr s c).map (· + 1)

-- The loop over the lines of the buffer from `p` on: what it writes, and where it leaves `p`.
def scan (pattern : List Byte) : Nat → List Byte → List Byte × List Byte
  | 0, p => ([], p)
  | turns + 1, p =>
    match strchr p newline with
    | none => ([], p)
    | some q =>
      let next := scan pattern turns (p.drop (q + 1))
      (if matchtext pattern (p.take q) then p.take (q + 1) ++ next.1 else next.1, next.2)

-- What the next read finds at the start of the buffer. If `p` is still at the start, `m` becomes 0.
def carried (text p : List Byte) : List Byte := if p.length = text.length then [] else p

-- `buf` holds the first `m` bytes of the buffer, `reads` what the calls of read store behind them until
-- one returns 0.
def grep (pattern : List Byte) : List Byte → List (List Byte) → List Byte
  | _, [] => []
  | buf, chunk :: reads =>
    let text := buf ++ chunk
    let out := scan pattern text.length text
    out.1 ++ grep pattern (carried text out.2) reads

-- A read stores at least one byte, and at most as many as it is asked for.
def Admits (pattern : List Byte) : List Byte → List (List Byte) → Prop
  | _, [] => True
  | buf, chunk :: reads =>
    let text := buf ++ chunk
    chunk ≠ [] ∧ chunk.length ≤ sizeofBuf - buf.length - 1 ∧
      Admits pattern (carried text (scan pattern text.length text).2) reads

-- The lines of a stream that end with a newline, without it.
def lines : List Byte → List (List Byte)
  | [] => []
  | b :: rest =>
    if b = newline then [] :: lines rest
    else
      match lines rest with
      | [] => []
      | line :: later => (b :: line) :: later

def matching (pattern : List Byte) (ls : List (List Byte)) : List Byte :=
  (ls.filter (matchtext pattern)).flatMap (· ++ [newline])

variable {pattern line text rest buf p : List Byte} {reads : List (List Byte)}

theorem lines_of_notMem (hline : newline ∉ line) : lines line = [] := by
  induction line with
  | nil => rfl
  | cons b line ih =>
    obtain ⟨hb, hline⟩ := not_or.mp (mem_cons.not.mp hline)
    rw [lines, if_neg (Ne.symm hb), ih hline]

theorem lines_append_newline (hline : newline ∉ line) (rest : List Byte) :
    lines (line ++ newline :: rest) = line :: lines rest := by
  induction line with
  | nil => rw [nil_append, lines, if_pos rfl]
  | cons b line ih =>
    obtain ⟨hb, hline⟩ := not_or.mp (mem_cons.not.mp hline)
    rw [cons_append, lines, if_neg (Ne.symm hb), ih hline]

variable {s : List Byte} {ls : List (List Byte)}

theorem strchr_of_notMem {c : Byte} (hc : c ∉ s) : strchr s c = none := by
  induction s with
  | nil => rfl
  | cons b s ih =>
    obtain ⟨hb, hs⟩ := not_or.mp (mem_cons.not.mp hc)
    rw [strchr, if_neg (Ne.symm hb), ih hs, Option.map_none, ite_self]

theorem strchr_append {c : Byte} (hc : c ∉ s) (hnul : 0 ∉ s) (hne : c ≠ 0) (rest : List Byte) :
    strchr (s ++ c :: rest) c = some s.length := by
  induction s with
  | nil => rw [nil_append, strchr, if_neg hne, if_pos rfl, length_nil]
  | cons b s ih =>
    obtain ⟨hb, hs⟩ := not_or.mp (mem_cons.not.mp hc)
    obtain ⟨hzero, hnul⟩ := not_or.mp (mem_cons.not.mp hnul)
    rw [cons_append, strchr, if_neg (Ne.symm hzero), if_neg (Ne.symm hb), ih hs hnul]
    rfl

theorem matching_append (pattern : List Byte) (ls ls' : List (List Byte)) :
    matching pattern (ls ++ ls') = matching pattern ls ++ matching pattern ls' := by
  rw [matching, filter_append, flatMap_append]
  rfl

theorem scan_of_notMem (hline : newline ∉ line) (turns : Nat) : scan pattern turns line = ([], line) := by
  cases turns with
  | zero => rfl
  | succ turns => rw [scan, strchr_of_notMem hline]

theorem scan_append_newline (pattern rest : List Byte) (hline : newline ∉ line) (hnul : 0 ∉ line) (turns : Nat) :
    scan pattern (turns + 1) (line ++ newline :: rest) =
      (matching pattern [line] ++ (scan pattern turns rest).1, (scan pattern turns rest).2) := by
  have htake : (line ++ newline :: rest).take line.length = line := by simp
  have htake' : (line ++ newline :: rest).take (line.length + 1) = line ++ [newline] := by
    simp [take_append]
  have hdrop : (line ++ newline :: rest).drop (line.length + 1) = rest := by simp [drop_append]
  rw [scan, strchr_append hline hnul (by decide)]
  simp only [htake, htake', hdrop, matching, filter_cons, filter_nil]
  split <;> simp

theorem scan_spec (pattern : List Byte) {turns : Nat} (hturns : text.length ≤ turns) (hnul : 0 ∉ text) :
    (scan pattern turns text).1 = matching pattern (lines text) ∧
      newline ∉ (scan pattern turns text).2 ∧ (scan pattern turns text).2 <:+ text ∧
      ∀ rest, lines (text ++ rest) = lines text ++ lines ((scan pattern turns text).2 ++ rest) := by
  induction turns generalizing text with
  | zero =>
    obtain rfl := eq_nil_of_length_eq_zero (Nat.le_zero.mp hturns)
    exact ⟨rfl, not_mem_nil, suffix_rfl, fun rest => rfl⟩
  | succ turns ih =>
    by_cases hmem : newline ∈ text
    · obtain ⟨line, rest, rfl, hline⟩ := eq_append_cons_of_mem hmem
      simp only [length_append, length_cons] at hturns
      simp only [mem_append, mem_cons, not_or] at hnul
      obtain ⟨hout, hlast, hsuffix, happend⟩ := ih (by omega) hnul.2.2
      rw [scan_append_newline _ _ hline hnul.1, lines_append_newline hline]
      refine ⟨?_, hlast, ?_, ?_⟩
      · rw [hout, ← matching_append, singleton_append]
      · exact hsuffix.trans ((suffix_cons newline rest).trans (suffix_append line _))
      · intro more
        rw [append_assoc, cons_append, lines_append_newline hline, happend, cons_append]
    · rw [scan_of_notMem hmem, lines_of_notMem hmem]
      exact ⟨rfl, hmem, suffix_rfl, fun rest => rfl⟩

-- A text with a newline ends the current line, of which some part may have been lost, and leaves the
-- beginning `p` of a line.
theorem scan_newline (pattern : List Byte) (hmem : newline ∈ text) (hnul : 0 ∉ text) :
    ∃ line later p, newline ∉ p ∧ 0 ∉ p ∧
      scan pattern text.length text = (matching pattern ([line] ++ later), p) ∧ carried text p = p ∧
      ∀ lost rest, newline ∉ lost →
        lines (lost ++ (text ++ rest)) = [lost ++ line] ++ (later ++ lines (p ++ rest)) := by
  obtain ⟨line, rest, rfl, hline⟩ := eq_append_cons_of_mem hmem
  simp only [mem_append, mem_cons, not_or] at hnul
  have hlength : (line ++ newline :: rest).length = line.length + rest.length + 1 := by
    rw [length_append, length_cons]
    omega
  obtain ⟨hout, hlast, hsuffix, happend⟩ :=
    scan_spec pattern (Nat.le_add_left rest.length line.length) hnul.2.2
  refine ⟨line, lines rest, _, hlast, fun h => hnul.2.2 (hsuffix.mem h), ?_, ?_, ?_⟩
  · rw [hlength, scan_append_newline pattern rest hline hnul.1, hout, matching_append]
  · have hle := hsuffix.length_le
    exact if_neg (by omega)
  · intro lost more hlost
    have hfirst : newline ∉ lost ++ line := by simp [hlost, hline]
    rw [append_assoc line, cons_append, ← append_assoc lost, lines_append_newline hfirst, happend, singleton_append]

-- No line matches, and no end of a line that has lost its beginning.
def Unmatched (pattern : List Byte) (ls : List (List Byte)) : Prop :=
  ∀ line ∈ ls, line ≠ [] → ∀ rest, rest <:+ line → matchtext pattern rest = false

theorem matching_of_false (h : matchtext pattern line = false) : matching pattern [line] = [] := by
  simp [matching, h]

theorem Unmatched.lost {lost : List Byte} {later : List (List Byte)}
    (h : Unmatched pattern ([lost ++ line] ++ later) ∨ lost = []) :
    matching pattern [line] = matching pattern [lost ++ line] := by
  by_cases hempty : lost = []
  · rw [hempty, nil_append]
  · have hun := (h.resolve_right hempty) (lost ++ line) (by simp) (by simp [hempty])
    rw [matching_of_false (hun line (suffix_append lost line)), matching_of_false (hun _ suffix_rfl)]

-- The current line is `lost ++ buf` so far, of which the buffer holds `buf`.
theorem grep_of_carried {lost : List Byte} (hlost : newline ∉ lost) (hbuf : newline ∉ buf)
    (hnul : 0 ∉ buf ++ reads.flatten)
    (h : Unmatched pattern (lines (lost ++ (buf ++ reads.flatten))) ∨
      lost = [] ∧ ∀ chunk ∈ reads.dropLast, newline ∈ chunk) :
    grep pattern buf reads = matching pattern (lines (lost ++ (buf ++ reads.flatten))) := by
  induction reads generalizing lost buf with
  | nil =>
    have hmem : newline ∉ lost ++ (buf ++ []) := by simp [hlost, hbuf]
    rw [flatten_nil, lines_of_notMem hmem]
    rfl
  | cons chunk reads ih =>
    rw [flatten_cons, ← append_assoc buf] at hnul h ⊢
    obtain ⟨htext, hreads⟩ := not_or.mp (mem_append.not.mp hnul)
    rw [grep]
    by_cases hmem : newline ∈ buf ++ chunk
    · obtain ⟨line, later, p, hp, hzero, hscan, hcarried, hlines⟩ := scan_newline pattern hmem htext
      rw [hlines lost _ hlost] at h ⊢
      have hnext : grep pattern p reads = matching pattern (lines (p ++ reads.flatten)) := by
        apply ih not_mem_nil hp (mem_append.not.mpr (not_or.mpr ⟨hzero, hreads⟩))
        apply h.imp
        · intro hun line' hline'
          exact hun line' (mem_append_right _ (mem_append_right _ hline'))
        · rintro ⟨-, hchunks⟩
          refine ⟨rfl, fun next hnext => hchunks next ?_⟩
          rw [dropLast_cons_of_ne_nil (by rintro rfl; cases hnext)]
          exact mem_cons_of_mem _ hnext
      have hfirst := Unmatched.lost (h.imp_right And.left)
      rw [hscan, hcarried, hnext, matching_append, matching_append, matching_append, hfirst, append_assoc]
    · -- The text has no newline and is lost.
      have hdrop : newline ∉ lost ++ (buf ++ chunk) := by
        simp only [mem_append, not_or] at hmem ⊢
        exact ⟨hlost, hmem⟩
      rw [scan_of_notMem hmem, carried, if_pos rfl]
      obtain hun | ⟨-, hchunks⟩ := h
      · have hnext := ih hdrop not_mem_nil hreads
        rw [append_assoc] at hnext
        exact hnext (.inl hun)
      · cases reads with
        | nil =>
          rw [flatten_nil, append_nil, lines_of_notMem hdrop]
          rfl
        | cons next reads =>
          have hchunk : newline ∈ chunk := hchunks chunk (by simp)
          exact absurd (mem_append_right buf hchunk) hmem

-- Reads of one byte each leave an empty line of every line.
def singles (text : List Byte) : List (List Byte) := text.map fun b => [b]

def blanks (pattern : List Byte) (n : Nat) : List Byte := (List.replicate n (matching pattern [[]])).flatten

theorem blanks_add (pattern : List Byte) (m n : Nat) :
    blanks pattern (m + n) = blanks pattern m ++ blanks pattern n := by
  rw [blanks, replicate_add, flatten_append]
  rfl

theorem scan_single (pattern : List Byte) (b : Byte) :
    (scan pattern 1 [b]).1 = blanks pattern ([b].count newline) ∧ carried [b] (scan pattern 1 [b]).2 = [] := by
  by_cases hb : b = newline
  · have hscan := scan_append_newline pattern [] not_mem_nil not_mem_nil 0
    rw [nil_append] at hscan
    rw [hb, hscan]
    exact ⟨by simp [scan, blanks], rfl⟩
  · have hmem : newline ∉ [b] := by simpa using Ne.symm hb
    rw [scan_of_notMem hmem, count_eq_zero_of_not_mem hmem]
    exact ⟨rfl, if_pos rfl⟩

theorem grep_singles (pattern text : List Byte) (reads : List (List Byte)) :
    grep pattern [] (singles text ++ reads) = blanks pattern (text.count newline) ++ grep pattern [] reads := by
  induction text with
  | nil => rfl
  | cons b text ih =>
    obtain ⟨hout, hcarried⟩ := scan_single pattern b
    have hcount : (b :: text).count newline = [b].count newline + text.count newline := by
      rw [← count_append, singleton_append]
    rw [hcount, blanks_add, append_assoc, ← ih, ← hout, singles, map_cons, cons_append, grep]
    simp only [nil_append, length_singleton, hcarried]
    rfl

theorem admits_singles (pattern text : List Byte) (reads : List (List Byte)) :
    Admits pattern [] (singles text ++ reads) ↔ Admits pattern [] reads := by
  induction text with
  | nil => rfl
  | cons b text ih =>
    obtain ⟨-, hcarried⟩ := scan_single pattern b
    rw [← ih, singles, map_cons, cons_append, Admits]
    simp only [nil_append, length_singleton, hcarried]
    simp [singles]

theorem flatten_singles (text : List Byte) : (singles text).flatten = text := by
  induction text with
  | nil => rfl
  | cons b text ih => rw [singles, map_cons, flatten_cons, ← singles, ih, singleton_append]

theorem length_lines (text : List Byte) : (lines text).length = text.count newline := by
  induction text with
  | nil => rfl
  | cons b text ih =>
    rw [lines, count_cons, ← ih]
    by_cases hb : b = newline
    · simp [hb]
    · rw [if_neg hb]
      cases lines text <;> simp [hb]

theorem exists_of_mem_lines (h : line ∈ lines text) :
    newline ∉ line ∧ ∃ before after, text = before ++ (line ++ newline :: after) := by
  induction hn : text.length using Nat.strong_induction_on generalizing text with
  | _ n ih =>
    by_cases hmem : newline ∈ text
    · obtain ⟨first, rest, rfl, hfirst⟩ := eq_append_cons_of_mem hmem
      rw [lines_append_newline hfirst, mem_cons] at h
      obtain rfl | h := h
      · exact ⟨hfirst, [], rest, rfl⟩
      · have hlt : rest.length < n := by
          rw [← hn, length_append, length_cons]
          omega
        obtain ⟨hline, before, after, hrest⟩ := ih _ hlt h rfl
        refine ⟨hline, first ++ newline :: before, after, ?_⟩
        rw [append_assoc, cons_append, ← hrest]
    · rw [lines_of_notMem hmem] at h
      cases h

theorem scan_line (pattern : List Byte) (hline : newline ∉ line) (hnul : 0 ∉ line) :
    scan pattern (line ++ [newline]).length (line ++ [newline]) = (matching pattern [line], []) := by
  rw [length_append, length_singleton, scan_append_newline pattern [] hline hnul,
    scan_of_notMem not_mem_nil, append_nil]

theorem carried_nil (text : List Byte) : carried text [] = [] := ite_self []

-- Every way to read the stream gives the lines that match.
def Right (pattern stream : List Byte) : Prop :=
  ∀ reads, Admits pattern [] reads → reads.flatten = stream →
    grep pattern [] reads = matching pattern (lines stream)

variable {stream : List Byte}

theorem Right.alone (h : Right pattern stream) :
    blanks pattern (stream.count newline) = matching pattern (lines stream) := by
  have hall := h (singles stream ++ []) ((admits_singles _ _ _).mpr trivial) (by rw [append_nil, flatten_singles])
  rwa [grep_singles, grep, append_nil] at hall

-- The end of a line is read at once, and every other byte alone.
theorem Right.suffix (h : Right pattern stream) (hnul : 0 ∉ stream) (hline : line ∈ lines stream)
    (hrest : rest <:+ line) (hshort : rest.length + 1 < sizeofBuf) :
    matching pattern [rest] = matching pattern [[]] := by
  have hall := h.alone
  obtain ⟨hfree, before, after, rfl⟩ := exists_of_mem_lines hline
  obtain ⟨lost, rfl⟩ := hrest
  have hrestfree : newline ∉ rest := fun hmem => hfree (mem_append_right lost hmem)
  have hlostfree : newline ∉ lost := fun hmem => hfree (mem_append_left rest hmem)
  have hrestnul : 0 ∉ rest := fun hmem =>
    hnul (mem_append_right _ (mem_append_left _ (mem_append_right _ hmem)))
  have hscan := scan_line pattern hrestfree hrestnul
  have hread := h (singles (before ++ lost) ++ (rest ++ [newline]) :: (singles after ++ []))
  rw [admits_singles, Admits, grep_singles, grep] at hread
  simp only [nil_append, hscan, carried_nil, admits_singles, grep_singles] at hread
  have hcount : (before ++ (lost ++ rest ++ newline :: after)).count newline =
      (before ++ lost).count newline + (1 + after.count newline) := by
    simp only [count_append, count_cons_self, count_eq_zero_of_not_mem hrestfree]
    omega
  have hfits : (rest ++ [newline]).length ≤ sizeofBuf - ([] : List Byte).length - 1 := by
    rw [length_append, length_singleton, length_nil]
    omega
  have hout := hread ⟨by simp, hfits, trivial⟩ (by simp [flatten_singles])
  rw [← hall, hcount, blanks_add, blanks_add, grep, append_nil] at hout
  have hone : blanks pattern 1 = matching pattern [[]] := by simp [blanks]
  rw [← hone]
  exact append_cancel_right (append_cancel_left hout)

theorem mem_matching {b : Byte} (hline : line ∈ ls) (hmatch : matchtext pattern line = true)
    (hb : b ∈ line ++ [newline]) : b ∈ matching pattern ls :=
  List.mem_flatMap.mpr ⟨line, List.mem_filter.mpr ⟨hline, hmatch⟩, hb⟩

theorem matchtext_of_matching (hnone : matching pattern ls = []) (hline : line ∈ ls) :
    matchtext pattern line = false := by
  by_contra hmatch
  have hmem := mem_matching hline (Bool.eq_true_of_not_eq_false hmatch)
    (mem_append_right line (mem_singleton_self newline))
  rw [hnone] at hmem
  cases hmem

-- If the empty line matched, then every line would have to match and be empty.
theorem Right.nil (h : Right pattern stream) (hline : line ∈ lines stream) (hne : line ≠ []) :
    matchtext pattern [] = false := by
  by_contra hmatch
  have hone : matching pattern [[]] = [newline] := by
    simp [matching, Bool.eq_true_of_not_eq_false hmatch]
  have hall : List.replicate (lines stream).length newline = matching pattern (lines stream) := by
    rw [← h.alone, blanks, hone, length_lines, flatten_replicate_singleton]
  have hempty : ∀ line ∈ lines stream, matchtext pattern line = true → line = [] := by
    intro line hline hmatch
    apply eq_nil_iff_forall_not_mem.mpr
    intro b hb
    have hmem := mem_matching hline hmatch (mem_append_left _ hb)
    rw [← hall] at hmem
    rw [eq_of_mem_replicate hmem] at hb
    exact (exists_of_mem_lines hline).1 hb
  have hlength : (matching pattern (lines stream)).length = ((lines stream).filter (matchtext pattern)).length := by
    have hfilter := eq_replicate_of_mem fun line hline =>
      hempty line (mem_filter.mp hline).1 (mem_filter.mp hline).2
    rw [matching, hfilter]
    simp
  rw [← hall, length_replicate, eq_comm, length_filter_eq_length_iff] at hlength
  exact hne (hempty line hline (hlength line hline))

theorem Right.unmatched (h : Right pattern stream) (hnul : 0 ∉ stream)
    (hshort : ∀ line ∈ lines stream, line.length < sizeofBuf) : Unmatched pattern (lines stream) := by
  intro line hline hne rest hrest
  have hempty := h.nil hline hne
  by_cases hsame : rest = line
  · have hnone : matching pattern (lines stream) = [] := by
      rw [← h.alone, blanks, matching_of_false hempty]
      simp
    rw [hsame]
    exact matchtext_of_matching hnone hline
  · have hlt : rest.length < line.length := by
      apply lt_of_le_of_ne hrest.length_le
      intro hlength
      exact hsame (hrest.eq_of_length hlength)
    have hblank := h.suffix hnul hline hrest (by have := hshort line hline; omega)
    rw [matching_of_false hempty] at hblank
    exact matchtext_of_matching hblank (mem_singleton_self rest)

theorem grep_iff (pattern stream : List Byte) (hnul : 0 ∉ stream)
    (hshort : ∀ line ∈ lines stream, line.length < sizeofBuf) :
    ((∀ reads, Admits pattern [] reads → reads.flatten = stream →
        grep pattern [] reads = matching pattern (lines stream)) ↔
      ∀ line ∈ lines stream, line ≠ [] → ∀ rest, rest <:+ line → matchtext pattern rest = false) ∧
    ∀ reads, Admits pattern [] reads → reads.flatten = stream → (∀ chunk ∈ reads.dropLast, newline ∈ chunk) →
      grep pattern [] reads = matching pattern (lines stream) := by
  refine ⟨⟨fun h => Right.unmatched h hnul hshort, ?_⟩, ?_⟩
  · rintro h reads - rfl
    exact grep_of_carried not_mem_nil not_mem_nil hnul (.inl h)
  · rintro reads - rfl hchunks
    exact grep_of_carried not_mem_nil not_mem_nil hnul (.inr ⟨rfl, hchunks⟩)

-- The pattern bc and the line ab.
theorem grep_iff_line :
    (∀ line ∈ lines [97, 98, newline], line.length < sizeofBuf) ∧
      ∀ reads, Admits [98, 99] [] reads → reads.flatten = [97, 98, newline] →
        grep [98, 99] [] reads = matching [98, 99] (lines [97, 98, newline]) := by
  have hends : ∀ line ∈ lines [97, 98, newline], ∀ rest ∈ line.tails, matchtext [98, 99] rest = false := by
    decide
  refine ⟨by decide, (grep_iff [98, 99] [97, 98, newline] (by decide) (by decide)).1.mpr ?_⟩
  intro line hline _ rest hrest
  exact hends line hline rest ((mem_tails rest line).mpr hrest)

-- The pattern a and the line ab, of which the first read stores the a only.
theorem grep_loses :
    Admits [97] [] [[97], [98, newline]] ∧ [[97], [98, newline]].flatten = [97, 98, newline] ∧
      grep [97] [] [[97], [98, newline]] = [] ∧ matching [97] (lines [97, 98, newline]) = [97, 98, newline] :=
  ⟨⟨by decide, by decide, by decide, by decide, trivial⟩, rfl, by decide, by decide⟩

end Xv6.Grep
