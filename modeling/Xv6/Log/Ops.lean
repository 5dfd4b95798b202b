import Xv6.Log

namespace Xv6

open Function

namespace LogPlace

variable {place : LogPlace}

-- The header block on the disk may hold the transaction.
def headed : LogPlace → Bool
  | .committing .installTrans | .committing .clear | .committing .eraseHead => true
  | _ => false

-- The commit has been made.
def done : LogPlace → Bool
  | .committing .installTrans | .committing .clear | .committing .eraseHead | .committed => true
  | _ => false

-- The header in memory has been emptied.
def cleared : LogPlace → Bool
  | .committing .eraseHead | .committed => true
  | _ => false

theorem inCommit_of_done (h : place.done) : place.inCommit := by
  cases place with
  | committing stage | committed => rfl
  | idle | beginOp | op number | logWrite number block | commit => cases h

theorem done_of_headed (h : place.headed) : place.done := by
  cases place with
  | committing stage => cases stage <;> first | rfl | cases h
  | idle | beginOp | op number | logWrite number block | commit | committed => cases h

theorem done_of_cleared (h : place.cleared) : place.done := by
  cases place with
  | committing stage => cases stage <;> first | rfl | cases h
  | committed => rfl
  | idle | beginOp | op number | logWrite number block | commit => cases h

end LogPlace

variable {choice : LogChoice} {panic : LogPanic}

namespace Journal

variable {Process : Type} {journal next : Journal} {before after : LogPlace}

-- The turns of a process, one for each way through the critical sections and for each call
-- of commit.
inductive Moves (journal : Journal) : LogPlace → Journal → LogPlace → Prop
  | waits (before : LogPlace) (hop : before.inOp = none) (hcommit : before.inCommit = false) :
      Moves journal before journal .beginOp
  | begins (before : LogPlace) (hop : before.inOp = none) (hcommit : before.inCommit = false)
      (hcommitting : journal.log.committing = false)
      (hspace : journal.log.lh.n + (journal.log.outstanding + 1) * MAXOPBLOCKS ≤ LOGSIZE) :
      Moves journal before
        { journal with
          log := { journal.log with outstanding := journal.log.outstanding + 1 }
          ops := journal.ops + 1 }
        (.op journal.ops)
  | checks (number : Nat) (block : Word) : Moves journal (.op number) journal (.logWrite number block)
  | writes (number : Nat) (block : Word) (lh : Logheader) (hmem : block ∈ lh.block)
      (hkeeps : ∀ old ∈ journal.log.lh.block, old ∈ lh.block) :
      Moves journal (.logWrite number block)
        { journal with
          log := { journal.log with lh }
          logged := ⟨number, block, journal.commits.length⟩ :: journal.logged }
        (.op number)
  | ends (number : Nat) (hcommitting : journal.log.committing = false) :
      Moves journal (.op number)
        { journal with log := { journal.log with outstanding := journal.log.outstanding - 1 } } .idle
  | commits (number : Nat) (hlast : journal.log.outstanding - 1 = 0) :
      Moves journal (.op number)
        { journal with log := { journal.log with outstanding := journal.log.outstanding - 1, committing := true } }
        .commit
  | skips (hempty : journal.log.lh.block = []) :
      Moves journal .commit { journal with commits := journal.commits ++ [[]] } .committed
  | starts : Moves journal .commit journal (.committing .writeLog)
  | writeLog : Moves journal (.committing .writeLog) journal (.committing .writeHead)
  | writeHead :
      Moves journal (.committing .writeHead)
        { journal with header := journal.log.lh.block, commits := journal.commits ++ [journal.log.lh.block] }
        (.committing .installTrans)
  | installTrans : Moves journal (.committing .installTrans) journal (.committing .clear)
  | clear : Moves journal (.committing .clear) { journal with log := journal.log.clear } (.committing .eraseHead)
  | eraseHead : Moves journal (.committing .eraseHead) { journal with header := journal.log.lh.block } .committed
  | finishes : Moves journal .committed { journal with log := { journal.log with committing := false } } .idle

variable {turn : Turn Journal LogPlace Unit} {number : Nat}

theorem beginOp_moves (hop : before.inOp = none) (hcommit : before.inCommit = false)
    (h : journal.beginOp = some (.turn turn)) : Moves journal before turn.data turn.place := by
  unfold beginOp Log.beginOp at h
  split_ifs at h with hcommitting hspace
  · cases h
    exact .waits before hop hcommit
  · cases h
    exact .waits before hop hcommit
  · cases h
    exact .begins before hop hcommit (by simpa using hcommitting) (not_lt.mp hspace)

theorem logWrite_moves {block : Word} (h : journal.logWrite number block = some (.turn turn)) :
    Moves journal (.logWrite number block) turn.data turn.place := by
  unfold logWrite Log.logWrite at h
  split_ifs at h with hmem hroom
  · cases h
    exact .writes number block journal.log.lh hmem fun _ hold => hold
  · cases h
    exact .writes number block ⟨_, _⟩ (by simp) fun _ hold => List.mem_append_left _ hold
  · cases h

theorem endOp_moves (h : journal.endOp = some (.turn turn)) : Moves journal (.op number) turn.data turn.place := by
  unfold endOp Log.endOp at h
  split_ifs at h with hcommitting hlast
  · cases h
  · cases h
    exact .commits number hlast
  · cases h
    exact .ends number (by simpa using hcommitting)

theorem turn_moves (h : journal.turn choice before = some (.turn turn)) :
    Moves journal before turn.data turn.place := by
  unfold Journal.turn at h
  split at h
  · exact beginOp_moves rfl rfl h
  · exact beginOp_moves rfl rfl h
  · unfold logWriteCheck at h
    split at h
    · cases h
    · cases h
      exact .checks _ _
  · exact logWrite_moves h
  · exact endOp_moves h
  · unfold commit at h
    split_ifs at h with hn
    · cases h
      exact .starts
    · cases h
      exact .skips (by simpa [Logheader.n] using hn)
  · rename_i stage
    cases stage <;> cases h
    · exact .writeLog
    · exact .writeHead
    · exact .installTrans
    · exact .clear
    · exact .eraseHead
  · cases h
    exact .finishes
  · cases h

theorem Moves.quiet (h : Moves journal before next after) (hop : before.inOp = none)
    (hflag : journal.log.committing = true) : next.logged = journal.logged ∧ after.inOp = none := by
  cases h with
  | begins _ _ _ hcommitting => simp [hflag] at hcommitting
  | checks | writes | ends | commits => cases hop
  | waits | skips | starts | writeLog | writeHead | installTrans | clear | eraseHead | finishes => exact ⟨rfl, rfl⟩

theorem Moves.enters (h : Moves journal before next after) (hbefore : before.inOp = none) (hafter : after.inOp ≠ none) :
    journal.log.committing = false ∧
      journal.log.lh.n + (journal.log.outstanding + 1) * MAXOPBLOCKS ≤ LOGSIZE ∧
      next.log.outstanding = journal.log.outstanding + 1 := by
  cases h with
  | begins _ _ _ hcommitting hspace => exact ⟨hcommitting, hspace, rfl⟩
  | checks | writes | ends | commits => cases hbefore
  | waits | skips | starts | writeLog | writeHead | installTrans | clear | eraseHead | finishes =>
    exact absurd rfl hafter

-- The flag and the counter say where the processes are.
structure Control (journal : Journal) (place : Process → LogPlace) : Prop where
  outstanding : Monitor.Count place (fun place => place.inOp.isSome) journal.log.outstanding
  committing (process : Process) (h : (place process).inCommit) : journal.log.committing = true
  quiet (h : journal.log.committing = true) : journal.log.outstanding = 0
  alone (first second : Process) (hfirst : (place first).inCommit) (hsecond : (place second).inCommit) :
    first = second

namespace Control

variable {place : Process → LogPlace}

theorem not_inOp (h : journal.Control place) {committer : Process} (hcommitter : (place committer).inCommit)
    (process : Process) : (place process).inOp = none := by
  have hnone := (h.quiet (h.committing committer hcommitter) ▸ h.outstanding).zero process
  simpa using hnone

theorem not_committing (h : journal.Control place) {process : Process} (hop : (place process).inOp.isSome) :
    journal.log.committing = false := by
  by_contra hcommitting
  have hzero := h.quiet (by simpa using hcommitting)
  have hpos := h.outstanding.pos hop
  omega

theorem start (h : journal.Starts place) : journal.Control place where
  outstanding := ⟨∅, by simp [h.outstanding], by simp [h.place, LogPlace.inOp]⟩
  committing process hin := by simp [h.place, LogPlace.inCommit] at hin
  quiet hcommitting := by simp [h.committing] at hcommitting
  alone first _ hfirst := by simp [h.place, LogPlace.inCommit] at hfirst

variable [DecidableEq Process] {process : Process}

variable (h : journal.Control place)

include h

-- A turn that starts no commit and ends none, and leaves the flag as it is.
theorem keep
    (houtstanding : Monitor.Count (update place process after) (fun place => place.inOp.isSome) next.log.outstanding)
    (hcommit : after.inCommit = (place process).inCommit) (hflag : next.log.committing = journal.log.committing)
    (hquiet : journal.log.committing = true → next.log.outstanding = journal.log.outstanding) :
    next.Control (update place process after) := by
  have hin : ∀ other, (update place process after other).inCommit → (place other).inCommit := by
    intro other hother
    exact Monitor.of_update (fun place : LogPlace => place.inCommit) (by simp [hcommit]) hother
  refine ⟨houtstanding, ?_, ?_, ?_⟩
  · intro other hother
    rw [hflag]
    exact h.committing other (hin other hother)
  · intro hcommitting
    rw [hflag] at hcommitting
    rw [hquiet hcommitting]
    exact h.quiet hcommitting
  · intro first second hfirst hsecond
    exact h.alone first second (hin first hfirst) (hin second hsecond)

-- In commit and in log_write the counter and the flag stay.
theorem move (hlog : next.log.outstanding = journal.log.outstanding)
    (hflag : next.log.committing = journal.log.committing)
    (hop : after.inOp.isSome = (place process).inOp.isSome) (hcommit : after.inCommit = (place process).inCommit) :
    next.Control (update place process after) :=
  h.keep (hlog ▸ h.outstanding.stay (by rw [hop])) hcommit hflag fun _ => hlog

theorem step (hmoves : Moves journal (place process) next after) : next.Control (update place process after) := by
  generalize hbefore : place process = before at hmoves
  cases hmoves with
  | waits _ hop hcommit => exact h.move rfl rfl (by rw [hbefore, hop]; rfl) (by rw [hbefore, hcommit]; rfl)
  | begins _ hop hcommit hcommitting =>
    refine h.keep (h.outstanding.enter (by simp [hbefore, hop]) rfl) (by rw [hbefore, hcommit]; rfl) rfl ?_
    intro hflag
    simp [hcommitting] at hflag
  | checks number block
  | writes number block lh => exact h.move rfl rfl (by rw [hbefore]; rfl) (by rw [hbefore]; rfl)
  | ends number hcommitting =>
    refine h.keep (h.outstanding.leave (by simp [hbefore, LogPlace.inOp]) (by simp [LogPlace.inOp]))
      (by rw [hbefore]; rfl) rfl ?_
    intro hflag
    simp [hcommitting] at hflag
  | commits number hlast =>
    have hop : (place process).inOp.isSome := by rw [hbefore]; rfl
    have hother : ∀ other, (update place process .commit other).inCommit → other = process := by
      intro other hother
      by_contra hne
      rw [update_of_ne hne] at hother
      simp [h.not_inOp hother process] at hop
    exact ⟨h.outstanding.leave hop (by simp [LogPlace.inOp]), fun _ _ => rfl, fun _ => hlast,
      fun first second hfirst hsecond => (hother first hfirst).trans (hother second hsecond).symm⟩
  | finishes =>
    have hin : (place process).inCommit := by rw [hbefore]; rfl
    have hnone : ∀ other, ¬ (update place process .idle other).inCommit := by
      intro other hother
      by_cases hne : other = process
      · subst hne
        simp [LogPlace.inCommit] at hother
      · rw [update_of_ne hne] at hother
        exact hne (h.alone other process hother hin)
    refine ⟨h.outstanding.stay (by simp [hbefore, LogPlace.inOp]), ?_, ?_, ?_⟩
    · intro other hother
      exact absurd hother (hnone other)
    · intro hflag
      cases hflag
    · intro first _ hfirst
      exact absurd hfirst (hnone first)
  | skips | starts | writeLog | writeHead | installTrans | clear | eraseHead =>
    exact h.move rfl rfl (by rw [hbefore]; rfl) (by rw [hbefore]; rfl)

end Control

-- A block that was logged is in the commit of its operation, or in the header as long as
-- this commit is still to come.
structure History (journal : Journal) (place : Process → LogPlace) : Prop where
  kept (entry : Logged) (h : entry ∈ journal.logged) :
    (∃ blocks, journal.commits[entry.commit]? = some blocks ∧ entry.block ∈ blocks) ∨
      (entry.commit = journal.commits.length ∧ entry.block ∈ journal.log.lh.block)
  single (first second : Logged) (hfirst : first ∈ journal.logged) (hsecond : second ∈ journal.logged)
    (h : first.op = second.op) : first.commit = second.commit
  known (entry : Logged) (h : entry ∈ journal.logged) : entry.op < journal.ops
  current (process : Process) (number : Nat) (h : (place process).inOp = some number) :
    number < journal.ops ∧ ∀ entry ∈ journal.logged, entry.op = number → entry.commit = journal.commits.length
  done (process : Process) (h : (place process).done) :
    ∀ entry ∈ journal.logged, entry.commit < journal.commits.length
  cleared (process : Process) (h : (place process).cleared) : journal.log.lh.block = []
  header : journal.header = [] ∨ ∃ process, (place process).headed

namespace History

variable {place : Process → LogPlace}

theorem start (h : journal.Starts place) : journal.History place where
  kept entry hentry := by simp [h.logged] at hentry
  single first second hfirst := by simp [h.logged] at hfirst
  known entry hentry := by simp [h.logged] at hentry
  current process number hop := by simp [h.place, LogPlace.inOp] at hop
  done process hdone := by simp [h.place, LogPlace.done] at hdone
  cleared process hcleared := by simp [h.place, LogPlace.cleared] at hcleared
  header := .inl h.header

variable [DecidableEq Process] {process : Process}

variable (h : journal.History place)

include h

theorem headed (hheaded : (place process).headed → after.headed) :
    journal.header = [] ∨ ∃ other, (update place process after other).headed := by
  rcases h.header with hempty | ⟨other, hother⟩
  · exact .inl hempty
  · refine .inr ⟨other, ?_⟩
    by_cases hne : other = process
    · subst hne
      rw [update_self]
      exact hheaded hother
    · rwa [update_of_ne hne]

-- A turn that touches none of this, by a process that is no further in its commit.
theorem move (hlh : next.log.lh = journal.log.lh)
    (hheader : next.header = journal.header) (hcommits : next.commits = journal.commits) (hops : next.ops = journal.ops)
    (hlogged : next.logged = journal.logged) (hop : after.inOp = none ∨ after.inOp = (place process).inOp)
    (hdone : after.done → (place process).done) (hcleared : after.cleared → (place process).cleared)
    (hheaded : (place process).headed → after.headed) : next.History (update place process after) where
  kept := by rw [hlogged, hcommits, hlh]; exact h.kept
  single := by rw [hlogged]; exact h.single
  known := by rw [hlogged, hops]; exact h.known
  current other number hother := by
    rw [hlogged, hcommits, hops]
    refine h.current other number ?_
    refine Monitor.of_update (fun place : LogPlace => place.inOp = some number) ?_ hother
    rcases hop with hop | hop <;> simp [hop]
  done other hother := by
    rw [hlogged, hcommits]
    exact h.done other (Monitor.of_update (fun place : LogPlace => place.done) hdone hother)
  cleared other hother := by
    rw [hlh]
    exact h.cleared other (Monitor.of_update (fun place : LogPlace => place.cleared) hcleared hother)
  header := by rw [hheader]; exact h.headed hheaded

-- The turn that makes the commit: nobody is in an operation, so that all of them are in it.
theorem commit (hcontrol : journal.Control place) (hin : (place process).inCommit)
    (hlog : next.log = journal.log) (hcommits : next.commits = journal.commits ++ [journal.log.lh.block])
    (hops : next.ops = journal.ops) (hlogged : next.logged = journal.logged) (hop : after.inOp = none)
    (hcleared : after.cleared → journal.log.lh.block = [])
    (hheader : next.header = [] ∨ ∃ other, (update place process after other).headed) :
    next.History (update place process after) := by
  have hlast : ∀ entry ∈ journal.logged, entry.commit < journal.commits.length + 1 := by
    intro entry hentry
    rcases h.kept entry hentry with ⟨blocks, hblocks, -⟩ | ⟨hcommit, -⟩
    · have hlt := (List.getElem?_eq_some_iff.mp hblocks).1
      omega
    · omega
  refine ⟨?_, hlogged ▸ h.single, by rw [hlogged, hops]; exact h.known, ?_, ?_, ?_, hheader⟩
  · rw [hlogged, hcommits]
    intro entry hentry
    refine .inl ?_
    rcases h.kept entry hentry with ⟨blocks, hblocks, hmem⟩ | ⟨hcommit, hmem⟩
    · have hlt := (List.getElem?_eq_some_iff.mp hblocks).1
      exact ⟨blocks, by rw [List.getElem?_append_left hlt, hblocks], hmem⟩
    · exact ⟨journal.log.lh.block, by simp [hcommit], hmem⟩
  · intro other number hother
    have hnone := hcontrol.not_inOp hin other
    have hstill := Monitor.of_update (fun place : LogPlace => place.inOp = some number) (by simp [hop]) hother
    simp [hnone] at hstill
  · rw [hlogged, hcommits, List.length_append, List.length_singleton]
    exact fun _ _ => hlast
  · intro other hother
    rw [hlog]
    by_cases hne : other = process
    · subst hne
      rw [update_self] at hother
      exact hcleared hother
    · rw [update_of_ne hne] at hother
      exact h.cleared other hother

theorem begin (hnot : (place process).inCommit = false) :
    { journal with
      log := { journal.log with outstanding := journal.log.outstanding + 1 }
      ops := journal.ops + 1 }.History (update place process (.op journal.ops)) where
  kept := h.kept
  single := h.single
  known entry hentry := Nat.lt_succ_of_lt (h.known entry hentry)
  current other number hother := by
    by_cases hne : other = process
    · -- Its number is fresh: it has logged nothing yet.
      subst hne
      rw [update_self] at hother
      cases hother
      refine ⟨Nat.lt_succ_self _, fun entry hentry hop => ?_⟩
      have hlt := h.known entry hentry
      omega
    · rw [update_of_ne hne] at hother
      obtain ⟨hlt, hcommit⟩ := h.current other number hother
      exact ⟨Nat.lt_succ_of_lt hlt, hcommit⟩
  done other hother :=
    h.done other (Monitor.of_update (fun place : LogPlace => place.done) (by simp [LogPlace.done]) hother)
  cleared other hother :=
    h.cleared other (Monitor.of_update (fun place : LogPlace => place.cleared) (by simp [LogPlace.cleared]) hother)
  header := h.headed fun hheaded => by simp [LogPlace.inCommit_of_done (LogPlace.done_of_headed hheaded)] at hnot

theorem write (hcontrol : journal.Control place) {block : Word}
    (hplace : place process = .logWrite number block) {lh : Logheader} (hmem : block ∈ lh.block)
    (hkeeps : ∀ old ∈ journal.log.lh.block, old ∈ lh.block) :
    { journal with
      log := { journal.log with lh }
      logged := ⟨number, block, journal.commits.length⟩ :: journal.logged }.History
        (update place process (.op number)) := by
  obtain ⟨hnumber, hown⟩ := h.current process number (by rw [hplace]; rfl)
  -- It is in an operation, so nobody is in a commit.
  have hnobody : ∀ other, ¬ (update place process (.op number) other).inCommit := by
    intro other hother
    have hin := Monitor.of_update (fun place : LogPlace => place.inCommit) (by simp [LogPlace.inCommit]) hother
    have hnone := hcontrol.not_inOp hin process
    simp [hplace, LogPlace.inOp] at hnone
  refine ⟨?_, ?_, ?_, ?_, ?_, ?_, h.headed (by simp [hplace, LogPlace.headed])⟩
  · intro entry hentry
    rcases List.mem_cons.mp hentry with rfl | hentry
    · exact .inr ⟨rfl, hmem⟩
    · rcases h.kept entry hentry with hpast | ⟨hcommit, hblock⟩
      · exact .inl hpast
      · exact .inr ⟨hcommit, hkeeps _ hblock⟩
  · intro first second hfirst hsecond hop
    rcases List.mem_cons.mp hfirst with rfl | hfirst <;> rcases List.mem_cons.mp hsecond with rfl | hsecond
    · rfl
    · exact (hown second hsecond hop.symm).symm
    · exact hown first hfirst hop
    · exact h.single first second hfirst hsecond hop
  · intro entry hentry
    rcases List.mem_cons.mp hentry with rfl | hentry
    · exact hnumber
    · exact h.known entry hentry
  · intro other value hother
    have hstill : (place other).inOp = some value :=
      Monitor.of_update (fun place : LogPlace => place.inOp = some value) (by simp [hplace, LogPlace.inOp]) hother
    obtain ⟨hlt, hcommit⟩ := h.current other value hstill
    refine ⟨hlt, fun entry hentry hop => ?_⟩
    rcases List.mem_cons.mp hentry with rfl | hentry
    · rfl
    · exact hcommit entry hentry hop
  · exact fun other hother => absurd (LogPlace.inCommit_of_done hother) (hnobody other)
  · exact fun other hother => absurd (LogPlace.inCommit_of_done (LogPlace.done_of_cleared hother)) (hnobody other)

theorem step (hcontrol : journal.Control place)
    (hmoves : Moves journal (place process) next after) : next.History (update place process after) := by
  generalize hbefore : place process = before at hmoves
  cases hmoves with
  | waits _ hop hcommit =>
    refine h.move rfl rfl rfl rfl rfl (.inl rfl) (by simp [LogPlace.done]) (by simp [LogPlace.cleared]) ?_
    intro hheaded
    simp [hbefore ▸ LogPlace.inCommit_of_done (LogPlace.done_of_headed hheaded)] at hcommit
  | begins _ hop hcommit => exact h.begin (hbefore ▸ hcommit)
  | writes number block lh hmem hkeeps => exact h.write hcontrol hbefore hmem hkeeps
  | skips hempty =>
    refine h.commit hcontrol (by rw [hbefore]; rfl) rfl (by rw [hempty]) rfl rfl rfl (fun _ => hempty) ?_
    exact h.headed (by simp [hbefore, LogPlace.headed])
  | writeHead =>
    refine h.commit hcontrol (by rw [hbefore]; rfl) rfl rfl rfl rfl rfl (by simp [LogPlace.cleared]) ?_
    exact .inr ⟨process, by rw [update_self]; rfl⟩
  | clear =>
    have hdone := h.done process (by rw [hbefore]; rfl)
    refine ⟨?_, h.single, h.known, ?_, ?_, fun _ _ => rfl, h.headed fun _ => rfl⟩
    · intro entry hentry
      rcases h.kept entry hentry with hpast | ⟨hcommit, -⟩
      · exact .inl hpast
      · have hlt := hdone entry hentry
        omega
    · intro other number hother
      exact h.current other number
        (Monitor.of_update (fun place : LogPlace => place.inOp = some number) (by simp [LogPlace.inOp]) hother)
    · exact fun _ _ => hdone
  | eraseHead =>
    have hempty := h.cleared process (by rw [hbefore]; rfl)
    refine ⟨h.kept, h.single, h.known, ?_, ?_, fun _ _ => hempty, .inl hempty⟩
    · intro other number hother
      exact h.current other number
        (Monitor.of_update (fun place : LogPlace => place.inOp = some number) (by simp [LogPlace.inOp]) hother)
    · exact fun _ _ => h.done process (by rw [hbefore]; rfl)
  | checks | ends | commits | starts | writeLog | installTrans | finishes =>
    refine h.move rfl rfl rfl rfl rfl ?_ ?_ ?_ ?_ <;>
      simp [hbefore, LogPlace.inOp, LogPlace.done, LogPlace.cleared, LogPlace.headed]

end History

-- Where log_write and end_op panic.
theorem turn_panic (h : journal.turn choice before = some (.panic panic)) :
    before.inOp.isSome ∧ (journal.log.logWriteCheck = some panic ∨
      panic = .committing ∧ journal.log.committing = true) ∨ panic = .overrun := by
  unfold Journal.turn at h
  split at h
  · unfold beginOp at h
    split at h <;> cases h
  · unfold beginOp at h
    split at h <;> cases h
  · unfold logWriteCheck at h
    split at h
    · rename_i hcheck
      cases h
      exact .inl ⟨rfl, .inl hcheck⟩
    · cases h
  · unfold logWrite Log.logWrite at h
    split_ifs at h <;> cases h
    exact .inr rfl
  · unfold endOp Log.endOp at h
    split_ifs at h with hcommitting <;> cases h
    exact .inl ⟨rfl, .inr ⟨rfl, hcommitting⟩⟩
  · unfold commit at h
    split_ifs at h <;> cases h
  · rename_i stage
    cases stage <;> cases h
  · cases h
  · cases h

end Journal

section Serial

variable {Process : Type} [DecidableEq Process] {state : Monitor.State Process Journal LogPlace Unit LogPanic}

theorem logging_invariant (h : (logging Process).Reaches Journal.Starts state) :
    state.data.Control state.place ∧ state.data.History state.place := by
  refine h.invariant (fun journal place => journal.Control place ∧ journal.History place) ?_ ?_ ?_
  · intro journal place hstart
    exact ⟨.start hstart, .start hstart⟩
  · intro journal place process choice turn hholds hturn
    have hmoves := Journal.turn_moves hturn
    exact ⟨hholds.1.step hmoves, hholds.2.step hholds.1 hmoves⟩
  · intro _ _ event
    exact event.elim

-- A process is in an operation from the return of its begin_op to its end_op, and in a commit
-- from the moment end_op decides on it to the moment the flag is cleared.
structure Serial (state : Monitor.State Process Journal LogPlace Unit LogPanic) : Prop where
  starts (process : Process) (choice : LogChoice) (next : Monitor.State Process Journal LogPlace Unit LogPanic)
    (hstep : (logging Process).step state (.turn process choice) = some next)
    (hbefore : (state.place process).inCommit = false) (hafter : (next.place process).inCommit) :
    next.data.log.outstanding = 0 ∧ ∀ other, (next.place other).inOp = none
  excludes (committer : Process) (hcommit : (state.place committer).inCommit)
    (label : Monitor.Label Process LogChoice Empty) (next : Monitor.State Process Journal LogPlace Unit LogPanic)
    (hstep : (logging Process).step state label = some next) :
    next.data.logged = state.data.logged ∧ ∀ process, (next.place process).inOp = none
  clears (process : Process) (h : state.place process = .committed) :
    state.data.log.lh.block = [] ∧ state.data.header = []
  single (number : Nat) : ∃ commit, ∀ entry ∈ state.data.logged, entry.op = number →
    entry.commit = commit ∧
      ((∃ blocks, state.data.commits[commit]? = some blocks ∧ entry.block ∈ blocks) ∨
        (commit = state.data.commits.length ∧ entry.block ∈ state.data.log.lh.block))
  panics : state.panic ≠ some .committing ∧ state.panic ≠ some .outside

section Reached

variable (h : (logging Process).Reaches Journal.Starts state)

include h

variable {next : Monitor.State Process Journal LogPlace Unit LogPanic}

theorem logging_starts {process : Process} (hstep : (logging Process).step state (.turn process choice) = some next)
    (hafter : (next.place process).inCommit) :
    next.data.log.outstanding = 0 ∧ ∀ other, (next.place other).inOp = none := by
  have hcontrol := (logging_invariant (h.step _ _ _ trivial hstep)).1
  exact ⟨hcontrol.quiet (hcontrol.committing process hafter), hcontrol.not_inOp hafter⟩

theorem logging_excludes {committer : Process} (hcommit : (state.place committer).inCommit)
    {label : Monitor.Label Process LogChoice Empty} (hstep : (logging Process).step state label = some next) :
    next.data.logged = state.data.logged ∧ ∀ process, (next.place process).inOp = none := by
  have hcontrol := (logging_invariant h).1
  have hnone := hcontrol.not_inOp hcommit
  cases Monitor.step_moves hstep with
  | turn process choice turn hturn hdata hplace =>
    have hquiet := (Journal.turn_moves hturn).quiet (hnone process) (hcontrol.committing committer hcommit)
    refine ⟨by rw [hdata, hquiet.1], fun other => ?_⟩
    rw [hplace]
    by_cases hother : other = process
    · rw [hother, update_self, hquiet.2]
    · rw [update_of_ne hother, hnone]
  | event event => exact event.elim
  | rouse process hdata hplace
  | panic label panic hcause hdata hplace => exact ⟨by rw [hdata], fun other => by rw [hplace, hnone]⟩

theorem logging_clears {process : Process}
    (hcommitted : state.place process = .committed) : state.data.log.lh.block = [] ∧ state.data.header = [] := by
  obtain ⟨hcontrol, hhistory⟩ := logging_invariant h
  refine ⟨hhistory.cleared process (by rw [hcommitted]; rfl), ?_⟩
  rcases hhistory.header with hempty | ⟨other, hheaded⟩
  · exact hempty
  · -- Only the process that commits could have the header on the disk, and it is past that.
    have hother := hcontrol.alone other process (LogPlace.inCommit_of_done (LogPlace.done_of_headed hheaded))
      (by rw [hcommitted]; rfl)
    rw [hother, hcommitted] at hheaded
    cases hheaded

theorem logging_single (number : Nat) :
    ∃ commit, ∀ entry ∈ state.data.logged, entry.op = number →
      entry.commit = commit ∧
        ((∃ blocks, state.data.commits[commit]? = some blocks ∧ entry.block ∈ blocks) ∨
          (commit = state.data.commits.length ∧ entry.block ∈ state.data.log.lh.block)) := by
  have hhistory := (logging_invariant h).2
  by_cases hsome : ∃ entry ∈ state.data.logged, entry.op = number
  · obtain ⟨first, hfirst, hnumber⟩ := hsome
    refine ⟨first.commit, fun entry hentry hop => ?_⟩
    have hsame := hhistory.single entry first hentry hfirst (hop.trans hnumber.symm)
    exact ⟨hsame, hsame ▸ hhistory.kept entry hentry⟩
  · exact ⟨0, fun entry hentry hop => absurd ⟨entry, hentry, hop⟩ hsome⟩

theorem logging_panics (hpanic : state.panic = some panic) : panic ≠ .committing ∧ panic ≠ .outside := by
  have hcontrol := (logging_invariant h).1
  rcases h.panics hpanic with ⟨process, choice, hturn⟩ | ⟨event, -⟩
  · rcases Journal.turn_panic hturn with ⟨hop, hcheck | ⟨-, hflag⟩⟩ | rfl
    · have hpos := hcontrol.outstanding.pos hop
      unfold Log.logWriteCheck at hcheck
      split_ifs at hcheck
      · cases hcheck
        simp
      · omega
    · simp [hcontrol.not_committing hop] at hflag
    · simp
  · exact event.elim

theorem logging_serial : Serial state where
  starts _ _ _ hstep _ hafter := logging_starts h hstep hafter
  excludes _ hcommit _ _ hstep := logging_excludes h hcommit hstep
  clears _ hcommitted := logging_clears h hcommitted
  single := logging_single h
  panics := ⟨fun hpanic => (logging_panics h hpanic).1 rfl, fun hpanic => (logging_panics h hpanic).2 rfl⟩

end Reached

end Serial

-- Two operations overlap and log a block each, one block twice; the second to end commits.
theorem logging_serial_two : ∃ state : Monitor.State Bool Journal LogPlace Unit LogPanic,
    (logging Bool).Reaches Journal.Starts state ∧ state.data.commits = [[5, 6]] ∧ Serial state := by
  obtain ⟨state, hreach, hcommits⟩ : ∃ state : Monitor.State Bool Journal LogPlace Unit LogPanic,
      (logging Bool).Reaches Journal.Starts state ∧ state.data.commits = [[5, 6]] :=
    Monitor.exists_reaches ⟨⟨2, 30, 0, false, .empty⟩, [], [], 0, []⟩ (fun _ => .idle)
      ⟨rfl, rfl, rfl, rfl, rfl, rfl, fun _ => rfl⟩
      [.turn false .beginOp, .turn true .beginOp, .turn false (.logWrite 5), .turn true (.logWrite 6),
        .turn false .proceed, .turn true .proceed, .turn false (.logWrite 6), .turn false .proceed,
        .turn false .endOp, .turn true .endOp, .turn true .proceed, .turn true .proceed, .turn true .proceed,
        .turn false .beginOp, .rouse false, .turn false .proceed, .turn true .proceed]
      ⟨_, rfl, rfl⟩
  exact ⟨state, hreach, hcommits, logging_serial hreach⟩

end Xv6
