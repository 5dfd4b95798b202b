import Xv6.Log.Ops
import Mathlib.Algebra.Order.BigOperators.Group.Finset
import Mathlib.Algebra.Group.Action.Defs

namespace Xv6

open Function Finset Option

-- The number of log blocks that mkfs writes into the super block.
def nlog : Int := LOGSIZE

namespace Journal

-- The distinct blocks that an operation has logged so far.
def blocks (journal : Journal) (number : Nat) : Finset Word :=
  ((journal.logged.filter fun entry => entry.op = number).map Logged.block).toFinset

-- How many blocks more the process may log in its operation.
def left (bound : Nat) (journal : Journal) (place : LogPlace) : Nat :=
  bound - (place.inOp.elim 0 fun number => (journal.blocks number).card)

variable {Process : Type} {journal next : Journal} {before after : LogPlace} {bound : Nat}

variable {block : Word} {number : Nat} {turn : Turn Journal LogPlace Unit} {choice : LogChoice}

theorem mem_blocks :
    block ∈ journal.blocks number ↔ ∃ entry ∈ journal.logged, entry.op = number ∧ entry.block = block := by
  simp [blocks, and_assoc]

theorem blocks_log (journal : Journal) (log : Log) (entry : Logged) (number : Nat) :
    { journal with log, logged := entry :: journal.logged }.blocks number =
      if entry.op = number then insert entry.block (journal.blocks number) else journal.blocks number := by
  by_cases hop : entry.op = number
  · simp [blocks, hop]
  · simp [blocks, hop]

-- A block that is not in the header yet takes one entry of it.
theorem logWrite_header (h : journal.logWrite number block = some (.turn turn)) :
    ∃ lh, turn.place = .op number ∧
      turn.data =
        { journal with
          log := { journal.log with lh }
          logged := ⟨number, block, journal.commits.length⟩ :: journal.logged } ∧
      ((block ∈ journal.log.lh.block ∧ lh.block.length = journal.log.lh.block.length) ∨
        (block ∉ journal.log.lh.block ∧ lh.block.length = journal.log.lh.block.length + 1)) := by
  unfold logWrite Log.logWrite at h
  split_ifs at h with hmem hroom
  · cases h
    exact ⟨journal.log.lh, rfl, rfl, .inl ⟨hmem, rfl⟩⟩
  · cases h
    exact ⟨⟨_, _⟩, rfl, rfl, .inr ⟨hmem, by simp⟩⟩
  · cases h

theorem endOp_more (h : journal.endOp = some (.turn turn)) (hidle : turn.place = .idle) :
    turn.data.log.outstanding ≠ 0 := by
  unfold endOp Log.endOp at h
  split_ifs at h with hcommitting hlast
  · cases h
  · cases h
    cases hidle
  · cases h
    exact hlast

-- What the operations under way may still log fits into the header, with one entry to spare.
structure Space (bound : Nat) (journal : Journal) (place : Process → LogPlace) : Prop where
  size : journal.log.size = nlog
  distinct (first second : Process) (number : Nat) (hfirst : (place first).inOp = some number)
    (hsecond : (place second).inOp = some number) : first = second
  empty (hflag : journal.log.committing = false) (hnone : journal.log.outstanding = 0) : journal.log.lh.block = []
  pending (process : Process) (number : Nat) (block : Word) (h : place process = .logWrite number block) :
    (insert block (journal.blocks number)).card ≤ bound
  room : ∃ processes : Finset Process, (∀ process, process ∈ processes ↔ (place process).inOp.isSome) ∧
    journal.log.lh.block.length + ∑ process ∈ processes, journal.left bound (place process) + 2 ≤ LOGSIZE

namespace Space

variable {place : Process → LogPlace}

theorem start (h : journal.Starts place) (hsize : journal.log.size = nlog) : journal.Space bound place where
  size := hsize
  distinct first second number hfirst := by simp [h.place, LogPlace.inOp] at hfirst
  empty _ _ := by rw [h.lh]; rfl
  pending process number block hplace := by simp [h.place] at hplace
  room := by
    refine ⟨∅, by simp [h.place, LogPlace.inOp], ?_⟩
    simp [h.lh, Logheader.empty, LOGSIZE]

variable [DecidableEq Process] {process : Process}

variable (h : journal.Space bound place)

include h

-- A turn that logs nothing and begins no operation.
theorem keep (hsize : next.log.size = journal.log.size)
    (hlength : next.log.lh.block.length ≤ journal.log.lh.block.length) (hlogged : next.logged = journal.logged)
    (hop : after.inOp = none ∨ after.inOp = (place process).inOp)
    (hempty : next.log.committing = false → next.log.outstanding = 0 → next.log.lh.block = [])
    (hpending : ∀ number block, after = .logWrite number block → (insert block (journal.blocks number)).card ≤ bound) :
    next.Space bound (update place process after) := by
  have hblocks : ∀ number, next.blocks number = journal.blocks number := by
    intro number
    simp only [blocks, hlogged]
  have hstill : ∀ other number, (update place process after other).inOp = some number →
      (place other).inOp = some number := by
    intro other number hother
    refine Monitor.of_update (fun place : LogPlace => place.inOp = some number) ?_ hother
    rcases hop with hop | hop <;> simp [hop]
  refine ⟨hsize.trans h.size, ?_, hempty, ?_, ?_⟩
  · intro first second number hfirst hsecond
    exact h.distinct first second number (hstill _ _ hfirst) (hstill _ _ hsecond)
  · intro other number block hother
    rw [hblocks]
    by_cases hne : other = process
    · subst hne
      rw [update_self] at hother
      exact hpending number block hother
    · rw [update_of_ne hne] at hother
      exact h.pending other number block hother
  · obtain ⟨processes, hmem, hroom⟩ := h.room
    refine ⟨processes.filter fun other => (update place process after other).inOp.isSome, ?_, ?_⟩
    · intro other
      rw [mem_filter, hmem, and_iff_right_iff_imp]
      intro hsome
      obtain ⟨number, hnumber⟩ := isSome_iff_exists.mp hsome
      rw [hstill other number hnumber]
      rfl
    · have hsum : ∑ other ∈ processes.filter fun other => (update place process after other).inOp.isSome,
          next.left bound (update place process after other) ≤
            ∑ other ∈ processes, journal.left bound (place other) := by
        refine le_trans (sum_le_sum ?_) (sum_le_sum_of_subset (filter_subset _ _))
        intro other hother
        obtain ⟨number, hnumber⟩ := isSome_iff_exists.mp (mem_filter.mp hother).2
        simp only [left, hnumber, hstill other number hnumber, elim_some, hblocks]
        exact le_rfl
      omega

theorem begin (hbound : bound < MAXOPBLOCKS) (hcontrol : journal.Control place)
    (hhistory : journal.History place) (hop : (place process).inOp = none)
    (hcommitting : journal.log.committing = false)
    (hspace : journal.log.lh.n + (journal.log.outstanding + 1) * MAXOPBLOCKS ≤ LOGSIZE) :
    { journal with
      log := { journal.log with outstanding := journal.log.outstanding + 1 }
      ops := journal.ops + 1 }.Space bound (update place process (.op journal.ops)) := by
  obtain ⟨processes, hmem, -⟩ := h.room
  -- Those in an operation are as many as the counter says.
  have hcard : (processes.card : Int) = journal.log.outstanding := by
    obtain ⟨others, hothers, hcount⟩ := hcontrol.outstanding
    rw [← hothers, Finset.ext fun other => (hmem other).trans (hcount other).symm]
  have hfresh : ∀ other, (place other).inOp ≠ some journal.ops := by
    intro other hother
    have hlt := (hhistory.current other _ hother).1
    omega
  refine ⟨h.size, ?_, ?_, ?_, ?_⟩
  · intro first second number hfirst hsecond
    by_cases hone : first = process <;> by_cases htwo : second = process
    · rw [hone, htwo]
    · subst hone
      rw [update_self] at hfirst
      rw [update_of_ne htwo] at hsecond
      cases hfirst
      exact absurd hsecond (hfresh second)
    · subst htwo
      rw [update_self] at hsecond
      rw [update_of_ne hone] at hfirst
      cases hsecond
      exact absurd hfirst (hfresh first)
    · rw [update_of_ne hone] at hfirst
      rw [update_of_ne htwo] at hsecond
      exact h.distinct first second number hfirst hsecond
  · intro _ hnone
    simp only at hnone
    omega
  · intro other number block hother
    by_cases hne : other = process
    · subst hne
      rw [update_self] at hother
      cases hother
    · rw [update_of_ne hne] at hother
      exact h.pending other number block hother
  · refine ⟨insert process processes, ?_, ?_⟩
    · intro other
      by_cases hne : other = process
      · subst hne
        simp [LogPlace.inOp]
      · simp [hne, hmem]
    · have hnot : process ∉ processes := by simp [hmem, hop]
      have hsum := sum_le_card_nsmul (insert process processes)
        (fun other => Journal.left bound
          { journal with
            log := { journal.log with outstanding := journal.log.outstanding + 1 }
            ops := journal.ops + 1 } (update place process (.op journal.ops) other))
        (MAXOPBLOCKS - 1) (by
          intro other _
          have hle : bound ≤ MAXOPBLOCKS - 1 := by omega
          exact le_trans (Nat.sub_le _ _) hle)
      rw [card_insert_of_notMem hnot, smul_eq_mul] at hsum
      simp only [Logheader.n, MAXOPBLOCKS, LOGSIZE] at hspace hsum ⊢
      -- The first operation of a transaction finds the header empty.
      by_cases hfirst : journal.log.outstanding = 0
      · have hempty := h.empty hcommitting hfirst
        simp only [hempty, List.length_nil]
        omega
      · omega

theorem write (hcontrol : journal.Control place) (hhistory : journal.History place)
    (hplace : place process = .logWrite number block) (hturn : journal.logWrite number block = some (.turn turn)) :
    turn.data.Space bound (update place process turn.place) := by
  obtain ⟨lh, hop, hdata, hheader⟩ := logWrite_header hturn
  obtain ⟨processes, hmem, hroom⟩ := h.room
  have hin : (place process).inOp = some number := by rw [hplace]; rfl
  have hsame : ∀ other, (update place process (.op number) other).inOp = (place other).inOp := by
    intro other
    by_cases hne : other = process
    · rw [hne, update_self, hin]
      rfl
    · rw [update_of_ne hne]
  -- Nobody else logs for this operation.
  have hblocks : ∀ other value, (place other).inOp = some value → other ≠ process →
      turn.data.blocks value = journal.blocks value := by
    intro other value hvalue hne
    rw [hdata, blocks_log, if_neg]
    rintro rfl
    exact hne (h.distinct other process number hvalue hin)
  have hown : turn.data.blocks number = insert block (journal.blocks number) := by
    rw [hdata, blocks_log, if_pos rfl]
  rw [hop]
  refine ⟨by rw [hdata]; exact h.size, ?_, ?_, ?_, processes, ?_, ?_⟩
  · intro first second value hfirst hsecond
    rw [hsame] at hfirst hsecond
    exact h.distinct first second value hfirst hsecond
  · intro _ hnone
    have hactive : (place process).inOp.isSome := by rw [hin]; rfl
    have hpos := hcontrol.outstanding.pos hactive
    rw [hdata] at hnone
    simp only at hnone
    omega
  · intro other value written hother
    by_cases hne : other = process
    · subst hne
      rw [update_self] at hother
      cases hother
    · rw [update_of_ne hne] at hother
      rw [hblocks other value (by rw [hother]; rfl) hne]
      exact h.pending other value written hother
  · intro other
    rw [hsame, hmem]
  · have hpending := h.pending process number block hplace
    have hprocess : process ∈ processes := by rw [hmem, hin]; rfl
    have hothers : ∑ other ∈ processes.erase process,
        turn.data.left bound (update place process (.op number) other) =
          ∑ other ∈ processes.erase process, journal.left bound (place other) := by
      refine sum_congr rfl ?_
      intro other hother
      obtain ⟨hne, hactive⟩ := mem_erase.mp hother
      obtain ⟨value, hvalue⟩ := isSome_iff_exists.mp ((hmem other).mp hactive)
      simp only [left, hsame, hvalue, elim_some, hblocks other value hvalue hne]
    have hleft : turn.data.left bound (update place process (.op number) process) =
        bound - (insert block (journal.blocks number)).card := by
      simp only [left, hsame, hin, elim_some, hown]
    have hbefore : journal.left bound (place process) = bound - (journal.blocks number).card := by
      simp only [left, hin, elim_some]
    rw [← add_sum_erase _ _ hprocess, hothers, hleft]
    rw [← add_sum_erase _ _ hprocess, hbefore] at hroom
    have hlength : turn.data.log.lh.block.length = lh.block.length := by rw [hdata]
    rcases hheader with ⟨-, hsize⟩ | ⟨hnew, hsize⟩
    · have hcard := card_le_card (subset_insert block (journal.blocks number))
      omega
    · -- What the operation has logged is in the header, so the block is new to it as well.
      have hfresh : block ∉ journal.blocks number := by
        intro hlogged
        obtain ⟨entry, hentry, hnumber, rfl⟩ := mem_blocks.mp hlogged
        have hcommit := (hhistory.current process number hin).2 entry hentry hnumber
        rcases hhistory.kept entry hentry with ⟨written, hwritten, -⟩ | ⟨-, hblock⟩
        · have hlt := (List.getElem?_eq_some_iff.mp hwritten).1
          omega
        · exact hnew hblock
      rw [card_insert_of_notMem hfresh] at hpending ⊢
      omega

-- In begin_op a process waits, or begins an operation.
theorem beginOp (hbound : bound < MAXOPBLOCKS) (hcontrol : journal.Control place) (hhistory : journal.History place)
    (hop : (place process).inOp = none) (hcommit : (place process).inCommit = false)
    (hturn : journal.beginOp = some (.turn turn)) : turn.data.Space bound (update place process turn.place) := by
  have hmoves := beginOp_moves hop hcommit hturn
  generalize hbefore : place process = before at hmoves hop
  generalize turn.data = data, turn.place = after at hmoves
  cases hmoves with
  | waits => exact h.keep rfl le_rfl rfl (.inl rfl) h.empty (by simp)
  | begins _ _ _ hcommitting hspace => exact h.begin hbound hcontrol hhistory (hbefore ▸ hop) hcommitting hspace
  | checks | writes | ends | commits => cases hop
  | skips | starts | writeLog | writeHead | installTrans | clear | eraseHead | finishes =>
    rw [hbefore] at hcommit
    cases hcommit

theorem endOp (hturn : journal.endOp = some (.turn turn)) :
    turn.data.Space bound (update place process turn.place) := by
  have hmore := endOp_more hturn
  unfold Journal.endOp Log.endOp at hturn
  split_ifs at hturn with hcommitting hlast
  · cases hturn
  · cases hturn
    exact h.keep rfl le_rfl rfl (.inl rfl) (by simp) (by simp)
  · cases hturn
    exact h.keep rfl le_rfl rfl (.inl rfl) (fun _ hnone => absurd hnone (hmore rfl)) (by simp)

-- The turns of a commit: the flag is set, and nobody is in an operation.
theorem inCommit (hcontrol : journal.Control place)
    (hin : (place process).inCommit) (hsize : next.log.size = journal.log.size)
    (hlength : next.log.lh.block.length ≤ journal.log.lh.block.length) (hlogged : next.logged = journal.logged)
    (hflag : next.log.committing = journal.log.committing) (hop : after.inOp = none) :
    next.Space bound (update place process after) := by
  refine h.keep hsize hlength hlogged (.inl hop) ?_ ?_
  · intro hclear
    rw [hflag, hcontrol.committing process hin] at hclear
    cases hclear
  · rintro number block rfl
    cases hop

theorem step (hbound : bound < MAXOPBLOCKS) (hcontrol : journal.Control place) (hhistory : journal.History place)
    (hgood : ∀ number block, place process = .op number → choice = .logWrite block →
      (insert block (journal.blocks number)).card ≤ bound)
    (hturn : journal.turn choice (place process) = some (.turn turn)) :
    turn.data.Space bound (update place process turn.place) := by
  generalize hbefore : place process = before at hturn
  unfold Journal.turn at hturn
  split at hturn
  · exact h.beginOp hbound hcontrol hhistory (by rw [hbefore]; rfl) (by rw [hbefore]; rfl) hturn
  · exact h.beginOp hbound hcontrol hhistory (by rw [hbefore]; rfl) (by rw [hbefore]; rfl) hturn
  · rename_i block number
    unfold Journal.logWriteCheck at hturn
    split at hturn
    · cases hturn
    · cases hturn
      refine h.keep rfl le_rfl rfl (.inr (by rw [hbefore]; rfl)) h.empty ?_
      rintro _ _ ⟨⟩
      exact hgood number block hbefore rfl
  · exact h.write hcontrol hhistory hbefore hturn
  · exact h.endOp hturn
  · have hin : (place process).inCommit := by rw [hbefore]; rfl
    unfold Journal.commit at hturn
    split_ifs at hturn with hn
    · cases hturn
      exact h.inCommit hcontrol hin rfl le_rfl rfl rfl rfl
    · cases hturn
      exact h.inCommit hcontrol hin rfl le_rfl rfl rfl rfl
  · rename_i stage
    have hin : (place process).inCommit := by rw [hbefore]; rfl
    cases stage <;> cases hturn
    · exact h.inCommit hcontrol hin rfl le_rfl rfl rfl rfl
    · exact h.inCommit hcontrol hin rfl le_rfl rfl rfl rfl
    · exact h.inCommit hcontrol hin rfl le_rfl rfl rfl rfl
    · exact h.inCommit hcontrol hin rfl (Nat.zero_le _) rfl rfl rfl
    · exact h.inCommit hcontrol hin rfl le_rfl rfl rfl rfl
  · cases hturn
    have hempty := hhistory.cleared process (by rw [hbefore]; rfl)
    exact h.keep rfl le_rfl rfl (.inl rfl) (fun _ _ => hempty) (by simp)
  · cases hturn

omit [DecidableEq Process] in
-- There is room in the log on the disk for one block more.
theorem not_tooBig : journal.log.logWriteCheck ≠ some .tooBig := by
  obtain ⟨processes, -, hroom⟩ := h.room
  have hsize := h.size
  simp only [nlog, LOGSIZE] at hsize hroom
  unfold Log.logWriteCheck
  split_ifs with hbig houtside
  · simp only [Logheader.n, LOGSIZE] at hbig
    omega
  · simp
  · simp

end Space

end Journal

section Space

variable {Process : Type}

-- A run in which no operation logs more than this many distinct blocks, each as often as it likes.
def logsAtMost (bound : Nat) (state : Monitor.State Process Journal LogPlace Unit LogPanic) :
    Monitor.Label Process LogChoice Empty → Bool
  | .turn process (.logWrite block) =>
    match state.place process with
    | .op number => (insert block (state.data.blocks number)).card ≤ bound
    | _ => true
  | _ => true

-- The log of the image that mkfs writes, as initlog leaves it.
def startsMkfs (state : Monitor.State Process Journal LogPlace Unit LogPanic) : Prop :=
  state.data.Starts state.place ∧ state.data.log.size = nlog ∧ (∀ process, state.asleep process = none) ∧
    state.panic = none

variable [DecidableEq Process] {bound : Nat} {state : Monitor.State Process Journal LogPlace Unit LogPanic}

theorem space_invariant (hbound : bound < MAXOPBLOCKS)
    (h : Reach (logging Process).step (fun state label => logsAtMost bound state label) startsMkfs state) :
    (state.data.Control state.place ∧ state.data.History state.place ∧ state.data.Space bound state.place) ∧
      state.panic ≠ some .tooBig := by
  refine h.invariant (fun state =>
    (state.data.Control state.place ∧ state.data.History state.place ∧ state.data.Space bound state.place) ∧
      state.panic ≠ some .tooBig) ?_ ?_
  · rintro state ⟨hstart, hsize, -, hnone⟩
    exact ⟨⟨.start hstart, .start hstart, .start hstart hsize⟩, by simp [hnone]⟩
  · rintro state next label ⟨⟨hcontrol, hhistory, hspace⟩, -⟩ hgood hstep
    cases Monitor.step_moves hstep with
    | turn process choice turn hturn hdata hplace hnone =>
      have hmoves := Journal.turn_moves hturn
      have hnext : turn.data.Space bound (update state.place process turn.place) := by
        refine hspace.step hbound hcontrol hhistory ?_ hturn
        rintro number block hnumber rfl
        simpa [logsAtMost, hnumber] using hgood
      rw [hdata, hplace]
      exact ⟨⟨hcontrol.step hmoves, hhistory.step hcontrol hmoves, hnext⟩, by simp [hnone]⟩
    | event event => exact event.elim
    | rouse process hdata hplace hnone =>
      rw [hdata, hplace]
      exact ⟨⟨hcontrol, hhistory, hspace⟩, by simp [hnone]⟩
    | panic label panic hcause hdata hplace hsome =>
      rw [hdata, hplace]
      refine ⟨⟨hcontrol, hhistory, hspace⟩, ?_⟩
      rw [hsome]
      rintro ⟨⟩
      rcases hcause with ⟨process, choice, hturn⟩ | ⟨event, -⟩
      · rcases Journal.turn_panic hturn with ⟨-, hcheck | ⟨hother, -⟩⟩ | hother
        · exact hspace.not_tooBig hcheck
        · cases hother
        · cases hother
      · exact event.elim

end Space

theorem logsAtMost_mono {Process : Type} {bound more : Nat} (h : bound ≤ more)
    {state : Monitor.State Process Journal LogPlace Unit LogPanic} {label : Monitor.Label Process LogChoice Empty}
    (hgood : logsAtMost bound state label) : logsAtMost more state label := by
  unfold logsAtMost at hgood ⊢
  split at hgood
  · split at hgood
    · simp only [decide_eq_true_eq] at hgood ⊢
      omega
    · rfl
  · rfl

def mkfsLog : Monitor.State (Fin 3) Journal LogPlace Unit LogPanic :=
  ⟨⟨⟨2, nlog, 0, false, .empty⟩, [], [], 0, []⟩, fun _ => .idle, fun _ => none, none⟩

-- Three operations begin at once, and log ten blocks each that nobody else logs.
def threeOps : List (Monitor.Label (Fin 3) LogChoice Empty) :=
  [.turn 0 .beginOp, .turn 1 .beginOp, .turn 2 .beginOp] ++
    ((List.range 29).flatMap fun block =>
      [.turn (Fin.ofNat 3 (block / MAXOPBLOCKS)) (.logWrite (BitVec.ofNat 32 block)),
        .turn (Fin.ofNat 3 (block / MAXOPBLOCKS)) .proceed]) ++
    [.turn 2 (.logWrite 29)]

-- begin_op has let all three in, but the log on the disk has a block less than the header has
-- entries: the last block finds no room.
theorem threeOps_panics {bound : Nat} (h : MAXOPBLOCKS ≤ bound) :
    ∃ state : Monitor.State (Fin 3) Journal LogPlace Unit LogPanic,
      Reach (logging (Fin 3)).step (fun state label => logsAtMost bound state label) startsMkfs state ∧
        state.data.log.outstanding = 3 ∧ state.data.log.lh.n = 29 ∧ state.panic = some .tooBig := by
  have hstart : startsMkfs mkfsLog := ⟨⟨rfl, rfl, rfl, rfl, rfl, rfl, fun _ => rfl⟩, rfl, fun _ => rfl, rfl⟩
  have hrun : (run (logging (Fin 3)).step (fun state label => logsAtMost MAXOPBLOCKS state label) mkfsLog threeOps).map
      (fun state => (state.data.log.outstanding, state.data.log.lh.n, state.panic)) = some (3, 29, some .tooBig) := by
    decide +kernel
  obtain ⟨last, hreach, hend⟩ := exists_reach_seen hstart hrun
  simp only [Prod.mk.injEq] at hend
  exact ⟨last, hreach.mono fun _ _ hgood => logsAtMost_mono h hgood, hend⟩

-- Operations that log at most MAXOPBLOCKS - 1 distinct blocks never find the log too small, and
-- nothing more than that can be said.
theorem log_has_room_iff (bound : Nat) :
    (∀ (Process : Type) [DecidableEq Process] (state : Monitor.State Process Journal LogPlace Unit LogPanic),
      Reach (logging Process).step (fun state label => logsAtMost bound state label) startsMkfs state →
        state.panic ≠ some .tooBig) ↔ bound < MAXOPBLOCKS := by
  constructor
  · intro hnever
    by_contra hmany
    obtain ⟨state, hreach, -, -, hpanic⟩ := threeOps_panics (not_lt.mp hmany)
    exact hnever (Fin 3) state hreach hpanic
  · intro hbound Process _ state hreach
    exact (space_invariant hbound hreach).2

theorem log_too_small : ∃ state : Monitor.State (Fin 3) Journal LogPlace Unit LogPanic,
    Reach (logging (Fin 3)).step (fun state label => logsAtMost MAXOPBLOCKS state label) startsMkfs state ∧
      state.data.log.outstanding = 3 ∧ state.data.log.lh.n = 29 ∧ state.panic = some .tooBig :=
  threeOps_panics le_rfl

end Xv6
