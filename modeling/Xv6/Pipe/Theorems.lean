import Xv6.Pipe
import Xv6.Sleep.Refines

namespace Xv6

open Function List Option

namespace Pipe

variable {p : Pipe}

theorem empty_iff : p.empty ↔ p.ring.length = 0 := by
  have hzero : p.nwrite - p.nread = 0 ↔ p.nwrite = p.nread := sub_eq_zero
  have hnat : (p.nwrite - p.nread).toNat = 0 ↔ p.nwrite - p.nread = 0 := by
    rw [BitVec.toNat_eq]
    rfl
  simp only [empty, decide_eq_true_eq, Ring.length, ring, hnat, hzero]
  exact eq_comm

theorem full_iff : p.full ↔ p.ring.length = PIPESIZE := by
  have hsub : p.nwrite - p.nread = BitVec.ofNat 32 PIPESIZE ↔ p.nwrite = p.nread + BitVec.ofNat 32 PIPESIZE := by
    rw [sub_eq_iff_eq_add, add_comm]
  have hnat : (p.nwrite - p.nread).toNat = PIPESIZE ↔ p.nwrite - p.nread = BitVec.ofNat 32 PIPESIZE := by
    rw [BitVec.toNat_eq]
    rfl
  simp only [full, decide_eq_true_eq, Ring.length, ring, hnat, hsub]

theorem PIPESIZE_dvd : PIPESIZE ∣ 2 ^ 32 := ⟨2 ^ 23, by decide⟩

theorem PIPESIZE_lt : PIPESIZE < 2 ^ 32 := by decide

theorem fill_short (p : Pipe) (addr : List Byte) : (p.fill addr).2.length ≤ addr.length := by
  induction addr generalizing p with
  | nil => exact Nat.le_refl _
  | cons byte rest ih =>
    by_cases hfull : p.full
    · simp [fill, hfull]
    · simp only [fill, hfull, Bool.false_eq_true, if_false, length_cons]
      exact (ih _).trans (Nat.le_succ _)

-- What pipewrite stores before it finds the pipe full is appended to what the pipe holds.
theorem fill_spec (hle : p.ring.length ≤ PIPESIZE) (addr : List Byte) :
    (p.fill addr).1.ring.values = p.ring.values ++ addr.take (addr.length - (p.fill addr).2.length) ∧
      (p.fill addr).1.ring.length + (p.fill addr).2.length = p.ring.length + addr.length ∧
      (p.fill addr).1.ring.length ≤ PIPESIZE ∧ ((p.fill addr).2 = [] ∨ (p.fill addr).1.ring.length = PIPESIZE) := by
  induction addr generalizing p with
  | nil =>
    refine ⟨?_, rfl, hle, .inl rfl⟩
    simp [fill]
  | cons byte rest ih =>
    by_cases hfull : p.full
    · have hlength := full_iff.mp hfull
      simp only [fill, hfull, if_true]
      exact ⟨by simp, trivial, hle, .inr hlength⟩
    · have hroom : p.ring.length < PIPESIZE := lt_of_le_of_ne hle (fun hlength => hfull (full_iff.mpr hlength))
      have hring : (p.store byte).ring = p.ring.push byte := rfl
      have hlength : (p.store byte).ring.length = p.ring.length + 1 := by
        rw [hring, Ring.length_push PIPESIZE_lt hroom]
      have hpushed : (p.store byte).ring.values = p.ring.values ++ [byte] := by
        rw [hring, Ring.values_push PIPESIZE_dvd PIPESIZE_lt hroom]
      have hsmall := fill_short (p.store byte) rest
      obtain ⟨hvalues, hsum, hnext, hrest⟩ := ih (p := p.store byte) (by omega)
      simp only [fill, hfull, Bool.false_eq_true, if_false]
      refine ⟨?_, ?_, hnext, hrest⟩
      · rw [hvalues, hpushed, length_cons, Nat.succ_sub hsmall, take_succ_cons, append_assoc]
        rfl
      · rw [hsum, hlength, length_cons]
        omega

theorem fill_open (addr : List Byte) :
    (p.fill addr).1.readopen = p.readopen ∧ (p.fill addr).1.writeopen = p.writeopen := by
  induction addr generalizing p with
  | nil => exact ⟨rfl, rfl⟩
  | cons byte rest ih =>
    by_cases hfull : p.full
    · simp [fill, hfull]
    · simp only [fill, hfull, Bool.false_eq_true, if_false]
      exact ih (p := p.store byte)

-- piperead takes bytes from the front of what the pipe holds.
theorem drain_spec (n : Nat) : p.ring.values = (p.drain n).2 ++ (p.drain n).1.ring.values ∧
    (p.drain n).1.readopen = p.readopen ∧ (p.drain n).1.writeopen = p.writeopen := by
  induction n generalizing p with
  | zero => exact ⟨rfl, rfl, rfl⟩
  | succ n ih =>
    by_cases hempty : p.empty
    · simp [drain, hempty]
    · have hsome : p.ring.length ≠ 0 := fun hzero => hempty (empty_iff.mpr hzero)
      obtain ⟨hvalues, hopen⟩ := ih (p := { p with nread := p.nread + 1 })
      simp only [drain, hempty, Bool.false_eq_true, if_false]
      refine ⟨?_, hopen⟩
      rw [Ring.values_pop hsome, cons_append, ← hvalues]
      rfl

theorem drain_length (n : Nat) : (p.drain n).1.ring.length ≤ p.ring.length := by
  have hlength := congrArg List.length (drain_spec (p := p) n).1
  rw [length_append, Ring.length_values, Ring.length_values] at hlength
  omega

end Pipe

namespace Piped

variable {Process : Type} {piped next : Piped Process} {place : Process → PipePlace} {me : Process}
variable {there : PipePlace} {turn : Turn (Piped Process) PipePlace PipeChan}

structure Holds (piped : Piped Process) (place : Process → PipePlace) : Prop where
  bound : piped.pipe.ring.length ≤ PIPESIZE
  fifo : piped.stored = piped.taken ++ piped.pipe.ring.values
  readers : Monitor.Count place (fun place => place.reads) piped.readers
  closed : piped.pipe.readopen = false → piped.readers = 0
  closing (process : Process) : (place process).doing = .pipeclose false → piped.readers = 0
  reading (process : Process) (n : Int) : (place process).doing = .piperead n → (place process).reads

-- The bytes that pipewrite has still to store.
def addr : PipeChoice → PipeDoing → List Byte
  | .pipewrite addr, .idle => addr
  | .proceed, .pipewrite rest => rest
  | _, _ => []

-- What a process that sleeps on this channel waits for has not come yet.
def waits : PipeChan → PipePlace → Piped Process → Prop
  | .nread, place, piped => place.reads ∧ piped.pipe.empty ∧ piped.pipe.writeopen
  | .nwrite, _, piped => piped.pipe.full ∧ piped.pipe.readopen

theorem Starts.holds (h : Starts piped place) : Holds piped place := by
  obtain ⟨data, hpipe⟩ := h.pipe
  have hempty : piped.pipe.empty := by
    rw [hpipe]
    rfl
  have hzero := Pipe.empty_iff.mp hempty
  have hvalues : piped.pipe.ring.values = [] := by
    rw [← length_eq_zero_iff, Ring.length_values, hzero]
  refine ⟨by omega, by rw [h.stored, h.taken, hvalues]; rfl, h.readers, ?_, ?_, ?_⟩
  · intro hclosed
    rw [hpipe] at hclosed
    cases hclosed
  · intro process hdoing
    simp [h.doing] at hdoing
  · intro process n hdoing
    simp [h.doing] at hdoing

-- The function that a turn is in.
inductive Calls (piped : Piped Process) (me : Process) (place : PipePlace) (choice : PipeChoice)
    (turn : Turn (Piped Process) PipePlace PipeChan) : Prop
  | pipewrite (bytes : List Byte) (haddr : addr choice place.doing = bytes)
      (h : piped.pipewrite me place bytes = some (.turn turn))
  | piperead (n : Int) (hreads : place.reads ∨ place.doing = .piperead n)
      (h : piped.piperead me place n = some (.turn turn))
  | pipeclose (writable : Bool) (hdoing : place.doing = .pipeclose writable)
      (h : piped.pipeclose place writable = some (.turn turn))
  | fileclose (writable : Bool) (h : piped.fileclose place writable = some (.turn turn))
  | filedup (writable : Bool) (hdoing : place.doing = .idle) (h : piped.filedup place writable = some (.turn turn))

variable {choice : PipeChoice} {writable : Bool}

theorem turn_calls (h : piped.turn me there choice there.doing = some (.turn turn)) :
    Calls piped me there choice turn := by
  cases hdoing : there.doing with
  | idle =>
    cases choice with
    | pipewrite bytes =>
      simp only [hdoing, Piped.turn, ite_none_right_eq_some] at h
      exact .pipewrite bytes (by rw [hdoing]; rfl) h.2
    | piperead n =>
      simp only [hdoing, Piped.turn, ite_none_right_eq_some] at h
      exact .piperead n (.inl h.1) h.2
    | fileclose writable =>
      rw [hdoing] at h
      exact .fileclose writable h
    | filedup writable =>
      rw [hdoing] at h
      exact .filedup writable hdoing h
    | proceed => simp [hdoing, Piped.turn] at h
  | pipewrite rest =>
    cases choice with
    | proceed =>
      rw [hdoing] at h
      exact .pipewrite rest (by rw [hdoing]; rfl) h
    | pipewrite | piperead | fileclose | filedup => simp [hdoing, Piped.turn] at h
  | piperead n =>
    cases choice with
    | proceed =>
      rw [hdoing] at h
      exact .piperead n (.inr hdoing) h
    | pipewrite | piperead | fileclose | filedup => simp [hdoing, Piped.turn] at h
  | pipeclose writable =>
    cases choice with
    | proceed =>
      rw [hdoing] at h
      exact .pipeclose writable hdoing h
    | pipewrite | piperead | fileclose | filedup => simp [hdoing, Piped.turn] at h

section Turns

variable [DecidableEq Process] (h : Holds piped place)

include h

-- A turn that keeps the ends that the process has open.
theorem Holds.move (hbound : next.pipe.ring.length ≤ PIPESIZE)
    (hfifo : next.stored = next.taken ++ next.pipe.ring.values) (hreaders : next.readers = piped.readers)
    (hreads : there.reads = (place me).reads)
    (hclosed : next.pipe.readopen = false → piped.pipe.readopen = false ∨ (place me).doing = .pipeclose false)
    (hclosing : there.doing ≠ .pipeclose false) (hreading : ∀ n, there.doing = .piperead n → (place me).reads) :
    Holds next (update place me there) := by
  refine ⟨hbound, hfifo, ?_, ?_, ?_, ?_⟩
  · rw [hreaders]
    exact h.readers.stay (by rw [hreads])
  · intro hopen
    rw [hreaders]
    exact (hclosed hopen).elim h.closed (h.closing me)
  · intro process hdoing
    rw [hreaders]
    refine h.closing process (Monitor.of_update (fun place : PipePlace => place.doing = .pipeclose false) ?_ hdoing)
    exact fun hthere => absurd hthere hclosing
  · intro process n hdoing
    by_cases hprocess : process = me
    · subst hprocess
      rw [update_self] at hdoing ⊢
      rw [hreads]
      exact hreading n hdoing
    · rw [update_of_ne hprocess] at hdoing ⊢
      exact h.reading process n hdoing

theorem pipewrite_holds {addr : List Byte} (hturn : piped.pipewrite me (place me) addr = some (.turn turn)) :
    Holds turn.data (update place me turn.place) := by
  obtain ⟨hvalues, -, hbound, -⟩ := Pipe.fill_spec h.bound addr
  have hopen := (Pipe.fill_open (p := piped.pipe) addr).1
  have hfifo : piped.stored ++ addr.take (addr.length - (piped.pipe.fill addr).2.length) =
      piped.taken ++ (piped.pipe.fill addr).1.ring.values := by
    rw [hvalues, h.fifo, append_assoc]
  simp only [pipewrite] at hturn
  split_ifs at hturn
  all_goals
    cases hturn
    exact h.move hbound hfifo rfl rfl (fun hclosed => .inl (hopen ▸ hclosed)) (by simp) (by simp)

theorem piperead_holds (hreads : (place me).reads) {n : Int}
    (hturn : piped.piperead me (place me) n = some (.turn turn)) : Holds turn.data (update place me turn.place) := by
  obtain ⟨hvalues, hopen, -⟩ := Pipe.drain_spec (p := piped.pipe) n.toNat
  have hbound := (Pipe.drain_length (p := piped.pipe) n.toNat).trans h.bound
  simp only [piperead] at hturn
  split_ifs at hturn
  · cases hturn
    exact h.move h.bound h.fifo rfl rfl .inl (by simp) (by simp)
  · cases hturn
    exact h.move h.bound h.fifo rfl rfl .inl (by simp) (fun _ _ => hreads)
  · cases hturn
    refine h.move hbound ?_ rfl rfl (fun hclosed => .inl (hopen ▸ hclosed)) (by simp) (by simp)
    rw [append_assoc, ← hvalues, h.fifo]

theorem pipeclose_holds (hdoing : (place me).doing = .pipeclose writable)
    (hturn : piped.pipeclose (place me) writable = some (.turn turn)) :
    Holds turn.data (update place me turn.place) := by
  cases writable with
  | true =>
    cases hturn
    exact h.move h.bound h.fifo rfl rfl .inl (by simp) (by simp)
  | false =>
    cases hturn
    exact h.move h.bound h.fifo rfl rfl (fun _ => .inr hdoing) (by simp) (by simp)

theorem fileclose_holds (hturn : piped.fileclose (place me) writable = some (.turn turn)) :
    Holds turn.data (update place me turn.place) := by
  cases writable with
  | true =>
    simp only [fileclose] at hturn
    split_ifs at hturn <;> cases hturn <;> exact h.move h.bound h.fifo rfl rfl .inl (by simp) (by simp)
  | false =>
    simp only [fileclose, ite_none_right_eq_some] at hturn
    obtain ⟨hreads, hturn⟩ := hturn
    cases hturn
    have hpos := h.readers.pos hreads
    refine ⟨h.bound, h.fifo, h.readers.leave hreads (by simp), ?_, ?_, ?_⟩
    · intro hclosed
      have hnone := h.closed hclosed
      omega
    · intro process hclosing
      by_cases hprocess : process = me
      · subst hprocess
        have hlast : piped.readers ≤ 1 := by simpa using hclosing
        dsimp only
        omega
      · rw [update_of_ne hprocess] at hclosing
        have hnone := h.closing process hclosing
        omega
    · intro process n hreading
      by_cases hprocess : process = me
      · subst hprocess
        rw [update_self] at hreading
        dsimp only at hreading
        split_ifs at hreading
      · rw [update_of_ne hprocess] at hreading ⊢
        exact h.reading process n hreading

theorem filedup_holds (hdoing : (place me).doing = .idle)
    (hturn : piped.filedup (place me) writable = some (.turn turn)) : Holds turn.data (update place me turn.place) := by
  cases writable with
  | true =>
    simp only [filedup, ite_none_right_eq_some] at hturn
    obtain ⟨-, hturn⟩ := hturn
    cases hturn
    exact h.move h.bound h.fifo rfl rfl .inl (by simp [hdoing]) (by simp [hdoing])
  | false =>
    simp only [filedup, ite_none_right_eq_some] at hturn
    obtain ⟨⟨hnot, hsome⟩, hturn⟩ := hturn
    cases hturn
    refine ⟨h.bound, h.fifo, h.readers.enter (by simpa using hnot) rfl, ?_, ?_, ?_⟩
    · intro hclosed
      have hnone := h.closed hclosed
      omega
    · intro process hclosing
      have hbefore : (place process).doing = .pipeclose false := by
        refine Monitor.of_update (fun place : PipePlace => place.doing = .pipeclose false) ?_ hclosing
        exact fun hthere => hthere
      have hnone := h.closing process hbefore
      omega
    · intro process n hreading
      by_cases hprocess : process = me
      · subst hprocess
        rw [update_self]
      · rw [update_of_ne hprocess] at hreading ⊢
        exact h.reading process n hreading

theorem turn_holds (hturn : piped.turn me (place me) choice (place me).doing = some (.turn turn)) :
    Holds turn.data (update place me turn.place) := by
  cases turn_calls hturn with
  | pipewrite bytes _ hcall => exact pipewrite_holds h hcall
  | piperead n hreads hcall => exact piperead_holds h (hreads.elim id (h.reading me n)) hcall
  | pipeclose writable hdoing hcall => exact pipeclose_holds h hdoing hcall
  | fileclose writable hcall => exact fileclose_holds h hcall
  | filedup writable hdoing hcall => exact filedup_holds h hdoing hcall

end Turns

end Piped

namespace Sleep

variable {Process : Type} [DecidableEq Process] {state : State Process (Piped Process) PipePlace PipeChan Empty}
variable {coarse : Monitor.State Process (Piped Process) PipePlace PipeChan Empty}
variable {fair : Process → PipeChoice → PipePlace → Piped Process → Prop}

theorem pipes_holds
    (h : Reach (pipes Process).step (Monitor.Fairly fair) (Monitor.Begins Piped.Starts) coarse) :
    coarse.data.Holds coarse.place := by
  have hreach : (pipes Process).Reaches Piped.Starts coarse := h.mono fun _ _ _ => trivial
  refine hreach.invariant Piped.Holds (fun _ _ hstart => hstart.holds) ?_ ?_
  · intro data place party choice turn hholds hturn
    exact Piped.turn_holds hholds hturn
  · intro data place victim turn hholds hevent
    cases hevent
    exact ⟨hholds.bound, hholds.fifo, hholds.readers, hholds.closed, hholds.closing, hholds.reading⟩

-- Whoever takes part and in whatever order, the bytes come out as they went in.
theorem pipe_fifo (h : Reaches (pipes Process) false (fun _ _ _ _ => True) Piped.Starts state) :
    state.data.taken <+: state.data.stored ∧ (state.data.pipe.nwrite - state.data.pipe.nread).toNat ≤ PIPESIZE := by
  obtain ⟨-, coarse, hreach, hrefines⟩ := refines h
  have hholds := pipes_holds hreach
  rw [hrefines.data] at hholds
  refine ⟨⟨state.data.pipe.ring.values, hholds.fifo.symm⟩, hholds.bound⟩

-- A parent and a child that have both ends of a new pipe open.
def forkedPipe : State Bool (Piped Bool) PipePlace PipeChan Empty :=
  ⟨⟨.pipealloc fun _ => 0, fun _ => false, 2, 2, [], []⟩, fun _ => ⟨.idle, true, true⟩, fun _ => .out,
    fun _ => .RUNNING, fun _ => none, none, none, none⟩

theorem forkedPipe_starts : starts Piped.Starts forkedPipe := by
  have hboth : Monitor.Count (fun _ : Bool => (⟨.idle, true, true⟩ : PipePlace)) (fun place => place.reads) 2 :=
    ⟨Finset.univ, rfl, by simp⟩
  exact ⟨⟨⟨_, rfl⟩, rfl, rfl, fun _ => rfl, hboth, hboth⟩, fun _ => rfl, fun _ => rfl, fun _ => rfl, rfl, rfl, rfl⟩

def call (process : Bool) (choice : PipeChoice) : List (Label Bool PipeChoice Bool) :=
  [.acquire process, .proceed process choice]

-- `wakes` is for a critical section that wakes somebody up.
def leave (process : Bool) (wakes : Bool) : List (Label Bool PipeChoice Bool) :=
  List.replicate (if wakes then 3 else 1) (.proceed process .proceed)

-- Until the scheduler has ptable.lock no more.
def fallAsleep (process : Bool) : List (Label Bool PipeChoice Bool) :=
  [.proceed process .proceed, .proceed process .proceed, .proceed process .proceed, .drop]

theorem pipe_fifo_two : ∃ state : State Bool (Piped Bool) PipePlace PipeChan Empty,
    Reaches (pipes Bool) false (fun _ _ _ _ => True) Piped.Starts state ∧
    state.data.taken = [1, 2] ∧ state.data.stored = [1, 2, 3] ∧ state.data.taken <+: state.data.stored ∧
    (state.data.pipe.nwrite - state.data.pipe.nread).toNat ≤ PIPESIZE := by
  have hrun : (run (step (pipes Bool) false) (Good fun _ _ _ _ => True) forkedPipe
      (call false (.piperead 2) ++ fallAsleep false ++ call true (.pipewrite [1, 2, 3]) ++ leave true true ++
        [.take, .dispatch false, .proceed false .proceed] ++ call false .proceed ++ leave false true)).map
      (fun state => (state.data.taken, state.data.stored)) = some ([1, 2], [1, 2, 3]) := by
    decide +kernel
  obtain ⟨state, hreach, hdata⟩ := exists_reach_seen forkedPipe_starts hrun
  have hdone := Prod.mk.inj hdata
  exact ⟨state, hreach, hdone.1, hdone.2, pipe_fifo hreach⟩

end Sleep

end Xv6
