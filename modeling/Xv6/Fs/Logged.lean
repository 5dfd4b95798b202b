import Xv6.Fs.Frame
import Xv6.Mkfs
import Mathlib.Data.Finset.Insert
import Mathlib.Data.Finset.Dedup

namespace Xv6.Fs.Logged

open Xv6.Action Finset

-- The file system with the blocks that log_write has been called for.
abbrev M := Action (Fs × List Nat) FsHalt

-- What does not write is as before.
def lift {Value : Type} (action : Fs.M Value) : M Value := within Prod.fst (fun fs state => (fs, state.2)) id action

def logWrite (bno : Nat) (block : Bytes) : M Unit := modify fun state => (state.1.write bno block, bno :: state.2)

def bzero (bno : Nat) : M Unit := logWrite bno fun _ => 0

def balloc : M Nat := do
  let fs ← lift get
  match (List.range fs.sb.size).find? fun b => !fs.bit b with
  | none => throw .outOfBlocks
  | some b =>
    logWrite (fs.sb.BBLOCK b) ((fs.disk (fs.sb.BBLOCK b)).setBit (b % BPB))
    bzero b
    return b

def iupdate (ip : Fin NINODE) : M Unit := do
  let fs ← lift get
  let inode := fs.icache ip
  logWrite (fs.sb.IBLOCK inode.inum)
    ((fs.disk (fs.sb.IBLOCK inode.inum)).setDinode (inode.inum % IPB) inode.toDinode)

def addrOrAlloc (ip : Fin NINODE) (n : Nat) : M Nat := do
  let addr := (← lift (inode ip)).addrs (Fin.ofNat (NDIRECT + 1) n)
  if addr ≠ 0 then return addr.toNat
  else
    let b ← balloc
    lift (setAddr ip n b)
    return b

def bmap (ip : Fin NINODE) (bn : Nat) : M Nat := do
  if bn < NDIRECT then addrOrAlloc ip bn
  else if bn - NDIRECT < NINDIRECT then
    let indirect ← addrOrAlloc ip NDIRECT
    let addr := (← lift (bread indirect)).entry (bn - NDIRECT)
    if addr ≠ 0 then return addr.toNat
    else
      let b ← balloc
      logWrite indirect ((← lift (bread indirect)).setEntry (bn - NDIRECT) (BitVec.ofNat 32 b))
      return b
  else throw .bmapOutOfRange

def writeBlocks (ip : Fin NINODE) : Nat → Nat → List Byte → M Unit
  | 0, _, _ => return ()
  | turns + 1, off, src => do
      if src.isEmpty then return ()
      else
        let b ← bmap ip (off / BSIZE)
        let m := min src.length (BSIZE - off % BSIZE)
        logWrite b ((← lift (bread b)).setBytes (off % BSIZE) (src.take m))
        writeBlocks ip turns (off + m) (src.drop m)

def writei (ip : Fin NINODE) (src : List Byte) (off : Word) : M Bool := do
  let n := BitVec.ofNat 32 src.length
  let node ← lift (inode ip)
  if node.type = T_DEV then
    if hasDevice node then
      lift (iunlock ip)
      lift (ilock ip)
      return true
    else return false
  else if off > node.size ∨ off + n < off then return false
  else if off + n > BitVec.ofNat 32 (MAXFILE * BSIZE) then return false
  else
    writeBlocks ip n.toNat off.toNat (src.take n.toNat)
    if n > 0 ∧ off + n > (← lift (inode ip)).size then
      lift (modifyInode ip fun inode => { inode with size := off + n })
      iupdate ip
    return true

section Simulates

variable {ip : Fin NINODE}

theorem lift_simulates {Value : Type} (action : Fs.M Value) : Simulates Prod.fst (lift action) action := by
  intro state returns stops h
  rw [lift, wp_within]
  exact h

theorem logWrite_simulates (bno : Nat) (block : Bytes) :
    Simulates Prod.fst (logWrite bno block) (Fs.logWrite bno block) :=
  .modify fun _ => rfl

theorem balloc_simulates : Simulates Prod.fst balloc Fs.balloc := by
  refine .bind (lift_simulates get) fun fs => ?_
  cases (List.range fs.sb.size).find? fun b => !fs.bit b with
  | none => exact .throw _
  | some b => exact .bind (logWrite_simulates _ _) fun _ => .bind (logWrite_simulates _ _) fun _ => .pure _

theorem iupdate_simulates : Simulates Prod.fst (iupdate ip) (Fs.iupdate ip) :=
  .bind (lift_simulates get) fun _ => logWrite_simulates _ _

theorem addrOrAlloc_simulates (n : Nat) : Simulates Prod.fst (addrOrAlloc ip n) (Fs.addrOrAlloc ip n) :=
  .bind (lift_simulates _) fun _ => .ite (.pure _)
    (.bind balloc_simulates fun _ => .bind (lift_simulates _) fun _ => .pure _)

theorem bmap_simulates (bn : Nat) : Simulates Prod.fst (bmap ip bn) (Fs.bmap ip bn) := by
  refine .ite (addrOrAlloc_simulates _) (.ite ?_ (.throw _))
  refine .bind (addrOrAlloc_simulates _) fun _ => .bind (lift_simulates _) fun _ => .ite (.pure _) ?_
  refine .bind balloc_simulates fun _ => .bind (lift_simulates _) fun _ => ?_
  exact .bind (logWrite_simulates _ _) fun _ => .pure _

theorem writeBlocks_simulates (turns off : Nat) (src : List Byte) :
    Simulates Prod.fst (writeBlocks ip turns off src) (Fs.writeBlocks ip turns off src) := by
  induction turns generalizing off src with
  | zero => exact .pure _
  | succ turns ih =>
    refine .ite (.pure _) (.bind (bmap_simulates _) fun _ => .bind (lift_simulates _) fun _ => ?_)
    exact .bind (logWrite_simulates _ _) fun _ => ih _ _

-- With the list of blocks left out, this is writei.
theorem writei_simulates (src : List Byte) (off : Word) :
    Simulates Prod.fst (writei ip src off) (Fs.writei ip src off) := by
  refine .bind (lift_simulates _) fun node => .ite (.ite ?_ (.pure _)) (.ite (.pure _) (.ite (.pure _) ?_))
  · exact .bind (lift_simulates _) fun _ => .bind (lift_simulates _) fun _ => .pure _
  · refine .bind (writeBlocks_simulates _ _ _) fun _ => .bind (lift_simulates _) fun _ => .ite ?_ (.pure _)
    exact .bind (lift_simulates _) fun _ => .bind iupdate_simulates fun _ => .pure _

end Simulates

-- The blocks that log_write was called for are these, or they were there before.
structure Logs (blocks : Finset Nat) (state next : Fs × List Nat) : Prop where
  sb : next.1.sb = state.1.sb
  log (b : Nat) (hb : b ∈ next.2) : b ∈ state.2 ∨ b ∈ blocks

section Logs

variable {ip : Fin NINODE} {state middle next : Fs × List Nat} {blocks others : Finset Nat}

theorem Logs.refl (blocks : Finset Nat) (state : Fs × List Nat) : Logs blocks state state := ⟨rfl, fun _ hb => .inl hb⟩

theorem Logs.trans (h : Logs blocks state middle) (hnext : Logs others middle next) :
    Logs (blocks ∪ others) state next where
  sb := hnext.sb.trans h.sb
  log b hb := by
    rcases hnext.log b hb with hold | hnew
    · exact (h.log b hold).imp_right (mem_union_left _)
    · exact .inr (mem_union_right _ hnew)

theorem Logs.mono (h : Logs blocks state next) (hsub : blocks ⊆ others) : Logs others state next :=
  ⟨h.sb, fun b hb => (h.log b hb).imp_right fun hmem => hsub hmem⟩

theorem lift_logs {Value : Type} {action : Fs.M Value} (h : Keeps Fs.sb action) :
    wp (lift action) state (fun _ next => Logs ∅ state next) fun _ => True := by
  rw [lift, wp_within]
  exact (h state.1).mono (fun _ fs hsb => ⟨hsb, fun _ hb => .inl hb⟩) fun _ _ => trivial

theorem logWrite_logs (bno : Nat) (block : Bytes) :
    wp (logWrite bno block) state (fun _ next => Logs {bno} state next) fun _ => True := by
  refine ⟨rfl, fun b hb => ?_⟩
  rcases List.mem_cons.mp hb with rfl | hold
  · exact .inr (Finset.mem_singleton_self b)
  · exact .inl hold

theorem outer_sb : Outer Fs.sb := ⟨fun _ _ _ => rfl, fun _ _ _ _ _ => rfl, fun _ _ _ => rfl⟩

section

variable (hsize : state.1.sb.size ≤ BPB)

include hsize

-- With one bitmap block, balloc writes to that and to the block that it returns.
theorem balloc_logs : wp balloc state (fun b next => Logs {state.1.sb.bmapstart, b} state next) fun _ => True := by
  simp only [balloc, lift, wp_bind, wp_within, wp_get]
  cases hfind : (List.range state.1.sb.size).find? fun b => !state.1.bit b with
  | none => trivial
  | some b =>
    have hlt : b < state.1.sb.size := List.mem_range.mp (List.mem_of_find?_eq_some hfind)
    have hblock : state.1.sb.BBLOCK b = state.1.sb.bmapstart := by
      unfold Superblock.BBLOCK
      rw [Nat.div_eq_of_lt (by omega), Nat.zero_add]
    simp only [hblock, bzero, wp_bind, wp_pure]
    refine (logWrite_logs _ _).imp fun _ middle hmiddle => ?_
    refine (logWrite_logs _ _).imp fun _ next hnext => ?_
    exact hmiddle.trans hnext

theorem addrOrAlloc_logs (n : Nat) :
    wp (addrOrAlloc ip n) state (fun b next => Logs {state.1.sb.bmapstart, b} state next) fun _ => True := by
  unfold addrOrAlloc
  rw [wp_bind]
  refine (lift_logs keeps_inode).imp fun inode middle hmiddle => ?_
  rw [← hmiddle.sb] at hsize ⊢
  rw [wp_ite]
  split_ifs
  · exact hmiddle.mono (empty_subset _)
  · rw [wp_bind]
    refine (balloc_logs hsize).imp fun b after hafter => ?_
    rw [wp_bind]
    refine (lift_logs (outer_sb.setAddr n b)).imp fun _ next hnext => ?_
    exact ((hmiddle.trans hafter).trans hnext).mono (by simp)

theorem bmap_logs (bn : Nat) :
    wp (bmap ip bn) state (fun b next => ∃ other, Logs {state.1.sb.bmapstart, other, b} state next) fun _ => True := by
  unfold bmap
  rw [wp_ite, wp_ite]
  split_ifs
  · refine (addrOrAlloc_logs hsize bn).imp fun b next hnext => ⟨b, hnext.mono ?_⟩
    exact Finset.insert_subset_insert _ (Finset.subset_insert _ _)
  · rw [wp_bind]
    refine (addrOrAlloc_logs hsize NDIRECT).imp fun indirect found hfound => ?_
    rw [wp_bind]
    refine (lift_logs (keeps_bread indirect)).imp fun block middle hmiddle => ?_
    have hmiddle : Logs {state.1.sb.bmapstart, indirect} state middle := (hfound.trans hmiddle).mono (by simp)
    rw [wp_ite]
    split_ifs
    · refine ⟨indirect, hmiddle.mono ?_⟩
      exact Finset.insert_subset_insert _ (Finset.singleton_subset_iff.mpr (Finset.mem_insert_self _ _))
    · rw [wp_bind]
      refine (balloc_logs (by rw [hmiddle.sb]; exact hsize)).imp fun b after hafter => ?_
      rw [hmiddle.sb] at hafter
      rw [wp_bind]
      refine (lift_logs (keeps_bread indirect)).imp fun block last hlast => ?_
      rw [wp_bind]
      refine (logWrite_logs _ _).imp fun _ next hnext => ⟨indirect, ?_⟩
      refine (((hmiddle.trans hafter).trans hlast).trans hnext).mono ?_
      intro c hc
      simp only [Finset.mem_union, Finset.mem_insert, Finset.mem_singleton, Finset.notMem_empty, or_false] at hc ⊢
      tauto
  · trivial

end

-- The number of blocks that these bytes are in.
def touched (off n : Nat) : Nat := if n = 0 then 0 else (off % BSIZE + n + (BSIZE - 1)) / BSIZE

theorem touched_mono {off m n : Nat} (h : m ≤ n) : touched off m ≤ touched off n := by
  unfold touched BSIZE
  split_ifs
  · exact Nat.le_refl _
  · exact Nat.zero_le _
  · omega
  · omega

theorem touched_step (off : Nat) {n : Nat} (hn : n ≠ 0) :
    touched (off + min n (BSIZE - off % BSIZE)) (n - min n (BSIZE - off % BSIZE)) + 1 ≤ touched off n := by
  unfold touched BSIZE
  rw [if_neg hn]
  split_ifs
  · omega
  · omega

-- Each turn writes to two blocks and to the bitmap.
theorem writeBlocks_logs (hsize : state.1.sb.size ≤ BPB) (turns off : Nat) (src : List Byte) :
    wp (writeBlocks ip turns off src) state (fun _ next => ∃ blocks, blocks.card ≤ 2 * touched off src.length ∧
      Logs (insert state.1.sb.bmapstart blocks) state next) fun _ => True := by
  induction turns generalizing state off src with
  | zero => exact ⟨∅, Nat.zero_le _, .refl _ _⟩
  | succ turns ih =>
    rw [writeBlocks, wp_ite]
    split_ifs with hempty
    · exact ⟨∅, Nat.zero_le _, .refl _ _⟩
    · rw [wp_bind]
      refine (bmap_logs hsize _).imp fun b found hfound => ?_
      obtain ⟨other, hfound⟩ := hfound
      rw [wp_bind]
      refine (lift_logs (keeps_bread b)).imp fun block middle hmiddle => ?_
      rw [wp_bind]
      refine (logWrite_logs _ _).imp fun _ after hafter => ?_
      have hturn : Logs {state.1.sb.bmapstart, other, b} state after :=
        ((hfound.trans hmiddle).trans hafter).mono (by simp)
      refine (ih (by rw [hturn.sb]; exact hsize) _ _).imp fun _ next hnext => ?_
      obtain ⟨blocks, hcard, hlogs⟩ := hnext
      rw [hturn.sb] at hlogs
      refine ⟨{other, b} ∪ blocks, ?_, (hturn.trans hlogs).mono ?_⟩
      · have hne : src.length ≠ 0 := fun hzero => hempty (List.isEmpty_iff.mpr (List.length_eq_zero_iff.mp hzero))
        have hstep := touched_step off hne
        have htwo : ({other, b} : Finset Nat).card ≤ 2 := Finset.card_le_two
        have hunion := Finset.card_union_le {other, b} blocks
        rw [List.length_drop] at hcard
        omega
      · intro c hc
        simp only [Finset.mem_union, Finset.mem_insert, Finset.mem_singleton] at hc ⊢
        tauto

theorem writei_logs (hsize : state.1.sb.size ≤ BPB) (src : List Byte) (off : Word) :
    wp (writei ip src off) state (fun _ next => ∃ blocks, blocks.card ≤ 2 * touched off.toNat src.length + 2 ∧
      Logs blocks state next) fun _ => True := by
  have hnone : ∀ {next : Fs × List Nat}, Logs ∅ state next →
      ∃ blocks : Finset Nat, blocks.card ≤ 2 * touched off.toNat src.length + 2 ∧ Logs blocks state next :=
    fun hnext => ⟨∅, Nat.zero_le _, hnext⟩
  unfold writei
  rw [wp_bind]
  refine (lift_logs keeps_inode).imp fun node first hfirst => ?_
  simp only [wp_ite]
  split_ifs with hdev hhas hrange hbig
  · rw [wp_bind]
    refine (lift_logs outer_sb.iunlock).imp fun _ middle hmiddle => ?_
    rw [wp_bind]
    refine (lift_logs outer_sb.ilock).imp fun _ next hnext => ?_
    exact hnone (((hfirst.trans hmiddle).trans hnext).mono (by simp))
  · exact hnone hfirst
  · exact hnone hfirst
  · exact hnone hfirst
  · have hle : touched off.toNat (src.take (BitVec.ofNat 32 src.length).toNat).length ≤ touched off.toNat src.length :=
      touched_mono (List.length_take_le' _ _)
    rw [wp_bind]
    refine (writeBlocks_logs (by rw [hfirst.sb]; exact hsize) _ _ _).imp fun _ after hafter => ?_
    obtain ⟨blocks, hcard, hlogs⟩ := hafter
    rw [wp_bind]
    refine (lift_logs keeps_inode).imp fun node middle hmiddle => ?_
    have hall : Logs (insert first.1.sb.bmapstart blocks) state middle :=
      ((hfirst.trans hlogs).trans hmiddle).mono (by simp)
    have hinsert := card_insert_le first.1.sb.bmapstart blocks
    rw [wp_ite]
    split_ifs
    · have hkeeps : Keeps Fs.sb (modifyInode ip fun inode => { inode with size := off + BitVec.ofNat 32 src.length }) :=
        outer_sb.modifyInode (fun _ => rfl) fun _ => rfl
      rw [wp_bind]
      refine (lift_logs hkeeps).imp fun _ sized hsized => ?_
      simp only [iupdate, lift, wp_bind, wp_within, wp_get]
      refine (logWrite_logs _ _).mono (fun _ next hnext => ⟨_, ?_, (hall.trans hsized).trans hnext⟩) fun _ h => h
      have hunion := card_union_le (insert first.1.sb.bmapstart blocks ∪ ∅) {sized.1.sb.IBLOCK (sized.1.icache ip).inum}
      rw [union_empty, card_singleton] at hunion
      rw [union_empty]
      omega
    · exact ⟨_, by omega, hall⟩

end Logs

-- One turn of the loop in filewrite, for what is still to be written.
def filewriteTurn (ip : Fin NINODE) (addr : List Byte) (off : Word) : M Bool := do
  lift (ilock ip)
  let ok ← writei ip (addr.take Sys.maxWrite) off
  lift (iunlock ip)
  return ok

theorem filewriteTurn_logs {fs : Fs} (hsize : fs.sb.size ≤ BPB) (ip : Fin NINODE) (addr : List Byte) (off : Word) :
    wp (filewriteTurn ip addr off) (fs, []) (fun _ next => next.2.toFinset.card ≤ MAXOPBLOCKS) fun _ => True := by
  unfold filewriteTurn
  rw [wp_bind]
  refine (lift_logs outer_sb.ilock).imp fun _ locked hlocked => ?_
  rw [wp_bind]
  refine (writei_logs (by rw [hlocked.sb]; exact hsize) _ _).imp fun ok written hwritten => ?_
  obtain ⟨blocks, hcard, hlogs⟩ := hwritten
  rw [wp_bind]
  refine (lift_logs outer_sb.iunlock).imp fun _ next hnext => ?_
  have hall : Logs blocks (fs, []) next := ((hlocked.trans hlogs).trans hnext).mono (by simp)
  have hsub : next.2.toFinset ⊆ blocks := by
    intro b hb
    exact (hall.log b (List.mem_toFinset.mp hb)).resolve_left List.not_mem_nil
  -- The bytes are in four blocks at most.
  have hfour : touched off.toNat (addr.take Sys.maxWrite).length ≤ 4 := by
    have hlength : (addr.take Sys.maxWrite).length ≤ 1536 := List.length_take_le ..
    unfold touched BSIZE
    split_ifs <;> omega
  calc next.2.toFinset.card ≤ blocks.card := card_le_card hsub
    _ ≤ 2 * touched off.toNat (addr.take Sys.maxWrite).length + 2 := hcard
    _ ≤ MAXOPBLOCKS := by
      unfold MAXOPBLOCKS
      omega

-- A new file, open on the disk that mkfs makes.
def newFile : Fs :=
  { mkfs with
    icache := Function.update mkfs.icache 1 ⟨{ Dinode.fresh T_FILE with nlink := 1 }, 2, 1, true⟩ }

theorem filewriteTurn_logs_new : ∃ next,
    (filewriteTurn 1 (List.replicate 2000 7) 0).run (newFile, []) = .ok (true, next) ∧
    next.2 = [32, 62, 62, 58, 61, 61, 58, 60, 60, 58] ∧ next.2.toFinset.card ≤ MAXOPBLOCKS := by
  have hrun : ((filewriteTurn 1 (List.replicate 2000 7) 0).run (newFile, [])).toOption.map
      (fun pair => (pair.1, pair.2.2)) = some (true, [32, 62, 62, 58, 61, 61, 58, 60, 60, 58]) := by
    decide +kernel
  obtain ⟨pair, hpair, hresult⟩ := Option.map_eq_some_iff.mp hrun
  obtain ⟨hok, hlog⟩ := Prod.mk.inj hresult
  have hrun := run_of_toOption hpair
  rw [hok] at hrun
  exact ⟨pair.2, hrun, hlog, (filewriteTurn_logs (by decide) 1 _ 0).returned hrun⟩

end Xv6.Fs.Logged
