import Xv6.Log
import Xv6.Store

namespace Xv6

open Function List

-- The BSIZE bytes of a block, as words.
abbrev Block := Fin 128 → Word

namespace Logheader

-- struct logheader laid over a block: n, then the array. The rest of the block stays.
def store (lh : Logheader) (block : Block) : Block := fun word =>
  if word.val = 0 then BitVec.ofNat 32 lh.block.length else lh.block.getD (word.val - 1) (block word)

-- There is no result where the loop of read_head would run past the array in memory.
def load (block : Block) : Option Logheader :=
  if h : (block 0).toInt ≤ LOGSIZE then
    some ⟨(List.range (block 0).toInt.toNat).map fun i => block (Fin.ofNat 128 (i + 1)), by simpa using h⟩
  else none

theorem store_zero (lh : Logheader) (block : Block) : lh.store block 0 = BitVec.ofNat 32 lh.block.length := rfl

theorem load_store (lh : Logheader) (block : Block) : load (lh.store block) = some lh := by
  have hbound : lh.block.length ≤ 30 := lh.bound
  have hn : (lh.store block 0).toInt = lh.block.length := by
    rw [store_zero, BitVec.toInt_eq_toNat_of_lt]
    · rw [BitVec.toNat_ofNat, Nat.mod_eq_of_lt (by omega)]
    · rw [BitVec.toNat_ofNat, Nat.mod_eq_of_lt (by omega)]
      omega
  have hblocks : (List.range lh.block.length).map (fun i => lh.store block (Fin.ofNat 128 (i + 1))) = lh.block := by
    refine ext_getElem (by simp) fun i hleft hright => ?_
    have hi : (i + 1) % 128 = i + 1 := Nat.mod_eq_of_lt (by omega)
    simp [store, hi, List.getElem?_eq_getElem hright]
  unfold load
  rw [dif_pos (by rw [hn]; exact_mod_cast lh.bound)]
  simp only [hn, Int.toNat_natCast, hblocks]

theorem load_of_zero {block : Block} (h : block 0 = 0) : load block = some .empty := by
  have hn : (block 0).toInt = 0 := by rw [h]; rfl
  unfold load
  rw [dif_pos (by rw [hn]; decide)]
  simp only [hn, Int.toNat_zero, range_zero, map_nil]
  rfl

end Logheader

namespace Log

-- The disk block of the log that holds this entry of the array.
def slot (log : Log) (tail : Nat) : Word := log.start + BitVec.ofNat 32 (tail + 1)

-- The blocks of the array with their positions, in the order of the loops.
def entries (log : Log) : List (Word × Nat) := log.lh.block.zipIdx

section

variable (log : Log) (store : Store Word Block)

def writeLog : Store Word Block :=
  store.copy (log.entries.map fun entry => (log.slot entry.2, entry.1))

def installTrans : Store Word Block :=
  store.copy (log.entries.map fun entry => (entry.1, log.slot entry.2))

def writeHead : Store Word Block :=
  store.write log.start (log.lh.store (store.read log.start))

def readHead : Option Log :=
  (Logheader.load (store.read log.start)).map fun lh => { log with lh }

def commit : Log × Store Word Block :=
  if log.lh.n > 0 then
    let store := log.writeHead (log.writeLog store)
    let store := log.installTrans store
    let log := log.clear
    (log, log.writeHead store)
  else (log, store)

def recoverFromLog : Option (Log × Store Word Block) := do
  let log ← log.readHead store
  let store := log.installTrans store
  let log := log.clear
  some (log, log.writeHead store)

end

-- A recovery starts on this disk, with an empty cache, and a crash leaves that one.
def Crashes (log : Log) (before after : Word → Block) : Prop :=
  ∃ done count, log.recoverFromLog (.boot before) = some done ∧ after = done.2.crash count

def InArea (log : Log) (block : Word) : Prop :=
  log.start.toNat ≤ block.toNat ∧ (block.toNat : Int) < log.start.toNat + log.size

-- The transaction fits into the log area, which does not wrap around, and has no block of it.
structure Fits (log : Log) : Prop where
  room : log.lh.n ≤ log.size - 1
  area : log.start.toNat + log.size ≤ 2 ^ 32
  outside (block : Word) (h : block ∈ log.lh.block) : ¬ log.InArea block

structure Ready (log : Log) (disk : Word → Block) : Prop extends log.Fits where
  header : disk log.start 0 = 0

-- What the transaction is for: the logged blocks get what the cache holds for them.
def contents (log : Log) (store : Store Word Block) : Word → Block := fun block =>
  if log.lh.block.contains block then store.read block else store.disk block

variable {log : Log}

variable {block : Word} {entry : Word × Nat}

theorem mem_entries {tail : Nat} : (block, tail) ∈ log.entries ↔ log.lh.block[tail]? = some block :=
  List.mem_zipIdx_iff_getElem?

theorem mem_of_mem_entries (h : entry ∈ log.entries) : entry.1 ∈ log.lh.block :=
  List.mem_of_getElem? (mem_entries.mp h)

namespace Fits

section

variable (h : log.Fits) (hentry : entry ∈ log.entries)

include h hentry

theorem lt_of_mem_entries : (entry.2 : Int) + 1 < log.size := by
  have hlt := (List.getElem?_eq_some_iff.mp (mem_entries.mp hentry)).1
  have hroom := h.room
  unfold Logheader.n at hroom
  omega

theorem slot_toNat : (log.slot entry.2).toNat = log.start.toNat + (entry.2 + 1) := by
  have hlt := h.lt_of_mem_entries hentry
  have harea := h.area
  rw [slot, BitVec.toNat_add, BitVec.toNat_ofNat, Nat.mod_eq_of_lt (by omega), Nat.mod_eq_of_lt (by omega)]

theorem slot_inArea : log.InArea (log.slot entry.2) := by
  have hlt := h.lt_of_mem_entries hentry
  have hslot := h.slot_toNat hentry
  unfold InArea
  omega

theorem slot_ne_start : log.slot entry.2 ≠ log.start := by
  intro heq
  have hslot := h.slot_toNat hentry
  rw [heq] at hslot
  omega

theorem slot_ne_block (hblock : block ∈ log.lh.block) : log.slot entry.2 ≠ block := by
  rintro rfl
  exact h.outside _ hblock (h.slot_inArea hentry)

end

theorem eq_of_slot_eq (h : log.Fits) {first second : Word × Nat} (hfirst : first ∈ log.entries)
    (hsecond : second ∈ log.entries) (hslot : log.slot first.2 = log.slot second.2) : first.1 = second.1 := by
  have hleft := h.slot_toNat hfirst
  have hright := h.slot_toNat hsecond
  have htail : first.2 = second.2 := by
    rw [hslot] at hleft
    omega
  have hblock := mem_entries.mp hfirst
  rw [htail, mem_entries.mp hsecond] at hblock
  exact (Option.some.inj hblock).symm

theorem start_inArea (h : log.Fits) : log.InArea log.start := by
  have hroom := h.room
  unfold Logheader.n at hroom
  unfold InArea
  omega

end Fits

-- No transaction is in the log, and these are the contents of the file system.
def Settled (log : Log) (contents disk : Word → Block) : Prop :=
  disk log.start 0 = 0 ∧ ∀ block, ¬ log.InArea block → disk block = contents block

-- The log holds the new contents of the logged blocks. It does not matter what their home
-- locations hold.
structure Pending (log : Log) (new disk : Word → Block) : Prop where
  header : Logheader.load (disk log.start) = some log.lh
  slots (entry : Word × Nat) (h : entry ∈ log.entries) : disk (log.slot entry.2) = new entry.1
  home (block : Word) (harea : ¬ log.InArea block) (hblock : block ∉ log.lh.block) : disk block = new block

def Recoverable (log : Log) (old new disk : Word → Block) : Prop :=
  log.Settled old disk ∨ log.Pending new disk ∨ log.Settled new disk

-- The writes of write_log and of install_trans when these are the new contents.
def slotWrites (log : Log) (new : Word → Block) : List (Word × Block) :=
  log.entries.map fun entry => (log.slot entry.2, new entry.1)

def homeWrites (log : Log) (new : Word → Block) : List (Word × Block) :=
  log.entries.map fun entry => (entry.1, new entry.1)

section Writes

variable {old new disk contents : Word → Block}

theorem writeLog_spec (h : log.Fits) (store : Store Word Block) :
    (log.writeLog store).base = store.base ∧
      (log.writeLog store).writes = store.writes ++ log.slotWrites store.read ∧
      (log.writeLog store).read = applyWrites store.read (log.slotWrites store.read) := by
  have hspec := store.copy_spec (log.entries.map fun entry => (log.slot entry.2, entry.1)) (by
    intro pair hpair other hother
    obtain ⟨entry, hentry, rfl⟩ := mem_map.mp hpair
    obtain ⟨source, hsource, rfl⟩ := mem_map.mp hother
    exact h.slot_ne_block hentry (mem_of_mem_entries hsource))
  rw [map_map] at hspec
  exact hspec

theorem installTrans_spec (h : log.Fits) (store : Store Word Block)
    (hslots : ∀ entry ∈ log.entries, store.read (log.slot entry.2) = new entry.1) :
    (log.installTrans store).base = store.base ∧
      (log.installTrans store).writes = store.writes ++ log.homeWrites new := by
  have hspec := store.copy_spec (log.entries.map fun entry => (entry.1, log.slot entry.2)) (by
    intro pair hpair other hother
    obtain ⟨entry, hentry, rfl⟩ := mem_map.mp hpair
    obtain ⟨source, hsource, rfl⟩ := mem_map.mp hother
    exact (h.slot_ne_block hsource (mem_of_mem_entries hentry)).symm)
  refine ⟨hspec.1, hspec.2.1.trans ?_⟩
  rw [map_map]
  refine congrArg (store.writes ++ ·) (map_congr_left fun entry hentry => ?_)
  exact Prod.ext rfl (hslots entry hentry)

theorem applyWrites_slotWrites (h : log.Fits) (hentry : entry ∈ log.entries) :
    applyWrites disk (log.slotWrites new) (log.slot entry.2) = new entry.1 := by
  refine applyWrites_of_mem (mem_map.mpr ⟨entry, hentry, rfl⟩) ?_
  intro write hwrite hslot
  obtain ⟨other, hother, rfl⟩ := mem_map.mp hwrite
  rw [h.eq_of_slot_eq hother hentry hslot]

theorem applyWrites_homeWrites (hblock : block ∈ log.lh.block) :
    applyWrites disk (log.homeWrites new) block = new block := by
  obtain ⟨tail, htail⟩ := mem_iff_getElem?.mp hblock
  refine applyWrites_of_mem (mem_map.mpr ⟨(block, tail), mem_entries.mpr htail, rfl⟩) ?_
  intro write hwrite hhome
  obtain ⟨other, -, rfl⟩ := mem_map.mp hwrite
  exact congrArg new hhome

-- A write to the log area past the header changes nothing for the file system.
theorem Settled.slots (h : log.Fits) (hdisk : log.Settled contents disk) :
    Throughout (log.Settled contents) disk (log.slotWrites new) := by
  refine .of_step hdisk ?_
  intro write hwrite disk hsettled
  obtain ⟨entry, hentry, rfl⟩ := mem_map.mp hwrite
  refine ⟨?_, fun block harea => ?_⟩
  · rw [update_of_ne (h.slot_ne_start hentry).symm]
    exact hsettled.1
  · have hne : block ≠ log.slot entry.2 := by
      rintro rfl
      exact harea (h.slot_inArea hentry)
    rw [update_of_ne hne]
    exact hsettled.2 block harea

theorem Settled.erase (h : log.Fits) (hdisk : log.Settled contents disk) (block : Block) :
    log.Settled contents (update disk log.start (Logheader.empty.store block)) := by
  refine ⟨by rw [update_self]; rfl, fun other harea => ?_⟩
  have hne : other ≠ log.start := by
    rintro rfl
    exact harea h.start_inArea
  rw [update_of_ne hne]
  exact hdisk.2 other harea

-- The write of the header is the commit.
theorem Settled.commit (h : log.Fits) (hdisk : log.Settled old disk)
    (hslots : ∀ entry ∈ log.entries, disk (log.slot entry.2) = new entry.1)
    (hsame : ∀ block, block ∉ log.lh.block → new block = old block) (block : Block) :
    log.Pending new (update disk log.start (log.lh.store block)) := by
  refine ⟨by rw [update_self, Logheader.load_store], fun entry hentry => ?_, fun other harea hother => ?_⟩
  · rw [update_of_ne (h.slot_ne_start hentry), hslots entry hentry]
  · have hne : other ≠ log.start := by
      rintro rfl
      exact harea h.start_inArea
    rw [update_of_ne hne, hdisk.2 other harea, hsame other hother]

section

variable (h : log.Fits) (hdisk : log.Pending new disk)

include h hdisk

theorem Pending.install : Throughout (log.Pending new) disk (log.homeWrites new) := by
  refine .of_step hdisk ?_
  intro write hwrite disk hpending
  obtain ⟨entry, hentry, rfl⟩ := mem_map.mp hwrite
  have hlogged := mem_of_mem_entries hentry
  refine ⟨?_, fun other hother => ?_, fun block harea hblock => ?_⟩
  · have hne : log.start ≠ entry.1 := by
      intro heq
      exact h.outside _ hlogged (heq ▸ h.start_inArea)
    rw [update_of_ne hne]
    exact hpending.header
  · rw [update_of_ne (h.slot_ne_block hother hlogged)]
    exact hpending.slots other hother
  · have hne : block ≠ entry.1 := by
      rintro rfl
      exact hblock hlogged
    rw [update_of_ne hne]
    exact hpending.home block harea hblock

theorem Pending.erase (hhome : ∀ block ∈ log.lh.block, disk block = new block) (block : Block) :
    log.Settled new (update disk log.start (Logheader.empty.store block)) := by
  refine ⟨by rw [update_self]; rfl, fun other harea => ?_⟩
  have hne : other ≠ log.start := by
    rintro rfl
    exact harea h.start_inArea
  rw [update_of_ne hne]
  by_cases hother : other ∈ log.lh.block
  · exact hhome other hother
  · exact hdisk.home other harea hother

-- From the commit on, in commit itself and in recovery, the same writes follow.
theorem Pending.finish (block : Block) :
    Throughout (log.Recoverable old new) disk (log.homeWrites new ++ [(log.start, Logheader.empty.store block)]) ∧
      log.Settled new (applyWrites disk (log.homeWrites new ++ [(log.start, Logheader.empty.store block)])) := by
  have hinstall := hdisk.install h
  have hsettled := hinstall.last.erase h (fun other hother => applyWrites_homeWrites hother) block
  refine ⟨(hinstall.mono fun _ hpending => .inr (.inl hpending)).append ?_, by rwa [applyWrites_append]⟩
  exact .singleton (.inr (.inl hinstall.last)) (.inr (.inr hsettled))

end

theorem contents_of_mem_entries (store : Store Word Block) (h : entry ∈ log.entries) :
    log.contents store entry.1 = store.read entry.1 :=
  if_pos (List.contains_iff_mem.mpr (mem_of_mem_entries h))

theorem slotWrites_contents (store : Store Word Block) :
    log.slotWrites (log.contents store) = log.slotWrites store.read :=
  List.map_congr_left fun entry hentry => by rw [contents_of_mem_entries store hentry]

theorem homeWrites_contents (store : Store Word Block) :
    log.homeWrites (log.contents store) = log.homeWrites store.read :=
  List.map_congr_left fun entry hentry => by rw [contents_of_mem_entries store hentry]

theorem commit_writes (h : log.Fits) (hn : log.lh.n > 0) (store : Store Word Block) :
    ∃ first last, (log.commit store).2.base = store.base ∧
      (log.commit store).2.writes = store.writes ++ (log.slotWrites store.read ++ [(log.start, log.lh.store first)] ++
        (log.homeWrites store.read ++ [(log.start, Logheader.empty.store last)])) := by
  obtain ⟨hbase, hwrites, hread⟩ := writeLog_spec h store
  have hslots : ∀ entry ∈ log.entries,
      (log.writeHead (log.writeLog store)).read (log.slot entry.2) = store.read entry.1 := by
    intro entry hentry
    rw [writeHead, Store.read_write, update_of_ne (h.slot_ne_start hentry), hread]
    exact applyWrites_slotWrites h hentry
  obtain ⟨hbase', hwrites'⟩ := installTrans_spec h _ hslots
  refine ⟨(log.writeLog store).read log.start,
    (log.installTrans (log.writeHead (log.writeLog store))).read log.start, ?_, ?_⟩
  · rw [commit, if_pos hn]
    exact hbase'.trans hbase
  · rw [commit, if_pos hn]
    calc (log.installTrans (log.writeHead (log.writeLog store))).writes ++ [_]
        = ((log.writeLog store).writes ++ [_]) ++ log.homeWrites store.read ++ [_] := by rw [hwrites']; rfl
      _ = _ := by rw [hwrites]; simp only [append_assoc]; rfl

theorem Settled.through (h : log.Fits) (hdisk : log.Settled old disk)
    (hsame : ∀ block, block ∉ log.lh.block → new block = old block) (first last : Block) :
    Throughout (log.Recoverable old new) disk (log.slotWrites new ++ [(log.start, log.lh.store first)] ++
      (log.homeWrites new ++ [(log.start, Logheader.empty.store last)])) := by
  have hslots : Throughout (log.Settled old) disk (log.slotWrites new) := hdisk.slots h
  have hpending := hslots.last.commit h (fun _ hentry => applyWrites_slotWrites h hentry) hsame first
  have hbefore : Throughout (log.Recoverable old new) disk (log.slotWrites new ++ [(log.start, log.lh.store first)]) :=
    (hslots.mono fun _ hsettled => .inl hsettled).append (.singleton (.inl hslots.last) (.inr (.inl hpending)))
  refine hbefore.append ?_
  rw [applyWrites_append]
  exact (hpending.finish h last).1

theorem commit_recoverable (h : log.Ready disk) (cache : Word → Option Block) (count : Nat) :
    log.Recoverable disk (log.contents ⟨disk, [], cache⟩) ((log.commit ⟨disk, [], cache⟩).2.crash count) := by
  have hstart : log.Settled disk disk := ⟨h.header, fun _ _ => rfl⟩
  by_cases hn : log.lh.n > 0
  · obtain ⟨first, last, hbase, hwrites⟩ := commit_writes h.toFits hn ⟨disk, [], cache⟩
    rw [← slotWrites_contents, ← homeWrites_contents] at hwrites
    rw [Store.crash, hbase, hwrites]
    exact hstart.through h.toFits (fun _ hblock => if_neg (by simpa using hblock)) first last count
  · rw [commit, if_neg hn, Store.crash, take_nil]
    exact .inl hstart

theorem recover_settled (h : log.Fits) (hdisk : log.Settled contents disk) :
    ∃ done, log.recoverFromLog (.boot disk) = some done ∧ done.2.base = disk ∧
      Throughout (log.Settled contents) disk done.2.writes := by
  have hload : log.readHead (.boot disk) = some log.clear := by
    rw [readHead, show (Store.boot disk).read log.start = disk log.start from rfl, Logheader.load_of_zero hdisk.1]
    rfl
  refine ⟨_, by rw [recoverFromLog, hload]; rfl, rfl, ?_⟩
  exact .singleton hdisk (hdisk.erase h _)

theorem recover_pending (old : Word → Block) (h : log.Fits) (hdisk : log.Pending new disk) :
    ∃ done, log.recoverFromLog (.boot disk) = some done ∧ done.2.base = disk ∧
      Throughout (log.Recoverable old new) disk done.2.writes ∧ log.Settled new (applyWrites disk done.2.writes) := by
  have hload : log.readHead (.boot disk) = some log := by
    rw [readHead, show (Store.boot disk).read log.start = disk log.start from rfl, hdisk.header]
    rfl
  obtain ⟨hbase, hwrites⟩ := installTrans_spec h (.boot disk) hdisk.slots
  refine ⟨_, by rw [recoverFromLog, hload]; rfl, hbase, ?_⟩
  have hall : (log.clear.writeHead (log.installTrans (.boot disk))).writes = log.homeWrites new ++
      [(log.start, Logheader.empty.store ((log.installTrans (.boot disk)).read log.start))] :=
    congrArg (· ++ [_]) hwrites
  rw [hall]
  exact hdisk.finish h _

theorem recover_recoverable (h : log.Fits) (hdisk : log.Recoverable old new disk) :
    ∃ done, log.recoverFromLog (.boot disk) = some done ∧ (∀ count, log.Recoverable old new (done.2.crash count)) ∧
      (log.Settled old done.2.disk ∨ log.Settled new done.2.disk) := by
  rcases hdisk with hsettled | hpending | hsettled
  · obtain ⟨done, hdone, hbase, hall⟩ := recover_settled h hsettled
    exact ⟨done, hdone, fun count => .inl (by rw [Store.crash, hbase]; exact hall count),
      .inl (by rw [Store.disk, hbase]; exact hall.last)⟩
  · obtain ⟨done, hdone, hbase, hall, hlast⟩ := recover_pending old h hpending
    exact ⟨done, hdone, fun count => by rw [Store.crash, hbase]; exact hall count,
      .inr (by rw [Store.disk, hbase]; exact hlast)⟩
  · obtain ⟨done, hdone, hbase, hall⟩ := recover_settled h hsettled
    exact ⟨done, hdone, fun count => .inr (.inr (by rw [Store.crash, hbase]; exact hall count)),
      .inr (by rw [Store.disk, hbase]; exact hall.last)⟩

end Writes

theorem commit_atomic {disk : Word → Block} (h : log.Ready disk) (cache : Word → Option Block) (count : Nat)
    {later : Word → Block}
    (hcrashes : Relation.ReflTransGen log.Crashes ((log.commit ⟨disk, [], cache⟩).2.crash count) later) :
    ∃ done, log.recoverFromLog (.boot later) = some done ∧
      (log.Settled disk done.2.disk ∨ log.Settled (log.contents ⟨disk, [], cache⟩) done.2.disk) := by
  have hlater : log.Recoverable disk (log.contents ⟨disk, [], cache⟩) later := by
    induction hcrashes with
    | refl => exact commit_recoverable h cache count
    | tail _ hcrash ih =>
      obtain ⟨done, cut, hdone, rfl⟩ := hcrash
      obtain ⟨same, hsame, hall, -⟩ := recover_recoverable h.toFits ih
      rw [hdone, Option.some.injEq] at hsame
      rw [hsame]
      exact hall cut
  obtain ⟨done, hdone, -, hsettled⟩ := recover_recoverable h.toFits hlater
  exact ⟨done, hdone, hsettled⟩

-- A transaction of two blocks. The first crash comes right after the header is written, the
-- second one when recovery has written one block.
theorem commit_atomic_twice :
    ∃ (log : Log) (disk later : Word → Block) (cache : Word → Option Block),
      log.Ready disk ∧ log.Crashes ((log.commit ⟨disk, [], cache⟩).2.crash 3) later ∧
        (∀ block ∈ [40, 41], log.contents ⟨disk, [], cache⟩ block ≠ disk block) ∧
        ∃ done, log.recoverFromLog (.boot later) = some done ∧
          (log.Settled disk done.2.disk ∨ log.Settled (log.contents ⟨disk, [], cache⟩) done.2.disk) := by
  let log : Log := ⟨2, 30, 0, true, ⟨[40, 41], by decide⟩⟩
  let disk : Word → Block := fun _ _ => 0
  let cache : Word → Option Block := fun block => some fun _ => block
  have hready : log.Ready disk := by
    refine ⟨⟨by decide, by decide, ?_⟩, rfl⟩
    intro block hblock
    rw [InArea]
    rcases mem_pair.mp hblock with rfl | rfl <;> decide
  obtain ⟨done, hdone, -⟩ := recover_recoverable hready.toFits (commit_recoverable hready cache 3)
  have hcrash : log.Crashes ((log.commit ⟨disk, [], cache⟩).2.crash 3) (done.2.crash 1) := ⟨done, 1, hdone, rfl⟩
  refine ⟨log, disk, _, cache, hready, hcrash, ?_, commit_atomic hready cache 3 (.single hcrash)⟩
  intro block hblock hsame
  have hword : block = 0 := by
    rcases mem_pair.mp hblock with rfl | rfl <;> exact congrFun hsame 0
  subst hword
  simp at hblock

end Log

end Xv6
