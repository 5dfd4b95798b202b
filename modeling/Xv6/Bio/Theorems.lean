import Xv6.Bio
import Xv6.Coherence

namespace Xv6

open Function (update update_of_ne update_self)
open Option

-- The buffer to which the process has a reference besides those that it has locked.
def BioDoing.on : BioDoing → Option (Fin NBUF)
  | .bget b _ _ | .brelse b => some b
  | .idle | .bread _ | .iderw _ | .logWrite _ => none

def BioPlace.weight (b : Fin NBUF) (place : BioPlace) : Nat :=
  (if (place.held b).isSome then 1 else 0) + if place.doing.on = some b then 1 else 0

theorem Sleeplock.eq_of_holdingsleep {Process : Type} [DecidableEq Process] {lock : Sleeplock Process} {me : Process}
    (h : lock.holdingsleep me) : lock = ⟨true, some me⟩ := by
  simp only [holdingsleep, Bool.and_eq_true, decide_eq_true_eq] at h
  rw [← h.1, ← h.2]

namespace Bio

variable {Process Data : Type} {bio next : Bio Process Data} {place : Process → BioPlace}
variable {me : Process} {here there : BioPlace} {b : Fin NBUF}

-- The buffers as a cache of disk 1.
def cache (bio : Bio Process Data) : Cache (Fin NBUF) Word Data where
  key b := if (bio.buf b).dev = 1 then some (bio.buf b).blockno else none
  copy b := if (bio.buf b).valid then some (bio.buf b).data else none
  marked b := (bio.buf b).dirty || bio.modified b
  store := bio.memdisk
  current := bio.written

-- What a process knows about the buffers that it uses.
structure Sees (bio : Bio Process Data) (me : Process) (place : BioPlace) : Prop where
  lock (b : Fin NBUF) : (place.held b).isSome ↔ bio.lock b = ⟨true, some me⟩
  block (b : Fin NBUF) (dev blockno : Word)
    (h : place.held b = some (dev, blockno) ∨ place.doing = .bget b dev blockno) :
    (bio.buf b).dev = dev ∧ (bio.buf b).blockno = blockno
  loaded (b : Fin NBUF) (h : (place.held b).isSome) :
    (bio.buf b).valid ∨ place.doing = .bread b ∨ place.doing = .iderw b
  holds (b : Fin NBUF) (h : place.doing = .bread b ∨ place.doing = .iderw b ∨ place.doing = .logWrite b) :
    (place.held b).isSome

structure Holds (bio : Bio Process Data) (place : Process → BioPlace) : Prop where
  cache : bio.cache.Coherent
  listed (b : Fin NBUF) : b ∈ bio.head
  refs (b : Fin NBUF) : Monitor.Total place (BioPlace.weight b) (bio.refcnt b)
  sees (process : Process) : Sees bio process (place process)
  disk1 (b : Fin NBUF) (h : (bio.buf b).valid) : (bio.buf b).dev = 1
  marked (b : Fin NBUF) (h : bio.cache.marked b) : (bio.buf b).valid
  modified (b : Fin NBUF) (h : bio.modified b) : ∃ process, ((place process).held b).isSome

-- What this step leaves to the other processes.
structure Kept (me : Process) (bio next : Bio Process Data) : Prop where
  lock (b : Fin NBUF) (process : Process) (h : process ≠ me) :
    next.lock b = ⟨true, some process⟩ ↔ bio.lock b = ⟨true, some process⟩
  buf (b : Fin NBUF) (h : 0 < bio.refcnt b) :
    (next.buf b).dev = (bio.buf b).dev ∧ (next.buf b).blockno = (bio.buf b).blockno ∧
      ((bio.buf b).valid → (next.buf b).valid)

theorem Kept.of_eq (hlock : next.lock = bio.lock) (hbuf : next.buf = bio.buf) : Kept me bio next where
  lock b process _ := by rw [hlock]
  buf b _ := by simp [hbuf]

variable {buf : Buf Data} {turn : Turn (Bio Process Data) BioPlace Empty} {doing : BioDoing} {other : Fin NBUF}
  {state : Monitor.State Process (Bio Process Data) BioPlace Empty BioPanic}

-- Another block is not read into the buffer, and it does not become invalid.
theorem Kept.setBuf (hlock : next.lock = bio.lock) (hbuf : next.buf = update bio.buf b buf)
    (hdev : buf.dev = (bio.buf b).dev) (hblockno : buf.blockno = (bio.buf b).blockno)
    (hvalid : (bio.buf b).valid → buf.valid) : Kept me bio next where
  lock other process _ := by rw [hlock]
  buf other _ := by
    rw [hbuf]
    by_cases hother : other = b
    · subst hother
      simpa [hdev, hblockno] using hvalid
    · simp [hother]

theorem weight_pos_of_held (h : (here.held b).isSome) : 0 < here.weight b := by
  rw [BioPlace.weight, if_pos h]
  omega

theorem weight_pos_of_on (h : here.doing.on = some b) : 0 < here.weight b := by
  simp [BioPlace.weight, h]

-- What a process at rest has locked is valid.
theorem Sees.valid (h : Sees bio me here) (hnot : here.doing ≠ .bread b ∧ here.doing ≠ .iderw b)
    (hheld : (here.held b).isSome) : (bio.buf b).valid := by
  refine (h.loaded b hheld).resolve_right ?_
  rintro (hbread | hiderw)
  · exact hnot.1 hbread
  · exact hnot.2 hiderw

theorem Sees.kept (h : Sees bio me here) {mover : Process} (hne : me ≠ mover) (hkept : Kept mover bio next)
    (hrefs : ∀ b, 0 < here.weight b → 0 < bio.refcnt b) : Sees next me here where
  lock b := (h.lock b).trans (hkept.lock b me hne).symm
  block b dev blockno huse := by
    have hweight : 0 < here.weight b := by
      rcases huse with hheld | hdoing
      · exact weight_pos_of_held (by simp [hheld])
      · exact weight_pos_of_on (by simp [hdoing, BioDoing.on])
    obtain ⟨hdev, hblockno, -⟩ := hkept.buf b (hrefs b hweight)
    rw [hdev, hblockno]
    exact h.block b dev blockno huse
  loaded b hheld := by
    obtain ⟨-, -, hvalid⟩ := hkept.buf b (hrefs b (weight_pos_of_held hheld))
    exact (h.loaded b hheld).imp hvalid id
  holds := h.holds

section Bget

variable {dev blockno : Word} (hbget : bio.bget dev blockno = some (next, b))

include hbget

-- bget finds the buffer of the block, or takes one that nobody uses.
theorem bget_cases :
    ((bio.buf b).dev = dev ∧ (bio.buf b).blockno = blockno ∧ next = bio.setRefcnt b (bio.refcnt b + 1)) ∨
      ((∀ other ∈ bio.head, ¬((bio.buf other).dev = dev ∧ (bio.buf other).blockno = blockno)) ∧
        bio.refcnt b = 0 ∧ (bio.buf b).dirty = false ∧
        next = (bio.setBuf b { bio.buf b with dev, blockno, valid := false, dirty := false }).setRefcnt b 1) := by
  unfold bget at hbget
  cases hfind : bio.head.find? fun b => (bio.buf b).dev = dev ∧ (bio.buf b).blockno = blockno with
  | some found =>
    rw [hfind] at hbget
    simp only [some.injEq, Prod.mk.injEq] at hbget
    obtain ⟨rfl, rfl⟩ := hbget
    have hfound := List.find?_some hfind
    simp only [decide_eq_true_eq] at hfound
    exact .inl ⟨hfound.1, hfound.2, rfl⟩
  | none =>
    rw [hfind] at hbget
    have hnone := List.find?_eq_none.mp hfind
    simp only [decide_eq_true_eq] at hnone
    cases hfree : bio.head.reverse.find? fun b => bio.refcnt b = 0 ∧ (bio.buf b).dirty = false with
    | none =>
      rw [hfree] at hbget
      cases hbget
    | some found =>
      rw [hfree] at hbget
      simp only [some.injEq, Prod.mk.injEq] at hbget
      obtain ⟨rfl, rfl⟩ := hbget
      have hfound := List.find?_some hfree
      simp only [decide_eq_true_eq] at hfound
      exact .inr ⟨hnone, hfound.1, hfound.2, rfl⟩

theorem bget_refcnt (other : Fin NBUF) : next.refcnt other = bio.refcnt other + if other = b then 1 else 0 := by
  rcases bget_cases hbget with ⟨-, -, rfl⟩ | ⟨-, hfree, -, rfl⟩
  · by_cases hother : other = b
    · subst hother
      simp [setRefcnt]
    · simp [setRefcnt, hother]
  · by_cases hother : other = b
    · subst hother
      simp [setRefcnt, hfree]
    · simp [setRefcnt, setBuf, hother]

end Bget

theorem beside (hbuf : ∀ other ≠ b, next.buf other = bio.buf other)
    (hmodified : ∀ other ≠ b, next.modified other = bio.modified other) : Cache.Beside b bio.cache next.cache where
  key other hother := by simp only [cache, hbuf other hother]
  copy other hother := by simp only [cache, hbuf other hother]
  marked other hother := by simp only [cache, hbuf other hother, hmodified other hother]

variable [DecidableEq Process]

-- What a turn does.
inductive Moves (bio : Bio Process Data) (me : Process) (here : BioPlace) : Bio Process Data → BioPlace → Prop
  | bget (b : Fin NBUF) (dev blockno : Word) (next : Bio Process Data) (hidle : here.doing = .idle)
      (hbget : bio.bget dev blockno = some (next, b)) :
      Moves bio me here next { here with doing := .bget b dev blockno }
  | acquiresleep (b : Fin NBUF) (dev blockno : Word) (hdoing : here.doing = .bget b dev blockno)
      (hfree : (bio.lock b).locked = false) :
      Moves bio me here (bio.setLock b ⟨true, some me⟩)
        ⟨.bread b, update here.held b (some (dev, blockno))⟩
  | returns (b : Fin NBUF) (hdoing : here.doing = .bread b) (hvalid : (bio.buf b).valid) :
      Moves bio me here bio { here with doing := .idle }
  | reads (b : Fin NBUF) (hdoing : here.doing = .bread b) : Moves bio me here bio { here with doing := .iderw b }
  | iderw (b : Fin NBUF) (next : Bio Process Data) (hdoing : here.doing = .iderw b)
      (hiderw : bio.iderw me b = .ok next) : Moves bio me here next { here with doing := .idle }
  | modify (b : Fin NBUF) (data : Data) (hidle : here.doing = .idle) (hheld : (here.held b).isSome) :
      Moves bio me here
        { (bio.setBuf b { bio.buf b with data }).setModified b true with
          written := update bio.written (bio.buf b).blockno data }
        { here with doing := .idle }
  | logCheck (b : Fin NBUF) (hidle : here.doing = .idle) (hheld : (here.held b).isSome) :
      Moves bio me here bio { here with doing := .logWrite b }
  | logWrite (b : Fin NBUF) (log : Log) (hdoing : here.doing = .logWrite b) :
      Moves bio me here { (bio.setBuf b { bio.buf b with dirty := true }).setModified b false with log }
        { here with doing := .idle }
  | bwrite (b : Fin NBUF) (hidle : here.doing = .idle) (hlock : (bio.lock b).holdingsleep me) :
      Moves bio me here ((bio.setBuf b { bio.buf b with dirty := true }).setModified b false)
        { here with doing := .iderw b }
  | brelse (b : Fin NBUF) (hidle : here.doing = .idle) (hlock : (bio.lock b).holdingsleep me)
      (hclean : bio.modified b = false) :
      Moves bio me here (bio.setLock b (bio.lock b).releasesleep) ⟨.brelse b, update here.held b none⟩
  | unref (b : Fin NBUF) (hdoing : here.doing = .brelse b) :
      Moves bio me here
        { bio.setRefcnt b (bio.refcnt b - 1) with
          head := if bio.refcnt b - 1 = 0 then b :: bio.head.erase b else bio.head }
        { here with doing := .idle }

theorem proceed_moves (hdoing : here.doing = doing) (hturn : bio.proceed me here doing = some (.turn turn)) :
    Moves bio me here turn.data turn.place := by
  cases doing with
  | idle => cases hturn
  | bget b dev blockno =>
    rw [proceed, acquiresleep, Sleeplock.acquiresleep] at hturn
    split at hturn
    · cases hturn
    · rename_i hlock
      rw [ite_none_left_eq_some, some.injEq] at hlock
      obtain ⟨hfree, rfl⟩ := hlock
      cases hturn
      exact .acquiresleep b dev blockno hdoing (by simpa using hfree)
  | bread b =>
    rw [proceed, checkValid] at hturn
    split_ifs at hturn with hvalid
    · cases hturn
      exact .returns b hdoing hvalid
    · cases hturn
      exact .reads b hdoing
  | iderw b =>
    rw [proceed, sync] at hturn
    split at hturn
    · cases hturn
    · rename_i hiderw
      cases hturn
      exact .iderw b _ hdoing hiderw
  | logWrite b =>
    rw [proceed, logWrite] at hturn
    split at hturn
    · cases hturn
    · cases hturn
      exact .logWrite b _ hdoing
  | brelse b =>
    cases hturn
    exact .unref b hdoing

theorem turn_moves {choice : BioChoice Data} (hturn : bio.turn me here choice here.doing = some (.turn turn)) :
    Moves bio me here turn.data turn.place := by
  by_cases hidle : here.doing = .idle
  · rw [hidle] at hturn
    cases choice with
    | bread dev blockno =>
      rw [Bio.turn, bread] at hturn
      split at hturn
      · cases hturn
      · rename_i hbget
        cases hturn
        exact .bget _ dev blockno _ hidle hbget
    | modify b data =>
      rw [Bio.turn, modify, ite_none_right_eq_some] at hturn
      obtain ⟨hheld, hturn⟩ := hturn
      cases hturn
      exact .modify b data hidle hheld
    | logWrite b =>
      rw [Bio.turn, logCheck, ite_none_right_eq_some] at hturn
      obtain ⟨hheld, hturn⟩ := hturn
      split at hturn
      · cases hturn
      · cases hturn
        exact .logCheck b hidle hheld
    | bwrite b =>
      rw [Bio.turn, bwrite] at hturn
      split_ifs at hturn with hlock
      · cases hturn
      · cases hturn
        exact .bwrite b hidle (by simpa using hlock)
    | brelse b =>
      rw [Bio.turn, brelse] at hturn
      split_ifs at hturn with hlock hmodified
      · cases hturn
      · cases hturn
        exact .brelse b hidle (by simpa using hlock) (by simpa using hmodified)
    | proceed => cases hturn
  · cases choice with
    | proceed => exact proceed_moves rfl hturn
    | bread dev blockno | modify b data | logWrite b | bwrite b | brelse b =>
      cases hdoing : here.doing with
      | idle => exact absurd hdoing hidle
      | bget | bread | iderw | logWrite | brelse =>
        rw [hdoing] at hturn
        cases hturn

namespace Holds

variable (h : Holds bio place)

include h

theorem refcnt_pos {process : Process} (hweight : 0 < (place process).weight b) : 0 < bio.refcnt b := by
  have hle := (h.refs b).le process
  omega

theorem not_held_of_free (hfree : bio.refcnt b = 0) (process : Process) : (place process).held b = none := by
  by_contra hheld
  have hpos := h.refcnt_pos (weight_pos_of_held (isSome_iff_ne_none.mpr hheld))
  omega

theorem not_modified_of_free (hfree : bio.refcnt b = 0) : bio.modified b = false := by
  by_contra hmodified
  obtain ⟨process, hheld⟩ := h.modified b (by simpa using hmodified)
  simp [h.not_held_of_free hfree process] at hheld

-- One process has moved.
theorem move (hkept : Kept me bio next) (hmine : Sees next me there) (hcache : next.cache.Coherent)
    (hlisted : ∀ b, b ∈ next.head)
    (hrefs : ∀ b, (next.refcnt b : Int) = bio.refcnt b - (place me).weight b + there.weight b)
    (hdisk1 : ∀ b, (next.buf b).valid → (next.buf b).dev = 1) (hmarked : ∀ b, next.cache.marked b → (next.buf b).valid)
    (hmodified : ∀ b, next.modified b → (there.held b).isSome ∨
      bio.modified b ∧ (((place me).held b).isSome → (there.held b).isSome)) : Holds next (update place me there) where
  cache := hcache
  listed := hlisted
  refs b := by
    rw [hrefs]
    exact (h.refs b).move me there
  sees process := by
    by_cases hprocess : process = me
    · subst hprocess
      rwa [update_self]
    · rw [update_of_ne hprocess]
      exact (h.sees process).kept hprocess hkept fun b hweight => h.refcnt_pos hweight
  disk1 := hdisk1
  marked := hmarked
  modified b hb := by
    rcases hmodified b hb with hmine | ⟨hbefore, hstill⟩
    · exact ⟨me, by rwa [update_self]⟩
    · obtain ⟨process, hheld⟩ := h.modified b hbefore
      by_cases hprocess : process = me
      · subst hprocess
        exact ⟨process, by rw [update_self]; exact hstill hheld⟩
      · exact ⟨process, by rwa [update_of_ne hprocess]⟩

-- Only the place has changed.
theorem stay (hbefore : (place me).doing.on = none) (hon : doing.on = none)
    (hloaded : ∀ b, ((place me).held b).isSome → (bio.buf b).valid ∨ doing = .bread b ∨ doing = .iderw b)
    (hholds : ∀ b, doing = .bread b ∨ doing = .iderw b ∨ doing = .logWrite b → ((place me).held b).isSome) :
    Holds bio (update place me { place me with doing }) := by
  refine h.move (.of_eq rfl rfl) ⟨(h.sees me).lock, ?_, hloaded, hholds⟩ h.cache h.listed (fun b => ?_) h.disk1 h.marked
    fun b hb => .inr ⟨hb, id⟩
  · rintro b dev blockno (hheld | rfl)
    · exact (h.sees me).block b dev blockno (.inl hheld)
    · cases hon
  · simp [BioPlace.weight, hbefore, hon]

omit [DecidableEq Process] in
theorem loaded_of_bread (hdoing : (place me).doing = .bread b) (hheld : ((place me).held other).isSome) :
    (bio.buf other).valid ∨ b = other := by
  rcases (h.sees me).loaded other hheld with hloaded | hbread | hiderw
  · exact .inl hloaded
  · rw [hdoing, BioDoing.bread.injEq] at hbread
    exact .inr hbread
  · simp [hdoing] at hiderw

variable {blockno : Word}

theorem bread {dev : Word} (hidle : (place me).doing = .idle) (hbget : bio.bget dev blockno = some (next, b)) :
    Holds next (update place me { place me with doing := .bget b dev blockno }) := by
  have hrefs : ∀ other, (next.refcnt other : Int) = bio.refcnt other - (place me).weight other +
      BioPlace.weight other { place me with doing := .bget b dev blockno } := by
    intro other
    rw [bget_refcnt hbget other]
    simp only [BioPlace.weight, hidle, BioDoing.on, some.injEq, eq_comm (a := b), reduceCtorEq, if_false]
    push_cast
    omega
  rcases bget_cases hbget with ⟨hdev, hblockno, rfl⟩ | ⟨hnone, hfree, hclean, rfl⟩
  · refine h.move (.of_eq rfl rfl) ⟨(h.sees me).lock, ?_, ?_, ?_⟩ h.cache h.listed hrefs h.disk1 h.marked ?_
    · rintro other dev' blockno' (hheld | hdoing)
      · exact (h.sees me).block other dev' blockno' (.inl hheld)
      · cases hdoing
        exact ⟨hdev, hblockno⟩
    · intro other hheld
      refine .inl (((h.sees me).loaded other hheld).resolve_right ?_)
      simp [hidle]
    · simp
    · exact fun other hmodified => .inr ⟨hmodified, id⟩
  · have hne : ∀ process other, (place process).held other ≠ none → other ≠ b := by
      rintro process other hheld rfl
      exact hheld (h.not_held_of_free hfree process)
    have hmodified := h.not_modified_of_free hfree
    refine h.move ⟨fun _ _ _ => Iff.rfl, ?_⟩ ⟨(h.sees me).lock, ?_, ?_, ?_⟩ ?_ h.listed hrefs ?_ ?_ ?_
    · intro other hpos
      have hother : other ≠ b := by
        rintro rfl
        omega
      simp [setRefcnt, setBuf, hother]
    · rintro other dev' blockno' (hheld | hdoing)
      · have hother := hne me other (hheld.trans_ne (some_ne_none _))
        simpa [setRefcnt, setBuf, hother] using (h.sees me).block other dev' blockno' (.inl hheld)
      · cases hdoing
        simp [setRefcnt, setBuf]
    · intro other hheld
      have hother := hne me other (isSome_iff_ne_none.mp hheld)
      have hvalid := ((h.sees me).loaded other hheld).resolve_right (by simp [hidle])
      exact .inl (by simpa [setRefcnt, setBuf, hother] using hvalid)
    · simp
    · refine h.cache.claim (beside (b := b) ?_ fun _ _ => rfl) ?_ ?_ ?_ rfl rfl
      · intro other hother
        simp [setRefcnt, setBuf, hother]
      · simp [Bio.cache, hclean, hmodified]
      · intro other hother key hkey
        simp only [Bio.cache, setRefcnt, setBuf, update_self, ite_none_right_eq_some, some.injEq] at hkey
        simp only [Bio.cache, ne_eq, ite_none_right_eq_some, some.injEq, not_and]
        intro hdev hblockno
        exact hnone other (h.listed other) ⟨hdev.trans hkey.1.symm, hblockno.trans hkey.2.symm⟩
      · simp [Bio.cache, setRefcnt, setBuf]
    · intro other hvalid
      have hother : other ≠ b := by
        rintro rfl
        simp [setRefcnt, setBuf] at hvalid
      simp only [setRefcnt, setBuf, update_of_ne hother] at hvalid ⊢
      exact h.disk1 other hvalid
    · intro other hmarked
      have hother : other ≠ b := by
        rintro rfl
        simp [Bio.cache, setRefcnt, setBuf, hmodified] at hmarked
      simp only [Bio.cache, setRefcnt, setBuf, update_of_ne hother] at hmarked ⊢
      exact h.marked other hmarked
    · exact fun other hmodified => .inr ⟨hmodified, id⟩

theorem acquiresleep {dev : Word} (hdoing : (place me).doing = .bget b dev blockno)
    (hfree : (bio.lock b).locked = false) :
    Holds (bio.setLock b ⟨true, some me⟩)
      (update place me ⟨.bread b, update (place me).held b (some (dev, blockno))⟩) := by
  have hheld : (place me).held b = none := by
    by_contra hheld
    have hlock := ((h.sees me).lock b).mp (isSome_iff_ne_none.mpr hheld)
    simp [hlock] at hfree
  refine h.move ⟨?_, fun _ _ => ⟨rfl, rfl, id⟩⟩ ⟨?_, ?_, ?_, ?_⟩ h.cache h.listed ?_ h.disk1 h.marked ?_
  · intro other process hprocess
    by_cases hother : other = b
    · subst hother
      simp only [setLock, update_self, Sleeplock.mk.injEq, some.injEq, true_and]
      refine ⟨fun heq => absurd heq.symm hprocess, fun heq => ?_⟩
      simp [heq] at hfree
    · simp [setLock, hother]
  · intro other
    by_cases hother : other = b
    · subst hother
      simp [setLock]
    · simpa [setLock, hother] using (h.sees me).lock other
  · rintro other dev' blockno' (hother | hother)
    · by_cases hb : other = b
      · subst hb
        simp only [update_self, some.injEq, Prod.mk.injEq] at hother
        obtain ⟨rfl, rfl⟩ := hother
        exact (h.sees me).block other _ _ (.inr hdoing)
      · simp only [update_of_ne hb] at hother
        exact (h.sees me).block other dev' blockno' (.inl hother)
    · cases hother
  · intro other hother
    by_cases hb : other = b
    · exact .inr (.inl (by rw [hb]))
    · simp only [update_of_ne hb] at hother
      refine .inl (((h.sees me).loaded other hother).resolve_right ?_)
      simp [hdoing]
  · rintro other (hother | hother | hother)
    · cases hother
      simp
    · cases hother
    · cases hother
  · intro other
    by_cases hother : other = b
    · subst hother
      simp [BioPlace.weight, BioDoing.on, hheld, hdoing, setLock]
    · simp [BioPlace.weight, BioDoing.on, hdoing, hother, Ne.symm hother, setLock]
  · intro other hmodified
    by_cases hother : other = b
    · subst hother
      simp
    · exact .inr ⟨hmodified, fun hsome => by simpa only [update_of_ne hother] using hsome⟩

-- The process changes a buffer that it has locked.
theorem edit (hheld : ((place me).held b).isSome) (hon : (place me).doing.on = none)
    (hrest : ∀ other ≠ b, (place me).doing ≠ .bread other ∧ (place me).doing ≠ .iderw other)
    (hbuf : next.buf = update bio.buf b buf) (hlock : next.lock = bio.lock) (hrefcnt : next.refcnt = bio.refcnt)
    (hhead : next.head = bio.head) (hmodified : ∀ other ≠ b, next.modified other = bio.modified other)
    (hdev : buf.dev = (bio.buf b).dev) (hblockno : buf.blockno = (bio.buf b).blockno)
    (hvalid : (bio.buf b).valid → buf.valid) (hdisk1 : buf.valid → buf.dev = 1)
    (hmarked : next.cache.marked b → buf.valid) (hdoing : doing = .idle ∧ buf.valid ∨ doing = .iderw b)
    (hcache : next.cache.Coherent) : Holds next (update place me { place me with doing }) := by
  have hself : next.buf b = buf := by rw [hbuf, update_self]
  have hother : ∀ other ≠ b, next.buf other = bio.buf other := fun other hne => by rw [hbuf, update_of_ne hne]
  refine h.move (.setBuf hlock hbuf hdev hblockno hvalid) ⟨?_, ?_, ?_, ?_⟩ hcache (hhead ▸ h.listed) ?_ ?_ ?_ ?_
  · intro other
    rw [hlock]
    exact (h.sees me).lock other
  · rintro other dev' blockno' (hsome | hbget)
    · have hblock := (h.sees me).block other dev' blockno' (.inl hsome)
      by_cases hb : other = b
      · subst hb
        rwa [hself, hdev, hblockno]
      · rwa [hother other hb]
    · rcases hdoing with ⟨hidle, -⟩ | hiderw
      · simp [hidle] at hbget
      · simp [hiderw] at hbget
  · intro other hsome
    by_cases hb : other = b
    · subst hb
      rw [hself]
      rcases hdoing with ⟨-, hvalid⟩ | hiderw
      · exact .inl hvalid
      · exact .inr (.inr hiderw)
    · rw [hother other hb]
      exact .inl ((h.sees me).valid (hrest other hb) hsome)
  · intro other hbusy
    rcases hdoing with ⟨hidle, -⟩ | hiderw
    · simp [hidle] at hbusy
    · simp only [hiderw, reduceCtorEq, BioDoing.iderw.injEq, false_or, or_false] at hbusy
      exact hbusy ▸ hheld
  · intro other
    have hweight : BioPlace.weight other { place me with doing } = (place me).weight other := by
      have hnone : doing.on = none := by
        rcases hdoing with ⟨hidle, -⟩ | hiderw
        · rw [hidle]
          rfl
        · rw [hiderw]
          rfl
      simp only [BioPlace.weight, hon, hnone]
    rw [hrefcnt, hweight]
    omega
  · intro other hnext
    by_cases hb : other = b
    · subst hb
      rw [hself] at hnext ⊢
      exact hdisk1 hnext
    · rw [hother other hb] at hnext ⊢
      exact h.disk1 other hnext
  · intro other hmark
    by_cases hb : other = b
    · subst hb
      rw [hself]
      exact hmarked hmark
    · rw [(beside hother hmodified).marked other hb] at hmark
      rw [hother other hb]
      exact h.marked other hmark
  · intro other hmod
    by_cases hb : other = b
    · subst hb
      exact .inl hheld
    · exact .inr ⟨hmodified other hb ▸ hmod, id⟩

omit [DecidableEq Process] in
theorem key_eq (hvalid : (bio.buf b).valid) : bio.cache.key b = some (bio.buf b).blockno :=
  if_pos (h.disk1 b hvalid)

theorem modify (hidle : (place me).doing = .idle) (hheld : ((place me).held b).isSome) (data : Data) :
    Holds { (bio.setBuf b { bio.buf b with data }).setModified b true with
      written := update bio.written (bio.buf b).blockno data }
      (update place me { place me with doing := .idle }) := by
  have hvalid := (h.sees me).valid (b := b) (by simp [hidle]) hheld
  have hmodified : ∀ other ≠ b, update bio.modified b true other = bio.modified other :=
    fun other hne => update_of_ne hne _ _
  refine h.edit hheld (by rw [hidle]; rfl) (by simp [hidle]) rfl rfl rfl rfl hmodified rfl rfl id (h.disk1 b)
    (fun _ => hvalid) (.inl ⟨rfl, hvalid⟩) ?_
  have hbeside : Cache.Beside b bio.cache (Bio.cache { (bio.setBuf b { bio.buf b with data }).setModified b true with
      written := update bio.written (bio.buf b).blockno data }) :=
    beside (fun other hne => update_of_ne hne _ _) hmodified
  refine h.cache.write hbeside (h.key_eq hvalid) ?_ ?_ ?_ rfl rfl
  · simpa [Bio.cache, setBuf, setModified] using h.disk1 b hvalid
  · simp [Bio.cache, setBuf, setModified, hvalid]
  · simp [Bio.cache, setModified]

-- log_write and bwrite set B_DIRTY in a buffer that is locked, and perhaps modified.
theorem dirty (hheld : ((place me).held b).isSome) (hon : (place me).doing.on = none)
    (hrest : ∀ other, (place me).doing ≠ .bread other ∧ (place me).doing ≠ .iderw other)
    (hdoing : doing = .idle ∨ doing = .iderw b) (log : Log) :
    Holds { (bio.setBuf b { bio.buf b with dirty := true }).setModified b false with log }
      (update place me { place me with doing }) := by
  have hvalid := (h.sees me).valid (hrest b) hheld
  have hmodified : ∀ other ≠ b, update bio.modified b false other = bio.modified other :=
    fun other hne => update_of_ne hne _ _
  refine h.edit hheld hon (fun other _ => hrest other) rfl rfl rfl rfl hmodified rfl rfl id (h.disk1 b)
    (fun _ => hvalid) (hdoing.imp (fun hidle => ⟨hidle, hvalid⟩) id) ?_
  refine h.cache.mark ?_ ?_ rfl rfl ?_
  · funext other
    by_cases hb : other = b
    · subst hb
      simp [Bio.cache, setBuf, setModified]
    · simp [Bio.cache, setBuf, setModified, hb]
  · funext other
    by_cases hb : other = b
    · subst hb
      simp [Bio.cache, setBuf, setModified]
    · simp [Bio.cache, setBuf, setModified, hb]
  · intro other hmarked
    by_cases hb : other = b
    · subst hb
      simp [Bio.cache, setBuf, setModified]
    · simpa [Bio.cache, setBuf, setModified, hb] using hmarked

theorem iderw (hdoing : (place me).doing = .iderw b) (hiderw : bio.iderw me b = .ok next) :
    Holds next (update place me { place me with doing := .idle }) := by
  have hheld := (h.sees me).holds b (.inr (.inl hdoing))
  have hon : (place me).doing.on = none := by
    rw [hdoing]
    rfl
  have hrest : ∀ other ≠ b, (place me).doing ≠ .bread other ∧ (place me).doing ≠ .iderw other := by
    intro other hne
    simp [hdoing, hne.symm]
  unfold Bio.iderw at hiderw
  simp only at hiderw
  split_ifs at hiderw with hlock hsynced hdev hblockno hdirty
  · injection hiderw with hiderw
    subst hiderw
    have hmarked : bio.cache.marked b := by simp [Bio.cache, hdirty]
    have hvalid := h.marked b hmarked
    refine h.edit hheld hon hrest rfl rfl rfl rfl (fun _ _ => rfl) rfl rfl (fun _ => rfl) (fun _ => not_not.mp hdev)
      (fun _ => rfl) (.inl ⟨rfl, rfl⟩) ?_
    have hbeside : Cache.Beside b bio.cache
        (Bio.cache { bio.setBuf b { bio.buf b with dirty := false, valid := true } with
          memdisk := update bio.memdisk (bio.buf b).blockno (bio.buf b).data }) :=
      beside (fun other hne => update_of_ne hne _ _) fun _ _ => rfl
    refine h.cache.flush hbeside (h.key_eq hvalid) ?_ (if_pos hvalid) ?_ rfl rfl
    · simpa [Bio.cache, setBuf] using not_not.mp hdev
    · simp [Bio.cache, setBuf]
  · injection hiderw with hiderw
    subst hiderw
    have hvalid : (bio.buf b).valid = false := by
      simpa [Buf.synced, hdirty] using hsynced
    refine h.edit hheld hon hrest rfl rfl rfl rfl (fun _ _ => rfl) rfl rfl (fun _ => rfl) (fun _ => not_not.mp hdev)
      (fun _ => rfl) (.inl ⟨rfl, rfl⟩) ?_
    have hbeside : Cache.Beside b bio.cache
        (Bio.cache (bio.setBuf b { bio.buf b with data := bio.memdisk (bio.buf b).blockno, valid := true })) :=
      beside (fun other hne => update_of_ne hne _ _) fun _ _ => rfl
    refine h.cache.load hbeside (if_pos (not_not.mp hdev)) ?_ ?_ ?_ rfl rfl
    · simp [Bio.cache, hvalid]
    · simpa [Bio.cache, setBuf] using not_not.mp hdev
    · simp [Bio.cache, setBuf]

theorem brelse (hidle : (place me).doing = .idle) (hlock : (bio.lock b).holdingsleep me)
    (hclean : bio.modified b = false) :
    Holds (bio.setLock b (bio.lock b).releasesleep) (update place me ⟨.brelse b, update (place me).held b none⟩) := by
  have hmine := Sleeplock.eq_of_holdingsleep hlock
  have hheld := ((h.sees me).lock b).mpr hmine
  refine h.move ⟨?_, fun _ _ => ⟨rfl, rfl, id⟩⟩ ⟨?_, ?_, ?_, ?_⟩ h.cache h.listed ?_ h.disk1 h.marked ?_
  · intro other process hprocess
    by_cases hother : other = b
    · subst hother
      simp [setLock, Sleeplock.releasesleep, hmine, Ne.symm hprocess]
    · simp [setLock, hother]
  · intro other
    by_cases hother : other = b
    · subst hother
      simp [setLock, Sleeplock.releasesleep]
    · simpa [setLock, hother] using (h.sees me).lock other
  · rintro other dev' blockno' (hother | hother)
    · have hb : other ≠ b := by
        rintro rfl
        simp at hother
      simp only [update_of_ne hb] at hother
      exact (h.sees me).block other dev' blockno' (.inl hother)
    · cases hother
  · intro other hother
    have hb : other ≠ b := by
      rintro rfl
      simp at hother
    simp only [update_of_ne hb] at hother
    exact .inl ((h.sees me).valid (by simp [hidle]) hother)
  · simp
  · intro other
    by_cases hother : other = b
    · subst hother
      simp [BioPlace.weight, BioDoing.on, hheld, hidle, setLock]
    · simp [BioPlace.weight, BioDoing.on, hidle, hother, Ne.symm hother, setLock]
  · intro other hmodified
    have hother : other ≠ b := by
      rintro rfl
      exact absurd hmodified (by simp [setLock, hclean])
    exact .inr ⟨hmodified, fun hsome => by simpa only [update_of_ne hother] using hsome⟩

theorem unref (hdoing : (place me).doing = .brelse b) {head : List (Fin NBUF)} (hhead : ∀ b, b ∈ head) :
    Holds { bio.setRefcnt b (bio.refcnt b - 1) with head } (update place me { place me with doing := .idle }) := by
  have hpos : 0 < bio.refcnt b := h.refcnt_pos (weight_pos_of_on (by rw [hdoing]; rfl))
  refine h.move (.of_eq rfl rfl) ⟨(h.sees me).lock, ?_, ?_, ?_⟩ h.cache hhead ?_ h.disk1 h.marked ?_
  · rintro other dev' blockno' (hother | hother)
    · exact (h.sees me).block other dev' blockno' (.inl hother)
    · cases hother
  · exact fun other hheld => .inl ((h.sees me).valid (by simp [hdoing]) hheld)
  · simp
  · intro other
    by_cases hother : other = b
    · subst hother
      simp only [setRefcnt, update_self, BioPlace.weight, hdoing, BioDoing.on, if_true, reduceCtorEq, if_false]
      omega
    · simp [setRefcnt, hother, BioPlace.weight, hdoing, BioDoing.on, Ne.symm hother]
  · exact fun other hmodified => .inr ⟨hmodified, id⟩

theorem moves (hmoves : Moves bio me (place me) next there) : Holds next (update place me there) := by
  cases hmoves with
  | bget b dev blockno next hidle hbget => exact h.bread hidle hbget
  | acquiresleep b dev blockno hdoing hfree => exact h.acquiresleep hdoing hfree
  | returns b hdoing hvalid =>
    refine h.stay (by rw [hdoing]; rfl) rfl (fun other hheld => .inl ?_) (by simp)
    rcases h.loaded_of_bread hdoing hheld with hloaded | rfl
    · exact hloaded
    · exact hvalid
  | reads b hdoing =>
    refine h.stay (by rw [hdoing]; rfl) rfl (fun other hheld => ?_) fun other hbusy => ?_
    · rcases h.loaded_of_bread hdoing hheld with hloaded | rfl
      · exact .inl hloaded
      · exact .inr (.inr rfl)
    · simp only [reduceCtorEq, BioDoing.iderw.injEq, false_or, or_false] at hbusy
      exact hbusy ▸ (h.sees me).holds b (.inl hdoing)
  | iderw b next hdoing hiderw => exact h.iderw hdoing hiderw
  | modify b data hidle hheld => exact h.modify hidle hheld data
  | logCheck b hidle hheld =>
    refine h.stay (by rw [hidle]; rfl) rfl (fun other hheld => .inl ((h.sees me).valid (by simp [hidle]) hheld)) ?_
    intro other hbusy
    simp only [reduceCtorEq, BioDoing.logWrite.injEq, false_or] at hbusy
    exact hbusy ▸ hheld
  | logWrite b log hdoing =>
    have hheld := (h.sees me).holds b (.inr (.inr hdoing))
    exact h.dirty hheld (by rw [hdoing]; rfl) (by simp [hdoing]) (.inl rfl) log
  | bwrite b hidle hlock =>
    have hheld := ((h.sees me).lock b).mpr (Sleeplock.eq_of_holdingsleep hlock)
    exact h.dirty hheld (by rw [hidle]; rfl) (by simp [hidle]) (.inr rfl) bio.log
  | brelse b hidle hlock hclean => exact h.brelse hidle hlock hclean
  | unref b hdoing =>
    refine h.unref hdoing fun other => ?_
    split_ifs
    · by_cases hother : other = b
      · simp [hother]
      · exact List.mem_cons_of_mem _ ((List.mem_erase_of_ne hother).mpr (h.listed other))
    · exact h.listed other

end Holds

omit [DecidableEq Process] in
theorem Starts.holds (h : Starts bio place) : Holds bio place where
  cache := by
    refine ⟨?_, ?_, fun key => .inl (by rw [Bio.cache, h.written])⟩
    · intro slot other key hslot
      simp [cache, (h.buf slot).1] at hslot
    · intro slot key value hslot
      simp [cache, (h.buf slot).1] at hslot
  listed b := by
    rw [h.head, List.mem_reverse]
    exact List.mem_finRange b
  refs b := by
    rw [h.refcnt]
    refine Monitor.Total.zero fun process => ?_
    simp [BioPlace.weight, h.held, h.doing, BioDoing.on]
  sees process := by
    refine ⟨fun b => ?_, fun b dev blockno huse => ?_, fun b hheld => ?_, fun b hbusy => ?_⟩
    · simp [h.held, h.lock]
    · simp [h.held, h.doing] at huse
    · simp [h.held] at hheld
    · simp [h.doing] at hbusy
  disk1 b hvalid := by simp [(h.buf b).2.1] at hvalid
  marked b hmarked := by simp [cache, (h.buf b).2.2, h.modified] at hmarked
  modified b hmodified := by simp [h.modified] at hmodified

theorem reach_holds (h : (Xv6.bio Process Data).Reaches Starts state) : Holds state.data state.place := by
  refine h.invariant Holds (fun _ _ hstart => hstart.holds) ?_ ?_
  · intro data place me choice turn hholds hturn
    exact hholds.moves (turn_moves hturn)
  · intro data place log turn hholds hturn
    cases hturn
    exact ⟨hholds.cache, hholds.listed, hholds.refs, fun process => ⟨(hholds.sees process).lock,
      (hholds.sees process).block, (hholds.sees process).loaded, (hholds.sees process).holds⟩, hholds.disk1,
      hholds.marked, hholds.modified⟩

omit [DecidableEq Process] in
theorem block_update (hdev : buf.dev = (bio.buf b).dev) (hblockno : buf.blockno = (bio.buf b).blockno) :
    (update bio.buf b buf other).dev = (bio.buf other).dev ∧
      (update bio.buf b buf other).blockno = (bio.buf other).blockno := by
  by_cases hother : other = b
  · subst hother
    rw [update_self]
    exact ⟨hdev, hblockno⟩
  · rw [update_of_ne hother]
    exact ⟨rfl, rfl⟩

theorem iderw_block (h : bio.iderw me b = .ok next) (other : Fin NBUF) :
    (next.buf other).dev = (bio.buf other).dev ∧ (next.buf other).blockno = (bio.buf other).blockno := by
  unfold iderw at h
  simp only at h
  split_ifs at h
  · injection h with h
    subst h
    exact block_update rfl rfl
  · injection h with h
    subst h
    exact block_update rfl rfl

-- Only bget gives a buffer to another block.
theorem Moves.block (h : Moves bio me here next there) (b : Fin NBUF) (hdirty : (bio.buf b).dirty) :
    (next.buf b).dev = (bio.buf b).dev ∧ (next.buf b).blockno = (bio.buf b).blockno := by
  cases h with
  | bget taken dev blockno next _ hbget =>
    rcases bget_cases hbget with ⟨-, -, rfl⟩ | ⟨-, -, hclean, rfl⟩
    · exact ⟨rfl, rfl⟩
    · have hne : b ≠ taken := by
        rintro rfl
        simp [hclean] at hdirty
      simp [setRefcnt, setBuf, hne]
  | iderw other next _ hiderw => exact iderw_block hiderw b
  | modify other data | logWrite other log | bwrite other => exact block_update rfl rfl
  | acquiresleep | returns | reads | logCheck | brelse | unref => exact ⟨rfl, rfl⟩

theorem step_block {next : Monitor.State Process (Bio Process Data) BioPlace Empty BioPanic}
    {label : Monitor.Label Process (BioChoice Data) Log} (h : (Xv6.bio Process Data).step state label = some next)
    (b : Fin NBUF) (hdirty : (state.data.buf b).dirty) :
    (next.data.buf b).dev = (state.data.buf b).dev ∧ (next.data.buf b).blockno = (state.data.buf b).blockno := by
  cases Monitor.step_moves h with
  | turn process choice turn hturn hdata =>
    rw [hdata]
    exact (turn_moves hturn).block b hdirty
  | event log turn hturn hdata =>
    cases hturn
    rw [hdata]
    exact ⟨rfl, rfl⟩
  | rouse _ hdata | panic _ _ _ hdata => simp [hdata]

-- A process that has got a buffer from bread sees what was last written to the block.
theorem buffers_transparent {state : Monitor.State Process (Bio Process Data) BioPlace Empty BioPanic}
    (h : (Xv6.bio Process Data).Reaches Starts state) :
    (∀ b other, (state.data.buf b).dev = 1 → (state.data.buf other).dev = 1 →
        (state.data.buf b).blockno = (state.data.buf other).blockno → b = other) ∧
      (∀ process b dev blockno, (state.place process).doing = .idle →
        (state.place process).held b = some (dev, blockno) →
          dev = 1 ∧ (state.data.buf b).dev = dev ∧ (state.data.buf b).blockno = blockno ∧
            (state.data.buf b).data = state.data.written blockno) ∧
      ∀ label next b, (Xv6.bio Process Data).step state label = some next → (state.data.buf b).dirty →
        (next.data.buf b).dev = (state.data.buf b).dev ∧ (next.data.buf b).blockno = (state.data.buf b).blockno := by
  have hholds := reach_holds h
  refine ⟨?_, ?_, fun label next b hstep hdirty => step_block hstep b hdirty⟩
  · intro b other hb hother hblockno
    exact hholds.cache.unique b other (state.data.buf b).blockno (if_pos hb) (by rw [hblockno]; exact if_pos hother)
  · intro process b dev blockno hidle hheld
    have hvalid := (hholds.sees process).valid (b := b) (by simp [hidle]) (by simp [hheld])
    obtain ⟨rfl, rfl⟩ := (hholds.sees process).block b dev blockno (.inl hheld)
    exact ⟨hholds.disk1 b hvalid, rfl, rfl, hholds.cache.copy b _ _ (hholds.key_eq hvalid) (if_pos hvalid)⟩

-- The second process reads what the first one has passed to log_write, which is not on the disk yet.
theorem buffers_transparent_logged :
    ∃ state : Monitor.State Bool (Bio Bool Nat) BioPlace Empty BioPanic,
      (Xv6.bio Bool Nat).Reaches Starts state ∧ ∃ b, (state.place true).held b = some (1, 5) ∧
        state.data.memdisk 5 = 0 ∧ (state.data.buf b).data = 7 ∧ state.data.written 5 = 7 := by
  let b : Fin NBUF := ⟨0, by decide⟩
  let labels : List (Monitor.Label Bool (BioChoice Nat) Log) :=
    [.turn false (.bread 1 5), .turn false .proceed, .turn false .proceed, .turn false .proceed,
      .turn false (.modify b 7), .turn false (.logWrite b), .turn false .proceed, .turn false (.brelse b),
      .turn true (.bread 1 5), .turn false .proceed, .turn true .proceed, .turn true .proceed]
  have hrun : (run (Xv6.bio Bool Nat).step (fun _ _ => True)
      ⟨⟨fun _ => ⟨false, false, 0, 0, 0⟩, fun _ => ⟨false, none⟩, fun _ => 0, (List.finRange NBUF).reverse, fun _ => 0,
        1000, ⟨2, 30, 1, false, .empty⟩, fun _ => false, fun _ => 0⟩, fun _ => ⟨.idle, fun _ => none⟩, fun _ => none,
        none⟩ labels).map (fun state => ((state.place true).doing, (state.place true).held b, state.data.memdisk 5,
          (state.data.buf b).data)) = some (.idle, some (1, 5), 0, 7) := by
    decide +kernel
  obtain ⟨state, hstate, hfields⟩ := map_eq_some_iff.mp hrun
  simp only [Prod.mk.injEq] at hfields
  obtain ⟨hidle, hheld, hdisk, hdata⟩ := hfields
  have hreach : (Xv6.bio Bool Nat).Reaches Starts state :=
    (Xv6.Reach.start _ ⟨⟨fun _ => ⟨rfl, rfl, rfl⟩, fun _ => rfl, fun _ => rfl, rfl, fun _ => rfl, rfl, fun _ => rfl,
      fun _ _ => rfl⟩, fun _ => rfl, rfl⟩).run labels hstate
  obtain ⟨-, -, -, hwritten⟩ := (buffers_transparent hreach).2.1 true b 1 5 hidle hheld
  exact ⟨state, hreach, b, hheld, hdisk, hdata, hwritten.symm.trans hdata⟩

end Bio

end Xv6
