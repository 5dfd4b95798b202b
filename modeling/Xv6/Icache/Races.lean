import Xv6.Icache

namespace Xv6

open Function (update update_of_ne update_self)
open Icache InodeDoing InodePlace Option

variable {doing : InodeDoing}

namespace InodeDoing

-- The cache entry to which the process holds a reference in what it does.
def on : InodeDoing → Option (Fin NINODE)
  | .ilock ip _ | .load ip _ | .nlink ip | .iput ip | .test ip | .free ip | .release ip | .drop ip => some ip
  | .idle | .ialloc _ => none

-- The cache entry that it has locked for that.
def holds : InodeDoing → Option (Fin NINODE)
  | .load ip _ | .nlink ip | .test ip | .free ip | .release ip => some ip
  | .idle | .ilock _ _ | .ialloc _ | .iput _ | .drop _ => none

-- iput will not look at the reference count any more.
def past : InodeDoing → Bool
  | .release _ | .drop _ => true
  | _ => false

-- create has not given the inode its link yet.
def creates (ip : Fin NINODE) : InodeDoing → Bool
  | .ilock other true | .load other true | .nlink other => other = ip
  | _ => false

theorem on_of_creates {ip : Fin NINODE} (h : doing.creates ip) : doing.on = some ip := by
  cases doing with
  | ilock other new | load other new =>
    cases new with
    | true => simpa [creates, on] using h
    | false => simp [creates] at h
  | nlink other => simpa [creates, on] using h
  | idle | ialloc | iput | test | free | release | drop => simp [creates] at h

end InodeDoing

namespace InodePlace

variable (ip : Fin NINODE) (place : InodePlace)

def weight : Nat :=
  (if place.locked ip then 1 else 0) + if place.doing.on = some ip then 1 else 0

-- The process will come to test the reference count with a reference that it has now.
def cares : Prop :=
  place.locked ip ∨ (place.doing.on = some ip ∧ place.doing.past = false)

end InodePlace

namespace Inodes

variable {Process : Type} [DecidableEq Process] {inodes next : Inodes Process} {place : Process → InodePlace}
variable {me : Process} {there : InodePlace} {ip : Fin NINODE}

-- Who has which lock.
structure Locks (lock : Fin NINODE → Sleeplock Process) (place : Process → InodePlace) : Prop where
  locked (process : Process) (ip : Fin NINODE) (h : (place process).locked ip) : lock ip = ⟨true, some process⟩
  holds (process : Process) (ip : Fin NINODE) (h : (place process).doing.holds = some ip) :
    lock ip = ⟨true, some process⟩ ∧ (place process).locked ip = false

-- Which references there are.
structure Refs (icache : Icache) (refs : Fin NINODE → Int) (place : Process → InodePlace) : Prop where
  nonneg (ip : Fin NINODE) : 0 ≤ refs ip
  total (ip : Fin NINODE) : Monitor.Total place (InodePlace.weight ip) ((icache ip).ref - refs ip)

-- What the cache has is what the disk has.
structure Cached (icache : Icache) (dinode : Nat → Dinode) : Prop where
  unique (ip other : Fin NINODE) (hip : 0 < (icache ip).ref) (hother : 0 < (icache other).ref)
    (h : (icache ip).inum = (icache other).inum) : ip = other
  copy (ip : Fin NINODE) (href : 0 < (icache ip).ref) (h : (icache ip).valid) :
    (icache ip).toDinode = dinode (icache ip).inum ∧ (icache ip).type ≠ 0
  unused (inum : Nat) (h : (dinode inum).type = 0) : (dinode inum).size = 0 ∧ (dinode inum).addrs = fun _ => 0
  dropped (ip : Fin NINODE) (href : (icache ip).ref = 0) (h : (icache ip).valid) : (icache ip).nlink ≠ 0

section

variable (inodes : Inodes Process) (place : Process → InodePlace)

-- Somebody will test the reference count again.
def Cared (ip : Fin NINODE) : Prop :=
  1 ≤ inodes.refs ip ∨ ∃ process, (place process).cares ip

-- The inode is about to be created, or it is in the cache.
def Kept (inum : Nat) : Prop :=
  (∃ process, (place process).doing = .ialloc inum) ∨
    ∃ ip, (inodes.icache ip).inum = inum ∧ 0 < (inodes.icache ip).ref ∧
      ((∃ process, (place process).doing.creates ip) ∨ (inodes.icache ip).valid)

end

structure Holds (inodes : Inodes Process) (place : Process → InodePlace) : Prop where
  locks : Locks inodes.lock place
  refs : Refs inodes.icache inodes.refs place
  cached : Cached inodes.icache inodes.dinode
  loaded (process : Process) (ip : Fin NINODE) (h : (place process).locked ip ∨ (place process).doing = .nlink ip) :
    (inodes.icache ip).valid
  cared (ip : Fin NINODE) (href : 0 < (inodes.icache ip).ref) (hvalid : (inodes.icache ip).valid)
    (hnlink : (inodes.icache ip).nlink = 0) : Cared inodes place ip
  kept (inum : Nat) (htype : (inodes.dinode inum).type ≠ 0) (hnlink : (inodes.dinode inum).nlink = 0) :
    Kept inodes place inum

namespace Locks

variable {lock : Fin NINODE → Sleeplock Process}

-- Everybody else is as before.
theorem turn {after : Fin NINODE → Sleeplock Process} (h : Locks lock place)
    (hothers : ∀ other ≠ me, ∀ ip, lock ip = ⟨true, some other⟩ → after ip = ⟨true, some other⟩)
    (hlocked : ∀ ip, there.locked ip → after ip = ⟨true, some me⟩)
    (hholds : ∀ ip, there.doing.holds = some ip → after ip = ⟨true, some me⟩ ∧ there.locked ip = false) :
    Locks after (update place me there) := by
  refine ⟨?_, ?_⟩
  · intro process ip
    by_cases hprocess : process = me
    · subst hprocess
      rw [update_self]
      exact hlocked ip
    · rw [update_of_ne hprocess]
      exact fun hlock => hothers process hprocess ip (h.locked process ip hlock)
  · intro process ip
    by_cases hprocess : process = me
    · subst hprocess
      rw [update_self]
      exact hholds ip
    · rw [update_of_ne hprocess]
      intro hdoing
      obtain ⟨hlock, hnot⟩ := h.holds process ip hdoing
      exact ⟨hothers process hprocess ip hlock, hnot⟩

theorem stay (h : Locks lock place) (hlocked : there.locked = (place me).locked)
    (hholds : there.doing.holds = none ∨ there.doing.holds = (place me).doing.holds) :
    Locks lock (update place me there) := by
  refine h.turn (fun _ _ _ hlock => hlock) ?_ ?_
  · intro ip hlock
    exact h.locked me ip (hlocked ▸ hlock)
  · intro ip hdoing
    rcases hholds with hnone | hsame
    · simp [hnone] at hdoing
    · rw [hlocked]
      exact h.holds me ip (hsame ▸ hdoing)

omit [DecidableEq Process] in
theorem free_of_acquire {lk : Sleeplock Process} (h : (lock ip).acquiresleep me = some lk) :
    (lock ip).locked = false ∧ lk = ⟨true, some me⟩ := by
  simp only [Sleeplock.acquiresleep] at h
  split_ifs at h with hlocked
  cases h
  exact ⟨by simpa using hlocked, rfl⟩

theorem acquire (h : Locks lock place) (hfree : (lock ip).locked = false) (hlocked : there.locked = (place me).locked)
    (hholds : there.doing.holds = some ip) : Locks (update lock ip ⟨true, some me⟩) (update place me there) := by
  have hnobody : ∀ process, lock ip ≠ ⟨true, some process⟩ := by
    intro process hlock
    simp [hlock] at hfree
  have hmine : ∀ other, (place me).locked other → other ≠ ip := by
    rintro other hother rfl
    exact hnobody me (h.locked me other hother)
  refine h.turn ?_ ?_ ?_
  · intro other _ entry hlock
    by_cases hentry : entry = ip
    · subst hentry
      exact absurd hlock (hnobody other)
    · rwa [update_of_ne hentry]
  · intro entry hlock
    rw [hlocked] at hlock
    rw [update_of_ne (hmine entry hlock)]
    exact h.locked me entry hlock
  · intro entry hdoing
    rw [hholds, some.injEq] at hdoing
    subst hdoing
    refine ⟨update_self .., ?_⟩
    by_contra hlock
    exact hmine ip (by simpa [hlocked] using hlock) rfl

-- ilock returns.
theorem returns (h : Locks lock place) (hholds : (place me).doing.holds = some ip) :
    Locks lock (update place me ((place me).returned ip)) := by
  refine h.turn (fun _ _ _ hlock => hlock) ?_ (by simp [returned, InodeDoing.holds])
  intro entry hlock
  by_cases hentry : entry = ip
  · subst hentry
    exact (h.holds me entry hholds).1
  · exact h.locked me entry (by simpa [returned, update_of_ne hentry] using hlock)

-- releasesleep, by the process that has the lock.
theorem release (h : Locks lock place) (hlock : lock ip = ⟨true, some me⟩) (hnone : there.doing.holds = none)
    (hlocked : ∀ entry, there.locked entry → (place me).locked entry ∧ entry ≠ ip) :
    Locks (update lock ip (lock ip).releasesleep) (update place me there) := by
  refine h.turn ?_ ?_ (by simp [hnone])
  · intro other hother entry hheld
    by_cases hentry : entry = ip
    · subst hentry
      rw [hlock] at hheld
      simp only [Sleeplock.mk.injEq, some.injEq, true_and] at hheld
      exact absurd hheld.symm hother
    · rwa [update_of_ne hentry]
  · intro entry hentry
    obtain ⟨hmine, hne⟩ := hlocked entry hentry
    rw [update_of_ne hne]
    exact h.locked me entry hmine

end Locks

namespace Refs

variable {icache after : Icache} {refs rest : Fin NINODE → Int}

-- What the process and the others have in all changes as the reference counts do.
theorem turn (h : Refs icache refs place) (hnonneg : ∀ ip, 0 ≤ rest ip)
    (hsum : ∀ ip, (after ip).ref - rest ip - there.weight ip = (icache ip).ref - refs ip - (place me).weight ip) :
    Refs after rest (update place me there) := by
  refine ⟨hnonneg, ?_⟩
  intro ip
  have hmoved := (h.total ip).move me there
  have hnumber : (icache ip).ref - refs ip - (place me).weight ip + there.weight ip = (after ip).ref - rest ip := by
    have hip := hsum ip
    omega
  rwa [hnumber] at hmoved

theorem le (h : Refs icache refs place) (process : Process) (ip : Fin NINODE) :
    (place process).weight ip ≤ (icache ip).ref := by
  have hle := (h.total ip).le process
  have hnonneg := h.nonneg ip
  omega

theorem pos_of_on (h : Refs icache refs place) (hon : (place me).doing.on = some ip) : 0 < (icache ip).ref := by
  have hle := h.le me ip
  have hone : 1 ≤ (place me).weight ip := by simp [weight, hon]
  omega

theorem pos_of_cared (h : Refs inodes.icache inodes.refs place) (hcared : Cared inodes place ip) :
    0 < (inodes.icache ip).ref := by
  rcases hcared with hrefs | ⟨process, hcares⟩
  · have hle := (h.total ip).nonneg
    omega
  · have hle := h.le process ip
    have hpos : 1 ≤ (place process).weight ip := by
      simp only [weight]
      rcases hcares with hlocked | ⟨hon, -⟩
      · simp [hlocked]
      · simp [hon]
    omega

end Refs

variable {after : Icache} {process : Process}

namespace Cached

variable {icache : Icache} {dinode : Nat → Dinode} {number : Int}

-- A reference more or less.
theorem setRef (h : Cached icache dinode) (hpos : 0 < (icache ip).ref)
    (hlast : number = 0 → (icache ip).valid → (icache ip).nlink ≠ 0) :
    Cached (icache.set ip { icache ip with ref := number }) dinode := by
  have hbefore : ∀ other, 0 < (icache.set ip { icache ip with ref := number } other).ref → 0 < (icache other).ref := by
    intro other hother
    by_cases hne : other = ip
    · rwa [hne]
    · rwa [Icache.set, update_of_ne hne] at hother
  have hsame : ∀ other, (icache.set ip { icache ip with ref := number } other).inum = (icache other).inum ∧
      (icache.set ip { icache ip with ref := number } other).valid = (icache other).valid ∧
      (icache.set ip { icache ip with ref := number } other).toDinode = (icache other).toDinode := by
    intro other
    by_cases hne : other = ip
    · subst hne
      simp [Icache.set]
    · simp [Icache.set, update_of_ne hne]
  refine ⟨?_, ?_, h.unused, ?_⟩
  · intro one two hone htwo hinum
    rw [(hsame one).1, (hsame two).1] at hinum
    exact h.unique one two (hbefore one hone) (hbefore two htwo) hinum
  · intro other href hvalid
    rw [(hsame other).2.1] at hvalid
    rw [(hsame other).1, (hsame other).2.2]
    exact h.copy other (hbefore other href) hvalid
  · intro other href hvalid
    rw [(hsame other).2.1] at hvalid
    rw [(hsame other).2.2]
    by_cases hne : other = ip
    · subst hne
      exact hlast (by simpa [Icache.set] using href) hvalid
    · rw [Icache.set, update_of_ne hne] at href
      exact h.dropped other href hvalid

-- An entry gets a new copy of an inode, or none; all else is as before.
theorem setEntry {after : Nat → Dinode} {inode : Inode} (h : Cached icache dinode) (hpos : 0 < inode.ref)
    (hunique : ∀ other, 0 < (icache other).ref → (icache other).inum = inode.inum → other = ip)
    (hafter : ∀ inum ≠ inode.inum, after inum = dinode inum)
    (hcopy : inode.valid → inode.toDinode = after inode.inum ∧ inode.type ≠ 0)
    (hunused : ∀ inum, (after inum).type = 0 → (after inum).size = 0 ∧ (after inum).addrs = fun _ => 0) :
    Cached (icache.set ip inode) after := by
  refine ⟨?_, ?_, hunused, ?_⟩
  · intro one two hone htwo hinum
    by_cases hfirst : one = ip
    · subst hfirst
      by_cases hsecond : two = one
      · exact hsecond.symm
      · rw [Icache.set, update_of_ne hsecond] at htwo
        simp only [Icache.set, update_self, update_of_ne hsecond] at hinum
        exact (hunique two htwo hinum.symm).symm
    · rw [Icache.set, update_of_ne hfirst] at hone
      by_cases hsecond : two = ip
      · subst hsecond
        simp only [Icache.set, update_self, update_of_ne hfirst] at hinum
        exact hunique one hone hinum
      · rw [Icache.set, update_of_ne hsecond] at htwo
        simp only [Icache.set, update_of_ne hfirst, update_of_ne hsecond] at hinum
        exact h.unique one two hone htwo hinum
  · intro other href hvalid
    by_cases hne : other = ip
    · subst hne
      simp only [Icache.set, update_self] at hvalid ⊢
      exact hcopy hvalid
    · simp only [Icache.set, update_of_ne hne] at href hvalid ⊢
      rw [hafter _ fun hinum => hne (hunique other href hinum)]
      exact h.copy other href hvalid
  · intro other href hvalid
    by_cases hne : other = ip
    · subst hne
      simp only [Icache.set, update_self] at href
      omega
    · simp only [Icache.set, update_of_ne hne] at href hvalid ⊢
      exact h.dropped other href hvalid

theorem iget {inum : Nat} (h : Cached icache dinode) (higet : icache.iget inum = some (after, ip)) :
    Cached after dinode := by
  rcases iget_some higet with ⟨hpos, -, rfl⟩ | ⟨hnone, -, rfl⟩
  · refine h.setRef hpos fun hzero => ?_
    omega
  · refine h.setEntry (by simp) ?_ (fun _ _ => rfl) (by simp) h.unused
    intro other href hinum
    exact absurd hinum (hnone other href)

end Cached

theorem Cared.turn (h : Cared inodes place ip) (hrefs : 1 ≤ inodes.refs ip → 1 ≤ next.refs ip ∨ there.cares ip)
    (hcares : (place me).cares ip → 1 ≤ next.refs ip ∨ there.cares ip) : Cared next (update place me there) ip := by
  have hmine : 1 ≤ next.refs ip ∨ there.cares ip → Cared next (update place me there) ip := by
    rintro (hmore | hthere)
    · exact .inl hmore
    · refine .inr ⟨me, ?_⟩
      rwa [update_self]
  rcases h with hpool | ⟨process, hprocess⟩
  · exact hmine (hrefs hpool)
  · by_cases hme : process = me
    · subst hme
      exact hmine (hcares hprocess)
    · refine .inr ⟨process, ?_⟩
      rwa [update_of_ne hme]

omit [DecidableEq Process] in
theorem cared_of_creates (h : (place process).doing.creates ip) : Cared inodes place ip := by
  refine .inr ⟨process, .inr ⟨on_of_creates h, ?_⟩⟩
  cases hdoing : (place process).doing with
  | release | drop => simp [hdoing, creates] at h
  | idle | ilock | load | nlink | ialloc | iput | test | free => rfl

-- What has to be shown of the process that takes the turn.
theorem Kept.turn {inum : Nat} (h : Kept inodes place inum)
    (hcared : ∀ ip, 0 < (inodes.icache ip).ref → (inodes.icache ip).inum = inum → (inodes.icache ip).valid →
      Cared inodes place ip)
    (hentry : ∀ ip, 0 < (inodes.icache ip).ref → (inodes.icache ip).inum = inum → Cared inodes place ip →
      (next.icache ip).inum = inum ∧ 0 < (next.icache ip).ref ∧ ((inodes.icache ip).valid → (next.icache ip).valid))
    (hialloc : (place me).doing = .ialloc inum → Kept next (update place me there) inum)
    (hcreates : ∀ ip, (inodes.icache ip).inum = inum → (place me).doing.creates ip →
      there.doing.creates ip ∨ (next.icache ip).valid) : Kept next (update place me there) inum := by
  rcases h with ⟨process, hprocess⟩ | ⟨ip, hinum, hpos, ⟨process, hprocess⟩ | hvalid⟩
  · by_cases hme : process = me
    · subst hme
      exact hialloc hprocess
    · refine .inl ⟨process, ?_⟩
      rwa [update_of_ne hme]
  · obtain ⟨hsame, hmore, -⟩ := hentry ip hpos hinum (cared_of_creates hprocess)
    refine .inr ⟨ip, hsame, hmore, ?_⟩
    by_cases hme : process = me
    · subst hme
      rcases hcreates ip hinum hprocess with hthere | hvalid
      · refine .inl ⟨process, ?_⟩
        rwa [update_self]
      · exact .inr hvalid
    · refine .inl ⟨process, ?_⟩
      rwa [update_of_ne hme]
  · obtain ⟨hsame, hmore, hstill⟩ := hentry ip hpos hinum (hcared ip hpos hinum hvalid)
    exact .inr ⟨ip, hsame, hmore, .inr (hstill hvalid)⟩

-- What somebody has loaded is in the cache.
theorem Holds.pos_of_loaded (h : Holds inodes place)
    (hloaded : (place process).locked ip ∨ (place process).doing = .nlink ip) :
    0 < (inodes.icache ip).ref ∧ (inodes.icache ip).valid := by
  refine ⟨?_, h.loaded process ip hloaded⟩
  refine h.refs.pos_of_cared (.inr ⟨process, ?_⟩)
  rcases hloaded with hlocked | hdoing
  · exact .inl hlocked
  · refine .inr ?_
    rw [hdoing]
    exact ⟨rfl, rfl⟩

section

variable (h : Holds inodes place) (hlocks : Locks next.lock (update place me there))

include h hlocks

-- A turn that leaves the disk alone, and of the cache all that somebody refers to.
theorem Holds.stay (hrefs : Refs next.icache next.refs (update place me there))
    (hcached : Cached next.icache next.dinode) (hdinode : next.dinode = inodes.dinode)
    (hicache : ∀ ip, 0 < (inodes.icache ip).ref → (next.icache ip).inum = (inodes.icache ip).inum ∧
      (next.icache ip).valid = (inodes.icache ip).valid ∧ (next.icache ip).toDinode = (inodes.icache ip).toDinode)
    (hpos : ∀ ip, 0 < (inodes.icache ip).ref → Cared inodes place ip → 0 < (next.icache ip).ref)
    (hnew : ∀ ip, (inodes.icache ip).ref ≤ 0 → 0 < (next.icache ip).ref → (next.icache ip).valid = false)
    (hcare : ∀ ip, 0 < (inodes.icache ip).ref → (inodes.icache ip).valid → (inodes.icache ip).nlink = 0 →
      Cared inodes place ip → Cared next (update place me there) ip)
    (hloaded : ∀ ip, there.locked ip ∨ there.doing = .nlink ip → (next.icache ip).valid)
    (hialloc : ∀ inum, (place me).doing = .ialloc inum → Kept next (update place me there) inum)
    (hcreates : ∀ ip, (place me).doing.creates ip → there.doing.creates ip ∨ (next.icache ip).valid) :
    Holds next (update place me there) := by
  refine ⟨hlocks, hrefs, hcached, ?_, ?_, ?_⟩
  · intro process ip
    by_cases hme : process = me
    · subst hme
      rw [update_self]
      exact hloaded ip
    · rw [update_of_ne hme]
      intro hprocess
      obtain ⟨href, hvalid⟩ := h.pos_of_loaded hprocess
      rw [(hicache ip href).2.1, hvalid]
  · intro ip href hvalid hnlink
    by_cases hbefore : 0 < (inodes.icache ip).ref
    · obtain ⟨-, hsame, hcopy⟩ := hicache ip hbefore
      rw [hsame] at hvalid
      rw [hcopy] at hnlink
      exact hcare ip hbefore hvalid hnlink (h.cared ip hbefore hvalid hnlink)
    · rw [hnew ip (by omega) href] at hvalid
      cases hvalid
  · intro inum htype hnlink
    rw [hdinode] at htype hnlink
    refine (h.kept inum htype hnlink).turn ?_ ?_ (hialloc inum) (fun ip _ => hcreates ip)
    · intro ip href hinum hvalid
      have hcopy := (h.cached.copy ip href hvalid).1
      refine h.cared ip href hvalid ?_
      rw [hcopy, hinum, hnlink]
    · intro ip href hinum hcared
      obtain ⟨hsame, hvalid, -⟩ := hicache ip href
      exact ⟨hsame.trans hinum, hpos ip href hcared, fun hbefore => by rw [hvalid, hbefore]⟩

-- The same, where the cache and the disk do not change.
theorem Holds.move (hrefs : Refs inodes.icache next.refs (update place me there))
    (hicache : next.icache = inodes.icache) (hdinode : next.dinode = inodes.dinode)
    (hcare : ∀ ip, 0 < (inodes.icache ip).ref → (inodes.icache ip).valid → (inodes.icache ip).nlink = 0 →
      Cared inodes place ip → Cared next (update place me there) ip)
    (hloaded : ∀ ip, there.locked ip ∨ there.doing = .nlink ip → (inodes.icache ip).valid)
    (hialloc : ∀ inum, (place me).doing ≠ .ialloc inum)
    (hcreates : ∀ ip, (place me).doing.creates ip → there.doing.creates ip ∨ (inodes.icache ip).valid) :
    Holds next (update place me there) := by
  refine h.stay hlocks (hicache ▸ hrefs) ?_ hdinode ?_ ?_ ?_ hcare (hicache ▸ hloaded) ?_ (hicache ▸ hcreates)
  · rw [hicache, hdinode]
    exact h.cached
  · intro ip _
    rw [hicache]
    exact ⟨rfl, rfl, rfl⟩
  · intro ip href _
    rwa [hicache]
  · intro ip href hafter
    rw [hicache] at hafter
    omega
  · intro inum hdoing
    exact absurd hdoing (hialloc inum)

end

section Turns

variable {inum : Nat} {new : Bool}

theorem Cared.of_le (h : Cared inodes place ip) (hrefs : inodes.refs ip ≤ next.refs ip)
    (hcares : (place me).cares ip → 1 ≤ next.refs ip ∨ there.cares ip) : Cared next (update place me there) ip :=
  h.turn (fun hpool => .inl (hpool.trans hrefs)) hcares

omit [DecidableEq Process] in
theorem addRef_le (entry : Fin NINODE) : inodes.refs entry ≤ (inodes.addRef ip 1).refs entry := by
  by_cases hentry : entry = ip
  · subst hentry
    simp [addRef]
  · simp [addRef, update_of_ne hentry]

-- A reference more, in the cache and in the hands of somebody between two calls.
theorem Refs.more (h : Refs inodes.icache inodes.refs place)
    (hafter : ∀ other, (after other).ref = (inodes.icache other).ref + if other = ip then 1 else 0) :
    Refs after (inodes.addRef ip 1).refs (update place me (place me)) := by
  refine h.turn ?_ ?_
  · intro entry
    exact (h.nonneg entry).trans (addRef_le entry)
  · intro entry
    rw [hafter]
    by_cases hentry : entry = ip
    · subst hentry
      simp [addRef]
    · simp [addRef, hentry]

variable {icache : Icache} {refs : Fin NINODE → Int}

-- Only the number of references to the entry changes.
theorem setRef_spec (number : Int) (h : after = icache.set ip { icache ip with ref := (icache ip).ref + number }) :
    (∀ other, (after other).ref = (icache other).ref + if other = ip then number else 0) ∧
    ∀ other, (after other).inum = (icache other).inum ∧ (after other).valid = (icache other).valid ∧
      (after other).toDinode = (icache other).toDinode := by
  subst h
  refine ⟨fun other => ?_, fun other => ?_⟩ <;> by_cases hother : other = ip
  · subst hother
    simp [Icache.set]
  · simp [Icache.set, hother]
  · subst hother
    simp [Icache.set]
  · simp [Icache.set, update_of_ne hother]

-- The process goes on with the same reference, and has the same inodes locked.
theorem Refs.same (h : Refs icache refs place) (hlocked : there.locked = (place me).locked)
    (hon : there.doing.on = (place me).doing.on) : Refs icache refs (update place me there) := by
  refine h.turn h.nonneg ?_
  intro entry
  simp [weight, hlocked, hon]

theorem Cared.same (h : Cared inodes place ip) (hrefs : next.refs = inodes.refs)
    (hlocked : there.locked = (place me).locked) (hon : there.doing.on = (place me).doing.on)
    (hpast : there.doing.past = (place me).doing.past) : Cared next (update place me there) ip := by
  refine h.of_le (by rw [hrefs]) ?_
  intro hcares
  refine .inr ?_
  simpa [cares, hlocked, hon, hpast] using hcares

theorem Refs.returned (h : Refs icache refs place) (hon : (place me).doing.on = some ip)
    (hnot : (place me).locked ip = false) : Refs icache refs (update place me ((place me).returned ip)) := by
  have hidle : idle.on = none := rfl
  refine h.turn h.nonneg ?_
  intro entry
  by_cases hentry : entry = ip
  · subst hentry
    simp [weight, InodePlace.returned, hidle, hon, hnot]
  · simp [weight, InodePlace.returned, hidle, hon, update_of_ne hentry, Ne.symm hentry]

theorem Cared.returned {entry : Fin NINODE} (h : Cared inodes place entry) (hrefs : next.refs = inodes.refs)
    (hon : (place me).doing.on = some ip) : Cared next (update place me ((place me).returned ip)) entry := by
  refine h.of_le (by rw [hrefs]) ?_
  intro hcares
  refine .inr (.inl ?_)
  by_cases hentry : entry = ip
  · subst hentry
    simp [InodePlace.returned]
  · rcases hcares with hlocked | ⟨hother, -⟩
    · simpa [InodePlace.returned, update_of_ne hentry] using hlocked
    · rw [hon, some.injEq] at hother
      exact absurd hother.symm hentry

omit [DecidableEq Process] in
theorem Refs.congr (h : Refs icache refs place) (hafter : ∀ ip, (after ip).ref = (icache ip).ref) :
    Refs after refs place := by
  refine ⟨h.nonneg, ?_⟩
  intro ip
  rw [hafter]
  exact h.total ip

-- Where ilock goes on once the inode has been loaded.
structure Loads (inodes : Inodes Process) (place : Process → InodePlace) (me : Process) (ip : Fin NINODE)
    (there : InodePlace) : Prop where
  locks : Locks inodes.lock (update place me there)
  refs : Refs inodes.icache inodes.refs (update place me there)
  cared (next : Inodes Process) (entry : Fin NINODE) (hrefs : next.refs = inodes.refs)
    (h : Cared inodes place entry) : Cared next (update place me there) entry
  cares : there.cares ip
  loaded (entry : Fin NINODE) (h : there.locked entry ∨ there.doing = .nlink entry) :
    entry = ip ∨ (place me).locked entry
  creates (entry : Fin NINODE) (h : (place me).doing.creates entry) : there.doing.creates entry

-- Whatever turn the process takes, what holds goes on to hold.
def Keeps (place : Process → InodePlace) (me : Process)
    (outcome : Option (Outcome (Inodes Process) InodePlace Empty InodePanic)) : Prop :=
  ∀ ⦃turn⦄, outcome = some (.turn turn) → Holds turn.data (update place me turn.place)

section Holds

variable (h : Holds inodes place)

include h

section

variable (hidle : (place me).doing = .idle)

include hidle

theorem iget_holds : Keeps place me (inodes.iget (place me) inum) := by
  intro turn hturn
  unfold iget at hturn
  cases higet : inodes.icache.iget inum with
  | none => simp [higet] at hturn
  | some found =>
    obtain ⟨icache, ip⟩ := found
    simp only [higet, goes, some.injEq, Outcome.turn.injEq] at hturn
    subst hturn
    have href := iget_ref higet
    refine h.stay (h.locks.stay rfl (.inr rfl)) (h.refs.more href) (h.cached.iget higet) rfl
      (iget_same higet) ?_ (iget_new higet) ?_ ?_ (by simp [hidle]) (by simp [hidle, creates])
    · intro entry hpos _
      show 0 < (icache entry).ref
      rw [href]
      split_ifs <;> omega
    · intro entry _ _ _ hcared
      exact hcared.of_le (addRef_le entry) .inr
    · intro entry hmine
      obtain ⟨hpos, hvalid⟩ := h.pos_of_loaded hmine
      exact (iget_same higet entry hpos).2.1.trans hvalid

theorem idup_holds : Keeps place me (inodes.idup (place me) ip) := by
  intro turn hturn
  simp only [idup, goes, ite_none_right_eq_some, some.injEq, Outcome.turn.injEq] at hturn
  obtain ⟨hmine, rfl⟩ := hturn
  have hpos : 0 < (inodes.icache ip).ref := by
    refine h.refs.pos_of_cared ?_
    rcases hmine with hrefs | hlocked
    · exact .inl hrefs
    · exact .inr ⟨me, .inl hlocked⟩
  obtain ⟨href, hsame⟩ := setRef_spec 1 (show inodes.icache.idup ip = _ from rfl)
  refine h.stay (h.locks.stay rfl (.inr rfl)) (h.refs.more href) (h.cached.setRef hpos (by omega)) rfl
    (fun entry _ => hsame entry) ?_ ?_ ?_ ?_ (by simp [hidle]) (by simp [hidle, creates])
  · intro entry hbefore _
    show 0 < (inodes.icache.idup ip entry).ref
    rw [href]
    split_ifs <;> omega
  · intro entry hzero hafter
    have hentry : entry ≠ ip := by
      rintro rfl
      omega
    have hnone : (inodes.icache.idup ip entry).ref = (inodes.icache entry).ref := by simp [href, hentry]
    change 0 < (inodes.icache.idup ip entry).ref at hafter
    omega
  · intro entry _ _ _ hcared
    exact hcared.of_le (addRef_le entry) .inr
  · intro entry hloaded
    exact (hsame entry).2.1.trans (h.pos_of_loaded hloaded).2

-- ilock and iput begin with a reference of somebody between two calls.
theorem begins_holds (hrefs : 1 ≤ inodes.refs ip) (hdoing : doing = .ilock ip false ∨ doing = .iput ip) :
    Holds (inodes.addRef ip (-1)) (update place me { place me with doing }) := by
  have hon : doing.on = some ip ∧ doing.past = false ∧ doing.holds = none := by
    rcases hdoing with rfl | rfl <;> exact ⟨rfl, rfl, rfl⟩
  obtain ⟨hon, hpast, hholds⟩ := hon
  have hnone : (place me).doing.on = none := by rw [hidle]; rfl
  refine h.move (h.locks.stay rfl (.inl hholds)) (h.refs.turn ?_ ?_) rfl rfl ?_ ?_ (by simp [hidle])
    (by simp [hidle, creates])
  · intro entry
    have hnonneg := h.refs.nonneg entry
    by_cases hentry : entry = ip
    · subst hentry
      simp only [addRef, update_self]
      omega
    · simpa [addRef, update_of_ne hentry] using hnonneg
  · intro entry
    by_cases hentry : entry = ip
    · subst hentry
      simp only [addRef, update_self, weight, hon, hnone, if_true, reduceCtorEq, if_false]
      push_cast
      omega
    · simp [addRef, update_of_ne hentry, weight, hon, hnone, Ne.symm hentry]
  · intro entry _ _ _ hcared
    by_cases hentry : entry = ip
    · subst hentry
      have hthere : cares entry { place me with doing } := .inr ⟨hon, hpast⟩
      exact hcared.turn (fun _ => .inr hthere) (fun _ => .inr hthere)
    · refine hcared.of_le ?_ ?_
      · simp [addRef, update_of_ne hentry]
      · rintro (hlocked | ⟨hbefore, -⟩)
        · exact .inr (.inl hlocked)
        · simp [hnone] at hbefore
  · rintro entry (hlocked | hnlink)
    · exact h.loaded me entry (.inl hlocked)
    · rcases hdoing with rfl | rfl <;> cases hnlink

theorem ilock_holds : Keeps place me (inodes.ilock (place me) ip) := by
  intro turn hturn
  simp only [ilock, goes, ite_none_right_eq_some] at hturn
  obtain ⟨hrefs, hturn⟩ := hturn
  split_ifs at hturn
  · cases hturn
  cases hturn
  exact begins_holds h hidle hrefs (.inl rfl)

theorem iput_holds : Keeps place me (inodes.iput (place me) ip) := by
  intro turn hturn
  simp only [iput, goes, ite_none_right_eq_some, some.injEq, Outcome.turn.injEq] at hturn
  obtain ⟨hrefs, rfl⟩ := hturn
  exact begins_holds h hidle hrefs (.inr rfl)

theorem iunlock_holds : Keeps place me (inodes.iunlock me (place me) ip) := by
  intro turn hturn
  simp only [iunlock, goes, ite_none_right_eq_some] at hturn
  obtain ⟨hmine, hturn⟩ := hturn
  split_ifs at hturn
  · cases hturn
  cases hturn
  have hlock := h.locks.locked me ip hmine
  refine h.move (h.locks.release hlock (by rw [hidle]; rfl) ?_) (h.refs.turn ?_ ?_) rfl rfl ?_ ?_ (by simp [hidle])
    (by simp [hidle, creates])
  · intro entry hentry
    by_cases hne : entry = ip
    · subst hne
      simp at hentry
    · exact ⟨by simpa [update_of_ne hne] using hentry, hne⟩
  · intro entry
    exact (h.refs.nonneg entry).trans (addRef_le entry)
  · intro entry
    by_cases hentry : entry = ip
    · subst hentry
      simp only [addRef, setLock, update_self, weight, hmine, if_true, Bool.false_eq_true, if_false]
      push_cast
      omega
    · simp [addRef, setLock, update_of_ne hentry, weight]
  · intro entry _ _ _ hcared
    refine hcared.of_le (addRef_le entry) ?_
    rintro (hlocked | hdoing)
    · by_cases hentry : entry = ip
      · subst hentry
        refine .inl ?_
        have hnonneg := h.refs.nonneg entry
        simp only [addRef, setLock, update_self]
        omega
      · exact .inr (.inl (by simpa [update_of_ne hentry] using hlocked))
    · exact .inr (.inr hdoing)
  · rintro entry (hlocked | hnlink)
    · by_cases hentry : entry = ip
      · subst hentry
        simp at hlocked
      · exact h.loaded me entry (.inl (by simpa [update_of_ne hentry] using hlocked))
    · exact h.loaded me entry (.inr hnlink)

end

theorem acquiresleep_holds (hdoing : (∃ new, (place me).doing = .ilock ip new ∧ doing = .load ip new) ∨
      ((place me).doing = .iput ip ∧ doing = .test ip)) :
    Keeps place me (inodes.acquiresleep me (place me) ip doing) := by
  intro turn hturn
  unfold acquiresleep at hturn
  cases hacquire : (inodes.lock ip).acquiresleep me with
  | none => simp [hacquire] at hturn
  | some lk =>
    simp only [hacquire, goes, some.injEq, Outcome.turn.injEq] at hturn
    subst hturn
    obtain ⟨hfree, rfl⟩ := Locks.free_of_acquire hacquire
    have hfacts : doing.holds = some ip ∧ doing.on = (place me).doing.on ∧ doing.past = (place me).doing.past := by
      rcases hdoing with ⟨new, hbefore, rfl⟩ | ⟨hbefore, rfl⟩ <;> rw [hbefore] <;> exact ⟨rfl, rfl, rfl⟩
    obtain ⟨hholds, hon, hpast⟩ := hfacts
    refine h.move (h.locks.acquire hfree rfl hholds) (h.refs.same rfl hon) rfl rfl ?_ ?_ ?_ ?_
    · intro entry _ _ _ hcared
      exact hcared.same rfl rfl hon hpast
    · rintro entry (hlocked | hnlink)
      · exact h.loaded me entry (.inl hlocked)
      · rcases hdoing with ⟨new, -, rfl⟩ | ⟨-, rfl⟩ <;> cases hnlink
    · rcases hdoing with ⟨new, hbefore, -⟩ | ⟨hbefore, -⟩ <;> simp [hbefore]
    · intro entry hcreates
      refine .inl ?_
      rcases hdoing with ⟨new, hbefore, rfl⟩ | ⟨hbefore, rfl⟩
      · rw [hbefore] at hcreates
        cases new with
        | true => exact hcreates
        | false => simp [creates] at hcreates
      · rw [hbefore] at hcreates
        simp [creates] at hcreates

theorem releasesleep_holds (hdoing : (place me).doing = .release ip) :
    Keeps place me (inodes.releasesleep (place me) ip) := by
  intro turn hturn
  cases hturn
  obtain ⟨hlock, hnot⟩ := h.locks.holds me ip (by rw [hdoing]; rfl)
  refine h.move (h.locks.release hlock rfl ?_) (h.refs.same rfl (by rw [hdoing]; rfl)) rfl rfl ?_ ?_ (by simp [hdoing])
    (by simp [hdoing, creates])
  · intro entry hentry
    refine ⟨hentry, ?_⟩
    rintro rfl
    simp [hnot] at hentry
  · intro entry _ _ _ hcared
    exact hcared.same rfl rfl (by rw [hdoing]; rfl) (by rw [hdoing]; rfl)
  · rintro entry (hlocked | hnlink)
    · exact h.loaded me entry (.inl hlocked)
    · cases hnlink

-- Nobody else may be on its way from the test to the end of iput.
theorem test_holds (hdoing : (place me).doing = .test ip)
    (halone : (inodes.icache ip).valid → (inodes.icache ip).nlink = 0 →
      ∀ other ≠ me, (place other).doing ≠ .release ip ∧ (place other).doing ≠ .drop ip) :
    Keeps place me (inodes.test (place me) ip) := by
  intro turn hturn
  obtain ⟨-, hnot⟩ := h.locks.holds me ip (by rw [hdoing]; rfl)
  have hmove : ∀ doing, (doing = .free ip ∨ doing = .release ip) →
      (∀ entry, 0 < (inodes.icache entry).ref → (inodes.icache entry).valid → (inodes.icache entry).nlink = 0 →
        Cared inodes place entry → Cared inodes (update place me { place me with doing }) entry) →
      Holds inodes (update place me { place me with doing }) := by
    intro doing hnext hcare
    have hfacts : doing.holds = (place me).doing.holds ∧ doing.on = (place me).doing.on := by
      rcases hnext with rfl | rfl <;> rw [hdoing] <;> exact ⟨rfl, rfl⟩
    refine h.move (h.locks.stay rfl (.inr hfacts.1)) (h.refs.same rfl hfacts.2) rfl rfl hcare ?_ (by simp [hdoing])
      (by simp [hdoing, creates])
    rintro entry (hlocked | hnlink)
    · exact h.loaded me entry (.inl hlocked)
    · rcases hnext with rfl | rfl <;> cases hnlink
  -- A process that gives up its care for this entry keeps it for the others.
  have hothers : ∀ entry ≠ ip, Cared inodes place entry →
      Cared inodes (update place me { place me with doing := .release ip }) entry := by
    intro entry hentry hcared
    refine hcared.of_le (le_refl _) ?_
    rintro (hlocked | ⟨hon, -⟩)
    · exact .inr (.inl hlocked)
    · rw [hdoing] at hon
      simp only [on, some.injEq] at hon
      exact absurd hon.symm hentry
  simp only [test, goes] at hturn
  split_ifs at hturn with hunlinked hlast
  · cases hturn
    refine hmove _ (.inl rfl) ?_
    intro entry _ _ _ hcared
    exact hcared.same rfl rfl (by rw [hdoing]; rfl) (by rw [hdoing]; rfl)
  · cases hturn
    refine hmove _ (.inr rfl) ?_
    intro entry _ _ _ hcared
    by_cases hentry : entry = ip
    · subst hentry
      by_cases hpool : 1 ≤ inodes.refs entry
      · exact .inl hpool
      · have hnonneg := h.refs.nonneg entry
        have hmine : (place me).weight entry = 1 := by simp [weight, hnot, hdoing, on]
        have hle := (h.refs.total entry).le me
        have hmore : ((place me).weight entry : Int) < (inodes.icache entry).ref - inodes.refs entry := by omega
        obtain ⟨other, hother, hweight⟩ := (h.refs.total entry).other hmore
        refine .inr ⟨other, ?_⟩
        rw [update_of_ne hother]
        obtain ⟨hrelease, hdrop⟩ := halone hunlinked.1 hunlinked.2 other hother
        by_cases hlocked : (place other).locked entry
        · exact .inl hlocked
        · have hon : (place other).doing.on = some entry := by
            by_contra hoff
            simp [weight, hlocked, hoff] at hweight
          refine .inr ⟨hon, ?_⟩
          cases hwhat : (place other).doing with
          | release what =>
            rw [hwhat] at hon hrelease
            simp only [on, some.injEq] at hon
            exact absurd (congrArg _ hon) hrelease
          | drop what =>
            rw [hwhat] at hon hdrop
            simp only [on, some.injEq] at hon
            exact absurd (congrArg _ hon) hdrop
          | idle | ilock | load | nlink | ialloc | iput | test | free => rfl
    · exact hothers entry hentry hcared
  · cases hturn
    refine hmove _ (.inr rfl) ?_
    intro entry _ hvalid hnlink hcared
    by_cases hentry : entry = ip
    · subst hentry
      exact absurd ⟨hvalid, hnlink⟩ hunlinked
    · exact hothers entry hentry hcared

theorem drop_holds (hdoing : (place me).doing = .drop ip) : Keeps place me (inodes.drop (place me) ip) := by
  intro turn hturn
  cases hturn
  obtain ⟨href, hsame⟩ := setRef_spec (-1) (show inodes.icache.drop ip = _ from rfl)
  have hrefs : Refs (inodes.icache.drop ip) inodes.refs (update place me { place me with doing := .idle }) := by
    refine h.refs.turn h.refs.nonneg ?_
    intro entry
    rw [href]
    by_cases hentry : entry = ip
    · subst hentry
      simp only [weight, hdoing, on, if_true, reduceCtorEq, if_false]
      push_cast
      omega
    · simp [weight, hdoing, on, hentry, Ne.symm hentry]
  have hcare : ∀ entry, Cared inodes place entry →
      Cared { inodes with icache := inodes.icache.drop ip }
        (update place me { place me with doing := .idle }) entry := by
    intro entry hcared
    refine hcared.of_le (le_refl _) ?_
    rintro (hlocked | ⟨-, hpast⟩)
    · exact .inr (.inl hlocked)
    · simp [hdoing, past] at hpast
  have hpos := h.refs.pos_of_on (show (place me).doing.on = some ip by rw [hdoing]; rfl)
  refine h.stay (h.locks.stay rfl (.inl rfl)) hrefs (h.cached.setRef hpos ?_) rfl
    (fun entry _ => hsame entry) ?_ ?_ ?_ ?_
    (by simp [hdoing]) (by simp [hdoing, creates])
  · intro hzero hvalid hnlink
    have hafter : 0 < (inodes.icache.drop ip ip).ref := hrefs.pos_of_cared (hcare ip (h.cared ip hpos hvalid hnlink))
    rw [href] at hafter
    simp only [if_true] at hafter
    omega
  · intro entry _ hcared
    exact hrefs.pos_of_cared (hcare entry hcared)
  · intro entry hzero hafter
    change 0 < (inodes.icache.drop ip entry).ref at hafter
    rw [href] at hafter
    split_ifs at hafter <;> omega
  · exact fun entry _ _ _ => hcare entry
  · rintro entry (hlocked | hnlink)
    · exact (hsame entry).2.1.trans (h.loaded me entry (.inl hlocked))
    · cases hnlink

theorem ialloced_holds (hdoing : (place me).doing = .ialloc inum) :
    Keeps place me (inodes.ialloced (place me) inum) := by
  intro turn hturn
  unfold ialloced at hturn
  cases higet : inodes.icache.iget inum with
  | none => simp [higet] at hturn
  | some found =>
    obtain ⟨icache, ip⟩ := found
    simp only [higet, goes, some.injEq, Outcome.turn.injEq] at hturn
    subst hturn
    have href := iget_ref higet
    have hrefs : Refs icache inodes.refs (update place me { place me with doing := .ilock ip true }) := by
      refine h.refs.turn h.refs.nonneg ?_
      intro entry
      rw [href]
      by_cases hentry : entry = ip
      · subst hentry
        simp only [weight, hdoing, on, if_true, reduceCtorEq, if_false]
        push_cast
        omega
      · simp [weight, hdoing, on, hentry, Ne.symm hentry]
    have hcare : ∀ entry, Cared inodes place entry →
        Cared { inodes with icache } (update place me { place me with doing := .ilock ip true }) entry := by
      intro entry hcared
      refine hcared.of_le (le_refl _) ?_
      rintro (hlocked | ⟨hon, -⟩)
      · exact .inr (.inl hlocked)
      · simp [hdoing, on] at hon
    refine h.stay (h.locks.stay rfl (.inl rfl)) hrefs (h.cached.iget higet) rfl (iget_same higet) ?_
      (iget_new higet) (fun entry _ _ _ => hcare entry) ?_ ?_ (by simp [hdoing, creates])
    · intro entry _ hcared
      exact hrefs.pos_of_cared (hcare entry hcared)
    · rintro entry (hlocked | hnlink)
      · obtain ⟨hpos, hvalid⟩ := h.pos_of_loaded (.inl hlocked)
        exact (iget_same higet entry hpos).2.1.trans hvalid
      · cases hnlink
    · intro other hother
      rw [hdoing, ialloc.injEq] at hother
      subst hother
      have hcreates : (update place me { place me with doing := .ilock ip true } me).doing.creates ip := by
        rw [update_self]
        simp [creates]
      exact .inr ⟨ip, iget_inum higet, hrefs.pos_of_cared (cared_of_creates hcreates), .inl ⟨me, hcreates⟩⟩

theorem ialloc_holds {type : BitVec 16} (hidle : (place me).doing = .idle) :
    Keeps place me (inodes.ialloc (place me) inum type) := by
  intro turn hturn
  simp only [ialloc, goes, ite_none_right_eq_some, some.injEq, Outcome.turn.injEq] at hturn
  obtain ⟨⟨hfree, htype⟩, rfl⟩ := hturn
  have hcare : ∀ entry, Cared inodes place entry →
      Cared { inodes with dinode := update inodes.dinode inum (.fresh type) }
        (update place me { place me with doing := .ialloc inum }) entry := by
    intro entry hcared
    exact hcared.same rfl rfl (by rw [hidle]; rfl) (by rw [hidle]; rfl)
  refine ⟨h.locks.stay rfl (.inl rfl), h.refs.same rfl (by rw [hidle]; rfl), ?_, ?_, ?_, ?_⟩
  · refine ⟨h.cached.unique, ?_, ?_, h.cached.dropped⟩
    · intro entry href hvalid
      obtain ⟨hcopy, hsome⟩ := h.cached.copy entry href hvalid
      have hother : (inodes.icache entry).inum ≠ inum := by
        rintro rfl
        rw [hcopy] at hsome
        exact hsome hfree
      exact ⟨by simpa [update_of_ne hother] using hcopy, hsome⟩
    · intro other hzero
      by_cases hother : other = inum
      · subst hother
        simp only [update_self] at hzero
        exact absurd hzero htype
      · simp only [update_of_ne hother] at hzero ⊢
        exact h.cached.unused other hzero
  · intro process entry hloaded
    refine h.loaded process entry ?_
    by_cases hme : process = me
    · subst hme
      simpa [hidle] using hloaded
    · simpa [update_of_ne hme] using hloaded
  · intro entry href hvalid hnlink
    exact hcare entry (h.cared entry href hvalid hnlink)
  · intro other hsome hnlink
    by_cases hother : other = inum
    · subst hother
      refine .inl ⟨me, ?_⟩
      rw [update_self]
    · simp only [update_of_ne hother] at hsome hnlink
      refine (h.kept other hsome hnlink).turn ?_ (fun _ href hinum _ => ⟨hinum, href, id⟩) (by simp [hidle])
        (by simp [hidle, creates])
      intro entry href hinum hvalid
      refine h.cared entry href hvalid ?_
      rw [(h.cached.copy entry href hvalid).1, hinum, hnlink]

theorem loads (hdoing : (place me).doing = .load ip new) :
    Loads inodes place me ip (if new then { place me with doing := .nlink ip } else (place me).returned ip) := by
  have hholds : (place me).doing.holds = some ip := by rw [hdoing]; rfl
  have hon : (place me).doing.on = some ip := by rw [hdoing]; rfl
  obtain ⟨-, hnot⟩ := h.locks.holds me ip hholds
  cases new with
  | true =>
    refine ⟨h.locks.stay rfl (.inr hholds.symm), h.refs.same rfl hon.symm, ?_, .inr ⟨rfl, rfl⟩, ?_, ?_⟩
    · intro next entry hrefs hcared
      exact hcared.same hrefs rfl hon.symm (by rw [hdoing]; rfl)
    · rintro entry (hlocked | hnlink)
      · exact .inr hlocked
      · simp only [if_true, nlink.injEq] at hnlink
        exact .inl hnlink.symm
    · intro entry hcreates
      rw [hdoing] at hcreates
      exact hcreates
  | false =>
    refine ⟨h.locks.returns hholds, h.refs.returned hon hnot, ?_, .inl (by simp [returned]), ?_, ?_⟩
    · intro next entry hrefs hcared
      exact hcared.returned hrefs hon
    · rintro entry (hlocked | hnlink)
      · by_cases hentry : entry = ip
        · exact .inl hentry
        · exact .inr (by simpa [returned, update_of_ne hentry] using hlocked)
      · simp [returned] at hnlink
    · intro entry hcreates
      rw [hdoing] at hcreates
      simp [creates] at hcreates

variable {dinode : Dinode}

-- A new copy of the inode in the cache and on the disk, by the process that has locked it.
theorem write_holds {valid : Bool} (hlock : inodes.lock ip = ⟨true, some me⟩) (hpos : 0 < (inodes.icache ip).ref)
    (hlocks : Locks inodes.lock (update place me there))
    (hrefs : Refs inodes.icache inodes.refs (update place me there)) (hcopy : valid → dinode.type ≠ 0)
    (hgone : dinode.type = 0 → dinode.size = 0 ∧ dinode.addrs = fun _ => 0)
    (hlinked : dinode.type ≠ 0 → dinode.nlink = 0 → there.cares ip ∧ valid)
    (hcare : ∀ entry ≠ ip, Cared inodes place entry →
      Cared (inodes.write ip dinode valid) (update place me there) entry)
    (hloaded : ∀ entry, there.locked entry ∨ there.doing = .nlink entry →
      (entry = ip ∧ valid) ∨ (entry ≠ ip ∧ (place me).locked entry)) (hdoing : ∀ inum, (place me).doing ≠ .ialloc inum)
    (hcreates : ∀ entry, (place me).doing.creates entry → entry = ip) :
    Holds (inodes.write ip dinode valid) (update place me there) := by
  have hothers : ∀ entry ≠ ip, (inodes.write ip dinode valid).icache entry = inodes.icache entry :=
    fun entry hentry => update_of_ne hentry ..
  have hself : (inodes.write ip dinode valid).icache ip = { inodes.icache ip with toDinode := dinode, valid } :=
    update_self ..
  refine ⟨hlocks, hrefs.congr ?_, ?_, ?_, ?_, ?_⟩
  · intro entry
    by_cases hentry : entry = ip
    · subst hentry
      rw [hself]
    · rw [hothers entry hentry]
  · refine h.cached.setEntry hpos ?_ ?_ ?_ ?_
    · exact fun other hother hinum => h.cached.unique other ip hother hpos hinum
    · exact fun inum hinum => update_of_ne hinum ..
    · exact fun hvalid => ⟨by simp [write], hcopy hvalid⟩
    · intro inum hzero
      by_cases hinum : inum = (inodes.icache ip).inum
      · subst hinum
        simp only [write, update_self] at hzero ⊢
        exact hgone hzero
      · simp only [write, update_of_ne hinum] at hzero ⊢
        exact h.cached.unused inum hzero
  · intro process entry hprocess
    by_cases hme : process = me
    · subst hme
      rw [update_self] at hprocess
      rcases hloaded entry hprocess with ⟨rfl, hvalid⟩ | ⟨hentry, hlocked⟩
      · rw [hself]
        exact hvalid
      · rw [hothers entry hentry]
        exact h.loaded process entry (.inl hlocked)
    · rw [update_of_ne hme] at hprocess
      have hentry : entry ≠ ip := by
        rintro rfl
        have hother : inodes.lock entry = ⟨true, some process⟩ := by
          rcases hprocess with hlocked | hnlink
          · exact h.locks.locked process entry hlocked
          · exact (h.locks.holds process entry (by rw [hnlink]; rfl)).1
        rw [hlock] at hother
        simp only [Sleeplock.mk.injEq, some.injEq, true_and] at hother
        exact hme hother.symm
      rw [hothers entry hentry]
      exact h.loaded process entry hprocess
  · intro entry href hvalid hnlink
    by_cases hentry : entry = ip
    · subst hentry
      rw [hself] at hvalid hnlink
      refine .inr ⟨me, ?_⟩
      rw [update_self]
      exact (hlinked (hcopy hvalid) hnlink).1
    · rw [hothers entry hentry] at href hvalid hnlink
      exact hcare entry hentry (h.cared entry href hvalid hnlink)
  · intro inum hsome hnlink
    by_cases hinum : inum = (inodes.icache ip).inum
    · subst hinum
      simp only [write, update_self] at hsome hnlink
      refine .inr ⟨ip, by rw [hself], by rw [hself]; exact hpos, .inr ?_⟩
      rw [hself]
      exact (hlinked hsome hnlink).2
    · simp only [write, update_of_ne hinum] at hsome hnlink
      refine (h.kept inum hsome hnlink).turn ?_ ?_ (fun hialloc => absurd hialloc (hdoing inum)) ?_
      · intro entry href hentry hvalid
        refine h.cared entry href hvalid ?_
        rw [(h.cached.copy entry href hvalid).1, hentry, hnlink]
      · intro entry href hentry _
        have hne : entry ≠ ip := by
          rintro rfl
          exact hinum hentry.symm
        rw [hothers entry hne]
        exact ⟨hentry, href, id⟩
      · intro entry hentry hmine
        rw [hcreates entry hmine] at hentry
        exact absurd hentry.symm hinum

theorem load_holds (hdoing : (place me).doing = .load ip new) : Keeps place me (inodes.load (place me) ip new) := by
  intro turn hturn
  have hloads := loads h hdoing
  have hpos := h.refs.pos_of_on (show (place me).doing.on = some ip by rw [hdoing]; rfl)
  obtain ⟨hlock, -⟩ := h.locks.holds me ip (by rw [hdoing]; rfl)
  simp only [load, goes] at hturn
  generalize (if new then { place me with doing := .nlink ip } else (place me).returned ip) = there at hloads hturn
  split_ifs at hturn with hvalid htype
  · cases hturn
    refine h.move hloads.locks hloads.refs rfl rfl (fun entry _ _ _ => hloads.cared _ entry rfl) ?_ (by simp [hdoing])
      (fun entry hcreates => .inl (hloads.creates entry hcreates))
    intro entry hentry
    rcases hloads.loaded entry hentry with rfl | hlocked
    · exact hvalid
    · exact h.loaded me entry (.inl hlocked)
  · cases hturn
  · cases hturn
    have hwrite : { inodes with icache := inodes.icache.set ip { inodes.icache ip with
        toDinode := inodes.dinode (inodes.icache ip).inum, valid := true } } =
          inodes.write ip (inodes.dinode (inodes.icache ip).inum) true := by
      rw [write, Function.update_eq_self]
    dsimp only
    rw [hwrite]
    refine write_holds h hlock hpos hloads.locks hloads.refs (fun _ => htype) (fun hzero => absurd hzero htype)
      (fun _ _ => ⟨hloads.cares, rfl⟩) (fun entry _ => hloads.cared _ entry rfl) ?_ (by simp [hdoing]) ?_
    · intro entry hentry
      by_cases hip : entry = ip
      · exact .inl ⟨hip, rfl⟩
      · exact .inr ⟨hip, (hloads.loaded entry hentry).resolve_left hip⟩
    · intro entry hcreates
      rw [hdoing] at hcreates
      cases new with
      | true => simpa [creates, eq_comm] using hcreates
      | false => simp [creates] at hcreates

theorem nlink_holds (hdoing : (place me).doing = .nlink ip) : Keeps place me (inodes.nlink (place me) ip) := by
  intro turn hturn
  cases hturn
  have hholds : (place me).doing.holds = some ip := by rw [hdoing]; rfl
  have hon : (place me).doing.on = some ip := by rw [hdoing]; rfl
  obtain ⟨hlock, hnot⟩ := h.locks.holds me ip hholds
  obtain ⟨hpos, hvalid⟩ := h.pos_of_loaded (.inr hdoing)
  have htype := (h.cached.copy ip hpos hvalid).2
  refine write_holds h hlock hpos (h.locks.returns hholds) (h.refs.returned hon hnot) (fun _ => htype)
    (fun hzero => absurd hzero htype) (by simp) ?_ ?_ (by simp [hdoing]) ?_
  · exact fun entry _ hcared => hcared.returned rfl hon
  · rintro entry (hlocked | hnlink)
    · by_cases hentry : entry = ip
      · exact .inl ⟨hentry, hvalid⟩
      · exact .inr ⟨hentry, by simpa [returned, update_of_ne hentry] using hlocked⟩
    · simp [returned] at hnlink
  · intro entry hcreates
    rw [hdoing] at hcreates
    simpa [creates, eq_comm] using hcreates

theorem iupdate_holds (hidle : (place me).doing = .idle) : Keeps place me (inodes.iupdate (place me) ip dinode) := by
  intro turn hturn
  simp only [iupdate, goes, ite_none_right_eq_some, some.injEq, Outcome.turn.injEq] at hturn
  obtain ⟨hmine, rfl⟩ := hturn
  obtain ⟨hpos, hvalid⟩ := h.pos_of_loaded (.inl hmine)
  have htype := (h.cached.copy ip hpos hvalid).2
  refine write_holds h (h.locks.locked me ip hmine) hpos (h.locks.stay rfl (.inr rfl)) (h.refs.same rfl rfl)
    (fun _ => htype) (fun hzero => absurd hzero htype) (fun _ _ => ⟨.inl hmine, hvalid⟩) ?_ ?_ (by simp [hidle])
    (by simp [hidle, creates])
  · exact fun entry _ hcared => hcared.same rfl rfl rfl rfl
  · rintro entry (hlocked | hnlink)
    · by_cases hentry : entry = ip
      · exact .inl ⟨hentry, hvalid⟩
      · exact .inr ⟨hentry, hlocked⟩
    · simp [hidle] at hnlink

theorem free_holds (hdoing : (place me).doing = .free ip) : Keeps place me (inodes.free (place me) ip) := by
  intro turn hturn
  cases hturn
  have hholds : (place me).doing.holds = some ip := by rw [hdoing]; rfl
  have hon : (place me).doing.on = some ip := by rw [hdoing]; rfl
  obtain ⟨hlock, hnot⟩ := h.locks.holds me ip hholds
  have hpos := h.refs.pos_of_on hon
  refine write_holds h hlock hpos (h.locks.stay rfl (.inr hholds.symm)) (h.refs.same rfl hon.symm) (by simp)
    (fun _ => ⟨rfl, rfl⟩) (by simp) ?_ ?_ (by simp [hdoing]) (by simp [hdoing, creates])
  · intro entry hentry hcared
    refine hcared.of_le (le_refl _) ?_
    rintro (hlocked | ⟨hother, -⟩)
    · exact .inr (.inl hlocked)
    · rw [hon, some.injEq] at hother
      exact absurd hother.symm hentry
  · rintro entry (hlocked | hnlink)
    · refine .inr ⟨?_, hlocked⟩
      rintro rfl
      simp [hnot] at hlocked
    · simp at hnlink

end Holds

theorem proceed_holds (h : Holds inodes place)
    (halone : ∀ ip, (place me).doing = .test ip → (inodes.icache ip).valid → (inodes.icache ip).nlink = 0 →
      ∀ other ≠ me, (place other).doing ≠ .release ip ∧ (place other).doing ≠ .drop ip) :
    Keeps place me (inodes.proceed me (place me) (place me).doing) := by
  intro turn hturn
  generalize hdoing : (place me).doing = doing at hturn
  cases doing with
  | idle => cases hturn
  | ilock ip new => exact acquiresleep_holds h (.inl ⟨new, hdoing, rfl⟩) hturn
  | load ip new => exact load_holds h hdoing hturn
  | nlink ip => exact nlink_holds h hdoing hturn
  | ialloc inum => exact ialloced_holds h hdoing hturn
  | iput ip => exact acquiresleep_holds h (.inr ⟨hdoing, rfl⟩) hturn
  | test ip => exact test_holds h hdoing (halone ip hdoing) hturn
  | free ip => exact free_holds h hdoing hturn
  | release ip => exact releasesleep_holds h hdoing hturn
  | drop ip => exact drop_holds h hdoing hturn

theorem turn_holds {choice : InodeChoice} (h : Holds inodes place)
    (halone : choice = .proceed → ∀ ip, (place me).doing = .test ip → (inodes.icache ip).valid →
      (inodes.icache ip).nlink = 0 → ∀ other ≠ me, (place other).doing ≠ .release ip ∧ (place other).doing ≠ .drop ip) :
    Keeps place me (inodes.turn me (place me) choice (place me).doing) := by
  intro turn hturn
  generalize hdoing : (place me).doing = doing at hturn
  cases doing with
  | idle =>
    cases choice with
    | proceed => cases hturn
    | iget inum => exact iget_holds h hdoing hturn
    | idup ip => exact idup_holds h hdoing hturn
    | ilock ip => exact ilock_holds h hdoing hturn
    | iunlock ip => exact iunlock_holds h hdoing hturn
    | iupdate ip dinode => exact iupdate_holds h hdoing hturn
    | ialloc inum type => exact ialloc_holds h hdoing hturn
    | iput ip => exact iput_holds h hdoing hturn
  | ilock | load | nlink | ialloc | iput | test | free | release | drop =>
    cases choice with
    | proceed => exact proceed_holds h (halone rfl) (hdoing ▸ hturn)
    | iget | idup | ilock | iunlock | iupdate | ialloc | iput => cases hturn

end Turns

omit [DecidableEq Process] in
theorem Starts.holds (h : Starts inodes place) : Holds inodes place := by
  refine ⟨⟨?_, ?_⟩, ⟨?_, ?_⟩, ⟨?_, ?_, h.unused, ?_⟩, ?_, ?_, ?_⟩
  · intro process ip hlocked
    simp [h.locked] at hlocked
  · intro process ip hdoing
    simp [h.doing, InodeDoing.holds] at hdoing
  · intro ip
    rw [h.refs]
  · intro ip
    have hzero : (inodes.icache ip).ref - inodes.refs ip = 0 := by rw [(h.icache ip).1, h.refs, sub_zero]
    rw [hzero]
    exact .zero fun process => by simp [weight, h.locked, h.doing, on]
  · intro ip other hip
    simp [(h.icache ip).1] at hip
  · intro ip hip
    simp [(h.icache ip).1] at hip
  · intro ip _ hvalid
    simp [(h.icache ip).2] at hvalid
  · intro process ip hloaded
    simp [h.locked, h.doing] at hloaded
  · intro ip href
    simp [(h.icache ip).1] at href
  · intro inum htype hnlink
    exact absurd hnlink (h.linked inum htype)

end Inodes

namespace Inodes

variable {Process : Type} [DecidableEq Process]
  {state : Monitor.State Process (Inodes Process) InodePlace Empty InodePanic}

-- When iput reads the reference count of an inode without links, nobody else is between its own
-- test and the end of iput of the same inode.
def Alone (state : Monitor.State Process (Inodes Process) InodePlace Empty InodePanic) :
    Monitor.Label Process InodeChoice Empty → Prop
  | .turn me .proceed =>
    match (state.place me).doing with
    | .test ip =>
      (state.data.icache ip).valid ∧ (state.data.icache ip).nlink = 0 →
        ∀ other ≠ me, (state.place other).doing ≠ .release ip ∧ (state.place other).doing ≠ .drop ip
    | _ => True
  | _ => True

section

variable (h : Reach (inodes Process).step Alone (Monitor.Begins Starts) state)

include h

theorem inodes_holds : state.data.Holds state.place := by
  refine h.invariant (fun state => state.data.Holds state.place) (fun _ hstart => hstart.1.holds) ?_
  intro state next label hholds halone hstep
  cases Monitor.step_moves hstep with
  | event event => exact event.elim
  | rouse party hdata hplace | panic label panic hcause hdata hplace => rwa [hdata, hplace]
  | turn me choice turn hturn hdata hplace =>
    rw [hdata, hplace]
    refine turn_holds hholds ?_ hturn
    rintro rfl ip hdoing hvalid hnlink
    simp only [Alone, hdoing] at halone
    exact halone ⟨hvalid, hnlink⟩

-- An inode that has no links and to which nobody refers is free and empty on the disk, unless ialloc
-- has just taken it. An entry without references that is still valid has links.
theorem unlinked_inode_freed :
    (∀ inum, (∀ process, (state.place process).doing ≠ .ialloc inum) →
      (∀ ip, 0 < (state.data.icache ip).ref → (state.data.icache ip).inum ≠ inum) →
      (state.data.dinode inum).nlink = 0 →
        (state.data.dinode inum).type = 0 ∧ (state.data.dinode inum).size = 0 ∧
          (state.data.dinode inum).addrs = fun _ => 0) ∧
    ∀ ip, (state.data.icache ip).ref = 0 → (state.data.icache ip).valid → (state.data.icache ip).nlink ≠ 0 := by
  have hholds := inodes_holds h
  refine ⟨?_, hholds.cached.dropped⟩
  intro inum hialloc hnobody hnlink
  have htype : (state.data.dinode inum).type = 0 := by
    by_contra hsome
    rcases hholds.kept inum hsome hnlink with ⟨process, hprocess⟩ | ⟨ip, hinum, hpos, -⟩
    · exact hialloc process hprocess
    · exact hnobody ip hpos hinum
  exact ⟨htype, hholds.cached.unused inum htype⟩

end

-- Two processes, and a file with one link.
def twoUsers : Monitor.State Bool (Inodes Bool) InodePlace Empty InodePanic :=
  ⟨⟨fun _ => ⟨.fresh 0, 0, 0, false⟩, fun _ => ⟨false, none⟩,
      fun inum => if inum = 2 then { Dinode.fresh T_FILE with nlink := 1, size := 7 } else .fresh 0, fun _ => 0⟩,
    fun _ => ⟨.idle, fun _ => false⟩, fun _ => none, none⟩

theorem twoUsers_begins : Monitor.Begins Starts twoUsers := by
  refine ⟨⟨fun _ => ⟨rfl, rfl⟩, fun _ => rfl, fun _ => rfl, ?_, ?_, fun _ => rfl, fun _ _ => rfl⟩, fun _ => rfl, rfl⟩
  · intro inum htype
    by_cases hinum : inum = 2
    · simp [twoUsers, hinum]
    · simp [twoUsers, hinum, Dinode.fresh] at htype
  · intro inum htype
    by_cases hinum : inum = 2
    · simp [twoUsers, hinum, Dinode.fresh, T_FILE] at htype
    · simp [twoUsers, hinum, Dinode.fresh]

instance (state : Monitor.State Bool (Inodes Bool) InodePlace Empty InodePanic)
    (label : Monitor.Label Bool InodeChoice Empty) : Decidable (Alone state label) := by
  unfold Alone
  split
  · split <;> infer_instance
  · infer_instance

-- Both have opened the file, and one of them unlinks it.
def unlinked : List (Monitor.Label Bool InodeChoice Empty) :=
  [.turn true (.iget 2), .turn false (.iget 2), .turn true (.ilock 0), .turn true .proceed, .turn true .proceed,
    .turn true (.iupdate 0 { Dinode.fresh T_FILE with nlink := 0, size := 7 }), .turn true (.iunlock 0)]

def puts (process : Bool) (sections : Nat) : List (Monitor.Label Bool InodeChoice Empty) :=
  .turn process (.iput 0) :: List.replicate sections (.turn process .proceed)

theorem unlinked_inode_freed_after_both : ∃ state : Monitor.State Bool (Inodes Bool) InodePlace Empty InodePanic,
    Reach (inodes Bool).step Alone (Monitor.Begins Starts) state ∧
    (∀ process, (state.place process).doing = .idle) ∧ (∀ ip, (state.data.icache ip).ref ≤ 0) ∧
    (state.data.dinode 2).nlink = 0 ∧ (state.data.dinode 2).type = 0 ∧ (state.data.dinode 2).size = 0 := by
  have hrun : (run (inodes Bool).step Alone twoUsers (unlinked ++ puts true 4 ++ puts false 5)).map
      (fun state => (decide (∀ process, (state.place process).doing = .idle),
        decide (∀ ip, (state.data.icache ip).ref ≤ 0), (state.data.dinode 2).nlink)) = some (true, true, 0) := by
    decide +kernel
  obtain ⟨state, hreach, hdata⟩ := exists_reach_seen twoUsers_begins hrun
  simp only [Prod.mk.injEq, decide_eq_true_eq] at hdata
  obtain ⟨hidle, hrefs, hnlink⟩ := hdata
  obtain ⟨htype, hsize, -⟩ := (unlinked_inode_freed hreach).1 2 (by simp [hidle])
    (fun ip hpos => absurd hpos (by simpa using hrefs ip)) hnlink
  exact ⟨state, hreach, hidle, hrefs, hnlink, htype, hsize⟩

-- Each of them reads the count before the other one has dropped its reference.
theorem unlinked_inode_kept : ∃ state : Monitor.State Bool (Inodes Bool) InodePlace Empty InodePanic,
    Reach (inodes Bool).step (fun _ _ => True) (Monitor.Begins Starts) state ∧
    (∀ process, (state.place process).doing = .idle) ∧ (∀ ip, (state.data.icache ip).ref = 0) ∧
    (state.data.icache 0).valid ∧ (state.data.dinode 2).nlink = 0 ∧ (state.data.dinode 2).type = T_FILE ∧
    (state.data.dinode 2).size = 7 := by
  have hrun : (run (inodes Bool).step (fun _ _ => True) twoUsers
      (unlinked ++ puts true 3 ++ puts false 3 ++ [.turn true .proceed, .turn false .proceed])).map
      (fun state => (decide (∀ process, (state.place process).doing = .idle),
        decide (∀ ip, (state.data.icache ip).ref = 0), (state.data.icache 0).valid, (state.data.dinode 2).nlink,
        (state.data.dinode 2).type, (state.data.dinode 2).size)) = some (true, true, true, 0, T_FILE, 7) := by
    decide +kernel
  obtain ⟨state, hreach, hdata⟩ := exists_reach_seen twoUsers_begins hrun
  simp only [Prod.mk.injEq, decide_eq_true_eq] at hdata
  exact ⟨state, hreach, hdata⟩

end Inodes

end Xv6
