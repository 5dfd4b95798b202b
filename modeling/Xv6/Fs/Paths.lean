import Xv6.Fs.Directory
import Xv6.Fs.Image
import Xv6.Sysfile.Theorems

variable {path : List Byte}

namespace Xv6.Fs

open Xv6.Action List

section Skipelem

variable {path name rest : List Byte}

end Skipelem

end Xv6.Fs

namespace Xv6.Volume

open Fs

variable (vol : Volume)

-- The inode that dirlookup finds in this directory.
def child (i : Nat) (name : List Byte) : Option Nat :=
  if (vol i).type = T_DIR then ((vol i).find name).map fun off => ((vol i).dirent off).inum.toNat else none

-- Where the names lead to from there.
def resolve : Nat → List (List Byte) → Option Nat
  | i, [] => some i
  | i, name :: rest => (vol.child i name).bind fun j => resolve j rest

-- Where all names but the last one lead to, which is a directory, and the last one.
def resolveParent : Nat → List (List Byte) → Option (Nat × List Byte)
  | _, [] => none
  | i, [name] => if (vol i).type = T_DIR then some (i, name) else none
  | i, name :: next :: rest => (vol.child i name).bind fun j => resolveParent j (next :: rest)

-- What namex looks for.
def target (parent : Bool) (i : Nat) (names : List (List Byte)) : Option (Nat × List Byte) :=
  if parent then vol.resolveParent i names else (vol.resolve i names).map fun j => (j, [])

section Target

variable {vol} {parent : Bool} {i : Nat} {name : List Byte} {rest : List (List Byte)}

end Target

end Xv6.Volume

namespace Xv6.Fs

open Function Xv6.Action

variable {fs fs' : Fs} {ip cwd : Fin NINODE} {i : Nat} {fails : FsHalt → Prop}

-- What is allocated has links, or somebody refers to it.
def Kept (fs : Fs) : Prop :=
  ∀ i, (fs.node i).type ≠ 0 → (fs.node i).nlink ≠ 0 ∨ ∃ jp, 0 < fs.ref jp ∧ (fs.icache jp).inum = i

-- Two more inodes fit in the cache.
def Spare (fs : Fs) : Prop := ∃ a b, a ≠ b ∧ fs.ref a = 0 ∧ fs.ref b = 0

theorem Spare.exists_ne (h : Spare fs) (ip : Fin NINODE) : ∃ jp, jp ≠ ip ∧ fs.ref jp = 0 := by
  obtain ⟨a, b, hne, ha, hb⟩ := h
  by_cases hip : a = ip
  · exact ⟨b, fun hb' => hne (hip.trans hb'.symm), hb⟩
  · exact ⟨a, hip, ha⟩

-- The inode stays, because there are links to it or others refer to it.

section Kept

variable {held : Fin NINODE → Int} (hkept : Kept fs) (hstep : Step held fs fs') (hheld : 0 ≤ held) (hone : 0 < held ip)
variable (hpos : 0 < fs'.ref ip)

include hkept hstep hheld hone hpos

theorem Kept.stays : ¬((fs'.icache ip).valid ∧ (fs'.icache ip).nlink = 0 ∧ (fs'.icache ip).ref = 1) := by
  rintro ⟨hvalid, hnlink, href⟩
  have hnode := hstep.sound.node_eq ⟨hpos, hvalid, rfl⟩
  rw [hstep.node] at hnode
  have htype : (fs.node (fs'.icache ip).inum).type ≠ 0 := by
    rw [hnode]
    exact hstep.sound.type ip hpos hvalid
  have hzero : (fs.node (fs'.icache ip).inum).nlink = 0 := by
    rw [hnode]
    exact hnlink
  obtain ⟨jp, hjp, hinum⟩ := (hkept _ htype).resolve_left (not_not.mpr hzero)
  have hjp' : 0 < fs'.ref jp := by
    have hmore : 0 ≤ held jp := hheld jp
    rw [hstep.ref, Pi.add_apply]
    omega
  have hsame : jp = ip := hstep.sound.unique jp ip hjp' hpos ((hstep.inum jp hjp).trans hinum)
  rw [hsame] at hjp
  have htwo : (fs'.icache ip).ref = fs.ref ip + held ip := congrFun hstep.ref ip
  omega

theorem iput_kept (hlocked : fs'.locked ip = false) :
    wp (iput ip) fs' (fun _ last => Step (held - Pi.single ip 1) fs last ∧ last.locked = fs'.locked) fails := by
  apply (iput_step hstep.sound hpos hlocked (hkept.stays hstep hheld hone hpos)).imp
  rintro - last ⟨hlast, hsame, -⟩
  rw [sub_eq_add_neg]
  exact ⟨hstep.trans hheld hlast, hsame⟩

theorem unlockput_kept (hlocked : fs'.locked ip = true) :
    wp (iunlockput ip) fs' (fun _ last => Step (held - Pi.single ip 1) fs last ∧
      last.locked = update fs'.locked ip false ∧ last.ref = fs'.ref - Pi.single ip 1 ∧
      ∀ jp, (last.icache jp).inum = (fs'.icache jp).inum) fails := by
  apply (iunlockput_step hstep.sound hpos hlocked (hkept.stays hstep hheld hone hpos)).imp
  rintro - last ⟨hlast, hsame, hinum⟩
  rw [sub_eq_add_neg, sub_eq_add_neg]
  exact ⟨hstep.trans hheld hlast, hsame, hlast.ref, hinum⟩

end Kept

-- ilock panics if there is no such inode.
theorem ilock_free (h : Sound none fs) (href : 0 < fs.ref ip) (hlocked : fs.locked ip = false)
    (hinside : (fs.icache ip).inum < fs.sb.ninodes) (htype : (fs.current (fs.icache ip).inum).type = 0)
    (hfails : fails .noType) {returns : Unit → Fs → Prop} : wp (ilock ip) fs returns fails := by
  have hinvalid : (fs.icache ip).valid = false := by
    cases hvalid : (fs.icache ip).valid with
    | false => rfl
    | true =>
      rw [h.current_eq ⟨href, hvalid, rfl⟩] at htype
      exact absurd htype (h.type ip href hvalid)
  have hfree : (fs.dinode (fs.icache ip).inum).type = 0 := by
    rwa [h.current_of_invalid href hinvalid, stored, if_pos hinside] at htype
  refine ilock_wp (fun hlow => ?_) (fun hyes => ?_) (fun hvalid => ?_) (fun _ hne => absurd hfree hne) fun _ _ => hfails
  · unfold ref at href
    omega
  · rw [hlocked] at hyes
    cases hyes
  · rw [hinvalid] at hvalid
    cases hvalid

-- On the way: one inode more is referred to than at the beginning, and nothing is locked.
structure Visits (fs : Fs) (i : Nat) (ip : Fin NINODE) (fs' : Fs) : Prop where
  step : Step (Pi.single ip 1) fs fs'
  unlocked (jp : Fin NINODE) : fs'.locked jp = false
  pos : 0 < fs'.ref ip
  inum : (fs'.icache ip).inum = i
  inside : i < fs.sb.ninodes

-- The result, and the only reference that is left is the one to what has been found.
structure Arrives (fs : Fs) (target : Option (Nat × List Byte)) (found : Option (Fin NINODE × List Byte)) (fs' : Fs) :
    Prop where
  step : Step (reference (found.map Prod.fst)) fs fs'
  unlocked (jp : Fin NINODE) : fs'.locked jp = false
  leads : (found.map fun pair => ((fs'.icache pair.1).inum, pair.2)) = target

namespace Visits

variable (h : Visits fs i ip fs')

include h

theorem arrive (name : List Byte) : Arrives fs (some (i, name)) (some (ip, name)) fs' where
  step := h.step
  unlocked := h.unlocked
  leads := by rw [Option.map_some, h.inum]

-- There is nothing left of the path.
theorem stop (hkept : Kept fs) (parent : Bool) :
    wp (if parent then do
        iput ip
        return none
      else return some (ip, [])) fs'
      (fun found last => Arrives fs (Volume.target fs.node parent i []) found last) fails := by
  cases parent with
  | true =>
    rw [if_pos rfl, wp_bind]
    apply (iput_kept hkept h.step (single_nonneg ip) (by simp) h.pos (h.unlocked ip)).imp
    rintro - last ⟨hstep, hlocked⟩
    rw [sub_self] at hstep
    refine ⟨hstep, fun jp => ?_, rfl⟩
    rw [hlocked]
    exact h.unlocked jp
  | false =>
    rw [if_neg Bool.noConfusion, wp_pure]
    exact h.arrive []

-- The inode is locked, and loaded.
structure Locks (fs : Fs) (i : Nat) (ip : Fin NINODE) (fs' : Fs) : Prop where
  step : Step (Pi.single ip 1) fs fs'
  locked : fs'.locked = update (fun _ => false) ip true
  caches : fs'.Caches ip i
  inside : i < fs.sb.ninodes
  type : (fs.node i).type ≠ 0

theorem lock :
    wp (ilock ip) fs' (fun _ last => Locks fs i ip last) fun halt => halt = .noType ∧ (fs.node i).type = 0 := by
  have hnode : (fs.node i).type = (fs'.current i).type := by
    rw [h.step.current]
    rfl
  by_cases htype : (fs.node i).type = 0
  · refine ilock_free h.step.sound h.pos (h.unlocked ip) ?_ ?_ ⟨rfl, htype⟩
    · rw [h.inum, h.step.sb]
      exact h.inside
    · rw [h.inum, ← hnode]
      exact htype
  · apply (ilock_step h.step.sound h.pos (h.unlocked ip) h.inum (hnode ▸ htype)).imp
    rintro - last ⟨hstep, hlocked, hcaches⟩
    have htrans := h.step.trans (single_nonneg ip) hstep
    rw [add_zero] at htrans
    refine ⟨htrans, ?_, hcaches, h.inside, htype⟩
    rw [hlocked, funext h.unlocked]

end Visits

namespace Visits.Locks

variable (h : Locks fs i ip fs')

include h

theorem unlock : wp (iunlock ip) fs' (fun _ last => Visits fs i ip last) fails := by
  apply (iunlock_step h.caches.1 h.step.sound (by rw [h.locked, update_self])).imp
  rintro - last ⟨hstep, hlocked, hicache⟩
  have htrans := h.step.trans (single_nonneg ip) hstep
  rw [add_zero] at htrans
  refine ⟨htrans, fun jp => ?_, ?_, ?_, h.inside⟩
  · rw [hlocked, h.locked, update_idem, update_eq_self]
  · show 0 < (last.icache ip).ref
    rw [hicache]
    exact h.caches.1
  · rw [hicache]
    exact h.caches.2.2

theorem directory (haligned : (fs.node i).size.toNat % 16 = 0) (hdir : (fs.node i).type = T_DIR) :
    Directory ip i fs' where
  sound := h.step.sound
  caches := h.caches
  type := by
    rw [h.step.node]
    exact hdir
  aligned := by
    rw [h.step.node]
    exact haligned

variable (hkept : Kept fs)

include hkept

-- From a directory to one of its entries.
theorem next {j : Nat} (hinside : j < fs.sb.ninodes) :
    wp (iget j) fs' (fun next got => wp (iunlockput ip) got (fun _ last => Visits fs j next last) fails)
      fun _ => ¬Spare fs := by
  apply (iget_step h.step.sound j).mono
  · rintro next got ⟨hgot, hlocked, hpos, hinum, -⟩
    have hmore : 0 ≤ (Pi.single next 1 : Fin NINODE → Int) ip := single_nonneg next ip
    have hold : 0 < fs'.ref ip := h.caches.1
    have hboth : (0 : Fin NINODE → Int) ≤ Pi.single ip 1 + Pi.single next 1 :=
      fun jp => Int.add_nonneg (single_nonneg ip jp) (single_nonneg next jp)
    have hone : 0 < (Pi.single ip 1 + Pi.single next 1 : Fin NINODE → Int) ip := by
      rw [Pi.add_apply, Pi.single_eq_same]
      omega
    have hip : 0 < got.ref ip := by
      rw [hgot.ref, Pi.add_apply]
      omega
    have hheld : got.locked ip = true := by rw [hlocked, h.locked, update_self]
    apply (unlockput_kept hkept (h.step.trans (single_nonneg ip) hgot) hboth hone hip hheld).imp
    rintro - last ⟨hlast, hunlocked, href, hinums⟩
    rw [add_sub_cancel_left] at hlast
    refine ⟨hlast, fun jp => ?_, ?_, by rw [hinums, hinum], hinside⟩
    · rw [hunlocked, hlocked, h.locked, update_idem, update_eq_self]
    · rw [href, Pi.sub_apply]
      by_cases hnext : next = ip
      · subst hnext
        rw [hgot.ref, Pi.add_apply, Pi.single_eq_same]
        omega
      · rw [Pi.single_eq_of_ne hnext]
        omega
  · rintro halt ⟨-, hnone⟩ hspare
    obtain ⟨jp, hne, hzero⟩ := hspare.exists_ne ip
    apply absurd _ (hnone jp)
    rw [h.step.ref, Pi.add_apply, hzero, Pi.single_eq_of_ne hne, add_zero]

end Visits.Locks

-- The directory at which a path begins.
def start (fs : Fs) (cwd : Fin NINODE) (path : List Byte) : Nat :=
  if path.head? = some slash then ROOTINO else (fs.icache cwd).inum

-- Between two calls of a process that is in this directory. Directories consist of whole entries; an entry may name an
-- inode that is free.
structure Rests (cwd : Fin NINODE) (fs : Fs) : Prop where
  sound : Sound none fs
  unlocked (jp : Fin NINODE) : fs.locked jp = false
  held : 0 < fs.ref cwd
  root : ROOTINO < fs.sb.ninodes
  cwd : (fs.icache cwd).inum < fs.sb.ninodes
  aligned (i : Nat) (hdir : (fs.node i).type = T_DIR) : (fs.node i).size.toNat % 16 = 0
  inside (i k : Nat) (name : List Byte) (target : BitVec 16) (hdir : (fs.node i).type = T_DIR)
    (hentry : (fs.node i).entries k = some (name, target)) : target.toNat < fs.sb.ninodes
  kept : Kept fs

namespace Rests

variable (h : Rests cwd fs)

include h

end Rests

end Xv6.Fs
