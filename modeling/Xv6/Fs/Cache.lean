import Xv6.Fs.Refs
import Xv6.Fs.Files

namespace Xv6.Fs

open Function Xv6.Action

variable {fs fs' : Fs} {ip : Fin NINODE} {inum : Nat} {fails : FsHalt → Prop}

-- The cache may have other entries for the same inodes.

section Recache

variable (h : Sound none fs) {inode : Inode}
variable (hcopy : 0 < inode.ref → inode.valid → fs.current inode.inum = inode.toDinode ∧ inode.type ≠ 0)
variable (hother : 0 < inode.ref → ∀ jp, jp ≠ ip → 0 < (fs.icache jp).ref → (fs.icache jp).inum ≠ inode.inum)
variable (hrange : 0 < inode.ref → inode.valid → inode.inum < fs.sb.ninodes)

theorem setInode_self : (fs.setInode ip inode).icache ip = inode := update_self _ _ _

theorem setInode_of_ne {jp : Fin NINODE} (hjp : jp ≠ ip) : (fs.setInode ip inode).icache jp = fs.icache jp :=
  update_of_ne hjp _ _

include h hother

theorem unique_recache (jp kp : Fin NINODE) (hjp : 0 < ((fs.setInode ip inode).icache jp).ref)
    (hkp : 0 < ((fs.setInode ip inode).icache kp).ref)
    (hinum : ((fs.setInode ip inode).icache jp).inum = ((fs.setInode ip inode).icache kp).inum) : jp = kp := by
  by_cases hj : jp = ip
  · by_cases hk : kp = ip
    · rw [hj, hk]
    · rw [hj, setInode_self] at hjp hinum
      rw [setInode_of_ne hk] at hkp hinum
      exact absurd hinum.symm (hother hjp kp hk hkp)
  · rw [setInode_of_ne hj] at hjp hinum
    by_cases hk : kp = ip
    · rw [hk, setInode_self] at hkp hinum
      exact absurd hinum (hother hkp jp hj hjp)
    · rw [setInode_of_ne hk] at hkp hinum
      exact h.unique jp kp hjp hkp hinum

include hcopy

theorem current_recache : (fs.setInode ip inode).current = fs.current := by
  funext i
  by_cases hcached : ∃ jp, (fs.setInode ip inode).Caches jp i
  · obtain ⟨jp, hjp⟩ := hcached
    have hunique : ∀ kp, (fs.setInode ip inode).Caches kp i → kp = jp := fun kp hkp =>
      unique_recache h hother kp jp hkp.1 hjp.1 (hkp.2.2.trans hjp.2.2.symm)
    rw [current_of_caches hunique hjp]
    by_cases hip : jp = ip
    · subst hip
      obtain ⟨href, hvalid, hinum⟩ := hjp
      rw [setInode_self] at href hvalid hinum ⊢
      rw [← hinum, (hcopy href hvalid).1]
    · have hold : fs.Caches jp i := by
        rw [Caches, setInode_of_ne hip] at hjp
        exact hjp
      rw [setInode_of_ne hip, h.current_eq hold]
  · rw [current_of_uncached (not_exists.mp hcached), h.clean i (by simp)]
    rfl

include hrange

theorem sound_recache : Sound none (fs.setInode ip inode) := by
  have hcurrent := current_recache h hcopy hother
  have howner : (fs.setInode ip inode).owner = fs.owner := owner_congr hcurrent fun _ _ => rfl
  refine ⟨h.geometry, unique_recache h hother, ?_, ?_, ?_, ?_, ?_, ?_⟩
  · intro jp hjp hvalid
    by_cases hip : jp = ip
    · subst hip
      rw [setInode_self] at hjp hvalid ⊢
      exact hrange hjp hvalid
    · rw [setInode_of_ne hip] at hjp hvalid ⊢
      exact h.inum jp hjp hvalid
  · intro jp hjp hvalid
    by_cases hip : jp = ip
    · subst hip
      rw [setInode_self] at hjp hvalid ⊢
      exact (hcopy hjp hvalid).2
    · rw [setInode_of_ne hip] at hjp hvalid ⊢
      exact h.type jp hjp hvalid
  · rw [howner]
    exact h.owned
  · rw [hcurrent]
    exact h.clean
  · rw [hcurrent]
    exact h.size
  · rw [hcurrent, howner]
    exact h.full

end Recache

-- Only references have been taken or given back: the disk and the inodes are as before, and what somebody refers
-- to is in the same place of the cache.
structure Step (held : Fin NINODE → Int) (fs fs' : Fs) : Prop where
  sound : Sound none fs'
  sb : fs'.sb = fs.sb
  disk : fs'.disk = fs.disk
  current : fs'.current = fs.current
  ref : fs'.ref = fs.ref + held
  inum (jp : Fin NINODE) (href : 0 < fs.ref jp) : (fs'.icache jp).inum = (fs.icache jp).inum
  valid (jp : Fin NINODE) (href : 0 < fs.ref jp) (hvalid : (fs.icache jp).valid) : (fs'.icache jp).valid

theorem single_nonneg (ip : Fin NINODE) : (0 : Fin NINODE → Int) ≤ Pi.single ip 1 := by
  intro jp
  show 0 ≤ (Pi.single ip 1 : Fin NINODE → Int) jp
  rw [Pi.single_apply]
  split_ifs
  · exact Int.one_nonneg
  · exact Int.le_refl 0

namespace Step

variable {held taken : Fin NINODE → Int} {last : Fs}

variable (h : Step held fs fs')

include h

-- What has been taken is not given back before.
theorem trans (hheld : 0 ≤ held) (hlast : Step taken fs' last) : Step (held + taken) fs last := by
  have hpos : ∀ jp, 0 < fs.ref jp → 0 < fs'.ref jp := by
    intro jp href
    have hjp : 0 ≤ held jp := hheld jp
    rw [h.ref, Pi.add_apply]
    omega
  refine ⟨hlast.sound, hlast.sb.trans h.sb, hlast.disk.trans h.disk, hlast.current.trans h.current, ?_, ?_, ?_⟩
  · rw [hlast.ref, h.ref, add_assoc]
  · exact fun jp href => (hlast.inum jp (hpos jp href)).trans (h.inum jp href)
  · exact fun jp href hvalid => hlast.valid jp (hpos jp href) (h.valid jp href hvalid)

theorem owner : fs'.owner = fs.owner := owner_congr h.current fun _ _ => by rw [h.disk]

theorem node : fs'.node = fs.node :=
  node_congr h.current (data_congr h.owner fun _ _ _ _ => by rw [h.disk])

theorem room (slots : Finset (Nat × Nat)) : fs'.Room slots ↔ fs.Room slots := by
  have hbit : fs'.bit = fs.bit := by
    funext b
    simp only [bit, h.sb, h.disk]
  unfold Room
  rw [h.owner, hbit, h.sb]

theorem caches (hip : fs.Caches ip inum) (href : 0 < fs'.ref ip) : fs'.Caches ip inum :=
  ⟨href, h.valid ip hip.1 hip.2.1, (h.inum ip hip.1).trans hip.2.2⟩

end Step

-- What ilock does to an entry that is not loaded.
def load (fs : Fs) (ip : Fin NINODE) : Fs :=
  fs.setInode ip ⟨fs.dinode (fs.icache ip).inum, (fs.icache ip).inum, (fs.icache ip).ref, true⟩

theorem ilock_wp {returns : Unit → Fs → Prop} (hlow : (fs.icache ip).ref < 1 → fails .ilock)
    (hdeadlock : fs.locked ip = true → fails .deadlock)
    (hcached : (fs.icache ip).valid = true → returns () (fs.setLocked ip true))
    (hload : (fs.icache ip).valid = false → (fs.dinode (fs.icache ip).inum).type ≠ 0 →
      returns () ((fs.setLocked ip true).load ip))
    (hfree : (fs.icache ip).valid = false → (fs.dinode (fs.icache ip).inum).type = 0 → fails .noType) :
    wp (ilock ip) fs returns fails := by
  have hloaded : ((fs.setLocked ip true).load ip).icache ip = _ := setInode_self
  simp only [ilock, inode, acquiresleep, modifyInode, wp_bind, wp_get, wp_pure, wp_ite, wp_throw, wp_modify]
  by_cases hpos : (fs.icache ip).ref < 1
  · rw [if_pos hpos]
    exact hlow hpos
  · rw [if_neg hpos]
    by_cases hlocked : fs.locked ip = true
    · rw [if_pos hlocked]
      exact hdeadlock hlocked
    · rw [if_neg hlocked]
      by_cases hvalid : (fs.icache ip).valid = true
      · have hcopy : ¬(!((fs.setLocked ip true).icache ip).valid) = true := by
          have hsame : ((fs.setLocked ip true).icache ip).valid = true := hvalid
          simp [hsame]
        rw [if_neg hcopy]
        exact hcached hvalid
      · have hinvalid : (fs.icache ip).valid = false := by simpa using hvalid
        have hcopy : (!((fs.setLocked ip true).icache ip).valid) = true := by
          have hsame : ((fs.setLocked ip true).icache ip).valid = false := hinvalid
          simp [hsame]
        rw [if_pos hcopy]
        change if (((fs.setLocked ip true).load ip).icache ip).type = 0 then _ else _
        rw [hloaded]
        split_ifs with htype
        · exact hfree hinvalid htype
        · exact hload hinvalid htype

section Steps

variable (h : Sound none fs)

include h

theorem Sound.recache {inode : Inode} {held : Int}
    (hcopy : 0 < inode.ref → inode.valid → fs.current inode.inum = inode.toDinode ∧ inode.type ≠ 0)
    (hother : 0 < inode.ref → ∀ jp, jp ≠ ip → 0 < (fs.icache jp).ref → (fs.icache jp).inum ≠ inode.inum)
    (hrange : 0 < inode.ref → inode.valid → inode.inum < fs.sb.ninodes) (href : inode.ref = (fs.icache ip).ref + held)
    (hinum : 0 < (fs.icache ip).ref → inode.inum = (fs.icache ip).inum)
    (hvalid : 0 < (fs.icache ip).ref → (fs.icache ip).valid → inode.valid) :
    Step (Pi.single ip held) fs (fs.setInode ip inode) where
  sound := sound_recache h hcopy hother hrange
  sb := rfl
  disk := rfl
  current := current_recache h hcopy hother
  ref := by
    funext jp
    rw [Pi.add_apply]
    by_cases hjp : jp = ip
    · subst hjp
      rw [Pi.single_eq_same]
      exact (congrArg Inode.ref setInode_self).trans href
    · rw [Pi.single_eq_of_ne hjp, add_zero]
      exact congrArg Inode.ref (setInode_of_ne hjp)
  inum jp hjp := by
    by_cases hsame : jp = ip
    · subst hsame
      rw [setInode_self]
      exact hinum hjp
    · rw [setInode_of_ne hsame]
  valid jp hjp hcached := by
    by_cases hsame : jp = ip
    · subst hsame
      rw [setInode_self]
      exact hvalid hjp hcached
    · rwa [setInode_of_ne hsame]

-- The number of references changes, and there is one before.
theorem Sound.recount (href : 0 < (fs.icache ip).ref) (held : Int) :
    Step (Pi.single ip held) fs (fs.setInode ip { fs.icache ip with ref := (fs.icache ip).ref + held }) := by
  refine h.recache ?_ ?_ ?_ rfl (fun _ => rfl) fun _ hvalid => hvalid
  · intro _ hvalid
    exact ⟨h.current_eq ⟨href, hvalid, rfl⟩, h.type ip href hvalid⟩
  · intro _ jp hjp hpos hinum
    exact hjp (h.unique jp ip hpos href hinum)
  · intro _ hvalid
    exact h.inum ip href hvalid

theorem Sound.relock (ip : Fin NINODE) (locked : Bool) : Step 0 fs (fs.setLocked ip locked) where
  sound := ⟨h.geometry, h.unique, h.inum, h.type, h.owned, h.clean, h.size, h.full⟩
  sb := rfl
  disk := rfl
  current := rfl
  ref := (add_zero _).symm
  inum _ _ := rfl
  valid _ _ hvalid := hvalid

-- An inode that has just been got is referred to by others as well, or it is not loaded yet.
theorem iget_step (inum : Nat) :
    wp (iget inum) fs (fun ip fs' => Step (Pi.single ip 1) fs fs' ∧ fs'.locked = fs.locked ∧ 0 < fs'.ref ip ∧
        (fs'.icache ip).inum = inum ∧ (fs'.ref ip = 1 → (fs'.icache ip).valid = false))
      fun halt => halt = .igetNoInodes ∧ ∀ ip, fs.ref ip ≠ 0 := by
  simp only [iget, wp_bind, wp_get]
  cases hget : fs.icache.iget inum with
  | none =>
    refine ⟨rfl, fun ip hzero => ?_⟩
    unfold Icache.iget at hget
    cases hfind : fs.icache.find fun inode => inode.ref > 0 && inode.inum = inum with
    | some found => simp [hfind] at hget
    | none =>
      cases hempty : fs.icache.find fun inode => inode.ref = 0 with
      | some found => simp [hfind, hempty] at hget
      | none => simpa [show (fs.icache ip).ref = 0 from hzero] using Icache.find_none hempty ip
  | some pair =>
    obtain ⟨icache, ip⟩ := pair
    rcases Icache.iget_some hget with ⟨href, hinum, rfl⟩ | ⟨hnew, hzero, rfl⟩
    · have hstep := h.recount href 1
      have hself : (fs.setInode ip { fs.icache ip with ref := (fs.icache ip).ref + 1 }).icache ip =
          { fs.icache ip with ref := (fs.icache ip).ref + 1 } := setInode_self
      refine ⟨hstep, rfl, ?_, ?_, ?_⟩
      · show 0 < ((fs.setInode ip _).icache ip).ref
        rw [hself]
        dsimp only
        omega
      · show ((fs.setInode ip _).icache ip).inum = inum
        rw [hself]
        exact hinum
      · show ((fs.setInode ip _).icache ip).ref = 1 → _
        rw [hself]
        dsimp only
        omega
    · have hstep : Step (Pi.single ip 1) fs (fs.setInode ip { fs.icache ip with inum, ref := 1, valid := false }) := by
        refine h.recache (fun _ hvalid => absurd hvalid (by simp)) ?_ (fun _ hvalid => absurd hvalid (by simp)) ?_ ?_ ?_
        · exact fun _ jp _ href => hnew jp href
        · rw [hzero, zero_add]
        · intro href
          omega
        · intro href
          omega
      have hself : (fs.setInode ip { fs.icache ip with inum, ref := 1, valid := false }).icache ip =
          { fs.icache ip with inum, ref := 1, valid := false } := setInode_self
      refine ⟨hstep, rfl, ?_, ?_, ?_⟩
      · show 0 < ((fs.setInode ip _).icache ip).ref
        rw [hself]
        exact Int.one_pos
      · show ((fs.setInode ip _).icache ip).inum = inum
        rw [hself]
      · intro _
        show ((fs.setInode ip _).icache ip).valid = false
        rw [hself]

variable (href : 0 < fs.ref ip)

include href

-- What is in the cache but not loaded is as it is on the disk.
theorem Sound.current_of_invalid (hinvalid : (fs.icache ip).valid = false) :
    fs.current (fs.icache ip).inum = fs.stored (fs.icache ip).inum := by
  refine current_of_uncached fun jp hjp => ?_
  obtain rfl := h.unique jp ip hjp.1 href hjp.2.2
  exact absurd hjp.2.1 (by simp [hinvalid])

theorem load_step (hinvalid : (fs.icache ip).valid = false) (htype : (fs.current (fs.icache ip).inum).type ≠ 0) :
    Step 0 fs (fs.load ip) ∧ (fs.dinode (fs.icache ip).inum).type ≠ 0 := by
  have hstored := h.current_of_invalid href hinvalid
  have hrange : (fs.icache ip).inum < fs.sb.ninodes := by
    by_contra hge
    rw [hstored, stored, if_neg hge] at htype
    exact htype rfl
  have hdinode : fs.current (fs.icache ip).inum = fs.dinode (fs.icache ip).inum := by
    rw [hstored, stored, if_pos hrange]
  rw [hdinode] at htype
  have hstep : Step (Pi.single ip 0) fs (fs.load ip) := by
    refine h.recache (fun _ _ => ⟨hdinode, htype⟩) ?_ (fun _ _ => hrange) (add_zero _).symm
      (fun _ => rfl) fun _ _ => rfl
    intro _ jp hjp hpos hsame
    exact hjp (h.unique jp ip hpos href hsame)
  rw [Pi.single_zero] at hstep
  exact ⟨hstep, htype⟩

theorem ilock_step (hlocked : fs.locked ip = false) (hinum : (fs.icache ip).inum = inum)
    (htype : (fs.current inum).type ≠ 0) :
    wp (ilock ip) fs (fun _ fs' => Step 0 fs fs' ∧ fs'.locked = update fs.locked ip true ∧ fs'.Caches ip inum)
      fails := by
  subst hinum
  have hlock := h.relock ip true
  refine ilock_wp (fun hlow => ?_) (fun hyes => absurd hyes (by simp [hlocked])) (fun hvalid => ?_)
    (fun hinvalid _ => ?_)
    fun hinvalid hfree => ?_
  · unfold ref at href
    omega
  · exact ⟨hlock, rfl, href, hvalid, rfl⟩
  · have hload := (load_step hlock.sound href hinvalid htype).1
    have hstep := hlock.trans (Preorder.le_refl 0) hload
    rw [add_zero] at hstep
    have hself : ((fs.setLocked ip true).load ip).icache ip = _ := setInode_self
    refine ⟨hstep, rfl, ?_, ?_, ?_⟩
    · rw [hself]
      exact href
    · rw [hself]
    · rw [hself]
      rfl
  · exact absurd hfree (load_step h href hinvalid htype).2

omit h in
theorem iunlock_step (h : Sound none fs) (hlocked : fs.locked ip = true) :
    wp (iunlock ip) fs (fun _ fs' => Step 0 fs fs' ∧ fs'.locked = update fs.locked ip false ∧
      fs'.icache = fs.icache) fails := by
  have hpos : ¬(fs.icache ip).ref < 1 := by
    unfold ref at href
    omega
  simp only [iunlock, inode, releasesleep, wp_bind, wp_get, wp_pure, wp_ite, wp_throw, wp_modify]
  rw [if_neg (by simp [hlocked, hpos])]
  exact ⟨h.relock ip false, rfl, rfl⟩

-- If there are links or other references, iput only gives the reference back.
theorem iput_step (hlocked : fs.locked ip = false)
    (hkept : ¬((fs.icache ip).valid ∧ (fs.icache ip).nlink = 0 ∧ (fs.icache ip).ref = 1)) :
    wp (iput ip) fs (fun _ fs' => Step (-Pi.single ip 1) fs fs' ∧ fs'.locked = fs.locked ∧
      ∀ jp, (fs'.icache jp).inum = (fs.icache jp).inum) fails := by
  have hrecount := h.recount href (-1)
  have hsame : (fs.setLocked ip true).setLocked ip false = fs := by
    have hlock : update (update fs.locked ip true) ip false = fs.locked := by
      rw [update_idem, ← hlocked, update_eq_self]
    exact congrArg (fun locked => { fs with locked }) hlock
  simp only [iput, inode, acquiresleep, releasesleep, dropRef, wp_bind, wp_get, wp_pure, wp_ite, wp_throw, wp_modify]
  rw [hlocked, if_neg (by simp)]
  change if (fs.icache ip).valid ∧ (fs.icache ip).nlink = 0 ∧ (fs.icache ip).ref = 1 then _ else _
  rw [if_neg hkept, hsame]
  rw [Pi.single_neg] at hrecount
  exact ⟨hrecount, rfl, setInode_part Inode.inum rfl⟩

theorem iunlockput_step (hlocked : fs.locked ip = true)
    (hkept : ¬((fs.icache ip).valid ∧ (fs.icache ip).nlink = 0 ∧ (fs.icache ip).ref = 1)) :
    wp (iunlockput ip) fs (fun _ fs' => Step (-Pi.single ip 1) fs fs' ∧
      fs'.locked = update fs.locked ip false ∧ ∀ jp, (fs'.icache jp).inum = (fs.icache jp).inum) fails := by
  simp only [iunlockput, wp_bind]
  apply (iunlock_step href h hlocked).imp
  rintro - left ⟨hleft, hunlocked, hicache⟩
  have href' : 0 < left.ref ip := by
    rw [hleft.ref, add_zero]
    exact href
  apply (iput_step hleft.sound href' (by rw [hunlocked, update_self]) (by rwa [hicache])).imp
  rintro - fs' ⟨hstep, hsame, hinum⟩
  have htrans := hleft.trans (Preorder.le_refl 0) hstep
  rw [zero_add] at htrans
  exact ⟨htrans, hsame.trans hunlocked, fun jp => by rw [hinum, hicache]⟩

end Steps

-- What dirlink does with an inode that it has found. The only thing that can go wrong with iput is the lock.
theorem iget_iput_step (h : Sound none fs) (inum : Nat) :
    wp (do iput (← iget inum)) fs (fun _ fs' => Step 0 fs fs' ∧ fs'.locked = fs.locked) fun halt =>
      (halt = .igetNoInodes ∧ ∀ ip, fs.ref ip ≠ 0) ∨
        halt = .deadlock ∧ ∃ ip, fs.locked ip = true ∧ (0 < fs.ref ip → (fs.icache ip).inum = inum) := by
  rw [wp_bind]
  apply (iget_step h inum).mono
  · rintro ip got ⟨hgot, hlocked, hpos, hinum, hfresh⟩
    by_cases hheld : got.locked ip = true
    · simp only [iput, acquiresleep, wp_bind, wp_get, wp_ite, wp_throw]
      rw [if_pos hheld]
      refine .inr ⟨trivial, ip, by rwa [hlocked] at hheld, fun href => ?_⟩
      rw [← hgot.inum ip href, hinum]
    · have hkept : ¬((got.icache ip).valid ∧ (got.icache ip).nlink = 0 ∧ (got.icache ip).ref = 1) := by
        rintro ⟨hvalid, -, hone⟩
        rw [hfresh hone] at hvalid
        cases hvalid
      apply (iput_step hgot.sound hpos (by simpa using hheld) hkept).imp
      rintro - fs' ⟨hstep, hsame, -⟩
      have htrans := hgot.trans (single_nonneg ip) hstep
      rw [add_neg_cancel] at htrans
      exact ⟨htrans, hsame.trans hlocked⟩
  · exact fun halt hhalt => .inl hhalt

end Xv6.Fs
