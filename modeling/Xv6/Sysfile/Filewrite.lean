import Xv6.Fs.Cache
import Xv6.Fs.Image
import Xv6.Sysfile.Theorems

namespace Xv6

open List

namespace Node

theorem write_nil (node : Node) {off : Nat} (hoff : off ≤ node.size.toNat) : node.write off [] = node := by
  rw [write, overwrite_nil, length_nil, if_neg (by omega)]

theorem write_append (node : Node) (off : Nat) (first second : List Byte)
    (hlt : off + (first ++ second).length < 2 ^ 32) :
    (node.write off first).write (off + first.length) second = node.write off (first ++ second) := by
  have hdata := congrArg Node.data (node.overwrite_append off first second)
  rw [length_append] at hlt
  have hsize : (BitVec.ofNat 32 (off + first.length)).toNat = off + first.length :=
    Nat.mod_eq_of_lt (by omega)
  unfold write
  simp only [overwrite] at hdata ⊢
  rw [hdata, length_append, Nat.add_assoc]
  congr 1
  by_cases hfirst : off + first.length > node.size.toNat
  · rw [if_pos hfirst, hsize, if_pos (by omega : off + (first.length + second.length) > node.size.toNat)]
    split_ifs
    · rfl
    · rw [show second.length = 0 by omega, Nat.add_zero]
  · rw [if_neg hfirst]

end Node

namespace Sys

open Function Xv6.Action Fs

variable {sys next last : Sys} {f : Fin NFILE} {ip : Fin NINODE} {inum : Nat} {addr : List Byte}
variable {slots : Finset (Nat × Nat)} {stops : SysHalt → Prop}

-- A write of filewrite in one transaction.
def writeOnce (f : Fin NFILE) (ip : Fin NINODE) (addr : List Byte) : M Int := do
  fsCall (Fs.ilock ip)
  let written ← fsCall (Fs.writei ip addr ((← get).ftable f).off)
  let r : Int := if written then addr.length else -1
  if r > 0 then modifyFile f fun file => { file with off := file.off + BitVec.ofInt 32 r }
  fsCall (Fs.iunlock ip)
  return r

-- Somebody refers to a regular file, and nobody has locked it.
structure Opened (sys : Sys) (ip : Fin NINODE) (inum : Nat) : Prop where
  sound : Sound none sys.fs
  ref : 0 < sys.fs.ref ip
  caches : (sys.fs.icache ip).inum = inum
  unlocked : sys.fs.locked ip = false
  type : (sys.fs.node inum).type = T_FILE

-- Of the file system and the open files, this has changed.
structure Written (sys : Sys) (f : Fin NFILE) (inum : Nat) (addr : List Byte) (next : Sys) : Prop where
  node : next.fs.node = update sys.fs.node inum ((sys.fs.node inum).write (sys.ftable f).off.toNat addr)
  ftable : next.ftable =
    update sys.ftable f { sys.ftable f with off := (sys.ftable f).off + BitVec.ofNat 32 addr.length }
  locked : next.fs.locked = sys.fs.locked

-- A write is done, or it is refused, and nothing has changed.
def Ends (sys : Sys) (f : Fin NFILE) (inum : Nat) (addr : List Byte) (done refused : Prop) (next : Sys) : Prop :=
  if (sys.ftable f).off.toNat ≤ (sys.fs.node inum).size.toNat then done ∧ Written sys f inum addr next
  else refused ∧ next.fs.node = sys.fs.node ∧ next.ftable = sys.ftable

theorem Ends.imp {done refused finished rejected : Prop} (h : Ends sys f inum addr done refused next)
    (hdone : done → finished) (hrefused : refused → rejected) : Ends sys f inum addr finished rejected next := by
  unfold Ends at h ⊢
  split_ifs at h ⊢
  · exact ⟨hdone h.1, h.2⟩
  · exact ⟨hrefused h.1, h.2⟩

theorem ends_nil {done refused : Prop} (hdone : done) (hrefused : refused) : Ends sys f inum [] done refused sys := by
  unfold Ends
  split_ifs with hoff
  · exact ⟨hdone, by rw [Node.write_nil _ hoff, update_eq_self], by simp, rfl⟩
  · exact ⟨hrefused, rfl, rfl⟩

theorem Written.off (h : Written sys f inum addr next) (hlt : (sys.ftable f).off.toNat + addr.length < 2 ^ 32) :
    (next.ftable f).off.toNat = (sys.ftable f).off.toNat + addr.length := by
  rw [h.ftable, update_self, BitVec.toNat_add, BitVec.toNat_ofNat, Nat.add_mod_mod, Nat.mod_eq_of_lt hlt]

theorem Written.append {more : List Byte} (h : Written sys f inum addr next)
    (hlt : (sys.ftable f).off.toNat + (addr ++ more).length < 2 ^ 32) (hlast : Written next f inum more last) :
    Written sys f inum (addr ++ more) last where
  node := by
    have hoff := h.off (by rw [length_append] at hlt; omega)
    rw [hlast.node, h.node, update_idem, update_self, hoff, Node.write_append _ _ _ _ hlt]
  ftable := by
    rw [hlast.ftable, h.ftable, update_idem, update_self, length_append, BitVec.ofNat_add, BitVec.add_assoc]
  locked := hlast.locked.trans h.locked

theorem writeChunks_succ_wp {turns : Nat} {returns : Bool → Sys → Prop} (haddr : addr ≠ [])
    (h : wp (writeOnce f ip (addr.take maxWrite)) sys (fun r next =>
      if r < 0 then returns false next
      else if r ≠ (addr.take maxWrite).length then stops .shortFilewrite
      else wp (writeChunks f ip turns (addr.drop r.toNat)) next returns stops) stops) :
    wp (writeChunks f ip (turns + 1) addr) sys returns stops := by
  simp only [writeOnce, modifyFile, wp_bind, wp_get, wp_ite, wp_pure, wp_modify] at h
  simp only [writeChunks, modifyFile, wp_bind, wp_get, wp_ite, wp_pure, wp_modify, wp_throw]
  rw [if_neg (by simpa using haddr)]
  exact h

section Writes

variable (h : Opened sys ip inum) (hmax : (sys.ftable f).off.toNat + addr.length ≤ MAXFILE * BSIZE)
    (hslots : places inum (sys.ftable f).off.toNat addr.length ⊆ slots) (hroom : sys.fs.Room slots)

include h hmax hslots hroom

theorem writeOnce_wp : wp (writeOnce f ip addr) sys (fun r next => Ends sys f inum addr
      (r = addr.length ∧ Opened next ip inum ∧ next.fs.Room slots) (r = -1) next) stops := by
  have htype : (sys.fs.current inum).type ≠ 0 := by
    have hfile : (sys.fs.current inum).type = T_FILE := h.type
    rw [hfile]
    decide
  have hlimit : MAXFILE * BSIZE < 2 ^ 32 := by decide
  simp only [writeOnce, modifyFile, wp_bind, wp_get, wp_ite, wp_pure, wp_modify]
  refine wp_fsCall ((ilock_step h.sound h.ref h.unlocked h.caches htype).imp ?_)
  rintro - locked ⟨hlocked, hheld, hcaches⟩
  have hnode := hlocked.node
  refine wp_fsCall (writei_wp hlocked.sound hcaches ?_ (by omega) hslots ?_ ?_ ?_)
  · rw [hnode, h.type]
    decide
  · exact fun hnone => absurd ((hlocked.room slots).mpr hroom) hnone
  · intro hbad
    dsimp only at hbad
    rw [hnode] at hbad
    rw [if_neg (by simp)]
    refine wp_fsCall ((iunlock_step hcaches.1 hlocked.sound (by rw [hheld, update_self])).imp ?_)
    rintro - left ⟨hleft, -, -⟩
    rw [Ends, if_neg (by omega)]
    exact ⟨rfl, hleft.node.trans hnode, rfl⟩
  · intro hoff _ fs' hbecomes hroom'
    rw [hnode] at hoff
    have hready : 0 < fs'.ref ip := by
      have href := hbecomes.steady.ref ip
      have hpos := hcaches.1
      unfold Fs.ref
      omega
    have hheld' : fs'.locked ip = true := by rw [hbecomes.steady.locked, hheld, update_self]
    have hunlock : ∀ ftable, ftable = update sys.ftable f
        { sys.ftable f with off := (sys.ftable f).off + BitVec.ofNat 32 addr.length } →
        wp (fsCall (Fs.iunlock ip)) { sys with fs := fs', ftable } (fun _ next => Ends sys f inum addr
          (Opened next ip inum ∧ next.fs.Room slots) False next) stops := by
      intro ftable hftable
      refine wp_fsCall ((iunlock_step hready hbecomes.sound hheld').imp ?_)
      rintro - left ⟨hleft, hfree, hicache⟩
      have hfile : left.node = update sys.fs.node inum ((sys.fs.node inum).write (sys.ftable f).off.toNat addr) := by
        rw [hleft.node, hbecomes.node, hnode]
      have hunlocked : left.locked = sys.fs.locked := by
        rw [hfree, hbecomes.steady.locked, hheld, update_idem, ← h.unlocked, update_eq_self]
      rw [Ends, if_pos hoff]
      refine ⟨⟨⟨hleft.sound, ?_, ?_, ?_, ?_⟩, ?_⟩, hfile, hftable, hunlocked⟩
      · show 0 < left.ref ip
        rw [hleft.ref, add_zero]
        exact hready
      · show (left.icache ip).inum = inum
        rw [hicache, hbecomes.steady.inum, hcaches.2.2]
      · exact (congrFun hunlocked ip).trans h.unlocked
      · show (left.node inum).type = T_FILE
        rw [hfile, update_self]
        exact h.type
      · exact (hleft.room slots).mpr (hroom'.mpr ((hlocked.room slots).mpr hroom))
    simp only [if_true]
    split_ifs with hpos
    · exact (hunlock _ (by simp)).imp fun _ _ hends => hends.imp (.intro trivial) False.elim
    · refine (hunlock _ ?_).imp fun _ _ hends => hends.imp (.intro trivial) False.elim
      rw [show addr.length = 0 by omega]
      simp

-- Each turn writes some bytes, so that there are enough turns.
theorem writeChunks_wp {turns : Nat} (hturns : addr.length ≤ turns) :
    wp (writeChunks f ip turns addr) sys (fun ok => Ends sys f inum addr (ok = true) (ok = addr.isEmpty)) stops := by
  have hlimit : MAXFILE * BSIZE < 2 ^ 32 := by decide
  induction turns generalizing sys addr with
  | zero =>
    obtain rfl := length_eq_zero_iff.mp (Nat.le_zero.mp hturns)
    exact ends_nil rfl rfl
  | succ turns ih =>
    by_cases hempty : addr = []
    · subst hempty
      exact ends_nil rfl rfl
    have hfew : (addr.take maxWrite).length = min maxWrite addr.length := length_take
    have hpos := length_pos_iff.mpr hempty
    have hmost : 0 < maxWrite := by decide
    apply writeChunks_succ_wp hempty
    apply (writeOnce_wp h (by omega) ((places_subset le_rfl (by omega)).trans hslots) hroom).imp
    intro r next hturn
    by_cases hoff : (sys.ftable f).off.toNat ≤ (sys.fs.node inum).size.toNat
    · rw [Ends, if_pos hoff] at hturn
      obtain ⟨⟨rfl, hnext, hroom'⟩, hwritten⟩ := hturn
      rw [if_neg (by omega), if_neg (by simp), Int.toNat_natCast]
      have hoff' := hwritten.off (by omega)
      have hdrop : (addr.drop (addr.take maxWrite).length).length = addr.length - (addr.take maxWrite).length :=
        length_drop
      have hsplit : addr.take maxWrite ++ addr.drop (addr.take maxWrite).length = addr :=
        prefix_iff_eq_append.mp ( take_prefix ..)
      have hinside : (next.ftable f).off.toNat ≤ (next.fs.node inum).size.toNat := by
        rw [hoff', hwritten.node, update_self, Node.write]
        dsimp only
        split_ifs with hgrows
        · rw [BitVec.toNat_ofNat, Nat.mod_eq_of_lt (by omega)]
        · exact Nat.not_lt.mp hgrows
      have hplaces : places inum (next.ftable f).off.toNat (addr.drop (addr.take maxWrite).length).length ⊆ slots := by
        rw [hoff', hdrop]
        exact (places_subset (by omega) (by omega)).trans hslots
      apply (ih hnext (by omega) hplaces hroom' (by omega)).imp
      intro ok last hlast
      rw [Ends, if_pos hinside] at hlast
      have hall := hwritten.append (by rw [hsplit]; omega) hlast.2
      rw [hsplit] at hall
      rw [Ends, if_pos hoff]
      exact ⟨hlast.1, hall⟩
    · rw [Ends, if_neg hoff] at hturn
      obtain ⟨rfl, hsame⟩ := hturn
      rw [if_pos (by decide), Ends, if_neg hoff]
      exact ⟨by simp [hempty], hsame⟩

end Writes

-- The loop of filewrite does what one write does. Both refuse an offset beyond the end, which no call leaves behind.
theorem filewrite_once (inum : Nat) (h : Opened sys (sys.ftable f).ip inum) (hwritable : (sys.ftable f).writable)
    (htype : (sys.ftable f).type = .FD_INODE) (hmax : (sys.ftable f).off.toNat + addr.length ≤ MAXFILE * BSIZE)
    (hroom : sys.fs.Room (places inum (sys.ftable f).off.toNat addr.length)) :
    wp (filewrite f addr) sys (fun r => Ends sys f inum addr (r = some (addr.length : Int))
      (r = some (if addr = [] then 0 else -1))) (fun _ => False) ∧
    wp (writeOnce f (sys.ftable f).ip addr) sys (fun r => Ends sys f inum addr (r = addr.length) (r = -1))
      fun _ => False := by
  constructor
  · simp only [filewrite, wp_bind, wp_get, hwritable, htype, Bool.not_true, Bool.false_eq_true, if_false]
    apply (writeChunks_wp h hmax subset_rfl hroom le_rfl).imp
    intro ok next hends
    cases ok with
    | true => exact hends.imp (fun _ => rfl) fun hnil => by simp [isEmpty_iff.mp hnil.symm]
    | false => exact hends.imp (by simp) fun hsome => by simp [isEmpty_eq_false_iff.mp hsome.symm]
  · apply (writeOnce_wp h hmax subset_rfl hroom).imp
    exact fun r next hends => hends.imp And.left id

-- The write is longer than one transaction.
theorem filewrite_once_small : ∃ sys next : Sys,
    (filewrite 0 (List.replicate 1600 1)).run sys = .ok (some 1600, next) ∧ maxWrite < 1600 ∧
      (next.ftable 0).off = 1602 ∧ (next.fs.node 2).data 1 = 121 ∧ (next.fs.node 2).data 1601 = 1 := by
  let sys : Sys := ⟨small, fun _ => ⟨.FD_INODE, 1, true, true, 0, 1, 2⟩, fun _ => ⟨false, false, 0⟩, 0,
    fun _ => ⟨.RUNNABLE, fun _ => none, none⟩⟩
  have hroom : small.Room (places 2 2 1600) := by
    have hfew : places 2 2 1600 ⊆ (Finset.range 4).image (Prod.mk 2) := by
      intro slot hslot
      simp only [places, NDIRECT, BSIZE, Nat.reduceMul, Nat.reduceAdd, Nat.reduceLT, false_and, if_false,
        Finset.union_empty, Finset.mem_image, Finset.mem_Ico] at hslot
      obtain ⟨o, ho, rfl⟩ := hslot
      exact Finset.mem_image_of_mem _ (Finset.mem_range.mpr (by omega))
    calc (lacking small.owner (places 2 2 1600)).card
        ≤ (places 2 2 1600).card := Finset.card_le_card (Finset.filter_subset ..)
      _ ≤ 4 := (Finset.card_le_card hfew).trans (by decide)
      _ ≤ (spare small.bit small.sb.size).card := by decide +kernel
  have hopened : Opened sys (sys.ftable 0).ip 2 := ⟨small_sound, by decide, rfl, rfl, by decide +kernel⟩
  -- The bytes are kept apart from the length, which is all that is computed with.
  obtain ⟨addr, haddr⟩ : ∃ addr, addr = List.replicate 1600 (1 : Byte) := ⟨_, rfl⟩
  have hlength : addr.length = 1600 := by rw [haddr, List.length_replicate]
  have hmax : (sys.ftable 0).off.toNat + addr.length ≤ MAXFILE * BSIZE := by
    rw [hlength]
    decide
  have hplaces : sys.fs.Room (places 2 (sys.ftable 0).off.toNat addr.length) := by
    rw [hlength, show (sys.ftable 0).off.toNat = 2 from rfl]
    exact hroom
  obtain ⟨r, next, hrun, hends⟩ := (filewrite_once 2 hopened rfl rfl hmax hplaces).1.run_of_false
  rw [Ends, if_pos (by decide +kernel), hlength] at hends
  obtain ⟨rfl, hwritten⟩ := hends
  refine ⟨sys, next, haddr ▸ hrun, by decide, ?_, ?_⟩
  · rw [hwritten.ftable, hlength]
    rfl
  · rw [hwritten.node, update_self, Node.write, Node.overwrite, hlength, haddr]
    decide +kernel

end Sys

end Xv6
