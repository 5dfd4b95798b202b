import Mathlib.Order.Interval.Finset.Nat
import Xv6.Fs.Blocks

namespace Xv6

open Function

namespace Fs

open Xv6.Action

variable {fs fs' : Fs} {dirty : Option Nat} {ip : Fin NINODE} {inum : Nat} {fails : FsHalt → Prop}

theorem same_block (off i : Nat) (h : off % BSIZE + i < BSIZE) :
    (off + i) / BSIZE = off / BSIZE ∧ (off + i) % BSIZE = off % BSIZE + i := by
  simp only [BSIZE] at h ⊢
  omega

variable {off o : Nat} {src : List Byte} {slots : Finset (Nat × Nat)} {returns : Unit → Fs → Prop} {n size : Word}

theorem range_iff {n : Nat} (h : o / BSIZE = off / BSIZE) :
    (off % BSIZE ≤ o % BSIZE ∧ o % BSIZE < off % BSIZE + n) ↔ (off ≤ o ∧ o < off + n) := by
  simp only [BSIZE] at h ⊢
  omega

section Read

variable (h : Sound dirty fs) (hip : fs.Caches ip inum)

include h hip

theorem readBlocks_wp {turns n : Nat} {returns : List Byte → Fs → Prop} (hturns : n ≤ turns)
    (hfull : ∀ o, off ≤ o → o < off + n → o / BSIZE < MAXFILE ∧ fs.owner (inum, o / BSIZE) ≠ 0)
    (hreturns : returns ((fs.node inum).read off n) fs) : wp (readBlocks ip turns off n) fs returns fails := by
  induction turns generalizing off n returns with
  | zero =>
    have hn : n = 0 := by omega
    subst hn
    exact hreturns
  | succ turns ih =>
    simp only [readBlocks, wp_ite, wp_pure, wp_bind, bread, wp_get]
    split_ifs with hn
    · subst hn
      exact hreturns
    · obtain ⟨hbn, howner⟩ := hfull off (by omega) (by omega)
      have hpos : 0 < BSIZE - off % BSIZE := Nat.sub_pos_of_lt (Nat.mod_lt _ (by decide))
      refine bmap_wp h hip hbn howner ?_
      refine ih (by omega) (fun o ho ho' => hfull o (by omega) (by omega)) ?_
      have hsplit : n = min n (BSIZE - off % BSIZE) + (n - min n (BSIZE - off % BSIZE)) := by omega
      rw [hsplit, Node.read_add] at hreturns
      have hfirst : (fs.disk (fs.owner (inum, off / BSIZE))).bytes (off % BSIZE) (min n (BSIZE - off % BSIZE)) =
          (fs.node inum).read off (min n (BSIZE - off % BSIZE)) := by
        unfold Bytes.bytes Node.read
        refine List.map_congr_left fun i hi => ?_
        have hlt := List.mem_range.mp hi
        obtain ⟨hdiv, hmod⟩ : (off + i) / BSIZE = off / BSIZE ∧ (off + i) % BSIZE = off % BSIZE + i :=
          same_block off i (by omega)
        change _ = fs.data inum (off + i)
        rw [data, hdiv, hmod, if_pos ⟨hbn, howner⟩]
      rw [hfirst]
      exact hreturns

end Read

-- A write to a block of data.

section Data

variable (h : Sound (some inum) fs) {bn : Nat} (hbn : bn < MAXFILE) (howner : fs.owner (inum, bn) ≠ 0) (block : Bytes)

include h hbn howner

omit hbn in
theorem stored_writeData : (fs.write (fs.owner (inum, bn)) block).stored = fs.stored := by
  have hle := (h.owned.range _ howner).1
  have hlt := bmapstart_lt h.geometry
  exact stored_write_of_le h.geometry (Nat.le_of_lt (Nat.lt_of_lt_of_le hlt hle))

omit hbn in
theorem current_writeData : (fs.write (fs.owner (inum, bn)) block).current = fs.current :=
  current_of_icache rfl (stored_writeData h howner block)

omit hbn howner in
theorem disk_writeData {slot : Nat × Nat} (hslot : fs.owner slot ≠ 0) (hne : slot ≠ (inum, bn)) :
    (fs.write (fs.owner (inum, bn)) block).disk (fs.owner slot) = fs.disk (fs.owner slot) :=
  disk_write_of_ne fun heq => hne (h.owned.injective slot _ hslot heq)

theorem owner_writeData : (fs.write (fs.owner (inum, bn)) block).owner = fs.owner := by
  refine owner_congr (current_writeData h howner block) ?_
  intro i hi
  refine disk_writeData h block hi ?_
  intro heq
  have hmax := (Prod.mk.inj heq).2
  omega

theorem grows_writeData : Grows inum fs (fs.write (fs.owner (inum, bn)) block) := by
  have htouches : Touches inum fs (fs.write (fs.owner (inum, bn)) block) :=
    { sb := rfl
      locked := rfl
      ref := fun _ => rfl
      inum := fun _ => rfl
      valid := fun _ => rfl
      type := fun _ => rfl
      current := fun other _ => congrFun (current_writeData h howner block) other
      stored := stored_writeData h howner block
      owner := fun other k _ => congrFun (owner_writeData h hbn howner block) (other, k) }
  refine ⟨htouches, htouches.sound h ?_, ?_⟩
  · rw [owner_writeData h hbn howner block]
    refine h.owned.congr ?_
    intro b hb
    exact bit_write_data h.geometry hb (h.owned.range _ howner).1
  · intro slot _
    rw [owner_writeData h hbn howner block]

theorem room_writeData (slots : Finset (Nat × Nat)) :
    (fs.write (fs.owner (inum, bn)) block).Room slots ↔ fs.Room slots := by
  unfold Room
  rw [owner_writeData h hbn howner]
  exact Enough.congr fun b hb => bit_write_data h.geometry hb (h.owned.range _ howner).1

theorem data_writeData (i o : Nat) :
    (fs.write (fs.owner (inum, bn)) block).data i o =
      if i = inum ∧ o / BSIZE = bn then block (o % BSIZE) else fs.data i o := by
  unfold data
  rw [owner_writeData h hbn howner block]
  by_cases hhere : i = inum ∧ o / BSIZE = bn
  · obtain ⟨rfl, rfl⟩ := hhere
    rw [if_pos ⟨hbn, howner⟩, if_pos ⟨rfl, rfl⟩]
    exact congrFun (update_self _ _ _) _
  · rw [if_neg hhere]
    by_cases hblock : o / BSIZE < MAXFILE ∧ fs.owner (i, o / BSIZE) ≠ 0
    · have hne : (i, o / BSIZE) ≠ (inum, bn) := fun heq => hhere ⟨(Prod.mk.inj heq).1, (Prod.mk.inj heq).2⟩
      rw [if_pos hblock, if_pos hblock, disk_writeData h block hblock.2 hne]
    · rw [if_neg hblock, if_neg hblock]

theorem node_writeData (hoff : off / BSIZE = bn) (hsrc : off % BSIZE + src.length ≤ BSIZE)
    (hblock : block = (fs.disk (fs.owner (inum, bn))).setBytes (off % BSIZE) src) :
    (fs.write (fs.owner (inum, bn)) block).node = update fs.node inum ((fs.node inum).overwrite off src) := by
  funext i
  have hcurrent := congrFun (current_writeData h howner block) i
  have hdata : (fs.write (fs.owner (inum, bn)) block).data i =
      if i = inum then ((fs.node inum).overwrite off src).data else fs.data i := by
    funext o
    rw [data_writeData h hbn howner]
    by_cases hi : i = inum
    · subst hi
      simp only [true_and, if_true, hblock, Bytes.setBytes, Node.overwrite]
      change _ = if off ≤ o ∧ o < off + src.length then _ else fs.data i o
      by_cases hsame : o / BSIZE = bn
      · have hold : fs.data i o = fs.disk (fs.owner (i, bn)) (o % BSIZE) := by
          rw [data, hsame, if_pos ⟨hbn, howner⟩]
        have hrange : (off % BSIZE ≤ o % BSIZE ∧ o % BSIZE < off % BSIZE + src.length) ↔
            (off ≤ o ∧ o < off + src.length) := by
          subst hoff
          exact range_iff hsame
        rw [if_pos hsame]
        by_cases hin : off ≤ o ∧ o < off + src.length
        · have hplace : o % BSIZE - off % BSIZE = o - off := by
            subst hoff
            simp only [BSIZE] at hsame ⊢
            omega
          rw [if_pos (hrange.mpr hin), if_pos hin, hplace]
        · rw [if_neg (mt hrange.mp hin), if_neg hin, hold]
      · have hout : ¬ (off ≤ o ∧ o < off + src.length) := by
          rintro ⟨hlow, hhigh⟩
          refine hsame ?_
          rw [← hoff]
          simp only [BSIZE] at hsrc ⊢
          omega
        rw [if_neg hsame, if_neg hout]
    · simp [hi]
  by_cases hi : i = inum
  · subst hi
    rw [update_self]
    simp only [node, hcurrent, hdata, if_true, Node.overwrite]
  · rw [update_of_ne hi]
    simp only [node, hcurrent, hdata, hi, if_false]

end Data

-- The blocks of a file in which these bytes are, and the indirect block if it has to do with them.
def places (inum off n : Nat) : Finset (Nat × Nat) :=
  (Finset.Ico off (off + n)).image (fun o => (inum, o / BSIZE)) ∪
    if NDIRECT * BSIZE < off + n ∧ 0 < n then {(inum, MAXFILE)} else ∅

theorem mem_places {n : Nat} (hlow : off ≤ o) (hhigh : o < off + n) : (inum, o / BSIZE) ∈ places inum off n := by
  refine Finset.mem_union_left _ (Finset.mem_image.mpr ⟨o, Finset.mem_Ico.mpr ⟨hlow, hhigh⟩, rfl⟩)

theorem indirect_mem_places {n : Nat} (hlow : off ≤ o) (hhigh : o < off + n) (hindirect : NDIRECT ≤ o / BSIZE) :
    (inum, MAXFILE) ∈ places inum off n := by
  have hmul : NDIRECT * BSIZE ≤ o := (Nat.le_div_iff_mul_le (by decide)).mp hindirect
  refine Finset.mem_union_right _ ?_
  rw [if_pos ⟨by omega, by omega⟩]
  exact Finset.mem_singleton_self _

theorem places_subset {n start count : Nat} (hlow : start ≤ off) (hhigh : off + n ≤ start + count) :
    places inum off n ⊆ places inum start count := by
  apply Finset.union_subset_union (Finset.image_subset_image (Finset.Ico_subset_Ico hlow hhigh))
  split_ifs with hpart hwhole
  · exact Finset.Subset.refl _
  · exact absurd ⟨by omega, by omega⟩ hwhole
  · exact Finset.empty_subset _
  · exact Finset.Subset.refl _

theorem writeBlocks_spec {turns : Nat} (hfails : ¬fs.Room slots → fails .outOfBlocks)
    (hslots : places inum off src.length ⊆ slots)
    (hrange : MAXFILE * BSIZE < off + src.length → fails .bmapOutOfRange) (h : Sound (some inum) fs)
    (hip : fs.Caches ip inum) (hturns : src.length ≤ turns) :
    wp (writeBlocks ip turns off src) fs (fun _ fs' =>
      Grows inum fs fs' ∧ fs'.node = update fs.node inum ((fs.node inum).overwrite off src) ∧
        (∀ o, off ≤ o → o < off + src.length → fs'.owner (inum, o / BSIZE) ≠ 0) ∧
        ((∀ o, off ≤ o → o < off + src.length → fs.owner (inum, o / BSIZE) ≠ 0) → fs'.current = fs.current) ∧
        (fs'.Room slots ↔ fs.Room slots))
      fails := by
  induction turns generalizing fs off src with
  | zero =>
    have hsrc := List.length_eq_zero_iff.mp (Nat.le_zero.mp hturns)
    subst hsrc
    refine ⟨.refl h, ?_, ?_, fun _ => rfl, Iff.rfl⟩
    · rw [Node.overwrite_nil, update_eq_self]
    · intro o hlow hhigh
      simp only [List.length_nil] at hhigh
      omega
  | succ turns ih =>
    simp only [writeBlocks, wp_ite, wp_pure, wp_bind, bread, wp_get, logWrite, wp_modify]
    split_ifs with hempty
    · have hsrc := List.isEmpty_iff.mp hempty
      subst hsrc
      refine ⟨.refl h, ?_, ?_, fun _ => trivial, trivial⟩
      · rw [Node.overwrite_nil, update_eq_self]
      · intro o hlow hhigh
        simp only [List.length_nil] at hhigh
        omega
    · have hne : src ≠ [] := fun heq => hempty (List.isEmpty_iff.mpr heq)
      have hlen := List.length_pos_iff.mpr hne
      have hhere : off < off + src.length := by omega
      refine (bmap_spec hfails h hip (fun hbn => hrange ?_) (hslots (mem_places (Nat.le_refl _) hhere)) fun hbn =>
        hslots (indirect_mem_places (Nat.le_refl _) hhere hbn)).imp ?_
      · exact Nat.lt_of_le_of_lt ((Nat.le_div_iff_mul_le (by decide)).mp hbn) hhere
      rintro b fs' ⟨hbn, hgrows, hnode, rfl, howner, hsame, hroom⟩
      have hlow : off % BSIZE < BSIZE := Nat.mod_lt _ (by decide)
      generalize hm : min src.length (BSIZE - off % BSIZE) = m
      have htake : (src.take m).length = m := by
        rw [List.length_take]
        omega
      have hwritten := grows_writeData hgrows.sound hbn howner
        ((fs'.disk (fs'.owner (inum, off / BSIZE))).setBytes (off % BSIZE) (src.take m))
      have hnode' := node_writeData hgrows.sound hbn howner _ rfl (by rw [htake]; omega) rfl
      have hdrop : (src.drop m).length ≤ turns := by
        rw [List.length_drop]
        omega
      have hroom' := (room_writeData hgrows.sound hbn howner
        ((fs'.disk (fs'.owner (inum, off / BSIZE))).setBytes (off % BSIZE) (src.take m)) slots).trans hroom
      have hslots' : places inum (off + m) (src.drop m).length ⊆ slots := by
        rw [List.length_drop]
        exact (places_subset (by omega) (by omega)).trans hslots
      refine (ih (fun hnone => hfails (mt hroom'.mpr hnone)) hslots' (fun hlt => hrange ?_) hwritten.sound
        (hwritten.caches (hgrows.caches hip)) hdrop).imp ?_
      · rw [List.length_drop] at hlt
        omega
      rintro - last ⟨hlast, hnodelast, hownerlast, hcurrent, hroomlast⟩
      refine ⟨(hgrows.trans hwritten).trans hlast, ?_, ?_, ?_, hroomlast.trans hroom'⟩
      · rw [hnodelast, hnode', update_idem, update_self, hnode]
        congr 1
        have hoverwrite := Node.overwrite_append (fs.node inum) off (src.take m) (src.drop m)
        rw [htake, List.take_append_drop] at hoverwrite
        exact hoverwrite
      · intro o ho ho'
        by_cases hhere : o < off + m
        · have hblock : o / BSIZE = off / BSIZE := by
            have hsame := (same_block off (o - off) (by omega)).1
            rwa [show off + (o - off) = o by omega] at hsame
          have hkept := hwritten.keeps _ howner
          rw [hblock, hlast.keeps _ (by rw [hkept]; exact howner), hkept]
          exact howner
        · refine hownerlast o (by omega) ?_
          rw [List.length_drop]
          omega
      · intro hall
        have heq := hsame (hall off (Nat.le_refl _) (by omega))
        subst heq
        refine (hcurrent ?_).trans (current_writeData h howner _)
        intro o ho ho'
        rw [List.length_drop] at ho'
        rw [owner_writeData h hbn howner]
        exact hall o (by omega) (by omega)

namespace Sound

variable (h : Sound dirty fs) (hip : fs.Caches ip inum)

include h hip

theorem node_eq :
    fs.node inum =
      { type := (fs.icache ip).type
        major := (fs.icache ip).major
        minor := (fs.icache ip).minor
        nlink := (fs.icache ip).nlink
        size := (fs.icache ip).size
        data := fs.data inum } := by
  simp only [node, h.current_eq hip]

theorem node_type : (fs.node inum).type = (fs.icache ip).type := by rw [h.node_eq hip]

theorem node_size : (fs.node inum).size = (fs.icache ip).size := by rw [h.node_eq hip]

omit h hip in
theorem settle (h : Sound (some inum) fs) (hclean : fs.current inum = fs.stored inum)
    (hsize : (fs.current inum).type ≠ 0 → (fs.current inum).size.toNat ≤ MAXFILE * BSIZE)
    (hfull : ∀ bn, (fs.current inum).type ≠ 0 → bn * BSIZE < (fs.current inum).size.toNat → fs.owner (inum, bn) ≠ 0) :
    Sound none fs where
  __ := h
  clean i _ := by
    by_cases hi : i = inum
    · rw [hi, hclean]
    · exact h.clean i fun heq => hi (Option.some.inj heq)
  size i _ := by
    by_cases hi : i = inum
    · rw [hi]
      exact hsize
    · exact h.size i fun heq => hi (Option.some.inj heq)
  full i bn _ := by
    by_cases hi : i = inum
    · rw [hi]
      exact hfull bn
    · exact h.full i bn fun heq => hi (Option.some.inj heq)

omit hip in
theorem block_of_lt (hdirty : some inum ≠ dirty) (htype : (fs.current inum).type ≠ 0)
    (ho : o < (fs.node inum).size.toNat) : o / BSIZE < MAXFILE ∧ fs.owner (inum, o / BSIZE) ≠ 0 := by
  have hsize := h.size inum hdirty htype
  have hle : o / BSIZE * BSIZE ≤ o := Nat.div_mul_le_self _ _
  refine ⟨?_, h.full inum _ hdirty htype (Nat.lt_of_le_of_lt hle ho)⟩
  exact Nat.div_lt_of_lt_mul (Nat.lt_of_lt_of_le ho (by rwa [Nat.mul_comm] at hsize))

end Sound

section Update

variable (h : Sound (some inum) fs) (hip : fs.Caches ip inum)

include h hip

section SetInode

variable {inode : Inode} (href : inode.ref = (fs.icache ip).ref) (hinum : inode.inum = (fs.icache ip).inum)
variable (hvalid : inode.valid = (fs.icache ip).valid) (htype : inode.type = (fs.icache ip).type)
variable (haddrs : inode.addrs = (fs.icache ip).addrs)

include href hinum hvalid htype haddrs

theorem owner_setInode : (fs.setInode ip inode).owner = fs.owner := by
  have hcopy : inode.valid := hvalid.trans hip.2.1
  funext slot
  rw [h.owner_setInode hip href hinum hcopy]
  split_ifs with hslot
  · rw [owner, hslot, h.current_eq hip]
    exact Dinode.blockAt_eq htype haddrs
  · rfl

theorem grows_setInode : Grows inum fs (fs.setInode ip inode) := by
  have hcopy : inode.valid := hvalid.trans hip.2.1
  have howner := owner_setInode h hip href hinum hvalid htype haddrs
  have htouches : Touches inum fs (fs.setInode ip inode) :=
    { sb := rfl
      locked := rfl
      ref := setInode_part Inode.ref href
      inum := setInode_part Inode.inum hinum
      valid := setInode_part Inode.valid hvalid
      type := setInode_part (fun inode => inode.type) htype
      current := fun other hother => by
        rw [h.current_setInode hip href hinum hcopy, update_of_ne hother]
      stored := rfl
      owner := fun other k _ => congrFun howner (other, k) }
  refine ⟨htouches, htouches.sound h ?_, ?_⟩
  · rw [howner]
    exact h.owned
  · intro slot _
    rw [howner]

theorem node_setInode :
    (fs.setInode ip inode).node =
      update fs.node inum
        { fs.node inum with major := inode.major, minor := inode.minor, nlink := inode.nlink, size := inode.size } := by
  have hcopy : inode.valid := hvalid.trans hip.2.1
  have howner := owner_setInode h hip href hinum hvalid htype haddrs
  have hcurrent := h.current_setInode hip href hinum hcopy
  have hdata : (fs.setInode ip inode).data = fs.data := data_congr howner fun _ _ _ _ => rfl
  funext i
  by_cases hi : i = inum
  · subst hi
    simp only [node, hcurrent, hdata, update_self, h.current_eq hip, htype]
  · simp only [node, hcurrent, hdata, update_of_ne hi]

end SetInode

section Store

theorem current_store : (fs.store inum (fs.icache ip).toDinode).current = fs.current := by
  have hstored := stored_store (h.inum_lt hip) (fs.icache ip).toDinode
  funext i
  by_cases hi : i = inum
  · subst hi
    rw [h.current_eq hip]
    exact current_of_caches (h.caches_unique hip) hip
  · refine current_congr (fun _ => Iff.rfl) (fun _ _ => rfl) ?_
    rw [hstored, update_of_ne hi]

theorem owner_store : (fs.store inum (fs.icache ip).toDinode).owner = fs.owner := by
  refine owner_congr (current_store h hip) ?_
  intro i hi
  exact disk_store h.geometry (h.inum_lt hip) (h.owned.range _ hi).1 _

theorem node_store : (fs.store inum (fs.icache ip).toDinode).node = fs.node := by
  refine node_congr (current_store h hip) (data_congr (owner_store h hip) ?_)
  intro i bn _ hi
  exact disk_store h.geometry (h.inum_lt hip) (h.owned.range _ hi).1 _

omit h hip in
theorem steady_store : Steady fs (fs.store inum (fs.icache ip).toDinode) where
  sb := rfl
  locked := rfl
  ref _ := rfl
  inum _ := rfl
  valid _ := rfl

-- After this the inode is not dirty any more.
theorem sound_store (hsize : (fs.node inum).size.toNat ≤ MAXFILE * BSIZE)
    (hfull : ∀ bn, bn * BSIZE < (fs.node inum).size.toNat → fs.owner (inum, bn) ≠ 0) :
    Sound none (fs.store inum (fs.icache ip).toDinode) where
  geometry := h.geometry
  unique := h.unique
  inum := h.inum
  type := h.type
  owned := by
    rw [owner_store h hip]
    refine h.owned.congr ?_
    intro b _
    exact bit_write_of_lt (IBLOCK_lt h.geometry (h.inum_lt hip))
  clean i _ := by
    rw [current_store h hip, stored_store (h.inum_lt hip)]
    by_cases hi : i = inum
    · subst hi
      rw [update_self, h.current_eq hip]
    · rw [update_of_ne hi]
      exact h.clean i fun heq => hi (Option.some.inj heq)
  size i _ htype := by
    rw [current_store h hip] at htype ⊢
    by_cases hi : i = inum
    · subst hi
      exact hsize
    · exact h.size i (fun heq => hi (Option.some.inj heq)) htype
  full i bn _ htype hbn := by
    rw [current_store h hip] at htype hbn
    rw [owner_store h hip]
    by_cases hi : i = inum
    · subst hi
      exact hfull bn hbn
    · exact h.full i bn (fun heq => hi (Option.some.inj heq)) htype hbn

end Store

end Update

theorem iupdate_wp (hip : fs.Caches ip inum) (hreturns : returns () (fs.store inum (fs.icache ip).toDinode)) :
    wp (iupdate ip) fs returns fails := by
  obtain ⟨-, -, rfl⟩ := hip
  exact hreturns

-- The inodes are these now, and all of them are on the disk.
structure Becomes (fs fs' : Fs) (node : Nat → Node) : Prop where
  sound : Sound none fs'
  steady : Steady fs fs'
  node : fs'.node = node

-- The cached copy of an inode changes and is written to the disk.
theorem commit_wp {inode : Inode} (h : Sound (some inum) fs) (hip : fs.Caches ip inum)
    (href : inode.ref = (fs.icache ip).ref) (hinum : inode.inum = (fs.icache ip).inum)
    (hvalid : inode.valid = (fs.icache ip).valid) (htype : inode.type = (fs.icache ip).type)
    (haddrs : inode.addrs = (fs.icache ip).addrs) (hsize : inode.size.toNat ≤ MAXFILE * BSIZE)
    (hfull : ∀ bn, bn * BSIZE < inode.size.toNat → fs.owner (inum, bn) ≠ 0)
    (hreturns : ∀ fs', Becomes fs fs' (update fs.node inum
      { fs.node inum with major := inode.major, minor := inode.minor, nlink := inode.nlink, size := inode.size }) →
      fs'.owner = fs.owner → fs'.bit = fs.bit → returns () fs') :
    wp (iupdate ip) (fs.setInode ip inode) returns fails := by
  have hset := grows_setInode h hip href hinum hvalid htype haddrs
  have hnode := node_setInode h hip href hinum hvalid htype haddrs
  have hsame : ((fs.setInode ip inode).node inum).size = inode.size := by
    rw [hnode, update_self]
  have hcaches := hset.caches hip
  have howner := owner_setInode h hip href hinum hvalid htype haddrs
  refine iupdate_wp hcaches
    (hreturns _ ⟨sound_store hset.sound hcaches ?_ ?_, hset.toSteady.trans steady_store, ?_⟩ ?_ ?_)
  · rw [hsame]
    exact hsize
  · intro bn hbn
    rw [hsame] at hbn
    rw [howner]
    exact hfull bn hbn
  · rw [node_store hset.sound hcaches, hnode]
  · rw [owner_store hset.sound hcaches, howner]
  · funext b
    exact bit_write_of_lt (IBLOCK_lt h.geometry (h.inum_lt hip))

-- The checks of readi and writei against wrapping around.
theorem wraps_iff {off : Word} :
    (off > size ∨ off + n < off) ↔ size.toNat < off.toNat ∨ 2 ^ 32 ≤ off.toNat + n.toNat := by
  have hn := n.isLt
  have ho := off.isLt
  rw [gt_iff_lt, BitVec.lt_def, BitVec.lt_def, BitVec.toNat_add]
  omega

theorem no_wrap {off : Word} (h : ¬ (off > size ∨ off + n < off)) :
    off ≤ size ∧ (off + n).toNat = off.toNat + n.toNat := by
  have hfits := mt wraps_iff.mpr h
  simp only [not_or, not_lt, not_le] at hfits
  rw [BitVec.toNat_add]
  exact ⟨hfits.1, Nat.mod_eq_of_lt hfits.2⟩

theorem toNat_clip {off : Word} (h : ¬ (off > size ∨ off + n < off)) :
    (if off + n > size then size - off else n).toNat = min n.toNat (size.toNat - off.toNat) := by
  obtain ⟨hoff, hsum⟩ := no_wrap h
  have hle : off.toNat ≤ size.toNat := hoff
  split_ifs with hmore
  · have hlt : size.toNat < (off + n).toNat := hmore
    rw [BitVec.toNat_sub_of_le hoff]
    omega
  · have hge : (off + n).toNat ≤ size.toNat := BitVec.not_lt.mp hmore
    omega

section Readi

variable (h : Sound none fs) (hip : fs.Caches ip inum)

include h hip

-- Reading changes nothing, because there are no holes.
theorem readi_wp {input : Option (List Byte)} {off : Word} {returns : Option (List Byte) → Fs → Prop}
    (htype : (fs.node inum).type ≠ T_DEV)
    (hnone : (fs.node inum).size.toNat < off.toNat ∨ 2 ^ 32 ≤ off.toNat + n.toNat → returns none fs)
    (hsome : off.toNat ≤ (fs.node inum).size.toNat → off.toNat + n.toNat < 2 ^ 32 →
      returns (some ((fs.node inum).read off.toNat (min n.toNat ((fs.node inum).size.toNat - off.toNat)))) fs) :
    wp (readi input ip off n) fs returns fails := by
  have hcopy := h.node_type hip
  have hsize := h.node_size hip
  simp only [readi, inode, wp_bind, wp_get, wp_pure, wp_ite, ← hcopy, ← hsize]
  rw [if_neg htype]
  by_cases hrange : off > (fs.node inum).size ∨ off + n < off
  · rw [if_pos hrange]
    exact hnone (wraps_iff.mp hrange)
  · rw [if_neg hrange, toNat_clip hrange]
    have hfits := mt wraps_iff.mpr hrange
    simp only [not_or, not_lt, not_le] at hfits
    refine readBlocks_wp h hip (Nat.le_refl _) ?_ (hsome hfits.1 hfits.2)
    intro o _ ho
    exact h.block_of_lt (by simp) (h.type_ne hip) (by omega)

end Readi

section Writei

variable (h : Sound none fs) (hip : fs.Caches ip inum) {src : List Byte} {off : Word}

-- The file has grown over what was written, and it had no holes before.
theorem full_of_grown (h : Sound none fs) (htype : (fs.current inum).type ≠ 0) (hgrows : Grows inum fs fs')
    (hoff : off.toNat ≤ (fs.node inum).size.toNat)
    (howner : ∀ o, off.toNat ≤ o → o < off.toNat + src.length → fs'.owner (inum, o / BSIZE) ≠ 0) {bn : Nat}
    (hbn : bn * BSIZE < max (fs.node inum).size.toNat (off.toNat + src.length)) : fs'.owner (inum, bn) ≠ 0 := by
  by_cases hold : bn * BSIZE < (fs.node inum).size.toNat
  · have hne := h.full inum bn (by simp) htype hold
    rw [hgrows.keeps _ hne]
    exact hne
  · have hdiv : bn * BSIZE / BSIZE = bn := Nat.mul_div_cancel _ (by decide)
    have hlast := howner (bn * BSIZE) (by omega) (by omega)
    rwa [hdiv] at hlast

include h hip

theorem writei_wp {returns : Bool → Fs → Prop} (htype : (fs.node inum).type ≠ T_DEV) (hsrc : src.length < 2 ^ 32)
    (hslots : places inum off.toNat src.length ⊆ slots) (hfails : ¬fs.Room slots → fails .outOfBlocks)
    (hfalse : ¬(off.toNat ≤ (fs.node inum).size.toNat ∧ off.toNat + src.length ≤ MAXFILE * BSIZE) → returns false fs)
    (htrue : off.toNat ≤ (fs.node inum).size.toNat → off.toNat + src.length ≤ MAXFILE * BSIZE → ∀ fs',
      Becomes fs fs' (update fs.node inum ((fs.node inum).write off.toNat src)) →
      (fs'.Room slots ↔ fs.Room slots) → returns true fs') : wp (writei ip src off) fs returns fails := by
  have hcopy := h.node_type hip
  have hsize := h.node_size hip
  have hlen : (BitVec.ofNat 32 src.length).toNat = src.length := by
    rw [BitVec.toNat_ofNat, Nat.mod_eq_of_lt hsrc]
  simp only [writei, inode, modifyInode, wp_bind, wp_get, wp_pure, wp_ite, wp_modify, ← hcopy, ← hsize, hlen,
    List.take_length]
  rw [if_neg htype]
  by_cases hrange : off > (fs.node inum).size ∨ off + BitVec.ofNat 32 src.length < off
  · rw [if_pos hrange]
    rw [wraps_iff, hlen] at hrange
    have hlimit : MAXFILE * BSIZE < 2 ^ 32 := by decide
    exact hfalse (by omega)
  · rw [if_neg hrange]
    by_cases hbig : off + BitVec.ofNat 32 src.length > BitVec.ofNat 32 (MAXFILE * BSIZE)
    · have hlarge : MAXFILE * BSIZE < (off + BitVec.ofNat 32 src.length).toNat := hbig
      rw [if_pos hbig]
      rw [(no_wrap hrange).2, hlen] at hlarge
      exact hfalse (by omega)
    · rw [if_neg hbig]
      obtain ⟨hoff, hsum⟩ := no_wrap hrange
      rw [hlen] at hsum
      have hle : off.toNat ≤ (fs.node inum).size.toNat := hoff
      have hmax : off.toNat + src.length ≤ MAXFILE * BSIZE := by
        rw [← hsum]
        exact BitVec.not_lt.mp hbig
      refine (writeBlocks_spec hfails hslots (fun hlt => absurd hmax (by omega)) (h.weaken _) hip
        (Nat.le_refl _)).imp ?_
      rintro - fs' ⟨hgrows, hnode, howner, hcurrent, hroom⟩
      have hcaches := hgrows.caches hip
      have hsize' : (fs'.icache ip).size = (fs.node inum).size := by
        rw [← hgrows.sound.node_size hcaches, hnode, update_self]
        rfl
      have hbound := Nat.lt_of_le_of_lt hmax (by decide : MAXFILE * BSIZE < 2 ^ 32)
      split_ifs with hmore
      · have hlt : (fs.node inum).size.toNat < off.toNat + src.length := by
          have hgt : (fs'.icache ip).size.toNat < (off + BitVec.ofNat 32 src.length).toNat := hmore.2
          rwa [hsize', hsum] at hgt
        have hnew : off + BitVec.ofNat 32 src.length = BitVec.ofNat 32 (off.toNat + src.length) := by
          refine BitVec.eq_of_toNat_eq ?_
          rw [hsum, BitVec.toNat_ofNat, Nat.mod_eq_of_lt hbound]
        have hfull : ∀ bn, bn * BSIZE < (off + BitVec.ofNat 32 src.length).toNat → fs'.owner (inum, bn) ≠ 0 := by
          intro bn hbn
          rw [hsum] at hbn
          exact full_of_grown h (h.type_ne hip) hgrows hle howner (by omega)
        refine commit_wp hgrows.sound hcaches rfl rfl rfl rfl rfl (by rw [hsum]; exact hmax) hfull ?_
        intro last hlast howner' hbit
        have hroom' : last.Room slots ↔ fs'.Room slots := by
          unfold Room
          rw [howner', hbit, hlast.steady.sb]
        refine htrue hle hmax last ⟨hlast.sound, hgrows.toSteady.trans hlast.steady, ?_⟩ (hroom'.trans hroom)
        have hcopy := hgrows.sound.node_eq hcaches
        rw [hnode, update_self] at hcopy
        have hmajor : (fs.node inum).major = (fs'.icache ip).major := congrArg Node.major hcopy
        have hminor : (fs.node inum).minor = (fs'.icache ip).minor := congrArg Node.minor hcopy
        have hnlink : (fs.node inum).nlink = (fs'.icache ip).nlink := congrArg Node.nlink hcopy
        rw [hlast.node, hnode, update_idem, update_self, Node.write, if_pos hlt, ← hnew]
        simp only [Node.overwrite, hmajor, hminor, hnlink]
      · -- Nothing is written, or it is written where the file has been.
        have hshort : ¬ off.toNat + src.length > (fs.node inum).size.toNat := by
          intro hgt
          refine hmore ⟨?_, ?_⟩
          · change 0 < (BitVec.ofNat 32 src.length).toNat
            omega
          · change (fs'.icache ip).size.toNat < _
            rw [hsize', hsum]
            exact hgt
        have hsame := hcurrent fun o _ ho => (h.block_of_lt (by simp) (h.type_ne hip) (by omega)).2
        refine htrue hle hmax fs' ⟨hgrows.sound.settle ?_ ?_ ?_, hgrows.toSteady, ?_⟩ hroom
        · rw [hsame, hgrows.stored]
          exact h.clean inum (by simp)
        · intro htype'
          rw [hsame] at htype' ⊢
          exact h.size inum (by simp) htype'
        · intro bn htype' hbn
          rw [hsame] at htype' hbn
          have hne := h.full inum bn (by simp) htype' hbn
          rw [hgrows.keeps _ hne]
          exact hne
        · rw [hnode, Node.write, if_neg hshort]
          rfl

end Writei

end Fs

end Xv6
