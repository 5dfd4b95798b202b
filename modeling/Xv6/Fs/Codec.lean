import Xv6.Fs

namespace Xv6

open BitVec

theorem half_byteOf (value : BitVec 16) : byteOf value 1 ++ byteOf value 0 = value := by
  ext i hi
  simp only [byteOf, getElem_append, getElem_extractLsb']
  split
  · rw [Nat.zero_add]
    exact getLsbD_eq_getElem hi
  · rw [show 8 * 1 + (i - 8) = i by omega]
    exact getLsbD_eq_getElem hi

theorem word_byteOf (value : Word) : byteOf value 3 ++ byteOf value 2 ++ byteOf value 1 ++ byteOf value 0 = value := by
  ext i hi
  simp only [byteOf, getElem_append, getElem_extractLsb']
  split
  · rw [Nat.zero_add]
    exact getLsbD_eq_getElem hi
  · split
    · rw [show 8 * 1 + (i - 8) = i by omega]
      exact getLsbD_eq_getElem hi
    · split
      · rw [show 8 * 2 + (i - 8 - 8) = i by omega]
        exact getLsbD_eq_getElem hi
      · rw [show 8 * 3 + (i - 8 - 8 - 8) = i by omega]
        exact getLsbD_eq_getElem hi

namespace Dinode

variable (dinode : Dinode)

theorem word_byte (i : Fin (NDIRECT + 1)) :
    dinode.byte (12 + 4 * i + 3) ++ dinode.byte (12 + 4 * i + 2) ++ dinode.byte (12 + 4 * i + 1) ++
      dinode.byte (12 + 4 * i) = dinode.addrs i := by
  have hbyte : ∀ t < 4, dinode.byte (12 + 4 * i + t) = byteOf (dinode.addrs i) t := by
    intro t ht
    have hplace : Fin.ofNat (NDIRECT + 1) ((12 + 4 * i.val + t - 12) / 4) = i := by
      have hi : i.val < 13 := i.isLt
      refine Fin.ext ?_
      change (12 + 4 * i.val + t - 12) / 4 % 13 = i.val
      omega
    have hrest : (12 + 4 * i.val + t - 12) % 4 = t := by omega
    have hlow : ∀ bound ≤ 12, ¬ 12 + 4 * i.val + t < bound := by omega
    unfold byte
    rw [if_neg (hlow 2 (by omega)), if_neg (hlow 4 (by omega)), if_neg (hlow 6 (by omega)), if_neg (hlow 8 (by omega)),
      if_neg (hlow 12 (by omega)), hplace, hrest]
  rw [hbyte 3 (by omega), hbyte 2 (by omega), hbyte 1 (by omega), ← Nat.add_zero (12 + 4 * i.val), hbyte 0 (by omega)]
  exact word_byteOf _

end Dinode

namespace Bytes

variable (block : Bytes)

-- A shifted one has a single bit.
theorem getLsbD_mask (n m : Nat) : (1#8 <<< (n % 8)).getLsbD (m % 8) = decide (m % 8 = n % 8) := by
  rw [getLsbD_shiftLeft, getLsbD_one, Bool.eq_iff_iff]
  simp only [Bool.and_eq_true, decide_eq_true_eq, Bool.not_eq_true', decide_eq_false_iff_not]
  omega

theorem bit_setBit (n m : Nat) : (block.setBit n).bit m = (block.bit m || m == n) := by
  unfold bit setBit
  by_cases hbyte : m / 8 = n / 8
  · have hbit : (m == n) = decide (m % 8 = n % 8) := by
      rw [Bool.eq_iff_iff, beq_iff_eq, decide_eq_true_eq]
      omega
    rw [if_pos hbyte, getLsbD_or, getLsbD_mask, hbit]
  · have hne : m ≠ n := by
      rintro rfl
      exact hbyte rfl
    simp [hbyte, hne]

theorem entry_zero (n : Nat) : entry (fun _ => 0) n = 0 := by
  simp [entry, word]

theorem entry_setEntry (n m : Nat) (value : Word) :
    (block.setEntry n value).entry m = if m = n then value else block.entry m := by
  have hbyte : ∀ t < 4, block.setEntry n value (4 * m + t) = if m = n then byteOf value t else block (4 * m + t) := by
    intro t ht
    have hdiv : (4 * m + t) / 4 = m := by omega
    have hmod : (4 * m + t) % 4 = t := by omega
    simp [setEntry, hdiv, hmod]
  have hfirst := hbyte 0 (by omega)
  rw [Nat.add_zero] at hfirst
  unfold entry word
  rw [hbyte 3 (by omega), hbyte 2 (by omega), hbyte 1 (by omega), hfirst]
  split_ifs
  · exact word_byteOf value
  · rfl

section Dinode

variable (n m : Nat) (dinode : Dinode)

variable {j : Nat}

theorem setDinode_apply (hj : j < 64) :
    block.setDinode n dinode (64 * m + j) = if m = n then dinode.byte j else block (64 * m + j) := by
  have hdiv : (64 * m + j) / 64 = m := by omega
  have hmod : (64 * m + j) % 64 = j := by omega
  simp [setDinode, hdiv, hmod]

theorem half_setDinode (hj : j + 1 < 64) :
    (block.setDinode n dinode).half (64 * m + j) =
      if m = n then dinode.byte (j + 1) ++ dinode.byte j else block.half (64 * m + j) := by
  have hsecond := setDinode_apply block n m dinode hj
  have hfirst := setDinode_apply block n m dinode (j := j) (by omega)
  rw [← Nat.add_assoc] at hsecond
  unfold half
  rw [hsecond, hfirst]
  split_ifs <;> rfl

theorem word_setDinode (hj : j + 3 < 64) :
    (block.setDinode n dinode).word (64 * m + j) =
      if m = n then dinode.byte (j + 3) ++ dinode.byte (j + 2) ++ dinode.byte (j + 1) ++ dinode.byte j
      else block.word (64 * m + j) := by
  have hbyte : ∀ t ≤ 3, block.setDinode n dinode (64 * m + j + t) =
      if m = n then dinode.byte (j + t) else block (64 * m + j + t) := by
    intro t ht
    rw [Nat.add_assoc]
    exact setDinode_apply block n m dinode (by omega)
  have hfirst := setDinode_apply block n m dinode (j := j) (by omega)
  unfold word
  rw [hbyte 3 (by omega), hbyte 2 (by omega), hbyte 1 (by omega), hfirst]
  split_ifs <;> rfl

theorem dinode_setDinode : (block.setDinode n dinode).dinode m = if m = n then dinode else block.dinode m := by
  have htype := half_setDinode block n m dinode (j := 0) (by omega)
  have hmajor := half_setDinode block n m dinode (j := 2) (by omega)
  have hminor := half_setDinode block n m dinode (j := 4) (by omega)
  have hnlink := half_setDinode block n m dinode (j := 6) (by omega)
  have hsize := word_setDinode block n m dinode (j := 8) (by omega)
  have haddrs : ∀ i : Fin (NDIRECT + 1), (block.setDinode n dinode).word (64 * m + 12 + 4 * i) =
      if m = n then dinode.addrs i else block.word (64 * m + 12 + 4 * i) := by
    intro i
    have hi : i.val < 13 := i.isLt
    rw [Nat.add_assoc, word_setDinode block n m dinode (by omega), dinode.word_byte]
  unfold Bytes.dinode
  by_cases hm : m = n
  · simp only [hm, if_true, Nat.add_zero] at htype hmajor hminor hnlink hsize haddrs ⊢
    simp only [htype, hmajor, hminor, hnlink, hsize, haddrs]
    have htype' : dinode.byte (0 + 1) ++ dinode.byte 0 = dinode.type := half_byteOf _
    have hmajor' : dinode.byte (2 + 1) ++ dinode.byte 2 = dinode.major := half_byteOf _
    have hminor' : dinode.byte (4 + 1) ++ dinode.byte 4 = dinode.minor := half_byteOf _
    have hnlink' : dinode.byte (6 + 1) ++ dinode.byte 6 = dinode.nlink := half_byteOf _
    have hsize' : dinode.byte (8 + 3) ++ dinode.byte (8 + 2) ++ dinode.byte (8 + 1) ++ dinode.byte 8 = dinode.size :=
      word_byteOf _
    rw [htype', hmajor', hminor', hnlink', hsize']
  · simp only [hm, if_false, Nat.add_zero] at htype hmajor hminor hnlink hsize haddrs ⊢
    simp only [htype, hmajor, hminor, hnlink, hsize, haddrs]

end Dinode

end Bytes

end Xv6
