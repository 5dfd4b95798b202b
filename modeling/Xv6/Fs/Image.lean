import Xv6.Fs.Layout

namespace Xv6.Fs

-- A disk of 40 blocks. The root directory has an entry for one file, with the name "a". There is another directory, in
-- which there is nothing at all.
def smallRoot : Dinode := ⟨T_DIR, 0, 0, 1, 48, Function.update (fun _ => 0) 0 5⟩

def smallFile : Dinode := ⟨T_FILE, 0, 0, 1, 3, Function.update (fun _ => 0) 0 6⟩

def smallEmpty : Dinode := ⟨T_DIR, 0, 0, 1, 0, fun _ => 0⟩

def smallDisk (bno : Nat) : Bytes :=
  if bno = 2 then Bytes.setDinode (Bytes.setDinode (Bytes.setDinode (fun _ => 0) 1 smallRoot) 2 smallFile) 3 smallEmpty
  else if bno = 4 then (List.range 7).foldl Bytes.setBit fun _ => 0
  else if bno = 5 then
    Bytes.setBytes (fun _ => 0) 0 (Dirent.encode 1 dot ++ Dirent.encode 1 dotdot ++ Dirent.encode 2 [97])
  else if bno = 6 then Bytes.setBytes (fun _ => 0) 0 [120, 121, 122]
  else fun _ => 0

-- The directories are current directories of processes, and the file is open.
def small : Fs where
  sb := ⟨40, 35, 8, 0, 2, 2, 4⟩
  disk := smallDisk
  icache ip :=
    if ip = 0 then ⟨.fresh 0, 1, 1, false⟩
    else if ip = 1 then ⟨smallFile, 2, 1, true⟩
    else if ip = 2 then ⟨.fresh 0, 3, 1, false⟩
    else ⟨.fresh 0, 0, 0, false⟩
  locked _ := false

theorem small_caches {ip : Fin NINODE} {inum : Nat} : small.Caches ip inum ↔ ip = 1 ∧ inum = 2 := by
  unfold Caches small
  by_cases hzero : ip = 0
  · simp [hzero]
  · by_cases hone : ip = 1
    · simp [hone, eq_comm]
    · by_cases htwo : ip = 2
      · simp [htwo]
      · simp [hzero, hone, htwo]

theorem small_clean (inum : Nat) : small.current inum = small.stored inum := by
  by_cases hinum : inum = 2
  · subst hinum
    rw [current_of_caches (fun jp hjp => (small_caches.mp hjp).1) (small_caches.mpr ⟨rfl, rfl⟩)]
    have hstored : small.stored 2 = Bytes.dinode
        (Bytes.setDinode (Bytes.setDinode (Bytes.setDinode (fun _ => 0) 1 smallRoot) 2 smallFile) 3 smallEmpty) 2 := rfl
    rw [hstored, Bytes.dinode_setDinode, if_neg (by decide), Bytes.dinode_setDinode, if_pos rfl]
    rfl
  · exact current_of_uncached fun ip hip => hinum (small_caches.mp hip).2

theorem small_free {inum : Nat} (h : 8 ≤ inum) : (small.current inum).type = 0 := by
  rw [small_clean]
  exact congrArg Dinode.type (if_neg (Nat.not_lt.mpr h))

theorem small_owner (i k : Nat) : small.owner (i, k) = if k = 0 ∧ (i = 1 ∨ i = 2) then i + 4 else 0 := by
  by_cases hi : i < 8
  · by_cases hk : k < 142
    · have hall : ∀ i < 8, ∀ k < 142, small.owner (i, k) = if k = 0 ∧ (i = 1 ∨ i = 2) then i + 4 else 0 := by
        decide +kernel
      exact hall i hi k hk
    · rw [if_neg (by omega)]
      exact Dinode.blockAt_beyond (Nat.lt_of_lt_of_le (by decide) (Nat.not_lt.mp hk))
  · rw [if_neg (by omega)]
    exact Dinode.blockAt_free (small_free (Nat.not_lt.mp hi))

theorem small_owned : Owned small.owner small.bit 5 40 where
  low_pos := by decide
  range slot hslot := by
    obtain ⟨i, k⟩ := slot
    rw [small_owner] at hslot ⊢
    split_ifs at hslot ⊢ with hroot
    · omega
    · exact absurd rfl hslot
  injective slot other hslot heq := by
    obtain ⟨i, k⟩ := slot
    obtain ⟨j, l⟩ := other
    rw [small_owner] at hslot heq
    rw [small_owner] at heq
    split_ifs at hslot heq with hhere hthere
    · rw [Prod.mk.injEq]
      omega
    · omega
  exact b hb := by
    have hall : ∀ b < 40, small.bit b = decide (b < 7) := by decide +kernel
    rw [hall b hb, decide_eq_true_iff]
    constructor
    · intro hlt
      by_cases hlow : b < 5
      · exact .inl hlow
      · refine .inr ⟨(b - 4, 0), ?_⟩
        rw [small_owner, if_pos (by omega)]
        omega
    · rintro (hlow | ⟨slot, rfl⟩)
      · omega
      · obtain ⟨i, k⟩ := slot
        rw [small_owner]
        split_ifs
        · omega
        · decide

theorem small_sound : Sound none small where
  geometry := ⟨by decide, by decide, by decide, by decide⟩
  unique := by decide +kernel
  inum := by decide +kernel
  type := by decide +kernel
  owned := small_owned
  clean inum _ := small_clean inum
  size inum _ htype := by
    by_cases hinum : inum < 8
    · have hall : ∀ inum < 8, (small.current inum).size.toNat ≤ MAXFILE * BSIZE := by decide +kernel
      exact hall inum hinum
    · exact absurd (small_free (Nat.not_lt.mp hinum)) htype
  full inum bn _ htype hbn := by
    by_cases hinum : inum < 8
    · have hall : ∀ inum < 8, (small.current inum).size.toNat < BSIZE ∧
          (0 < (small.current inum).size.toNat → inum = 1 ∨ inum = 2) := by decide +kernel
      obtain ⟨hsmall, hsome⟩ := hall inum hinum
      have hzero : bn = 0 := by
        unfold BSIZE at hsmall hbn
        omega
      rw [small_owner, if_pos ⟨hzero, hsome (by omega)⟩]
      omega
    · exact absurd (small_free (Nat.not_lt.mp hinum)) htype

end Xv6.Fs
