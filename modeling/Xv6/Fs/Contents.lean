import Xv6.Fs.Files
import Xv6.Fs.Image

namespace Xv6.Fs

open Xv6.Action

variable {fs : Fs} {ip : Fin NINODE} {inum : Nat}

-- A write fails without effect, or the bytes are in the file; it stops only if there are not enough blocks.
-- A read returns the bytes that are there.
theorem writei_readi_file (h : Sound none fs) (hip : fs.Caches ip inum) (htype : (fs.node inum).type = T_FILE)
    (src : List Byte) (hsrc : src.length < 2 ^ 32) (input : Option (List Byte)) (off n : Word) :
    wp (writei ip src off) fs
        (fun ok fs' =>
          if off.toNat ≤ (fs.node inum).size.toNat ∧ off.toNat + src.length ≤ MAXFILE * BSIZE then
            ok = true ∧ Becomes fs fs' (Function.update fs.node inum ((fs.node inum).write off.toNat src))
          else ok = false ∧ fs' = fs)
        (fun _ => ¬fs.Room (places inum off.toNat src.length)) ∧
      wp (readi input ip off n) fs
        (fun bytes fs' => fs' = fs ∧ bytes =
          if (fs.node inum).size.toNat < off.toNat ∨ 2 ^ 32 ≤ off.toNat + n.toNat then none
          else some ((fs.node inum).read off.toNat (min (off.toNat + n.toNat) (fs.node inum).size.toNat - off.toNat)))
        fun _ => False := by
  have hfile : (fs.node inum).type ≠ T_DEV := by
    rw [htype]
    decide
  constructor
  · refine writei_wp h hip hfile hsrc (Finset.Subset.refl _) (fun hroom => hroom) ?_ ?_
    · intro hbad
      rw [if_neg hbad]
      exact ⟨rfl, rfl⟩
    · intro hoff hmax fs' hbecomes _
      rw [if_pos ⟨hoff, hmax⟩]
      exact ⟨rfl, hbecomes⟩
  · refine readi_wp h hip hfile ?_ ?_
    · intro hbad
      rw [if_pos hbad]
      exact ⟨rfl, rfl⟩
    · intro hoff hsum
      have hclip : min (off.toNat + n.toNat) (fs.node inum).size.toNat - off.toNat =
          min n.toNat ((fs.node inum).size.toNat - off.toNat) := by omega
      rw [if_neg (by omega), hclip]
      exact ⟨rfl, rfl⟩

theorem writei_readi_small : small.Room (places 2 2 2) ∧
    (∃ fs', (writei 1 [1, 2] 2).run small = .ok (true, fs') ∧
      Becomes small fs' (Function.update small.node 2 ((small.node 2).write 2 [1, 2]))) ∧
    (readi none 1 2 10).run small = .ok (some [122], small) := by
  have hroom : small.Room (places 2 2 2) := by
    unfold Room Enough
    decide +kernel
  have hfits : (2 : Word).toNat ≤ (small.node 2).size.toNat ∧
      (2 : Word).toNat + ([1, 2] : List Byte).length ≤ MAXFILE * BSIZE := by decide +kernel
  obtain ⟨hwrite, hread⟩ := writei_readi_file small_sound (small_caches.mpr ⟨rfl, rfl⟩) (by decide +kernel) [1, 2]
    (by decide) none 2 10
  refine ⟨hroom, ?_, ?_⟩
  · rcases hwrite.run with ⟨ok, fs', hrun, hwritten⟩ | ⟨halt, -, hnone⟩
    · rw [if_pos hfits] at hwritten
      rw [hwritten.1] at hrun
      exact ⟨fs', hrun, hwritten.2⟩
    · exact absurd hroom hnone
  · rcases hread.run with ⟨bytes, fs', hrun, rfl, hbytes⟩ | ⟨halt, -, hfalse⟩
    · have hvalue : bytes = some [122] := hbytes.trans (by decide +kernel)
      rw [← hvalue]
      exact hrun
    · exact hfalse.elim

end Xv6.Fs
