import Xv6.Memory.Theorems
import Mathlib.Logic.Function.Basic

namespace Xv6.Memory

open Function

variable {memory : Memory} {dst src n c address : Word}

-- The instructions `rep stosb` and `rep stosl`, with the direction flag cleared.
def stosb (memory : Memory) (edi eax : Word) : Nat → Memory
  | 0 => memory
  | ecx + 1 => stosb (update memory edi (eax.setWidth 8)) (edi + 1) eax ecx

def stosl (memory : Memory) (edi eax : Word) : Nat → Memory
  | 0 => memory
  | ecx + 1 => stosl (memory.writeWord edi eax) (edi + 4) eax ecx

-- The remainder of an int has the sign of the int.
def memset (memory : Memory) (dst c n : Word) : Memory :=
  if dst.srem 4 = 0 ∧ n % 4 = 0 then
    let c := c &&& 0xFF
    stosl memory dst (c <<< 24 ||| c <<< 16 ||| c <<< 8 ||| c) (n / 4).toNat
  else stosb memory dst c n.toNat

section Memset

theorem stosb_apply (memory : Memory) (edi eax address : Word) {ecx : Nat} (hecx : ecx ≤ 2 ^ 32) :
    stosb memory edi eax ecx address = if (address - edi).toNat < ecx then eax.setWidth 8 else memory address := by
  induction ecx generalizing memory edi with
  | zero => rfl
  | succ ecx ih =>
    rw [stosb, ih _ _ (by omega)]
    by_cases hhere : address = edi
    · subst hhere
      have hlast : ¬(address - (address + 1)).toNat < ecx := by bv_omega
      have hfirst : (address - address).toNat < ecx + 1 := by bv_omega
      rw [if_neg hlast, if_pos hfirst, update_self]
    · have hnext : (address - (edi + 1)).toNat < ecx ↔ (address - edi).toNat < ecx + 1 := by bv_omega
      simp only [hnext, update_of_ne hhere]

theorem stosl_apply (memory : Memory) (edi eax address : Word) {ecx : Nat} (hecx : 4 * ecx ≤ 2 ^ 32) :
    stosl memory edi eax ecx address =
      if (address - edi).toNat < 4 * ecx then eax.extractLsb' (8 * ((address - edi).toNat % 4)) 8
      else memory address := by
  induction ecx generalizing memory edi with
  | zero => rfl
  | succ ecx ih =>
    rw [stosl, ih _ _ (by omega)]
    by_cases hhere : (address - edi).toNat < 4
    · have hlast : ¬(address - (edi + 4)).toNat < 4 * ecx := by bv_omega
      have hmod : (address - edi).toNat % 4 = (address - edi).toNat := Nat.mod_eq_of_lt hhere
      rw [if_neg hlast, if_pos (by omega), hmod, writeWord, if_pos hhere]
    · have hback : (address - (edi + 4)).toNat = (address - edi).toNat - 4 := by bv_omega
      have hmod : ((address - edi).toNat - 4) % 4 = (address - edi).toNat % 4 := by omega
      have hnext : (address - edi).toNat - 4 < 4 * ecx ↔ (address - edi).toNat < 4 * (ecx + 1) := by omega
      simp only [hback, hmod, hnext, writeWord_apply_of_far _ _ _ _ (Nat.not_lt.mp hhere)]

-- All four bytes of the word are the lowest byte of c.
theorem extract_repeated (c : Word) {k : Nat} (hk : k < 4) :
    ((c &&& 0xFF) <<< 24 ||| (c &&& 0xFF) <<< 16 ||| (c &&& 0xFF) <<< 8 ||| (c &&& 0xFF)).extractLsb' (8 * k) 8 =
      c.setWidth 8 := by
  have hlow : c &&& 0xFF = (c.setWidth 8).setWidth 32 := by
    apply BitVec.eq_of_toNat_eq
    rw [BitVec.toNat_and, BitVec.toNat_setWidth, BitVec.toNat_setWidth]
    have hbound : c.toNat % 2 ^ 8 < 2 ^ 32 := by omega
    rw [Nat.mod_eq_of_lt hbound]
    exact Nat.and_two_pow_sub_one_eq_mod c.toNat 8
  have hall : ∀ b : BitVec 8, ∀ k < 4, (b.setWidth 32 <<< 24 ||| b.setWidth 32 <<< 16 ||| b.setWidth 32 <<< 8 |||
      b.setWidth 32 : Word).extractLsb' (8 * k) 8 = b := by decide +kernel
  rw [hlow]
  exact hall (c.setWidth 8) k hk

-- The remainder is zero for addresses above 2^31 as well, which are negative.
theorem srem_four_eq_zero : dst.srem 4 = 0 ↔ dst.toNat % 4 = 0 := by
  have hfour : (4 : Word).toInt = 4 := rfl
  have hzero : (0 : Word).toInt = 0 := rfl
  rw [← BitVec.toInt_inj, BitVec.toInt_srem, hfour, hzero, ← Int.dvd_iff_tmod_eq_zero, BitVec.toInt_eq_toNat_cond]
  split_ifs <;> omega

theorem umod_four_eq_zero : n % 4 = 0 ↔ n.toNat % 4 = 0 := by
  have hfour : (4 : Word).toNat = 4 := rfl
  have hzero : (0 : Word).toNat = 0 := rfl
  rw [← BitVec.toNat_inj, BitVec.toNat_umod, hfour, hzero]

theorem memset_apply (memory : Memory) (dst c n address : Word) :
    memset memory dst c n address = if (address - dst).toNat < n.toNat then c.setWidth 8 else memory address := by
  have hn := n.isLt
  unfold memset
  by_cases hpath : dst.srem 4 = 0 ∧ n % 4 = 0
  · have hcount : 4 * (n / 4).toNat = n.toNat := by
      have hmod := umod_four_eq_zero.mp hpath.2
      have hfour : (4 : Word).toNat = 4 := rfl
      rw [BitVec.toNat_udiv, hfour]
      omega
    rw [if_pos hpath, stosl_apply _ _ _ _ (by omega), hcount, extract_repeated c (Nat.mod_lt _ (by decide))]
  · rw [if_neg hpath, stosb_apply _ _ _ _ (by omega)]

theorem sub_lt_iff (h : dst.toNat + n.toNat ≤ 2 ^ 32) :
    (address - dst).toNat < n.toNat ↔ dst.toNat ≤ address.toNat ∧ address.toNat < dst.toNat + n.toNat := by
  bv_omega

-- Words are written if the address and the length are multiples of four, and it makes no difference.
theorem memset_fills (memory : Memory) (dst c n : Word) (h : dst.toNat + n.toNat ≤ 2 ^ 32) :
    (dst.srem 4 = 0 ∧ n % 4 = 0 ↔ dst.toNat % 4 = 0 ∧ n.toNat % 4 = 0) ∧
      memset memory dst c n = stosb memory dst c n.toNat ∧
      ∀ address : Word, memset memory dst c n address =
        if dst.toNat ≤ address.toNat ∧ address.toNat < dst.toNat + n.toNat then c.setWidth 8 else memory address := by
  refine ⟨and_congr srem_four_eq_zero umod_four_eq_zero, ?_, fun address => ?_⟩
  · funext address
    have hn := n.isLt
    rw [memset_apply, stosb_apply _ _ _ _ (by omega)]
  · rw [memset_apply]
    simp only [sub_lt_iff h]

-- A page of the kernel, and two bytes that are not aligned.
theorem memset_fills_page : memset (fun _ => 7) 0x80001000 0x101 4096 0x80001fff = 1 ∧
    memset (fun _ => 7) 0x80001001 0x101 2 0x80001003 = 7 := by
  constructor
  · rw [(memset_fills (fun _ => 7) 0x80001000 0x101 4096 (by decide)).2.2]
    decide
  · rw [(memset_fills (fun _ => 7) 0x80001001 0x101 2 (by decide)).2.2]
    decide

end Memset

-- The loops of memmove, from the first byte on and from the last byte back.
def copyUp (memory : Memory) (d s : Word) : Nat → Memory
  | 0 => memory
  | n + 1 => copyUp (update memory d (memory s)) (d + 1) (s + 1) n

def copyDown (memory : Memory) (d s : Word) : Nat → Memory
  | 0 => memory
  | n + 1 => copyDown (update memory (d - 1) (memory (s - 1))) (d - 1) (s - 1) n

section

variable (memory : Memory) (dst src n : Word)

-- The one of the kernel, where n is a uint.
def memmove : Memory :=
  if src < dst ∧ src + n > dst then copyDown memory (dst + n) (src + n) n.toNat
  else copyUp memory dst src n.toNat

-- The one of the user library, where n is an int.
def ulibMemmove : Memory := copyUp memory dst src n.toInt.toNat

-- What both are for.
def moved : Memory := fun address =>
  if (address - dst).toNat < n.toNat then memory (src + (address - dst)) else memory address

end

section Memmove

-- No byte is read after it has been written, because the target does not begin inside of the source.
theorem copyUp_apply (memory : Memory) (d s address : Word) {n : Nat} (hn : n ≤ 2 ^ 32)
    (hapart : d = s ∨ n ≤ (d - s).toNat) :
    copyUp memory d s n address = if (address - d).toNat < n then memory (s + (address - d)) else memory address := by
  induction n generalizing memory d s with
  | zero => rfl
  | succ n ih =>
    have hrest : d + 1 = s + 1 ∨ n ≤ (d + 1 - (s + 1)).toNat := by
      rcases hapart with rfl | hapart
      · exact .inl rfl
      · right
        bv_omega
    rw [copyUp, ih _ _ _ (by omega) hrest]
    by_cases hhere : address = d
    · subst hhere
      have hlast : ¬(address - (address + 1)).toNat < n := by bv_omega
      have hfirst : (address - address).toNat < n + 1 := by bv_omega
      have hsource : s + (address - address) = s := by bv_omega
      rw [if_neg hlast, if_pos hfirst, hsource, update_self]
    · have hnext : (address - (d + 1)).toNat < n ↔ (address - d).toNat < n + 1 := by bv_omega
      have hsource : s + 1 + (address - (d + 1)) = s + (address - d) := by bv_omega
      simp only [hnext, hsource, update_of_ne hhere]
      split_ifs with hin
      · apply update_of_ne
        rcases hapart with rfl | hapart
        · bv_omega
        · bv_omega
      · rfl

-- Here the source does not begin inside of the target.
theorem copyDown_apply (memory : Memory) (d s address : Word) {n : Nat} (hn : n ≤ 2 ^ 32)
    (hapart : s = d ∨ n ≤ (s - d).toNat) :
    copyDown memory (d + BitVec.ofNat 32 n) (s + BitVec.ofNat 32 n) n address =
      if (address - d).toNat < n then memory (s + (address - d)) else memory address := by
  induction n generalizing memory with
  | zero => rfl
  | succ n ih =>
    have hrest : s = d ∨ n ≤ (s - d).toNat := by
      rcases hapart with rfl | hapart
      · exact .inl rfl
      · right
        omega
    have hback : ∀ base : Word, base + BitVec.ofNat 32 (n + 1) - 1 = base + BitVec.ofNat 32 n := by
      intro base
      bv_omega
    rw [copyDown, hback, hback, ih _ (by omega) hrest]
    by_cases hhere : address = d + BitVec.ofNat 32 n
    · have hdist : (address - d).toNat = n := by bv_omega
      have hsource : s + (address - d) = s + BitVec.ofNat 32 n := by bv_omega
      rw [if_neg (by omega), if_pos (by omega), hsource, hhere, update_self]
    · have hnext : (address - d).toNat < n ↔ (address - d).toNat < n + 1 := by bv_omega
      simp only [← hnext, update_of_ne hhere]
      split_ifs with hin
      · apply update_of_ne
        rcases hapart with rfl | hapart
        · bv_omega
        · bv_omega
      · rfl

theorem copyUp_add (memory : Memory) (d s : Word) (k n : Nat) :
    copyUp memory d s (k + n) = copyUp (copyUp memory d s k) (d + BitVec.ofNat 32 k) (s + BitVec.ofNat 32 k) n := by
  induction k generalizing memory d s with
  | zero => simp [copyUp]
  | succ k ih =>
    have hnext : ∀ base : Word, base + 1 + BitVec.ofNat 32 k = base + BitVec.ofNat 32 (k + 1) := by
      intro base
      bv_omega
    rw [Nat.add_right_comm, copyUp, copyUp, ih, hnext, hnext]

theorem copyUp_of_far (memory : Memory) (d s address : Word) {n : Nat} (hfar : n ≤ (address - d).toNat) :
    copyUp memory d s n address = memory address := by
  induction n generalizing memory d s with
  | zero => rfl
  | succ n ih =>
    rw [copyUp, ih _ _ _ (by bv_omega), update_of_ne (by rintro rfl; bv_omega)]

-- The first byte of the source comes out twice.
theorem copyUp_overlap (d s : Word) {n : Nat} (hne : d ≠ s) (hoverlap : (d - s).toNat < n) (hn : n ≤ 2 ^ 31) :
    copyUp (fun address => if address = s then 1 else 0) d s n (d + (d - s)) = 1 := by
  have hsplit : n = (d - s).toNat + (n - (d - s).toNat - 1 + 1) := by omega
  have hcount : BitVec.ofNat 32 (d - s).toNat = d - s := by
    rw [BitVec.ofNat_toNat, BitVec.setWidth_eq]
  have hback : s + (d - s) = d := by bv_omega
  have hfirst : (d - d).toNat < (d - s).toNat := by bv_omega
  rw [hsplit, copyUp_add, hcount, hback, copyUp, copyUp_of_far, update_self,
    copyUp_apply _ _ _ _ (by omega) (.inr (Nat.le_refl _)), if_pos hfirst]
  · have hsource : s + (d - d) = s := by bv_omega
    rw [hsource, if_pos rfl]
  · bv_omega

variable (hsrc : src.toNat + n.toNat ≤ 2 ^ 32) (hdst : dst.toNat + n.toNat ≤ 2 ^ 32)

include hsrc hdst

theorem memmove_moves (memory : Memory) : memmove memory dst src n = moved memory dst src n := by
  have hn := n.isLt
  have hself : ∀ base : Word, base + n = base + BitVec.ofNat 32 n.toNat := by
    intro base
    rw [BitVec.ofNat_toNat, BitVec.setWidth_eq]
  funext address
  unfold memmove moved
  by_cases hoverlap : src < dst ∧ src + n > dst
  · rw [if_pos hoverlap, hself, hself src]
    apply copyDown_apply _ _ _ _ (by omega)
    right
    obtain ⟨hlt, hgt⟩ := hoverlap
    bv_omega
  · rw [if_neg hoverlap]
    apply copyUp_apply _ _ _ _ (by omega)
    by_cases hsame : dst = src
    · exact .inl hsame
    · right
      rw [not_and_or] at hoverlap
      rcases hoverlap with hlow | hhigh
      · bv_omega
      · bv_omega

-- A negative length, or a target that begins inside of the source: there is a memory for which it shows.
theorem ulibMemmove_differs (hne : src ≠ dst)
    (hbad : 2 ^ 31 ≤ n.toNat ∨ src.toNat < dst.toNat ∧ dst.toNat < src.toNat + n.toNat) :
    ∃ memory, ulibMemmove memory dst src n ≠ moved memory dst src n := by
  refine ⟨fun address => if address = src then 1 else 0, fun hsame => ?_⟩
  by_cases hlarge : 2 ^ 31 ≤ n.toNat
  · have hnone : n.toInt.toNat = 0 := by
      rw [BitVec.toInt_eq_toNat_cond]
      split_ifs <;> omega
    have hvalue := congrFun hsame dst
    have hfirst : (dst - dst).toNat < n.toNat := by bv_omega
    have hsource : src + (dst - dst) = src := by bv_omega
    rw [ulibMemmove, hnone, copyUp, moved, if_pos hfirst, hsource, if_pos rfl, if_neg hne.symm] at hvalue
    exact absurd hvalue (by decide)
  · obtain ⟨hlow, hhigh⟩ := hbad.resolve_left hlarge
    have hlength : n.toInt.toNat = n.toNat := by
      rw [BitVec.toInt_eq_toNat_cond]
      split_ifs <;> omega
    have hinside : (dst - src).toNat < n.toNat := by bv_omega
    have hvalue := congrFun hsame (dst + (dst - src))
    have hdist : dst + (dst - src) - dst = dst - src := by bv_omega
    have hsource : src + (dst - src) = dst := by bv_omega
    rw [ulibMemmove, hlength, copyUp_overlap dst src hne.symm hinside (by omega), moved, hdist, if_pos hinside, hsource,
      if_neg hne.symm] at hvalue
    exact absurd hvalue (by decide)

end Memmove

-- The kernel moves what it is asked to. The user library does the same if and only if the length is not negative
-- and the target does not begin inside of the source.
theorem memmove_iff (dst src n : Word) (hsrc : src.toNat + n.toNat ≤ 2 ^ 32) (hdst : dst.toNat + n.toNat ≤ 2 ^ 32) :
    (∀ memory, memmove memory dst src n = moved memory dst src n) ∧
      ((∀ memory, ulibMemmove memory dst src n = memmove memory dst src n) ↔
        src = dst ∨ n.toNat < 2 ^ 31 ∧ ¬(src.toNat < dst.toNat ∧ dst.toNat < src.toNat + n.toNat)) := by
  have hkernel := memmove_moves hsrc hdst
  refine ⟨hkernel, ?_⟩
  simp only [hkernel]
  constructor
  · intro hsame
    by_contra hbad
    rw [not_or, not_and_or, not_lt, not_not] at hbad
    obtain ⟨memory, hmemory⟩ := ulibMemmove_differs hsrc hdst hbad.1 hbad.2
    exact hmemory (hsame memory)
  · intro hgood memory
    funext address
    have hsize : n.toInt.toNat ≤ 2 ^ 32 := by
      have hn := BitVec.toInt_lt (x := n)
      omega
    rcases hgood with rfl | ⟨hsmall, hapart⟩
    · have hself : src + (address - src) = address := by bv_omega
      rw [ulibMemmove, copyUp_apply _ _ _ _ hsize (.inl rfl), moved, hself, ite_self, ite_self]
    · have hlength : n.toInt.toNat = n.toNat := by
        rw [BitVec.toInt_eq_toNat_cond]
        split_ifs <;> omega
      rw [hlength] at hsize
      rw [ulibMemmove, hlength]
      apply copyUp_apply _ _ _ _ hsize
      by_cases hsame : dst = src
      · exact .inl hsame
      · right
        bv_omega

-- A buffer that is moved down by three bytes.
theorem memmove_iff_down : memmove (BitVec.setWidth 8) 0x1000 0x1003 16 0x1004 = 7 ∧
    ulibMemmove (BitVec.setWidth 8) 0x1000 0x1003 16 0x1004 = 7 := by
  obtain ⟨hkernel, hulib⟩ := memmove_iff 0x1000 0x1003 16 (by decide) (by decide)
  rw [hulib.mpr (.inr (by decide)), hkernel]
  decide

-- A buffer that is moved up by one byte.
theorem ulibMemmove_repeats : memmove (fun address => if address = 0x1000 then 1 else 0) 0x1001 0x1000 2 0x1002 = 0 ∧
    ulibMemmove (fun address => if address = 0x1000 then 1 else 0) 0x1001 0x1000 2 0x1002 = 1 := by decide

end Xv6.Memory
