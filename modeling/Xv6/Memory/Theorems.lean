import Xv6.Memory

namespace Xv6.Memory

open BitVec

-- The lowest bits are cleared.
theorem and_not_mask (x : Word) (k : Nat) : x &&& ~~~(BitVec.ofNat 32 (2 ^ k - 1)) = (x >>> k) <<< k := by
  refine eq_of_getLsbD_eq fun i hi => ?_
  simp only [getLsbD_and, getLsbD_not, getLsbD_shiftLeft, getLsbD_ushiftRight,
    getLsbD_ofNat, Nat.testBit_two_pow_sub_one, hi, decide_true, Bool.true_and]
  by_cases h : i < k
  · simp only [h, decide_true, Bool.not_true, Bool.and_false, Bool.false_and]
  · have hback : k + (i - k) = i := by omega
    simp only [h, hback, decide_false, Bool.not_false, Bool.and_true, Bool.true_and]

theorem toNat_and_not_mask (x : Word) (k : Nat) :
    (x &&& ~~~(BitVec.ofNat 32 (2 ^ k - 1))).toNat = x.toNat / 2 ^ k * 2 ^ k := by
  rw [and_not_mask, toNat_shiftLeft, toNat_ushiftRight, Nat.shiftLeft_eq, Nat.shiftRight_eq_div_pow]
  exact Nat.mod_eq_of_lt (Nat.lt_of_le_of_lt (Nat.div_mul_le_self _ _) x.isLt)

theorem bytes_append (value : Word) :
    value.extractLsb' 24 8 ++ value.extractLsb' 16 8 ++ value.extractLsb' 8 8 ++ value.extractLsb' 0 8 = value := by
  apply eq_of_getLsbD_eq
  intro i hi
  simp only [getLsbD_append, getLsbD_extractLsb']
  by_cases h0 : i < 8
  · simp [h0]
  by_cases h1 : i - 8 < 8
  · simp only [h0, h1, ite_true, ite_false, decide_true, Bool.true_and]
    congr 1
    omega
  by_cases h2 : i - 8 - 8 < 8
  · simp only [h0, h1, h2, ite_true, ite_false, decide_true, Bool.true_and]
    congr 1
    omega
  · simp only [h0, h1, h2, ite_false, show i - 8 - 8 - 8 < 8 by omega, decide_true, Bool.true_and]
    congr 1
    omega

theorem writeWord_apply_of_far (memory : Memory) (address value byte : Word)
    (hfar : 4 ≤ (byte - address).toNat) : memory.writeWord address value byte = memory byte := by
  unfold writeWord
  rw [if_neg (by omega)]

theorem readWord_writeWord_self (memory : Memory) (address value : Word) :
    (memory.writeWord address value).readWord address = value := by
  have h0 : (address - address).toNat = 0 := by simp
  have h1 : (address + 1 - address).toNat = 1 := by bv_omega
  have h2 : (address + 2 - address).toNat = 2 := by bv_omega
  have h3 : (address + 3 - address).toNat = 3 := by bv_omega
  simp only [readWord, writeWord, h0, h1, h2, h3]
  exact bytes_append value

variable {first second : Memory}

theorem readWord_congr (address : Word) (h : ∀ byte : Word, (byte - address).toNat < 4 → first byte = second byte) :
    first.readWord address = second.readWord address := by
  unfold readWord
  rw [h address (by simp), h (address + 1) (by bv_omega), h (address + 2) (by bv_omega), h (address + 3) (by bv_omega)]

theorem readWord_writeWord_of_apart (memory : Memory) (address other value : Word)
    (hbelow : 4 ≤ (other - address).toNat) (habove : 4 ≤ (address - other).toNat) :
    (memory.writeWord address value).readWord other = memory.readWord other := by
  apply readWord_congr
  intro byte hbyte
  apply writeWord_apply_of_far
  bv_omega

theorem writeWord_writeWord_self (memory : Memory) (address first second : Word) :
    (memory.writeWord address first).writeWord address second = memory.writeWord address second := by
  funext byte
  simp only [writeWord]
  split_ifs <;> rfl

theorem writeWord_comm (memory : Memory) (address other value value' : Word)
    (hbelow : 4 ≤ (other - address).toNat) (habove : 4 ≤ (address - other).toNat) :
    (memory.writeWord address value).writeWord other value' =
      (memory.writeWord other value').writeWord address value := by
  funext byte
  simp only [writeWord]
  split_ifs with hother haddress
  · bv_omega
  · rfl
  · rfl
  · rfl

-- Offsets at least a word apart, in either order.
def Apart (first second : Nat × Word) : Prop :=
  first.1 + 4 ≤ second.1 ∨ second.1 + 4 ≤ first.1

instance (first second : Nat × Word) : Decidable (Apart first second) :=
  inferInstanceAs (Decidable (_ ∨ _))

section

variable (memory : Memory) (top : Word) (stores : List (Nat × Word))

theorem readWord_storeBelow_of_apart (offset : Nat) (value : Word) (hoffset : offset < 2 ^ 31)
    (hbound : ∀ store ∈ stores, store.1 < 2 ^ 31) (hapart : ∀ store ∈ stores, Apart (offset, value) store) :
    (memory.storeBelow top stores).readWord (top - BitVec.ofNat 32 offset) =
      memory.readWord (top - BitVec.ofNat 32 offset) := by
  induction stores generalizing memory with
  | nil => rfl
  | cons store rest ih =>
    rcases store with ⟨other, stored⟩
    have hother : other < 2 ^ 31 := hbound (other, stored) (by simp)
    have hwords : offset + 4 ≤ other ∨ other + 4 ≤ offset := hapart (other, stored) (by simp)
    rw [storeBelow, ih _ (fun store hs => hbound store (by simp [hs])) (fun store hs => hapart store (by simp [hs]))]
    have ho : (BitVec.ofNat 32 offset).toNat = offset := by
      simp only [toNat_ofNat]
      omega
    have hs : (BitVec.ofNat 32 other).toNat = other := by
      simp only [toNat_ofNat]
      omega
    generalize BitVec.ofNat 32 offset = first at ho ⊢
    generalize BitVec.ofNat 32 other = second at hs ⊢
    apply readWord_writeWord_of_apart <;> bv_omega

-- Every store is read back: the later ones do not touch it.
theorem readWord_storeBelow (hbound : ∀ store ∈ stores, store.1 < 2 ^ 31) (hapart : stores.Pairwise Apart)
    (offset : Nat) (value : Word) (hmem : (offset, value) ∈ stores) :
    (memory.storeBelow top stores).readWord (top - BitVec.ofNat 32 offset) = value := by
  induction stores generalizing memory with
  | nil => cases hmem
  | cons store rest ih =>
    obtain ⟨hhead, htail⟩ := List.pairwise_cons.mp hapart
    rcases List.mem_cons.mp hmem with rfl | hmem
    · have hoffset := hbound (offset, value) (by simp)
      rw [storeBelow, readWord_storeBelow_of_apart _ top rest offset value hoffset
        (fun store hs => hbound store (by simp [hs])) hhead, readWord_writeWord_self]
    · exact ih _ (fun store hs => hbound store (by simp [hs])) htail hmem

-- Bytes outside the frame [top - depth, top) keep their value.
theorem storeBelow_agree (depth : Nat)
    (hstores : ∀ store ∈ stores, 4 ≤ store.1 ∧ store.1 ≤ depth) (hdepth : depth ≤ top.toNat)
    (low high : Nat) (houtside : high ≤ top.toNat - depth ∨ top.toNat ≤ low) :
    Agree low high (memory.storeBelow top stores) memory := by
  induction stores generalizing memory with
  | nil => exact fun _ _ _ => rfl
  | cons store rest ih =>
    rcases store with ⟨offset, value⟩
    intro byte hlow hhigh
    rw [storeBelow, ih _ (fun store hs => hstores store (by simp [hs])) byte hlow hhigh]
    obtain ⟨hfour, hmax⟩ := hstores (offset, value) (by simp)
    simp only at hfour hmax
    have htop := top.isLt
    have ho : (BitVec.ofNat 32 offset).toNat = offset := by
      simp only [toNat_ofNat]
      omega
    generalize BitVec.ofNat 32 offset = back at ho ⊢
    apply writeWord_apply_of_far
    bv_omega

end

theorem Agree.readWord {low high : Nat} (h : Agree low high first second) (address : Word)
    (hlow : low ≤ address.toNat) (hhigh : address.toNat + 4 ≤ high) (hwrap : high ≤ 2 ^ 32) :
    first.readWord address = second.readWord address := by
  apply readWord_congr
  intro byte hbyte
  apply h byte <;> bv_omega

end Xv6.Memory
