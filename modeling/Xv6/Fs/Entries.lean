import Xv6.Fs.Codec
import Xv6.Slots
import Xv6.Volume
import Mathlib.Data.List.TakeWhile

namespace Xv6

open Function List

namespace Fs

-- Names are cut, and they end before the first zero.

theorem fill_eq (name : List Byte) :
    ((List.range DIRSIZ).map fun i => name.getD i 0) =
      name.take DIRSIZ ++ List.replicate (DIRSIZ - (name.take DIRSIZ).length) 0 := by
  have hlength : (name.take DIRSIZ).length ≤ DIRSIZ := length_take_le _ _
  refine ext_getElem ?_ ?_
  · rw [length_map, length_range, length_append, length_replicate]
    omega
  intro i hi _
  have hlt : i < DIRSIZ := by simpa using hi
  rw [getElem_map, getElem_range]
  by_cases hin : i < (name.take DIRSIZ).length
  · have hname : i < name.length := by
      rw [length_take] at hin
      omega
    rw [getElem_append_left hin, getElem_take, getD_eq_getElem _ _ hname]
  · have hname : name.length ≤ i := by
      rw [length_take] at hin
      omega
    rw [getElem_append_right (Nat.not_lt.mp hin), getElem_replicate, getD_eq_default _ _ hname]

theorem cstring_fill (name : List Byte) : cstring ((List.range DIRSIZ).map fun i => name.getD i 0) = cstring name := by
  have hlength : ((List.range DIRSIZ).map fun i => name.getD i 0).length ≤ DIRSIZ := by simp
  unfold cstring
  rw [take_of_length_le hlength, fill_eq, takeWhile_append]
  split_ifs with hall
  · have hzero : (List.replicate (DIRSIZ - (name.take DIRSIZ).length) (0 : Byte)).takeWhile (· ≠ 0) = [] := by
      cases DIRSIZ - (name.take DIRSIZ).length <;> simp [replicate_succ]
    rw [hzero, append_nil]
    exact ( takeWhile_prefix _).eq_of_length hall |>.symm
  · rfl

theorem cstring_eq_take {name : List Byte} (hname : 0 ∉ name) : cstring name = name.take DIRSIZ := by
  refine takeWhile_eq_self_iff.mpr fun c hc => ?_
  have hne : c ≠ 0 := by
    rintro rfl
    exact hname (mem_of_mem_take hc)
  simpa using hne

namespace Dirent

theorem length_encode (inum : Nat) (name : List Byte) : (encode inum name).length = 16 := by simp [encode]

theorem decode_encode (inum : Nat) (name : List Byte) :
    decode (encode inum name) = ⟨BitVec.ofNat 16 inum, (List.range DIRSIZ).map fun i => name.getD i 0⟩ := by
  have hinum : (decode (encode inum name)).inum = BitVec.ofNat 16 inum := half_byteOf _
  have hname : (decode (encode inum name)).name = (List.range DIRSIZ).map fun i => name.getD i 0 := rfl
  rw [← hinum, ← hname]

theorem inum_decode_zero : (decode (List.replicate 16 0)).inum = 0 := rfl

end Dirent

theorem mem_offsets {size : Word} {off : Nat} : off ∈ offsets size ↔ off % 16 = 0 ∧ off < size.toNat := by
  simp only [offsets, mem_map, mem_range]
  constructor
  · rintro ⟨i, hi, rfl⟩
    omega
  · rintro ⟨hmod, hoff⟩
    exact ⟨off / 16, by omega, by omega⟩

theorem find_offsets (p : Nat → Bool) (size : Word) :
    (offsets size).find? p = ((List.range ((size.toNat + 15) / 16)).find? fun i => p (16 * i)).map (16 * ·) := by
  rw [offsets, List.find?_map]
  rfl

end Fs

namespace Node

open Fs

variable (node : Node)

def dirent (off : Nat) : Dirent := .decode (node.read off 16)

-- The live entries of a directory, by their places.
def entries (i : Nat) : Option (List Byte × BitVec 16) :=
  if 16 * i < node.size.toNat ∧ (node.dirent (16 * i)).inum ≠ 0 then
    some (cstring (node.dirent (16 * i)).name, (node.dirent (16 * i)).inum)
  else none

def hasName (name : List Byte) (off : Nat) : Bool :=
  (node.dirent off).inum ≠ 0 ∧ namecmp name (node.dirent off).name

-- The offset of the first entry with this name.
def find (name : List Byte) : Option Nat := (offsets node.size).find? (node.hasName name)

-- The offset of the first empty entry, or the end.
def vacant : Nat :=
  ((offsets node.size).find? fun off => (node.dirent off).inum = 0).getD (16 * ((node.size.toNat + 15) / 16))

variable {node} {name : List Byte} {i off : Nat}

variable {inum : BitVec 16}

theorem entries_eq_some {key : List Byte} :
    node.entries i = some (key, inum) ↔ 16 * i < node.size.toNat ∧ inum ≠ 0 ∧
      (node.dirent (16 * i)).inum = inum ∧ cstring (node.dirent (16 * i)).name = key := by
  unfold entries
  split_ifs with hlive
  · rw [Option.some.injEq, Prod.mk.injEq]
    constructor
    · rintro ⟨rfl, rfl⟩
      exact ⟨hlive.1, hlive.2, rfl, rfl⟩
    · rintro ⟨-, -, hinum, hname⟩
      exact ⟨hname, hinum⟩
  · constructor
    · intro h
      cases h
    · rintro ⟨hi, hinum, rfl, -⟩
      exact absurd ⟨hi, hinum⟩ hlive

theorem entries_eq_none : node.entries i = none ↔ (16 * i < node.size.toNat → (node.dirent (16 * i)).inum = 0) := by
  by_cases hlive : 16 * i < node.size.toNat ∧ (node.dirent (16 * i)).inum ≠ 0
  · rw [entries, if_pos hlive]
    exact iff_of_false (Option.some_ne_none _) fun hzero => hlive.2 (hzero hlive.1)
  · rw [entries, if_neg hlive]
    refine iff_of_true rfl fun hi => ?_
    by_contra hinum
    exact hlive ⟨hi, hinum⟩

theorem hasName_iff : node.hasName name off = true ↔
    (node.dirent off).inum ≠ 0 ∧ cstring (node.dirent off).name = cstring name := by
  simp only [hasName, namecmp, decide_eq_true_eq]
  exact and_congr_right fun _ => eq_comm

theorem find_eq_none : node.find name = none ↔ ∀ i inum, node.entries i ≠ some (cstring name, inum) := by
  rw [find, List.find?_eq_none]
  constructor
  · intro h i inum hi
    obtain ⟨hlt, hinum, rfl, hkey⟩ := entries_eq_some.mp hi
    exact h (16 * i) (mem_offsets.mpr ⟨by omega, hlt⟩) (hasName_iff.mpr ⟨hinum, hkey⟩)
  · intro h off hoff hname
    obtain ⟨hmod, hlt⟩ := mem_offsets.mp hoff
    obtain ⟨hinum, hkey⟩ := hasName_iff.mp hname
    have hplace : 16 * (off / 16) = off := by omega
    refine h (off / 16) (node.dirent off).inum (entries_eq_some.mpr ?_)
    rw [hplace]
    exact ⟨hlt, hinum, rfl, hkey⟩

theorem find_eq_some (h : node.find name = some off) :
    ∃ i, off = 16 * i ∧ node.entries i = some (cstring name, (node.dirent off).inum) := by
  obtain ⟨hmod, hlt⟩ := mem_offsets.mp (mem_of_find?_eq_some h)
  obtain ⟨hinum, hkey⟩ := hasName_iff.mp (List.find?_some h)
  have hplace : 16 * (off / 16) = off := by omega
  refine ⟨off / 16, hplace.symm, entries_eq_some.mpr ?_⟩
  rw [hplace]
  exact ⟨hlt, hinum, rfl, hkey⟩

theorem vacant_spec (haligned : node.size.toNat % 16 = 0) :
    ∃ i, node.vacant = 16 * i ∧ 16 * i ≤ node.size.toNat ∧ node.entries i = none ∧ ∀ j < i, node.entries j ≠ none := by
  have htaken : ∀ j, 16 * j < node.size.toNat → (node.dirent (16 * j)).inum ≠ 0 → node.entries j ≠ none :=
    fun j hj hinum hnone => hinum (entries_eq_none.mp hnone hj)
  unfold vacant
  rw [find_offsets]
  cases hfind : (List.range ((node.size.toNat + 15) / 16)).find? fun i => decide ((node.dirent (16 * i)).inum = 0) with
  | none =>
    refine ⟨(node.size.toNat + 15) / 16, rfl, by omega, entries_eq_none.mpr fun hlt => by omega, ?_⟩
    intro j hj
    refine htaken j (by omega) ?_
    simpa using List.find?_eq_none.mp hfind j (mem_range.mpr hj)
  | some i =>
    obtain ⟨hinum, hi, hbefore⟩ := List.find?_range_eq_some.mp hfind
    have hlt : i < (node.size.toNat + 15) / 16 := mem_range.mp hi
    refine ⟨i, rfl, by omega, entries_eq_none.mpr fun _ => by simpa using hinum, ?_⟩
    intro j hj
    refine htaken j (by omega) ?_
    simpa using hbefore j hj

-- An entry is written in place of another one, or at the end.

section Write

variable {src : List Byte} (hsrc : src.length = 16)

include hsrc

theorem dirent_write (node : Node) (i j : Nat) :
    (node.write (16 * i) src).dirent (16 * j) = if j = i then .decode src else node.dirent (16 * j) := by
  unfold dirent
  split_ifs with hij
  · subst hij
    congr 1
    refine ext_getElem (by simp [read, hsrc]) ?_
    intro k hk hk'
    have hget : (node.write (16 * j) src).data (16 * j + k) = src.getD (16 * j + k - 16 * j) 0 := if_pos (by omega)
    simp only [read, getElem_map, getElem_range]
    rw [hget, Nat.add_sub_cancel_left, getD_eq_getElem _ _ hk']
  · congr 1
    refine map_congr_left fun k hk => ?_
    have hlt := mem_range.mp hk
    exact if_neg (by omega)

theorem size_write (node : Node) (hend : 16 * i + 16 < 2 ^ 32) :
    (node.write (16 * i) src).size.toNat = max node.size.toNat (16 * i + 16) := by
  simp only [write, hsrc]
  split_ifs with hmore
  · rw [BitVec.toNat_ofNat, Nat.mod_eq_of_lt hend]
    omega
  · omega

variable (haligned : node.size.toNat % 16 = 0) (hi : 16 * i ≤ node.size.toNat) (hend : 16 * i + 16 < 2 ^ 32)

include haligned hi hend

theorem entries_write :
    (node.write (16 * i) src).entries = update node.entries i
      (if (Dirent.decode src).inum = 0 then none
        else some (cstring (Dirent.decode src).name, (Dirent.decode src).inum)) := by
  funext j
  have hsize := size_write hsrc node hend
  unfold entries
  rw [dirent_write hsrc, hsize]
  by_cases hij : j = i
  · subst hij
    rw [update_self, if_pos rfl]
    by_cases hinum : (Dirent.decode src).inum = 0
    · rw [if_pos hinum, if_neg fun hlive => hlive.2 hinum]
    · rw [if_neg hinum, if_pos ⟨by omega, hinum⟩]
  · rw [update_of_ne hij, if_neg hij]
    have hsame : 16 * j < max node.size.toNat (16 * i + 16) ↔ 16 * j < node.size.toNat := by omega
    simp only [hsame]

end Write

variable (haligned : node.size.toNat % 16 = 0) (hi : 16 * i ≤ node.size.toNat) (hend : 16 * i + 16 < 2 ^ 32)

include haligned hi hend

theorem entries_write_encode (name : List Byte) (hinum : inum ≠ 0) :
    (node.write (16 * i) (Dirent.encode inum.toNat name)).entries =
      update node.entries i (some (cstring name, inum)) := by
  rw [entries_write (Dirent.length_encode _ _) haligned hi hend, Dirent.decode_encode, BitVec.ofNat_toNat,
    BitVec.setWidth_eq, if_neg hinum, cstring_fill]

theorem entries_write_zero : (node.write (16 * i) (List.replicate 16 0)).entries = update node.entries i none := by
  rw [entries_write length_replicate haligned hi hend, if_pos Dirent.inum_decode_zero]

end Node

end Xv6
