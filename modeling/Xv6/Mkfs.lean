import Xv6.Ide
import Xv6.Log
import Xv6.Sysfile

namespace Xv6

abbrev NINODES : Nat := 200

namespace Fs

-- The boot block, the super block, the log, the inodes and the bitmap come before the data.
def mkfsSuperblock : Superblock where
  size := FSSIZE
  nblocks := FSSIZE - 59
  ninodes := NINODES
  nlog := LOGSIZE
  logstart := 2
  inodestart := 2 + LOGSIZE
  bmapstart := 2 + LOGSIZE + (NINODES / IPB + 1)

def mkfsRoot : Dinode where
  type := T_DIR
  major := 0
  minor := 0
  nlink := 1
  size := BitVec.ofNat 32 BSIZE
  addrs := Function.update (fun _ => 0) 0 59

-- The disk that mkfs makes if it is given no files.
def mkfsDisk (bno : Nat) : Bytes :=
  if bno = mkfsSuperblock.IBLOCK ROOTINO then Bytes.setDinode (fun _ => 0) ROOTINO mkfsRoot
  else if bno = mkfsSuperblock.bmapstart then (List.range 60).foldl Bytes.setBit fun _ => 0
  else if bno = 59 then
    Bytes.setBytes (Bytes.setBytes (fun _ => 0) 0 (Dirent.encode ROOTINO dot)) 16 (Dirent.encode ROOTINO dotdot)
  else fun _ => 0

-- The inode cache is as userinit leaves it, with the current directory of the first process.
def mkfs : Fs where
  sb := mkfsSuperblock
  disk := mkfsDisk
  icache := Function.update (fun _ => ⟨.fresh 0, 0, 0, false⟩) 0 ⟨.fresh 0, ROOTINO, 1, false⟩
  locked _ := false

end Fs

namespace Sys

def boot (fs : Fs) : Sys where
  fs
  ftable _ := ⟨.FD_NONE, 0, false, false, 0, 0, 0⟩
  pipes _ := ⟨false, false, 0⟩
  pages := 0
  proc := Function.update (fun _ => ⟨.UNUSED, fun _ => none, none⟩) 0 ⟨.RUNNABLE, fun _ => none, some 0⟩

theorem boot_starts : Starts (boot Fs.mkfs) where
  root := ⟨rfl, rfl⟩
  icache ip := by
    by_cases hip : ip = 0
    · subst hip
      exact ⟨rfl, fun hne => absurd rfl hne⟩
    · simp [boot, Fs.mkfs, hip]
  locked _ := rfl
  ftable _ := ⟨rfl, rfl⟩
  pages := rfl
  init := ⟨rfl, rfl⟩
  proc p hp := by simp [boot, hp]
  ofile p fd := by
    by_cases hp : p = 0
    · subst hp
      rfl
    · simp [boot, hp]

end Sys

end Xv6
