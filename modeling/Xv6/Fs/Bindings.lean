import Xv6.Fs.Directory
import Xv6.Fs.Image

namespace Xv6.Fs

open Function Xv6.Action Node

variable {fs fs' : Fs} {dp ip : Fin NINODE} {inum most : Nat} {node : Node} {fails : FsHalt → Prop}

-- What somebody does with a directory that nobody else uses.

-- A name, without the zero at its end.
structure Name where
  bytes : List Byte
  nonempty : bytes ≠ []
  ended : 0 ∉ bytes

namespace Name

def cut (name : Name) : List Byte := name.bytes.take DIRSIZ

theorem cstring_eq (name : Name) : cstring name.bytes = name.cut := cstring_eq_take name.ended

end Name

inductive DirOp where
  | link (name : Name) (inum : BitVec 16) (used : inum ≠ 0)
  | remove (name : Name)
  | lookup (name : Name)

inductive Answer where
  | linked (done : Bool)
  | removed (done : Bool)
  | found (inum : Option Nat)
  deriving DecidableEq

namespace DirOp

-- sys_unlink takes entries away like this, and what has been found is given back at the end.
def perform (dp : Fin NINODE) : DirOp → M Answer
  | link name inum _ => do
      ilock dp
      let done ← dirlink dp name.bytes inum.toNat
      iunlock dp
      return .linked done
  | remove name => do
      ilock dp
      match ← dirlookup dp name.bytes with
      | none =>
        iunlock dp
        return .removed false
      | some (ip, off) =>
        if !(← writei dp (List.replicate 16 0) (BitVec.ofNat 32 off)) then throw .unlinkWritei
        iunlock dp
        iput ip
        return .removed true
  | lookup name => do
      ilock dp
      match ← dirlookup dp name.bytes with
      | none =>
        iunlock dp
        return .found none
      | some (ip, _) =>
        iunlock dp
        let inum := (← inode ip).inum
        iput ip
        return .found (some inum)

-- The answers, and the directory after each of them.
def performAll (dp : Fin NINODE) : List DirOp → M (List (Answer × Node))
  | [] => return []
  | op :: rest => do
      let answer ← perform dp op
      let fs ← get
      let later ← performAll dp rest
      return (answer, fs.node (fs.icache dp).inum) :: later

end DirOp

-- The finite map that a directory is for.
abbrev Bindings := Finmap fun _ : List Byte => BitVec 16

namespace Bindings

variable (map : Bindings)

def answer : DirOp → Answer
  | .link name _ _ => .linked (map.lookup name.cut).isNone
  | .remove name => .removed (map.lookup name.cut).isSome
  | .lookup name => .found ((map.lookup name.cut).map BitVec.toNat)

def after : DirOp → Bindings
  | .link name inum _ => if map.lookup name.cut = none then map.insert name.cut inum else map
  | .remove name => map.erase name.cut
  | .lookup _ => map

-- A new name makes the map larger.
def Fits (most : Nat) : DirOp → Prop
  | .link name _ _ => map.lookup name.cut = none → map.keys.card < most
  | .remove _ => True
  | .lookup _ => True

-- The name is one of the directory itself.
def Stuck (own : Nat) : DirOp → Prop
  | .link name _ _ => (map.lookup name.cut).map BitVec.toNat = some own
  | .remove _ => False
  | .lookup _ => False

-- Which entries have changed: a new one is in the first place that is empty, and all others stay.
def Changes (node node' : Node) : DirOp → Prop
  | .link name inum _ =>
    if map.lookup name.cut = none then
      ∃ i, node.entries i = none ∧ (∀ j < i, node.entries j ≠ none) ∧
        node'.entries = update node.entries i (some (name.cut, inum))
    else node' = node
  | .remove name =>
    match map.lookup name.cut with
    | none => node' = node
    | some inum => ∃ i, node.entries i = some (name.cut, inum) ∧ node'.entries = update node.entries i none
  | .lookup _ => node' = node

def Always (p : Bindings → DirOp → Prop) : Bindings → List DirOp → Prop
  | _, [] => True
  | map, op :: rest => p map op ∧ Always p (map.after op) rest

-- The directory does what the map does.
def Follows : Bindings → Node → List DirOp → List (Answer × Node) → Prop
  | _, _, [], [] => True
  | map, node, op :: rest, (answer, node') :: later =>
    answer = map.answer op ∧ Represents node'.entries (map.after op) ∧ map.Changes node node' op ∧
      Follows (map.after op) node' rest later
  | _, _, _, _ => False

end Bindings

-- A directory of at most so many entries that is this map.
structure Lists (most : Nat) (node : Node) (map : Bindings) : Prop where
  type : node.type = T_DIR
  aligned : node.size.toNat % 16 = 0
  size : node.size.toNat ≤ 16 * most
  entries : Represents node.entries map

namespace Lists

variable {map : Bindings} (h : Lists most node map) {name : Name} {off : Nat}

include h

theorem not_dev : node.type ≠ T_DEV := by
  rw [h.type]
  decide

theorem find_none : node.find name.bytes = none ↔ map.lookup name.cut = none := by
  rw [find_eq_none, name.cstring_eq]
  constructor
  · intro hnone
    cases hlookup : map.lookup name.cut with
    | none => rfl
    | some inum =>
      obtain ⟨i, hi⟩ := h.entries.slot hlookup
      exact absurd hi (hnone i inum)
  · intro hlookup i inum hi
    rw [h.entries.mem hi] at hlookup
    cases hlookup

theorem find_some (hfind : node.find name.bytes = some off) :
    map.lookup name.cut = some (node.dirent off).inum ∧
      ∃ i, off = 16 * i ∧ node.entries i = some (name.cut, (node.dirent off).inum) := by
  obtain ⟨i, hoff, hi⟩ := find_eq_some hfind
  rw [name.cstring_eq] at hi
  exact ⟨h.entries.mem hi, i, hoff, hi⟩

-- The first empty place is there, or the directory is not as large as it may be.
theorem vacant_lt (hcard : map.keys.card < most) :
    ∃ i, node.vacant = 16 * i ∧ 16 * i ≤ node.size.toNat ∧ i < most ∧ node.entries i = none ∧
      ∀ j < i, node.entries j ≠ none := by
  obtain ⟨i, hvacant, hle, hempty, hbefore⟩ := vacant_spec h.aligned
  exact ⟨i, hvacant, hle, Nat.lt_of_le_of_lt (h.entries.le_card hbefore) hcard, hempty, hbefore⟩

variable (hmost : 16 * most ≤ MAXFILE * BSIZE) {i : Nat}

include hmost

theorem put (hi : 16 * i ≤ node.size.toNat) (hlt : i < most) (hempty : node.entries i = none)
    (hlookup : map.lookup name.cut = none) {inum : BitVec 16} (hinum : inum ≠ 0) :
    Lists most (node.write (16 * i) (Dirent.encode inum.toNat name.bytes)) (map.insert name.cut inum) ∧
      (node.write (16 * i) (Dirent.encode inum.toNat name.bytes)).entries =
        update node.entries i (some (name.cut, inum)) := by
  have haligned := h.aligned
  have hsize := h.size
  have hend : 16 * i + 16 < 2 ^ 32 := Nat.lt_of_le_of_lt (by omega) (by decide : MAXFILE * BSIZE < 2 ^ 32)
  have hwritten := size_write (Dirent.length_encode inum.toNat name.bytes) node hend
  have hentries := entries_write_encode haligned hi hend name.bytes hinum
  rw [name.cstring_eq] at hentries
  refine ⟨⟨h.type, ?_, ?_, ?_⟩, hentries⟩
  · rw [hwritten]
    omega
  · rw [hwritten]
    omega
  · rw [hentries]
    exact h.entries.put hempty hlookup

theorem clear {inum : BitVec 16} (hentry : node.entries i = some (name.cut, inum)) :
    Lists most (node.write (16 * i) (List.replicate 16 0)) (map.erase name.cut) ∧
      (node.write (16 * i) (List.replicate 16 0)).entries = update node.entries i none := by
  have haligned := h.aligned
  have hsize := h.size
  have hi := (entries_eq_some.mp hentry).1
  have hend : 16 * i + 16 < 2 ^ 32 := Nat.lt_of_le_of_lt (by omega) (by decide : MAXFILE * BSIZE < 2 ^ 32)
  have hlength : (List.replicate 16 (0 : Byte)).length = 16 := rfl
  have hwritten := size_write hlength node hend
  have hentries := entries_write_zero haligned (Nat.le_of_lt hi) hend
  refine ⟨⟨h.type, ?_, ?_, ?_⟩, hentries⟩
  · rw [hwritten]
    omega
  · rw [hwritten]
    omega
  · rw [hentries]
    exact h.entries.clear hentry

end Lists

-- What has been got is there for somebody else as well, or it has not been loaded.
def Got (ip : Fin NINODE) (n : Nat) (fs : Fs) : Prop :=
  0 < (fs.icache ip).ref ∧ (fs.icache ip).inum = n ∧ ((fs.icache ip).ref = 1 → (fs.icache ip).valid = false)

theorem pos_got {ref : Fin NINODE → Int} (hpos : 0 < ref dp) (ip : Fin NINODE) :
    0 < (ref + Pi.single ip 1 : Fin NINODE → Int) dp := by
  have hone : 0 ≤ (Pi.single ip 1 : Fin NINODE → Int) dp := single_nonneg ip dp
  rw [Pi.add_apply]
  omega

-- The files, the references and the locks, as they are between the calls.
structure Stands (dp : Fin NINODE) (inum : Nat) (slots : Finset (Nat × Nat)) (vol : Volume) (ref : Fin NINODE → Int)
    (lock : Fin NINODE → Bool) (fs : Fs) : Prop where
  sound : Sound none fs
  node : fs.node = vol
  ref : fs.ref = ref
  locked : fs.locked = lock
  inum : (fs.icache dp).inum = inum
  room : fs.Room slots

namespace Stands

variable {slots : Finset (Nat × Nat)} {vol : Volume} {ref held : Fin NINODE → Int} {lock lock' : Fin NINODE → Bool}

theorem step (h : Stands dp inum slots vol ref lock fs) (hpos : 0 < ref dp) (hstep : Step held fs fs')
    (hlocked : fs'.locked = lock') : Stands dp inum slots vol (ref + held) lock' fs' where
  sound := hstep.sound
  node := hstep.node.trans h.node
  ref := by rw [hstep.ref, h.ref]
  locked := hlocked
  inum := by
    rw [hstep.inum dp (by rwa [h.ref])]
    exact h.inum
  room := (hstep.room slots).mpr h.room

variable (h : Stands dp inum slots vol ref lock fs) (hpos : 0 < ref dp)

include h hpos

theorem get (hspare : ∃ jp, ref jp = 0) (n : Nat) :
    wp (iget n) fs (fun ip fs' =>
      Stands dp inum slots vol (ref + Pi.single ip 1) lock fs' ∧ Got ip n fs' ∧ Step (Pi.single ip 1) fs fs')
      fails := by
  obtain ⟨jp, hjp⟩ := hspare
  apply (iget_step h.sound n).mono
  · rintro ip fs' ⟨hstep, hlocked, href, hinum, hkept⟩
    exact ⟨h.step hpos hstep (hlocked.trans h.locked), ⟨href, hinum, hkept⟩, hstep⟩
  · rintro halt ⟨-, hnone⟩
    exact absurd (by rw [h.ref, hjp]) (hnone jp)

omit hpos in
theorem write {src : List Byte} {off : Nat} (hcaches : fs.Caches dp inum) (htype : (vol inum).type ≠ T_DEV)
    (hsrc : src.length < 2 ^ 32) (hoff : off ≤ (vol inum).size.toNat) (hend : off + src.length ≤ MAXFILE * BSIZE)
    (hslots : places inum off src.length ⊆ slots) :
    wp (writei dp src (BitVec.ofNat 32 off)) fs (fun written fs' => written = true ∧
      Stands dp inum slots (update vol inum ((vol inum).write off src)) ref lock fs' ∧ Steady fs fs') fails := by
  have htoNat : (BitVec.ofNat 32 off).toNat = off := by
    have hsize := (vol inum).size.isLt
    rw [BitVec.toNat_ofNat]
    omega
  rw [← h.node] at htype hoff
  refine writei_wp h.sound hcaches htype hsrc (by rwa [htoNat]) (fun hroom => absurd h.room hroom) ?_ ?_
  · rw [htoNat]
    exact fun hbad => absurd ⟨hoff, hend⟩ hbad
  · intro _ _ fs' hbecomes hroom
    rw [htoNat] at hbecomes
    refine ⟨rfl, ⟨hbecomes.sound, ?_, ?_, ?_, ?_, hroom.mpr h.room⟩, hbecomes.steady⟩
    · rw [hbecomes.node, h.node]
    · rw [← h.ref]
      exact funext hbecomes.steady.ref
    · rw [hbecomes.steady.locked, h.locked]
    · rw [hbecomes.steady.inum, h.inum]

end Stands

section Perform

variable {map : Bindings} {vol : Volume} {ref : Fin NINODE → Int}

theorem erase_of_lookup {key : List Byte} (h : map.lookup key = none) : map.erase key = map := by
  apply Finmap.ext_lookup
  intro other
  by_cases hsame : other = key
  · rw [hsame, Finmap.lookup_erase, h]
  · rw [Finmap.lookup_erase_ne hsame]

-- One call, from a state in which nothing is locked to another one.
structure Performs (dp : Fin NINODE) (inum most : Nat) (map : Bindings) (vol : Volume) (ref : Fin NINODE → Int)
    (op : DirOp) (answer : Answer) (vol' : Volume) (fs' : Fs) : Prop where
  answers : answer = map.answer op
  stands : Stands dp inum (places inum 0 (16 * most)) vol' ref (fun _ => false) fs'
  lists : Lists most (vol' inum) (map.after op)
  changes : map.Changes (vol inum) (vol' inum) op

-- The directory is locked.
variable (h : Stands dp inum (places inum 0 (16 * most)) vol ref (update (fun _ => false) dp true) fs)
variable (hcaches : fs.Caches dp inum) (hlists : Lists most (vol inum) map) (hpos : 0 < ref dp)

include h hcaches hlists

theorem Stands.directory : Directory dp inum fs where
  sound := h.sound
  caches := hcaches
  type := by
    rw [h.node]
    exact hlists.type
  aligned := by
    rw [h.node]
    exact hlists.aligned

variable (hspare : ∃ jp, ref jp = 0)

omit hcaches hlists in
include hpos in
theorem Stands.leave :
    wp (iunlock dp) fs (fun _ fs' => Stands dp inum (places inum 0 (16 * most)) vol ref (fun _ => false) fs' ∧
      ∀ ip n, Got ip n fs → Got ip n fs') fails := by
  have hlocked : fs.locked dp = true := by rw [h.locked, update_self]
  apply (iunlock_step (by rwa [h.ref]) h.sound hlocked).imp
  rintro - fs' ⟨hstep, hsame, hicache⟩
  have hnext := h.step hpos hstep (hsame.trans (by rw [h.locked, update_idem, update_eq_self]))
  rw [add_zero] at hnext
  refine ⟨hnext, fun ip n hgot => ?_⟩
  rwa [Got, hicache]

omit hlists in
include hpos hspare in
theorem Stands.probe {n : Nat} (hother : n ≠ inum) :
    wp (do iput (← iget n)) fs (fun _ fs' =>
      Stands dp inum (places inum 0 (16 * most)) vol ref (update (fun _ => false) dp true) fs') fails := by
  apply (iget_iput_step h.sound n).mono
  · rintro - fs' ⟨hstep, hsame⟩
    have hnext := h.step hpos hstep (hsame.trans h.locked)
    rwa [add_zero] at hnext
  · rintro halt (⟨-, hnone⟩ | ⟨-, ip, hheld, hinum⟩)
    · obtain ⟨jp, hjp⟩ := hspare
      exact absurd (by rw [h.ref, hjp]) (hnone jp)
    · have hip : ip = dp := by
        by_contra hne
        rw [h.locked, update_of_ne hne] at hheld
        cases hheld
      subst hip
      exact absurd ((hinum (by rwa [h.ref])).symm.trans h.inum) hother

end Perform

section Calls

variable {map : Bindings} {vol : Volume} {ref : Fin NINODE → Int}
variable (h : Stands dp inum (places inum 0 (16 * most)) vol ref (fun _ => false) fs) (hpos : 0 < ref dp)
variable (hspare : ∃ jp, ref jp = 0) (hlists : Lists most (vol inum) map) (hmost : 16 * most ≤ MAXFILE * BSIZE)

include h hpos hlists in
theorem Stands.lock :
    wp (ilock dp) fs (fun _ fs' =>
      Stands dp inum (places inum 0 (16 * most)) vol ref (update (fun _ => false) dp true) fs' ∧
        fs'.Caches dp inum) fails := by
  have htype : (fs.node inum).type ≠ 0 := by
    rw [h.node, hlists.type]
    decide
  apply (ilock_step h.sound (by rwa [h.ref]) (by rw [h.locked]) h.inum htype).imp
  rintro - fs' ⟨hstep, hsame, hcaches⟩
  have hnext := h.step hpos hstep (hsame.trans (by rw [h.locked]))
  rw [add_zero] at hnext
  exact ⟨hnext, hcaches⟩

omit h in
include hpos in
theorem Stands.put {n : Nat}
    (h : Stands dp inum (places inum 0 (16 * most)) vol (ref + Pi.single ip 1) (fun _ => false) fs)
    (hgot : Got ip n fs) :
    wp (iput ip) fs (fun _ fs' => Stands dp inum (places inum 0 (16 * most)) vol ref (fun _ => false) fs') fails := by
  have hkept : ¬((fs.icache ip).valid ∧ (fs.icache ip).nlink = 0 ∧ (fs.icache ip).ref = 1) := by
    rintro ⟨hvalid, -, hone⟩
    rw [hgot.2.2 hone] at hvalid
    cases hvalid
  apply (iput_step h.sound hgot.1 (by rw [h.locked]) hkept).imp
  rintro - fs' ⟨hstep, hsame, -⟩
  have hnext := h.step (pos_got hpos ip) hstep (hsame.trans h.locked)
  rwa [add_neg_cancel_right] at hnext

include h hpos hspare hlists hmost

theorem link_performs (name : Name) (target : BitVec 16) (used : target ≠ 0)
    (hfits : map.Fits most (.link name target used)) (hfree : ¬map.Stuck inum (.link name target used)) :
    wp (DirOp.perform dp (.link name target used)) fs
      (fun answer fs' => ∃ vol', Performs dp inum most map vol ref (.link name target used) answer vol' fs') fails := by
  simp only [DirOp.perform, wp_bind, wp_pure]
  apply (h.lock hpos hlists).imp
  rintro - locked ⟨hlocked, hcaches⟩
  apply (hlocked.directory hcaches hlists).dirlink_wp
  · intro off hfind
    rw [hlocked.node] at hfind ⊢
    have hlookup := (hlists.find_some hfind).1
    have hother : ((vol inum).dirent off).inum.toNat ≠ inum := by
      intro hsame
      apply hfree
      rw [Bindings.Stuck, hlookup, Option.map_some, hsame]
    apply (hlocked.probe hcaches hpos hspare hother).imp
    intro _ probed hprobed
    apply (hprobed.leave hpos).imp
    rintro - fs' ⟨hfs', -⟩
    refine ⟨vol, ?_, hfs', ?_, ?_⟩
    · rw [Bindings.answer, hlookup]
      rfl
    · rwa [Bindings.after, hlookup, if_neg (Option.some_ne_none _)]
    · rw [Bindings.Changes, hlookup, if_neg (Option.some_ne_none _)]
  · intro hfind
    rw [hlocked.node] at hfind ⊢
    have hlookup := hlists.find_none.mp hfind
    obtain ⟨i, hvacant, hle, hlt, hempty, hbefore⟩ := hlists.vacant_lt (hfits hlookup)
    obtain ⟨hput, hentries⟩ := hlists.put hmost hle hlt hempty hlookup used
    have hlength := Dirent.length_encode target.toNat name.bytes
    rw [hvacant]
    apply (hlocked.write hcaches hlists.not_dev (by omega) hle (by omega) (places_subset (by omega) (by omega))).imp
    rintro - written ⟨rfl, hwritten, -⟩
    rw [if_pos rfl]
    apply (hwritten.leave hpos).imp
    rintro - fs' ⟨hfs', -⟩
    refine ⟨_, ?_, hfs', ?_, ?_⟩
    · rw [Bindings.answer, hlookup]
      rfl
    · rwa [Bindings.after, if_pos hlookup, update_self]
    · rw [Bindings.Changes, if_pos hlookup, update_self]
      exact ⟨i, hempty, hbefore, hentries⟩

theorem remove_performs (name : Name) :
    wp (DirOp.perform dp (.remove name)) fs
      (fun answer fs' => ∃ vol', Performs dp inum most map vol ref (.remove name) answer vol' fs') fails := by
  simp only [DirOp.perform, wp_bind]
  apply (h.lock hpos hlists).imp
  rintro - locked ⟨hlocked, hcaches⟩
  apply (hlocked.directory hcaches hlists).dirlookup_wp
  · intro hfind
    rw [hlocked.node] at hfind
    have hlookup := hlists.find_none.mp hfind
    simp only [wp_bind, wp_pure]
    apply (hlocked.leave hpos).imp
    rintro - fs' ⟨hfs', -⟩
    refine ⟨vol, ?_, hfs', ?_, ?_⟩
    · rw [Bindings.answer, hlookup]
      rfl
    · rwa [Bindings.after, erase_of_lookup hlookup]
    · rw [Bindings.Changes, hlookup]
  · intro off hfind
    rw [hlocked.node] at hfind ⊢
    obtain ⟨hlookup, i, rfl, hentry⟩ := hlists.find_some hfind
    obtain ⟨hclear, hentries⟩ := hlists.clear hmost hentry
    have hplace := (entries_eq_some.mp hentry).1
    have haligned := hlists.aligned
    have hsize := hlists.size
    have hlength : (List.replicate 16 (0 : Byte)).length = 16 := rfl
    apply (hlocked.get hpos hspare _).imp
    rintro ip got ⟨hgot, hkept, hstep⟩
    have hcaches' : got.Caches dp inum := hstep.caches hcaches (by rw [hgot.ref]; exact pos_got hpos ip)
    simp only [wp_bind, wp_ite, wp_throw, wp_pure]
    apply (hgot.write hcaches' hlists.not_dev (by omega) (Nat.le_of_lt hplace) (by omega)
      (places_subset (by omega) (by omega))).imp
    rintro - written ⟨rfl, hwritten, hsteady⟩
    rw [if_neg (by decide)]
    apply (hwritten.leave (pos_got hpos ip)).imp
    rintro - left ⟨hleft, hstill⟩
    have hkept' : Got ip ((vol inum).dirent (16 * i)).inum.toNat written := by
      rwa [Got, hsteady.ref, hsteady.inum, hsteady.valid]
    apply (hleft.put hpos (hstill _ _ hkept')).imp
    intro _ fs' hfs'
    refine ⟨_, ?_, hfs', ?_, ?_⟩
    · rw [Bindings.answer, hlookup]
      rfl
    · rwa [Bindings.after, update_self]
    · rw [Bindings.Changes, hlookup, update_self]
      exact ⟨i, hentry, hentries⟩

omit hmost in
theorem lookup_performs (name : Name) :
    wp (DirOp.perform dp (.lookup name)) fs
      (fun answer fs' => ∃ vol', Performs dp inum most map vol ref (.lookup name) answer vol' fs') fails := by
  simp only [DirOp.perform, wp_bind]
  apply (h.lock hpos hlists).imp
  rintro - locked ⟨hlocked, hcaches⟩
  apply (hlocked.directory hcaches hlists).dirlookup_wp
  · intro hfind
    rw [hlocked.node] at hfind
    have hlookup := hlists.find_none.mp hfind
    simp only [wp_bind, wp_pure]
    apply (hlocked.leave hpos).imp
    rintro - fs' ⟨hfs', -⟩
    refine ⟨vol, ?_, hfs', hlists, rfl⟩
    rw [Bindings.answer, hlookup]
    rfl
  · intro off hfind
    rw [hlocked.node] at hfind ⊢
    have hlookup := (hlists.find_some hfind).1
    apply (hlocked.get hpos hspare _).imp
    rintro ip got ⟨hgot, hkept, -⟩
    simp only [wp_bind, inode, wp_get, wp_pure]
    apply (hgot.leave (pos_got hpos ip)).imp
    rintro - left ⟨hleft, hstill⟩
    have hkept' := hstill _ _ hkept
    apply (hleft.put hpos hkept').imp
    intro _ fs' hfs'
    refine ⟨vol, ?_, hfs', hlists, rfl⟩
    rw [Bindings.answer, hlookup, hkept'.2.1]
    rfl

theorem perform_performs (op : DirOp) (hfits : map.Fits most op) (hfree : ¬map.Stuck inum op) :
    wp (DirOp.perform dp op) fs
      (fun answer fs' => ∃ vol', Performs dp inum most map vol ref op answer vol' fs') fails := by
  cases op with
  | link name target used => exact link_performs h hpos hspare hlists hmost name target used hfits hfree
  | remove name => exact remove_performs h hpos hspare hlists hmost name
  | lookup name => exact lookup_performs h hpos hspare hlists name

-- dirlink finds the directory itself, and iput waits for the lock that dirlink has been called with.
omit hmost in
theorem perform_stuck (op : DirOp) (hstuck : map.Stuck inum op) :
    wp (DirOp.perform dp op) fs (fun _ _ => False) fun halt => halt = .deadlock := by
  cases op with
  | remove name | lookup name => exact hstuck.elim
  | link name target used =>
    obtain ⟨own, hlookup, hown⟩ := Option.map_eq_some_iff.mp hstuck
    simp only [DirOp.perform, wp_bind, wp_pure]
    apply (h.lock hpos hlists).imp
    rintro - locked ⟨hlocked, hcaches⟩
    apply (hlocked.directory hcaches hlists).dirlink_wp
    · intro off hfind
      rw [hlocked.node] at hfind ⊢
      have hsame := (hlists.find_some hfind).1
      rw [hlookup] at hsame
      rw [← Option.some.inj hsame, hown, wp_bind]
      apply (hlocked.get hpos hspare inum).imp
      rintro ip got ⟨hgot, hkept, -⟩
      have hip : ip = dp := by
        apply hgot.sound.unique ip dp hkept.1
        · have hheld := pos_got hpos ip
          rwa [← hgot.ref] at hheld
        · rw [hkept.2.1, hgot.inum]
      have hheld : got.locked ip = true := by
        rw [hgot.locked, hip, update_self]
      simp only [iput, acquiresleep, wp_bind, wp_get, wp_ite, wp_throw]
      rw [if_pos hheld]
      trivial
    · intro hfind
      rw [hlocked.node] at hfind
      rw [hlists.find_none.mp hfind] at hlookup
      cases hlookup

end Calls

section Runs

variable {ref : Fin NINODE → Int} (hpos : 0 < ref dp) (hspare : ∃ jp, ref jp = 0) (hmost : 16 * most ≤ MAXFILE * BSIZE)

include hpos hspare hmost

variable {ops : List DirOp} {map : Bindings}

theorem performAll_follows {vol : Volume} (h : Stands dp inum (places inum 0 (16 * most)) vol ref (fun _ => false) fs)
    (hlists : Lists most (vol inum) map) (hfits : Bindings.Always (fun map op => map.Fits most op) map ops)
    (hfree : Bindings.Always (fun map op => ¬map.Stuck inum op) map ops) :
    wp (DirOp.performAll dp ops) fs (fun trace _ => Bindings.Follows map (vol inum) ops trace) fails := by
  induction ops generalizing map vol fs with
  | nil => exact trivial
  | cons op rest ih =>
    simp only [DirOp.performAll, wp_bind, wp_get, wp_pure]
    apply (perform_performs h hpos hspare hlists hmost op hfits.1 hfree.1).imp
    rintro answer fs' ⟨vol', hperforms⟩
    have hstands := hperforms.stands
    apply (ih hstands hperforms.lists hfits.2 hfree.2).imp
    intro later _ hlater
    rw [hstands.inum, hstands.node]
    exact ⟨hperforms.answers, hperforms.lists.entries, hperforms.changes, hlater⟩

theorem always_of_performAll {vol : Volume} {returns : List (Answer × Node) → Fs → Prop}
    (h : Stands dp inum (places inum 0 (16 * most)) vol ref (fun _ => false) fs)
    (hlists : Lists most (vol inum) map) (hfits : Bindings.Always (fun map op => map.Fits most op) map ops)
    (hruns : wp (DirOp.performAll dp ops) fs returns fun _ => False) :
    Bindings.Always (fun map op => ¬map.Stuck inum op) map ops := by
  induction ops generalizing map vol fs returns with
  | nil => exact trivial
  | cons op rest ih =>
    simp only [DirOp.performAll, wp_bind, wp_get, wp_pure] at hruns
    have hfree : ¬map.Stuck inum op := by
      intro hstuck
      obtain ⟨_, _, hrun, _⟩ := hruns.run_of_false
      exact (perform_stuck h hpos hspare hlists op hstuck).returned hrun
    obtain ⟨answer, fs', hrun, hlater⟩ := hruns.run_of_false
    obtain ⟨vol', hperforms⟩ :=
      (perform_performs h hpos hspare hlists hmost op hfits.1 hfree : wp _ _ _ fun _ => False).returned hrun
    exact ⟨hfree, ih hperforms.stands hperforms.lists hfits.2 hlater⟩

end Runs

-- Whatever is done with an empty directory, within its limits: it is the finite map, if and only if nobody links a name
-- that stands for the directory itself.
theorem performAll_iff (h : Sound none fs) (dp : Fin NINODE) (href : 0 < fs.ref dp) (hinum : (fs.icache dp).inum = inum)
    (hunlocked : ∀ jp, fs.locked jp = false) (hspare : ∃ jp, fs.ref jp = 0) (htype : (fs.node inum).type = T_DIR)
    (haligned : (fs.node inum).size.toNat % 16 = 0) (hempty : ∀ i, (fs.node inum).entries i = none)
    (hmost : 16 * most ≤ MAXFILE * BSIZE) (hsize : (fs.node inum).size.toNat ≤ 16 * most)
    (hroom : fs.Room (places inum 0 (16 * most))) (ops : List DirOp)
    (hfits : Bindings.Always (fun map op => map.Fits most op) ∅ ops) :
    wp (DirOp.performAll dp ops) fs (fun trace _ => Bindings.Follows ∅ (fs.node inum) ops trace) (fun _ => False) ↔
      Bindings.Always (fun map op => ¬map.Stuck inum op) ∅ ops := by
  have hstands : Stands dp inum (places inum 0 (16 * most)) fs.node fs.ref (fun _ => false) fs :=
    ⟨h, rfl, rfl, funext hunlocked, hinum, hroom⟩
  have hlists : Lists most (fs.node inum) ∅ := ⟨htype, haligned, hsize, .empty hempty⟩
  exact ⟨fun hruns => always_of_performAll href hspare hmost hstands hlists hfits hruns,
    fun hfree => performAll_follows href hspare hmost hstands hlists hfits hfree⟩

def nameA : Name := ⟨[97], by decide, by decide⟩

def nameB : Name := ⟨[98], by decide, by decide⟩

def nameDot : Name := ⟨dot, by decide, by decide⟩

def smallOps : List DirOp :=
  [.link nameA 5 (by decide), .link nameB 6 (by decide), .remove nameA, .link nameB 7 (by decide),
    .link nameA 7 (by decide), .lookup nameB]

theorem fits_smallOps : Bindings.Always (fun map op => map.Fits 32 op) ∅ smallOps := by
  refine ⟨fun _ => ?_, fun _ => ?_, trivial, fun _ => ?_, fun _ => ?_, trivial, trivial⟩ <;> decide +kernel

theorem free_smallOps : Bindings.Always (fun map op => ¬map.Stuck 3 op) ∅ smallOps := by
  refine ⟨?_, ?_, id, ?_, ?_, id, trivial⟩ <;>
  · show ¬_ = _
    decide +kernel

-- The entry of the first name is used again.
theorem performAll_small : ∃ trace fs', (DirOp.performAll 2 smallOps).run small = .ok (trace, fs') ∧
    Bindings.Follows ∅ (small.node 3) smallOps trace := by
  have hsize : (small.node 3).size = 0 := by decide +kernel
  have hempty : ∀ i, (small.node 3).entries i = none := by
    intro i
    apply entries_eq_none.mpr
    rw [hsize]
    intro hi
    cases hi
  have hroom : small.Room (places 3 0 (16 * 32)) := by
    unfold Room Enough
    decide +kernel
  have hinum : (small.icache 2).inum = 3 := rfl
  have hiff := performAll_iff small_sound 2 (by decide) hinum (fun _ => rfl) ⟨3, rfl⟩ (by decide +kernel)
    (by rw [hsize]; rfl) hempty (by decide) (by rw [hsize]; decide) hroom smallOps fits_smallOps
  apply wp.run_of_false
  rw [hiff]
  exact free_smallOps

-- After link("f", "d/.") the process waits for ever.
theorem performAll_deadlock :
    (DirOp.performAll 2 [.link nameDot 3 (by decide), .link nameDot 2 (by decide)]).run small = .error .deadlock := by
  apply run_of_map
  decide +kernel

end Xv6.Fs
