/-
  Xv6.Fs.Layout — the on-disk format (`kernel/fs.h`): the superblock, where the inodes
  and the free bitmap are, the byte layout of `struct dinode`, and what `mkfs` promises
  about the regions. `magic`, `nlog` and `logstart` are read at boot only and left out.
-/

import Xv6.Log.Commit

namespace Xv6.Fs

open Lib

structure Superblock where
  size : Nat
  nblocks : Nat
  ninodes : Nat
  inodestart : Nat
  bmapstart : Nat
  deriving DecidableEq, Repr

namespace Superblock

def IBLOCK (sb : Superblock) (i : Nat) : Nat := i / IPB + sb.inodestart

def BBLOCK (sb : Superblock) (b : Nat) : Nat := b / BPB + sb.bmapstart

/-- The blocks before the data blocks. -/
def nmeta (sb : Superblock) : Nat := sb.size - sb.nblocks

/-- The regions of the disk: inode blocks, then bitmap blocks, then data blocks. Counts
    fit the `int`s the loops of `balloc` and `ialloc` run over. -/
structure Layout (sb : Superblock) : Prop where
  inodes : sb.inodestart + sb.ninodes / IPB < sb.bmapstart
  bitmap : sb.bmapstart + sb.size / BPB < sb.nmeta
  size : sb.size < 2147483648
  ninodes : sb.ninodes < 2147483648

end Superblock

/-! ## struct dinode -/

/-- `struct dinode`; `short`s are `Int16`, `uint`s numbers below 2^32. -/
@[ext] structure Dinode where
  type : Int16
  major : Int16
  minor : Int16
  nlink : Int16
  size : Nat
  addrs : Fin (NDIRECT + 1) → Nat

namespace Dinode

def addr (d : Dinode) (k : Nat) : Nat := if h : k < NDIRECT + 1 then d.addrs ⟨k, h⟩ else 0

def setAddr (d : Dinode) (k a : Nat) : Dinode := { d with addrs := fun j => if j.1 = k then a else d.addrs j }

def setSize (d : Dinode) (n : Nat) : Dinode := { d with size := n }

def setNlink (d : Dinode) (n : Int16) : Dinode := { d with nlink := n }

/-- What `memset` leaves. -/
def blank : Dinode := ⟨0, 0, 0, 0, 0, fun _ => 0⟩

/-- What `ialloc` makes of a free inode. -/
def ofType (type : Int16) : Dinode := { blank with type := type }

/-- The `uint` fields hold what a `uint` can. -/
structure Fits (d : Dinode) : Prop where
  size : d.size < 4294967296
  addrs : ∀ k, d.addr k < 4294967296

@[simp] theorem addr_blank (k : Nat) : blank.addr k = 0 := by simp only [addr, blank]; split <;> rfl

theorem addr_setAddr (d : Dinode) {k : Nat} (a : Nat) (hk : k < NDIRECT + 1) (j : Nat) :
    (d.setAddr k a).addr j = if j = k then a else d.addr j := by
  simp only [addr, setAddr]
  by_cases hj : j < NDIRECT + 1
  · simp only [hj, dif_pos]
  · have hne : j ≠ k := fun e => hj (e ▸ hk)
    simp [hj, hne]

theorem fits_setSize {d : Dinode} {n : Nat} (h : d.Fits) (hn : n < 4294967296) : (d.setSize n).Fits := ⟨hn, h.addrs⟩

theorem fits_setNlink {d : Dinode} (n : Int16) (h : d.Fits) : (d.setNlink n).Fits := ⟨h.size, h.addrs⟩

theorem addrs_ext {d e : Dinode} (h : ∀ k < NDIRECT + 1, d.addr k = e.addr k) : d.addrs = e.addrs := by
  funext k
  have := h k.1 k.2
  simpa [addr, k.2] using this

theorem fits_blank : blank.Fits := ⟨by decide, fun k => by rw [addr_blank]; decide⟩

@[simp] theorem addr_ofType (type : Int16) (k : Nat) : (ofType type).addr k = 0 := addr_blank k

theorem fits_ofType (type : Int16) : (ofType type).Fits := ⟨fits_blank.size, fits_blank.addrs⟩

theorem fits_setAddr {d : Dinode} {k a : Nat} (h : d.Fits) (hk : k < NDIRECT + 1) (ha : a < 4294967296) :
    (d.setAddr k a).Fits := by
  refine ⟨h.size, fun j => ?_⟩
  rw [addr_setAddr _ _ hk]
  split
  · exact ha
  · exact h.addrs j

end Dinode

/-- The two bytes of a `short`. -/
def ofShort (x : Int16) : Nat := x.toBitVec.toNat

def toShort (v : Nat) : Int16 := Int16.ofNat v

theorem toShort_ofShort (x : Int16) : toShort (ofShort x % 256 ^ 2) = x := by
  have h : ofShort x < 65536 := x.toBitVec.isLt
  rw [show (256 : Nat) ^ 2 = 65536 from rfl, Nat.mod_eq_of_lt h]
  simp [toShort, ofShort, Int16.ofNat]

/-- The inode at byte `o` of a block. -/
def getDinode (b : Block) (o : Nat) : Dinode where
  type := toShort (b.getLE o 2)
  major := toShort (b.getLE (o + 2) 2)
  minor := toShort (b.getLE (o + 4) 2)
  nlink := toShort (b.getLE (o + 6) 2)
  size := b.getLE (o + 8) 4
  addrs := fun k => b.getLE (o + 12 + 4 * k.1) 4

/-- Byte `k` of `addrs[]`. -/
def addrByte (d : Dinode) (k : Nat) : UInt8 := Bytes.leByte (d.addr (k / 4)) (k % 4)

/-- The field assignments of `iupdate`, and its `memmove` of `addrs[]`. -/
def putDinode (b : Block) (o : Nat) (d : Dinode) : Block :=
  (((((b.putLE o 2 (ofShort d.type)).putLE (o + 2) 2 (ofShort d.major)).putLE (o + 4) 2 (ofShort d.minor)).putLE
    (o + 6) 2 (ofShort d.nlink)).putLE (o + 8) 4 d.size).splice (o + 12) 52 (addrByte d)

theorem getLE_addrs (b : Block) {o k : Nat} (d : Dinode) (hk : k < NDIRECT + 1) (ho : o + 64 ≤ BSIZE) :
    (b.splice (o + 12) 52 (addrByte d)).getLE (o + 12 + 4 * k) 4 = d.addr k % 256 ^ 4 := by
  have hk' : k < 13 := hk
  apply Bytes.getLE_of_leByte
  intro j hj
  rw [show o + 12 + 4 * k + j = o + 12 + (4 * k + j) by omega, Bytes.get_splice_in _ _ (by omega) (by omega), addrByte,
    show (4 * k + j) / 4 = k by omega, show (4 * k + j) % 4 = j by omega]

/-- What `iupdate` stored is what `ilock` loads. -/
theorem getDinode_putDinode (b : Block) {o : Nat} {d : Dinode} (ho : o + 64 ≤ BSIZE) (hd : d.Fits) :
    getDinode (putDinode b o d) o = d := by
  have h4 : (256 : Nat) ^ 4 = 4294967296 := rfl
  ext1
  case type | major | minor | nlink =>
    simp only [getDinode, putDinode]
    rw [Bytes.getLE_splice_out _ _ (by omega)]
    repeat rw [Bytes.getLE_putLE_out _ (by omega)]
    rw [Bytes.getLE_putLE _ (by omega), toShort_ofShort]
  case size =>
    simp only [getDinode, putDinode]
    rw [Bytes.getLE_splice_out _ _ (by omega), Bytes.getLE_putLE _ (by omega), h4, Nat.mod_eq_of_lt hd.size]
  case addrs =>
    apply Dinode.addrs_ext
    intro k hk
    simp only [Dinode.addr, hk, dif_pos, getDinode, putDinode]
    rw [getLE_addrs _ _ hk ho, h4, Nat.mod_eq_of_lt (hd.addrs k), Dinode.addr, dif_pos hk]

/-- `ialloc` clears the inode and sets its type. -/
theorem getDinode_ialloc (b : Block) {o : Nat} (type : Int16) (ho : o + 64 ≤ BSIZE) :
    getDinode ((b.splice o 64 fun _ => 0).putLE o 2 (ofShort type)) o = Dinode.ofType type := by
  have hz : ∀ off w, o ≤ off → off + w ≤ o + 64 → (b.splice o 64 fun _ => 0).getLE off w = 0 := fun off w h1 h2 => by
    rw [← Bytes.getLE_zero (n := BSIZE) off w]
    apply Bytes.getLE_congr
    intro i h3 h4
    rw [show i = o + (i - o) by omega, Bytes.get_splice_in _ _ (by omega) (by omega), Bytes.get_zero]
  have hk : ∀ k : Fin (NDIRECT + 1), k.1 < 13 := fun k => k.2
  simp only [getDinode, Dinode.ofType, Dinode.blank]
  rw [Bytes.getLE_putLE _ (by omega), toShort_ofShort]
  repeat rw [Bytes.getLE_putLE_out _ (by omega), hz _ _ (by omega) (by omega)]
  congr 1
  funext k
  have := hk k
  rw [Bytes.getLE_putLE_out _ (by omega), hz _ _ (by omega) (by omega)]

/-- An inode in another slot is not disturbed. -/
theorem getDinode_congr {b b' : Block} {o : Nat} (h : ∀ i, o ≤ i → i < o + 64 → b.get i = b'.get i) :
    getDinode b o = getDinode b' o := by
  have hg : ∀ off w, o ≤ off → off + w ≤ o + 64 → b.getLE off w = b'.getLE off w := fun off w h1 h2 =>
    Bytes.getLE_congr w off fun i _ _ => h i (by omega) (by omega)
  simp only [getDinode]
  rw [hg o 2 (by omega) (by omega), hg (o + 2) 2 (by omega) (by omega), hg (o + 4) 2 (by omega) (by omega),
    hg (o + 6) 2 (by omega) (by omega), hg (o + 8) 4 (by omega) (by omega)]
  congr 1
  funext k
  have : k.1 < 13 := k.2
  exact hg _ 4 (by omega) (by omega)

theorem get_putDinode_out (b : Block) {o i : Nat} (d : Dinode) (h : i < o ∨ o + 64 ≤ i) :
    (putDinode b o d).get i = b.get i := by
  simp only [putDinode, Bytes.putLE]
  repeat rw [Bytes.get_splice_out _ _ (by omega)]

end Xv6.Fs
