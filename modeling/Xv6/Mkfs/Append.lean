/-
  Xv6.Mkfs.Append — `iappend` appends (`mkfs/mkfs.c`: `iappend`, `ialloc`, `winode`).

  `Good s V dirty`: the image of `s` holds the volume `V`, with the blocks below
  `freeblock` marked used, and every write so far went where it belongs; inode `dirty` is in
  memory and its sector not up to date. `Tight`: an inode has the blocks its size asks for
  and no other, so the number of blocks that an append takes is a difference of `need`.

  The inode sectors have room for `cap` inodes, a few more than NINODES, and `mkfs` uses
  them without noticing: the volume is looked at with `cap` inodes.
-/

import Xv6.Mkfs.Mkfs
import Xv6.Fs.ContentProofs
import Mathlib.Data.List.GetD

namespace Xv6.Mkfs

open Lib Fs Vol

def cap : Nat := ninodeblocks * IPB

def wide : Superblock := { sb with ninodes := cap }

structure Good (s : St) (V : Vol) (dirty : Option Nat) : Prop where
  len : s.len = FSSIZE
  /-- Before the inodes there is only the superblock. -/
  head : ∀ b < sb.inodestart, s.img b = if b = 1 then sbBlock else Bytes.zero
  ino : ∀ i < cap, dirty ≠ some i → getDinode (s.img (sb.IBLOCK i)) (ioff i) = V.ino i
  blk : ∀ b, nmeta ≤ b → s.img b = V.blk b
  used : ∀ b, V.used b = decide (b < s.freeblock)
  low : nmeta ≤ s.freeblock
  high : s.freeblock ≤ FSSIZE
  zero : ∀ b, s.freeblock ≤ b → V.blk b = Bytes.zero
  sound : Sound wide V
  fits : ∀ i, (V.ino i).Fits
  live : ∀ i < cap, (V.ino i).type ≠ 0 ↔ 1 ≤ i ∧ i < s.freeinode
  parts : ∀ w ∈ s.writes, w.1.Has w.2

structure Tight (V : Vol) (i : Nat) : Prop where
  max : (V.ino i).size ≤ MAXFILE * BSIZE
  addr : ∀ bn < MAXFILE, V.addr i bn ≠ 0 ↔ bn * BSIZE < (V.ino i).size
  ind : (V.ino i).addr NDIRECT ≠ 0 ↔ NDIRECT * BSIZE < (V.ino i).size

/-- The blocks of a file: its data blocks and the indirect one. -/
def need (size : Nat) : Nat := (size + (BSIZE - 1)) / BSIZE + if NDIRECT * BSIZE < size then 1 else 0

theorem need_mono {a b : Nat} (h : a ≤ b) : need a ≤ need b := by
  unfold need
  have : (a + (BSIZE - 1)) / BSIZE ≤ (b + (BSIZE - 1)) / BSIZE := Nat.div_le_div_right (by omega)
  split <;> split <;> omega

/-- The blocks one round of `iappend`'s loop takes. -/
theorem need_step {off n : Nat} (h0 : 0 < n) (h1 : n ≤ (off / BSIZE + 1) * BSIZE - off) :
    need (off + n) = need off + (if off / BSIZE * BSIZE < off then 0 else 1) +
      if off = NDIRECT * BSIZE then 1 else 0 := by
  unfold need
  split <;> split <;> split <;> split <;> simp only [BSIZE, NDIRECT] at * <;> omega

variable {Q : Unit → St → Prop}

@[simp] theorem wp_wsect {E : Err → Prop} {part : Part} {sec : Nat} {buf : Block} {s : St} :
    wp (wsect part sec buf) Q E s =
      Q () { s with img := upd s.img sec buf, len := max s.len (sec + 1), writes := s.writes ++ [(part, sec)] } := rfl

section

variable {E : Err → Prop} {s t : St} {V V' : Vol} {dirty : Option Nat} {i : Nat}

variable {sec b k : Nat} {d : Dinode} {p : List UInt8}

theorem wp_rsect {Q : Block → St → Prop} (h : s.len = FSSIZE) (hs : sec < FSSIZE) (hq : Q (s.img sec) s) :
    wp (rsect sec) Q E s := by
  unfold rsect
  rw [wp_bind, wp_get, h, if_pos hs]
  exact hq

/-- Past the end of the image `rsect` dies. -/
theorem wp_rsect_past {Q : Block → St → Prop} (h : s.len = FSSIZE) (hs : FSSIZE ≤ sec) (he : E (.die "read")) :
    wp (rsect sec) Q E s := by
  unfold rsect
  rw [wp_bind, wp_get, if_neg (by omega)]
  exact he

/-! ## The sectors of the parts -/

theorem iblock_has {i : Nat} (h : i < cap) : Part.Has .inode (sb.IBLOCK i) := by
  have h' : i < 208 := h
  show 33 ≤ i / 16 + 33 ∧ i / 16 + 33 < 46
  omega

theorem iblock_low {i : Nat} (h : i < cap) : sb.IBLOCK i < nmeta := by
  have h1 : sb.IBLOCK i < 46 := (iblock_has h).2
  have h2 : nmeta = 47 := rfl
  omega

theorem head_low (h : b < sb.inodestart) : b < nmeta := Nat.lt_trans h (by decide)

theorem good_live (h : Good s V dirty) (hc : i < cap) : Live wide V i ↔ 1 ≤ i ∧ i < s.freeinode := by
  have := h.live i hc
  exact ⟨fun hl => this.mp hl.2, fun hl => ⟨hc, this.mpr hl⟩⟩

/-- A block that an inode holds is a data sector below `freeblock`. -/
theorem good_holds (h : Good s V dirty) (hb : Holds wide V i k b) : nmeta ≤ b ∧ b < s.freeblock := by
  have h1 := h.sound.marked _ _ _ hb
  rw [h.used, decide_eq_true_eq] at h1
  exact ⟨(h.sound.range _ _ _ hb).1, h1⟩

theorem good_has (h : Good s V dirty) (hb : Holds wide V i k b) : Part.Has .data b := by
  obtain ⟨h1, h2⟩ := good_holds h hb
  exact ⟨h1, Nat.lt_of_lt_of_le h2 h.high⟩

theorem parts_cons {part : Part} (h : Good s V dirty) (hp : part.Has sec) :
    ∀ w ∈ s.writes ++ [(part, sec)], w.1.Has w.2 := by
  intro w hw
  rcases List.mem_append.mp hw with hw | hw
  · exact h.parts w hw
  · rw [List.mem_singleton.mp hw]
    exact hp

theorem good_dirty (h : Good s V none) : Good s V (some i) :=
  ⟨h.len, h.head, fun j hj _ => h.ino j hj (Option.some_ne_none j).symm, h.blk, h.used, h.low,
    h.high, h.zero, h.sound, h.fits, h.live, h.parts⟩

theorem fits_upd {f : Nat → Dinode} (h : ∀ j, (f j).Fits) (hd : d.Fits) (j : Nat) : (upd f i d j).Fits := by
  by_cases e : j = i
  · rw [e, upd_same]
    exact hd
  · rw [upd_ne _ _ e]
    exact h j

/-! ## One change -/

section

variable (h : Good s V (some i))

include h

/-- The header of the inode in memory changes. -/
theorem good_setIno (ha : d.addrs = (V.ino i).addrs) (ht : d.type = (V.ino i).type) (hf : d.Fits) :
    Good s (V.setIno i d) (some i) where
  len := h.len
  head := h.head
  ino := fun j hj hd => by
    have hne : j ≠ i := fun e => hd (by rw [e])
    rw [h.ino j hj hd]
    exact (upd_ne _ _ hne).symm
  blk := h.blk
  used := h.used
  low := h.low
  high := h.high
  zero := h.zero
  sound := setIno_sound ha ht h.sound
  fits := fits_upd h.fits hf
  live := fun j hj => by rw [setIno_type ht]; exact h.live j hj
  parts := h.parts

theorem good_winode (hc : i < cap) (hlen : t.len = FSSIZE)
    (himg : t.img = upd s.img (sb.IBLOCK i) (putDinode (s.img (sb.IBLOCK i)) (ioff i) (V.ino i)))
    (hfi : t.freeinode = s.freeinode) (hfb : t.freeblock = s.freeblock)
    (hw : t.writes = s.writes ++ [(.inode, sb.IBLOCK i)]) :
    Good t V none where
  len := hlen
  head := fun b hb => by
    rw [himg, upd_ne _ _ (by have := (iblock_has hc).1; omega)]
    exact h.head b hb
  ino := fun j hj _ => by
    rw [himg]
    by_cases e : j = i
    · subst e
      rw [upd_same]
      refine getDinode_putDinode _ ?_ (h.fits j)
      have := Nat.mod_lt j (show 0 < IPB by decide)
      simp only [ioff, IPB, BSIZE] at *
      omega
    · have hj' := h.ino j hj fun he => e (Option.some.inj he).symm
      by_cases hb : sb.IBLOCK j = sb.IBLOCK i
      · rw [hb, upd_same, ← hj', hb]
        refine getDinode_congr fun x h1 h2 => get_putDinode_out _ _ ?_
        -- another slot of the same sector
        have hdiv : j / IPB = i / IPB := Nat.add_right_cancel hb
        simp only [ioff, IPB, BSIZE] at *
        omega
      · rw [upd_ne _ _ hb]
        exact hj'
  blk := fun b hb => by
    rw [himg, upd_ne _ _ (by have := iblock_low hc; omega)]
    exact h.blk b hb
  used := by rw [hfb]; exact h.used
  low := by rw [hfb]; exact h.low
  high := by rw [hfb]; exact h.high
  zero := by rw [hfb]; exact h.zero
  sound := h.sound
  fits := h.fits
  live := by rw [hfi]; exact h.live
  parts := by rw [hw]; exact parts_cons h (iblock_has hc)

/-- Block `freeblock` goes to a slot in the inode. -/
theorem good_addr (hk : k < NDIRECT + 1) (h0 : V.slot i k = 0) (hi : Live wide V i)
    (hroom : s.freeblock < FSSIZE) :
    Good { s with freeblock := s.freeblock + 1 } ((V.take s.freeblock).setIno i ((V.ino i).setAddr k s.freeblock))
      (some i) ∧
      Attached wide V ((V.take s.freeblock).setIno i ((V.ino i).setAddr k s.freeblock)) i k s.freeblock := by
  have hu : V.used s.freeblock = false := by rw [h.used]; exact decide_eq_false (Nat.lt_irrefl _)
  have hatt := attach_addr h.sound hk hu h0
  have hpos : 0 < s.freeblock := Nat.lt_of_lt_of_le (by decide) h.low
  refine ⟨⟨h.len, h.head, fun j hj hd => ?_, fun b hb => ?_, fun b => ?_, Nat.le_succ_of_le h.low,
    hroom, fun b hb => ?_, ?_, fun j => ?_, fun j hj => ?_, h.parts⟩, hatt⟩
  · have hne : j ≠ i := fun e => hd (by rw [e])
    rw [h.ino j hj hd]
    exact (upd_ne _ _ hne).symm
  · show s.img b = upd V.blk s.freeblock Bytes.zero b
    by_cases e : b = s.freeblock
    · rw [e, upd_same, h.blk _ h.low, h.zero _ (Nat.le_refl _)]
    · rw [upd_ne _ _ e, h.blk b hb]
  · show upd V.used s.freeblock true b = decide (b < s.freeblock + 1)
    by_cases e : b = s.freeblock
    · rw [e, upd_same]
      exact (decide_eq_true (Nat.lt_succ_self _)).symm
    · rw [upd_ne _ _ e, h.used]
      exact decide_eq_decide.mpr (by omega)
  · show upd V.blk s.freeblock Bytes.zero b = Bytes.zero
    rw [upd_ne _ _ (by show b ≠ s.freeblock; have : s.freeblock + 1 ≤ b := hb; omega)]
    exact h.zero b (Nat.le_of_succ_le hb)
  · exact attached_sound hatt h.sound hi h0 hu hroom (by omega)
  · have : FSSIZE < 4294967296 := by decide
    exact fits_upd h.fits (Dinode.fits_setAddr (h.fits i) hk (by omega)) j
  · rw [attached_type hatt]
    exact h.live j hj

theorem good_entry (hk : ¬ k < NDIRECT + 1) (hk' : k - (NDIRECT + 1) < NINDIRECT)
    (h12 : (V.ino i).addr NDIRECT ≠ 0) (h0 : V.slot i k = 0) (hi : Live wide V i)
    (hroom : s.freeblock < FSSIZE) (hlen : t.len = FSSIZE) (hfi : t.freeinode = s.freeinode)
    (hfb : t.freeblock = s.freeblock + 1)
    (himg : t.img = upd s.img ((V.ino i).addr NDIRECT)
      ((s.img ((V.ino i).addr NDIRECT)).putLE (4 * (k - (NDIRECT + 1))) 4 s.freeblock))
    (hw : t.writes = s.writes ++ [(.data, (V.ino i).addr NDIRECT)]) :
    ∃ V', Good t V' (some i) ∧ Attached wide V V' i k s.freeblock ∧ V'.ino = V.ino := by
  have hu : V.used s.freeblock = false := by rw [h.used]; exact decide_eq_false (Nat.lt_irrefl _)
  have hb : s.freeblock < 4294967296 := by
    have : FSSIZE < 4294967296 := by decide
    omega
  have hatt := attach_entry h.sound hi hk hk' hu hb h12
  have hind := holds_ind hi h12
  obtain ⟨hlow, hused⟩ := good_holds h hind
  refine ⟨(V.take s.freeblock).write ((V.ino i).addr NDIRECT)
    ((V.blk ((V.ino i).addr NDIRECT)).putLE (4 * (k - (NDIRECT + 1))) 4 s.freeblock),
    ⟨hlen, fun b hb => ?_, fun j hj hd => ?_, fun b hb => ?_, fun b => ?_, ?_, ?_, fun b hb => ?_,
      ?_, h.fits, ?_, ?_⟩, hatt, rfl⟩
  · rw [himg, upd_ne _ _ (by have := head_low hb; omega)]
    exact h.head b hb
  · rw [himg, upd_ne _ _ (by have := iblock_low hj; omega)]
    exact h.ino j hj hd
  · show t.img b = upd (upd V.blk s.freeblock Bytes.zero) _ _ b
    rw [himg]
    by_cases e : b = (V.ino i).addr NDIRECT
    · rw [e, upd_same, upd_same, h.blk _ hlow]
    · rw [upd_ne _ _ e, upd_ne _ _ e]
      by_cases e' : b = s.freeblock
      · rw [e', upd_same, h.blk _ h.low, h.zero _ (Nat.le_refl _)]
      · rw [upd_ne _ _ e', h.blk b hb]
  · show upd V.used s.freeblock true b = decide (b < t.freeblock)
    rw [hfb]
    by_cases e : b = s.freeblock
    · rw [e, upd_same]
      exact (decide_eq_true (Nat.lt_succ_self _)).symm
    · rw [upd_ne _ _ e, h.used]
      exact decide_eq_decide.mpr (by omega)
  · rw [hfb]
    exact Nat.le_succ_of_le h.low
  · rw [hfb]
    exact hroom
  · show upd (upd V.blk s.freeblock Bytes.zero) _ _ b = Bytes.zero
    rw [upd_ne _ _ (by omega), upd_ne _ _ (by omega)]
    exact h.zero b (by omega)
  · exact attached_sound hatt h.sound hi h0 hu hroom (by omega)
  · rw [hfi]
    exact h.live
  · rw [hw]
    exact parts_cons h (good_has h hind)

theorem good_write (hi : Live wide V i) {bn : Nat} (h0 : V.addr i bn ≠ 0) (d : Block) :
    Good { s with
      img := upd s.img (V.addr i bn) d
      len := max s.len (V.addr i bn + 1)
      writes := s.writes ++ [(.data, V.addr i bn)] }
      (V.write (V.addr i bn) d) (some i) := by
  have hd : Holds wide V i (slotOf bn) (V.addr i bn) := ⟨hi, rfl, h0⟩
  obtain ⟨hlow, hused⟩ := good_holds h hd
  have hhigh := h.high
  refine ⟨?_, fun b hb => ?_, fun j hj hne => ?_, fun b hb => ?_, h.used, h.low, h.high,
    fun b hb => ?_, write_sound d h.sound hi h0, h.fits, h.live,
    parts_cons h (good_has h hd)⟩
  · show max s.len _ = FSSIZE
    rw [h.len]
    omega
  · show upd s.img _ d b = _
    rw [upd_ne _ _ (by have := head_low hb; omega)]
    exact h.head b hb
  · show getDinode (upd s.img _ d _) _ = _
    rw [upd_ne _ _ (by have := iblock_low hj; omega)]
    exact h.ino j hj hne
  · show upd s.img _ d b = upd V.blk _ d b
    by_cases e : b = V.addr i bn
    · rw [e, upd_same, upd_same]
    · rw [upd_ne _ _ e, upd_ne _ _ e]
      exact h.blk b hb
  · show upd V.blk _ d b = Bytes.zero
    rw [upd_ne _ _ (by show b ≠ _; have : s.freeblock ≤ b := hb; omega)]
    exact h.zero b hb

end

/-! ## A block for the next bytes -/

/-- The blocks that block index `fbn` still lacks. -/
def lacks (V : Vol) (i fbn : Nat) : Nat :=
  (if V.addr i fbn = 0 then 1 else 0) + if ¬ fbn < NDIRECT ∧ (V.ino i).addr NDIRECT = 0 then 1 else 0

/-- Block index `fbn` of inode `i` has block `x` now. -/
structure Mapped (s : St) (V : Vol) (i fbn x : Nat) (t : St) (V' : Vol) : Prop where
  good : Good t V' (some i)
  ext : Ext wide i V V'
  raw : ∀ y, V'.raw i y = V.raw i y
  at_ : V'.addr i fbn = x
  ne : x ≠ 0
  slot : ∀ k, k ≠ slotOf fbn → (k ≠ NDIRECT ∨ fbn < NDIRECT) → V'.slot i k = V.slot i k
  ind : ¬ fbn < NDIRECT → (V'.ino i).addr NDIRECT ≠ 0
  inodes : t.freeinode = s.freeinode
  free : t.freeblock = s.freeblock + lacks V i fbn

variable {din : Dinode} {off fbn : Nat}

theorem ext_good (h : Good s V (some i)) (hi : Live wide V i) (h0 : V.slot i k = 0) (hroom : s.freeblock < FSSIZE)
    (ha : Attached wide V V' i k s.freeblock) : Ext wide i V V' := by
  have hpos : 0 < s.freeblock := Nat.lt_of_lt_of_le (by decide) h.low
  have hu : V.used s.freeblock = false := by rw [h.used]; exact decide_eq_false (Nat.lt_irrefl _)
  exact ext_attach ha h.sound hi h0 hu hroom (by omega)

theorem addrOf_spec (h : Good s V (some i)) (hi : Live wide V i) (hin : V.ino i = din.setSize off)
    (hk : k < NDIRECT + 1) {Q : Dinode → St → Prop} (hthere : V.slot i k ≠ 0 → Q din s)
    (hnew : V.slot i k = 0 → s.freeblock < FSSIZE → ∀ t V', Good t V' (some i) →
      Attached wide V V' i k s.freeblock → t.freeinode = s.freeinode → t.freeblock = s.freeblock + 1 →
      V'.ino i = (din.setAddr k s.freeblock).setSize off → Q (din.setAddr k s.freeblock) t)
    (hfull : V.slot i k = 0 → FSSIZE ≤ s.freeblock → ∀ t, t.len = FSSIZE → Q (din.setAddr k s.freeblock) t) :
    wp (addrOf din k) Q E s := by
  have hslot : V.slot i k = din.addr k := by
    rw [slot_low _ _ hk, hin]
    rfl
  unfold addrOf
  by_cases h0 : din.addr k = 0
  · rw [if_pos h0]
    rw [h0] at hslot
    show Q (din.setAddr k s.freeblock) { s with freeblock := s.freeblock + 1 }
    by_cases hroom : s.freeblock < FSSIZE
    · obtain ⟨hg, ha⟩ := good_addr h hk hslot hi hroom
      refine hnew hslot hroom _ _ hg ha rfl rfl ?_
      show upd V.ino i _ i = _
      rw [upd_same, hin]
      rfl
    · exact hfull hslot (by omega) _ h.len
  · rw [if_neg h0]
    exact hthere (by rw [hslot]; exact h0)

theorem mapped_there (h : Good s V (some i)) (h0 : V.addr i fbn ≠ 0)
    (hind : ¬ fbn < NDIRECT → (V.ino i).addr NDIRECT ≠ 0) :
    Mapped s V i fbn (V.addr i fbn) s V where
  good := h
  ext := ext_refl h.sound
  raw := fun _ => rfl
  at_ := rfl
  ne := h0
  slot := fun _ _ _ => rfl
  ind := hind
  inodes := rfl
  free := by
    unfold lacks
    rw [if_neg h0, if_neg fun hn => hind hn.1 hn.2]
    rfl

theorem slot_addr {bn : Nat} (hb : ¬ bn < NDIRECT) (h12 : (V.ino i).addr NDIRECT ≠ 0) :
    V.addr i bn = entry (V.blk ((V.ino i).addr NDIRECT)) (bn - NDIRECT) := by
  rw [Vol.addr, slotOf, if_neg hb, slot_high _ _ (by omega), if_neg h12,
    show bn + 1 - (NDIRECT + 1) = bn - NDIRECT by omega]

theorem entryOf_spec (h : Good s V (some i)) (hi : Live wide V i) (hb : ¬ fbn < NDIRECT) (hmax : fbn < MAXFILE)
    (h12 : (V.ino i).addr NDIRECT ≠ 0) {Q : Nat → St → Prop}
    (hq : ∀ x t V', Mapped s V i fbn x t V' → V'.ino = V.ino → Q x t)
    (hfull : V.addr i fbn = 0 → FSSIZE ≤ s.freeblock → ∀ x t, FSSIZE ≤ x → t.len = FSSIZE → Q x t) :
    wp (entryOf ((V.ino i).addr NDIRECT) (fbn - NDIRECT)) Q E s := by
  obtain ⟨hlow, hused⟩ := good_holds h (holds_ind hi h12)
  have hhigh := h.high
  have haddr := slot_addr hb h12
  have hj : fbn - NDIRECT < NINDIRECT := by simp only [MAXFILE] at hmax; omega
  have hfit : 4 * (fbn - NDIRECT) + 4 ≤ BSIZE := by
    have : fbn - NDIRECT < 256 := hj
    simp only [BSIZE]
    omega
  have hfbl : s.freeblock < 4294967296 := by
    have : FSSIZE < 4294967296 := by decide
    omega
  have hnew : entry ((V.blk ((V.ino i).addr NDIRECT)).putLE (4 * (fbn - NDIRECT)) 4 s.freeblock) (fbn - NDIRECT) =
      s.freeblock := by
    rw [entry, Bytes.getLE_putLE _ hfit]
    exact Nat.mod_eq_of_lt hfbl
  refine wp_then (wp_rsect h.len (by omega) ?_)
  rw [wp_ite, h.blk _ hlow, ← haddr]
  by_cases h0 : V.addr i fbn = 0
  · rw [if_pos h0]
    simp only [nextBlock, wp_bind, wp_get, wp_set, wp_pure, wp_wsect]
    rw [hnew]
    have hq' (u : St) (hlen : u.len = max s.len ((V.ino i).addr NDIRECT + 1)) (hfi : u.freeinode = s.freeinode)
        (hfb : u.freeblock = s.freeblock + 1) (himg : u.img = upd s.img ((V.ino i).addr NDIRECT)
          ((V.blk ((V.ino i).addr NDIRECT)).putLE (4 * (fbn - NDIRECT)) 4 s.freeblock))
        (hw : u.writes = s.writes ++ [(.data, (V.ino i).addr NDIRECT)]) : Q s.freeblock u := by
      have hlen' : u.len = FSSIZE := by
        rw [hlen, h.len]
        omega
      by_cases hroom : s.freeblock < FSSIZE
      · have hk : slotOf fbn - (NDIRECT + 1) = fbn - NDIRECT := by
          rw [slotOf, if_neg hb]
          omega
        have hkge : ¬ slotOf fbn < NDIRECT + 1 := by
          rw [slotOf, if_neg hb]
          omega
        obtain ⟨V', hg, ha, hino⟩ := good_entry h hkge (by rw [hk]; exact hj) h12 h0 hi hroom hlen' hfi hfb
          (by rw [hk, h.blk _ hlow]; exact himg) hw
        refine hq s.freeblock _ V' ⟨hg, ext_good h hi h0 hroom ha, attached_raw ha h0 hi,
          ?_, ?_, fun k hk _ => ?_, fun _ => ?_, hfi, ?_⟩ hino
        · rw [Vol.addr, ha.slot i _ hi, if_pos ⟨rfl, rfl⟩]
        · omega
        · rw [ha.slot i k hi, if_neg fun e => hk e.2]
        · rw [hino]
          exact h12
        · unfold lacks
          rw [hfb, if_pos h0, if_neg fun hn => h12 hn.2]
      · exact hfull h0 (by omega) _ _ (by omega) hlen'
    exact hq' _ rfl rfl rfl rfl rfl
  · rw [if_neg h0]
    exact hq _ _ V (mapped_there h h0 fun _ => h12) rfl

theorem blockOf_spec (h : Good s V (some i)) (hi : Live wide V i) (hin : V.ino i = din.setSize off)
    (hmax : fbn < MAXFILE) {Q : Dinode × Nat → St → Prop}
    (hdie : FSSIZE < s.freeblock + lacks V i fbn → E (.die "read"))
    (hq : ∀ din' x t V', Mapped s V i fbn x t V' → V'.ino i = din'.setSize off → Q (din', x) t)
    (hfull : FSSIZE < s.freeblock + lacks V i fbn → ∀ din' x t, FSSIZE ≤ x → t.len = FSSIZE → Q (din', x) t) :
    wp (blockOf din fbn) Q E s := by
  have hpos : 0 < s.freeblock := Nat.lt_of_lt_of_le (by decide) h.low
  unfold blockOf
  by_cases hb : fbn < NDIRECT
  · rw [if_pos hb, wp_bind]
    have hk : fbn < NDIRECT + 1 := by omega
    have haddr : V.addr i fbn = V.slot i fbn := by rw [Vol.addr, slotOf, if_pos hb]
    have hset : (din.setAddr fbn s.freeblock).addr fbn = s.freeblock := by rw [Dinode.addr_setAddr _ _ hk, if_pos rfl]
    refine addrOf_spec h hi hin hk (fun h0 => ?_) (fun h0 hroom t V' hg ha hfi hfb hino => ?_) fun h0 hroom t hlen => ?_
    · have hx : V.addr i fbn = din.addr fbn := by
        rw [haddr, slot_low _ _ hk, hin]
        rfl
      rw [← haddr, hx] at h0
      refine hq _ _ s V ?_ hin
      rw [← hx] at h0 ⊢
      exact mapped_there h h0 fun hn => absurd hb hn
    · rw [wp_pure, hset]
      refine hq _ _ t V' ⟨hg, ext_good h hi h0 hroom ha, attached_raw ha h0 hi, ?_, by omega,
        fun k hk' _ => ?_, fun hn => absurd hb hn,
        hfi, ?_⟩ hino
      · rw [Vol.addr, slotOf, if_pos hb, ha.slot i _ hi, if_pos ⟨rfl, rfl⟩]
      · rw [slotOf, if_pos hb] at hk'
        rw [ha.slot i k hi, if_neg fun e => hk' e.2]
      · rw [hfb, lacks, if_pos (haddr.trans h0), if_neg fun hn => hn.1 hb]
    · rw [wp_pure, hset]
      refine hfull ?_ _ _ t hroom hlen
      rw [lacks, if_pos (haddr.trans h0)]
      omega
  · rw [if_neg hb, wp_bind]
    have hk : NDIRECT < NDIRECT + 1 := Nat.lt_succ_self _
    have hslot : V.slot i NDIRECT = (V.ino i).addr NDIRECT := slot_low _ _ hk
    have hset : (din.setAddr NDIRECT s.freeblock).addr NDIRECT = s.freeblock := by
      rw [Dinode.addr_setAddr _ _ hk, if_pos rfl]
    have hnone (h0 : (V.ino i).addr NDIRECT = 0) : V.addr i fbn = 0 := by
      rw [Vol.addr, slotOf, if_neg hb, slot_high _ _ (by omega), if_pos h0]
    refine addrOf_spec h hi hin hk (fun h0 => ?_) (fun h0 hroom t V' hg ha hfi hfb hino => ?_) fun h0 hroom t hlen => ?_
    · have hlack : lacks V i fbn = if V.addr i fbn = 0 then 1 else 0 := by
        have hn : ¬ (¬ fbn < NDIRECT ∧ (V.ino i).addr NDIRECT = 0) := fun hn => h0 hn.2
        rw [lacks, if_neg hn, Nat.add_zero]
      have hd : din.addr NDIRECT = (V.ino i).addr NDIRECT := by
        rw [hin]
        rfl
      rw [wp_bind, hd]
      refine entryOf_spec h hi hb hmax h0 (fun x t V' hm hino => ?_) fun hz hroom x t hx hlen => ?_
      · exact hq _ _ t V' hm (by rw [hino]; exact hin)
      · exact hfull (by rw [hlack, if_pos hz]; omega) _ _ t hx hlen
    · -- the indirect block is new, and so the entry
      have hz := hnone (hslot.symm.trans h0)
      have hlack : lacks V i fbn = 2 := by
        unfold lacks
        rw [if_pos hz, if_pos ⟨hb, hslot.symm.trans h0⟩]
      have hd : (din.setAddr NDIRECT s.freeblock).addr NDIRECT = (V'.ino i).addr NDIRECT := by
        rw [hino]
        rfl
      have h12 : (V'.ino i).addr NDIRECT ≠ 0 := by
        omega
      have hlive : Live wide V' i := (attached_live ha i).mpr hi
      have haddr : V'.addr i fbn = V.addr i fbn := by
        rw [Vol.addr, ha.slot i _ hi, if_neg fun e => slotOf_ne fbn e.2]; rfl
      have hlack' : lacks V' i fbn = 1 := by
        unfold lacks
        rw [if_pos (haddr.trans hz), if_neg fun hn => h12 hn.2]
      have hext := ext_good h hi h0 hroom ha
      rw [wp_bind, hd]
      refine entryOf_spec hg hlive hb hmax h12 (fun x u V'' hm hino' => ?_) fun _ hroom' x u hx hlen => ?_
      · refine hq _ _ u V'' ⟨hm.good, ext_trans hext hm.ext, fun y => (hm.raw y).trans (attached_raw ha h0 hi y),
          hm.at_, hm.ne,
          fun k hk' hk'' => ?_, hm.ind, hm.inodes.trans hfi, ?_⟩ (by rw [hino']; exact hino)
        · have hkn : k ≠ NDIRECT := hk''.resolve_right hb
          rw [hm.slot k hk' hk'', ha.slot i k hi, if_neg fun e => hkn e.2]
        · rw [hm.free, hlack', hfb, hlack]
      · exact hfull (by rw [hlack]; omega) _ _ u hx hlen
    · rw [wp_bind, hset]
      refine wp_then (wp_rsect_past hlen hroom (hdie ?_))
      have hn : ¬ fbn < NDIRECT ∧ (V.ino i).addr NDIRECT = 0 := ⟨hb, hslot.symm.trans h0⟩
      rw [lacks, if_pos hn]
      omega

/-! ## Appending -/

/-- The bytes `p` were appended to inode `i`, whose size was `off`. -/
structure Appended (s : St) (V : Vol) (i off : Nat) (p : List UInt8) (t : St) (V' : Vol) : Prop where
  tight : ∀ j, Live wide V' j → Tight V' j
  ino : ∀ j, j ≠ i → V'.ino j = V.ino j
  hdr : V'.ino i = { V.ino i with size := off + p.length, addrs := (V'.ino i).addrs }
  raw : ∀ j, j ≠ i → Live wide V j → ∀ x, V'.raw j x = V.raw j x
  byte : ∀ x, V'.raw i x = if off ≤ x ∧ x < off + p.length then p.getD (x - off) 0 else V.raw i x
  inodes : t.freeinode = s.freeinode
  free : t.freeblock + need off = s.freeblock + need (off + p.length)

theorem appended_type (h : Appended s V i off p t V') (j : Nat) : (V'.ino j).type = (V.ino j).type := by
  by_cases e : j = i
  · rw [e, h.hdr]
  · rw [h.ino j e]

theorem appended_live (h : Appended s V i off p t V') (j : Nat) : Live wide V' j ↔ Live wide V j := by
  simp only [Live, appended_type h j]

theorem appended_nil (ht : ∀ j, Live wide V j → Tight V j) (hoff : (V.ino i).size = off) :
    Appended s V i off [] s V where
  tight := ht
  ino := fun _ _ => rfl
  hdr := by rw [List.length_nil, Nat.add_zero, ← hoff]
  raw := fun _ _ _ _ => rfl
  byte := fun x => by rw [if_neg (by rw [List.length_nil]; omega)]
  inodes := rfl
  free := rfl

theorem appended_trans {u : St} {V'' : Vol} {q : List UInt8} (h : Appended s V i off p t V')
    (h' : Appended t V' i (off + p.length) q u V'') : Appended s V i off (p ++ q) u V'' where
  tight := h'.tight
  ino := fun j hj => (h'.ino j hj).trans (h.ino j hj)
  hdr := by rw [h'.hdr, h.hdr, List.length_append, Nat.add_assoc]
  raw := fun j hj hl x => (h'.raw j hj ((appended_live h j).mpr hl) x).trans (h.raw j hj hl x)
  byte := fun x => by
    rw [h'.byte, h.byte, List.length_append]
    by_cases h1 : off + p.length ≤ x ∧ x < off + p.length + q.length
    · rw [if_pos h1, if_pos (by omega), List.getD_append_right _ _ _ _ (by omega)]
      congr 1
      omega
    · rw [if_neg h1]
      by_cases h2 : off ≤ x ∧ x < off + p.length
      · rw [if_pos h2, if_pos (by omega), List.getD_append _ _ _ _ (by omega)]
      · rw [if_neg h2, if_neg (by omega)]
  inodes := h'.inodes.trans h.inodes
  free := by
    have h1 := h.free
    have h2 := h'.free
    rw [List.length_append, ← Nat.add_assoc]
    omega

theorem tight_lacks (ht : Tight V i) (hoff : (V.ino i).size = off) (hmax : off / BSIZE < MAXFILE) {n : Nat} (h0 : 0 < n)
    (h1 : n ≤ (off / BSIZE + 1) * BSIZE - off) : need (off + n) = need off + lacks V i (off / BSIZE) := by
  have ha := ht.addr _ hmax
  have hi := ht.ind
  rw [hoff] at ha hi
  rw [need_step h0 h1, Nat.add_assoc]
  congr 2
  · by_cases hz : V.addr i (off / BSIZE) = 0
    · rw [if_pos hz, if_neg fun hlt => ha.mpr hlt hz]
    · rw [if_neg hz, if_pos (ha.mp hz)]
  · have hiff : (¬ off / BSIZE < NDIRECT ∧ (V.ino i).addr NDIRECT = 0) ↔ off = NDIRECT * BSIZE := by
      rw [← not_ne_iff (a := (V.ino i).addr NDIRECT), hi]
      simp only [BSIZE, NDIRECT]
      omega
    simp only [hiff]

/-- One round of the loop, after its block is there. -/
theorem appended_chunk {x : Nat} (hi : Live wide V i) (ht : ∀ j, Live wide V j → Tight V j)
    (hoff : (V.ino i).size = off) (hmax : off / BSIZE < MAXFILE) (hm : Mapped s V i (off / BSIZE) x t V')
    (h0 : 0 < p.length) (h1 : p.length ≤ (off / BSIZE + 1) * BSIZE - off) (f : Nat → UInt8)
    (hf : ∀ k < p.length, f k = p.getD k 0) : ∀ u : St, u = { t with
        img := upd t.img x ((V'.blk x).splice (off % BSIZE) p.length f)
        len := max t.len (x + 1)
        writes := t.writes ++ [(.data, x)] } →
      ∃ V'', Good u V'' (some i) ∧ Appended s V i off p u V'' ∧ V''.ino i = (V'.ino i).setSize (off + p.length) := by
  intro u hu
  have hx := hm.at_
  subst hx
  have hlive : Live wide V' i := (ext_live hm.ext i).mpr hi
  have hlen : p.length ≤ BSIZE - off % BSIZE := by simp only [BSIZE] at *; omega
  have hgood := good_write hm.good hlive hm.ne ((V'.blk (V'.addr i (off / BSIZE))).splice (off % BSIZE) p.length f)
  have hext := ext_write ((V'.blk (V'.addr i (off / BSIZE))).splice (off % BSIZE) p.length f) hm.good.sound hlive hm.ne
  have hraw := raw_splice hm.good.sound hlive hm.ne hlen f
  have hino : (V'.write (V'.addr i (off / BSIZE))
    ((V'.blk (V'.addr i (off / BSIZE))).splice (off % BSIZE) p.length f)).ino = V'.ino := rfl
  have hslot := write_slot ((V'.blk (V'.addr i (off / BSIZE))).splice (off % BSIZE) p.length f)
    hm.good.sound hlive hm.ne hlive
  generalize V'.write (V'.addr i (off / BSIZE)) ((V'.blk (V'.addr i (off / BSIZE))).splice (off % BSIZE) p.length f) = W
    at hgood hext hraw hino hslot
  have hbig : MAXFILE * BSIZE < 4294967296 := by decide
  have hle : off + p.length ≤ MAXFILE * BSIZE := by simp only [MAXFILE, NDIRECT, NINDIRECT, BSIZE] at *; omega
  have hall : Ext wide i V W := ext_trans hm.ext hext
  have hself : (W.setIno i ((W.ino i).setSize (off + p.length))).ino i = (W.ino i).setSize (off + p.length) :=
    upd_same _ _ _
  have hother {j : Nat} (hj : j ≠ i) : (W.setIno i ((W.ino i).setSize (off + p.length))).ino j = V.ino j :=
    (upd_ne _ _ hj).trans (hall.ino j hj)
  have hda : ((W.ino i).setSize (off + p.length)).addrs = (W.ino i).addrs := rfl
  have hdt : ((W.ino i).setSize (off + p.length)).type = (W.ino i).type := rfl
  have hlj (j : Nat) : Live wide (W.setIno i ((W.ino i).setSize (off + p.length))) j ↔ Live wide V j :=
    (setIno_live hdt j).trans (ext_live hall j)
  have haddr (j bn : Nat) : (W.setIno i ((W.ino i).setSize (off + p.length))).addr j bn = W.addr j bn :=
    setIno_slot hda j _
  rw [← hu] at hgood
  refine ⟨W.setIno i ((W.ino i).setSize (off + p.length)),
    good_setIno hgood hda hdt (Dinode.fits_setSize (hgood.fits i) (by omega)),
    ⟨fun j hj => ?_, fun j hj => hother hj, ?_, fun j hj hl y => ?_, fun y => ?_, by rw [hu]; exact hm.inodes, ?_⟩, ?_⟩
  · rw [hlj] at hj
    have htj := ht j hj
    by_cases e : j = i
    · subst e
      refine ⟨by rw [hself]; exact hle, fun bn hbn => ?_, ?_⟩
      · rw [hself, haddr]
        show W.slot j (slotOf bn) ≠ 0 ↔ bn * BSIZE < off + p.length
        rw [hslot]
        by_cases hb : bn = off / BSIZE
        · subst hb
          refine iff_of_true hm.ne ?_
          have := Nat.div_mul_le_self off BSIZE
          omega
        · have hk : slotOf bn ≠ slotOf (off / BSIZE) := fun e => hb (slotOf_inj e)
          rw [hm.slot _ hk (.inl (slotOf_ne bn))]
          refine (htj.addr bn hbn).trans ?_
          simp only [BSIZE] at *
          omega
      · rw [hself]
        show (W.ino j).addr NDIRECT ≠ 0 ↔ NDIRECT * BSIZE < off + p.length
        rw [hino]
        by_cases hb : off / BSIZE < NDIRECT
        · have hs : V'.slot j NDIRECT = V.slot j NDIRECT := hm.slot _ (slotOf_ne _).symm (.inr hb)
          rw [slot_low _ _ (Nat.lt_succ_self _), slot_low _ _ (Nat.lt_succ_self _)] at hs
          rw [hs, htj.ind, hoff]
          have hb' : off / 1024 < 12 := hb
          have h1' : p.length ≤ (off / 1024 + 1) * 1024 - off := h1
          show 12 * 1024 < off ↔ 12 * 1024 < off + p.length
          omega
        · refine iff_of_true (hm.ind hb) ?_
          have hb' : ¬ off / 1024 < 12 := hb
          show 12 * 1024 < off + p.length
          omega
    · refine ⟨by rw [hother e]; exact htj.max, fun bn hbn => ?_, ?_⟩
      · rw [hother e, haddr]
        show W.slot j (slotOf bn) ≠ 0 ↔ _
        rw [hall.slot j e hj]
        exact htj.addr bn hbn
      · rw [hother e]
        exact htj.ind
  · rw [hself, hall.hdr]
    rfl
  · rw [setIno_raw hda]
    exact hall.raw j hj hl y
  · rw [setIno_raw hda, hraw, hm.raw]
    by_cases hy : off ≤ y ∧ y < off + p.length
    · rw [if_pos hy, if_pos hy]
      exact hf _ (by omega)
    · rw [if_neg hy, if_neg hy]
  · rw [hu]
    show t.freeblock + need off = s.freeblock + need (off + p.length)
    rw [hm.free, tight_lacks (ht i hi) hoff hmax h0 h1]
    omega
  · rw [hself, hino]

theorem iappendFrom_spec (fuel : Nat) :
    ∀ {s : St} {V : Vol} (din : Dinode) (off : Nat) (p : List UInt8), p.length ≤ fuel →
    Good s V (some i) → (∀ j, Live wide V j → Tight V j) → Live wide V i → V.ino i = din.setSize off →
    (FSSIZE + need off < s.freeblock + need (off + p.length) → E (.die "read")) →
    (MAXFILE * BSIZE < off + p.length → E (.assert "fbn < MAXFILE")) → ∀ {Q : Dinode × Nat → St → Prop},
    (∀ din' t V', Good t V' (some i) → Appended s V i off p t V' → V'.ino i = din'.setSize (off + p.length) →
      Q (din', off + p.length) t) →
    wp (iappendFrom fuel din off p) Q E s := by
  induction fuel with
  | zero =>
    intro s V din off p hfuel h ht hi hin _ _ Q hq
    have hp : p = [] := List.length_eq_zero_iff.mp (by omega)
    subst hp
    exact hq din s V h (appended_nil ht (by rw [hin]; rfl)) hin
  | succ fuel ih =>
    intro s V din off p hfuel h ht hi hin hdie hassert Q hq
    unfold iappendFrom
    by_cases h0 : 0 < p.length
    · rw [if_pos h0]
      by_cases hmax : off / BSIZE < MAXFILE
      · have hoff : (V.ino i).size = off := by rw [hin]; rfl
        rw [if_pos hmax, wp_bind]
        have hn0 : 0 < min p.length ((off / BSIZE + 1) * BSIZE - off) := by simp only [BSIZE]; omega
        have hn1 : min p.length ((off / BSIZE + 1) * BSIZE - off) ≤ (off / BSIZE + 1) * BSIZE - off :=
          Nat.min_le_right _ _
        have hn2 : min p.length ((off / BSIZE + 1) * BSIZE - off) ≤ p.length := Nat.min_le_left _ _
        generalize min p.length ((off / BSIZE + 1) * BSIZE - off) = n1 at hn0 hn1 hn2 ⊢
        have hlacks := tight_lacks (ht i hi) hoff hmax hn0 hn1
        have hmono : need (off + n1) ≤ need (off + p.length) := need_mono (by omega)
        have hsplit : off - off / BSIZE * BSIZE = off % BSIZE := by simp only [BSIZE]; omega
        refine blockOf_spec h hi hin hmax (fun hfull => hdie (by omega)) (fun din' x t V' hm hino => ?_)
          fun hfull din' x t hx hlen => ?_
        · obtain ⟨hlow, hused⟩ := good_holds hm.good ⟨(ext_live hm.ext i).mpr hi, hm.at_, hm.ne⟩
          have hhigh := hm.good.high
          refine wp_then (wp_rsect hm.good.len (by omega) ?_)
          rw [wp_bind, hsplit, hm.good.blk x hlow]
          have htake : (p.take n1).length = n1 := by rw [List.length_take]; omega
          have hbytes (k : Nat) (hk : k < (p.take n1).length) : p.getD k 0 = (p.take n1).getD k 0 := by
            rw [htake] at hk
            simp only [List.getD_eq_getElem?_getD, List.getElem?_take, if_pos hk]
          obtain ⟨W, hgood, hW, hWi⟩ :=
            appended_chunk (p := p.take n1) hi ht hoff hmax hm (by omega) (by omega) (fun k => p.getD k 0) hbytes _ rfl
          rw [htake] at hgood hW hWi
          rw [hino] at hWi
          have hfree := hW.free
          rw [htake] at hfree
          have hrest : off + n1 + (p.drop n1).length = off + p.length := by rw [List.length_drop]; omega
          refine ih din' (off + n1) (p.drop n1) (by rw [List.length_drop]; omega) hgood hW.tight
            ((appended_live hW i).mpr hi)
            hWi (fun hfull => hdie ?_) (fun hbig => hassert (by omega)) fun din'' u V'' hgu hu hui => ?_
          · rw [hrest] at hfull
            omega
          · rw [hrest] at hui ⊢
            refine hq din'' u V'' hgu ?_ hui
            rw [← List.take_append_drop n1 p]
            refine appended_trans hW ?_
            rw [htake]
            exact hu
        · exact wp_then (wp_rsect_past hlen hx (hdie (by omega)))
      · rw [if_neg hmax]
        refine hassert ?_
        simp only [MAXFILE, NDIRECT, NINDIRECT, BSIZE] at *
        omega
    · have hp : p = [] := List.length_eq_zero_iff.mp (by omega)
      subst hp
      exact hq din s V h (appended_nil ht (by rw [hin]; rfl)) hin

/-! ## The calls of `main` -/

theorem winode_spec (h : Good s V (some i)) (hc : i < cap) (hd : V.ino i = d)
    (hq : ∀ t, Good t V none → t.freeinode = s.freeinode → t.freeblock = s.freeblock → Q () t) :
    wp (winode i d) Q E s := by
  have hlow := iblock_low hc
  have hsmall : nmeta ≤ FSSIZE := by decide
  refine wp_then (wp_rsect h.len (by omega) ?_)
  refine hq _ (good_winode h hc ?_ (by rw [hd]) rfl rfl rfl) rfl rfl
  show max s.len _ = FSSIZE
  rw [h.len]
  omega

theorem wp_rinode {Q : Dinode → St → Prop} (h : Good s V none) (hc : i < cap) (hq : Q (V.ino i) s) :
    wp (rinode i) Q E s := by
  have hlow := iblock_low hc
  have hsmall : nmeta ≤ FSSIZE := by decide
  refine wp_then (wp_rsect h.len (by omega) ?_)
  rw [h.ino i hc (Option.some_ne_none i).symm]
  exact hq

theorem iappend_spec (h : Good s V none) (ht : ∀ j, Live wide V j → Tight V j) (hi : Live wide V i)
    (hdie : FSSIZE + need (V.ino i).size < s.freeblock + need ((V.ino i).size + p.length) → E (.die "read"))
    (hassert : MAXFILE * BSIZE < (V.ino i).size + p.length → E (.assert "fbn < MAXFILE"))
    (hq : ∀ t V', Good t V' none → Appended s V i (V.ino i).size p t V' → Q () t) : wp (iappend i p) Q E s := by
  refine wp_then (wp_rinode h hi.1 ?_)
  refine wp_then (iappendFrom_spec p.length (V.ino i) (V.ino i).size p (Nat.le_refl _)
    (good_dirty h) ht hi rfl hdie hassert
    fun din t V' hg ha hino => ?_)
  refine winode_spec hg hi.1 hino fun u hu hfi hfb => hq u V' hu ?_
  exact ⟨ha.tight, ha.ino, ha.hdr, ha.raw, ha.byte, hfi.trans ha.inodes, by rw [hfb]; exact ha.free⟩

/-- `V'` is `V` with the new inode `i` of type `type`. -/
structure Added (V : Vol) (i : Nat) (type : Int16) (V' : Vol) : Prop where
  tight : ∀ j, Live wide V' j → Tight V' j
  ino : ∀ j, j ≠ i → V'.ino j = V.ino j
  self : V'.ino i = (Dinode.ofType type).setNlink 1
  raw : ∀ j, j ≠ i → ∀ x, V'.raw j x = V.raw j x

theorem ialloc_spec (h : Good s V none) (ht : ∀ j, Live wide V j → Tight V j) (hc : s.freeinode < cap)
    (h1 : 1 ≤ s.freeinode) {type : Int16} (htype : type ≠ 0) {Q : Nat → St → Prop}
    (hq : ∀ t V', Good t V' none → Added V s.freeinode type V' → t.freeinode = s.freeinode + 1 →
      t.freeblock = s.freeblock → Q s.freeinode t) :
    wp (ialloc type) Q E s := by
  have hno : ¬ Live wide V s.freeinode := fun hl => absurd ((good_live h hc).mp hl).2 (Nat.lt_irrefl _)
  -- first an empty inode, then its link
  have hda : ((Dinode.ofType type).setNlink 1).addrs =
      ((V.setIno s.freeinode (.ofType type)).ino s.freeinode).addrs := by
    show _ = (upd V.ino s.freeinode (Dinode.ofType type) s.freeinode).addrs
    rw [upd_same]
    rfl
  have hdt : ((Dinode.ofType type).setNlink 1).type = ((V.setIno s.freeinode (.ofType type)).ino s.freeinode).type := by
    show _ = (upd V.ino s.freeinode (Dinode.ofType type) s.freeinode).type
    rw [upd_same]
    rfl
  generalize hU : V.setIno s.freeinode (.ofType type) = U at hda hdt
  have hUs : Sound wide U := by
    rw [← hU]
    exact sound_congr (new_holds hno) rfl h.sound
  have hself : (U.setIno s.freeinode ((Dinode.ofType type).setNlink 1)).ino s.freeinode =
    (Dinode.ofType type).setNlink 1 := upd_same _ _ _
  have hother {j : Nat} (hj : j ≠ s.freeinode) : (U.setIno s.freeinode ((Dinode.ofType type).setNlink 1)).ino j =
      V.ino j := by
    refine (upd_ne _ _ hj).trans ?_
    rw [← hU]
    exact upd_ne _ _ hj
  have hslot {j : Nat} (hj : j ≠ s.freeinode) (k : Nat) :
      (U.setIno s.freeinode ((Dinode.ofType type).setNlink 1)).slot j k = V.slot j k := by
    rw [setIno_slot hda, ← hU, new_slot hj]
  have hzero (k : Nat) : (U.setIno s.freeinode ((Dinode.ofType type).setNlink 1)).slot s.freeinode k = 0 := by
    rw [setIno_slot hda, ← hU, new_slot_self]
  have hg : Good { s with freeinode := s.freeinode + 1 } (U.setIno s.freeinode ((Dinode.ofType type).setNlink 1))
      (some s.freeinode) := by
    refine ⟨h.len, h.head, fun j hj hd => ?_, ?_, ?_, h.low, h.high, ?_, setIno_sound hda hdt hUs,
      fun j => ?_, fun j hj => ?_, h.parts⟩
    · rw [hother fun e => hd (by rw [e])]
      exact h.ino j hj (Option.some_ne_none j).symm
    · subst hU
      exact h.blk
    · subst hU
      exact h.used
    · subst hU
      exact h.zero
    · by_cases e : j = s.freeinode
      · rw [e, hself]
        exact Dinode.fits_setNlink 1 (Dinode.fits_ofType type)
      · rw [hother e]
        exact h.fits j
    · by_cases e : j = s.freeinode
      · rw [e, hself]
        exact iff_of_true htype ⟨h1, Nat.lt_succ_self _⟩
      · rw [hother e, h.live j hj]
        show _ ↔ 1 ≤ j ∧ j < s.freeinode + 1
        omega
  unfold ialloc
  simp only [wp_bind, wp_get, wp_set]
  refine winode_spec hg hc hself fun t hgt hfi hfb =>
    hq t _ hgt ⟨fun j hj => ?_, fun j hj => hother hj, hself, fun j hj x => ?_⟩ hfi hfb
  · by_cases e : j = s.freeinode
    · subst e
      have ha : ((Dinode.ofType type).setNlink 1).addr NDIRECT = 0 := Dinode.addr_ofType type NDIRECT
      refine ⟨by rw [hself]; exact Nat.zero_le _, fun bn _ => ?_, ?_⟩
      · rw [hself]
        exact iff_of_false (fun hn => hn (hzero _)) (Nat.not_lt_zero _)
      · rw [hself]
        exact iff_of_false (fun hn => hn rfl) (Nat.not_lt_zero _)
    · have hlj : Live wide V j := by
        have := hj
        unfold Live at this ⊢
        rwa [hother e] at this
      refine ⟨by rw [hother e]; exact (ht j hlj).max, fun bn hbn => ?_, by rw [hother e]; exact (ht j hlj).ind⟩
      rw [hother e, Vol.addr, hslot e]
      exact (ht j hlj).addr bn hbn
  · rw [setIno_raw hda, ← hU, new_raw hj]

end

end Xv6.Mkfs
