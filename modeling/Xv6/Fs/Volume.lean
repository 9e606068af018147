/-
  Xv6.Fs.Volume — what is on the disk, free of its encoding: the inodes, the free
  bitmap, the blocks. A slot of an inode is a place that can hold a block number: the
  direct addresses, the indirect block's own address, then its entries. `Exact` is exact
  block allocation, `HoleFree` that every block below a file's size is there. Attaching a
  fresh block to an empty slot and rewriting a data block keep all of it, and disturb no
  other inode.
-/

import Xv6.Fs.Inode

namespace Xv6.Fs

open Lib

structure Vol where
  ino : Nat → Dinode
  used : Nat → Bool
  blk : Nat → Block

namespace Vol

def slot (V : Vol) (i k : Nat) : Nat :=
  if k < NDIRECT + 1 then (V.ino i).addr k
  else if (V.ino i).addr NDIRECT = 0 then 0
  else entry (V.blk ((V.ino i).addr NDIRECT)) (k - (NDIRECT + 1))

def slotOf (bn : Nat) : Nat := if bn < NDIRECT then bn else bn + 1

def addr (V : Vol) (i bn : Nat) : Nat := V.slot i (slotOf bn)

def raw (V : Vol) (i x : Nat) : UInt8 :=
  if V.addr i (x / BSIZE) = 0 then 0 else (V.blk (V.addr i (x / BSIZE))).get (x % BSIZE)

def setIno (V : Vol) (i : Nat) (d : Dinode) : Vol := { V with ino := upd V.ino i d }

/-- Mark `b` used, and zero it. -/
def take (V : Vol) (b : Nat) : Vol := { V with used := upd V.used b true, blk := upd V.blk b Bytes.zero }

def release (V : Vol) (b : Nat) : Vol := { V with used := upd V.used b false }

def write (V : Vol) (b : Nat) (d : Block) : Vol := { V with blk := upd V.blk b d }

end Vol

open Vol

variable {sb : Superblock}

def Live (sb : Superblock) (V : Vol) (i : Nat) : Prop := i < sb.ninodes ∧ (V.ino i).type ≠ 0

/-- Slot `k` of the allocated inode `i` holds block `b`. -/
structure Holds (sb : Superblock) (V : Vol) (i k b : Nat) : Prop where
  live : Live sb V i
  at_ : V.slot i k = b
  ne : b ≠ 0

structure Exact (sb : Superblock) (V : Vol) : Prop where
  used : ∀ b < sb.size, V.used b = true ↔ b < sb.nmeta ∨ ∃ i k, Holds sb V i k b
  range : ∀ i k b, Holds sb V i k b → sb.nmeta ≤ b ∧ b < sb.size
  once : ∀ i k j l b, Holds sb V i k b → Holds sb V j l b → i = j ∧ k = l

/-- Its safe half: no block in use is marked free, and no two slots share a block. -/
structure Sound (sb : Superblock) (V : Vol) : Prop where
  range : ∀ i k b, Holds sb V i k b → sb.nmeta ≤ b ∧ b < sb.size
  once : ∀ i k j l b, Holds sb V i k b → Holds sb V j l b → i = j ∧ k = l
  marked : ∀ i k b, Holds sb V i k b → V.used b = true
  sys : ∀ b < sb.nmeta, V.used b = true

def NoLeak (sb : Superblock) (V : Vol) : Prop :=
  ∀ b < sb.size, V.used b = true → b < sb.nmeta ∨ ∃ i k, Holds sb V i k b

theorem exact_iff {V : Vol} : Exact sb V ↔ Sound sb V ∧ NoLeak sb V := by
  have hm : sb.nmeta ≤ sb.size := Nat.sub_le _ _
  constructor
  · intro h
    refine ⟨⟨h.range, h.once, fun i k b hb => ?_, fun b hb => ?_⟩, fun b hb => (h.used b hb).mp⟩
    · exact (h.used b (h.range i k b hb).2).mpr (.inr ⟨i, k, hb⟩)
    · exact (h.used b (by omega)).mpr (.inl hb)
  · rintro ⟨h, hl⟩
    refine ⟨fun b hb => ⟨hl b hb, fun h' => ?_⟩, h.range, h.once⟩
    rcases h' with h' | ⟨i, k, h'⟩
    · exact h.sys b h'
    · exact h.marked i k b h'

/-- Every block index below the size of inode `i` has a block. -/
def HoleFree (V : Vol) (i : Nat) : Prop := ∀ bn, bn * BSIZE < (V.ino i).size → bn < MAXFILE ∧ V.addr i bn ≠ 0

variable {V V' : Vol}

/-- Both depend on what the slots hold and on the bitmap only. -/
theorem sound_congr (hh : ∀ i k b, Holds sb V' i k b ↔ Holds sb V i k b) (hu : V'.used = V.used) (hs : Sound sb V) :
    Sound sb V' where
  range := fun i k b hb => hs.range i k b ((hh i k b).mp hb)
  once := fun i k j l b hb hb' => hs.once i k j l b ((hh i k b).mp hb) ((hh j l b).mp hb')
  marked := fun i k b hb => by rw [hu]; exact hs.marked i k b ((hh i k b).mp hb)
  sys := by rw [hu]; exact hs.sys

theorem noLeak_congr (hh : ∀ i k b, Holds sb V' i k b ↔ Holds sb V i k b) (hu : V'.used = V.used) (hn : NoLeak sb V) :
    NoLeak sb V' := by
  intro b hb hub
  rw [hu] at hub
  rcases hn b hb hub with hm | ⟨i, k, hik⟩
  · exact .inl hm
  · exact .inr ⟨i, k, (hh i k b).mpr hik⟩

/-! ## Slots -/

theorem slot_low (V : Vol) (i : Nat) {k : Nat} (h : k < NDIRECT + 1) : V.slot i k = (V.ino i).addr k := by
  rw [slot, if_pos h]

theorem slot_high (V : Vol) (i : Nat) {k : Nat} (h : ¬ k < NDIRECT + 1) : V.slot i k =
    if (V.ino i).addr NDIRECT = 0 then 0 else entry (V.blk ((V.ino i).addr NDIRECT)) (k - (NDIRECT + 1)) := by
  rw [slot, if_neg h]

/-- An indirect block has `NINDIRECT` entries. -/
theorem slot_past (V : Vol) (i : Nat) {k : Nat} (h : NDIRECT + 1 + NINDIRECT ≤ k) : V.slot i k = 0 := by
  rw [slot_high _ _ (by omega)]
  split
  · rfl
  · rw [entry, Bytes.getLE_past _ _ _ (by simp only [BSIZE, NINDIRECT, NDIRECT] at *; omega)]

/-- The slots of an inode depend on its addresses and its indirect block only. -/
theorem slot_congr {i : Nat} (k : Nat) (ha : ∀ j, (V'.ino i).addr j = (V.ino i).addr j)
    (hb : (V.ino i).addr NDIRECT ≠ 0 → V'.blk ((V.ino i).addr NDIRECT) = V.blk ((V.ino i).addr NDIRECT)) :
    V'.slot i k = V.slot i k := by
  by_cases hk : k < NDIRECT + 1
  · rw [slot_low _ _ hk, slot_low _ _ hk, ha]
  · rw [slot_high _ _ hk, slot_high _ _ hk, ha]
    by_cases h0 : (V.ino i).addr NDIRECT = 0
    · rw [if_pos h0, if_pos h0]
    · rw [if_neg h0, if_neg h0, hb h0]

/-- The indirect block is the block of slot `NDIRECT`. -/
theorem holds_ind {V : Vol} {i : Nat} (hl : Live sb V i) (h : (V.ino i).addr NDIRECT ≠ 0) :
    Holds sb V i NDIRECT ((V.ino i).addr NDIRECT) :=
  ⟨hl, slot_low V i (Nat.lt_succ_self _), h⟩

theorem slotOf_inj {a b : Nat} (h : slotOf a = slotOf b) : a = b := by
  simp only [slotOf] at h
  split at h <;> split at h <;> omega

theorem slotOf_ne (bn : Nat) : slotOf bn ≠ NDIRECT := by
  simp only [slotOf]
  split <;> omega

/-- Two data blocks at the same place of the same file are one. -/
theorem addr_once {V : Vol} (hs : Sound sb V) {i j bn bn' : Nat} (hi : Live sb V i) (hj : Live sb V j)
    (h0 : V.addr i bn ≠ 0) (h : V.addr i bn = V.addr j bn') : i = j ∧ bn = bn' := by
  obtain ⟨h1, h2⟩ := hs.once i _ j _ _ ⟨hi, rfl, h0⟩ ⟨hj, h.symm, h0⟩
  exact ⟨h1, slotOf_inj h2⟩

/-! ## Attaching a block -/

structure Gained (V V' : Vol) (i k b : Nat) : Prop where
  empty : V.slot i k = 0
  at_ : V'.slot i k = b
  ne : b ≠ 0

structure Attached (sb : Superblock) (V V' : Vol) (i k b : Nat) : Prop where
  ino : ∀ j, j ≠ i → V'.ino j = V.ino j
  hdr : V'.ino i = { V.ino i with addrs := (V'.ino i).addrs }
  slot : ∀ j l, Live sb V j → V'.slot j l = if j = i ∧ l = k then b else V.slot j l
  used : V'.used = upd V.used b true
  zero : V'.blk b = Bytes.zero
  blk : ∀ j l c, Holds sb V j l c → l ≠ NDIRECT → V'.blk c = V.blk c

variable {i k b : Nat}

theorem attached_type (h : Attached sb V V' i k b) (j : Nat) :
    (V'.ino j).type = (V.ino j).type := by
  by_cases hj : j = i
  · subst hj; rw [h.hdr]
  · rw [h.ino j hj]

theorem attached_live (h : Attached sb V V' i k b) (j : Nat) :
    Live sb V' j ↔ Live sb V j := by
  simp only [Live, attached_type h j]

theorem fresh_ne {V : Vol} (hs : Sound sb V) {i k b c : Nat} (hu : V.used b = false) (h : Holds sb V i k c) :
    c ≠ b := by
  intro e
  subst e
  exact absurd (hs.marked i k c h) (by rw [hu]; exact Bool.false_ne_true)

/-- A direct address, or the address of the indirect block. -/
theorem attach_addr {V : Vol} (hs : Sound sb V) (hk : k < NDIRECT + 1) (hu : V.used b = false)
    (h0 : V.slot i k = 0) : Attached sb V ((V.take b).setIno i ((V.ino i).setAddr k b)) i k b where
  ino := fun j hj => upd_ne _ _ hj
  hdr := by simp only [setIno, upd_same, Dinode.setAddr]
  used := rfl
  zero := upd_same _ _ _
  blk := fun j l c hc _ => upd_ne _ _ (fresh_ne hs hu hc)
  slot := by
    intro j l hj
    by_cases e : j = i
    · subst e
      by_cases hl : l < NDIRECT + 1
      · rw [slot_low _ _ hl, slot_low _ _ hl]
        simp only [setIno, take, upd_same, true_and]
        rw [Dinode.addr_setAddr _ _ hk]
      have hlk : l ≠ k := fun h => hl (h ▸ hk)
      rw [if_neg fun h => hlk h.2, slot_high _ _ hl, slot_high _ _ hl]
      simp only [setIno, take, upd_same]
      rw [Dinode.addr_setAddr _ _ hk]
      by_cases hkn : NDIRECT = k
      -- the indirect block itself is new: no entry yet
      · subst hkn
        rw [slot_low _ _ hk] at h0
        rw [if_pos rfl, if_pos h0, upd_same, entry, Bytes.getLE_zero, ite_self]
      · rw [if_neg hkn]
        by_cases h12 : (V.ino j).addr NDIRECT = 0
        · rw [if_pos h12, if_pos h12]
        · rw [if_neg h12, if_neg h12, upd_ne _ _ (fresh_ne hs hu (holds_ind hj h12))]
    · rw [if_neg fun h => e h.1]
      apply slot_congr
      · intro a; simp only [setIno, upd_ne _ _ e, take]
      · intro h12; exact upd_ne _ _ (fresh_ne hs hu (holds_ind hj h12))

theorem attach_entry {V : Vol} (hs : Sound sb V) (hi : Live sb V i) (hk : ¬ k < NDIRECT + 1)
    (hk' : k - (NDIRECT + 1) < NINDIRECT) (hu : V.used b = false) (hb : b < 4294967296)
    (h12 : (V.ino i).addr NDIRECT ≠ 0) :
    Attached sb V ((V.take b).write ((V.ino i).addr NDIRECT)
      ((V.blk ((V.ino i).addr NDIRECT)).putLE (4 * (k - (NDIRECT + 1))) 4 b)) i k b := by
  have hind := holds_ind hi h12
  have hne := fresh_ne hs hu hind
  have hfit : ∀ m < NINDIRECT, 4 * m + 4 ≤ BSIZE := fun m (hm : m < 256) => by simp only [BSIZE]; omega
  refine ⟨fun _ _ => rfl, rfl, fun j l hj => ?_, rfl, ?_, fun j l c hc hl => ?_⟩
  · by_cases e : j = i
    · subst e
      by_cases hl : l < NDIRECT + 1
      · have hlk : l ≠ k := fun h => hk (h ▸ hl)
        rw [if_neg fun h => hlk h.2, slot_low _ _ hl, slot_low _ _ hl]
        rfl
      rw [slot_high _ _ hl, slot_high _ _ hl]
      simp only [write, take, if_neg h12, upd_same, true_and]
      by_cases hlk : l = k
      · subst hlk
        rw [if_pos rfl, entry, Bytes.getLE_putLE _ (hfit _ hk')]
        exact Nat.mod_eq_of_lt hb
      · rw [if_neg hlk, entry, Bytes.getLE_putLE_out _ (by omega)]
        rfl
    · rw [if_neg fun h => e h.1]
      refine slot_congr l (fun _ => rfl) fun hj12 => ?_
      have hjh := holds_ind hj hj12
      have hji : (V.ino j).addr NDIRECT ≠ (V.ino i).addr NDIRECT := fun h => e (hs.once j _ i _ _ hjh (h ▸ hind)).1
      simp only [write, take]
      rw [upd_ne _ _ hji, upd_ne _ _ (fresh_ne hs hu hjh)]
  · simp only [write, take]
    rw [upd_ne _ _ hne.symm, upd_same]
  · simp only [write, take]
    have hci : c ≠ (V.ino i).addr NDIRECT := fun h => hl (hs.once j l i _ c hc (h ▸ hind)).2
    rw [upd_ne _ _ hci, upd_ne _ _ (fresh_ne hs hu hc)]

section

variable {V V' : Vol} {i k b : Nat}

section

variable (h : Attached sb V V' i k b)

include h

theorem attached_holds (hi : Live sb V i) (h0 : V.slot i k = 0) (hb : b ≠ 0) (j l c : Nat) :
    Holds sb V' j l c ↔ Holds sb V j l c ∨ (j = i ∧ l = k ∧ c = b) := by
  constructor
  · rintro ⟨hl, he, hc⟩
    rw [attached_live h] at hl
    rw [h.slot j l hl] at he
    split at he
    · next hjl => exact .inr ⟨hjl.1, hjl.2, he.symm⟩
    · exact .inl ⟨hl, he, hc⟩
  · rintro (⟨hl, he, hc⟩ | ⟨rfl, rfl, rfl⟩)
    · refine ⟨(attached_live h j).mpr hl, ?_, hc⟩
      rw [h.slot j l hl, if_neg]
      · exact he
      · rintro ⟨rfl, rfl⟩
        exact hc (he.symm.trans h0)
    · exact ⟨(attached_live h _).mpr hi, by rw [h.slot _ _ hi, if_pos ⟨rfl, rfl⟩], hb⟩

theorem attached_sound (hs : Sound sb V) (hi : Live sb V i) (h0 : V.slot i k = 0)
    (hu : V.used b = false) (hb : b < sb.size) (hb0 : b ≠ 0) : Sound sb V' := by
  have hh := attached_holds h hi h0 hb0
  have hm : sb.nmeta ≤ b := by
    apply Decidable.by_contra
    intro hlt
    rw [hs.sys b (by omega)] at hu
    cases hu
  refine ⟨fun j l c hc => ?_, fun j l j' l' c hc hc' => ?_, fun j l c hc => ?_, fun c hc => ?_⟩
  · rcases (hh j l c).mp hc with hc | ⟨_, _, rfl⟩
    · exact hs.range j l c hc
    · exact ⟨hm, hb⟩
  · rcases (hh j l c).mp hc with h1 | ⟨rfl, rfl, rfl⟩
    · rcases (hh j' l' c).mp hc' with h2 | ⟨_, _, rfl⟩
      · exact hs.once j l j' l' c h1 h2
      · exact absurd rfl (fresh_ne hs hu h1)
    · rcases (hh j' l' c).mp hc' with h2 | ⟨rfl, rfl, _⟩
      · exact absurd rfl (fresh_ne hs hu h2)
      · exact ⟨rfl, rfl⟩
  · rw [h.used]
    rcases (hh j l c).mp hc with hc | ⟨_, _, rfl⟩
    · rw [upd_ne _ _ (fresh_ne hs hu hc)]
      exact hs.marked j l c hc
    · exact upd_same _ _ _
  · rw [h.used, upd_ne _ _ (by omega)]
    exact hs.sys c hc

theorem attached_gained (hi : Live sb V i) (h0 : V.slot i k = 0) (hb : b ≠ 0) (l c : Nat) :
    Gained V V' i l c ↔ l = k ∧ c = b := by
  constructor
  · rintro ⟨he, hc, hn⟩
    rw [h.slot i l hi] at hc
    split at hc
    · next hl => exact ⟨hl.2, hc.symm⟩
    · exact absurd (hc.symm.trans he) hn
  · rintro ⟨rfl, rfl⟩
    exact ⟨h0, by rw [h.slot i l hi, if_pos ⟨rfl, rfl⟩], hb⟩

/-- The new block reads as zeros, as nothing did before: no file's bytes change. -/
theorem attached_raw (h0 : V.slot i k = 0) {j : Nat} (hj : Live sb V j) (x : Nat) :
    V'.raw j x = V.raw j x := by
  have ha : V'.addr j (x / BSIZE) = _ := h.slot j (slotOf (x / BSIZE)) hj
  simp only [raw, ha]
  by_cases hjk : j = i ∧ slotOf (x / BSIZE) = k
  · have h0' : V.addr j (x / BSIZE) = 0 := by rw [Vol.addr, hjk.1, hjk.2]; exact h0
    rw [if_pos hjk, if_pos h0', h.zero, Bytes.get_zero, ite_self]
  rw [if_neg hjk]
  by_cases h0' : V.addr j (x / BSIZE) = 0
  · rw [if_pos h0']; exact if_pos h0'
  · rw [if_neg h0']
    have hd : V'.blk (V.addr j (x / BSIZE)) = _ := h.blk j _ _ ⟨hj, rfl, h0'⟩ (slotOf_ne _)
    exact (if_neg h0').trans (by rw [← hd]; rfl)

end

end

/-! ## Rewriting a data block -/

section

variable {V : Vol} {i bn : Nat} (d : Block)

section

variable (hs : Sound sb V) (hi : Live sb V i) (h0 : V.addr i bn ≠ 0)

include hs hi h0

theorem write_slot {j : Nat} (hj : Live sb V j) (l : Nat) :
    (V.write (V.addr i bn) d).slot j l = V.slot j l := by
  refine slot_congr l (fun _ => rfl) fun h12 => upd_ne _ _ fun e => ?_
  have hd : Holds sb V i (slotOf bn) (V.addr i bn) := ⟨hi, rfl, h0⟩
  have hd' : Holds sb V j NDIRECT (V.addr i bn) := e ▸ holds_ind hj h12
  exact slotOf_ne bn (hs.once i _ j _ _ hd hd').2

theorem write_holds (j l c : Nat) :
    Holds sb (V.write (V.addr i bn) d) j l c ↔ Holds sb V j l c := by
  constructor
  · rintro ⟨hl, he, hc⟩
    have hl' : Live sb V j := hl
    exact ⟨hl', by rw [← write_slot d hs hi h0 hl']; exact he, hc⟩
  · rintro ⟨hl, he, hc⟩
    exact ⟨hl, by rw [write_slot d hs hi h0 hl]; exact he, hc⟩

theorem write_sound : Sound sb (V.write (V.addr i bn) d) :=
  sound_congr (write_holds d hs hi h0) rfl hs

theorem write_raw {j : Nat} (hj : Live sb V j) (x : Nat) :
    (V.write (V.addr i bn) d).raw j x = if j = i ∧ x / BSIZE = bn then d.get (x % BSIZE) else V.raw j x := by
  have ha : (V.write (V.addr i bn) d).addr j (x / BSIZE) = V.addr j (x / BSIZE) := write_slot d hs hi h0 hj _
  simp only [raw, ha]
  by_cases hjb : j = i ∧ x / BSIZE = bn
  · obtain ⟨rfl, rfl⟩ := hjb
    rw [if_neg h0, if_pos ⟨rfl, rfl⟩]
    simp only [write, upd_same]
  rw [if_neg hjb]
  by_cases h0' : V.addr j (x / BSIZE) = 0
  · rw [if_pos h0', if_pos h0']
  · simp only [write]
    rw [upd_ne]
    exact fun e => hjb (addr_once hs hj hi h0' e)

end

end

/-! ## Growing one inode -/

/-- From `V` to `V'` the slots of inode `i` keep their blocks, and the blocks taken are those
    they have gained, which were free. -/
structure Gains (i : Nat) (V V' : Vol) : Prop where
  keep : ∀ k, V.slot i k ≠ 0 → V'.slot i k = V.slot i k
  used : ∀ b, V'.used b = true ↔ V.used b = true ∨ ∃ k, Gained V V' i k b
  fresh : ∀ k b, Gained V V' i k b → V.used b = false

/-- From `V` to `V'` inode `i` has gained blocks and its bytes have changed; its
    addresses stay, its other fields too, and so does every other inode. -/
structure Ext (sb : Superblock) (i : Nat) (V V' : Vol) : Prop extends Gains i V V' where
  ino : ∀ j, j ≠ i → V'.ino j = V.ino j
  hdr : V'.ino i = { V.ino i with addrs := (V'.ino i).addrs }
  slot : ∀ j, j ≠ i → Live sb V j → ∀ k, V'.slot j k = V.slot j k
  raw : ∀ j, j ≠ i → Live sb V j → ∀ x, V'.raw j x = V.raw j x
  sound : Sound sb V'

section

variable {V V' V'' : Vol} {i : Nat}

/-- What changes neither slots nor the bitmap gains nothing. -/
theorem gains_same (hslot : ∀ k, V'.slot i k = V.slot i k) (hu : V'.used = V.used) : Gains i V V' := by
  have hno (k b : Nat) (h : Gained V V' i k b) : False := h.ne (h.at_.symm.trans ((hslot k).trans h.empty))
  refine ⟨fun k _ => hslot k, fun b => ?_, fun k b h => (hno k b h).elim⟩
  rw [hu]
  exact ⟨.inl, fun h => h.elim id fun ⟨k, hg⟩ => (hno k b hg).elim⟩

/-- In two steps a slot gains a block in one of them. -/
theorem gained_trans (hk : ∀ k, V.slot i k ≠ 0 → V'.slot i k = V.slot i k)
    (hk' : ∀ k, V'.slot i k ≠ 0 → V''.slot i k = V'.slot i k) (k b : Nat) :
    Gained V V'' i k b ↔ Gained V V' i k b ∨ Gained V' V'' i k b := by
  constructor
  · intro h
    by_cases h0 : V'.slot i k = 0
    · exact .inr ⟨h0, h.at_, h.ne⟩
    · exact .inl ⟨h.empty, (hk' k h0).symm.trans h.at_, h.ne⟩
  · rintro (h | h)
    · exact ⟨h.empty, (hk' k (by rw [h.at_]; exact h.ne)).trans h.at_, h.ne⟩
    · refine ⟨Decidable.by_contra fun h0 => h0 ?_, h.at_, h.ne⟩
      rw [← hk k h0]
      exact h.empty

theorem gains_trans (h : Gains i V V') (h' : Gains i V' V'') : Gains i V V'' where
  keep := fun k hk => by
    have := h.keep k hk
    rw [h'.keep k (by rw [this]; exact hk), this]
  used := fun b => by
    rw [h'.used, h.used, or_assoc, ← exists_or]
    simp only [gained_trans h.keep h'.keep]
  fresh := fun k b hg => by
    rcases (gained_trans h.keep h'.keep k b).mp hg with hg | hg
    · exact h.fresh k b hg
    -- what the second step takes was free after the first one
    · refine Bool.eq_false_iff.mpr fun hu => ?_
      have hfree := h'.fresh k b hg
      rw [(h.used b).mpr (.inl hu)] at hfree
      cases hfree

theorem ext_refl (hs : Sound sb V) : Ext sb i V V :=
  ⟨gains_same (fun _ => rfl) rfl, fun _ _ => rfl, rfl, fun _ _ _ _ => rfl, fun _ _ _ _ => rfl, hs⟩

theorem ext_type (h : Ext sb i V V') (j : Nat) : (V'.ino j).type = (V.ino j).type := by
  by_cases hj : j = i
  · subst hj; rw [h.hdr]
  · rw [h.ino j hj]

theorem ext_live (h : Ext sb i V V') (j : Nat) : Live sb V' j ↔ Live sb V j := by
  simp only [Live, ext_type h j]

theorem ext_trans (h : Ext sb i V V') (h' : Ext sb i V' V'') : Ext sb i V V'' where
  toGains := gains_trans h.toGains h'.toGains
  ino := fun j hj => (h'.ino j hj).trans (h.ino j hj)
  hdr := by rw [h'.hdr, h.hdr]
  slot := fun j hj hl k => (h'.slot j hj ((ext_live h j).mpr hl) k).trans (h.slot j hj hl k)
  raw := fun j hj hl x => (h'.raw j hj ((ext_live h j).mpr hl) x).trans (h.raw j hj hl x)
  sound := h'.sound

theorem ext_attach {k b : Nat} (h : Attached sb V V' i k b) (hs : Sound sb V) (hi : Live sb V i) (h0 : V.slot i k = 0)
    (hu : V.used b = false) (hb : b < sb.size) (hb0 : b ≠ 0) : Ext sb i V V' where
  ino := h.ino
  hdr := h.hdr
  keep := fun l hl => by
    rw [h.slot i l hi, if_neg]
    rintro ⟨_, rfl⟩
    exact hl h0
  slot := fun j hj hl k => by rw [h.slot j k hl, if_neg fun e => hj e.1]
  raw := fun j _ hl x => attached_raw h h0 hl x
  sound := attached_sound h hs hi h0 hu hb hb0
  used := fun c => by
    simp only [h.used, attached_gained h hi h0 hb0, exists_eq_left]
    by_cases hc : c = b
    · rw [hc, upd_same]
      exact ⟨fun _ => .inr rfl, fun _ => rfl⟩
    · rw [upd_ne _ _ hc]
      exact ⟨.inl, fun h' => h'.resolve_right hc⟩
  fresh := fun l c hg => by
    rw [((attached_gained h hi h0 hb0 l c).mp hg).2]
    exact hu

theorem ext_write {bn : Nat} (d : Block) (hs : Sound sb V) (hi : Live sb V i) (h0 : V.addr i bn ≠ 0) :
    Ext sb i V (V.write (V.addr i bn) d) where
  toGains := gains_same (fun k => write_slot d hs hi h0 hi k) rfl
  ino := fun _ _ => rfl
  hdr := rfl
  slot := fun j _ hl k => write_slot d hs hi h0 hl k
  raw := fun j hj hl x => by rw [write_raw d hs hi h0 hl, if_neg fun e => hj e.1]
  sound := write_sound d hs hi h0

theorem ext_addr (h : Ext sb i V V') {bn : Nat} (h0 : V.addr i bn ≠ 0) : V'.addr i bn = V.addr i bn := h.keep _ h0

theorem ext_holds (h : Ext sb i V V') {k b : Nat} (hb : Holds sb V i k b) : Holds sb V' i k b :=
  ⟨(ext_live h i).mpr hb.live, by rw [h.keep k (by rw [hb.at_]; exact hb.ne)]; exact hb.at_, hb.ne⟩

/-- What is in use is held, if it was so before. -/
theorem ext_noLeak (h : Ext sb i V V') (hi : Live sb V i) (hn : NoLeak sb V) : NoLeak sb V' := by
  intro b hb hu
  rcases (h.used b).mp hu with hu | ⟨k, hg⟩
  · refine (hn b hb hu).imp_right fun ⟨j, k, hj⟩ => ⟨j, k, ?_⟩
    by_cases e : j = i
    · subst e
      exact ext_holds h hj
    · exact ⟨(ext_live h j).mpr hj.live, (h.slot j e hj.live k).trans hj.at_, hj.ne⟩
  · exact .inr ⟨i, k, (ext_live h i).mpr hi, hg.at_, hg.ne⟩

end

/-! ## Fields other than the addresses -/

section

variable {V : Vol} {i : Nat} {d : Dinode} (ha : d.addrs = (V.ino i).addrs)

include ha

theorem setIno_slot (j k : Nat) : (V.setIno i d).slot j k = V.slot j k := by
  refine slot_congr k (fun l => ?_) fun _ => rfl
  simp only [setIno, upd]
  split
  · next e => simp only [Dinode.addr, ha, e]
  · rfl

theorem setIno_raw (j x : Nat) : (V.setIno i d).raw j x = V.raw j x := by
  have he : (V.setIno i d).addr j (x / BSIZE) = V.addr j (x / BSIZE) := setIno_slot ha j _
  rw [raw, he]
  rfl

variable (ht : d.type = (V.ino i).type)

include ht

omit ha in
theorem setIno_type (j : Nat) : ((V.setIno i d).ino j).type = (V.ino j).type := by
  simp only [setIno, upd]
  split
  · next e => rw [ht, e]
  · rfl

omit ha in
theorem setIno_live (j : Nat) : Live sb (V.setIno i d) j ↔ Live sb V j := by
  simp only [Live, setIno_type ht j]

theorem setIno_holds (j k b : Nat) : Holds sb (V.setIno i d) j k b ↔ Holds sb V j k b :=
  ⟨fun h => ⟨(setIno_live ht j).mp h.live, by rw [← setIno_slot ha]; exact h.at_, h.ne⟩,
    fun h => ⟨(setIno_live ht j).mpr h.live, by rw [setIno_slot ha]; exact h.at_, h.ne⟩⟩

theorem setIno_sound (hs : Sound sb V) : Sound sb (V.setIno i d) := sound_congr (setIno_holds ha ht) rfl hs

theorem setIno_noLeak (hn : NoLeak sb V) : NoLeak sb (V.setIno i d) := noLeak_congr (setIno_holds ha ht) rfl hn

end

/-! ## A new inode -/

section

variable {V : Vol} {i : Nat} {type : Int16}

theorem new_slot_self (k : Nat) : (V.setIno i (.ofType type)).slot i k = 0 := by
  have h0 : ∀ l, ((V.setIno i (.ofType type)).ino i).addr l = 0 := fun l => by
    simp only [setIno, upd_same, Dinode.addr_ofType]
  by_cases hk : k < NDIRECT + 1
  · rw [slot_low _ _ hk, h0]
  · rw [slot_high _ _ hk, if_pos (h0 _)]

theorem new_slot {j : Nat} (hj : j ≠ i) (k : Nat) : (V.setIno i (.ofType type)).slot j k = V.slot j k := by
  apply slot_congr
  · intro l
    simp only [setIno, upd_ne _ _ hj]
  · intro _
    rfl

theorem new_raw_self (x : Nat) : (V.setIno i (.ofType type)).raw i x = 0 := if_pos (new_slot_self _)

theorem new_raw {j : Nat} (hj : j ≠ i) (x : Nat) : (V.setIno i (.ofType type)).raw j x = V.raw j x := by
  have ha : (V.setIno i (.ofType type)).addr j (x / BSIZE) = V.addr j (x / BSIZE) := new_slot hj _
  rw [raw, ha]
  rfl

theorem new_holds (hi : ¬ Live sb V i) (j k b : Nat) :
    Holds sb (V.setIno i (.ofType type)) j k b ↔ Holds sb V j k b := by
  by_cases e : j = i
  · subst e
    exact ⟨fun h => absurd (h.at_.symm.trans (new_slot_self k)) h.ne, fun h => absurd h.live hi⟩
  · have hl : Live sb (V.setIno i (.ofType type)) j ↔ Live sb V j := by simp only [Live, setIno, upd_ne _ _ e]
    exact ⟨fun h => ⟨hl.mp h.live, (new_slot e k).symm.trans h.at_, h.ne⟩,
      fun h => ⟨hl.mpr h.live, (new_slot e k).trans h.at_, h.ne⟩⟩

theorem new_holeFree (hf : ∀ j, Live sb V j → HoleFree V j) {j : Nat} (hj : Live sb (V.setIno i (.ofType type)) j) :
    HoleFree (V.setIno i (.ofType type)) j := by
  intro bn hbn
  by_cases e : j = i
  · subst e
    simp only [setIno, upd_same] at hbn
    exact absurd hbn (Nat.not_lt_zero _)
  · have ha : (V.setIno i (.ofType type)).addr j bn = V.addr j bn := new_slot e _
    simp only [setIno, upd_ne _ _ e] at hbn
    rw [ha]
    refine hf j ?_ bn hbn
    simpa only [Live, setIno, upd_ne _ _ e] using hj

end

end Xv6.Fs
