/-
  Xv6.Fs.Rep — when a state represents a volume: the inodes as the inode table has them,
  or the disk for those it has not; the bitmap; the data blocks. `dirty` is the one entry
  whose changes have not reached its block yet. `Tame` is how operations treat buffers:
  what they change they log, but for a data block of no directory.
-/

import Xv6.Fs.Volume

namespace Xv6.Fs

open Lib Vol

variable {sb : Superblock} {s t : St} {V V' : Vol}

structure Rep (sb : Superblock) (s : St) (V : Vol) (dirty : Option Idx) : Prop where
  mem : ∀ e, 0 < (s.inode e).ref → (s.inode e).valid = true → (s.inode e).toDinode = V.ino (s.inode e).inum
  disk : ∀ i < sb.ninodes, (∀ e, dirty = some e → (s.inode e).inum ≠ i) →
    getDinode (s.data (sb.IBLOCK i)) (ioff i) = V.ino i
  used : ∀ b < sb.size, (s.data (sb.BBLOCK b)).bit (b % BPB) = V.used b
  blk : ∀ b, sb.nmeta ≤ b → s.data b = V.blk b
  /-- No inode has two entries. -/
  uniq : ∀ e e', 0 < (s.inode e).ref → 0 < (s.inode e').ref → (s.inode e).inum = (s.inode e').inum → e = e'
  range : ∀ e, 0 < (s.inode e).ref → (s.inode e).inum < sb.ninodes ∧ (s.inode e).dev = ROOTDEV
  /-- `ilock` never lets an entry of a free inode through. -/
  live : ∀ e, dirty ≠ some e → 0 < (s.inode e).ref → (s.inode e).valid = true → (V.ino (s.inode e).inum).type ≠ 0
  fits : ∀ i < sb.ninodes, (V.ino i).Fits

/-- The volume as the blocks have it. -/
def view (sb : Superblock) (s : St) : Vol where
  ino := fun i => getDinode (s.data (sb.IBLOCK i)) (ioff i)
  used := fun b => (s.data (sb.BBLOCK b)).bit (b % BPB)
  blk := s.data

theorem fits_getDinode (b : Block) (o : Nat) : (getDinode b o).Fits := by
  refine ⟨Bytes.getLE_lt _ 4 _, fun k => ?_⟩
  simp only [Dinode.addr, getDinode]
  split
  · exact Bytes.getLE_lt _ 4 _
  · decide

/-- The blocks represent what they hold, as far as the inode table goes along. -/
theorem rep_view (hmem : ∀ e, 0 < (s.inode e).ref → (s.inode e).valid = true →
      (s.inode e).toDinode = (view sb s).ino (s.inode e).inum ∧ (s.inode e).type ≠ 0)
    (huniq : ∀ e e', 0 < (s.inode e).ref → 0 < (s.inode e').ref → e = e')
    (hrange : ∀ e, 0 < (s.inode e).ref → (s.inode e).inum < sb.ninodes ∧ (s.inode e).dev = ROOTDEV) :
    Rep sb s (view sb s) none where
  mem := fun e hr hv => (hmem e hr hv).1
  disk := fun _ _ _ => rfl
  used := fun _ _ => rfl
  blk := fun _ _ => rfl
  uniq := fun e e' hr hr' _ => huniq e e' hr hr'
  range := hrange
  live := fun e _ hr hv => by rw [← (hmem e hr hv).1]; exact (hmem e hr hv).2
  fits := fun _ _ => fits_getDinode _ _

variable {dirty : Option Idx} {b : Nat} {Q : Unit → St → Prop} {l l' : Log.LogSt} {d : Block}

/-- Only the buffers and the inode table matter. -/
theorem rep_same (h : Rep sb s V dirty) (hdata : t.data = s.data) (hino : t.inode = s.inode) : Rep sb t V dirty := by
  refine ⟨?_, ?_, ?_, ?_, ?_, ?_, ?_, h.fits⟩
  · rw [hino]; exact h.mem
  · rw [hino, hdata]; exact h.disk
  · rw [hdata]; exact h.used
  · rw [hdata]; exact h.blk
  · rw [hino]; exact h.uniq
  · rw [hino]; exact h.range
  · rw [hino]; exact h.live

theorem rep_bufs (l : List Nat) (h : Rep sb s V dirty) : Rep sb (s.withBufs l) V dirty := rep_same h rfl rfl

/-- A data block of no directory: losing a change to it touches no structure. -/
def Loose (sb : Superblock) (V : Vol) (b : Nat) : Prop :=
  sb.nmeta ≤ b ∧ ∀ i k, Holds sb V i k b → (V.ino i).type ≠ T_DIR ∧ k ≠ NDIRECT

structure Tame (sb : Superblock) (s : St) (V : Vol) (t : St) (V' : Vol) : Prop where
  file : t.file = s.file
  proc : t.proc = s.proc
  home : t.home = s.home
  out : t.log.outstanding = s.log.outstanding
  committing : t.log.committing = s.log.committing
  lh : ∀ b, b ∈ s.log.lh → b ∈ t.log.lh
  data : ∀ b, b ∉ t.log.lh → t.data b = s.data b ∨ Loose sb V' b
  hold : ∀ i k b, Holds sb V' i k b → b ∉ t.log.lh → Holds sb V i k b ∧ (V'.ino i).type = (V.ino i).type

theorem tame_refl : Tame sb s V s V :=
  ⟨rfl, rfl, rfl, rfl, rfl, fun _ => id, fun _ _ => .inl rfl, fun _ _ _ h _ => ⟨h, rfl⟩⟩

theorem tame_trans {u : St} {V'' : Vol} (h : Tame sb s V t V') (h' : Tame sb t V' u V'') : Tame sb s V u V'' where
  file := h'.file.trans h.file
  proc := h'.proc.trans h.proc
  home := h'.home.trans h.home
  out := h'.out.trans h.out
  committing := h'.committing.trans h.committing
  lh := fun b hb => h'.lh b (h.lh b hb)
  data := fun b hb => by
    have hbt : b ∉ t.log.lh := fun hm => hb (h'.lh b hm)
    rcases h'.data b hb with e' | hl
    · rcases h.data b hbt with e | hl
      · exact .inl (e'.trans e)
      · refine .inr ⟨hl.1, fun i k hik => ?_⟩
        obtain ⟨h1, h2⟩ := h'.hold i k b hik hb
        rw [h2]
        exact hl.2 i k h1
    · exact .inr hl
  hold := fun i k b hb hn => by
    obtain ⟨h1, h2⟩ := h'.hold i k b hb hn
    obtain ⟨h3, h4⟩ := h.hold i k b h1 fun hm => hn (h'.lh b hm)
    exact ⟨h3, h2.trans h4⟩

theorem tame_inode {g : Idx → Inode} (h : Tame sb s V t V') : Tame sb s V { t with inode := g } V' :=
  ⟨h.file, h.proc, h.home, h.out, h.committing, h.lh, h.data, h.hold⟩

theorem tame_bufs (l l' : List Nat) (h : Tame sb (s.withBufs l) V t V') : Tame sb s V (t.withBufs l') V' :=
  ⟨h.file, h.proc, h.home, h.out, h.committing, h.lh, h.data, h.hold⟩

/-! ## Reading -/

variable {E : Panic → Prop}

@[simp] theorem wp_bread {Q : Block → St → Prop} :
    wp (bread b) Q E s = Q (s.data b) (s.withBufs (b :: s.bufs)) := rfl

@[simp] theorem wp_bdata {Q : Block → St → Prop} : wp (bdata b) Q E s = Q (s.data b) s := rfl

@[simp] theorem wp_brelse : wp (brelse b) Q E s = Q () (s.withBufs (s.bufs.erase b)) := rfl

@[simp] theorem relse_cons (s : St) (b : Nat) : (s.withBufs (b :: s.bufs)).withBufs ((b :: s.bufs).erase b) = s := by
  rw [List.erase_cons_head]
  rfl

@[simp] theorem wp_getInode {ip : Idx} {Q : Inode → St → Prop} :
    wp (getInode ip) Q E s = Q (s.inode ip) s := rfl

@[simp] theorem wp_setInode {ip : Idx} {f : Inode → Inode} :
    wp (setInode ip f) Q E s = Q () { s with inode := upd s.inode ip (f (s.inode ip)) } := rfl

/-! ## Room in the log -/

/-- `n` more calls of `log_write` panic only as `E` allows. -/
def RoomIn (E : Panic → Prop) (n : Nat) (l : Log.LogSt) : Prop :=
  (0 < n → l.outstanding < 1 → E (.log .outsideTrans)) ∧ (LOGBLOCKS < l.lh.length + n → E (.log .tooBig))

def Room (E : Panic → Prop) (n : Nat) (s : St) : Prop := RoomIn E n s.log

variable {E : Panic → Prop} {n m : Nat}

/-- Logging block `b` takes the log from `R` to `R'`, or stops as `E` allows. -/
def Logs (E : Panic → Prop) (b : Nat) (R R' : Log.LogSt → Prop) : Prop :=
  ∀ l, R l → (∀ x, Log.logWrite l b = .error x → E (.log x)) ∧ ∀ l', Log.logWrite l b = .ok l' → R' l'

structure Within (B : Finset Nat) (l : Log.LogSt) : Prop where
  out : 1 ≤ l.outstanding
  nodup : l.lh.Nodup
  sub : ∀ x ∈ l.lh, x ∈ B

theorem room_any (h : ∀ x, E (.log x)) : Room E n s := ⟨fun _ _ => h _, fun _ => h _⟩

theorem room_le (h : Room E n s) (hm : m ≤ n) : Room E m s :=
  ⟨fun h0 => h.1 (by omega), fun hl => h.2 (by omega)⟩

/-- What one call of `log_write` does, when it does not panic. -/
theorem logWrite_ok (h : Log.logWrite l b = .ok l') : l'.outstanding = l.outstanding ∧
    l'.committing = l.committing ∧ (∀ x, x ∈ l'.lh ↔ x ∈ l.lh ∨ x = b) ∧
    (l'.lh = l.lh ∨ b ∉ l.lh ∧ l'.lh = l.lh ++ [b]) := by
  unfold Log.logWrite at h
  split at h
  · cases h
  split at h
  · cases h
  split at h
  · next hb =>
    cases h
    exact ⟨rfl, rfl, fun x => ⟨.inl, fun hx => hx.elim id fun e => e ▸ hb⟩, .inl rfl⟩
  · next hb =>
    cases h
    exact ⟨rfl, rfl, fun x => by simp, .inr ⟨hb, rfl⟩⟩

theorem beginOp_some (h : Log.beginOp l = some l') : l' = { l with outstanding := l.outstanding + 1 } := by
  unfold Log.beginOp at h
  split at h
  · cases h
  · split at h
    · cases h
    · exact (Option.some.inj h).symm

theorem endOp_ok {commit : Bool} (h : Log.endOp l = .ok (l', commit)) :
    l'.lh = l.lh ∧ l'.outstanding = l.outstanding - 1 ∧ (commit = false → l'.outstanding ≠ 0) := by
  unfold Log.endOp at h
  dsimp only at h
  split at h
  · cases h
  · split at h <;> cases h
    · exact ⟨rfl, rfl, fun h => by cases h⟩
    · next h0 => exact ⟨rfl, rfl, fun _ => h0⟩

theorem logWrite_inside (h : Log.logWrite l b = .ok l') : 1 ≤ l'.outstanding := by
  unfold Log.logWrite at h
  split at h
  · cases h
  split at h
  · cases h
  next hout =>
  split at h <;> cases h <;> exact Int.not_lt.mp hout

theorem logWrite_nodup (h : Log.logWrite l b = .ok l') (hn : l.lh.Nodup) : l'.lh.Nodup := by
  rcases (logWrite_ok h).2.2.2 with hlh | ⟨hnew, hlh⟩
  · rw [hlh]
    exact hn
  · rw [hlh]
    exact List.nodup_append.mpr ⟨hn, List.nodup_singleton b, fun x hx y hy e =>
      hnew (by rw [← List.mem_singleton.mp hy, ← e]; exact hx)⟩

theorem logWrite_error {x : Log.Panic} (h : Log.logWrite l b = .error x) :
    x = .tooBig ∧ LOGBLOCKS ≤ l.lh.length ∨ x = .outsideTrans ∧ l.outstanding < 1 := by
  unfold Log.logWrite at h
  split at h
  · next hf =>
    cases h
    exact .inl ⟨rfl, hf⟩
  split at h
  · next ho =>
    cases h
    exact .inr ⟨rfl, ho⟩
  split at h <;> cases h

theorem logs_any (b : Nat) (h : ∀ x, E (.log x)) : Logs E b (fun _ => True) fun _ => True :=
  fun _ _ => ⟨fun x _ => h x, fun _ _ => trivial⟩

theorem logs_room (b : Nat) : Logs E b (RoomIn E (n + 1)) (RoomIn E n) := by
  intro l h
  refine ⟨fun x hx => ?_, fun l' hl' => ?_⟩
  · rcases logWrite_error hx with ⟨rfl, hf⟩ | ⟨rfl, ho⟩
    · exact h.2 (by omega)
    · exact h.1 (by omega) ho
  · obtain ⟨ho, _, _, hlen⟩ := logWrite_ok hl'
    refine ⟨fun hn hlt => h.1 (by omega) (by omega), fun hf => h.2 ?_⟩
    rcases hlen with hlen | ⟨_, hlen⟩
    · rw [hlen] at hf
      omega
    · rw [hlen, List.length_append, List.length_singleton] at hf
      omega

theorem logs_within {B : Finset Nat} (hB : B.card < LOGBLOCKS) (hb : b ∈ B) : Logs E b (Within B) (Within B) := by
  intro l h
  have hlen : l.lh.length ≤ B.card := by
    rw [← List.toFinset_card_of_nodup h.nodup]
    exact Finset.card_le_card fun x hx => h.sub x (List.mem_toFinset.mp hx)
  have hout := h.out
  refine ⟨fun x hx => ?_, fun l' hl' => ?_⟩
  · rcases logWrite_error hx with ⟨_, hf⟩ | ⟨_, ho⟩ <;> omega
  · obtain ⟨ho, _, hmem, _⟩ := logWrite_ok hl'
    refine ⟨by omega, logWrite_nodup hl' h.nodup, fun x hx => ?_⟩
    rcases (hmem x).mp hx with h1 | rfl
    · exact h.sub x h1
    · exact hb

structure Wrote (s t : St) (b : Nat) (d : Block) : Prop where
  data : t.data = upd s.data b d
  inode : t.inode = s.inode
  file : t.file = s.file
  proc : t.proc = s.proc
  home : t.home = s.home
  out : t.log.outstanding = s.log.outstanding
  committing : t.log.committing = s.log.committing
  lh : ∀ x, x ∈ t.log.lh ↔ x ∈ s.log.lh ∨ x = b

variable {R R' : Log.LogSt → Prop}

theorem wp_logWrite (h : Logs E b R R') (hr : R s.log)
    (hq : ∀ l : Log.LogSt, l.outstanding = s.log.outstanding → l.committing = s.log.committing →
      (∀ x, x ∈ l.lh ↔ x ∈ s.log.lh ∨ x = b) → R' l → Q () { s with log := l })
    : wp (logWrite b) Q E s := by
  obtain ⟨herr, hok⟩ := h s.log hr
  unfold logWrite
  rw [wp_bind, wp_get]
  split
  · next l hl =>
    obtain ⟨ho, hc, hmem, _⟩ := logWrite_ok hl
    exact hq l ho hc hmem (hok l hl)
  · next x hx => exact herr x hx

/-- Change a locked buffer, log it, let go of it, and go on. -/
theorem wp_write {α : Type} {f : Unit → M α} {Q : α → St → Prop} {l : List Nat} (h : Logs E b R R') (hr : R s.log)
    (hq : ∀ t, Wrote s t b d → R' t.log → wp (f ()) Q E t) :
    wp (bput b d >>= fun _ => logWrite b >>= fun _ => brelse b >>= f) Q E (s.withBufs l) := by
  simp only [wp_bind, bput, wp_modify]
  refine wp_logWrite (s := { s.withBufs l with data := upd s.data b d }) h hr fun l ho hc hl hr => ?_
  exact hq _ ⟨rfl, rfl, rfl, rfl, rfl, ho, hc, hl⟩ hr

theorem wrote_data {c : Nat} (h : Wrote s t b d) (hc : c ∉ t.log.lh) : t.data c = s.data c := by
  have hne : c ≠ b := fun e => hc ((h.lh c).mpr (.inr e))
  rw [h.data, upd_ne _ _ hne]

/-- A logged change is tame, if what the volume's slots hold is what they held before. -/
theorem tame_wrote (h : Wrote s t b d)
    (hh : ∀ i k c, Holds sb V' i k c → c ≠ b → Holds sb V i k c ∧ (V'.ino i).type = (V.ino i).type) :
    Tame sb s V t V' where
  file := h.file
  proc := h.proc
  home := h.home
  out := h.out
  committing := h.committing
  lh := fun x hx => (h.lh x).mpr (.inl hx)
  data := fun _ hx => .inl (wrote_data h hx)
  hold := fun i k c hc hn => hh i k c hc fun e => hn ((h.lh c).mpr (.inr e))

/-! ## The regions of the disk -/

theorem iblock_lt (hl : sb.Layout) {i : Nat} (h : i < sb.ninodes) : sb.IBLOCK i < sb.bmapstart := by
  have h1 := hl.inodes
  have h2 : i / IPB ≤ sb.ninodes / IPB := Nat.div_le_div_right (by omega)
  simp only [Superblock.IBLOCK]
  omega

theorem bblock_ge (b : Nat) : sb.bmapstart ≤ sb.BBLOCK b := Nat.le_add_left _ _

theorem bblock_lt (hl : sb.Layout) (h : b < sb.size) : sb.BBLOCK b < sb.nmeta := by
  have h1 := hl.bitmap
  have h2 : b / BPB ≤ sb.size / BPB := Nat.div_le_div_right (by omega)
  simp only [Superblock.BBLOCK]
  omega

theorem iblock_nmeta (hl : sb.Layout) {i : Nat} (h : i < sb.ninodes) : sb.IBLOCK i < sb.nmeta := by
  have h1 := iblock_lt hl h
  have h2 : sb.bmapstart ≤ sb.nmeta := Nat.le_of_lt (Nat.lt_of_le_of_lt (Nat.le_add_right _ _) hl.bitmap)
  omega

/-! ## What one change does to the volume -/

theorem rep_data (hl : sb.Layout) (h : Rep sb s V dirty) (hb : sb.nmeta ≤ b) (hdata : t.data = upd s.data b d)
    (hino : t.inode = s.inode) : Rep sb t (V.write b d) dirty where
  mem := by rw [hino]; exact h.mem
  disk := by
    intro i hi hd
    rw [hino] at hd
    rw [hdata, upd_ne _ _ (by have := iblock_nmeta hl hi; omega)]
    exact h.disk i hi hd
  used := by
    intro c hc
    rw [hdata, upd_ne _ _ (by have := bblock_lt hl hc; omega)]
    exact h.used c hc
  blk := by
    intro c hc
    rw [hdata]
    simp only [write, upd]
    split
    · rfl
    · exact h.blk c hc
  uniq := by rw [hino]; exact h.uniq
  range := by rw [hino]; exact h.range
  live := by rw [hino]; exact h.live
  fits := h.fits

theorem rep_bit {v : Bool} (hl : sb.Layout) (h : Rep sb s V dirty) (hb : b < sb.size)
    (hd : ∀ j, d.bit j = if j = b % BPB then v else (s.data (sb.BBLOCK b)).bit j) (hw : Wrote s t (sb.BBLOCK b) d) :
    Rep sb t { V with used := upd V.used b v } dirty where
  mem := by rw [hw.inode]; exact h.mem
  disk := by
    intro i hi hdi
    rw [hw.inode] at hdi
    have h1 := iblock_lt hl hi
    have h2 : sb.bmapstart ≤ sb.BBLOCK b := bblock_ge b
    rw [hw.data, upd_ne _ _ (by omega)]
    exact h.disk i hi hdi
  used := by
    intro c hc
    rw [hw.data]
    by_cases hcb : sb.BBLOCK c = sb.BBLOCK b
    · rw [hcb, upd_same, hd]
      have hdiv : c / BPB = b / BPB := Nat.add_right_cancel hcb
      by_cases e : c = b
      · subst e
        simp only [if_pos, upd_same]
      have hne : c % BPB ≠ b % BPB := by
        intro hm
        apply e
        rw [← Nat.div_add_mod c BPB, ← Nat.div_add_mod b BPB, hdiv, hm]
      simp only [if_neg hne, upd_ne _ _ e]
      rw [← hcb]
      exact h.used c hc
    · have e : c ≠ b := fun e => hcb (by rw [e])
      simp only [upd_ne _ _ hcb, upd_ne _ _ e]
      exact h.used c hc
  blk := by
    intro c hc
    have := bblock_lt hl hb
    rw [hw.data, upd_ne _ _ (by omega)]
    exact h.blk c hc
  uniq := by rw [hw.inode]; exact h.uniq
  range := by rw [hw.inode]; exact h.range
  live := by rw [hw.inode]; exact h.live
  fits := h.fits

end Xv6.Fs
