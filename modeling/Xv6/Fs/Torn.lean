/-
  Xv6.Fs.Torn — writes that a bad user buffer cuts short. `writei` copies into the cached
  block and lets go of it without `log_write` when the copy fails, so bytes that it does
  not report can be seen until the buffer is evicted (`torn_write_seen`). It does exactly
  what it reports unless the source ends inside a block, after bytes that change it
  (`reported_iff`).
-/

import Xv6.Fs.ByteArray
import Xv6.Fs.Space
import Xv6.Fs.Sys

namespace Xv6.Fs

open Lib Vol

section

variable {sb : Superblock} {s t : St} {V V' : Vol} {ip : Idx} {i n off r : Nat} {src : Nat → Option UInt8}

/-! ## What reads see -/

/-- `readi` sees a file with the bytes `l`. -/
def ReadsAs (sb : Superblock) (ip : Idx) (t : St) (l : List UInt8) : Prop :=
  ∀ dst o k, o < 4294967296 → k < 4294967296 → (∀ j < k, dst j = true) →
    readi sb ip dst o k t =
      if o > l.length ∨ 4294967296 ≤ o + k then .ok ((0, []), t)
      else .ok ((((l.drop o).take k).length, (l.drop o).take k), t)

theorem readsAs_content (h : Rep sb s V none) (hp : Loaded s ip i) (hi : Live sb V i) (hs : Sound sb V)
    (hf : HoleFree V i) :
    ReadsAs sb ip s (content V i) := by
  intro dst o k ho hk hdst
  rw [readi_eq h hp hi hs hf, readCount, content_length]
  simp only [add32_lt ho hk]
  split
  · rfl
  · rw [read_content dst hdst]

/-! ## Evictions -/

/-- Any buffers are evicted, one after the other. -/
def evictAll : List Nat → M Unit
  | [] => return ()
  | b :: bs => do
    evict b
    evictAll bs

/-- What differs from the disk is in the log: no earlier write was torn. -/
def St.Clean (s : St) : Prop := ∀ b, b ∉ s.log.lh → s.data b = s.home b

theorem evictAll_clean (h : t.Clean) (bs : List Nat) : evictAll bs t = .ok ((), t) := by
  induction bs with
  | nil => rfl
  | cons b bs ih =>
    have hb : evict b t = .ok ((), t) := by
      unfold evict
      apply wp_run
      rw [wp_modify]
      split
      · exact ⟨rfl, rfl⟩
      · next hm =>
        refine ⟨rfl, ?_⟩
        rw [← h b hm, upd_self]
    apply wp_run
    exact wp_then (wp_of_run hb (wp_of_run ih ⟨rfl, rfl⟩))

/-! ## writei -/

/-- `writei` at `off`, which returned `r` and left the volume `V'`, did what it reports: reads
    see the first `r` bytes of the source over the old ones, also after evictions; no other
    byte of the file's blocks has changed, not past its end either; and every buffer that it
    changed is in the log. -/
structure Reported (sb : Superblock) (s : St) (V : Vol) (ip : Idx) (i : Nat) (src : Nat → Option UInt8)
    (off r : Nat) (t : St) (V' : Vol) :
    Prop where
  reads : ReadsAs sb ip t (overwrite (content V i) off (srcBytes src r))
  evicted : s.Clean → ∀ bs u, evictAll bs t = .ok ((), u) →
    ReadsAs sb ip u (overwrite (content V i) off (srcBytes src r))
  bytes : ∀ x, V'.raw i x = if off ≤ x ∧ x < off + r then (src (x - off)).getD 0 else V.raw i x
  logged : ∀ b, t.data b ≠ s.data b → b ∈ t.log.lh

/-- The first byte that cannot be read is not the first to be copied to its block, the disk has
    room for the write up to that block, and a byte in front of it changes the block. -/
def Torn (sb : Superblock) (V : Vol) (i : Nat) (src : Nat → Option UInt8) (off n : Nat) : Prop :=
  ∃ j < n, src j = none ∧ (∀ k < j, src k ≠ none) ∧ Space.need V i off (j + 1) ≤ Space.free sb V ∧
    ∃ k < j, (off + k) / BSIZE = (off + j) / BSIZE ∧ src k ≠ some (V.raw i (off + k))

section

variable (hfill : Filled sb s V ip i src off n r t V')

include hfill

/-- Where the source ends in a block, the copy is cut there. -/
theorem torn_changes (h : Torn sb V i src off n) : ∃ k, r ≤ k ∧ V'.raw i (off + k) ≠ V.raw i (off + k) := by
  obtain ⟨j, hj, hnone, hread, hroom, k, hk, hblock, hdiff⟩ := h
  obtain ⟨c, hc⟩ := hfill.copied
  have hrj : r ≤ j := Nat.le_of_not_lt fun hlt => by
    have hsome := hc.read j (Nat.zero_le j) hlt
    rw [hnone] at hsome
    cases hsome
  have hstop := hc.stop
  generalize hr : (r, off + r) = p at hstop
  cases hstop with
  | done off' => cases hr; omega
  | full tot off' hz =>
    cases hr
    have hmem : slotOf ((off + r) / BSIZE) ∈ Space.touched off (j + 1) :=
      Space.mem_touched.mpr ⟨r, by omega, Space.mem_bmapSlots.mpr (.inl rfl)⟩
    exact absurd hroom (Nat.not_le.mpr
      (Space.grown_short (Space.grown_filled hfill (by omega)) (hfill.full (by omega) hz) hmem hz))
  | cut tot off' hlt hne hcut =>
    cases hr
    have hal := hc.aligned hlt
    have hrk : r ≤ k := by simp only [BSIZE] at *; omega
    have hreach : k < r + reach (fun k => (src k).isSome) r (min (n - r) (BSIZE - (off + r) % BSIZE)) := by
      by_contra hge
      have hsome := reach_stop _ _ hcut
      rw [Option.isSome_eq_false_iff, Option.isNone_iff_eq_none] at hsome
      exact hread _ (by omega) hsome
    refine ⟨k, hrk, fun he => hdiff ?_⟩
    rw [hc.raw, if_pos (by simp only; omega), Nat.zero_add, Nat.add_sub_cancel_left] at he
    obtain ⟨y, hy⟩ := Option.ne_none_iff_exists'.mp (hread k hk)
    rw [hy] at he ⊢
    exact congrArg some he

variable (hi : Live sb V i)

include hi

/-- If no copy is cut in its block, or none that changes it, only what is reported changes. -/
theorem untorn_bytes (h : ¬ Torn sb V i src off n) (x : Nat) :
    V'.raw i x = if off ≤ x ∧ x < off + r then (src (x - off)).getD 0 else V.raw i x := by
  obtain ⟨c, hc⟩ := hfill.copied
  rw [hc.raw, Nat.zero_add]
  by_cases hin : off ≤ x ∧ x < off + r
  · rw [if_pos hin, if_pos (by omega)]
  rw [if_neg hin]
  split
  · next hcut =>
    have hstop := hc.stop
    generalize hr : (r, off + r) = p at hstop
    cases hstop with
    | done off' | full tot off' hz => omega
    | cut tot off' hlt hne hc' =>
      cases hr
      generalize hm : min (n - r) (BSIZE - (off + r) % BSIZE) = m at hc' hcut
      have hsome := reach_stop _ _ hc'
      have hok := reach_ok (fun k => (src k).isSome) m r
      generalize reach (fun k => (src k).isSome) r m = c at hc' hcut hsome hok
      by_contra hdiff
      have hread : ∀ k < r + c, src k ≠ none := fun k hk hnone => by
        have h1 : (src k).isSome = true := by
          by_cases hkr : k < r
          · exact hc.read k (Nat.zero_le k) hkr
          · exact hok k (by omega) hk
        rw [hnone] at h1
        cases h1
      refine h ⟨r + c, by omega, by simpa using hsome, hread, ?_, x - off, by omega, ?_, fun he => hdiff ?_⟩
      · refine Space.grown_enough (Space.grown_filled hfill (Nat.min_le_left _ _)) hfill.sound hi fun l hl => ?_
        obtain ⟨q, hq, hl⟩ := Space.mem_touched.mp hl
        have hblk : V'.addr i ((off + q) / BSIZE) ≠ 0 := by
          by_cases hqr : q < r
          · exact hfill.there _ (Nat.le_add_right _ _) (by omega)
          · rw [show (off + q) / BSIZE = (off + r) / BSIZE by simp only [BSIZE] at *; omega]
            exact hne
        rcases Space.mem_bmapSlots.mp hl with rfl | ⟨rfl, hbn⟩
        · exact hblk
        · exact Space.slot_indirect hbn hblk
      · simp only [BSIZE] at *
        omega
      · rw [he, show off + (x - off) = x by omega]
        rfl
  · rfl

/-- Then what changed is in the log. -/
theorem untorn_logged (h : Rep sb s V none) (hs : Sound sb V)
    (hbytes : ∀ x, V'.raw i x = if off ≤ x ∧ x < off + r then (src (x - off)).getD 0 else V.raw i x) {b : Nat}
    (hb : t.data b ≠ s.data b) : b ∈ t.log.lh := by
  by_contra hlog
  obtain ⟨c, hc⟩ := hfill.copied
  obtain ⟨hlt, hb0, hbe⟩ := (hc.data b hlog).resolve_left hb
  have hbV : V.addr i ((off + r) / BSIZE) = b :=
    (hfill.tame.hold i _ b ⟨(filled_live hfill i).mpr hi, hbe.symm, hb0⟩ hlog).1.at_
  have hm : sb.nmeta ≤ b := (hs.range _ _ _ ⟨hi, hbV, hb0⟩).1
  have hal := hc.aligned hlt
  refine hb ?_
  rw [hfill.rep.blk _ hm, h.blk _ hm]
  refine Bytes.ext_get fun y hy => ?_
  have hx : ((off + r) / BSIZE * BSIZE + y) / BSIZE = (off + r) / BSIZE ∧
      ((off + r) / BSIZE * BSIZE + y) % BSIZE = y := by
    simp only [BSIZE] at *
    omega
  have hraw := hbytes ((off + r) / BSIZE * BSIZE + y)
  rw [if_neg (by simp only [BSIZE] at *; omega), raw, raw, hx.1, hx.2, ← hbe, hbV, if_neg hb0, if_neg hb0] at hraw
  exact hraw

end

/-- For every file, offset, length and source, of which any part may not be readable: the
    write does exactly what it reports unless it is torn. -/
theorem reported_iff (hl : sb.Layout) (h : Rep sb s V none) (hs : Sound sb V) (hp : Loaded s ip i) (hf : HoleFree V i)
    (hfile : (V.ino i).type ≠ T_DIR) (src : Nat → Option UInt8) (off n : Nat) (r : Nat) (t : St)
    (hw : writei sb ip src off n s = .ok ((r : Int), t)) :
    ∃ V', Rep sb t V' none ∧ (Reported sb s V ip i src off r t V' ↔ ¬ Torn sb V i src off n) := by
  have hi : Live sb V i := ⟨loaded_lt h hp, by rw [← hp.inum]; exact h.live ip (fun e => by cases e) hp.ref hp.valid⟩
  have hwp := writei_spec (E := fun _ => True) (m := 0) (Q := fun x t => x = -1 ∨ ∃ (k : Nat) (V' : Vol),
    x = k ∧ off ≤ (V.ino i).size ∧
    Filled sb s V ip i src off n k t V') hl h hp hi hs (.inr hfile) costs_any (room_any fun _ => trivial)
    (fun _ => .inl rfl)
    fun k t V' h1 h2 _ => .inr ⟨k, V', rfl, h1, h2⟩
  rcases wp_ok hwp hw with he | ⟨k, V', he, hoff, hfill⟩
  · omega
  obtain rfl : r = k := by omega
  refine ⟨V', hfill.rep, fun hrep htorn => ?_, fun hno => ?_⟩
  · obtain ⟨k, hk, hne⟩ := torn_changes hfill htorn
    exact hne (by rw [hrep.bytes, if_neg (by omega)])
  · have hbytes := untorn_bytes hfill hi hno
    have hlogged : ∀ b, t.data b ≠ s.data b → b ∈ t.log.lh := fun b hb => untorn_logged hfill hi h hs hbytes hb
    have hreads := readsAs_content hfill.rep (loaded_put hfill.inode hp) ((filled_live hfill i).mpr hi) hfill.sound
      (hfill.holeFree hf)
    rw [overwrite_content hoff (by rw [hfill.hdr]) fun x _ => hbytes x] at hreads
    refine ⟨hreads, fun hclean bs u hu => ?_, hbytes, hlogged⟩
    have hc : t.Clean := fun b hb => by
      have hsame : t.data b = s.data b := by
        by_contra hne
        exact hb (hlogged b hne)
      rw [hsame, hfill.tame.home]
      exact hclean b fun hm => hb (hfill.tame.lh b hm)
    rw [evictAll_clean hc bs] at hu
    cases hu
    exact hreads

end

/-- The source can be read up to the end of the file's first block. -/
theorem reported_iff_sample :
    ∃ t V', writei Sample.sb Sample.ip (fun k => if k < 4 then some 7 else none) 1020 10 Sample.st = .ok (4, t) ∧
      Reported Sample.sb Sample.st (view Sample.sb Sample.st) Sample.ip 1
        (fun k => if k < 4 then some 7 else none) 1020 4 t V' := by
  generalize hsrc : (fun k : Nat => if k < 4 then some (7 : UInt8) else none) = src
  have h : (writei Sample.sb Sample.ip src 1020 10 Sample.st).toOption.map Prod.fst = some 4 := by
    rw [← hsrc]
    decide +kernel
  cases hw : writei Sample.sb Sample.ip src 1020 10 Sample.st with
  | error e => rw [hw] at h; cases h
  | ok p =>
    obtain ⟨r, t⟩ := p
    rw [hw] at h
    obtain rfl : r = 4 := Option.some.inj h
    obtain ⟨V', _, hiff⟩ := reported_iff Sample.layout Sample.rep Sample.sound Sample.loaded Sample.holeFree
      (by decide) src 1020 10 4 t hw
    refine ⟨t, V', rfl, hiff.mpr ?_⟩
    rintro ⟨j, _, hnone, hread, _, k, hk, hblock, _⟩
    -- the first byte that cannot be read is the fourth, and the next block begins there
    have hj : ¬ j < 4 := fun hj => by simp [← hsrc, hj] at hnone
    have hj' : ¬ 4 < j := fun hj => by simp [← hsrc] at hread; exact absurd (hread 4 hj) (by decide)
    simp only [BSIZE] at hblock
    omega

/-! ## A torn write -/

def pages (mem : Nat → Option (Nat → UInt8)) (a : Nat) :
    Nat → Option UInt8 := fun k => (mem ((a + k) / PGSIZE)).map fun p => p ((a + k) % PGSIZE)

namespace Sample

/-- The last 100 bytes of a page; the next one is not mapped. -/
def source : Nat → Option UInt8 := pages (fun p => if p = 0 then some fun _ => 7 else none) 3996

/-- 200 of them are to be written to the start of the file. -/
def torn : St :=
  match writei sb ip source 0 200 st with
  | .ok (_, t) => t
  | .error _ => st

theorem torn_run : writei sb ip source 0 200 st = .ok (0, torn) := by
  have h : ((writei sb ip source 0 200 st).toOption.map Prod.fst) = some 0 := by decide +kernel
  unfold torn
  cases hw : writei sb ip source 0 200 st with
  | error e => rw [hw] at h; cases h
  | ok p => rw [hw] at h; exact congrArg Except.ok (Prod.ext (Option.some.inj h) rfl)

/-- The byte that a read of one byte at the start of the file finds. -/
def firstByte (t : St) : Option (Int × List UInt8) := (readi sb ip (fun _ => true) 0 1 t).toOption.map Prod.fst

end Sample

/-- The write returns 0, and a read finds the byte 7 where there was a 0; the block is not
    in the log, and once its buffer is evicted the 0 is there again. -/
theorem torn_write_seen :
    writei Sample.sb Sample.ip Sample.source 0 200 Sample.st = .ok (0, Sample.torn) ∧
    Sample.firstByte Sample.st = some (1, [0]) ∧ Sample.firstByte Sample.torn = some (1, [7]) ∧
    (∃ u, evictAll [10] Sample.torn = .ok ((), u) ∧ Sample.firstByte u = some (1, [0])) ∧
    ∀ V', ¬ Reported Sample.sb Sample.st (view Sample.sb Sample.st) Sample.ip 1 Sample.source 0 0 Sample.torn V' := by
  have hlog : 10 ∉ Sample.torn.log.lh := by decide +kernel
  have hdata : (Sample.torn.data 10).get 0 ≠ (Sample.st.data 10).get 0 := by decide +kernel
  refine ⟨Sample.torn_run, by decide +kernel, by decide +kernel, ⟨_, rfl, by decide +kernel⟩, fun V' hr => ?_⟩
  exact hlog (hr.logged 10 fun he => hdata (by rw [he]))

end Xv6.Fs
