/-
  Xv6.Fs.ContentProofs — `readi` and `writei` as reads and writes of a byte array.
-/

import Xv6.Fs.BmapProofs

namespace Xv6.Fs

open Lib Vol

/-- The bytes of a file. -/
def content (V : Vol) (i : Nat) : List UInt8 := (List.range (V.ino i).size).map (V.raw i)

theorem content_length (V : Vol) (i : Nat) : (content V i).length = (V.ino i).size := by
  simp [content]

variable {sb : Superblock} {s t : St} {V V' : Vol} {dirty : Option Idx} {E : Panic → Prop} {n : Nat}
  {ip : Idx} {i : Nat}

/-! ## Copies -/

theorem reach_le (ok : Nat → Bool) (m : Nat) : ∀ k, reach ok k m ≤ m := by
  induction m with
  | zero => intro k; exact Nat.le_refl _
  | succ m ih =>
    intro k
    simp only [reach]
    split
    · exact Nat.succ_le_succ (ih (k + 1))
    · exact Nat.zero_le _

theorem reach_all {ok : Nat → Bool} (m : Nat) : ∀ k, (∀ j, k ≤ j → j < k + m → ok j = true) → reach ok k m = m := by
  induction m with
  | zero => intro k _; rfl
  | succ m ih =>
    intro k h
    simp only [reach]
    rw [if_pos (h k (Nat.le_refl _) (by omega)), ih (k + 1) fun j h1 h2 => h j (by omega) (by omega)]

theorem reach_ok (ok : Nat → Bool) (m : Nat) : ∀ k j, k ≤ j → j < k + reach ok k m → ok j = true := by
  induction m with
  | zero => intro k j h1 h2; simp only [reach] at h2; omega
  | succ m ih =>
    intro k j h1 h2
    simp only [reach] at h2
    split at h2
    · next hk =>
      by_cases e : j = k
      · rw [e]; exact hk
      · exact ih (k + 1) j (by omega) (by omega)
    · omega

theorem reach_stop {ok : Nat → Bool} (m : Nat) : ∀ k, reach ok k m < m → ok (k + reach ok k m) = false := by
  induction m with
  | zero => exact fun k h => absurd h (Nat.not_lt_zero _)
  | succ m ih =>
    intro k h
    simp only [reach] at h ⊢
    split
    · next hk =>
      rw [if_pos hk] at h
      rw [Nat.add_comm _ 1, ← Nat.add_assoc]
      exact ih (k + 1) (by omega)
    · next hk => simpa using hk

/-- A copy in two parts stops where the copy in one does. -/
theorem reach_add (ok : Nat → Bool) (b : Nat) (a : Nat) : ∀ k,
    reach ok k (a + b) = if reach ok k a = a then a + reach ok (k + a) b else reach ok k a := by
  induction a with
  | zero => intro k; simp [reach]
  | succ a ih =>
    intro k
    rw [Nat.succ_add]
    simp only [reach]
    by_cases hk : ok k = true
    · simp only [hk, if_true, ih (k + 1), Nat.add_right_cancel_iff]
      split
      · rw [show k + 1 + a = k + (a + 1) by omega]; omega
      · rfl
    · simp [hk]

/-! ## One block of a file -/

variable {off c tot bn b : Nat} {src : Nat → Option UInt8} {r : Nat × Nat}

theorem raw_block {k : Nat} (h0 : V.addr i (off / BSIZE) ≠ 0) (hk : k < BSIZE - off % BSIZE) :
    V.raw i (off + k) = (V.blk (V.addr i (off / BSIZE))).get (off % BSIZE + k) := by
  have h1 : (off + k) / BSIZE = off / BSIZE := by simp only [BSIZE] at *; omega
  have h2 : (off + k) % BSIZE = off % BSIZE + k := by simp only [BSIZE] at *; omega
  rw [raw, h1, h2, if_neg h0]

theorem raw_splice (hs : Sound sb V) (hi : Live sb V i) (h0 : V.addr i (off / BSIZE) ≠ 0) (hc : c ≤ BSIZE - off % BSIZE)
    (f : Nat → UInt8) (x : Nat) :
    (V.write (V.addr i (off / BSIZE)) ((V.blk (V.addr i (off / BSIZE))).splice (off % BSIZE) c f)).raw i x =
      if off ≤ x ∧ x < off + c then f (x - off) else V.raw i x := by
  rw [write_raw _ hs hi h0 hi]
  by_cases hx : x / BSIZE = off / BSIZE
  · rw [if_pos ⟨rfl, hx⟩, Bytes.get_splice _ _ _ _ (by simp only [BSIZE]; omega)]
    have h1 : (off % BSIZE ≤ x % BSIZE ∧ x % BSIZE < off % BSIZE + c) ↔ (off ≤ x ∧ x < off + c) := by
      simp only [BSIZE] at *
      omega
    simp only [h1]
    split
    · congr 1
      simp only [BSIZE] at *
      omega
    · rw [raw, hx, if_neg h0]
  · rw [if_neg fun h => hx h.2, if_neg]
    intro h
    apply hx
    simp only [BSIZE] at *
    omega

/-! ## readi -/

/-- What a read of `n` bytes at `off` returns and copies, out of the bytes `f`. -/
def readResult (dst : Nat → Bool) (f : Nat → UInt8) (tot off n : Nat) : Int × List UInt8 :=
  (if reach dst tot n = n then tot + n else -1, (List.range (reach dst tot n)).map fun k => f (off + k))

theorem readiFrom_eq (h : Rep sb s V dirty) (hp : Loaded s ip i) (hi : Live sb V i) (hs : Sound sb V)
    (dst : Nat → Bool) (n : Nat) (fuel : Nat) :
    ∀ (tot off : Nat) (out : List UInt8), tot ≤ n → n - tot ≤ fuel →
      (∀ x, off ≤ x → x < off + (n - tot) → x / BSIZE < MAXFILE ∧ V.addr i (x / BSIZE) ≠ 0) →
      readiFrom sb ip dst n fuel tot off out s =
        .ok (((readResult dst (V.raw i) tot off (n - tot)).1, out ++ (readResult dst (V.raw i) tot off (n - tot)).2),
          s) := by
  induction fuel with
  | zero =>
    intro tot off out htot hfuel _
    have e : n - tot = 0 := by omega
    apply wp_run
    simp [readiFrom, readResult, e, reach]
  | succ fuel ih =>
    intro tot off out htot hfuel hthere
    apply wp_run
    rw [readiFrom]
    by_cases hlt : tot < n
    · rw [if_pos hlt, wp_bind]
      obtain ⟨hbn, h0⟩ := hthere off (Nat.le_refl _) (by omega)
      refine wp_of_run (bmap_hit h hp hi hs hbn h0) ?_
      have hdat := h.blk _ (hs.range _ _ _ ⟨hi, rfl, h0⟩).1
      rw [if_neg h0, wp_bind, wp_bread]
      simp only [wp_bind, wp_brelse, St.withBufs_bufs, relse_cons, wp_ite]
      have hm : min (n - tot) (BSIZE - off % BSIZE) ≤ BSIZE - off % BSIZE := Nat.min_le_right _ _
      have hm0 : 0 < min (n - tot) (BSIZE - off % BSIZE) := by simp only [BSIZE]; omega
      have hmn : min (n - tot) (BSIZE - off % BSIZE) ≤ n - tot := Nat.min_le_left _ _
      generalize min (n - tot) (BSIZE - off % BSIZE) = m at hm hm0 hmn
      have hbytes : ((List.range (reach dst tot m)).map fun k =>
        (s.data (V.addr i (off / BSIZE))).get (off % BSIZE + k)) =
          (List.range (reach dst tot m)).map fun k => V.raw i (off + k) := by
        apply List.map_congr_left
        intro k hk
        have h1 := List.mem_range.mp hk
        have h2 := reach_le dst m tot
        rw [raw_block h0 (by omega)]
        congr 1
      have hsplit := reach_add dst (n - tot - m) m tot
      rw [show m + (n - tot - m) = n - tot by omega] at hsplit
      have hle := reach_le dst m tot
      by_cases hc : reach dst tot m < m
      · rw [if_pos hc]
        rw [if_neg (by omega)] at hsplit
        refine ⟨?_, rfl⟩
        simp only [readResult, hsplit]
        rw [if_neg (by omega), hbytes]
      · rw [if_neg hc]
        have hcm : reach dst tot m = m := by omega
        rw [if_pos hcm] at hsplit
        refine wp_of_run (ih (tot + m) (off + m) _ (by omega) (by omega) fun x h1 h2 =>
          hthere x (by omega) (by omega)) ?_
        refine ⟨?_, rfl⟩
        rw [hbytes]
        simp only [readResult, hsplit, hcm, show n - (tot + m) = n - tot - m by omega]
        congr 1
        · have : (m + reach dst (tot + m) (n - tot - m) = n - tot) ↔
            reach dst (tot + m) (n - tot - m) = n - tot - m := by omega
          simp only [this]
          split
          · omega
          · rfl
        · rw [List.append_assoc, List.range_add, List.map_append, List.map_map]
          congr 3
          funext k
          simp only [Function.comp_apply]
          rw [Nat.add_assoc]
    · rw [if_neg hlt]
      have e : n - tot = 0 := by omega
      simp [readResult, e, reach]

/-- The bytes a read at `off` of `n` finds in a file of `size` bytes. -/
def readCount (size off n : Nat) : Nat := if off > size ∨ add32 off n < off then 0 else min n (size - off)

/-- On a file without holes `readi` copies the bytes there are, and changes nothing. -/
theorem readi_eq (h : Rep sb s V dirty) (hp : Loaded s ip i) (hi : Live sb V i) (hs : Sound sb V) (hf : HoleFree V i)
    (dst : Nat → Bool) (off n : Nat) :
    readi sb ip dst off n s = .ok (readResult dst (V.raw i) 0 off (readCount (V.ino i).size off n), s) := by
  have hsize : (s.inode ip).size = (V.ino i).size := congrArg Dinode.size (loaded_ino h hp)
  apply wp_run
  rw [readi, wp_bind, wp_getInode, hsize, readCount]
  by_cases hbad : off > (V.ino i).size ∨ add32 off n < off
  · rw [if_pos hbad, if_pos hbad]
    exact ⟨rfl, rfl⟩
  rw [if_neg hbad, if_neg hbad]
  have hn : (if off + n > (V.ino i).size then (V.ino i).size - off else n) = min n ((V.ino i).size - off) := by
    split <;> omega
  rw [hn]
  have := readiFrom_eq h hp hi hs dst (min n ((V.ino i).size - off)) (min n ((V.ino i).size - off)) 0 off []
    (Nat.zero_le _)
    (Nat.sub_le _ _) fun x h1 h2 => hf (x / BSIZE) (by simp only [BSIZE] at *; omega)
  exact wp_of_run this ⟨rfl, rfl⟩

/-! ## writei -/

/-- How many blocks the `l` bytes from `off` on lie in. -/
def blocks (off l : Nat) : Nat := if l = 0 then 0 else (off % BSIZE + l + (BSIZE - 1)) / BSIZE

theorem blocks_step (off : Nat) {l : Nat} (h : 0 < l) :
    blocks off l = blocks (off + min l (BSIZE - off % BSIZE)) (l - min l (BSIZE - off % BSIZE)) + 1 := by
  rw [blocks, blocks, if_neg (by omega)]
  by_cases hl : l ≤ BSIZE - off % BSIZE
  · rw [Nat.min_eq_left hl, Nat.sub_self, if_pos rfl]
    simp only [BSIZE] at *
    omega
  · rw [if_neg (by omega)]
    simp only [BSIZE] at *
    omega

/-- Slot `l` is none that a write of the `m` bytes from `off` on looks at. -/
def Apart (off m l : Nat) :
    Prop := ∀ x, off ≤ x → x < off + m → l ≠ slotOf (x / BSIZE) ∧ (l = NDIRECT → x / BSIZE < NDIRECT)

/-- Where `writei`'s loop stopped: at the end, for want of a block, or after `c` bytes of a
    block, where the source could not be read on. -/
inductive Stop (V : Vol) (i : Nat) (src : Nat → Option UInt8) (n : Nat) : Nat × Nat → Nat → Prop
  | done (off : Nat) : Stop V i src n (n, off) 0
  | full (tot off : Nat) : V.addr i (off / BSIZE) = 0 → Stop V i src n (tot, off) 0
  | cut (tot off : Nat) : tot < n → V.addr i (off / BSIZE) ≠ 0 →
      reach (fun k => (src k).isSome) tot (min (n - tot) (BSIZE - off % BSIZE)) < min (n - tot) (BSIZE - off % BSIZE) →
      Stop V i src n (tot, off) (reach (fun k => (src k).isSome) tot (min (n - tot) (BSIZE - off % BSIZE)))

section

variable (h : Stop V i src n r c)

include h

theorem stop_le (hr : r.1 ≤ n) : r.1 + c ≤ n := by
  cases h with
  | done off => exact Nat.le_refl _
  | full tot off h0 => exact hr
  | cut tot off hlt h0 hc =>
    omega

theorem stop_congr (ha : V'.addr i (r.2 / BSIZE) = V.addr i (r.2 / BSIZE)) : Stop V' i src n r c := by
  cases h with
  | done off => exact .done off
  | full tot off h0 => exact .full tot off (ha.trans h0)
  | cut tot off hlt h0 hc => exact .cut tot off hlt (by rw [ha]; exact h0) hc

/-- A source that can be read to its end is not cut. -/
theorem stop_readable (hsrc : ∀ k < n, (src k).isSome = true) : c = 0 := by
  cases h with
  | done off | full tot off h0 => rfl
  | cut tot off hlt h0 hc =>
    rw [reach_all _ tot fun j h1 h2 => hsrc j (by omega)] at hc
    omega

/-- With such a source it stops before its end only for want of a block. -/
theorem stop_full (hsrc : ∀ k < n, (src k).isSome = true) (hr : r.1 < n) : V.addr i (r.2 / BSIZE) = 0 := by
  cases h with
  | done off => exact absurd hr (Nat.lt_irrefl n)
  | full tot off h0 => exact h0
  | cut tot off hlt _ hc =>
    rw [reach_all _ tot fun j h1 h2 => hsrc j (by omega)] at hc
    omega

end

/-- The bytes that the loop left, and the buffers: what is not in the log has not changed,
    but for the block that a copy was cut in. -/
structure Copied (s : St) (V : Vol) (i : Nat) (src : Nat → Option UInt8) (n tot off : Nat)
    (r : Nat × Nat) (t : St) (V' : Vol)
    (c : Nat) : Prop where
  stop : Stop V' i src n r c
  raw : ∀ x, V'.raw i x = if off ≤ x ∧ x < r.2 + c then (src (tot + (x - off))).getD 0 else V.raw i x
  data : ∀ b, b ∉ t.log.lh → t.data b = s.data b ∨ r.1 < n ∧ b ≠ 0 ∧ b = V'.addr i (r.2 / BSIZE)
  aligned : r.1 < n → r.1 = tot ∨ r.2 % BSIZE = 0
  read : ∀ k, tot ≤ k → k < r.1 → (src k).isSome = true

/-- `writei`'s loop wrote from `tot` and `off` on, and ended at `r`. -/
structure Written (sb : Superblock) (s : St) (V : Vol) (ip : Idx) (i : Nat) (src : Nat → Option UInt8) (n tot off : Nat)
    (r : Nat × Nat) (t : St) (V' : Vol) : Prop where
  rep : Rep sb t V' (some ip)
  tame : Tame sb s V t V'
  inode : t.inode = putIno s ip (V'.ino i)
  grow : Ext sb i V V'
  ge : tot ≤ r.1
  le : r.1 ≤ n
  adv : r.2 + tot = off + r.1
  there : ∀ x, off ≤ x → x < r.2 → V'.addr i (x / BSIZE) ≠ 0
  copied : ∃ c, Copied s V i src n tot off r t V' c
  only : ∀ l, Apart off (min (n - tot) (r.2 + 1 - off)) l → V'.slot i l = V.slot i l
  full : r.1 < n → V'.addr i (r.2 / BSIZE) = 0 → ∀ c < sb.size, V'.used c = true
  /-- What lies in the first block is written as a whole or not at all. -/
  chunk : r.1 = tot ∨ tot + min (n - tot) (BSIZE - off % BSIZE) ≤ r.1

theorem written_stop (hrep : Rep sb t V' (some ip)) (htame : Tame sb s V t V')
    (hino : t.inode = putIno s ip (V'.ino i)) (hext : Ext sb i V V') (hraw : ∀ x, V'.raw i x = V.raw i x)
    (htot : tot ≤ n) (hdata : ∀ b, b ∉ t.log.lh → t.data b = s.data b) (hend : Stop V' i src n (tot, off) 0)
    (honly : ∀ l, Apart off (min (n - tot) 1) l → V'.slot i l = V.slot i l)
    (hfull : tot < n → ∀ c < sb.size, V'.used c = true) :
    Written sb s V ip i src n tot off (tot, off) t V' where
  rep := hrep
  tame := htame
  inode := hino
  grow := hext
  ge := Nat.le_refl _
  le := htot
  adv := rfl
  there := fun x h1 h2 => by omega
  copied := ⟨0, hend, fun x => by rw [if_neg (by simp only; omega)]; exact hraw x, fun b hb => .inl (hdata b hb),
    fun _ => .inl rfl,
    fun k h1 h2 => absurd h1 (Nat.not_le.mpr h2)⟩
  only := fun l hl => honly l (by rwa [Nat.add_sub_cancel_left] at hl)
  full := fun hlt _ => hfull hlt
  chunk := .inl rfl

theorem written_none (h : Rep sb s V (some ip)) (hp : Loaded s ip i) (hs : Sound sb V) :
    Written sb s V ip i src n n off (n, off) s V :=
  written_stop h tame_refl (putIno_self h hp).symm (ext_refl hs) (fun _ => rfl) (Nat.le_refl n)
  (fun _ _ => rfl) (.done off)
    (fun _ _ => rfl) fun h' => absurd h' (Nat.lt_irrefl n)

theorem written_outside (h : Written sb s V ip i src n tot off r t V') {x : Nat} (hx : x < off ∨ off + (n - tot) ≤ x) :
    V'.raw i x = V.raw i x := by
  obtain ⟨c, hc⟩ := h.copied
  have h1 := stop_le hc.stop h.le
  have h2 := h.adv
  rw [hc.raw, if_neg (by omega)]

/-- With a source that can be read to its end: exactly these bytes. -/
theorem written_exact (h : Written sb s V ip i src n tot off r t V') (hsrc : ∀ k < n, (src k).isSome = true) (x : Nat) :
    V'.raw i x = if off ≤ x ∧ x < r.2 then (src (tot + (x - off))).getD 0 else V.raw i x := by
  obtain ⟨c, hc⟩ := h.copied
  rw [hc.raw, stop_readable hc.stop hsrc]
  rfl

/-- Only inode `i` holds its data block, as a data block. -/
theorem loose_data (hs : Sound sb V) (hi : Live sb V i) (h0 : V.addr i bn ≠ 0) (hT : (V.ino i).type ≠ T_DIR) :
    Loose sb V (V.addr i bn) := by
  refine ⟨(hs.range _ _ _ ⟨hi, rfl, h0⟩).1, fun j l hjl => ?_⟩
  obtain ⟨h1, h2⟩ := hs.once j l i (slotOf bn) _ hjl ⟨hi, rfl, h0⟩
  rw [h1, h2]
  exact ⟨hT, slotOf_ne bn⟩

theorem tame_data {d : Block} (hs : Sound sb V) (hi : Live sb V i) (hb : V.addr i bn = b) (h0 : b ≠ 0)
    (hdata : t.data = upd s.data b d) (hfile : t.file = s.file) (hproc : t.proc = s.proc)
    (hhome : t.home = s.home) (hout : t.log.outstanding = s.log.outstanding)
    (hcom : t.log.committing = s.log.committing) (hlh : ∀ c, c ∈ s.log.lh → c ∈ t.log.lh)
    (hlog : b ∈ t.log.lh ∨ (V.ino i).type ≠ T_DIR) : Tame sb s V t (V.write b d) := by
  subst hb
  have hh := write_holds d hs hi h0
  refine ⟨hfile, hproc, hhome, hout, hcom, hlh, fun c hc => ?_, fun j l c hc _ => ⟨(hh j l c).mp hc, rfl⟩⟩
  by_cases e : c = V.addr i bn
  · right
    subst e
    obtain ⟨h1, h2⟩ := loose_data hs hi h0 (hlog.resolve_left hc)
    exact ⟨h1, fun j l hjl => h2 j l ((hh j l _).mp hjl)⟩
  · left
    rw [hdata, upd_ne _ _ e]

theorem mapped_apart {m l : Nat} (h : Mapped sb s V ip i (slotOf (off / BSIZE)) b t V') (hl : Apart off m l)
    (hm : 0 < m) :
    V'.slot i l = V.slot i l := by
  obtain ⟨h1, h2⟩ := hl off (Nat.le_refl _) (by omega)
  refine h.only l h1 fun e => ?_
  unfold slotOf
  rw [if_pos (h2 e)]
  exact Nat.le_of_lt (h2 e)

/-- The copy from the source failed inside the block: the bytes it got stay in the buffer, which
    is not logged. -/
theorem written_cut {t1 t2 : St} {V1 V2 : Vol} {d : Block} (htot : tot < n)
    (hm : Mapped sb s V ip i (slotOf (off / BSIZE)) b t1 V1) (h0 : b ≠ 0) (hrep : Rep sb t2 V2 (some ip))
    (htame : Tame sb t1 V1 t2 V2) (hext : Ext sb i V1 V2) (hino : t2.inode = putIno s ip (V2.ino i))
    (hlog : t2.log = t1.log) (hdata : t2.data = upd t1.data b d) (hslot : ∀ l, V2.slot i l = V1.slot i l)
    (hcut : reach (fun k => (src k).isSome) tot (min (n - tot) (BSIZE - off % BSIZE)) = c)
    (hc : c < min (n - tot) (BSIZE - off % BSIZE))
    (hraw : ∀ x, V2.raw i x = if off ≤ x ∧ x < off + c then (src (tot + (x - off))).getD 0 else V1.raw i x) :
    Written sb s V ip i src n tot off (tot, off) t2 V2 := by
  have hb : V2.addr i (off / BSIZE) = b := (hslot _).trans hm.slot
  refine ⟨hrep, tame_trans hm.tame htame, hino, ext_trans hm.grow hext, Nat.le_refl _, Nat.le_of_lt htot, rfl,
    fun x h1 h2 => ?_, ⟨c, ?_, fun x => ?_, fun a ha => ?_, fun _ => .inl rfl, fun k h1 h2 => ?_⟩,
    fun l hl => (hslot l).trans (mapped_apart hm hl (by omega)), fun _ hz => ?_, .inl rfl⟩
  · omega
  · rw [← hcut] at hc ⊢
    exact .cut tot off htot (by rw [hb]; exact h0) hc
  · rw [hraw, hm.raw x]
  · by_cases e : a = b
    · exact .inr ⟨htot, by rw [e]; exact h0, by rw [hb]; exact e⟩
    · rw [hlog] at ha
      rw [hdata, upd_ne _ _ e]
      exact .inl (hm.data a ha)
  · exact absurd h1 (Nat.not_le.mpr h2)
  · exact absurd (hb.symm.trans hz) h0

/-- One block written, then the rest of the loop. -/
theorem written_step {m : Nat} {t1 t2 : St} {V1 V2 : Vol}
    (hm : Mapped sb s V ip i (slotOf (off / BSIZE)) b t1 V1) (htame : Tame sb t1 V1 t2 V2)
    (hino : t2.inode = t1.inode) (hext : Ext sb i V1 V2) (hmin : min (n - tot) (BSIZE - off % BSIZE) = m)
    (htot : tot < n)
    (hraw : ∀ x, V2.raw i x = if off ≤ x ∧ x < off + m then (src (tot + (x - off))).getD 0 else V1.raw i x)
    (hblk : ∀ x, off ≤ x → x < off + m → V2.addr i (x / BSIZE) ≠ 0)
    (hdata : ∀ b, b ∉ t2.log.lh → t2.data b = t1.data b)
    (hread : ∀ k, tot ≤ k → k < tot + m → (src k).isSome = true) (hslot : ∀ l, V2.slot i l = V1.slot i l)
    (h : Written sb t2 V2 ip i src n (tot + m) (off + m) r t V') :
    Written sb s V ip i src n tot off r t V' where
  rep := h.rep
  tame := tame_trans (tame_trans hm.tame htame) h.tame
  inode := h.inode.trans (putIno_again (hino.trans hm.inode))
  grow := ext_trans (ext_trans hm.grow hext) h.grow
  ge := Nat.le_trans (Nat.le_add_right _ _) h.ge
  le := h.le
  adv := by have := h.adv; omega
  there := fun x h1 h2 => by
    by_cases hx : x < off + m
    · rw [ext_addr h.grow (hblk x h1 hx)]
      exact hblk x h1 hx
    · exact h.there x (by omega) h2
  copied := by
    obtain ⟨c, hc⟩ := h.copied
    have h1 := h.adv
    have h2 := h.ge
    refine ⟨c, hc.stop, fun x => ?_, fun b hb => ?_, fun hlt => ?_, fun k h1 h2 => ?_⟩
    · rw [hc.raw, hraw]
      by_cases hx : off + m ≤ x ∧ x < r.2 + c
      · rw [if_pos hx, if_pos (by omega), show tot + m + (x - (off + m)) = tot + (x - off) by omega]
      · rw [if_neg hx]
        by_cases hx' : off ≤ x ∧ x < off + m
        · rw [if_pos hx', if_pos (by omega)]
        · rw [if_neg hx', if_neg (by omega)]
          exact hm.raw x
    · have hb2 : b ∉ t2.log.lh := fun hm' => hb (h.tame.lh b hm')
      refine (hc.data b hb).imp_left fun he => ?_
      rw [he, hdata b hb2, hm.data b fun hm' => hb2 (htame.lh b hm')]
    · refine .inr ((hc.aligned hlt).elim (fun he => ?_) id)
      simp only [BSIZE] at *
      omega
    · by_cases hk : k < tot + m
      · exact hread k h1 hk
      · exact hc.read k (by omega) h2
  only := fun l hl => by
    have h1 := h.adv
    have h2 := h.ge
    rw [h.only l (fun x hx hxn => hl x (by omega) (by omega)), hslot l, mapped_apart hm hl (by omega)]
  full := h.full
  chunk := .inr (by rw [hmin]; exact h.ge)

/-- A block of the `n` bytes at `off` adds at most `c` entries to the log: itself, and what
    `bmap` logs if it is not there. -/
def Costs (V : Vol) (i off n c : Nat) : Prop := 6 ≤ c ∨ 1 ≤ c ∧ ∀ x, off ≤ x → x < off + n → V.addr i (x / BSIZE) ≠ 0

theorem costs_any : Costs V i off n 6 := .inl (Nat.le_refl 6)

/-- `bmap` in the loop of `writei`. -/
theorem bmap_costs {c m : Nat} (hl : sb.Layout) (h : Rep sb s V (some ip)) (hp : Loaded s ip i)
    (hi : Live sb V i) (hs : Sound sb V) (hbn : off / BSIZE < MAXFILE) (hc : Costs V i off m c) (hm : 0 < m)
    (hr : Room E (n + c) s) {Q : Nat → St → Prop}
    (hq : ∀ r t V', Mapped sb s V ip i (slotOf (off / BSIZE)) r t V' → Room E (n + 1) t → Q r t) :
    wp (bmap sb ip (off / BSIZE)) Q E s := by
  rcases hc with hc | ⟨hc, hthere⟩
  · exact bmap_spec hl h (fun e he => by cases he; rfl) hp hi hs hbn (n := n + 1) (room_le hr (by omega)) hq
  · have h0 := hthere off (Nat.le_refl _) (by omega)
    exact wp_of_run (bmap_hit h hp hi hs hbn h0)
      (hq _ s V (mapped_same h (fun e he => by cases he; rfl) hp hs rfl fun e => absurd e h0) (room_le hr (by omega)))

theorem writeiFrom_spec (hl : sb.Layout) {N c : Nat} (fuel : Nat) : ∀ {s : St} {V : Vol} (tot off : Nat),
    Rep sb s V (some ip) → Loaded s ip i → Live sb V i → Sound sb V → tot ≤ N → N - tot ≤ fuel →
      off + (N - tot) ≤ MAXFILE * BSIZE → ((∀ k < N, (src k).isSome = true) ∨ (V.ino i).type ≠ T_DIR) →
      Costs V i off (N - tot) c → Room E (c * blocks off (N - tot) + n) s → ∀ {Q : Nat × Nat → St → Prop},
      (∀ r t V', Written sb s V ip i src N tot off r t V' → Room E n t → Q r t) →
      wp (writeiFrom sb ip src N fuel tot off) Q E s := by
  induction fuel with
  | zero =>
    intro s V tot off h hp hi hs htot hfuel _ _ _ hr Q hq
    obtain rfl : tot = N := by omega
    exact hq _ _ _ (written_none h hp hs) (room_le hr (by omega))
  | succ fuel ih =>
    intro s V tot off h hp hi hs htot hfuel hmax hsrc hcost hr Q hq
    rw [writeiFrom]
    by_cases hlt : tot < N
    · rw [if_pos hlt, wp_bind]
      have hbl := blocks_step off (Nat.sub_pos_of_lt hlt)
      have hbn : off / BSIZE < MAXFILE := by
        simp only [MAXFILE, NDIRECT, NINDIRECT, BSIZE] at *
        omega
      have hm : min (N - tot) (BSIZE - off % BSIZE) ≤ BSIZE - off % BSIZE := Nat.min_le_right _ _
      have hm0 : 0 < min (N - tot) (BSIZE - off % BSIZE) := by simp only [BSIZE]; omega
      have hmn : min (N - tot) (BSIZE - off % BSIZE) ≤ N - tot := Nat.min_le_left _ _
      generalize hmin : min (N - tot) (BSIZE - off % BSIZE) = m at hm hm0 hmn hbl
      rw [hbl, Nat.mul_succ, Nat.add_right_comm] at hr
      refine bmap_costs hl h hp hi hs hbn hcost (by omega) hr fun b t1 V1 hmap hr1 => ?_
      have honly : ∀ l, Apart off (min (N - tot) 1) l → V1.slot i l = V.slot i l :=
        fun l hl => mapped_apart hmap hl (by omega)
      by_cases hb0 : b = 0
      · rw [if_pos hb0]
        refine hq _ _ _ (written_stop hmap.rep hmap.tame hmap.inode hmap.grow hmap.raw htot hmap.data (.full tot off ?_)
          honly fun _ => hmap.full hb0)
          (room_le hr1 (by omega))
        exact hmap.slot.trans hb0
      · rw [if_neg hb0, wp_bind, wp_bread]
        have hb : V1.addr i (off / BSIZE) = b := hmap.slot
        have hi1 : Live sb V1 i := (ext_live hmap.grow i).mpr hi
        have hs1 := hmap.grow.sound
        have h0 : V1.addr i (off / BSIZE) ≠ 0 := hb ▸ hb0
        have hrange := hs1.range _ _ _ ⟨hi1, hb, hb0⟩
        have hT : (V1.ino i).type = (V.ino i).type := ext_type hmap.grow i
        rw [hmap.rep.blk b hrange.1]
        subst hb
        have hd : Ext sb i V1 _ := ext_write ((V1.blk (V1.addr i (off / BSIZE))).splice (off % BSIZE)
          (reach (fun k => (src k).isSome) tot m) fun k => (src (tot + k)).getD 0) hs1 hi1 h0
        have hraw := raw_splice hs1 hi1 h0 (Nat.le_trans (reach_le (fun k => (src k).isSome) m tot) hm) fun k =>
          (src (tot + k)).getD 0
        have hall : (∀ k < N, (src k).isSome = true) → reach (fun k => (src k).isSome) tot m = m := fun hsome =>
          reach_all m tot fun j h1 h2 => hsome j (by omega)
        have hle := reach_le (fun k => (src k).isSome) m tot
        rw [wp_bind, bput, wp_modify]
        generalize (V1.blk (V1.addr i (off / BSIZE))).splice (off % BSIZE) (reach (fun k => (src k).isSome) tot m)
          (fun k => (src (tot + k)).getD 0) = d at hd hraw
        by_cases hc : reach (fun k => (src k).isSome) tot m < m
        · have hfile : (V1.ino i).type ≠ T_DIR := by
            rw [hT]
            exact hsrc.resolve_left fun hsome => by rw [hall hsome] at hc; omega
          rw [if_pos hc, wp_bind]
          subst hmin
          exact hq _ _ _ (written_cut hlt hmap h0 (rep_data hl hmap.rep hrange.1 rfl rfl)
            (tame_data hs1 hi1 rfl h0 rfl rfl rfl rfl rfl rfl (fun _ => id) (.inr hfile)) hd hmap.inode rfl rfl
            (write_slot d hs1 hi1 h0 hi1) rfl hc hraw) (room_le hr1 (by omega))
        · rw [if_neg hc, wp_bind]
          refine wp_logWrite (s := { t1.withBufs (V1.addr i (off / BSIZE) :: t1.bufs) with data := _ })
            (logs_room _) hr1
            fun l ho hcm hlh hr2 => ?_
          rw [wp_bind, wp_brelse]
          generalize hu : St.withBufs _ _ = u
          have hceq : reach (fun k => (src k).isSome) tot m = m := by omega
          have hdata : u.data = upd t1.data (V1.addr i (off / BSIZE)) d := by rw [← hu]; rfl
          have hino : u.inode = t1.inode := by rw [← hu]; rfl
          have hlog : u.log = l := by rw [← hu]; rfl
          have hrep := rep_data hl hmap.rep hrange.1 hdata hino
          have htame := tame_data hs1 hi1 rfl h0 hdata (by rw [← hu]; rfl) (by rw [← hu]; rfl) (by rw [← hu]; rfl)
            (by rw [hlog]; exact ho) (by rw [hlog]; exact hcm) (by rw [hlog]; exact fun c hc' => (hlh c).mpr (.inl hc'))
            (.inl (by rw [hlog]; exact (hlh _).mpr (.inr rfl)))
          refine ih (tot + m) (off + m) hrep (loaded_put (s := s) (hino.trans hmap.inode) hp)
            ((ext_live hd i).mpr hi1) hd.sound (by omega) (by omega) (by omega) ?_ ?_ ?_ fun r t V' hw hrt => ?_
          · rw [ext_type hd i, hT]
            exact hsrc
          · refine hcost.imp_right fun hcost => ⟨hcost.1, fun x h1 h2 => ?_⟩
            have hx := hcost.2 x (by omega) (by omega)
            rw [ext_addr (ext_trans hmap.grow hd) hx]
            exact hx
          · rw [show N - (tot + m) = N - tot - m by omega, ← hu]
            exact hr2
          · rw [hceq] at hraw
            refine hq r t V' (written_step hmap htame hino hd hmin hlt hraw (fun x h1 h2 => ?_)
              (fun b hb => ?_) (fun k h1 h2 => ?_)
              (fun l => write_slot d hs1 hi1 h0 hi1 l) hw) hrt
            · have hx : x / BSIZE = off / BSIZE := by simp only [BSIZE] at *; omega
              rw [hx, ext_addr hd h0]
              exact h0
            · have hne : b ≠ V1.addr i (off / BSIZE) := fun e => hb (by rw [hlog]; exact (hlh b).mpr (.inr e))
              rw [hdata, upd_ne _ _ hne]
            · exact reach_ok (fun k => (src k).isSome) m tot k h1 (by omega)
    · rw [if_neg hlt]
      obtain rfl : tot = N := by omega
      exact hq _ _ _ (written_none h hp hs) (room_le hr (by omega))

/-- `writei` wrote `r` of the `n` bytes at `off`. -/
structure Filled (sb : Superblock) (s : St) (V : Vol) (ip : Idx) (i : Nat) (src : Nat → Option UInt8) (off n r : Nat)
    (t : St) (V' : Vol) : Prop where
  rep : Rep sb t V' none
  tame : Tame sb s V t V'
  inode : t.inode = putIno s ip (V'.ino i)
  sound : Sound sb V'
  noLeak : NoLeak sb V → NoLeak sb V'
  ino : ∀ j, j ≠ i → V'.ino j = V.ino j
  hdr : V'.ino i = { V.ino i with addrs := (V'.ino i).addrs, size := max (V.ino i).size (off + r) }
  le : r ≤ n
  slot : ∀ j, j ≠ i → Live sb V j → ∀ k, V'.slot j k = V.slot j k
  raw : ∀ j, j ≠ i → Live sb V j → ∀ x, V'.raw j x = V.raw j x
  holeFree : HoleFree V i → HoleFree V' i
  gains : Gains i V V'
  only : ∀ l, Apart off (min n (r + 1)) l → V'.slot i l = V.slot i l
  there : ∀ x, off ≤ x → x < off + r → V'.addr i (x / BSIZE) ≠ 0
  copied : ∃ c, Copied s V i src n 0 off (r, off + r) t V' c
  outside : ∀ x, x < off ∨ off + n ≤ x → V'.raw i x = V.raw i x
  exact : (∀ k < n, (src k).isSome = true) → ∀ x,
    V'.raw i x = if off ≤ x ∧ x < off + r then (src (x - off)).getD 0 else V.raw i x
  full : r < n → V'.addr i ((off + r) / BSIZE) = 0 → ∀ c < sb.size, V'.used c = true
  chunk : r = 0 ∨ min n (BSIZE - off % BSIZE) ≤ r

theorem filled_type {r : Nat} (h : Filled sb s V ip i src off n r t V') (j : Nat) :
    (V'.ino j).type = (V.ino j).type := by
  by_cases hj : j = i
  · subst hj; rw [h.hdr]
  · rw [h.ino j hj]

theorem filled_live {r : Nat} (h : Filled sb s V ip i src off n r t V') (j : Nat) : Live sb V' j ↔ Live sb V j := by
  simp only [Live, filled_type h j]

/-- Bytes that can be read and were not written lack a block, and no block is free. -/
theorem filled_full {r : Nat} (h : Filled sb s V ip i src off n r t V')
    (hsrc : ∀ k < n, (src k).isSome = true) (hr : r < n) :
    (∀ c < sb.size, V'.used c = true) ∧ V'.addr i ((off + r) / BSIZE) = 0 := by
  obtain ⟨c, hc⟩ := h.copied
  have h0 := stop_full hc.stop hsrc hr
  exact ⟨h.full hr h0, h0⟩

/-- The loop, then the new size: what `writei` leaves in memory. -/
theorem filled_written {u : St} {W : Vol} (hw : Written sb s V ip i src n 0 off r t V')
    (hmax : off + n ≤ MAXFILE * BSIZE) (hoff : off ≤ (V.ino i).size)
    (hW : W = V'.setIno i ((V'.ino i).setSize (max (V.ino i).size (off + r.1)))) (hrep : Rep sb u W none)
    (htame : Tame sb t V' u W) (hino : u.inode = putIno t ip (W.ino i)) (hi : Live sb V i) :
    Filled sb s V ip i src off n r.1 u W := by
  obtain ⟨tot, off'⟩ := r
  have hadv := hw.adv
  obtain rfl : off' = off + tot := by simp only at hadv; omega
  have hle := hw.le
  have hg := hw.grow
  have hdr : W.ino i = (V'.ino i).setSize (max (V.ino i).size (off + tot)) := by rw [hW]; exact upd_same _ _ _
  have hslot : ∀ j k, W.slot j k = V'.slot j k := by rw [hW]; exact setIno_slot rfl
  have hraw : ∀ j x, W.raw j x = V'.raw j x := by rw [hW]; exact setIno_raw rfl
  have haddr : ∀ bn, W.addr i bn = V'.addr i bn := fun bn => hslot i _
  refine ⟨hrep, tame_trans hw.tame htame, by rw [hino,
    putIno_again hw.inode], by rw [hW]; exact setIno_sound rfl rfl hg.sound,
    fun hn => by rw [hW]; exact setIno_noLeak rfl rfl (ext_noLeak hg hi hn), fun j hj => ?_, ?_, hle, ?_, ?_, ?_,
    gains_trans hg.toGains (gains_same (hslot i) (by rw [hW]; rfl)), fun l hl => ?_, fun x h1 h2 => ?_, ?_, ?_, ?_, ?_,
    hw.chunk.imp_right fun h => by simpa using h⟩
  · rw [hW, ← hg.ino j hj]
    exact upd_ne _ _ hj
  · rw [hdr, hg.hdr]
    rfl
  · exact fun j hj hl k => (hslot j k).trans (hg.slot j hj hl k)
  · exact fun j hj hl x => (hraw j x).trans (hg.raw j hj hl x)
  -- below the old size the blocks were there; from there to the new one the loop went
  · intro hf bn hbn
    rw [hdr] at hbn
    simp only [Dinode.setSize] at hbn
    rw [haddr]
    by_cases hb : bn * BSIZE < (V.ino i).size
    · obtain ⟨h1, h2⟩ := hf bn hb
      exact ⟨h1, by rw [ext_addr hg h2]; exact h2⟩
    have h1 := hw.there (bn * BSIZE) (by omega) (by omega)
    rw [show bn * BSIZE / BSIZE = bn by simp only [BSIZE]; omega] at h1
    refine ⟨?_, h1⟩
    simp only [MAXFILE, NDIRECT, NINDIRECT, BSIZE] at *
    omega
  · rw [hslot, hw.only l]
    rwa [Nat.add_assoc, Nat.add_sub_cancel_left]
  · rw [haddr]
    exact hw.there x h1 h2
  · obtain ⟨c, hc⟩ := hw.copied
    refine ⟨c, stop_congr hc.stop (haddr _), fun x => by rw [hraw]; exact hc.raw x, fun b hb => ?_, hc.aligned, hc.read⟩
    have hsame : u.data b = t.data b := by
      refine (htame.data b hb).elim id fun hloose => ?_
      rw [hrep.blk b hloose.1, hw.rep.blk b hloose.1, hW]
      rfl
    rw [hsame, haddr]
    exact hc.data b fun hm => hb (htame.lh b hm)
  · intro x hx
    rw [hraw]
    exact written_outside hw (by omega)
  · intro hsrc x
    rw [hraw, written_exact hw hsrc x, Nat.zero_add]
  · rw [haddr, hW]
    exact hw.full

theorem writei_spec (hl : sb.Layout) (h : Rep sb s V none) (hp : Loaded s ip i) (hi : Live sb V i)
    (hs : Sound sb V) {m : Nat} (hsrc : (∀ k < n, (src k).isSome = true) ∨ (V.ino i).type ≠ T_DIR) {c : Nat}
    (hc : Costs V i off n c) (hr : Room E (c * blocks off n + 1 + m) s) {Q : Int → St → Prop}
    (hbad : off > (V.ino i).size ∨ add32 off n < off ∨ off + n > MAXFILE * BSIZE → Q (-1) s)
    (hq : ∀ (r : Nat) t V', off ≤ (V.ino i).size → Filled sb s V ip i src off n r t V' → Room E m t → Q r t) :
    wp (writei sb ip src off n) Q E s := by
  have hsize : (s.inode ip).size = (V.ino i).size := congrArg Dinode.size (loaded_ino h hp)
  rw [writei, wp_bind, wp_getInode, hsize]
  by_cases h1 : off > (V.ino i).size ∨ add32 off n < off
  · rw [if_pos h1]
    exact hbad (h1.imp_right .inl)
  rw [if_neg h1]
  by_cases h2 : off + n > MAXFILE * BSIZE
  · rw [if_pos h2]
    exact hbad (.inr (.inr h2))
  have hoff : off ≤ (V.ino i).size := by omega
  have hd0 : ∀ e, none = some e → e = ip := fun e he => by cases he
  rw [if_neg h2, wp_bind]
  refine writeiFrom_spec hl n 0 off (rep_dirty h hd0) hp hi hs (Nat.zero_le _) (Nat.sub_le _ _) (by omega) hsrc hc
    (n := 1 + m) (room_le hr (Nat.le_of_eq (Nat.add_assoc _ _ _).symm)) fun r t V' hw hrt => ?_
  have hpt := loaded_put hw.inode hp
  have hsz : (V'.ino i).size = (V.ino i).size := by rw [hw.grow.hdr]
  have hadv := hw.adv
  have hle := hw.le
  have hi' : Live sb V' i := (ext_live hw.grow i).mpr hi
  have hfits := hw.rep.fits i hi'.1
  have hmax : off + n ≤ 274432 := by simp only [MAXFILE, NDIRECT, NINDIRECT, BSIZE] at h2; omega
  have hfit : ((V'.ino i).setSize (max (V.ino i).size (off + r.1))).Fits :=
    Dinode.fits_setSize hfits (by have := hfits.size; omega)
  obtain ⟨tot, off'⟩ := r
  refine wp_update hl hw.rep hpt (fun e he => by cases he; rfl)
    (d := (V'.ino i).setSize (max (V.ino i).size (off + tot)))
    ?_ hfit rfl rfl hi'.2 (logs_room _) (room_le hrt (by omega : m + 1 ≤ _)) fun u hrepu htu hinou hru => ?_
  · have hmem := loaded_ino hw.rep hpt
    have hmax' : (if off' > (V.ino i).size then off' else (V.ino i).size) = max (V.ino i).size (off + tot) := by
      split <;> omega
    rw [hmem, hsz, hmax']
    rfl
  · exact hq tot u _ hoff (filled_written hw (by omega) hoff rfl hrepu htu
      (by rw [hinou]; simp only [setIno, upd_same]) hi) hru

end Xv6.Fs
