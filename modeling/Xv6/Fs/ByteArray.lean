/-
  Xv6.Fs.ByteArray — `readi` and `writei` implement a byte array: the content of a file
  is the list of its bytes, a read copies a range of it, a write overwrites a range and
  may lengthen it. What bounds one `writei` is the log: a call that logs more than the
  header holds panics (`writei_outgrows_log`). What it may log is `writeCost`.
-/

import Xv6.Fs.Bill
import Xv6.Fs.ContentProofs

namespace Xv6.Fs

open Lib Vol

section

variable {sb : Superblock} {s : St} {V : Vol} {ip : Idx} {i : Nat}

/-- `c` with the bytes `w` written at `off`. -/
def overwrite (c : List UInt8) (off : Nat) (w : List UInt8) : List UInt8 := c.take off ++ w ++ c.drop (off + w.length)

/-- The first `r` bytes of a source. -/
def srcBytes (src : Nat → Option UInt8) (r : Nat) : List UInt8 := (List.range r).map fun k => (src k).getD 0

theorem content_get {V : Vol} {i x : Nat} (h : x < (content V i).length) : (content V i)[x] = V.raw i x := by
  simp [content]

theorem srcBytes_length (src : Nat → Option UInt8) (r : Nat) : (srcBytes src r).length = r := by
  unfold srcBytes
  rw [List.length_map, List.length_range]

theorem add32_lt {off n : Nat} (hoff : off < 4294967296) (hn : n < 4294967296) :
    add32 off n < off ↔ 4294967296 ≤ off + n := by
  simp only [add32]
  omega

/-- A range of a file is what a read of it copies. -/
theorem read_content (dst : Nat → Bool) {off n : Nat} (hdst : ∀ k < n, dst k = true) :
    readResult dst (V.raw i) 0 off (min n ((V.ino i).size - off)) =
      (((((content V i).drop off).take n).length : Int), ((content V i).drop off).take n) := by
  have hr : reach dst 0 (min n ((V.ino i).size - off)) = min n ((V.ino i).size - off) :=
    reach_all _ 0 fun j _ h => hdst j (by omega)
  have hl : (((content V i).drop off).take n).length = min n ((V.ino i).size - off) := by
    rw [List.length_take, List.length_drop, content_length]
  rw [readResult, hr, hl]
  refine Prod.ext_iff.mpr ⟨by simp, ?_⟩
  apply List.ext_getElem
  · rw [hl, List.length_map, List.length_range]
  · intro k h1 h2
    rw [List.getElem_map, List.getElem_range, List.getElem_take, List.getElem_drop, content_get]

/-- The bytes after a write are the old ones overwritten. -/
theorem overwrite_content {V' : Vol} {src : Nat → Option UInt8} {off r : Nat} (hoff : off ≤ (V.ino i).size)
    (hsize : (V'.ino i).size = max (V.ino i).size (off + r))
    (hraw : ∀ x < (V'.ino i).size, V'.raw i x = if off ≤ x ∧ x < off + r then (src (x - off)).getD 0 else V.raw i x) :
    content V' i = overwrite (content V i) off (srcBytes src r) := by
  have hw := srcBytes_length src r
  have ht : ((content V i).take off).length = off := by rw [List.length_take, content_length]; omega
  apply List.ext_getElem
  · rw [overwrite, List.length_append, List.length_append, List.length_drop, content_length, content_length]
    omega
  · intro x h1 h2
    rw [content_get, hraw x (by rw [content_length] at h1; exact h1)]
    simp only [overwrite]
    -- before, inside or behind the range
    by_cases hlow : x < off
    · rw [if_neg (by omega), List.getElem_append_left (by rw [List.length_append]; omega),
        List.getElem_append_left (by omega),
        List.getElem_take, content_get]
    by_cases hin : x < off + r
    · rw [if_pos (by omega), List.getElem_append_left (by rw [List.length_append]; omega),
        List.getElem_append_right (by omega)]
      simp only [srcBytes, List.getElem_map, List.getElem_range, ht]
    · rw [if_neg (by omega), List.getElem_append_right (by rw [List.length_append]; omega),
        List.getElem_drop, content_get]
      congr 1
      rw [List.length_append]
      omega

theorem overwrite_length (c : List UInt8) (off : Nat) (w : List UInt8) (h : off ≤ c.length) :
    (overwrite c off w).length = max c.length (off + w.length) := by
  unfold overwrite
  rw [List.length_append, List.length_append, List.length_take, List.length_drop]
  omega

theorem overwrite_append {c w w' : List UInt8} {off : Nat} (h : off ≤ c.length) :
    overwrite (overwrite c off w) (off + w.length) w' = overwrite c off (w ++ w') := by
  have hlen : (c.take off ++ w).length = off + w.length := by
    rw [List.length_append, List.length_take]
    omega
  unfold overwrite
  rw [List.take_left' hlen, ← List.drop_drop, List.drop_left' hlen, List.drop_drop, List.length_append]
  simp only [List.append_assoc, Nat.add_assoc]

theorem srcBytes_add (src : Nat → Option UInt8) (a b : Nat) :
    srcBytes src (a + b) = srcBytes src a ++ srcBytes (fun j => src (a + j)) b := by
  unfold srcBytes
  rw [List.range_add, List.map_append, List.map_map]
  rfl

/-! ## The log -/

/-- How many entries `writei` may add to the log: the blocks it writes and the inode's; if the
    last of them is past the end of the file, also the indirect block and blocks of the bitmap. -/
def writeCost (sb : Superblock) (size off n : Nat) : Nat :=
  blocks off n + 1 +
    if (size + (BSIZE - 1)) / BSIZE * BSIZE < off + n then 1 + min (blocks off n + 1) (sb.size / BPB + 1) else 0

/-- A write that finds its blocks in the file logs no others. -/
theorem costs_there (hf : HoleFree V i) {off n : Nat}
    (h : off + n ≤ ((V.ino i).size + (BSIZE - 1)) / BSIZE * BSIZE) : Costs V i off n 1 := by
  refine .inr ⟨Nat.le_refl 1, fun x _ hx => (hf (x / BSIZE) ?_).2⟩
  simp only [BSIZE] at *
  omega

/-- A write that may need new blocks: those of the bitmap are counted all at once or one for
    each new block. -/
theorem writei_grows {src : Nat → Option UInt8} {off n : Nat} (hn : 0 < n) (hout : 1 ≤ s.log.outstanding)
    (hnodup : s.log.lh.Nodup)
    (hroom : s.log.lh.length + (blocks off n + 1 + (1 + min (blocks off n + 1) (sb.size / BPB + 1))) ≤ LOGBLOCKS) :
    wp (writei sb ip src off n) (fun _ _ => True) (· ≠ .log .tooBig) s := by
  have hE : ∀ x : Panic, x ≠ .log .tooBig → x ≠ .log .tooBig := fun _ => id
  have hN : off % BSIZE + n ≤ blocks off n * BSIZE := by
    rw [blocks, if_neg (by omega)]
    simp only [BSIZE]
    omega
  have hfits : ∀ {free : Nat → Prop}, (∀ b ∈ s.log.lh, free b) → (⟨free, 0⟩ : Bill).Fits s.log := fun hfree =>
    ⟨hnodup, fun h => by omega, [], Nat.le_refl _, fun b hb => .inl (hfree b hb)⟩
  rcases Nat.le_total (blocks off n + 1) (sb.size / BPB + 1) with hle | hle
  · rw [Nat.min_eq_left hle] at hroom
    refine writei_affords (g := ⟨fun b => b ∈ s.log.lh, 0⟩) (β := 1) hE (fun _ _ => .inr (Nat.le_refl 1))
      (Bill.affords_length (fun _ => id) ?_) (hfits fun _ => id) hN
    show 0 + _ + _ < _
    omega
  · rw [Nat.min_eq_right hle] at hroom
    let bitmap := (List.range (sb.size / BPB + 1)).map (· + sb.bmapstart)
    refine writei_affords (g := ⟨fun b => b ∈ s.log.lh ++ bitmap, 0⟩) (β := 0) hE (fun b hb => .inl ?_)
      (Bill.affords_length (fun _ => id) ?_) (hfits fun _ => List.mem_append_left _) hN
    · have hlt : b / BPB < sb.size / BPB + 1 := Nat.lt_succ_of_le (Nat.div_le_div_right (Nat.le_of_lt hb))
      exact List.mem_append_right _ (List.mem_map.mpr ⟨_, List.mem_range.mpr hlt, rfl⟩)
    · rw [List.length_append, List.length_map, List.length_range]
      show 0 + _ + _ < _
      omega

/-- The two ends of the byte array. `V` is what the state represents; other inodes are
    untouched, and a short write means that no block was left. -/
theorem readi_writei (hl : sb.Layout) (h : Rep sb s V none) (hs : Sound sb V) (hp : Loaded s ip i)
    (hf : HoleFree V i) (hout : 1 ≤ s.log.outstanding) (hnodup : s.log.lh.Nodup) (off n : Nat)
    (hoff : off < 4294967296) (hn : n < 4294967296) :
    (∀ dst, (∀ k < n, dst k = true) →
      readi sb ip dst off n s =
        if off > (V.ino i).size ∨ 4294967296 ≤ off + n then .ok ((0, []), s)
        else .ok ((((((content V i).drop off).take n).length : Int), ((content V i).drop off).take n), s)) ∧
    (∀ src, (∀ k < n, (src k).isSome = true) →
      if off > (V.ino i).size ∨ 4294967296 ≤ off + n ∨ off + n > MAXFILE * BSIZE then writei sb ip src off n s =
        .ok (-1, s)
      else s.log.lh.length + writeCost sb (V.ino i).size off n ≤ LOGBLOCKS →
        ∃ (r : Nat) (t : St) (V' : Vol), writei sb ip src off n s = .ok ((r : Int), t) ∧ r ≤ n ∧
          (r < n → ∀ b < sb.size, V'.used b = true) ∧ Rep sb t V' none ∧
          content V' i = overwrite (content V i) off (srcBytes src r) ∧
          ∀ j, j ≠ i → V'.ino j = V.ino j ∧ (Live sb V j → content V' j = content V j)) := by
  have hi : Live sb V i := ⟨loaded_lt h hp, by rw [← hp.inum]; exact h.live ip (fun e => by cases e) hp.ref hp.valid⟩
  have hwrap := add32_lt hoff hn
  constructor
  · intro dst hdst
    rw [readi_eq h hp hi hs hf, readCount]
    simp only [hwrap]
    split
    · rfl
    · rw [read_content dst hdst]
  · intro src hsrc
    split
    · next hbad =>
      apply wp_run
      have hsize : (s.inode ip).size = (V.ino i).size := congrArg Dinode.size (loaded_ino h hp)
      rw [writei, wp_bind, wp_getInode, hsize]
      by_cases h1 : off > (V.ino i).size ∨ add32 off n < off
      · rw [if_pos h1]
        exact ⟨rfl, rfl⟩
      · rw [if_neg h1, if_pos (by omega)]
        exact ⟨rfl, rfl⟩
    · next hok =>
      intro hroom
      have hspec : ∀ {E : Panic → Prop} {c : Nat}, Costs V i off n c → Room E (c * blocks off n + 1 + 0) s →
          wp (writei sb ip src off n) (fun r t => ∃ (k : Nat) (V' : Vol), r = k ∧ off ≤ (V.ino i).size ∧
            Filled sb s V ip i src off n k t V') E s := fun hc hr =>
        writei_spec hl h hp hi hs (.inl hsrc) hc hr (fun hbad => absurd (by rw [hwrap] at hbad; exact hbad) hok)
          fun r t V' h1 h2 _ => ⟨r, V', rfl, h1, h2⟩
      have hwp : wp (writei sb ip src off n) (fun r t => ∃ (k : Nat) (V' : Vol), r = k ∧ off ≤ (V.ino i).size ∧
          Filled sb s V ip i src off n k t V') (fun _ => False) s := by
        unfold writeCost at hroom
        split at hroom
        · next hgrow =>
          have hpos : 0 < n := by
            simp only [BSIZE] at hgrow
            omega
          have hgrows : wp (writei sb ip src off n) _ (· ≠ .log .tooBig) s := writei_grows hpos hout hnodup hroom
          have hany : Room (· = .log .tooBig) (6 * blocks off n + 1 + 0) s := ⟨fun _ h' => by omega, fun _ => rfl⟩
          exact wp_imp (wp_and (hspec costs_any hany) hgrows) (fun _ _ h => h.1) fun x h => h.2 h.1
        · next hin =>
          exact hspec (costs_there hf (Nat.not_lt.mp hin)) ⟨fun _ h' => by omega, fun h' => by omega⟩
      obtain ⟨_, t, hm, k, V', rfl, hle, hfill⟩ := wp_total hwp
      refine ⟨k, t, V', hm, hfill.le, fun hr => (filled_full hfill hsrc hr).1, hfill.rep,
        ?_, fun j hj => ⟨hfill.ino j hj, fun hlj => ?_⟩⟩
      · exact overwrite_content hle (by rw [hfill.hdr]) fun x _ => hfill.exact hsrc x
      · rw [content, hfill.ino j hj]
        exact List.map_congr_left fun x _ => hfill.raw j hj hlj x

end

/-! ## A file of 31 blocks -/

namespace Sample

def sb : Superblock := ⟨100, 90, 16, 2, 4⟩

/-- Blocks 10 to 21, the indirect block 22, and through it 23 to 41. -/
def file : Dinode := ⟨T_FILE, 0, 0, 1, 31 * 1024, fun k => 10 + k.1⟩

def indirect (f : Nat → Nat) : Block := Bytes.ofFn fun x => Bytes.leByte (f (x / 4)) (x % 4)

/-- Inode 1 is the file; blocks 0 to 41 are in use. -/
def disk : Nat → Block := fun b =>
  if b = 2 then putDinode Bytes.zero 64 file
  else if b = 4 then Bytes.ofFn fun x => if x < 5 then 255 else if x = 5 then 3 else 0
  else if b = 22 then indirect fun j => if j < 19 then 23 + j else 0
  else Bytes.zero

def ip : Idx := .zero

/-- The file locked and read in, in a new transaction. -/
def st : St where
  data := disk
  home := disk
  log := ⟨1, false, []⟩
  bufs := []
  inode := fun e =>
    if e.1 = 0 then { file with dev := ROOTDEV, inum := 1, ref := 1, lock := true, valid := true }
    else { Dinode.blank with dev := 0, inum := 0, ref := 0, lock := false, valid := false }
  file := fun _ => ⟨.none, 0, false, false, 0, ip, 0, 0⟩
  proc := fun _ => ⟨false, ip, fun _ => none⟩
  pipe := fun _ => ⟨false, false, false⟩

theorem layout : sb.Layout := ⟨by decide, by decide, by decide, by decide⟩

theorem entry_indirect {f : Nat → Nat} {j : Nat} (hj : j < NINDIRECT) (hf : f j < 4294967296) :
    entry (indirect f) j = f j := by
  have hj' : j < 256 := hj
  rw [entry, Bytes.getLE_of_leByte _ 4 (4 * j) (f j)]
  · exact Nat.mod_eq_of_lt hf
  · intro k hk
    rw [indirect, Bytes.get_ofFn _ (by simp only [BSIZE]; omega), show (4 * j + k) / 4 = j by omega,
      show (4 * j + k) % 4 = k by omega]

theorem fits : file.Fits := by
  refine ⟨by decide, fun k => ?_⟩
  simp only [Dinode.addr, file]
  split
  · next h => have : k < 13 := h; omega
  · decide

theorem ino_one : (view sb st).ino 1 = file := getDinode_putDinode Bytes.zero (o := 64) (by decide) fits

theorem ref_pos {e : Idx} (h : 0 < (st.inode e).ref) : e.1 = 0 := by
  simp only [st] at h
  split at h
  · next he => exact he
  · cases h

theorem rep : Rep sb st (view sb st) none := by
  refine rep_view (fun e hr _ => ?_) (fun e e' hr hr' => Fin.ext ((ref_pos hr).trans (ref_pos hr').symm)) fun e hr => ?_
  · simp only [st, if_pos (ref_pos hr)]
    exact ⟨ino_one.symm, by decide⟩
  · simp only [st, if_pos (ref_pos hr)]
    exact ⟨by decide, trivial⟩

theorem live_one {j : Nat} (h : Live sb (view sb st) j) : j = 1 := by
  have hall : ∀ j < 16, ((view sb st).ino j).type ≠ 0 → j = 1 := by decide
  exact hall j h.1 h.2

/-- The 32 slots in use hold blocks 10 to 41. -/
theorem slot_one (k : Nat) : (view sb st).slot 1 k = if k < 32 then 10 + k else 0 := by
  by_cases hk : k < NDIRECT + 1
  · have hk' : k < 13 := hk
    rw [slot_low _ _ hk, ino_one, if_pos (by omega), Dinode.addr, dif_pos hk]
    rfl
  have hk' : ¬ k < 13 := hk
  have h12 : file.addr NDIRECT = 22 := rfl
  rw [slot_high _ _ hk, ino_one]
  show entry (indirect fun j => if j < 19 then 23 + j else 0) (k - 13) = _
  by_cases hj : k - 13 < NINDIRECT
  · rw [entry_indirect hj (by split <;> omega)]
    by_cases h32 : k < 32
    · rw [if_pos h32, if_pos (by omega)]; omega
    · rw [if_neg h32, if_neg (by omega)]
  · have hj' : ¬ k - 13 < 256 := hj
    rw [entry, Bytes.getLE_past _ _ _ (by simp only [BSIZE]; omega), if_neg (by omega)]

theorem holds_iff {j k b : Nat} (h : Holds sb (view sb st) j k b) : j = 1 ∧ k < 32 ∧ b = 10 + k := by
  obtain ⟨hl, he, hb⟩ := h
  have hj := live_one hl
  subst hj
  rw [slot_one] at he
  split at he
  · next hk => exact ⟨rfl, hk, he.symm⟩
  · exact absurd he.symm hb

theorem sound : Sound sb (view sb st) where
  range := fun j k b h => by
    obtain ⟨_, h2, h3⟩ := holds_iff h
    have : sb.nmeta = 10 := rfl
    have : sb.size = 100 := rfl
    omega
  once := fun j k j' k' b h h' => by
    have h1 := holds_iff h
    have h2 := holds_iff h'
    omega
  marked := fun j k b h => by
    obtain ⟨_, h2, h3⟩ := holds_iff h
    have hall : ∀ b < 42, (view sb st).used b = true := by decide
    exact hall b (by omega)
  sys := fun b hb => by
    have hall : ∀ b < 42, (view sb st).used b = true := by decide
    have : sb.nmeta = 10 := rfl
    exact hall b (by omega)

theorem holeFree : HoleFree (view sb st) 1 := by
  intro bn hbn
  have hsz : ((view sb st).ino 1).size = 31744 := by rw [ino_one]; rfl
  have hbn' : bn < 31 := by simp only [BSIZE] at hbn; omega
  refine ⟨by simp only [MAXFILE, NDIRECT, NINDIRECT, BSIZE]; omega, ?_⟩
  rw [Vol.addr, slot_one, slotOf]
  split <;> split <;> omega

theorem loaded : Loaded st ip 1 := ⟨by decide, by decide, by decide⟩

end Sample

/-- Its first 29 blocks, which with the inode's fill the log. -/
theorem readi_writei_sample :
    (∃ (r : Nat) (t : St) (V' : Vol), writei Sample.sb Sample.ip (fun _ => some 7) 0 29696 Sample.st =
      .ok ((r : Int), t) ∧ r ≤ 29696 ∧
      (r < 29696 → ∀ b < Sample.sb.size, V'.used b = true) ∧ Rep Sample.sb t V' none ∧
      content V' 1 = overwrite (content (view Sample.sb Sample.st) 1) 0 (srcBytes (fun _ => some 7) r) ∧
      ∀ j, j ≠ 1 → V'.ino j = (view Sample.sb Sample.st).ino j ∧
        (Live Sample.sb (view Sample.sb Sample.st) j → content V' j = content (view Sample.sb Sample.st) j)) := by
  have h := (readi_writei Sample.layout Sample.rep Sample.sound Sample.loaded Sample.holeFree
    (by decide) List.nodup_nil 0 29696
    (by decide) (by decide)).2 (fun _ => some 7) fun _ _ => rfl
  exact h (by decide)

/-- Twenty-eight new blocks in one transaction are more than the log holds, though every copy
    succeeds and the disk has them: with the block of the bitmap and the indirect block they
    are its 30 entries, and `bmap` logs the indirect block once more. -/
theorem writei_outgrows_log :
    Sample.sb.Layout ∧ Rep Sample.sb Sample.st (view Sample.sb Sample.st) none ∧ Sound Sample.sb
      (view Sample.sb Sample.st) ∧
      Loaded Sample.st Sample.ip 1 ∧ HoleFree (view Sample.sb Sample.st) 1 ∧
      stop (writei Sample.sb Sample.ip (fun _ => some 7) (31 * 1024) (28 * 1024)) Sample.st = some (.log .tooBig) :=
  ⟨Sample.layout, Sample.rep, Sample.sound, Sample.loaded, Sample.holeFree, by decide +kernel⟩

/-- One block less is written. -/
example : (writei Sample.sb Sample.ip (fun _ => some 7) (31 * 1024) (27 * 1024) Sample.st).toOption.map Prod.fst =
    some (27 * 1024) := by
  decide +kernel

end Xv6.Fs
