/-
  Xv6.Fs.Chunks — a whole `filewrite` (`kernel/file.c`), by a process that works alone. The
  loop writes at most `writeMax` bytes in one transaction. However it ends, what it has stored
  is one prefix of the buffer at the old offset, just as one `writei` stores it, and the
  offset has moved by as much (`filewrite_prefix`). It stores everything if the range fits
  and there are as many free blocks as the file lacks (`need`, `free`).
-/

import Xv6.Fs.Share
import Xv6.Fs.Space

namespace Xv6.Fs.Chunks

open Lib Vol Share Space

/-! ## One transaction -/

section

variable {sb : Superblock} {f : Fin NFILE} {s t u : St} {V V' V'' : Vol} {i n k : Nat} {src : User} {E : Panic → Prop}

/-- `f` is open for writing on inode `i`, which nobody has locked, and no operation runs. -/
structure Opened (sb : Superblock) (f : Fin NFILE) (i : Nat) (s : St) (V : Vol) : Prop extends Shared sb f i s V where
  live : Live sb V i
  type : (s.file f).type = .inode
  writable : (s.file f).writable = true
  unlocked : (s.inode (s.file f).ip).lock = false
  quiet : s.log = idle

/-- The first `k` of the `n` bytes are in the file, from `f`'s offset on, which has moved behind
    them. -/
structure Stored (sb : Superblock) (f : Fin NFILE) (i : Nat) (s : St) (V : Vol) (src : User)
    (n k : Nat) (t : St) (V' : Vol) : Prop where
  opened : Opened sb f i t V'
  le : k ≤ n
  file : t.file = upd s.file f { s.file f with off := (s.file f).off + k }
  bytes : content V' i = overwrite (content V i) (s.file f).off (srcBytes src k)
  starts : 0 < k → (s.file f).off ≤ (V.ino i).size
  grown : Grown sb i (s.file f).off n V V'
  there : ∀ l ∈ touched (s.file f).off k, V'.slot i l ≠ 0
  stuck : k < n → (V.ino i).size < (s.file f).off ∨ MAXFILE * BSIZE < (s.file f).off + n ∨
    (∀ b < sb.size, V'.used b = true) ∧ V'.addr i (((s.file f).off + k) / BSIZE) = 0

theorem overwrite_nil (c : List UInt8) (off : Nat) : overwrite c off [] = c := by
  unfold overwrite
  rw [List.append_nil, List.length_nil, Nat.add_zero, List.take_append_drop]

theorem stored_none (h : Opened sb f i t V) (hfile : t.file = s.file)
    (hstuck : 0 < n → (V.ino i).size < (s.file f).off ∨ MAXFILE * BSIZE < (s.file f).off + n) :
    Stored sb f i s V src n 0 t V where
  opened := h
  le := Nat.zero_le n
  file := by rw [hfile]; exact (upd_self s.file f).symm
  bytes := (overwrite_nil _ _).symm
  starts := fun h0 => absurd h0 (Nat.lt_irrefl 0)
  grown := grown_refl
  there := fun l hl => by obtain ⟨k, hk, _⟩ := mem_touched.mp hl; exact absurd hk (Nat.not_lt_zero k)
  stuck := fun h0 => (hstuck h0).imp_right .inl

/-- What `writei` filled is stored. -/
theorem stored_filled {ip : Idx} {s' t' : St} (h : Opened sb f i t V') (hoff : (s.file f).off ≤ (V.ino i).size)
    (hfile : t.file = upd s.file f { s.file f with off := (s.file f).off + k })
    (hf : Filled sb s' V ip i src (s.file f).off n k t' V') (hsrc : ∀ q < n, (src q).isSome = true) :
    Stored sb f i s V src n k t V' where
  opened := h
  le := hf.le
  file := hfile
  bytes := overwrite_content hoff (by rw [hf.hdr]) fun x _ => hf.exact hsrc x
  starts := fun _ => hoff
  grown := grown_filled hf (Nat.min_le_left _ _)
  there := filled_there hf
  stuck := fun hk => .inr (.inr (filled_full hf hsrc hk))

/-- A first part that is stored as a whole, then the rest. -/
theorem stored_trans {a : Nat} (h : Stored sb f i s V src a a t V') (ha : 0 < a)
    (h' : Stored sb f i t V' (fun q => src (a + q)) n k u V'') : Stored sb f i s V src (a + n) (a + k) u V'' := by
  have hoff : (t.file f).off = (s.file f).off + a := by rw [h.file, upd_same]
  have hstart : (s.file f).off ≤ (content V i).length := by rw [content_length]; exact h.starts ha
  have hlen := srcBytes_length src a
  have hsize : (s.file f).off + a ≤ (V'.ino i).size := by
    rw [← content_length, h.bytes, overwrite_length _ _ _ hstart, hlen]
    exact Nat.le_max_right _ _
  refine ⟨h'.opened, Nat.add_le_add_left h'.le a, ?_, ?_, fun _ => h.starts ha, ?_, fun l hl => ?_, fun hlt => ?_⟩
  · rw [h'.file, h.file, upd_upd, upd_same, Nat.add_assoc]
  · rw [h'.bytes, h.bytes, hoff, srcBytes_add, ← overwrite_append hstart, hlen]
  · have h2 := h'.grown
    exact grown_trans (grown_mono h.grown (Nat.le_refl _) (by omega)) (grown_mono h2 (by omega) (by omega))
  · rcases touched_add hl with hl | hl
    · rw [h'.grown.keep l (h.there l hl)]
      exact h.there l hl
    · exact h'.there l (by rw [hoff]; exact hl)
  · have h2 := h'.stuck (by omega)
    rw [hoff, Nat.add_assoc, Nat.add_assoc] at h2
    rcases h2 with h2 | h2
    · omega
    · exact .inr h2

/-- The blocks of one transaction fit in the log. -/
theorem pass_room (hlog : s.log = ⟨1, false, []⟩) (off : Nat) (hn : n ≤ writeMax) :
    Room E (6 * blocks off n + 1 + 0) s := by
  have hmax : writeMax = 3072 := rfl
  have hblocks : blocks off n ≤ 4 := by
    unfold blocks
    simp only [BSIZE]
    split <;> omega
  have hlb : LOGBLOCKS = 30 := rfl
  refine ⟨fun _ h => ?_, fun h => ?_⟩
  · rw [hlog] at h
    exact absurd h (by decide)
  · rw [hlog] at h
    simp only [List.length_nil] at h
    omega

/-- The end of a section, after `writei` returned `r` in `t`. -/
theorem section_end {ip : Idx} {r : Int} (hr : r = k ∨ r = -1 ∧ k = 0)
    (hfit : (t.file f).off + k < 4294967296 ∨ k = 0) (href : 0 < (t.inode ip).ref)
    (hlock : (t.inode ip).lock = true) {Q : Int → St → Prop}
    (hq : Q r (setEntry { t with file := upd t.file f { t.file f with off := (t.file f).off + k } }
      ip { t.inode ip with lock := false })) :
    wp (if r > 0 then setFile f (fun x => { x with off := add32 x.off r.toNat }) >>= fun _ =>
      iunlock ip >>= fun _ => pure r
      else iunlock ip >>= fun _ => pure r) Q E t := by
  refine wp_if (fun hpos => ?_) fun hneg => ?_
  · obtain rfl : r = k := by omega
    have hoff : add32 (t.file f).off (k : Int).toNat = (t.file f).off + k := by
      rw [Int.toNat_natCast, add32, Nat.mod_eq_of_lt (by omega)]
    rw [wp_bind, wp_setFile, wp_bind, hoff]
    refine iunlock_held (by exact href) (by exact hlock) ?_
    exact hq
  · obtain rfl : k = 0 := by omega
    have hsame : upd t.file f { t.file f with off := (t.file f).off + 0 } = t.file := upd_self t.file f
    rw [hsame] at hq
    exact wp_then (iunlock_held href hlock hq)

theorem pass_spec (hl : sb.Layout) (h : Opened sb f i s V) {j : Nat} (hsrc : ∀ q < n, (src q).isSome = true)
    {rest : Int → M Nat} {Q : Nat → St → Prop}
    (hq : ∀ (r : Int) (k : Nat) t V', (r = k ∨ r = -1 ∧ k = 0) →
      Stored sb f i s V (fun q => src (j + q)) (min (n - j) writeMax) k t V' → wp (rest r) Q E t) :
    wp (beginOp >>= fun _ => writeSection sb f src n j >>= fun r => endOp >>= fun _ => rest r) Q E s := by
  have hsrc' : ∀ q < min (n - j) writeMax, (src (j + q)).isSome = true := fun q hq => hsrc (j + q) (by omega)
  have hmax : min (n - j) writeMax ≤ writeMax := Nat.min_le_right _ _
  refine wp_then (beginOp_idle h.quiet ?_)
  rw [wp_bind]
  unfold writeSection
  generalize min (n - j) writeMax = n1 at hsrc' hmax hq ⊢
  rw [wp_bind, wp_getFile, wp_bind]
  have h0 : Rep sb { s with log := ⟨1, false, []⟩ } V none := rep_same h.rep rfl rfl
  refine ilock_live h0 (by exact h.ref) (by exact h.unlocked) h.inum h.live fun x _ hlock _ h1 hp1 => ?_
  have hfile1 : (setEntry { s with log := ⟨1, false, []⟩ } (s.file f).ip x).file = s.file := rfl
  have hlog1 : (setEntry { s with log := ⟨1, false, []⟩ } (s.file f).ip x).log = ⟨1, false, []⟩ := rfl
  have hlock1 : ((setEntry { s with log := ⟨1, false, []⟩ } (s.file f).ip x).inode (s.file f).ip).lock = true := by
    rw [setEntry_same]
    exact hlock
  generalize setEntry { s with log := ⟨1, false, []⟩ } (s.file f).ip x = s1 at h1 hp1 hfile1 hlog1 hlock1 ⊢
  -- how the transaction ends, in a state that represents `V'`
  have hend {r : Int} {k : Nat} {t : St} {V' : Vol} (hr : r = k ∨ r = -1 ∧ k = 0) (hrep : Rep sb t V' none)
    (hs : Sound sb V')
      (hi : Live sb V' i) (hp : Loaded t (s.file f).ip i) (hlk : (t.inode (s.file f).ip).lock = true)
        (hfile : t.file = s.file)
      (hout : t.log.outstanding = 1) (hcom : t.log.committing = false) (hfit : (s.file f).off + k < 4294967296 ∨ k = 0)
      (hst : ∀ u, Opened sb f i u V' → u.file = upd s.file f { s.file f with off := (s.file f).off + k } →
        Stored sb f i s V (fun q => src (j + q)) n1 k u V') :
      wp (if r > 0 then setFile f (fun x => { x with off := add32 x.off r.toNat }) >>= fun _ =>
        iunlock (s.file f).ip >>= fun _ => pure r
        else iunlock (s.file f).ip >>= fun _ => pure r) (fun r t => wp (endOp >>= fun _ => rest r) Q E t) E t := by
    refine section_end hr (by rw [hfile]; exact hfit) hp.ref hlk ?_
    refine wp_then (endOp_last (by exact hout) (by exact hcom) (hq r k _ V' hr (hst _ ?_ ?_)))
    · have hip : (upd t.file f { t.file f with off := (t.file f).off + k } f).ip = (s.file f).ip := by
        rw [upd_same, hfile]
      refine {
        rep := ?_, sound := hs, ref := ?_, inum := ?_, live := hi, type := ?_, writable := ?_, unlocked := ?_
        quiet := rfl }
      · exact rep_same (rep_keep (rep_same hrep rfl rfl) hp.ref _ _) rfl rfl
      · show 0 < ((setEntry _ _ _).inode (upd t.file f _ f).ip).ref
        rw [hip, setEntry_same]
        exact hp.ref
      · show ((setEntry _ _ _).inode (upd t.file f _ f).ip).inum = i
        rw [hip, setEntry_same]
        exact hp.inum
      · show (upd t.file f _ f).type = .inode
        rw [upd_same, hfile]
        exact h.type
      · show (upd t.file f _ f).writable = true
        rw [upd_same, hfile]
        exact h.writable
      · show ((setEntry _ _ _).inode (upd t.file f _ f).ip).lock = false
        rw [hip, setEntry_same]
    · show upd t.file f _ = _
      rw [hfile]
  refine wp_then (writei_spec hl h1 hp1 h.live h.sound (.inl hsrc') costs_any (pass_room hlog1 _ hmax)
    (fun hbad => ?_) fun r t V' hoff hf _ => ?_)
  · refine hend (.inr ⟨rfl, rfl⟩) h1 h.sound h.live hp1 hlock1 hfile1 (by rw [hlog1]) (by rw [hlog1]) (.inr rfl)
      fun u hu hfile => ?_
    refine stored_none hu (hfile.trans (upd_self s.file f)) fun _ => ?_
    have hmaxfile : MAXFILE * BSIZE < 4294967296 := by decide
    unfold add32 at hbad
    simp only at hbad
    omega
  · have hsize : (V'.ino i).size = max (V.ino i).size ((s.file f).off + r) := by rw [hf.hdr]
    have hi' := (filled_live hf i).mpr h.live
    have hfits := (hf.rep.fits i hi'.1).size
    refine hend (.inl rfl) hf.rep hf.sound hi' (loaded_put hf.inode hp1) ?_ (hf.tame.file.trans hfile1) ?_ ?_
      (.inl (by omega))
      fun u hu hfile => stored_filled hu hoff hfile hf hsrc'
    · rw [hf.inode]
      simp only [putIno, upd_same]
      exact hlock1
    · rw [hf.tame.out, hlog1]
    · rw [hf.tame.committing, hlog1]

/-! ## The loop -/

theorem stored_mono {m : Nat} (h : Stored sb f i s V src n k t V') (hn : n ≤ m) (hk : k < n) :
    Stored sb f i s V src m k t V' :=
  { h with
    le := Nat.le_trans h.le hn
    grown := grown_mono h.grown (Nat.le_refl _) (by omega)
    stuck := fun _ => (h.stuck hk).imp_right (Or.imp_left fun hmax => by omega) }

/-- The bytes that are stored lie in blocks a file can have. -/
theorem stored_fits (h : Stored sb f i s V src n k t V') (hk : 0 < k) : (s.file f).off + k ≤ MAXFILE * BSIZE := by
  refine Nat.le_of_not_lt fun hlt => ?_
  have hlast : slotOf (((s.file f).off + (k - 1)) / BSIZE) ∈ touched (s.file f).off k :=
    mem_touched.mpr ⟨k - 1, by omega, mem_bmapSlots.mpr (.inl rfl)⟩
  have hbn : MAXFILE ≤ ((s.file f).off + (k - 1)) / BSIZE := by
    simp only [BSIZE] at *
    omega
  have hmaxfile : MAXFILE = NDIRECT + NINDIRECT := rfl
  refine h.there _ hlast (slot_past _ _ ?_)
  unfold slotOf
  rw [if_neg (by omega)]
  omega

/-- All is stored if the range fits and the disk has room. -/
theorem stored_all (h : Stored sb f i s V src n k t V') (hoff : (s.file f).off ≤ (V.ino i).size)
    (hmax : (s.file f).off + n ≤ MAXFILE * BSIZE) (hroom : need V i (s.file f).off n ≤ free sb V) : k = n := by
  refine Decidable.by_contra fun hne => ?_
  have hlt : k < n := Nat.lt_of_le_of_ne h.le hne
  rcases h.stuck hlt with h1 | h1 | ⟨hfull, h0⟩
  · omega
  · omega
  · have hmem : slotOf (((s.file f).off + k) / BSIZE) ∈ touched (s.file f).off n :=
      mem_touched.mpr ⟨k, hlt, mem_bmapSlots.mpr (.inl rfl)⟩
    exact absurd hroom (Nat.not_le.mpr (grown_short h.grown hfull hmem h0))

theorem filewriteFrom_spec (hl : sb.Layout) (hsrc : ∀ q < n, (src q).isSome = true) (fuel : Nat) :
    ∀ (j : Nat) {s : St} {V : Vol},
    Opened sb f i s V → j ≤ n → n - j ≤ fuel →
      wp (filewriteFrom sb f src n fuel j)
        (fun j' t => ∃ k V', Stored sb f i s V (fun q => src (j + q)) (n - j) k t V' ∧ (j' = n ↔ k = n - j)) E s := by
  induction fuel with
  | zero =>
    intro j s V h hj hfuel
    exact ⟨0, V, stored_none h rfl fun h0 => by omega, by omega⟩
  | succ fuel ih =>
    intro j s V h hj hfuel
    rw [filewriteFrom_succ]
    refine wp_if (fun hlt => ?_) fun hge => ⟨0, V, stored_none h rfl fun h0 => by omega, by omega⟩
    refine pass_spec hl h hsrc fun r k t V' hr hst => ?_
    have hn1 : 0 < min (n - j) writeMax := Nat.lt_min.mpr ⟨by omega, by decide⟩
    have hle : min (n - j) writeMax ≤ n - j := Nat.min_le_left _ _
    generalize min (n - j) writeMax = n1 at hn1 hle hst ⊢
    have hkn := hst.le
    refine wp_if (fun hne => ?_) fun heq => ?_
    -- an error, or a short write: the loop ends
    · have hk : k < n1 := by omega
      exact ⟨k, V', stored_mono hst hle hk, by omega⟩
    · obtain rfl : k = n1 := by omega
      refine wp_mono (ih (j + k) hst.opened (by omega) (by omega)) fun j' u hu => ?_
      obtain ⟨k', V'', hst', hiff⟩ := hu
      have hshift : (fun q => src (j + k + q)) = fun q => src (j + (k + q)) := by
        funext q
        rw [Nat.add_assoc]
      rw [hshift, show n - (j + k) = n - j - k by omega] at hst'
      have hall := stored_trans hst hn1 hst'
      rw [Nat.add_sub_cancel' hle] at hall
      exact ⟨k + k', V'', hall, by omega⟩

/-- One `writei` of as many bytes as are stored does the same. -/
theorem writei_stored (hl : sb.Layout) (h : Stored sb f i s V src n k t V') (hi : Live sb V i)
    (hsrc : ∀ q < n, (src q).isSome = true) (hs : Sound sb V) {ip : Idx} (hu : Rep sb u V none)
    (hp : Loaded u ip i) :
    wp (writei sb ip src (s.file f).off k)
      (fun r t' => (0 < k → r = k) ∧ ∃ W, Rep sb t' W none ∧ content W i = content V' i)
      (fun x => ∃ e, x = .log e) u := by
  have hsrc' : ∀ q < k, (src q).isSome = true := fun q hq => hsrc q (Nat.lt_of_lt_of_le hq h.le)
  refine writei_spec (m := 0) hl hu hp hi hs (.inl hsrc') costs_any (room_any fun e => ⟨e, rfl⟩) (fun hbad => ?_)
    fun r t' W hoff hf _ => ?_
  · have hk : k = 0 := by
      refine Nat.eq_zero_of_not_pos fun hk => ?_
      have h1 := h.starts hk
      have h2 := stored_fits h hk
      have h3 : MAXFILE * BSIZE < 4294967296 := by decide
      unfold add32 at hbad
      omega
    refine ⟨fun h0 => absurd hk (Nat.ne_of_gt h0), V, hu, ?_⟩
    rw [h.bytes, hk]
    exact (overwrite_nil _ _).symm
  · obtain rfl : r = k := (filled_all hf hi hsrc').mpr (grown_enough h.grown h.opened.sound hi h.there)
    refine ⟨fun _ => rfl, W, hf.rep, ?_⟩
    rw [h.bytes]
    exact overwrite_content hoff (by rw [hf.hdr]) fun x _ => hf.exact hsrc' x

end

/-- `filewrite` of a source that can be read stores a prefix of it, as one `writei` of that many
    bytes does unless it outgrows the log; the prefix is everything if the range fits and the
    disk has room. -/
theorem filewrite_prefix (sb : Superblock) (hl : sb.Layout) (f : Fin NFILE) (i : Nat) (s : St) (V : Vol)
    (h : Opened sb f i s V) (src : User) (n : Nat) (hsrc : ∀ q < n, (src q).isSome = true) (ext : Int) :
    ∃ (k : Nat) (t : St) (V' : Vol), filewrite sb f src n ext s = .ok (if k = n then (n : Int) else -1, t) ∧ k ≤ n ∧
      Opened sb f i t V' ∧ t.file = upd s.file f { s.file f with off := (s.file f).off + k } ∧
      content V' i = overwrite (content V i) (s.file f).off (srcBytes src k) ∧
      (∀ j, j ≠ i → V'.ino j = V.ino j ∧ (Live sb V j → content V' j = content V j)) ∧
      (∀ (ip : Idx) (u : St), Rep sb u V none → Loaded u ip i →
        (∃ r t' W, writei sb ip src (s.file f).off k u = .ok (r, t') ∧ (0 < k → r = k) ∧ Rep sb t' W none ∧
          content W i = content V' i ∧ (W.ino i).size = (V'.ino i).size) ∨
        ∃ e, writei sb ip src (s.file f).off k u = .error (.log e)) ∧
      ((s.file f).off ≤ (V.ino i).size → (s.file f).off + n ≤ MAXFILE * BSIZE →
        need V i (s.file f).off n ≤ free sb V → k = n) := by
  have hwp : wp (filewrite sb f src n ext) (fun r t => ∃ k V', Stored sb f i s V src n k t V' ∧
    r = if k = n then (n : Int) else -1)
      (fun _ => False) s := by
    unfold filewrite
    rw [wp_bind, wp_getFile, if_neg (by rw [h.writable]; decide), h.type]
    rw [wp_bind]
    refine wp_mono (filewriteFrom_spec hl hsrc n 0 h (Nat.zero_le n) (Nat.le_refl n)) fun j t hj => ?_
    obtain ⟨k, V', hst, hiff⟩ := hj
    simp only [Nat.zero_add, Nat.sub_zero] at hst hiff
    refine ⟨k, V', hst, ?_⟩
    simp only [Int.ofNat_inj, hiff]
  obtain ⟨_, t, hrun, k, V', hst, rfl⟩ := wp_total hwp
  refine ⟨k, t, V', hrun, hst.le, hst.opened, hst.file, hst.bytes, fun j hj => ⟨hst.grown.ino j hj, fun hlj => ?_⟩,
    fun ip u hu hp => ?_,
    stored_all hst⟩
  · unfold content
    rw [hst.grown.ino j hj]
    exact List.map_congr_left fun x _ => hst.grown.raw j hj hlj x
  · rcases wp_cases (writei_stored hl hst h.live hsrc h.sound hu hp) with ⟨r, t', hw, h1, W, h2, h3⟩ | ⟨_, hw, e, rfl⟩
    · exact .inl ⟨r, t', W, hw, h1, h2, h3, by rw [← content_length, h3, content_length]⟩
    · exact .inr ⟨e, hw⟩

theorem opened_pair : Opened Sample.sb Pair.file 1 Pair.st (view Sample.sb Sample.st) where
  toShared := Pair.shared
  live := ⟨by decide, by rw [Sample.ino_one]; decide⟩
  type := rfl
  writable := rfl
  unlocked := rfl
  quiet := rfl

/-- Ten bytes over the end of its first block. -/
theorem filewrite_prefix_ten :
    ∃ (t : St) (V' : Vol), filewrite Sample.sb Pair.file (Pair.letters 97) 10 0 Pair.st = .ok (10, t) ∧
      (t.file Pair.file).off = 1030 ∧
      content V' 1 = overwrite (content (view Sample.sb Sample.st) 1) 1020 (srcBytes (Pair.letters 97) 10) := by
  obtain ⟨k, t, V', hrun, _, _, hfile, hbytes, _, _, hall⟩ :=
    filewrite_prefix Sample.sb Sample.layout Pair.file 1 Pair.st _ opened_pair (Pair.letters 97) 10 (fun _ _ => rfl) 0
  obtain rfl : k = 10 := by
    refine hall ?_ (by decide) ?_
    · decide
    · show need (view Sample.sb Sample.st) 1 1020 10 ≤ _
      exact Nat.zero_le _
  refine ⟨t, V', hrun, ?_, hbytes⟩
  rw [hfile]
  rfl

/-- A file that is not open for writing refuses even an empty write, and one that fits. -/
theorem unwritable_refused :
    ∃ s : St, Shared Sample.sb Pair.file 1 s (view Sample.sb Sample.st) ∧ (s.file Pair.file).type = .inode ∧
      (s.file Pair.file).off ≤ ((view Sample.sb Sample.st).ino 1).size ∧ (s.file Pair.file).off + 10 ≤ MAXFILE * BSIZE ∧
      need (view Sample.sb Sample.st) 1 (s.file Pair.file).off 10 ≤ free Sample.sb (view Sample.sb Sample.st) ∧
      filewrite Sample.sb Pair.file (Pair.letters 97) 0 0 s = .ok (-1, s) ∧
      filewrite Sample.sb Pair.file (Pair.letters 97) 10 0 s = .ok (-1, s) := by
  refine ⟨{ Pair.st with file := fun _ => ⟨.inode, 2, true, false, 0, Sample.ip, 1020, 0⟩ },
    ?_, rfl, ?_, by decide, ?_, rfl, rfl⟩
  · exact ⟨rep_same Pair.shared.rep rfl rfl, Sample.sound, by decide, by decide⟩
  · decide
  · show need (view Sample.sb Sample.st) 1 1020 10 ≤ _
    exact Nat.zero_le _

end Xv6.Fs.Chunks
