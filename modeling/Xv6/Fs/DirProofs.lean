/-
  Xv6.Fs.DirProofs — directories over `Mid`: lookups read entries and take references,
  `dirlink` and the removal in `sys_unlink` write one entry as a whole, and nothing else
  of any inode that a call sees changes.
-/

import Xv6.Fs.Names
import Xv6.Fs.Space
import Xv6.Fs.TableProofs

namespace Xv6.Fs

open Lib Vol

variable {k : Nat}

/-! ## Reading entries -/

variable {sb : Superblock} {V V' : Vol} {i d : Nat} {safe : Guard} {c : Ctx} {s t : St}
  {T : List (Idx × Nat)} {L : List Idx} {ip dp : Idx}

theorem holeFree_size (h : HoleFree V i) : (V.ino i).size ≤ MAXFILE * BSIZE := by
  refine Decidable.by_contra fun hlt => ?_
  have h1 := (h MAXFILE (by omega)).1
  omega

structure Readable (sb : Superblock) (s : St) (V : Vol) (dp : Idx) (d : Nat) : Prop where
  rep : Rep sb s V none
  sound : Sound sb V
  loaded : Loaded s dp d
  holes : HoleFree V d

theorem mid_readable (h : Mid sb safe c s V T L) (hp : Loaded s dp d) : Readable sb s V dp d :=
  ⟨h.rep, h.sound, hp, h.holes d (loaded_live h.rep hp)⟩

/-- What is left of the directory after `off` is read whole, or is less than an entry. -/
theorem readDirent_spec {α : Type} (h : Readable sb s V dp d) {f : Int × List UInt8 → M α} {Q : α → St → Prop}
    {E : Panic → Prop} (hlt : DESIZE * k < (node sb V d).size)
    (hbad : ∀ r de, r ≠ (DESIZE : Int) → ¬ DESIZE ∣ (node sb V d).size → wp (f (r, de)) Q E s)
    (hok : DESIZE * k + DESIZE ≤ (node sb V d).size → wp (f (DESIZE, (node sb V d).dirent k)) Q E s) :
    wp (readi sb dp kernelDst (DESIZE * k) DESIZE >>= f) Q E s := by
  have hi := loaded_live h.rep h.loaded
  have hsize := holeFree_size h.holes
  rw [node_live hi] at hlt hbad hok
  refine wp_then (wp_of_run (readi_eq h.rep h.loaded hi h.sound h.holes kernelDst _ _) ?_)
  have hwrap : ¬ (DESIZE * k > (V.ino d).size ∨ add32 (DESIZE * k) DESIZE < DESIZE * k) := by
    simp only [add32, MAXFILE, NDIRECT, NINDIRECT, BSIZE, DESIZE, DIRSIZ] at *
    omega
  have hreach : ∀ n, reach kernelDst 0 n = n := fun n => reach_all n 0 fun _ _ _ => rfl
  unfold readCount readResult
  rw [if_neg hwrap, hreach]
  by_cases hle : DESIZE * k + DESIZE ≤ (V.ino d).size
  · rw [Nat.min_eq_left (by omega)]
    simpa [Node.dirent] using hok hle
  · refine hbad _ _ ?_ ?_
    · omega
    · simp only [DESIZE, DIRSIZ] at *
      omega

section

variable (h : Rep sb s V none) (hp : Loaded s ip i)

include h hp

theorem loaded_size : (s.inode ip).size = (node sb V i).size := by
  rw [node_live (loaded_live h hp)]
  exact congrArg Dinode.size (loaded_ino h hp)

theorem loaded_type : (s.inode ip).type = (node sb V i).type := by
  rw [node_live (loaded_live h hp)]
  exact congrArg Dinode.type (loaded_ino h hp)

theorem loaded_nlink : (s.inode ip).nlink = (node sb V i).nlink := by
  rw [node_live (loaded_live h hp)]
  exact congrArg Dinode.nlink (loaded_ino h hp)

theorem loaded_dev : (s.inode ip).dev = ROOTDEV := (h.range ip hp.ref).2

end

/-- Under `safe`, the entries of directory `d` name allocated inodes. -/
def Closed (sb : Superblock) (safe : Guard) (V : Vol) (d : Nat) : Prop :=
  safe.live → ∀ k, (node sb V d).ent k ≠ 0 → Live sb V ((node sb V d).ent k)

section

variable {E : Panic → Prop}

variable {Q : Option (Idx × Nat) → St → Prop}

/-- The lookup reads entry after entry, and takes the first one with that name. -/
theorem dirlookupFrom_spec (h : Readable sb s V dp d)
    (hragged : ¬ DESIZE ∣ (node sb V d).size → E .dirlookupRead) {name : Name}
    (hnone : (node sb V d).Lacks name → Q none s)
    (hsome : ∀ k, (node sb V d).ent k ≠ 0 → namecmp name ((node sb V d).name k) = 0 →
      (∀ j < k, (node sb V d).ent j ≠ 0 → namecmp name ((node sb V d).name j) ≠ 0) → wp
      (iget ROOTDEV ((node sb V d).ent k)) (fun ip => Q (some (ip, DESIZE * k))) E s)
    (fuel : Nat) :
    ∀ m, (node sb V d).size < DESIZE * (m + fuel) →
      (∀ k < m, (node sb V d).ent k ≠ 0 → namecmp name ((node sb V d).name k) ≠ 0) →
      wp (dirlookupFrom sb dp name fuel (DESIZE * m)) Q E s := by
  have hend : ∀ m, (∀ k < m, (node sb V d).ent k ≠ 0 → namecmp name ((node sb V d).name k) ≠ 0) →
      (node sb V d).size ≤ DESIZE * m → Q none s := by
    intro m hm hsize
    refine hnone fun k hk => hm k ?_ hk
    have := ent_ne hk
    simp only [DESIZE, DIRSIZ] at *
    omega
  induction fuel with
  | zero =>
    intro m hsize hm
    exact hend m hm (Nat.le_of_lt hsize)
  | succ fuel ih =>
    intro m hsize hm
    have hnext : ((node sb V d).ent m ≠ 0 → namecmp name ((node sb V d).name m) ≠ 0) →
        wp (dirlookupFrom sb dp name fuel (DESIZE * m + DESIZE)) Q E s := by
      intro hm'
      refine ih (m + 1) (by rw [show m + 1 + fuel = m + (fuel + 1) by omega]; exact hsize) fun k hk => ?_
      rcases Nat.lt_succ_iff_lt_or_eq.mp hk with h1 | rfl
      · exact hm k h1
      · exact hm'
    unfold dirlookupFrom
    rw [wp_bind, wp_getInode, loaded_size h.rep h.loaded]
    by_cases hlt : DESIZE * m < (node sb V d).size
    · rw [if_pos hlt]
      refine readDirent_spec h hlt (fun r de hr hrag => ?_) fun hle => ?_
      · rw [wp_ite, if_pos hr]
        exact hragged hrag
      · rw [wp_ite, ← ent_eq hle]
        by_cases h0 : (node sb V d).ent m = 0
        · rw [if_pos h0]
          exact hnext fun hne => absurd h0 hne
        rw [if_neg h0]
        by_cases hcmp : namecmp name (deName ((node sb V d).dirent m)) = 0
        · rw [if_pos hcmp, wp_bind, loaded_dev h.rep h.loaded]
          exact hsome m h0 hcmp hm
        · rw [if_neg hcmp]
          exact hnext fun _ => hcmp
    · rw [if_neg hlt]
      exact hend m hm (by omega)

/-- `dirlookup` looks the name up in the map. -/
theorem dirlookup_read (h : Readable sb s V dp d) (hty : (node sb V d).type = T_DIR)
    (hragged : ¬ DESIZE ∣ (node sb V d).size → E .dirlookupRead) {name : Name}
    (hnone : (node sb V d).lookup name = none → Q none s)
    (hsome : ∀ k, (node sb V d).ent k ≠ 0 → namecmp name ((node sb V d).name k) = 0 →
      (node sb V d).lookup name = some ((node sb V d).ent k, DESIZE * k) → wp (iget ROOTDEV ((node sb V d).ent k))
      (fun ip => Q (some (ip, DESIZE * k))) E s) :
    wp (dirlookup sb dp name) Q E s := by
  unfold dirlookup
  rw [wp_bind, wp_getInode, loaded_type h.rep h.loaded, if_neg (fun hne => hne hty), loaded_size h.rep h.loaded]
  refine dirlookupFrom_spec h hragged (fun hlacks => hnone (lookup_eq_none.mpr hlacks))
    (fun k h0 hcmp hno => hsome k h0 hcmp (lookup_first h0 hcmp hno)) _ 0 ?_ fun k hk => absurd hk (Nat.not_lt_zero k)
  simp only [DESIZE, DIRSIZ]
  omega

/-- The search for a free entry ends at the first one. -/
theorem freeEntry_spec (h : Readable sb s V dp d) (hragged : ¬ DESIZE ∣ (node sb V d).size → E .dirlinkRead)
    {Q : Nat → St → Prop} (hq : Q (DESIZE * (node sb V d).gap) s) (fuel : Nat) :
    ∀ m, (node sb V d).size < DESIZE * (m + fuel) → (∀ j < m, (node sb V d).ent j ≠ 0) →
      wp (freeEntry sb dp fuel (DESIZE * m)) Q E s := by
  induction fuel with
  | zero =>
    intro m hm hused
    rw [Nat.add_zero] at hm
    exact gap_eq (if_neg (by omega)) hused ▸ hq
  | succ fuel ih =>
    intro m hm hused
    unfold freeEntry
    rw [wp_bind, wp_getInode, loaded_size h.rep h.loaded]
    by_cases hlt : DESIZE * m < (node sb V d).size
    · rw [if_pos hlt]
      refine readDirent_spec h hlt (fun r de hr hrag => ?_) fun hle => ?_
      · rw [wp_ite, if_pos hr]
        exact hragged hrag
      · rw [wp_ite, ← ent_eq hle]
        by_cases h0 : (node sb V d).ent m = 0
        · rw [if_pos h0]
          exact gap_eq h0 hused ▸ hq
        · rw [if_neg h0]
          refine ih (m + 1) (by rw [show m + 1 + fuel = m + (fuel + 1) by omega]; exact hm) fun j hj => ?_
          rcases Nat.lt_succ_iff_lt_or_eq.mp hj with h1 | rfl
          · exact hused j h1
          · exact h0
    · rw [if_neg hlt]
      exact gap_eq (if_neg (by simp only [DESIZE, DIRSIZ] at *; omega)) hused ▸ hq

end

theorem dirlookup_spec (h : Mid sb safe c s V T L) (hr : Ref c T dp d) (hL : dp ∈ L) (hty : (node sb V d).type = T_DIR)
    (hc : Closed sb safe V d) {name : Name} {Q : Option (Idx × Nat) → St → Prop}
    (hnone : (node sb V d).lookup name = none → Q none s)
    (hsome : ∀ ip k t, (node sb V d).ent k ≠ 0 → namecmp name ((node sb V d).name k) = 0 →
      (node sb V d).lookup name = some ((node sb V d).ent k, DESIZE * k) →
      Mid sb safe c t V ((ip, (node sb V d).ent k) :: T) L → Q (some (ip, DESIZE * k)) t) :
    wp (dirlookup sb dp name) Q (Fine safe) s :=
  dirlookup_read (mid_readable h (mid_loaded h hr hL)) hty (fun _ => trivial) hnone fun k h0 hcmp hat =>
    iget_spec h (h.dirs d k hty) (fun hsafe => hc hsafe k h0) fun ip t ht => hsome ip k t h0 hcmp hat ht

/-- An empty directory has no entry from the third on. -/
theorem isdiremptyFrom_spec (h : Mid sb safe c s V T L) (hp : Loaded s dp d) {Q : Bool → St → Prop} (hno : Q false s)
    (hyes : (∀ k, 2 ≤ k → (node sb V d).ent k = 0) → Q true s) (fuel : Nat) :
    ∀ m, (node sb V d).size < DESIZE * (m + fuel) → (∀ k, 2 ≤ k → k < m → (node sb V d).ent k = 0) →
      wp (isdiremptyFrom sb dp fuel (DESIZE * m)) Q (Fine safe) s := by
  have hend : ∀ m, (∀ k, 2 ≤ k → k < m → (node sb V d).ent k = 0) → (node sb V d).size ≤ DESIZE * m → Q true s := by
    intro m hm hsize
    refine hyes fun k hk => ?_
    by_cases hkm : k < m
    · exact hm k hk hkm
    · refine if_neg ?_
      simp only [DESIZE, DIRSIZ] at *
      omega
  induction fuel with
  | zero =>
    intro m hsize hm
    exact hend m hm (Nat.le_of_lt hsize)
  | succ fuel ih =>
    intro m hsize hm
    unfold isdiremptyFrom
    rw [wp_bind, wp_getInode, loaded_size h.rep hp]
    by_cases hlt : DESIZE * m < (node sb V d).size
    · rw [if_pos hlt]
      refine readDirent_spec (mid_readable h hp) hlt (fun r de hr _ => ?_) fun hle => ?_
      · rw [wp_ite, if_pos hr]
        exact trivial
      · rw [wp_ite, if_neg (fun hne => hne rfl), ← ent_eq hle]
        by_cases h0 : (node sb V d).ent m = 0
        · rw [if_neg (fun hne => hne h0)]
          refine ih (m + 1) (by rw [show m + 1 + fuel = m + (fuel + 1) by omega]; exact hsize) fun k hk hkm => ?_
          rcases Nat.lt_succ_iff_lt_or_eq.mp hkm with h1 | rfl
          · exact hm k hk h1
          · exact h0
        · rw [if_pos h0]
          exact hno
    · rw [if_neg hlt]
      exact hend m hm (by omega)

theorem isdirempty_spec (h : Mid sb safe c s V T L) (hp : Loaded s dp d) {Q : Bool → St → Prop} (hno : Q false s)
    (hyes : (∀ k, 2 ≤ k → (node sb V d).ent k = 0) → Q true s) : wp (isdirempty sb dp) Q (Fine safe) s := by
  unfold isdirempty
  rw [wp_bind, wp_getInode, loaded_size h.rep hp]
  refine isdiremptyFrom_spec h hp hno hyes _ 2 ?_ fun k h1 h2 => by omega
  simp only [DESIZE, DIRSIZ]
  omega

/-! ## Writing -/

variable {src : Nat → Option UInt8} {r : Nat} {Q : Option (Idx × Name) → St → Prop} {cwd : Idx}

theorem filled_holes {off n : Nat} (hf : Filled sb s V ip i src off n r t V')
    (hh : ∀ j, Live sb V j → HoleFree V j) {j : Nat} (hj : Live sb V' j) : HoleFree V' j := by
  have hj' := (filled_live hf j).mp hj
  by_cases e : j = i
  · subst e
    exact hf.holeFree (hh j hj')
  · intro bn hbn
    rw [hf.ino j e] at hbn
    have ha : V'.addr j bn = V.addr j bn := hf.slot j e hj' _
    rw [ha]
    exact hh j hj' bn hbn

theorem filled_node {off n : Nat} (hf : Filled sb s V ip i src off n r t V') {j : Nat} (hj : j ≠ i) :
    node sb V' j = node sb V j :=
  node_congr (hf.ino j hj) fun hl x => hf.raw j hj hl x

theorem mid_filled {off n : Nat} (h : Mid sb safe c s V T L) (hp : Loaded s ip i)
    (hf : Filled sb s V ip i src off n r t V') (hd : DirRange sb (node sb V')) (hlog : c.bill.Fits t.log) :
    Mid sb safe c t V' T L :=
  mid_put h hp hf.rep hf.tame hf.inode hf.ino (filled_type hf i) hf.sound hf.noLeak
  (fun _ hj => filled_holes hf h.holes hj) hd hlog

/-- There is room for entry `k` of directory `d`, in the file and on the disk. -/
def EntryFits (sb : Superblock) (V : Vol) (d k : Nat) : Prop :=
  DESIZE * k + DESIZE ≤ MAXFILE * BSIZE ∧ Space.need V d (DESIZE * k) DESIZE ≤ Space.free sb V

theorem entryFits_congr (hslot : ∀ l, V'.slot d l = V.slot d l) (hused : ∀ b < sb.size, V'.used b = V.used b) :
    EntryFits sb V' d k ↔ EntryFits sb V d k := by
  have hfree : Space.free sb V' = Space.free sb V :=
    congrArg Finset.card (Finset.filter_congr fun b hb => by rw [hused b (Finset.mem_range.mp hb)])
  unfold EntryFits Space.need
  simp only [hslot, hfree]

theorem entry_refused (hle : DESIZE * k ≤ (V.ino d).size)
    (hbad : DESIZE * k > (V.ino d).size ∨ add32 (DESIZE * k) DESIZE < DESIZE * k ∨
      DESIZE * k + DESIZE > MAXFILE * BSIZE) :
    ¬ EntryFits sb V d k := by
  rintro ⟨hfits, _⟩
  have h2 : MAXFILE * BSIZE < 4294967296 := by decide
  unfold add32 at hbad
  omega

/-- The bytes `l` of an entry lie in one block: they are written as a whole, or not at all
    for want of room. -/
theorem filled_dirent {l : List UInt8} (hf : Filled sb s V dp d (kernelSrc l) (DESIZE * k) DESIZE r t V')
    (hi : Live sb V d) (hle : DESIZE * k ≤ (V.ino d).size) (hlen : l.length = DESIZE) :
    r = 0 ∧ ¬ EntryFits sb V d k ∧ node sb V' = node sb V ∨
      r = DESIZE ∧ EntryFits sb V d k ∧ node sb V' = upd (node sb V) d ((node sb V d).put (DESIZE * k) l) := by
  have hsrc : ∀ j < DESIZE, (kernelSrc l j).isSome = true := fun _ _ => rfl
  have hall := Space.filled_all hf hi hsrc
  have hi' : Live sb V' d := (filled_live hf d).mpr hi
  have hself : node sb V' d = { node sb V d with
      size := max (V.ino d).size (DESIZE * k + r)
      byte := fun y => if DESIZE * k ≤ y ∧ y < DESIZE * k + r then l.getD (y - DESIZE * k) 0 else V.raw d y } := by
    rw [node_live hi', node_live hi, hf.hdr, funext (hf.exact hsrc)]
    rfl
  have hchunk : r = 0 ∨ r = DESIZE := by
    have h1 := hf.chunk
    have h2 := hf.le
    simp only [DESIZE, DIRSIZ, BSIZE] at *
    omega
  refine hchunk.imp (fun h0 => ⟨h0, fun hfits => ?_, ?_⟩) fun h16 =>
    ⟨h16, ⟨Nat.le_of_not_lt fun hlt => ?_, hall.mp h16⟩, ?_⟩
  · rw [hall.mpr hfits.2] at h0
    exact absurd h0 (by decide)
  · have hsame : node sb V' d = node sb V d := by
      have hbyte : (fun y => if DESIZE * k ≤ y ∧ y < DESIZE * k + r then l.getD (y - DESIZE * k) 0 else V.raw d y) =
          V.raw d := by
        funext y
        rw [if_neg (by omega)]
      rw [hself, hbyte, node_live hi]
      simp only [Node.mk.injEq, true_and, and_true]
      omega
    rw [node_upd fun j hj => filled_node hf hj, hsame, upd_self]
  -- no slot is behind the last one
  · have hbn := hf.there (DESIZE * k + (DESIZE - 1)) (Nat.le_add_right _ _) (by simp only [h16, DESIZE, DIRSIZ]; omega)
    refine hbn (slot_past _ _ ?_)
    have hge : MAXFILE ≤ (DESIZE * k + (DESIZE - 1)) / BSIZE := by
      simp only [DESIZE, DIRSIZ, BSIZE] at *
      omega
    have hmf : MAXFILE = NDIRECT + NINDIRECT := rfl
    unfold slotOf
    rw [if_neg (by omega)]
    omega
  · rw [node_upd fun j hj => filled_node hf hj, hself, node_live hi, Node.put, hlen, h16]

/-- The bytes `l` of an entry are written whole, or not at all for want of room. -/
theorem writeDirent_spec (hl : sb.Layout) (h : Mid sb safe c s V T L) (hr : Ref c T dp d) (hL : dp ∈ L)
    (hI : c.bill.free (sb.IBLOCK d)) (hn : c.Affords safe 2) {l : List UInt8} (hlen : l.length = DESIZE)
    (hin : deInum l < sb.ninodes) {Q : Int → St → Prop} (hle : DESIZE * k ≤ (node sb V d).size)
    (hbad : ∀ r t V', r ≠ (DESIZE : Int) → ¬ EntryFits sb V d k → Mid sb safe (c.charge 2) t V' T L →
      node sb V' = node sb V → Q r t)
    (hok : ∀ t V', EntryFits sb V d k → Mid sb safe (c.charge 2) t V' T L →
      node sb V' = upd (node sb V) d ((node sb V d).put (DESIZE * k) l) → Q DESIZE t) :
    wp (writei sb dp (kernelSrc l) (DESIZE * k) DESIZE) Q (Fine safe) s := by
  have hp := mid_loaded h hr hL
  have hi := loaded_live h.rep hp
  have hle' : DESIZE * k ≤ (V.ino d).size := by rwa [node_live hi] at hle
  have hsrc : ∀ j < DESIZE, (kernelSrc l j).isSome = true := fun _ _ => rfl
  have hwrite : wp (writei sb dp (kernelSrc l) (DESIZE * k) DESIZE)
    (fun r t => (r = -1 ∧ t = s ∧ ¬ EntryFits sb V d k) ∨
      ∃ (n : Nat) (V' : Vol), r = n ∧ Filled sb s V dp d (kernelSrc l) (DESIZE * k) DESIZE n t V')
      (Fine ⟨safe.live, False⟩) s :=
    writei_spec hl h.rep hp hi h.sound (.inl hsrc) costs_any (room_any (fine_log_any id) (n := 6 * blocks _ _ + 1 + 0))
      (fun hbad => .inl ⟨rfl, rfl, entry_refused hle' hbad⟩) fun n t V' _ hf _ => .inr ⟨n, V', rfl, hf⟩
  have hone : DESIZE * k % BSIZE + DESIZE ≤ BSIZE := by
    simp only [DESIZE, DIRSIZ, BSIZE]
    omega
  have h2 := mid_charge h 2 hn
  -- what is logged is shown apart, with no word about the other panics
  have hn' : c.bill.Affords (fun x => x = .log .tooBig → ¬ safe.room) 2 := hn.imp_left fun h _ => h
  have hbill : wp (writei sb dp (kernelSrc l) (DESIZE * k) DESIZE) (fun _ t => (c.bill.charge 2).Fits t.log)
      (fun x => x = .log .tooBig → ¬ safe.room) s :=
    writei_bill (β := 0) (N := 1) (fun x hx h => absurd h hx) (fun b hb => .inl (h.bitmap b hb)) hn'
    (hp.inum.symm ▸ hI) h.logged hone
  refine wp_imp (wp_and hwrite hbill) (fun r t hrt => ?_) fun x hx => fine_also hx.1 hx.2
  obtain ⟨⟨rfl, rfl, hno⟩ | ⟨r, V', rfl, hf⟩, hlog⟩ := hrt
  · exact hbad _ _ V (by decide) hno h2 rfl
  rcases filled_dirent hf hi hle' hlen with ⟨rfl, hno, hsame⟩ | ⟨rfl, hyes, hput⟩
  · exact hbad _ t V' (by decide) hno (mid_filled h2 hp hf (hsame ▸ h.dirs) hlog) hsame
  refine hok t V' hyes (mid_filled h2 hp hf ?_ hlog) hput
  rw [hput]
  refine dirRange_upd h.dirs fun hty j => ?_
  rw [ent_put hlen hle]
  split
  · exact hin
  · exact h.dirs d j hty

theorem dirlink_spec (hl : sb.Layout) (h : Mid sb safe c s V T L) (hr : Ref c T dp d) (hL : dp ∈ L)
    (hI : c.bill.free (sb.IBLOCK d)) (hn : c.Affords safe 2)
    (hb : ∀ k, (node sb V d).ent k ≠ 0 → Covered sb c T V ((node sb V d).ent k))
    (hty : (node sb V d).type = T_DIR) (hc : Closed sb safe V d) {name : Name} {inum : Nat}
    (hin : inum < sb.ninodes) {Q : Int → St → Prop}
    (hthere : ∀ t V' k, (node sb V d).ent k ≠ 0 → (node sb V d).lookup name ≠ none →
      Mid sb safe (c.charge 2) t V' T L → Drop sb c T V V' ((node sb V d).ent k) → Q (-1) t)
    (hfull : ∀ t V', ¬ EntryFits sb V d (node sb V d).gap → Mid sb safe (c.charge 2) t V' T L →
      node sb V' = node sb V → Q (-1) t)
    (hok : ∀ t V', EntryFits sb V d (node sb V d).gap → Mid sb safe (c.charge 2) t V' T L →
      (node sb V d).lookup name = none → node sb V' = upd (node sb V) d
      ((node sb V d).put (DESIZE * (node sb V d).gap) (mkDirent inum name)) → Q 0 t) :
    wp (dirlink sb dp name inum) Q (Fine safe) s := by
  have hp := mid_loaded h hr hL
  refine wp_then (dirlookup_spec h hr hL hty hc (fun hno => ?_) fun ip k t h0 _ hat ht => ?_)
  · rw [wp_bind, wp_getInode, wp_bind, loaded_size h.rep hp]
    refine freeEntry_spec (mid_readable h hp) (fun _ => trivial) ?_ _ 0 ?_ fun j hj => absurd hj (Nat.not_lt_zero j)
    · rw [wp_bind]
      have hin' : deInum (mkDirent inum name) < sb.ninodes := by
        rw [deInum_mkDirent]
        exact Nat.lt_of_le_of_lt (Nat.mod_le _ _) hin
      refine writeDirent_spec hl h hr hL hI hn (mkDirent_length inum name) hin' (gap_le _)
        (fun r t V' hne hfit ht hn => ?_)
        fun t V' hfit ht hn => ?_
      · rw [if_pos hne]
        exact hfull t V' hfit ht hn
      · exact hok t V' hfit ht hno hn
    · simp only [DESIZE, DIRSIZ]
      omega
  · have hname : (node sb V d).lookup name ≠ none := by
      rw [hat]
      exact Option.some_ne_none _
    refine wp_then (iput_spec hl ht (fun hm => ?_) (hb k h0) fun u V' hu hd _ =>
      hthere u V' k h0 hname (mid_charge hu 2 hn) hd)
    have h1 := (h.locked ip hm).2
    have h2 := h.refs ip
    omega

/-! ## Paths -/

/-- What a walk keeps: a property of the volume that survives a dropped reference, and
    under which every directory can be walked through. `T` is held meanwhile, and whatever
    the walk drops is held elsewhere or on the bill. -/
structure Walk (sb : Superblock) (safe : Guard) (c : Ctx) (T : List (Idx × Nat)) (P : Vol → Prop) : Prop where
  drop : ∀ T' V V' i, (∀ p ∈ T, p ∈ T') → P V → Drop sb c T' V V' i → P V'
  closed : ∀ V d, P V → (node sb V d).type = T_DIR → Closed sb safe V d
  root : ROOTINO < sb.ninodes ∧ ∀ V, safe.live → P V → Live sb V ROOTINO
  covered : ∀ T' V i, (∀ p ∈ T, p ∈ T') → P V → Covered sb c T' V i

def Ctx.origin (c : Ctx) (cwd : Idx) (path : Name) : Nat := if path.head? = some slash then ROOTINO else c.num cwd

theorem mid_origin (h : Mid sb safe c s V T L) (hcwd : 0 < c.kept cwd) (path : Name) :
    origin s cwd path = c.origin cwd path := by
  unfold origin Ctx.origin
  rw [h.num cwd hcwd]

/-- If the inodes are `F` all the while, the walk from inode `i` gets to `r`. -/
def Leads (sb : Superblock) (P : Vol → Prop) (parent : Bool) (i : Nat) (names : List Name)
    (r : Option (Nat × Name)) : Prop :=
  ∀ F, (∀ W, P W → node sb W = F) → target F parent i names = r

variable {P : Vol → Prop}

section

variable (hl : sb.Layout) (hw : Walk sb safe c T P)

include hl hw

theorem namexFrom_spec (parent : Bool) (names : List Name) :
    ∀ {ip i s V}, (∀ t V', Mid sb safe c t V' T [] → P V' → Leads sb P parent i names none → Q none t) →
      (∀ jp j name t V', Mid sb safe c t V' ((jp, j) :: T) [] → P V' → (parent = true → (node sb V' j).type = T_DIR) →
        Leads sb P parent i names (some (j, name)) → Q (some (jp, name)) t) →
      Mid sb safe c s V ((ip, i) :: T) [] → P V → wp (namexFrom sb parent ip names) Q (Fine safe) s := by
  induction names with
  | nil =>
    intro ip i s V hnone hsome h hP
    unfold namexFrom
    by_cases hpar : parent = true
    · rw [if_pos hpar, wp_bind]
      refine iput_spec hl h (fun hm => absurd hm List.not_mem_nil) (hw.covered T V i (fun _ => id) hP)
        fun t V' ht hd _ => ?_
      exact hnone t V' ht (hw.drop T V V' i (fun _ => id) hP hd) fun F _ => by rw [target_nil, if_pos hpar]
    · rw [if_neg hpar]
      exact hsome ip i [] s V h hP (fun h' => absurd h' hpar) fun F _ => by rw [target_nil, if_neg hpar]
  | cons name rest ih =>
    intro ip i s V hnone hsome h hP
    have hr : Ref c ((ip, i) :: T) ip i := .inl (.head _)
    refine wp_then (ilock_spec h hr fun t ht hlive => ?_)
    have hp := mid_loaded ht hr (.head _)
    have hput : Leads sb P parent i (name :: rest) none → ∀ {u : St}, Mid sb safe c u V ((ip, i) :: T) [ip] →
        wp (iunlockput sb ip >>= fun _ => pure none) Q (Fine safe) u := by
      intro hno u hu
      refine wp_then (iunlockput_spec hl hu (hw.covered T V i (fun _ => id) hP) fun v V' hv hd _ => ?_)
      exact hnone v V' hv (hw.drop T V V' i (fun _ => id) hP hd) hno
    rw [wp_bind, wp_getInode, loaded_type ht.rep hp]
    by_cases hty : (node sb V i).type = T_DIR
    · rw [if_neg (fun hne => hne hty)]
      by_cases hlast : parent = true ∧ rest = []
      · rw [if_pos hlast, wp_bind]
        refine iunlock_spec ht fun u hu _ => hsome ip i name u V hu hP (fun _ => hty) fun F hF => ?_
        exact target_last (by rw [← hF V hP]; exact hty) hlast
      rw [if_neg hlast, wp_bind]
      have hstep : ∀ F, (∀ W, P W → node sb W = F) →
          target F parent i (name :: rest) = ((node sb V i).lookup name).bind fun p =>
            target F parent p.1 rest := fun F hF => by
        rw [hF V hP] at hty ⊢
        exact target_cons hty hlast
      refine dirlookup_spec ht hr (.head _) hty (hw.closed V i hP hty) (fun hno => hput (fun F hF => ?_) ht)
        fun next k u _ _ hat hu => ?_
      · rw [hstep F hF, hno]
        rfl
      refine wp_then (iunlockput_spec hl (mid_perm hu (List.Perm.swap ..) (List.Perm.refl _))
        (hw.covered _ V i (fun p => List.mem_cons_of_mem _) hP) fun v V' hv hd _ => ?_)
      have hgo : ∀ {r}, Leads sb P parent ((node sb V i).ent k) rest r →
          Leads sb P parent i (name :: rest) r := fun hr F hF => by
        rw [hstep F hF, hat]
        exact hr F hF
      exact ih (fun t W h1 h2 h3 => hnone t W h1 h2 (hgo h3))
        (fun jp j m t W h1 h2 h3 h4 => hsome jp j m t W h1 h2 h3 (hgo h4)) hv
        (hw.drop _ V V' i (fun p => List.mem_cons_of_mem _) hP hd)
    · rw [if_pos hty]
      exact hput (fun F hF => target_file (by rw [← hF V hP]; exact hty)) ht

theorem namex_spec (h : Mid sb safe c s V T []) (hP : P V) (hcwd : 0 < c.kept cwd) (path : Name)
    (parent : Bool)
    (hnone : ∀ t V', Mid sb safe c t V' T [] → P V' → Leads sb P parent (c.origin cwd path) (elems path) none →
      Q none t)
    (hsome : ∀ ip i name t V', Mid sb safe c t V' ((ip, i) :: T) [] → P V' →
      (parent = true → (node sb V' i).type = T_DIR) → Leads sb P parent (c.origin cwd path)
      (elems path) (some (i, name)) → Q (some (ip, name)) t) :
    wp (namex sb cwd path parent) Q (Fine safe) s := by
  unfold namex
  unfold Ctx.origin at hnone hsome
  by_cases habs : path.head? = some slash
  · rw [if_pos habs] at hnone hsome ⊢
    rw [wp_bind]
    refine iget_spec h hw.root.1 (fun hsafe => hw.root.2 V hsafe hP) fun ip t ht => ?_
    exact namexFrom_spec hl hw parent _ hnone hsome ht hP
  · rw [if_neg habs] at hnone hsome ⊢
    rw [wp_bind]
    exact idup_spec h (.inr ⟨hcwd, rfl⟩) fun t ht => namexFrom_spec hl hw parent _ hnone hsome ht hP

theorem namei_spec (h : Mid sb safe c s V T []) (hP : P V) (hcwd : 0 < c.kept cwd)
    (path : Name) {Q : Option Idx → St → Prop} (hnone : ∀ t V', Mid sb safe c t V' T [] → P V' → Q none t)
    (hsome : ∀ ip i t V', Mid sb safe c t V' ((ip, i) :: T) [] → P V' → Q (some ip) t) :
    wp (namei sb cwd path) Q (Fine safe) s :=
  wp_then (namex_spec hl hw h hP hcwd path false (fun t V' ht hP' _ => hnone t V' ht hP')
    fun ip i _ t V' ht hP' _ _ => hsome ip i t V' ht hP')

theorem nameiparent_spec (h : Mid sb safe c s V T []) (hP : P V) (hcwd : 0 < c.kept cwd) (path : Name)
    (hnone : ∀ t V', Mid sb safe c t V' T [] → P V' → Leads sb P true (c.origin cwd path) (elems path) none → Q none t)
    (hsome : ∀ dp d name t V', Mid sb safe c t V' ((dp, d) :: T) [] → P V' → (node sb V' d).type = T_DIR →
      Leads sb P true (c.origin cwd path) (elems path) (some (d, name)) → Q (some (dp, name)) t) :
    wp (nameiparent sb cwd path) Q (Fine safe) s :=
  namex_spec hl hw h hP hcwd path true hnone fun dp d name t V' ht hP' hty => hsome dp d name t V' ht hP' (hty rfl)

end

end Xv6.Fs
