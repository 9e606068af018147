/-
  Xv6.Fs.Bill — which blocks a transaction logs. A `Bill` names blocks that cost nothing
  and counts the others; the log may be added to as long as it stays on the bill. What
  `writei` logs can be read off the code: for each block of the file that block and perhaps
  one of the bitmap, the inode's own block, and once the indirect block.
-/

import Xv6.Fs.Rep

namespace Xv6.Fs

open Lib

structure Bill where
  free : Nat → Prop
  spent : Nat

namespace Bill

variable {E : Panic → Prop} {g : Bill} {l : Log.LogSt} {a b m n : Nat}

structure Fits (g : Bill) (l : Log.LogSt) : Prop where
  nodup : l.lh.Nodup
  /-- Outside of transactions nothing is in the log. -/
  inside : l.outstanding < 1 → l.lh = []
  paid : ∃ p : List Nat, p.length ≤ g.spent ∧ ∀ b ∈ l.lh, g.free b ∨ b ∈ p

def charge (g : Bill) (n : Nat) : Bill := { g with spent := g.spent + n }

/-- Block `b` costs nothing from here on; it is to be charged for later. -/
def pay (g : Bill) (b : Nat) : Bill := { g with free := fun x => g.free x ∨ x = b }

def blank : Bill := ⟨fun _ => True, 0⟩

/-- With `n` blocks more the log does not overflow, unless `E` has that it may. -/
def Affords (E : Panic → Prop) (g : Bill) (n : Nat) : Prop :=
  E (.log .tooBig) ∨ ∀ l, (g.charge n).Fits l → l.lh.length < LOGBLOCKS

theorem charge_charge (g : Bill) (m n : Nat) : (g.charge m).charge n = g.charge (m + n) := by
  simp only [charge, Nat.add_assoc]

theorem fits_blank (h : g.Fits l) : blank.Fits l := ⟨h.nodup, h.inside, [], Nat.le_refl _, fun _ _ => .inl trivial⟩

theorem fits_sub {l' : Log.LogSt} (h : g.Fits l) (hs : l'.lh.Sublist l.lh)
    (hi : l'.outstanding < 1 → l'.lh = []) : g.Fits l' := by
  obtain ⟨p, h1, h2⟩ := h.paid
  exact ⟨h.nodup.sublist hs, hi, p, h1, fun b hb => h2 b (hs.subset hb)⟩

theorem fits_le (h : (g.charge m).Fits l) (hm : m ≤ n) : (g.charge n).Fits l := by
  obtain ⟨p, h1, h2⟩ := h.paid
  exact ⟨h.nodup, h.inside, p, Nat.le_trans h1 (Nat.add_le_add_left hm _), h2⟩

theorem fits_charge (h : g.Fits l) (n : Nat) : (g.charge n).Fits l := fits_le (m := 0) h (Nat.zero_le n)

theorem fits_pay (h : g.Fits l) (b : Nat) : (g.pay b).Fits l := by
  obtain ⟨p, h1, h2⟩ := h.paid
  exact ⟨h.nodup, h.inside, p, h1, fun x hx => (h2 x hx).imp_left .inl⟩

theorem fits_swap (h : ((g.pay a).pay b).Fits l) : ((g.pay b).pay a).Fits l := by
  obtain ⟨p, h1, h2⟩ := h.paid
  exact ⟨h.nodup, h.inside, p, h1, fun x hx => (h2 x hx).imp_left or_right_comm.mp⟩

theorem fits_paid (h : (g.pay b).Fits l) : (g.charge 1).Fits l := by
  obtain ⟨p, h1, h2⟩ := h.paid
  refine ⟨h.nodup, h.inside, b :: p, Nat.succ_le_succ h1, fun x hx => ?_⟩
  rcases h2 x hx with (h3 | rfl) | h3
  · exact .inl h3
  · exact .inr (.head _)
  · exact .inr (.tail _ h3)

/-- If only blocks of `L` are free, the log has no more blocks than these and those paid for. -/
theorem fits_length (h : g.Fits l) {L : List Nat} (hL : ∀ b, g.free b → b ∈ L) : l.lh.length ≤ g.spent + L.length := by
  obtain ⟨p, h1, h2⟩ := h.paid
  have hsub : l.lh ⊆ p ++ L := fun b hb => List.mem_append.mpr ((h2 b hb).symm.imp_right (hL b))
  have hle := (h.nodup.subperm hsub).length_le
  rw [List.length_append] at hle
  omega

theorem affords_length {E : Panic → Prop} {L : List Nat} (hL : ∀ b, g.free b → b ∈ L)
    (hn : g.spent + n + L.length < LOGBLOCKS) :
    g.Affords E n := .inr fun _ hf => Nat.lt_of_le_of_lt (fits_length (g := g.charge n) hf hL) hn

theorem affords_le (h : g.Affords E n) (hm : m ≤ n) : g.Affords E m :=
  h.imp_right fun h l hf => h l (fits_le hf hm)

theorem affords_charge (h : g.Affords E n) (m : Nat) (hm : m ≤ n) : (g.charge m).Affords E (n - m) := by
  refine h.imp_right fun h l hf => h l ?_
  rwa [charge_charge, Nat.add_sub_cancel' hm] at hf

theorem affords_pay (h : g.Affords E (n + 1)) (b : Nat) : (g.pay b).Affords E n := by
  refine h.imp_right fun h l hf => h l ?_
  rw [← charge_charge]
  exact fits_paid (b := b) hf

theorem logs_fits (hE : ∀ x, x ≠ .tooBig → E (.log x)) (hn : g.Affords E n) (hb : g.free b) :
    Logs E b (fun l => g.Fits l) fun l => g.Fits l := by
  intro l hl
  refine ⟨fun x hx => ?_, fun l' hl' => ?_⟩
  · rcases logWrite_error hx with ⟨rfl, hfull⟩ | ⟨rfl, _⟩
    · exact hn.resolve_right fun h => Nat.not_lt.mpr hfull (h _ (fits_charge hl n))
    · exact hE _ (by decide)
  · obtain ⟨p, h1, h2⟩ := hl.paid
    have hout := logWrite_inside hl'
    refine ⟨logWrite_nodup hl' hl.nodup, fun h => by omega, p, h1, fun x hx => ?_⟩
    rcases ((logWrite_ok hl').2.2.1 x).mp hx with h | rfl
    · exact h2 x h
    · exact .inl hb

end Bill

/-! ## Writing to a file -/

def Bill.Bitmap (sb : Superblock) (g : Bill) : Prop := ∀ b, b < sb.size → g.free (sb.BBLOCK b)

section writei

variable {E : Panic → Prop} {sb : Superblock} {g : Bill} {β : Nat} {s t : St} {ip : Idx} {n : Nat}

/-- The log is on the bill `g` after some of the work for file `ip`, where a block of the
    bitmap costs `β`: the indirect block is charged for once, and its allocation too. -/
structure Billed (g : Bill) (β : Nat) (ip : Idx) (s t : St) : Prop where
  inum : ∀ e, (t.inode e).inum = (s.inode e).inum
  log : ((g.charge β).pay ((t.inode ip).addr NDIRECT)).Fits t.log
  fresh : (t.inode ip).addr NDIRECT = 0 → g.Fits t.log

theorem billed_start (h : g.Fits s.log) : Billed g β ip s s :=
  ⟨fun _ => rfl, Bill.fits_pay (Bill.fits_charge h β) _, fun _ => h⟩

theorem billed_same {u : St} (h : Billed g β ip s t) (hi : u.inode = t.inode) (hl : u.log = t.log) :
    Billed g β ip s u := by
  refine ⟨fun e => ?_, ?_, ?_⟩
  · rw [hi]
    exact h.inum e
  · rw [hi, hl]
    exact h.log
  · rw [hi, hl]
    exact h.fresh

theorem billed_charge (h : Billed g β ip s t) (n : Nat) : Billed (g.charge n) β ip s t where
  inum := h.inum
  log := by
    have h1 := Bill.fits_charge h.log n
    simp only [Bill.charge, Bill.pay, Nat.add_right_comm] at h1 ⊢
    exact h1
  fresh := fun h0 => Bill.fits_charge (h.fresh h0) n

theorem billed_paid {b : Nat} (h : Billed (g.pay b) β ip s t) : Billed (g.charge 1) β ip s t where
  inum := h.inum
  log := by
    have h1 := Bill.fits_paid (g := (g.charge β).pay _) (Bill.fits_swap (g := g.charge β) h.log)
    simp only [Bill.charge, Bill.pay, Nat.add_right_comm] at h1 ⊢
    exact h1
  fresh := fun h0 => Bill.fits_paid (h.fresh h0)

theorem billed_logs {b : Nat} (hE : ∀ x, x ≠ .tooBig → E (.log x)) (hn : g.Affords E (β + 1)) (hb : g.free b) :
    Logs E b (fun l => Billed g β ip s { t with log := l }) fun l => Billed g β ip s { t with log := l } := by
  intro l hl
  have hn' : ((g.charge β).pay ((t.inode ip).addr NDIRECT)).Affords E 0 :=
    Bill.affords_pay (Bill.affords_le (Bill.affords_charge hn β (Nat.le_succ β)) (by omega)) _
  obtain ⟨h1, h2⟩ := Bill.logs_fits hE hn' (.inl hb) l hl.log
  exact ⟨h1, fun l' hl' => ⟨hl.inum, h2 l' hl', fun h0 => (Bill.logs_fits hE hn hb l (hl.fresh h0)).2 l' hl'⟩⟩

variable (hE : ∀ x, x ≠ .log .tooBig → E x) (hB : ∀ b, b < sb.size → g.free (sb.BBLOCK b) ∨ 1 ≤ β)

include hE hB

theorem balloc_bill (hn : g.Affords E (β + 1)) (h : g.Fits s.log) :
    wp (balloc sb) (fun a t => ((g.charge β).pay a).Fits t.log ∧ t.inode = s.inode) E s := by
  have hlog : ∀ x, x ≠ .tooBig → E (.log x) := fun x hx => hE _ fun e => hx (by cases e; rfl)
  have hnone : ((g.charge β).pay 0).Fits s.log := Bill.fits_pay (Bill.fits_charge h β) 0
  unfold balloc
  generalize sb.size / BPB + 1 = fuel
  suffices hloop : ∀ b, wp (ballocFrom sb fuel b) (fun a t => ((g.charge β).pay a).Fits t.log ∧
    t.inode = s.inode) E s from hloop 0
  induction fuel with
  | zero => exact fun b => ⟨hnone, rfl⟩
  | succ fuel ih =>
    intro b
    refine wp_if (fun hlt => ?_) fun _ => ⟨hnone, rfl⟩
    rw [wp_bind, wp_bread]
    split
    · next bi _ =>
      have hbit : Logs E (sb.BBLOCK b) (fun l => g.Fits l) fun l => (g.charge β).Fits l := by
        intro l hl
        rcases hB b hlt with hfree | hβ
        · obtain ⟨h1, h2⟩ := Bill.logs_fits hlog hn hfree l hl
          exact ⟨h1, fun l' hl' => Bill.fits_charge (h2 l' hl') β⟩
        · have hp : (g.pay (sb.BBLOCK b)).Affords E β := Bill.affords_pay hn _
          obtain ⟨h1, h2⟩ := Bill.logs_fits hlog hp (.inr rfl) l (Bill.fits_pay hl _)
          exact ⟨h1, fun l' hl' => Bill.fits_le (Bill.fits_paid (h2 l' hl')) hβ⟩
      refine wp_write hbit h fun t ht hg => ?_
      unfold bzero
      rw [wp_bind, wp_bind]
      have hn' : ((g.charge β).pay (b + bi)).Affords E 0 :=
        Bill.affords_pay (Bill.affords_le (Bill.affords_charge hn β (Nat.le_succ β)) (by omega)) _
      refine wp_write (f := pure) (Bill.logs_fits hlog hn' (.inr rfl)) (Bill.fits_pay hg _) fun u hu hg' => ?_
      exact ⟨hg', by rw [hu.inode, ht.inode]⟩
    · rw [wp_bind, wp_brelse, St.withBufs_bufs, relse_cons]
      exact ih (b + BPB)

theorem bmapAddr_bill (hn : g.Affords E (β + 1)) (h : g.Fits t.log) {k : Nat} (hk : k < NDIRECT + 1) :
    wp (bmapAddr sb ip k) (fun a u => ((g.charge β).pay a).Fits u.log ∧ (∀ e, (u.inode e).inum = (t.inode e).inum) ∧
      ∀ j, (u.inode ip).addr j = if j = k then a else (t.inode ip).addr j) E t := by
  have hsame : ∀ a, a = (t.inode ip).addr k → ∀ j, (t.inode ip).addr j = if j = k then a else (t.inode ip).addr j := by
    intro a ha j
    split
    · next e => rw [ha, e]
    · rfl
  unfold bmapAddr
  refine wp_if (fun h0 => ?_) fun _ => ⟨Bill.fits_pay (Bill.fits_charge h β) _, fun _ => rfl, hsame _ rfl⟩
  refine wp_seq (balloc_bill hE hB hn h) fun a u hu => wp_if (fun ha => ?_) fun _ => ?_
  · refine ⟨ha ▸ hu.1, fun e => by rw [hu.2], ?_⟩
    rw [hu.2]
    exact hsame 0 h0.symm
  · refine ⟨hu.1, fun e => ?_, fun j => ?_⟩
    · rw [← hu.2]
      by_cases he : e = ip
      · rw [he]
        simp only [upd_same]
      · simp only [upd_ne _ _ he]
    · simp only [upd_same, Dinode.addr_setAddr _ _ hk, hu.2]

theorem bmapEntry_bill (hn : g.Affords E (β + 1)) {ind : Nat} (hind : g.free ind) (h : g.Fits t.log) (j : Nat) :
    wp (bmapEntry sb ind j) (fun a u => ((g.charge β).pay a).Fits u.log ∧ u.inode = t.inode) E t := by
  have hlog : ∀ x, x ≠ .tooBig → E (.log x) := fun x hx => hE _ fun e => hx (by cases e; rfl)
  unfold bmapEntry
  refine wp_if (fun _ => ?_) fun _ => ?_
  · refine wp_seq (balloc_bill (s := t.withBufs _) hE hB hn h) fun a u hu => wp_if (fun h0 => ?_) fun _ => ?_
    · exact h0 ▸ hu
    · have hn' : ((g.charge β).pay a).Affords E 0 :=
        Bill.affords_pay (Bill.affords_le (Bill.affords_charge hn β (Nat.le_succ β)) (by omega)) _
      refine wp_write (s := u) (Bill.logs_fits hlog hn' (.inl hind)) hu.1 fun v hv hg => ?_
      exact ⟨hg, by rw [hv.inode]; exact hu.2⟩
  · exact ⟨Bill.fits_pay (Bill.fits_charge h β) _, rfl⟩

/-- For a block index the block that is returned is charged for, and perhaps one of the
    bitmap; the indirect block was counted at the start. -/
theorem bmap_bill (hn : g.Affords E (2 * (β + 1))) (h : Billed g β ip s t) (bn : Nat) :
    wp (bmap sb ip bn) (fun a u => Billed ((g.charge β).pay a) β ip s u) E t := by
  generalize hi : (t.inode ip).addr NDIRECT = ind at *
  have hlog : ((g.charge β).pay ind).Fits t.log := hi ▸ h.log
  have hB' : ∀ b, b < sb.size → ((g.charge β).pay ind).free (sb.BBLOCK b) ∨ 1 ≤ β := fun b hb => (hB b hb).imp_left .inl
  have hn1 : g.Affords E (β + 1) := Bill.affords_le hn (by omega)
  have hn2 : ∀ a, ((g.charge β).pay a).Affords E (β + 1) := fun a =>
    Bill.affords_pay (Bill.affords_le (Bill.affords_charge hn β (by omega)) (by omega)) a
  refine wp_if (fun hlt => ?_) fun _ => wp_if (fun _ => ?_) fun _ => hE _ (by intro e; cases e)
  · have hne : NDIRECT ≠ bn := by omega
    by_cases h0 : ind = 0
    · refine wp_mono (bmapAddr_bill hE hB hn1 (h.fresh (hi.trans h0)) (Nat.lt_succ_of_lt hlt)) fun a u hu => ?_
      exact ⟨fun e => (hu.2.1 e).trans (h.inum e), Bill.fits_pay (Bill.fits_charge hu.1 β) _, fun _ => hu.1⟩
    · refine wp_mono (bmapAddr_bill hE hB' (hn2 ind) hlog (Nat.lt_succ_of_lt hlt)) fun a u hu => ?_
      have hu12 : (u.inode ip).addr NDIRECT = ind := by rw [hu.2.2, if_neg hne, hi]
      exact ⟨fun e => (hu.2.1 e).trans (h.inum e), by rw [hu12]; exact Bill.fits_swap (g := (g.charge β).charge β) hu.1,
        fun he => absurd (hu12.symm.trans he) h0⟩
  · -- the indirect block is there and on the bill, or it is allocated now
    have hentry : ∀ {a u}, ((g.charge β).pay a).Fits u.log → (∀ e, (u.inode e).inum = (t.inode e).inum) →
        (u.inode ip).addr NDIRECT = a → a ≠ 0 →
        wp (bmapEntry sb a (bn - NDIRECT)) (fun a u => Billed ((g.charge β).pay a) β ip s u) E u := by
      intro a u hf hnum ha h0
      refine wp_mono (bmapEntry_bill hE (fun b hb => (hB b hb).imp_left Or.inl) (hn2 a) (Or.inr rfl) hf _)
        fun x v hv => ?_
      refine ⟨fun e => ?_, ?_, fun he => ?_⟩
      · rw [hv.2]
        exact (hnum e).trans (h.inum e)
      · rw [hv.2, ha]
        exact Bill.fits_swap (g := (g.charge β).charge β) hv.1
      · rw [hv.2, ha] at he
        exact absurd he h0
    by_cases h0 : ind = 0
    · refine wp_seq (bmapAddr_bill hE hB hn1 (h.fresh (hi.trans h0)) (Nat.lt_succ_self _)) fun a u hu =>
        wp_if (fun ha => ?_) fun ha => ?_
      · subst ha
        exact ⟨fun e => (hu.2.1 e).trans (h.inum e), Bill.fits_pay (Bill.fits_charge hu.1 β) _, fun _ => hu.1⟩
      · exact hentry hu.1 hu.2.1 (by rw [hu.2.2, if_pos rfl]) ha
    · rw [wp_bind]
      unfold bmapAddr
      rw [wp_bind, wp_getInode]
      rw [hi, if_neg h0, wp_pure, if_neg h0]
      exact hentry hlog (fun _ => rfl) hi h0

variable {src : Nat → Option UInt8}

omit hB hE in
theorem writeiFrom_done {tot : Nat} (h : n ≤ tot) (fuel off : Nat) :
    writeiFrom sb ip src n fuel tot off = pure (tot, off) := by
  cases fuel with
  | zero => rfl
  | succ fuel =>
    unfold writeiFrom
    rw [if_neg (Nat.not_lt.mpr h)]

omit hB in
/-- One turn of the loop of `writei`, whatever `bmap` costs. -/
theorem writeiFrom_turn (hn : g.Affords E (β + 2)) {fuel tot off : Nat} {Q : Nat × Nat → St → Prop}
    (h : Billed (g.charge 1) β ip s t)
    (hmap : wp (bmap sb ip (off / BSIZE)) (fun a u => Billed (g.pay a) β ip s u) E t)
    (hq : ∀ r u, Billed (g.charge 1) β ip s u → Q r u)
    (hnext : ∀ u m, m = min (n - tot) (BSIZE - off % BSIZE) → Billed (g.charge 1) β ip s u →
      wp (writeiFrom sb ip src n fuel (tot + m) (off + m)) Q E u) :
    wp (writeiFrom sb ip src n (fuel + 1) tot off) Q E t := by
  have hlog : ∀ x, x ≠ .tooBig → E (.log x) := fun x hx => hE _ fun e => hx (by cases e; rfl)
  refine wp_if (fun _ => ?_) fun _ => hq _ t h
  refine wp_seq hmap fun a u hu => wp_if (fun _ => hq _ u (billed_paid hu)) fun _ => ?_
  rw [wp_bind]
  generalize hm : min (n - tot) (BSIZE - off % BSIZE) = m
  refine wp_if (fun _ => ?_) fun _ => ?_
  · exact hq _ _ (billed_same (billed_paid hu) rfl rfl)
  · refine wp_then (wp_logWrite (billed_logs hlog (Bill.affords_pay hn a) (.inr rfl)) hu fun l _ _ _ hl => ?_)
    exact hnext _ m hm.symm (billed_same (billed_paid hl) rfl rfl)

omit hB in
/-- The loop of `writei`, over at most `N` blocks. -/
theorem writeiFrom_bill (fuel : Nat) : ∀ {N tot off : Nat} {g : Bill} {t : St}, off % BSIZE + (n - tot) ≤ N * BSIZE →
    (∀ b, b < sb.size → g.free (sb.BBLOCK b) ∨ 1 ≤ β) → g.Affords E ((N + 1) * (β + 1)) → Billed g β ip s t →
    wp (writeiFrom sb ip src n fuel tot off) (fun _ u => Billed (g.charge (N * (β + 1))) β ip s u) E t := by
  induction fuel with
  | zero => exact fun {N tot off g t} _ _ _ h => billed_charge h _
  | succ fuel ih =>
    intro N tot off g t hN hB hn h
    cases N with
    | zero =>
      have hdone : n ≤ tot := by omega
      unfold writeiFrom
      rw [if_neg (Nat.not_lt.mpr hdone)]
      exact billed_charge h _
    | succ N =>
      have hle : 2 * (β + 1) ≤ (N + 1 + 1) * (β + 1) := Nat.mul_le_mul_right _ (by omega)
      have hcharge : (g.charge β).charge 1 = g.charge (β + 1) := Bill.charge_charge ..
      have hrest : (g.charge (β + 1)).charge (N * (β + 1)) = g.charge ((N + 1) * (β + 1)) := by
        rw [Bill.charge_charge, Nat.succ_mul, Nat.add_comm]
      have hn1 : (g.charge β).Affords E (β + 2) := Bill.affords_le (Bill.affords_charge hn β (by omega)) (by omega)
      refine writeiFrom_turn hE hn1 (billed_charge (billed_charge h β) 1)
        (bmap_bill hE hB (Bill.affords_le hn hle) h _) (fun r u hu => ?_)
        fun u m hm hu => ?_
      · rw [← hrest]
        exact billed_charge hu _
      · rw [← hrest]
        by_cases hlast : n - tot ≤ BSIZE - off % BSIZE
        · have hdone : n ≤ tot + m := by omega
          rw [writeiFrom_done hdone]
          exact billed_charge hu _
        have hmod : (off + m) % BSIZE = 0 := by
          rw [hm, Nat.min_eq_right (by omega)]
          have h1 := Nat.mod_lt off (show 0 < BSIZE by decide)
          have h2 := Nat.div_add_mod off BSIZE
          rw [show off + (BSIZE - off % BSIZE) = BSIZE * (off / BSIZE + 1) by rw [Nat.mul_add]; omega]
          exact Nat.mul_mod_right _ _
        refine ih (N := N) ?_ hB ?_ hu
        · rw [Nat.succ_mul] at hN
          omega
        · have := Bill.affords_charge hn (β + 1) (by omega)
          rwa [Nat.succ_mul (N + 1), Nat.add_sub_cancel] at this

omit hB in
theorem iupdate_bill (hn : g.Affords E 0) (hI : g.free (sb.IBLOCK (s.inode ip).inum)) (h : g.Fits s.log) :
    wp (iupdate sb ip) (fun _ t => g.Fits t.log) E s := by
  have hlog : ∀ x, x ≠ .tooBig → E (.log x) := fun x hx => hE _ fun e => hx (by cases e; rfl)
  unfold iupdate
  exact wp_write (f := pure) (Bill.logs_fits hlog hn hI) h fun _ _ hg => hg

omit hB in
/-- `writei` after its loop. -/
theorem writeiEnd_bill {m off : Nat} (hn : g.Affords E (β + 1)) (hI : g.free (sb.IBLOCK (s.inode ip).inum))
    (h : Billed g β ip s t) :
    wp (do
      setInode ip fun x => { x with size := if off > x.size then off else x.size }
      iupdate sb ip
      return (m : Int)) (fun _ u => (g.charge (β + 1)).Fits u.log) E t := by
  have hf : (g.charge (β + 1)).Fits t.log := by
    exact Bill.fits_paid h.log
  rw [wp_bind, wp_setInode, wp_bind]
  refine iupdate_bill hE (Bill.affords_le (Bill.affords_charge hn _ (Nat.le_refl _)) (Nat.zero_le _)) ?_ hf
  dsimp only
  rw [upd_same, h.inum ip]
  exact hI

/-- `writei`, whose bytes lie in at most `N` blocks, up to what it does after its loop. -/
theorem writei_turns {N off : Nat} (hn : g.Affords E ((N + 1) * (β + 1))) (h : g.Fits s.log)
    (hN : off % BSIZE + n ≤ N * BSIZE)
    {Q : Int → St → Prop} (hbad : Q (-1) s) (hend : ∀ (r : Nat × Nat) t, Billed (g.charge (N * (β + 1))) β ip s t →
      wp (do
        setInode ip fun x => { x with size := if r.2 > x.size then r.2 else x.size }
        iupdate sb ip
        return (r.1 : Int)) Q E t) : wp (writei sb ip src off n) Q E s := by
  unfold writei
  refine wp_if (fun _ => hbad) fun _ => wp_if (fun _ => hbad) fun _ => ?_
  exact wp_seq (writeiFrom_bill hE n hN hB hn (billed_start h)) hend

/-- What `writei` logs for bytes that lie in at most `N` blocks. -/
theorem writei_bill {N off : Nat} (hn : g.Affords E ((N + 1) * (β + 1)))
    (hI : g.free (sb.IBLOCK (s.inode ip).inum)) (h : g.Fits s.log) (hN : off % BSIZE + n ≤ N * BSIZE) :
    wp (writei sb ip src off n) (fun _ t => (g.charge ((N + 1) * (β + 1))).Fits t.log) E s := by
  refine writei_turns hE hB hn h hN (Bill.fits_charge h _) fun r t ht => ?_
  have hn' : (g.charge (N * (β + 1))).Affords E (β + 1) := by
    have := Bill.affords_charge hn (N * (β + 1)) (by rw [Nat.succ_mul]; omega)
    rwa [Nat.succ_mul, Nat.add_sub_cancel_left] at this
  refine wp_mono (writeiEnd_bill hE hn' hI ht) fun _ u hu => ?_
  rwa [Bill.charge_charge, ← Nat.succ_mul] at hu

/-- The inode's block may be the last one that the log has room for. -/
theorem writei_affords {N off : Nat} (hn : g.Affords E ((N + 1) * (β + 1))) (h : g.Fits s.log)
    (hN : off % BSIZE + n ≤ N * BSIZE) :
    wp (writei sb ip src off n) (fun _ _ => True) E s := by
  refine writei_turns hE hB hn h hN trivial fun r t ht => ?_
  have hf : (g.charge ((N + 1) * (β + 1))).Fits t.log := by
    have := Bill.fits_paid ht.log
    rwa [Bill.charge_charge, Bill.charge_charge, ← Nat.succ_mul] at this
  have hlogs : ∀ b, Logs E b (fun l => E (.log .tooBig) ∨ l.lh.length < LOGBLOCKS) fun _ => True := by
    refine fun b l hl => ⟨fun x hx => ?_, fun _ _ => trivial⟩
    rcases logWrite_error hx with ⟨rfl, hfull⟩ | ⟨rfl, _⟩
    · exact hl.resolve_right (Nat.not_lt.mpr hfull)
    · exact hE _ (by decide)
  rw [wp_bind, wp_setInode, wp_bind]
  unfold iupdate
  exact wp_write (f := pure) (hlogs _) (hn.imp_right fun hn => hn _ hf) fun _ _ _ => trivial

end writei

end Xv6.Fs
