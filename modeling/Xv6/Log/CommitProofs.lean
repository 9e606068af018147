/-
  Xv6.Log.CommitProofs — a crash never leaves a transaction half done (see
  `Xv6.Log.Commit`).

  After a crash the disk is in one of two conditions, and each run of recovery, crashed
  or complete, keeps it in the one it was in:
  - `Old`: the log is empty and the home blocks are those before the transaction;
  - `New`: either the log holds the whole transaction and the home blocks it does not
    name are those before it, or the log is empty and all of it is installed.
  The write of the header is what takes the disk from the first to the second
  (`commit_crash`); a recovery that completes turns `Old` into the state before and
  `New` into the state after (`recovered_old`, `recovered_new`). So it goes on through
  any history (`rounds_durable`).
-/

import Xv6.Log.Commit

namespace Xv6.Log

open Lib

/-! ## The header block -/

theorem getLE_putEntries_lt (b : Block) (xs : List Nat) : ∀ (i : Nat) {off w : Nat}, off + w ≤ 4 + 4 * i →
    (putEntries b i xs).getLE off w = b.getLE off w := by
  induction xs generalizing b with
  | nil => intro i off w _; rfl
  | cons x xs ih =>
    intro i off w h
    simp only [putEntries]
    rw [ih _ (i + 1) (by omega), Bytes.getLE_putLE_out _ (by omega)]

theorem getLE_putEntries (b : Block) (xs : List Nat) : ∀ (i : Nat), 4 + 4 * (i + xs.length) ≤ BSIZE →
    ∀ (j : Nat) (hj : j < xs.length), (putEntries b i xs).getLE (4 + 4 * (i + j)) 4 = xs[j] % 4294967296 := by
  induction xs generalizing b with
  | nil => intro i _ j hj; cases hj
  | cons x xs ih =>
    intro i hb j hj
    simp only [putEntries, List.length_cons] at hb ⊢
    cases j with
    | zero =>
      rw [getLE_putEntries_lt _ _ _ (by omega), Nat.add_zero, Bytes.getLE_putLE _ (by omega)]
      rfl
    | succ j =>
      have := ih (b.putLE (4 + 4 * i) 4 x) (i + 1) (by omega) j (by simpa using hj)
      rw [show i + (j + 1) = i + 1 + j by omega]
      simpa using this

theorem getLE_putHead_n (b : Block) (lh : List Nat) : (putHead b lh).getLE 0 4 = lh.length % 4294967296 := by
  rw [putHead, getLE_putEntries_lt _ _ _ (by omega), Bytes.getLE_putLE _ (by simp only [BSIZE]; omega)]
  rfl

theorem toInt32_small {v : Nat} (h : v < 2147483648) : toInt32 v = v := by
  apply Int.bmod_eq_of_le <;> omega

/-- What `write_head` wrote is what `read_head` reads. -/
theorem readHead_putHead (b : Block) {lh : List Nat} (hf : lh.length ≤ LOGBLOCKS) (hw : ∀ x ∈ lh, x < 4294967296) :
    readHead (putHead b lh) = lh := by
  have hl : lh.length ≤ 30 := hf
  have hn : (toInt32 ((putHead b lh).getLE 0 4)).toNat = lh.length := by
    rw [getLE_putHead_n, Nat.mod_eq_of_lt (by omega), toInt32_small (by omega)]; rfl
  apply List.ext_getElem
  · simp [readHead, hn]
  · intro j h1 h2
    have hj := getLE_putEntries (b.putLE 0 4 lh.length) lh 0 (by simp only [BSIZE]; omega) j h2
    simp only [Nat.zero_add] at hj
    simp only [readHead, List.getElem_map, List.getElem_range]
    rw [show putHead b lh = putEntries (b.putLE 0 4 lh.length) 0 lh from rfl, hj,
      Nat.mod_eq_of_lt (hw _ (List.getElem_mem h2))]

variable {start : Nat}

variable {b : Nat}

theorem not_home (h1 : start ≤ b) (h2 : b ≤ start + LOGBLOCKS) : ¬ Home start b := by
  simp only [Home]; omega

theorem home_ne_start (h : Home start b) : b ≠ start := by
  rintro rfl; exact not_home (Nat.le_refl _) (by omega) h

theorem home_ne_log {j : Nat} (h : Home start b) (hj : j < LOGBLOCKS) : b ≠ start + j + 1 := by
  rintro rfl; exact not_home (by omega) (by omega) h

/-! ## What each stage writes -/

theorem writeLog_mem {c : Nat → Block} {lh : List Nat} : ∀ {tail : Nat} {w : Nat × Block},
    w ∈ writeLog start c tail lh → start + tail < w.1 ∧ w.1 ≤ start + tail + lh.length := by
  induction lh with
  | nil => intro tail w h; cases h
  | cons b bs ih =>
    intro tail w h
    rcases List.mem_cons.mp h with rfl | h
    · simp only [List.length_cons]; omega
    · have := ih h
      simp only [List.length_cons]; omega

theorem writeLog_length (start : Nat) (c : Nat → Block) (lh : List Nat) :
    ∀ tail, (writeLog start c tail lh).length = lh.length := by
  induction lh with
  | nil => intro _; rfl
  | cons b bs ih => intro tail; simp [writeLog, ih]

/-- After `write_log` the log blocks hold the cached contents. -/
theorem putAll_writeLog (start : Nat) (c : Nat → Block) (lh : List Nat) :
    ∀ (tail : Nat) (d : Disk) (j : Nat) (hj : j < lh.length),
    putAll (writeLog start c tail lh) d (start + tail + j + 1) = c lh[j] := by
  induction lh with
  | nil => intro _ _ _ hj; cases hj
  | cons b bs ih =>
    intro tail d j hj
    simp only [writeLog, putAll_cons]
    cases j with
    | zero =>
      rw [putAll_frame _ (fun w hw => by have := (writeLog_mem hw).1; omega)]
      simp
    | succ j =>
      have := ih (tail + 1) (upd d (start + tail + 1) (c b)) j (by simpa using hj)
      rw [show start + tail + (j + 1) + 1 = start + (tail + 1) + j + 1 by omega]
      simpa using this

/-- The log holds the transaction: its header names the blocks, and its blocks hold
    their contents. -/
structure Committed (start : Nat) (lh : List Nat) (c : Nat → Block) (d : Disk) : Prop where
  head : readHead (d start) = lh
  body : ∀ (j : Nat) (hj : j < lh.length), d (start + j + 1) = c lh[j]

/-- Installing from a log that holds the transaction writes each block's contents home;
    the home writes themselves do not touch the log. -/
theorem installTrans_eq (c : Nat → Block) (bs : List Nat) : ∀ (tail : Nat) (d : Disk), tail + bs.length ≤ LOGBLOCKS →
    (∀ b ∈ bs, Home start b) → (∀ (j : Nat) (hj : j < bs.length), d (start + (tail + j) + 1) = c bs[j]) →
    installTrans start tail bs d = bs.map fun b => (b, c b) := by
  induction bs with
  | nil => intro _ _ _ _ _; rfl
  | cons b bs ih =>
    intro tail d hl hh hb
    have h0 : d (start + tail + 1) = c b := hb 0 (by simp)
    simp only [List.length_cons] at hl
    simp only [installTrans, List.map_cons, h0]
    rw [ih (tail + 1) _ (by omega) (fun x hx => hh x (by simp [hx]))]
    intro j hj
    have hne := home_ne_log (hh b (by simp)) (j := tail + 1 + j) (by omega)
    rw [upd_ne _ _ (Ne.symm hne)]
    have := hb (j + 1) (by simpa using hj)
    rw [show tail + 1 + j = tail + (j + 1) by omega]
    simpa using this

section

variable {t : Txn start} {c : Nat → Block} {d : Disk}

theorem committed_install (h : Committed start t.block c d) :
    installTrans start 0 t.block d = t.block.map fun b => (b, c b) :=
  installTrans_eq c t.block 0 d (by have := t.fits; omega) t.home fun j hj => by rw [Nat.zero_add]; exact h.body j hj

/-- Installing any of the blocks leaves the log as it was. -/
theorem committed_putAll (h : Committed start t.block c d) (k : Nat) :
    Committed start t.block c (putAll ((t.block.map fun b => (b, c b)).take k) d) := by
  have hhome : ∀ w ∈ (t.block.map fun b => (b, c b)).take k, Home start w.1 := by
    intro w hw
    obtain ⟨b, hb, rfl⟩ := List.mem_map.mp (List.mem_of_mem_take hw)
    exact t.home b hb
  constructor
  · rw [putAll_frame _ fun w hw => home_ne_start (hhome w hw)]; exact h.head
  · intro j hj
    have hj' : j < LOGBLOCKS := by have := t.fits; omega
    rw [putAll_frame _ fun w hw => home_ne_log (hhome w hw) hj']
    exact h.body j hj

theorem putAll_block (e : Disk) {b : Nat} (hb : b ∈ t.block) :
    putAll (t.block.map fun b => (b, c b)) e b = c b := by
  apply putAll_val (f := c)
  · intro w hw
    obtain ⟨x, -, rfl⟩ := List.mem_map.mp hw
    rfl
  · exact ⟨(b, c b), List.mem_map.mpr ⟨b, hb, rfl⟩, rfl⟩

theorem putAll_other (e : Disk) {b : Nat} (hb : b ∉ t.block) (k : Nat) :
    putAll ((t.block.map fun b => (b, c b)).take k) e b = e b := by
  apply putAll_frame
  rintro w hw rfl
  obtain ⟨x, hx, rfl⟩ := List.mem_map.mp (List.mem_of_mem_take hw)
  exact hb hx

/-! ## The two conditions of a crashed disk -/

def Old (start : Nat) (d0 d : Disk) : Prop := Clean start d ∧ HomeEq start d d0

/-- The transaction is in the log, or installed and the log empty. -/
def New (t : Txn start) (c : Nat → Block) (d0 d : Disk) : Prop :=
  (Committed start t.block c d ∧ ∀ b, Home start b → b ∉ t.block → d b = d0 b) ∨
    (Clean start d ∧ HomeEq start d (applied t.block c d0))

theorem clean_putHead (b : Block) : readHead (putHead b []) = [] :=
  readHead_putHead b (by decide) (by simp)

/-- Erasing the header leaves an empty log and the same home blocks. -/
theorem clean_writeHead (e : Disk) : Clean start (putAll (writeHead start [] e) e) := by
  simp only [Clean, writeHead, putAll_cons, putAll_nil, upd_same, clean_putHead]

theorem homeEq_writeHead (lh : List Nat) (e : Disk) : HomeEq start (putAll (writeHead start lh e) e) e := by
  intro b hb
  simp only [writeHead, putAll_cons, putAll_nil, upd_ne _ _ (home_ne_start hb)]

theorem recoverFromLog_clean {e : Disk} (h : Clean start e) : recoverFromLog start e = writeHead start [] e := by
  rw [Clean] at h
  simp [recoverFromLog, andThen, h, installTrans]

theorem recoverFromLog_committed (h : Committed start t.block c d) :
    recoverFromLog start d = andThen (fun _ => t.block.map fun b => (b, c b)) (writeHead start []) d := by
  simp only [recoverFromLog, andThen, h.head, committed_install h]

/-- With the log empty, recovery rewrites the empty header, if that: nothing changes. -/
theorem clean_crash {e : Disk} (h : Clean start e) (k : Nat) :
    Clean start (recoverCrash start e k) ∧ HomeEq start (recoverCrash start e k) e := by
  rw [recoverCrash, recoverFromLog_clean h]
  cases k with
  | zero => exact ⟨h, fun _ _ => rfl⟩
  | succ k =>
    rw [List.take_of_length_le (by simp [writeHead])]
    exact ⟨clean_writeHead e, homeEq_writeHead [] e⟩

variable {d0 : Disk}

theorem old_crash (h : Old start d0 d) (k : Nat) : Old start d0 (recoverCrash start d k) := by
  obtain ⟨hc, he⟩ := clean_crash h.1 k
  exact ⟨hc, fun b hb => (he b hb).trans (h.2 b hb)⟩

/-- All of the transaction installed: the home blocks are those after it. -/
theorem installed_home (hr : ∀ b, Home start b → b ∉ t.block → d b = d0 b) :
    HomeEq start (putAll (t.block.map fun b => (b, c b)) d) (applied t.block c d0) := by
  intro b hb
  simp only [applied]
  split
  · rename_i hm; exact putAll_block d hm
  · rename_i hm
    have := putAll_other (c := c) d hm t.block.length
    rw [List.take_of_length_le (by simp)] at this
    rw [this]; exact hr b hb hm

theorem new_crash (h : New t c d0 d) (k : Nat) : New t c d0 (recoverCrash start d k) := by
  rcases h with ⟨hc, hr⟩ | ⟨hc, he⟩
  · rw [recoverCrash, recoverFromLog_committed hc]
    by_cases hk : k ≤ t.block.length
    · -- the crash came among the home writes: the log still holds the transaction
      left
      rw [andThen, List.take_append_of_le_length (by simpa using hk)]
      refine ⟨committed_putAll hc k, fun b hb hm => ?_⟩
      rw [putAll_other d hm]; exact hr b hb hm
    · right
      have hall : (andThen (fun _ => t.block.map fun b => (b, c b)) (writeHead start []) d).length ≤ k := by
        simp [andThen, writeHead]; omega
      rw [List.take_of_length_le hall, andThen, putAll_append]
      refine ⟨clean_writeHead _, fun b hb => ?_⟩
      rw [homeEq_writeHead [] _ b hb]
      exact installed_home hr b hb
  · obtain ⟨hc', he'⟩ := clean_crash hc k
    exact .inr ⟨hc', fun b hb => (he' b hb).trans (he b hb)⟩

theorem recoverCrash_all (e : Disk) : recoverCrash start e (recoverFromLog start e).length = recovered start e := by
  rw [recoverCrash, List.take_length]; rfl

theorem recovered_old (h : Old start d0 d) : Old start d0 (recovered start d) := by
  rw [← recoverCrash_all]; exact old_crash h _

/-- A recovery that completes has installed the transaction. -/
theorem recovered_new (h : New t c d0 d) :
    Clean start (recovered start d) ∧ HomeEq start (recovered start d) (applied t.block c d0) := by
  rcases h with ⟨hc, hr⟩ | ⟨hc, he⟩
  · rw [recovered, recoverFromLog_committed hc, andThen, putAll_append]
    refine ⟨clean_writeHead _, fun b hb => ?_⟩
    rw [homeEq_writeHead [] _ b hb]
    exact installed_home hr b hb
  · obtain ⟨hc', he'⟩ := clean_crash hc (recoverFromLog start d).length
    rw [recoverCrash_all] at hc' he'
    exact ⟨hc', fun b hb => (he' b hb).trans (he b hb)⟩

/-! ## A crash in `commit` -/

/-- The disk with the cached blocks in the log, its header not yet written. -/
theorem writeLog_home (k : Nat) : HomeEq start (putAll ((writeLog start c 0 t.block).take k) d) d ∧
    putAll ((writeLog start c 0 t.block).take k) d start = d start := by
  have hin : ∀ w ∈ (writeLog start c 0 t.block).take k, start < w.1 ∧ w.1 ≤ start + LOGBLOCKS := by
    intro w hw
    have := writeLog_mem (List.mem_of_mem_take hw)
    have := t.fits
    omega
  constructor
  · intro b hb
    exact putAll_frame _ fun w hw => by rintro rfl; exact not_home (by have := hin w hw; omega) (hin w hw).2 hb
  · exact putAll_frame _ fun w hw => by have := hin w hw; omega

/-- The write of the header commits: from then on the log holds the transaction. -/
theorem committed_head : Committed start t.block c
    (putAll (writeHead start t.block (putAll (writeLog start c 0 t.block) d))
      (putAll (writeLog start c 0 t.block) d)) := by
  constructor
  · simp only [writeHead, putAll_cons, putAll_nil, upd_same]
    exact readHead_putHead _ t.fits t.wide
  · intro j hj
    simp only [writeHead, putAll_cons, putAll_nil]
    rw [upd_ne _ _ (by omega)]
    have := putAll_writeLog start c t.block 0 d j hj
    simpa using this

/-- The writes of `commit`, stage by stage. -/
theorem commit_eq (hn : t.block ≠ []) : ∃ h e : Block, commit start t.block c d =
    writeLog start c 0 t.block ++ (start, h) :: ((t.block.map fun b => (b, c b)) ++ [(start, e)]) ∧
      upd (putAll (writeLog start c 0 t.block) d) start h =
        putAll (writeHead start t.block (putAll (writeLog start c 0 t.block) d))
          (putAll (writeLog start c 0 t.block) d) ∧
      readHead e = [] := by
  have hpos : t.block.length > 0 := List.length_pos_iff.mpr hn
  let d1 := putAll (writeLog start c 0 t.block) d
  let d2 := upd d1 start (putHead (d1 start) t.block)
  refine ⟨putHead (d1 start) t.block, putHead (putAll (t.block.map fun b => (b, c b)) d2 start) [], ?_, rfl,
    clean_putHead _⟩
  simp only [commit, if_pos hpos, andThen]
  rw [committed_install committed_head]
  rfl

/-- The disk a crash in `commit` leaves: `New` once the header was written, `Old` before. -/
theorem commit_crash (hd : Clean start d) (k : Nat) :
    (HeadReached start t.block c d k → New t c d (putAll ((commit start t.block c d).take k) d)) ∧
    (¬ HeadReached start t.block c d k → Old start d (putAll ((commit start t.block c d).take k) d)) := by
  unfold HeadReached
  by_cases hn : t.block = []
  · have hz : commit start t.block c d = [] := by simp [commit, hn]
    rw [hz]
    exact ⟨by simp, fun _ => ⟨by simpa using hd, fun _ _ => by simp⟩⟩
  obtain ⟨h, e, hw, hh, he⟩ := commit_eq (c := c) (d := d) hn
  have hlen := writeLog_length start c t.block 0
  have hcom := committed_head (t := t) (c := c) (d := d)
  have hrest : ∀ b, Home start b → upd (putAll (writeLog start c 0 t.block) d) start h b = d b := by
    intro b hb
    have := (writeLog_home (t := t) (c := c) (d := d) t.block.length).1 b hb
    rw [List.take_of_length_le (by omega)] at this
    rw [upd_ne _ _ (home_ne_start hb), this]
  rw [← hh] at hcom
  by_cases h1 : k ≤ t.block.length
  · -- the crash came in `write_log`: the header on disk is still the empty one
    rw [hw, List.take_append_of_le_length (by omega)]
    obtain ⟨hhome, hstart⟩ := writeLog_home (t := t) (c := c) (d := d) k
    have hno : ¬ ∃ w ∈ (writeLog start c 0 t.block).take k, w.1 = start := by
      rintro ⟨w, hwm, hws⟩
      have := writeLog_mem (List.mem_of_mem_take hwm)
      omega
    exact ⟨fun h => absurd h hno, fun _ => ⟨by rw [Clean, hstart]; exact hd, hhome⟩⟩
  · obtain ⟨m, rfl⟩ : ∃ m, k = t.block.length + (m + 1) := ⟨k - t.block.length - 1, by omega⟩
    have htake : (commit start t.block c d).take (t.block.length + (m + 1)) =
        writeLog start c 0 t.block ++ (start, h) :: ((t.block.map fun b => (b, c b)) ++ [(start, e)]).take m := by
      rw [hw, ← hlen, List.take_length_add_append, List.take_succ_cons]
    rw [htake]
    refine ⟨fun _ => ?_, fun hno => absurd ⟨(start, h), by simp, rfl⟩ hno⟩
    rw [putAll_append, putAll_cons]
    by_cases h2 : m ≤ t.block.length
    · left
      rw [List.take_append_of_le_length (by simpa using h2)]
      refine ⟨committed_putAll hcom m, fun b hb hm => ?_⟩
      rw [putAll_other _ hm]; exact hrest b hb
    · right
      rw [List.take_of_length_le (by simp; omega), putAll_append]
      refine ⟨by simpa [Clean] using he, fun b hb => ?_⟩
      simp only [putAll_cons, putAll_nil]
      rw [upd_ne _ _ (home_ne_start hb)]
      exact installed_home (fun b hb _ => hrest b hb) b hb

/-! ## Any number of recoveries -/

theorem old_crashes (ks : List Nat) :
    ∀ {d : Disk}, Old start d0 d → Old start d0 (ks.foldl (recoverCrash start) d) := by
  induction ks with
  | nil => intro d h; exact h
  | cons k ks ih => intro d h; exact ih (old_crash h k)

theorem new_crashes (ks : List Nat) : ∀ {d : Disk}, New t c d0 d → New t c d0 (ks.foldl (recoverCrash start) d) := by
  induction ks with
  | nil => intro d h; exact h
  | cons k ks ih => intro d h; exact ih (new_crash h k)

/-- Recovery at boot leaves an empty log, whatever the disk held. -/
theorem recovered_clean (d : Disk) : Clean start (recovered start d) := by
  rw [recovered, recoverFromLog, andThen, putAll_append]
  exact clean_writeHead _

/-- So does `commit`: each transaction starts from a clean log. -/
theorem commit_clean (hd : Clean start d) : Clean start (putAll (commit start t.block c d) d) := by
  by_cases hn : t.block = []
  · simpa [commit, hn] using hd
  · obtain ⟨h, e, hw, -, he⟩ := commit_eq (c := c) (d := d) hn
    rw [hw, ← List.singleton_append, ← List.append_assoc, ← List.append_assoc, putAll_append]
    simpa [Clean] using he

end

/-- A crash anywhere in `commit`, and any number of crashes in the recoveries after it,
    leave the home blocks as before the transaction or with all of it applied: the
    latter when the header reached the disk, so always once `commit` has returned. -/
theorem crash_atomic (start : Nat) (t : Txn start) (c : Nat → Block) (d : Disk) (hd : Clean start d) (k : Nat)
    (ks : List Nat) :
    (HeadReached start t.block c d k → HomeEq start (crashed start t.block c d k ks) (applied t.block c d)) ∧
    (¬ HeadReached start t.block c d k → HomeEq start (crashed start t.block c d k ks) d) ∧
    ((commit start t.block c d).length ≤ k → HomeEq start (crashed start t.block c d k ks) (applied t.block c d)) := by
  have hc := commit_crash (t := t) (c := c) hd k
  have hyes : HeadReached start t.block c d k →
      HomeEq start (crashed start t.block c d k ks) (applied t.block c d) := by
    intro h
    exact (recovered_new (new_crashes ks (hc.1 h))).2
  have hno : ¬ HeadReached start t.block c d k → HomeEq start (crashed start t.block c d k ks) d := by
    intro h
    exact (recovered_old (old_crashes ks (hc.2 h))).2
  refine ⟨hyes, hno, fun hk => ?_⟩
  by_cases hn : t.block = []
  · intro b hb
    rw [hno (by simp [HeadReached, commit, hn]) b hb]
    simp [applied, hn]
  · apply hyes
    obtain ⟨h, e, hw, -⟩ := commit_eq (c := c) (d := d) hn
    refine ⟨(start, h), ?_, rfl⟩
    rw [List.take_of_length_le hk, hw]
    simp

/-- One block, the crash right after the header, and two recoveries cut short: block 40
    ends with its new contents. -/
theorem crash_atomic_one :
    let t : Txn 2 := ⟨[40], by decide, by decide, by decide⟩
    let c : Nat → Block := fun _ => Bytes.ofFn fun _ => 7
    HomeEq 2 (crashed 2 t.block c (fun _ => Bytes.zero) 2 [1, 0]) (applied t.block c fun _ => Bytes.zero) := by
  intro t c
  refine (crash_atomic 2 t c (fun _ => Bytes.zero) rfl 2 [1, 0]).1 ?_
  simp [HeadReached, commit, andThen, writeLog, writeHead, t]

/-! ## Histories -/

/-- A commit that returns, or crashes past `k` of its writes and is recovered as in `crashed`;
    without a block, a crash between two commits. -/
structure Round (start : Nat) where
  txn : Txn start
  cache : Nat → Block
  crash : Option (Nat × List Nat)

def Round.run (d : Disk) (r : Round start) : Disk :=
  match r.crash with
  | none => putAll (commit start r.txn.block r.cache d) d
  | some (k, ks) => crashed start r.txn.block r.cache d k ks

def Round.apply (d : Disk) (r : Round start) : Disk := applied r.txn.block r.cache d

/-- Some transactions were applied whole and in order, all that returned among them. -/
def Durable (rs : List (Round start)) (d d' : Disk) : Prop :=
  ∃ done, (rs.filter (·.crash.isNone)).Sublist done ∧ done.Sublist rs ∧ HomeEq start d' (done.foldl Round.apply d)

theorem round_run (r : Round start) {d : Disk} (hd : Clean start d) : Clean start (r.run d) ∧
    (HomeEq start (r.run d) (r.apply d) ∨ r.crash.isNone = false ∧ HomeEq start (r.run d) d) := by
  obtain ⟨t, c, _ | ⟨k, ks⟩⟩ := r
  · have hc : Clean start (putAll (commit start t.block c d) d) := commit_clean hd
    refine ⟨hc, .inl ?_⟩
    by_cases hn : t.block = []
    · intro b _
      simp [Round.run, Round.apply, commit, applied, hn]
    · obtain ⟨h, e, hw, -⟩ := commit_eq (c := c) (d := d) hn
      have hnew := (commit_crash (t := t) (c := c) hd (commit start t.block c d).length).1
      rw [HeadReached, List.take_length] at hnew
      rcases hnew ⟨(start, h), by rw [hw]; simp, rfl⟩ with ⟨hcom, -⟩ | hnew
      · exact absurd (hcom.head.symm.trans hc) hn
      · exact hnew.2
  · refine ⟨show Clean start (crashed start t.block c d k ks) from recovered_clean _, ?_⟩
    obtain ⟨hyes, hno⟩ := commit_crash (t := t) (c := c) hd k
    by_cases h : HeadReached start t.block c d k
    · exact .inl (recovered_new (new_crashes ks (hyes h))).2
    · exact .inr ⟨rfl, (recovered_old (old_crashes ks (hno h))).2⟩

theorem rounds_run (rs : List (Round start)) : ∀ {d e : Disk}, Clean start d → HomeEq start d e →
    Durable rs e (rs.foldl Round.run d) := by
  induction rs with
  | nil => exact fun _ he => ⟨[], .slnil, .slnil, he⟩
  | cons r rs ih =>
    intro d e hd he
    obtain ⟨hc, hr | ⟨hcr, hr⟩⟩ := round_run r hd
    · obtain ⟨done, h1, h2, h3⟩ := ih hc (e := r.apply e) fun b hb => by
        simp only [hr b hb, Round.apply, applied, he b hb]
      refine ⟨r :: done, ?_, h2.cons_cons r, h3⟩
      rw [List.filter_cons]
      split
      · exact h1.cons_cons r
      · exact h1.cons r
    · obtain ⟨done, h1, h2, h3⟩ := ih hc fun b hb => (hr b hb).trans (he b hb)
      exact ⟨done, by rwa [List.filter_cons, hcr], h2.cons r, h3⟩

/-- Whatever the disk held at boot and wherever crashes come. The header found at boot has at
    most LOGBLOCKS entries and names home blocks: `read_head` does not check it, and past the
    end of `lh.block` the model is not the program. -/
theorem rounds_durable (d : Disk) (rs : List (Round start)) :
    Durable rs (recovered start d) (rs.foldl Round.run (recovered start d)) :=
  rounds_run rs (recovered_clean d) fun _ _ => rfl

end Xv6.Log
