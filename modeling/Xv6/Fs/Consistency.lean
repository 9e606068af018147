/-
  Xv6.Fs.Consistency — what a disk that is in order keeps through every run: the cached
  inodes agree with the disk, blocks are allocated exactly, and no file has a hole, so
  that reading writes nothing. On a disk that only has no holes each of them can fail.
-/

import Xv6.Fs.Quiet

namespace Xv6.Fs

open Lib Vol

/-! ## Every reachable state is quiet -/

section runs

variable {sb : Superblock} {V : Vol} {i : Nat} {scope : Scope} {s : St} {disk : Nat → Block}

def anyhow : Guard := ⟨False, False⟩

/-- A run that may go on, or was stopped by a panic that can happen. -/
def Kept (sb : Superblock) (scope : Scope) : Except Panic St → Prop
  | .ok s => ∃ V, Quiet sb anyhow scope s V
  | .error x => Fine anyhow x

theorem kept_stands {F : Nat → Node} {r : Except Panic St} (h : Stands sb anyhow scope F r) : Kept sb scope r := by
  cases r with
  | error x => exact h
  | ok s =>
    obtain ⟨V, hV, _⟩ := h
    exact ⟨V, hV⟩

theorem kept_step (hl : sb.Layout) (hr : ROOTINO < sb.ninodes) (r : Except Panic St) (e : Ev) (h : Kept sb scope r) :
    Kept sb scope (step sb r e) := by
  cases r with
  | error x => exact h
  | ok s =>
    obtain ⟨V, hV⟩ := h
    exact kept_stands (stands_step hl id ⟨hr, False.elim, False.elim, False.elim⟩ hV e)

theorem kept_run (hd : InOrder sb disk) (hleak : scope.tight → NoLeak sb (view sb (mount disk)))
    (hlinks : ∀ j, ¬ scope.stray j → Live sb (view sb (mount disk)) j → ((view sb (mount disk)).ino j).nlink ≠ 0)
    (es : List Ev) : Kept sb scope (run (step sb) (boot sb disk) es) := by
  have h0 : Quiet sb anyhow scope (mount disk) (view sb (mount disk)) :=
    quiet_mount hd id False.elim hleak hlinks
  exact run_keeps (kept_step hd.layout hd.root) es (kept_stands (stands_boot hd.layout id h0))

/-! ## The volume on the blocks -/

section view

variable (h : Rep sb s V none)

include h

theorem view_live : Live sb (view sb s) i ↔ Live sb V i :=
  and_congr_right fun hi => by rw [show (view sb s).ino i = V.ino i from h.disk i hi fun e he => by cases he]

theorem view_slot (hs : Sound sb V) (hi : Live sb V i) (k : Nat) : (view sb s).slot i k = V.slot i k := by
  have hino : (view sb s).ino i = V.ino i := h.disk i hi.1 fun e he => by cases he
  refine slot_congr k (fun j => by rw [hino]) fun h12 => ?_
  exact h.blk _ (hs.range i NDIRECT _ (holds_ind hi h12)).1

theorem view_holds (hs : Sound sb V) (k b : Nat) : Holds sb (view sb s) i k b ↔ Holds sb V i k b := by
  constructor
  · intro hb
    have hi := (view_live h).mp hb.live
    exact ⟨hi, (view_slot h hs hi k).symm.trans hb.at_, hb.ne⟩
  · intro hb
    exact ⟨(view_live h).mpr hb.live, (view_slot h hs hb.live k).trans hb.at_, hb.ne⟩

theorem view_exact (hx : Exact sb V) : Exact sb (view sb s) := by
  have hh : ∀ {i} k b, Holds sb (view sb s) i k b ↔ Holds sb V i k b := view_holds h (exact_iff.mp hx).1
  refine ⟨fun b hb => ?_, fun i k b hb => hx.range i k b ((hh k b).mp hb), fun i k j l b hb hb' =>
    hx.once i k j l b ((hh k b).mp hb) ((hh l b).mp hb')⟩
  simp only [hh]
  rw [show (view sb s).used b = V.used b from h.used b hb]
  exact hx.used b hb

theorem view_holeFree (hs : Sound sb V) (hi : Live sb V i) (hf : HoleFree V i) : HoleFree (view sb s) i := by
  have hino : (view sb s).ino i = V.ino i := h.disk i hi.1 fun e he => by cases he
  intro bn hbn
  rw [hino] at hbn
  rw [Vol.addr, view_slot h hs hi]
  exact hf bn hbn

/-- Read off the blocks, the inodes are those the state represents. -/
theorem view_node (hs : Sound sb V) : node sb (view sb s) = node sb V := by
  funext i
  by_cases hi : Live sb V i
  · have hino : (view sb s).ino i = V.ino i := h.disk i hi.1 fun e he => by cases he
    refine node_congr hino fun _ x => ?_
    have ha : (view sb s).addr i (x / BSIZE) = V.addr i (x / BSIZE) := view_slot h hs hi _
    unfold Vol.raw
    rw [ha]
    split
    · rfl
    · next h0 => exact congrArg (fun d : Block => d.get (x % BSIZE)) (h.blk _ (hs.range i _ _ ⟨hi, rfl, h0⟩).1)
  · rw [node_free hi, node_free fun h' => hi ((view_live h).mp h')]

end view

end runs

/-! ## A disk with a root directory and a file -/

namespace Tiny

theorem layout : sb.Layout := ⟨by decide, by decide, by decide, by decide⟩

theorem fits_small {type : Int16} {size a : Nat} (hs : size < 4294967296) (ha : a < 4294967296) :
    (small type size a).Fits := by
  refine ⟨hs, fun k => ?_⟩
  simp only [Dinode.addr, small]
  split
  · split
    · exact ha
    · decide
  · decide

theorem slot_small {V : Vol} {i : Nat} {type : Int16} {size a : Nat} (h : V.ino i = small type size a) (k : Nat) :
    V.slot i k = if k = 0 then a else 0 := by
  by_cases hk : k < NDIRECT + 1
  · rw [slot_low _ _ hk, h]
    simp [Dinode.addr, small, hk]
  have h0 : k ≠ 0 := fun e => hk (by rw [e]; decide)
  have h12 : (V.ino i).addr NDIRECT = 0 := by
    rw [h]
    rfl
  rw [slot_high _ _ hk, h12, if_neg h0]
  rfl

variable {l : List (Nat × Name)} {a : Nat} {d : Block}

abbrev vol (l : List (Nat × Name)) (a : Nat) (d : Block) : Vol := view sb (mount (disk l a d))

theorem ino_file (ha : a < 4294967296) : (vol l a d).ino 2 = small T_FILE 1024 a :=
  getDinode_putDinode _ (o := 128) (by decide) (fits_small (by decide) ha)

theorem ino_root (hl : l.length < 64) : (vol l a d).ino 1 = small T_DIR (DESIZE * l.length) 5 := by
  have h1 : (vol l a d).ino 1 = getDinode (putDinode Bytes.zero 64 (small T_DIR (DESIZE * l.length) 5)) 64 :=
    getDinode_congr (b := putDinode _ 128 _) fun i _ hi => get_putDinode_out _ _ (.inl hi)
  rw [h1]
  refine getDinode_putDinode _ (by decide) (fits_small ?_ (by decide))
  simp only [DESIZE, DIRSIZ]
  omega

/-- In a block with two inodes the other ones are free. -/
theorem type_beside (x y : Dinode) {i : Nat} (hi : i < 16) (hne : ¬ (i = 1 ∨ i = 2)) :
    (getDinode (putDinode (putDinode Bytes.zero 64 x) 128 y) (ioff i)).type = 0 := by
  have ho : ioff i = 64 * i := by simp only [ioff, IPB, BSIZE]; omega
  have hz : getDinode (putDinode (putDinode Bytes.zero 64 x) 128 y) (ioff i) = getDinode Bytes.zero (64 * i) := by
    rw [ho]
    refine getDinode_congr fun x h1 h2 => ?_
    rw [get_putDinode_out _ _ (by omega), get_putDinode_out _ _ (by omega)]
  rw [hz]
  simp only [getDinode, Bytes.getLE_zero]
  rfl

theorem live_cases {i : Nat} (h : Live sb (vol l a d) i) : i = 1 ∨ i = 2 := by
  by_contra hne
  refine h.2 ?_
  have hi : i < 16 := h.1
  have hb : sb.IBLOCK i = 2 := by simp only [Superblock.IBLOCK, sb, IPB, BSIZE]; omega
  show (getDinode (disk l a d (sb.IBLOCK i)) (ioff i)).type = 0
  rw [hb]
  exact type_beside _ _ hi hne

theorem holeFree (hl : l.length < 64) (ha : a < 4294967296) (h0 : a ≠ 0) {i : Nat} (h : Live sb (vol l a d) i) :
    HoleFree (vol l a d) i := by
  have hone : ∀ {type size b}, (vol l a d).ino i = small type size b → size ≤ 1024 → b ≠ 0 →
      HoleFree (vol l a d) i := by
    intro type size b hb hsize hne bn hbn
    rw [hb] at hbn
    have h0 : bn = 0 := by
      have h1 : bn * BSIZE < size := hbn
      simp only [BSIZE] at h1
      omega
    subst h0
    exact ⟨by decide, by rw [Vol.addr, slot_small hb]; exact hne⟩
  rcases live_cases h with rfl | rfl
  · refine hone (ino_root hl) ?_ (by decide)
    simp only [DESIZE, DIRSIZ]
    omega
  · exact hone (ino_file ha) (by decide) h0

theorem holds_iff (hl : l.length < 64) (i k b : Nat) :
    Holds sb (vol l 6 d) i k b ↔ k = 0 ∧ (i = 1 ∧ b = 5 ∨ i = 2 ∧ b = 6) := by
  have h1 := slot_small (ino_root (l := l) (a := 6) (d := d) hl)
  have h2 := slot_small (ino_file (l := l) (a := 6) (d := d) (by decide))
  constructor
  · intro h
    have hb := h.at_
    have hne := h.ne
    rcases live_cases h.live with rfl | rfl
    · rw [h1] at hb
      split at hb <;> omega
    · rw [h2] at hb
      split at hb <;> omega
  · intro h
    obtain ⟨rfl, ⟨rfl, rfl⟩ | ⟨rfl, rfl⟩⟩ := h
    · exact ⟨⟨by decide, by rw [ino_root hl]; exact (by decide : T_DIR ≠ 0)⟩, h1 0, by decide⟩
    · exact ⟨⟨by decide, by rw [ino_file (by decide)]; exact (by decide : T_FILE ≠ 0)⟩, h2 0, by decide⟩

theorem used_iff : ∀ b < 40, (vol l a d).used b = true ↔ b < 7 := by
  have h : ∀ b < 40, bitmap.bit (b % BPB) = decide (b < 7) := by decide
  intro b hb
  have hblk : sb.BBLOCK b = 4 := by simp only [Superblock.BBLOCK, sb, BPB, BSIZE]; omega
  show (disk l a d (sb.BBLOCK b)).bit (b % BPB) = true ↔ _
  rw [hblk]
  show bitmap.bit (b % BPB) = true ↔ _
  rw [h b hb, decide_eq_true_iff]

theorem exact (hl : l.length < 64) : Exact sb (vol l 6 d) := by
  refine ⟨fun b hb => ?_, fun i k b h => ?_, fun i k j l' b h h' => ?_⟩
  · rw [used_iff b hb]
    simp only [holds_iff hl]
    have hm : sb.nmeta = 5 := rfl
    constructor
    · intro h7
      by_cases h5 : b < 5
      · exact .inl h5
      · refine .inr ⟨b - 4, 0, rfl, ?_⟩
        omega
    · intro h
      rcases h with h | ⟨i, k, h⟩ <;> omega
  · have hm : sb.nmeta = 5 := rfl
    have hsz : sb.size = 40 := rfl
    have := (holds_iff hl i k b).mp h
    omega
  · have h1 := (holds_iff hl i k b).mp h
    have h2 := (holds_iff hl j l' b).mp h'
    omega

theorem raw_root (hl : l.length < 64) {x : Nat} (hx : x < BSIZE) :
    (vol l a d).raw 1 x = (l.flatMap fun e => mkDirent e.1 e.2).getD x 0 := by
  have ha : (vol l a d).addr 1 (x / BSIZE) = 5 := by
    rw [Nat.div_eq_of_lt hx]
    exact slot_small (ino_root hl) 0
  rw [raw, ha, Nat.mod_eq_of_lt hx]
  exact Bytes.get_ofFn (fun x => (l.flatMap fun e => mkDirent e.1 e.2).getD x 0) hx

/-- With a block of its own for the file and no more entries than `mkfs` makes, it is in order. -/
theorem inOrder : InOrder sb (disk entries 6 d) := by
  refine ⟨layout, by decide, (exact_iff.mp (exact (by decide))).1,
    fun i => holeFree (by decide) (by decide) (by decide), ?_⟩
  intro i k hty
  have hlive : Live sb (vol entries 6 d) i := node_type_ne.mp (by rw [hty]; decide)
  have hroot : i = 1 := by
    rcases live_cases hlive with rfl | rfl
    · rfl
    · cases hty
  subst hroot
  rw [node_live hlive, ino_root (by decide)]
  unfold Node.ent
  split
  · next hk =>
    have h3 : k < 3 := by
      simp only [small, entries, List.length, DESIZE, DIRSIZ] at hk
      omega
    have hb : ∀ k < 3, (entries.flatMap fun e => mkDirent e.1 e.2).getD (DESIZE * k) 0 ≤ 2 ∧
        (entries.flatMap fun e => mkDirent e.1 e.2).getD (DESIZE * k + 1) 0 = 0 := by decide
    obtain ⟨h1, h2⟩ := hb k h3
    have hx : DESIZE * k + 1 < BSIZE := by
      simp only [DESIZE, DIRSIZ, BSIZE]
      omega
    dsimp only
    rw [raw_root (by decide) (Nat.lt_of_succ_lt hx), raw_root (by decide) hx, h2]
    have : ((entries.flatMap fun e => mkDirent e.1 e.2).getD (DESIZE * k) 0).toNat ≤ 2 := h1
    show _ + 256 * 0 < 16
    omega
  · decide

end Tiny

section results

variable {sb : Superblock} {V : Vol} {safe : Guard} {c : Ctx} {s t : St} {disk : Nat → Block} {ip : Idx}

/-! ## Cached inodes -/

/-- `iupdate` writes into the slot of its own inode. -/
theorem iupdate_others (h : iupdate sb ip s = .ok ((), t)) {j : Nat} (hj : j ≠ (s.inode ip).inum) :
    getDinode (t.data (sb.IBLOCK j)) (ioff j) = getDinode (s.data (sb.IBLOCK j)) (ioff j) := by
  have hw : wp (iupdate sb ip) (fun _ t => getDinode (t.data (sb.IBLOCK j)) (ioff j) =
    getDinode (s.data (sb.IBLOCK j)) (ioff j))
      (fun _ => True) s := by
    unfold iupdate
    refine wp_write (f := pure) (logs_any _ fun _ => trivial) trivial fun t ht _ => ?_
    rw [wp_pure, ht.data]
    by_cases hb : sb.IBLOCK j = sb.IBLOCK (s.inode ip).inum
    · rw [hb, upd_same]
      refine getDinode_congr fun x h1 h2 => get_putDinode_out _ _ ?_
      simp only [Superblock.IBLOCK, ioff, IPB, BSIZE] at hb h1 h2 ⊢
      omega
    · rw [upd_ne _ _ hb]
  have := wp_ok hw h
  exact this

/-- `ilock` reads an entry in from the disk. -/
theorem ilock_reads (hr : 0 < (s.inode ip).ref) (hv : (s.inode ip).valid = false) (hl : (s.inode ip).lock = false)
    (ht : (getDinode (s.data (sb.IBLOCK (s.inode ip).inum)) (ioff (s.inode ip).inum)).type ≠ 0) :
    ∃ t, ilock sb ip s = .ok ((), t) ∧
      (t.inode ip).toDinode = getDinode (s.data (sb.IBLOCK (s.inode ip).inum)) (ioff (s.inode ip).inum) := by
  have hw : wp (ilock sb ip)
    (fun _ t => (t.inode ip).toDinode = getDinode (s.data (sb.IBLOCK (s.inode ip).inum)) (ioff (s.inode ip).inum))
      (fun _ => False) s := by
    unfold ilock acquiresleep
    rw [wp_bind, wp_getInode, wp_ite, if_neg (by omega), wp_bind, wp_bind, wp_getInode, wp_ite,
      if_neg (by rw [hl]; decide), wp_setInode,
      wp_ite, if_neg (by rw [hv]; decide), wp_bind, wp_bread, wp_bind, wp_brelse, St.withBufs_bufs, relse_cons]
    simp only [wp_bind, wp_setInode, upd_same, upd_upd, wp_ite, wp_throw, wp_pure]
    rw [if_neg ht]
    trivial
  obtain ⟨_, t, h1, h2⟩ := wp_total hw
  exact ⟨t, h1, h2⟩

/-- On a disk in order, after every run, what the inode table has of an inode is what the
    disk has of it; so an entry that is given to another inode and read in again later
    comes back as it was. And `iupdate` touches no other inode. -/
theorem cached_agrees (hd : InOrder sb disk) :
    (∀ es s e, run (step sb) (boot sb disk) es = .ok s → 0 < (s.inode e).ref → (s.inode e).valid = true →
      (s.inode e).lock = false →
      (s.inode e).toDinode = getDinode (s.data (sb.IBLOCK (s.inode e).inum)) (ioff (s.inode e).inum) ∧
      ∀ (u : St) (e' : Idx), u.data = s.data → 0 < (u.inode e').ref → (u.inode e').valid = false →
      (u.inode e').lock = false →
        (u.inode e').inum = (s.inode e).inum → ∃ t, ilock sb e' u = .ok ((), t) ∧
        (t.inode e').toDinode = (s.inode e).toDinode) ∧
    ∀ s t ip j, iupdate sb ip s = .ok ((), t) → j ≠ (s.inode ip).inum →
      getDinode (t.data (sb.IBLOCK j)) (ioff j) = getDinode (s.data (sb.IBLOCK j)) (ioff j) := by
  refine ⟨fun es s e hs hr hv _ => ?_, fun s t ip j h hj => iupdate_others h hj⟩
  have hk : Kept sb ⟨fun _ => True, False⟩ (run (step sb) (boot sb disk) es) :=
    kept_run hd False.elim (fun _ hj => absurd trivial hj) es
  rw [hs] at hk
  obtain ⟨V, c, hm, _⟩ := hk
  have hdisk := hm.rep.disk _ (hm.rep.range e hr).1 fun e he => by cases he
  have hsame := (hm.rep.mem e hr hv).trans hdisk.symm
  refine ⟨hsame, fun u e' hdata hr' hv' hl' hn => ?_⟩
  have ht := hm.rep.live e (by intro h; cases h) hr hv
  rw [hsame, ← hdata, ← hn]
  refine ilock_reads hr' hv' hl' ?_
  rw [hn, hdata, hdisk]
  exact ht

/-- The root is in the table, and ten bytes are written to the file. -/
theorem cached_agrees_tiny :
    ∃ s, Tiny.runs 6 [.open initproc Tiny.file O_RDWR, .write initproc 0 (fun _ => some 7) 10 0] = .ok s ∧
      (s.inode .zero).toDinode = getDinode (s.data (Tiny.sb.IBLOCK (s.inode .zero).inum))
      (ioff (s.inode .zero).inum) := by
  obtain ⟨s, hs, hr, hv, hl⟩ : ∃ s,
    Tiny.runs 6 [.open initproc Tiny.file O_RDWR, .write initproc 0 (fun _ => some 7) 10 0] = .ok s ∧
      0 < (s.inode .zero).ref ∧ (s.inode .zero).valid = true ∧ (s.inode .zero).lock = false :=
        Tiny.ends_ok (by decide +kernel)
  exact ⟨s, hs, ((cached_agrees Tiny.inOrder).1 _ s .zero hs hr hv hl).1⟩

/-- The file's one block is the inodes' own: no file has a hole, but a write to it changes
    the root on the disk and not in the table. -/
theorem cached_differs :
    Tiny.sb.Layout ∧ (∀ i, Live Tiny.sb (view Tiny.sb (mount (Tiny.disk Tiny.entries 2 Bytes.zero))) i →
      HoleFree (view Tiny.sb (mount (Tiny.disk Tiny.entries 2 Bytes.zero))) i) ∧
    ∃ s, Tiny.runs 2 [.open initproc Tiny.file O_RDWR, .write initproc 0 (fun _ => some 0) 128 0] = .ok s ∧
      0 < (s.inode .zero).ref ∧ (s.inode .zero).valid = true ∧ (s.inode .zero).lock = false ∧
      (s.inode .zero).toDinode ≠ getDinode (s.data (Tiny.sb.IBLOCK (s.inode .zero).inum))
      (ioff (s.inode .zero).inum) := by
  refine ⟨Tiny.layout, fun i => Tiny.holeFree (by decide) (by decide) (by decide), ?_⟩
  obtain ⟨s, hs, hr, hv, hl, hne⟩ : ∃ s,
    Tiny.runs 2 [.open initproc Tiny.file O_RDWR, .write initproc 0 (fun _ => some 0) 128 0] = .ok s ∧
      0 < (s.inode .zero).ref ∧ (s.inode .zero).valid = true ∧ (s.inode .zero).lock = false ∧
      (s.inode .zero).type ≠ (getDinode (s.data (Tiny.sb.IBLOCK (s.inode .zero).inum))
        (ioff (s.inode .zero).inum)).type :=
    Tiny.ends_ok (by decide +kernel)
  exact ⟨s, hs, hr, hv, hl, fun e => hne (congrArg Dinode.type e)⟩

/-! ## Blocks -/

/-- On a disk in order whose bitmap is exact it stays so, and no block is freed twice. -/
theorem exact_allocation (hd : InOrder sb disk) (hx : Exact sb (view sb (mount disk))) (es : List Ev) :
    (∀ s, run (step sb) (boot sb disk) es = .ok s → Exact sb (view sb s)) ∧
      run (step sb) (boot sb disk) es ≠ .error .freeingFreeBlock := by
  have hk : Kept sb ⟨fun _ => True, True⟩ (run (step sb) (boot sb disk) es) :=
    kept_run hd (fun _ => (exact_iff.mp hx).2) (fun _ hj => absurd trivial hj) es
  constructor
  · intro s hs
    rw [hs] at hk
    obtain ⟨V, c, hm, _, hscope⟩ := hk
    exact view_exact hm.rep (exact_iff.mpr ⟨hm.sound, hm.noLeak (by rw [hscope]; trivial)⟩)
  · intro h
    rw [h] at hk
    exact hk

theorem exact_allocation_tiny :
    ∃ s, Tiny.runs 6 [.open initproc Tiny.file (O_RDWR ||| O_TRUNC), .unlink initproc Tiny.file] = .ok s ∧
      (view Tiny.sb s).used 6 = false ∧ Exact Tiny.sb (view Tiny.sb s) := by
  obtain ⟨s, hs, h6⟩ : ∃ s,
    Tiny.runs 6 [.open initproc Tiny.file (O_RDWR ||| O_TRUNC), .unlink initproc Tiny.file] = .ok s ∧
      (view Tiny.sb s).used 6 = false := Tiny.ends_ok (by decide +kernel)
  exact ⟨s, hs, h6, (exact_allocation Tiny.inOrder (Tiny.exact (by decide)) _).1 s hs⟩

/-- The root with an entry `"x"` for inode 64, of the 16 there are: it is looked for in
    block 6, where the file's data look like an inode that has the root's block. -/
def Tiny.beyond :
    Nat → Block := Tiny.disk (Tiny.entries ++ [(64, [120])]) 6 (putDinode Bytes.zero 0 (Tiny.small T_FILE 1024 5))

/-- No hole and an exact bitmap are not enough: truncating that file frees a block that is
    in use. -/
theorem exact_allocation_fails :
    Tiny.sb.Layout ∧ (∀ i, Live Tiny.sb (view Tiny.sb (mount Tiny.beyond)) i →
      HoleFree (view Tiny.sb (mount Tiny.beyond)) i) ∧
    Exact Tiny.sb (view Tiny.sb (mount Tiny.beyond)) ∧
    ∃ s, run (step Tiny.sb) (boot Tiny.sb Tiny.beyond)
      [.open initproc (Tiny.str [47, 120]) (O_RDWR ||| O_TRUNC)] = .ok s ∧
      ¬ Exact Tiny.sb (view Tiny.sb s) := by
  refine ⟨Tiny.layout, fun i => Tiny.holeFree (by decide) (by decide) (by decide), Tiny.exact (by decide), ?_⟩
  obtain ⟨s, hs, h5, hty, ha⟩ : ∃ s, run (step Tiny.sb) (boot Tiny.sb Tiny.beyond)
      [.open initproc (Tiny.str [47, 120]) (O_RDWR ||| O_TRUNC)] = .ok s ∧
      (view Tiny.sb s).used 5 = false ∧ ((view Tiny.sb s).ino 1).type ≠ 0 ∧ (view Tiny.sb s).slot 1 0 = 5 :=
    Tiny.ends_ok (by decide +kernel)
  refine ⟨s, hs, fun hx => ?_⟩
  have hholds : Holds Tiny.sb (view Tiny.sb s) 1 0 5 := ⟨⟨by decide, hty⟩, ha, by decide⟩
  have := (hx.used 5 (by decide)).mpr (.inr ⟨1, 0, hholds⟩)
  rw [h5] at this
  cases this

/-! ## Holes -/

/-- Reading an open file leaves the disk, the log and the inodes alone. -/
theorem fileread_frame (h : Mid sb safe c s V [] []) (f : Fin NFILE) (dst : Nat → Bool) (n ext : Int) :
    wp (fileread sb f dst n ext) (fun _ t => t.data = s.data ∧ t.home = s.home ∧ t.log = s.log ∧ t.inode = s.inode)
      (· = .fileread) s := by
  unfold fileread getFile
  rw [wp_bind, wp_bind, wp_get, h.file]
  refine wp_if (fun _ => ⟨rfl, rfl, rfl, rfl⟩) fun _ => ?_
  split
  · exact ⟨rfl, rfl, rfl, rfl⟩
  · exact ⟨rfl, rfl, rfl, rfl⟩
  · next hty =>
    have hi : (c.file f).Inoded := .inl hty
    generalize hip : (c.file f).ip = ip
    have hr := inoded_ref h hi
    obtain ⟨_, hv, _⟩ := h.files f hi
    rw [hip] at hr hv
    have hn : ip ∉ ([] : List Idx) := List.not_mem_nil
    have hlock : (s.inode ip).lock = false := Bool.eq_false_iff.mpr fun hl => hn ((h.locks ip).mp hl)
    obtain ⟨h1, h2⟩ := mid_ref h hr
    have hm := mid_lock h hr hv hn
    have hp : Loaded { s with inode := upd s.inode ip { s.inode ip with lock := true } } ip (c.num ip) :=
      mid_loaded hm hr (.head _)
    have hlive := loaded_live hm.rep hp
    unfold ilock acquiresleep
    rw [wp_bind, wp_bind, wp_getInode, wp_ite, if_neg (by omega), wp_bind, wp_bind, wp_getInode,
      wp_ite, if_neg (by rw [hlock]; decide),
      wp_setInode, wp_ite, if_pos hv, wp_pure, wp_bind]
    refine wp_of_run (readi_eq hm.rep hp hlive hm.sound (hm.holes _ hlive) dst _ _) ?_
    have hunlock : ∀ (u : St) (r : Int × List UInt8), u.data = s.data → u.home = s.home → u.log = s.log →
        u.inode = upd s.inode ip { s.inode ip with lock := true } → wp (iunlock ip >>= fun _ => pure r)
          (fun _ t => t.data = s.data ∧ t.home = s.home ∧ t.log = s.log ∧ t.inode = s.inode) (· = .fileread) u := by
      intro u r hdata hhome hlog hino
      unfold iunlock releasesleep
      rw [wp_bind, wp_bind, wp_getInode, hino, upd_same, wp_ite,
        if_neg (by simp only [Bool.true_eq_false, false_or]; omega), wp_setInode,
        wp_pure, hino, upd_same, upd_upd, ← hlock]
      exact ⟨hdata, hhome, hlog, upd_self _ _⟩
    refine wp_if (fun _ => ?_) fun _ => hunlock _ _ rfl rfl rfl rfl
    exact wp_then (hunlock _ _ rfl rfl rfl rfl)
  · exact rfl

/-- On a disk in order no run makes a hole, so `readi` finds every block it looks for: a
    `read`, of any file at any offset, changes neither the disk nor the log nor an inode,
    and no panic of the log stops it. -/
theorem reads_write_nothing (hd : InOrder sb disk) (es : List Ev) (s : St)
    (hs : run (step sb) (boot sb disk) es = .ok s) :
    (∀ i, Live sb (view sb s) i → HoleFree (view sb s) i) ∧
    (∀ ip dst off n, 0 < (s.inode ip).ref → (s.inode ip).valid = true → ∃ r, readi sb ip dst off n s = .ok (r, s)) ∧
    ∀ (off : Fin NFILE → Nat) p fd dst n ext, wp (sysRead sb p fd dst n ext)
      (fun _ t => t.data = s.data ∧ t.home = s.home ∧ t.log = s.log ∧ t.inode = s.inode) (· = .fileread)
      { s with file := fun f => { s.file f with off := off f } } := by
  have hk : Kept sb ⟨fun _ => True, False⟩ (run (step sb) (boot sb disk) es) :=
    kept_run hd False.elim (fun _ hj => absurd trivial hj) es
  rw [hs] at hk
  obtain ⟨V, c, hm, _⟩ := hk
  refine ⟨fun i hi => ?_, fun ip dst off n hr hv => ?_, fun off p fd dst n ext => ?_⟩
  · have hi' := (view_live hm.rep).mp hi
    exact view_holeFree hm.rep hm.sound hi' (hm.holes i hi')
  · have hp : Loaded s ip (s.inode ip).inum := ⟨hr, hv, rfl⟩
    have hi := loaded_live hm.rep hp
    exact ⟨_, readi_eq hm.rep hp hi hm.sound (hm.holes _ hi) dst off n⟩
  · have hfile : s.file = c.file := hm.file
    have hs' : ({ s with file := fun f => { s.file f with off := off f } } : St) =
        { s with file := fun f => { c.file f with off := off f }, proc := c.proc } := by rw [← hfile, ← hm.proc]
    have hu := mid_ctx { c with file := fun f => { c.file f with off := off f } } hm
      (fun _ => rfl) hm.inum hm.num hm.unread
      (fun _ => .inl) id rfl fun f => hm.files f
    unfold sysRead
    rw [wp_bind, hs']
    refine argfd_spec fun r => ?_
    split
    · exact ⟨rfl, rfl, rfl, rfl⟩
    · exact fileread_frame hu _ dst n ext

theorem reads_write_nothing_tiny :
    ∃ s, Tiny.runs 6 [.open initproc Tiny.file O_RDWR] = .ok s ∧
      wp (sysRead Tiny.sb initproc 0 (fun _ => true) 10 0)
        (fun _ t => t.data = s.data ∧ t.home = s.home ∧ t.log = s.log ∧ t.inode = s.inode) (· = .fileread)
        { s with file := fun f => { s.file f with off := 1020 } } := by
  obtain ⟨s, hs, _⟩ : ∃ s, Tiny.runs 6 [.open initproc Tiny.file O_RDWR] = .ok s ∧ True :=
    Tiny.ends_ok (by decide +kernel)
  exact ⟨s, hs, (reads_write_nothing Tiny.inOrder _ s hs).2.2 (fun _ => 1020) initproc 0 (fun _ => true) 10 0⟩

/-- The bytes of a file of one byte and no block, in the place of inode 3. -/
def Tiny.hollow : User := fun x => some (if x = 192 then 2 else if x = 200 then 1 else 0)

/-- Where a file's block is the inodes' own, a write to it can make a file with a hole. -/
theorem hole_made :
    Tiny.sb.Layout ∧ (∀ i, Live Tiny.sb (view Tiny.sb (mount (Tiny.disk Tiny.entries 2 Bytes.zero))) i →
      HoleFree (view Tiny.sb (mount (Tiny.disk Tiny.entries 2 Bytes.zero))) i) ∧
    ∃ s, Tiny.runs 2 [.open initproc Tiny.file O_RDWR, .write initproc 0 Tiny.hollow 256 0] = .ok s ∧
      Live Tiny.sb (view Tiny.sb s) 3 ∧ ¬ HoleFree (view Tiny.sb s) 3 := by
  refine ⟨Tiny.layout, fun i => Tiny.holeFree (by decide) (by decide) (by decide), ?_⟩
  obtain ⟨s, hs, hty, hsize, ha⟩ : ∃ s,
    Tiny.runs 2 [.open initproc Tiny.file O_RDWR, .write initproc 0 Tiny.hollow 256 0] = .ok s ∧
      ((view Tiny.sb s).ino 3).type ≠ 0 ∧ ((view Tiny.sb s).ino 3).size = 1 ∧ (view Tiny.sb s).addr 3 0 = 0 :=
    Tiny.ends_ok (by decide +kernel)
  exact ⟨s, hs, ⟨by decide, hty⟩, fun hf => (hf 0 (by rw [hsize]; decide)).2 ha⟩

end results

end Xv6.Fs
