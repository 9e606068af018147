/-
  Xv6.Fs.Mid — what holds in the middle of a system call. `Mid` is the invariant of the
  file system with the two things that move during a call: the references `T` the call
  holds, each with the inode number it is for, and the inodes `L` it has locked. `Ctx` is
  what only the call's own code changes: open files, processes, and the references they
  keep; and the bill for what the call logs.
-/

import Xv6.Fs.Bill
import Xv6.Fs.ContentProofs
import Xv6.Fs.TruncProofs
import Xv6.Fs.Dir

namespace Xv6.Fs

open Lib Vol

/-! ## Inodes as calls see them -/

structure Node where
  type : Int16
  nlink : Int16
  size : Nat
  byte : Nat → UInt8

def Node.ent (x : Node) (k : Nat) : Nat :=
  if DESIZE * k + DESIZE ≤ x.size then (x.byte (DESIZE * k)).toNat + 256 * (x.byte (DESIZE * k + 1)).toNat else 0

/-- Nothing is left of a free inode. -/
def Node.free : Node := ⟨0, 0, 0, fun _ => 0⟩

def node (sb : Superblock) (V : Vol) (i : Nat) : Node :=
  if i < sb.ninodes ∧ (V.ino i).type ≠ 0 then ⟨(V.ino i).type, (V.ino i).nlink, (V.ino i).size, V.raw i⟩ else .free

def DirRange (sb : Superblock) (F : Nat → Node) : Prop := ∀ d k, (F d).type = T_DIR → (F d).ent k < sb.ninodes

variable {sb : Superblock} {V V' : Vol} {i : Nat}

theorem node_live (h : Live sb V i) :
    node sb V i = ⟨(V.ino i).type, (V.ino i).nlink, (V.ino i).size, V.raw i⟩ := if_pos h

theorem node_free (h : ¬ Live sb V i) : node sb V i = .free := if_neg h

theorem node_type_ne : (node sb V i).type ≠ 0 ↔ Live sb V i := by
  by_cases h : Live sb V i
  · rw [node_live h]
    exact ⟨fun _ => h, fun _ => h.2⟩
  · rw [node_free h]
    exact ⟨fun h' => absurd rfl h', fun h' => absurd h' h⟩

theorem node_congr {j : Nat} (hino : V'.ino j = V.ino j) (hraw : Live sb V j → ∀ x, V'.raw j x = V.raw j x) :
    node sb V' j = node sb V j := by
  have hl : Live sb V' j ↔ Live sb V j := by simp only [Live, hino]
  by_cases h : Live sb V j
  · rw [node_live h, node_live (hl.mpr h), hino, funext (hraw h)]
  · rw [node_free h, node_free fun h' => h (hl.mp h')]

theorem node_upd (h : ∀ j, j ≠ i → node sb V' j = node sb V j) : node sb V' = upd (node sb V) i (node sb V' i) := by
  funext j
  by_cases e : j = i
  · rw [e, upd_same]
  · rw [upd_ne _ _ e, h j e]

theorem ent_size_zero {x : Node} (h : x.size = 0) (k : Nat) : x.ent k = 0 := by
  unfold Node.ent
  rw [if_neg]
  simp only [h, DESIZE, DIRSIZ]
  omega

theorem dirRange_upd {F : Nat → Node} {x : Node} (h : DirRange sb F) (hx : x.type = T_DIR → ∀ k, x.ent k < sb.ninodes) :
    DirRange sb (upd F i x) := by
  intro d k hd
  by_cases e : d = i
  · subst e
    rw [upd_same] at hd ⊢
    exact hx hd k
  · rw [upd_ne _ _ e] at hd ⊢
    exact h d k hd

/-! ## The assertion -/

/-- What is followed of a disk that may not be in order: the inodes in `stray` may be
    allocated with no link and nobody to free them, and only if `tight` is every block
    that is marked used really used. -/
structure Scope where
  stray : Nat → Prop
  tight : Prop

/-- What the code of `fs.c` leaves alone; `kept e` references to entry `e` are kept by
    open files and processes, for the inode `num e`. The bill is for what the call logs. -/
structure Ctx where
  file : Fin NFILE → File
  proc : Fin NPROC → Proc
  kept : Idx → Nat
  num : Idx → Nat
  scope : Scope
  bill : Bill

def Ctx.charge (c : Ctx) (n : Nat) : Ctx := { c with bill := c.bill.charge n }

def Ctx.pay (c : Ctx) (b : Nat) : Ctx := { c with bill := c.bill.pay b }

def File.Inoded (x : File) : Prop := x.type = .inode ∨ x.type = .device

/-- What is asked of a run: under `live` every inode that is referred to is allocated, so
    `ilock` finds a type; under `room` the log does not overflow. -/
structure Guard where
  live : Prop
  room : Prop

/-- The panics that can happen: not these, and two only if nothing is asked about them. -/
def Fine (safe : Guard) : Panic → Prop
  | .freeingFreeBlock | .ilock | .iunlock | .bmapOutOfRange | .dirlookupNotDir => False
  | .ilockNoType => ¬ safe.live
  | .log .tooBig => ¬ safe.room
  | _ => True

/-- Buffers that are not in the log agree with the disk, but for data of no directory. -/
def Stable (sb : Superblock) (s : St) (V : Vol) : Prop := ∀ b, b ∉ s.log.lh → s.data b = s.home b ∨ Loose sb V b

def temps (T : List (Idx × Nat)) (e : Idx) : Nat := (T.map Prod.fst).count e

structure Mid (sb : Superblock) (safe : Guard) (c : Ctx) (s : St) (V : Vol) (T : List (Idx × Nat)) (L : List Idx) :
    Prop where
  rep : Rep sb s V none
  sound : Sound sb V
  noLeak : c.scope.tight → NoLeak sb V
  holes : ∀ i, Live sb V i → HoleFree V i
  dirs : DirRange sb (node sb V)
  stable : Stable sb s V
  file : s.file = c.file
  proc : s.proc = c.proc
  refs : ∀ e, (s.inode e).ref = ((c.kept e + temps T e : Nat) : Int)
  inum : ∀ p ∈ T, (s.inode p.1).inum = p.2
  num : ∀ e, 0 < c.kept e → (s.inode e).inum = c.num e
  locks : ∀ e, (s.inode e).lock = true ↔ e ∈ L
  locked : ∀ e ∈ L, (s.inode e).valid = true ∧ 0 < (s.inode e).ref
  nodup : L.Nodup
  /-- An open file's inode was read in when it was opened, and no directory is open for writing. -/
  files : ∀ f, (c.file f).Inoded → 0 < c.kept (c.file f).ip ∧ (s.inode (c.file f).ip).valid = true ∧
    ((c.file f).type = .inode → (c.file f).writable = true → (s.inode (c.file f).ip).type ≠ T_DIR)
  live : safe.live → ∀ e, 0 < (s.inode e).ref → Live sb V (s.inode e).inum
  /-- Only the root, which `userinit` takes without a look, is kept unread. -/
  unread : ∀ e, 0 < c.kept e → (s.inode e).valid = true ∨ c.num e = ROOTINO
  /-- An inode that lost its links is freed by the last `iput`, which must find it read in. -/
  orphan : ∀ j, ¬ c.scope.stray j → Live sb V j → (V.ino j).nlink = 0 → ∃ e, Loaded s e j
  bitmap : c.bill.Bitmap sb
  logged : c.bill.Fits s.log
  room : c.bill.Affords (Fine safe) 0

variable {safe : Guard} {c : Ctx} {s t : St} {T T' : List (Idx × Nat)} {L L' : List Idx} {ip : Idx}

theorem temps_pos {p : Idx × Nat} (h : p ∈ T) : 0 < temps T p.1 :=
  List.count_pos_iff.mpr (List.mem_map.mpr ⟨p, h, rfl⟩)

@[simp] theorem temps_nil (e : Idx) : temps [] e = 0 := rfl

theorem temps_cons (p : Idx × Nat) (e : Idx) : temps (p :: T) e = temps T e + if p.1 = e then 1 else 0 := by
  simp only [temps, List.map_cons, List.count_cons, beq_iff_eq]

theorem temps_self (j : Nat) : temps ((ip, j) :: T) ip = temps T ip + 1 := by rw [temps_cons, if_pos rfl]

theorem temps_other {e : Idx} (j : Nat) (h : e ≠ ip) : temps ((ip, j) :: T) e = temps T e := by
  rw [temps_cons, if_neg fun h' => h h'.symm, Nat.add_zero]

def Ref (c : Ctx) (T : List (Idx × Nat)) (ip : Idx) (i : Nat) : Prop := (ip, i) ∈ T ∨ (0 < c.kept ip ∧ c.num ip = i)

theorem mid_ref (h : Mid sb safe c s V T L) (hp : Ref c T ip i) : 0 < (s.inode ip).ref ∧ (s.inode ip).inum = i := by
  have h1 := h.refs ip
  rcases hp with hp | ⟨hk, hn⟩
  · have h2 : 0 < temps T ip := temps_pos hp
    exact ⟨by omega, h.inum _ hp⟩
  · exact ⟨by omega, (h.num ip hk).trans hn⟩

theorem mid_loaded (h : Mid sb safe c s V T L) (hp : Ref c T ip i) (hL : ip ∈ L) : Loaded s ip i :=
  ⟨(h.locked ip hL).2, (h.locked ip hL).1, (mid_ref h hp).2⟩

theorem loaded_live (h : Rep sb s V none) (hp : Loaded s ip i) : Live sb V i := by
  have h1 := h.live ip (fun e => by cases e) hp.ref hp.valid
  rw [hp.inum] at h1
  exact ⟨loaded_lt h hp, h1⟩

/-- The order of references and locks does not matter. -/
theorem mid_perm (h : Mid sb safe c s V T L) (hT : T.Perm T') (hL : L.Perm L') : Mid sb safe c s V T' L' where
  rep := h.rep
  sound := h.sound
  noLeak := h.noLeak
  holes := h.holes
  dirs := h.dirs
  stable := h.stable
  file := h.file
  proc := h.proc
  refs := fun e => by rw [h.refs e, temps, temps, (hT.map Prod.fst).count_eq e]
  inum := fun p hp => h.inum p (hT.mem_iff.mpr hp)
  num := h.num
  locks := fun e => by rw [h.locks e, hL.mem_iff]
  locked := fun e he => h.locked e (hL.mem_iff.mpr he)
  nodup := hL.nodup_iff.mp h.nodup
  files := h.files
  live := h.live
  unread := h.unread
  orphan := h.orphan
  bitmap := h.bitmap
  logged := h.logged
  room := h.room

/-- Another bill for the same log, and less asked of types. -/
theorem mid_guard {safe' : Guard} {g : Bill} (h : Mid sb safe c s V T L) (hlive : safe'.live → safe.live)
    (hb : g.Bitmap sb) (hg : g.Fits s.log) (hn : g.Affords (Fine safe') 0) :
    Mid sb safe' { c with bill := g } s V T L where
  rep := h.rep
  sound := h.sound
  noLeak := h.noLeak
  holes := h.holes
  dirs := h.dirs
  stable := h.stable
  file := h.file
  proc := h.proc
  refs := h.refs
  inum := h.inum
  num := h.num
  locks := h.locks
  locked := h.locked
  nodup := h.nodup
  files := h.files
  live := fun h' => h.live (hlive h')
  unread := h.unread
  orphan := h.orphan
  bitmap := hb
  logged := hg
  room := hn

theorem mid_bill {g : Bill} (h : Mid sb safe c s V T L) (hb : g.Bitmap sb) (hg : g.Fits s.log)
    (hn : g.Affords (Fine safe) 0) :
    Mid sb safe { c with bill := g } s V T L := mid_guard h id hb hg hn

abbrev Ctx.Affords (safe : Guard) (c : Ctx) (n : Nat) : Prop := c.bill.Affords (Fine safe) n

theorem affords_open (h : ¬ safe.room) (c : Ctx) (n : Nat) : c.Affords safe n := .inl h

theorem affords_charged {m n k : Nat} (h : c.Affords safe n) (hm : m + k ≤ n) : (c.charge m).Affords safe k :=
  Bill.affords_le (Bill.affords_charge h m (by omega)) (by omega)

theorem affords_paid {b n k : Nat} (h : c.Affords safe n) (hk : k + 1 ≤ n) : (c.pay b).Affords safe k :=
  Bill.affords_pay (Bill.affords_le h hk) b

theorem mid_charge (h : Mid sb safe c s V T L) (n : Nat) (hn : c.Affords safe n) : Mid sb safe (c.charge n) s V T L :=
  mid_bill h h.bitmap (Bill.fits_charge h.logged n)
  (Bill.affords_le (Bill.affords_charge hn n (Nat.le_refl n)) (Nat.zero_le _))

theorem mid_pay (h : Mid sb safe c s V T L) (hn : c.Affords safe 1) (b : Nat) : Mid sb safe (c.pay b) s V T L :=
  mid_bill h (fun x hx => .inl (h.bitmap x hx)) (Bill.fits_pay h.logged b) (Bill.affords_pay hn b)

/-- A block that was paid for is one block more. -/
theorem mid_paid {b : Nat} (h : Mid sb safe (c.pay b) s V T L) (hb : c.bill.Bitmap sb) (hn : c.Affords safe 1) :
    Mid sb safe (c.charge 1) s V T L :=
  mid_bill (c := c.pay b) h hb (Bill.fits_paid h.logged) (Bill.affords_charge hn 1 (Nat.le_refl 1))

theorem fine_log (x : Log.Panic) (h : x ≠ .tooBig) : Fine safe (.log x) := by
  cases x with
  | tooBig => exact absurd rfl h
  | logCommitting | outsideTrans => trivial

theorem fine_log_any (h : ¬ safe.room) (x : Log.Panic) : Fine safe (.log x) := by
  cases x with
  | tooBig => exact h
  | logCommitting | outsideTrans => trivial

theorem fine_also {x : Panic} (h : Fine ⟨safe.live, False⟩ x) (hr : x = .log .tooBig → ¬ safe.room) : Fine safe x := by
  by_cases hx : x = .log .tooBig
  · rw [hx]
    exact hr hx
  · unfold Fine at h ⊢
    split at h <;> first | exact h | trivial

theorem mid_logs (h : Mid sb safe c s V T L) {b : Nat} (hb : c.bill.free b) :
    Logs (Fine safe) b (fun l => c.bill.Fits l) fun l => c.bill.Fits l :=
  Bill.logs_fits fine_log h.room hb

/-! ## What keeps it -/

theorem stable_tame (h : Stable sb s V) (ht : Tame sb s V t V') : Stable sb t V' := by
  intro b hb
  have hbs : b ∉ s.log.lh := fun hm => hb (ht.lh b hm)
  rcases ht.data b hb with hd | hl
  · rcases h b hbs with he | hl
    · exact .inl (by rw [hd, he, ht.home])
    · refine .inr ⟨hl.1, fun i k hik => ?_⟩
      obtain ⟨h1, h2⟩ := ht.hold i k b hik hb
      rw [h2]
      exact hl.2 i k h1
  · exact .inr hl

theorem live_put (hother : ∀ j, j ≠ i → V'.ino j = V.ino j) (hti : (V'.ino i).type = (V.ino i).type) (j : Nat) :
    Live sb V' j ↔ Live sb V j := by
  have : (V'.ino j).type = (V.ino j).type := by
    by_cases e : j = i
    · rw [e, hti]
    · rw [hother j e]
  simp only [Live, this]

/-- One loaded inode changes, in the table and in the volume. -/
theorem mid_put (h : Mid sb safe c s V T L) (hp : Loaded s ip i) (hrep : Rep sb t V' none) (ht : Tame sb s V t V')
    (hino : t.inode = putIno s ip (V'.ino i)) (hother : ∀ j, j ≠ i → V'.ino j = V.ino j)
    (hti : (V'.ino i).type = (V.ino i).type) (hs : Sound sb V')
    (hn : NoLeak sb V → NoLeak sb V') (hf : ∀ j, Live sb V' j → HoleFree V' j) (hd : DirRange sb (node sb V'))
    (hlog : c.bill.Fits t.log) : Mid sb safe c t V' T L where
  rep := hrep
  sound := hs
  noLeak := fun h' => hn (h.noLeak h')
  holes := hf
  dirs := hd
  stable := stable_tame h.stable ht
  file := ht.file.trans h.file
  proc := ht.proc.trans h.proc
  refs := fun e => by rw [hino, putIno_ref]; exact h.refs e
  inum := fun p hpt => by rw [hino, putIno_inum]; exact h.inum p hpt
  num := fun e he => by rw [hino, putIno_inum]; exact h.num e he
  locks := fun e => by
    rw [hino]
    simp only [putIno, upd]
    split
    · next he => rw [he]; exact h.locks ip
    · exact h.locks e
  locked := fun e he => by rw [hino, putIno_valid, putIno_ref]; exact h.locked e he
  nodup := h.nodup
  files := fun f hfi => by
    obtain ⟨h1, h2, h3⟩ := h.files f hfi
    refine ⟨h1, by rw [hino, putIno_valid]; exact h2, fun h4 h5 => ?_⟩
    rw [hino]
    simp only [putIno, upd]
    split
    · next he =>
      rw [hti, ← loaded_ino h.rep hp]
      exact he ▸ h3 h4 h5
    · exact h3 h4 h5
  live := fun hsafe e he => by
    rw [hino, putIno_ref] at he
    rw [hino, putIno_inum]
    exact (live_put hother hti _).mpr (h.live hsafe e he)
  unread := fun e he => by rw [hino, putIno_valid]; exact h.unread e he
  orphan := fun j hj hlj h0 => by
    by_cases e : j = i
    · exact ⟨ip, e ▸ loaded_put hino hp⟩
    · rw [hother j e] at h0
      obtain ⟨e', he'⟩ := h.orphan j hj ((live_put hother hti j).mp hlj) h0
      exact ⟨e', by rw [hino, putIno_ref]; exact he'.ref, by rw [hino, putIno_valid]; exact he'.valid,
        by rw [hino, putIno_inum]; exact he'.inum⟩
  bitmap := h.bitmap
  logged := hlog
  room := h.room

/-- An entry of the table as `iget`, `ilock` and the others leave it: the inode it is for,
    its count and its lock may change, what it says about the inode is still right. -/
structure EntryOk (sb : Superblock) (safe : Guard) (c : Ctx) (s : St) (V : Vol) (T : List (Idx × Nat))
    (L : List Idx) (ip : Idx)
    (x : Inode) : Prop where
  ref : x.ref = ((c.kept ip + temps T ip : Nat) : Int)
  inum : ∀ p ∈ T, p.1 = ip → x.inum = p.2
  num : 0 < c.kept ip → x.inum = c.num ip
  lock : x.lock = true ↔ ip ∈ L
  locked : ip ∈ L → x.valid = true ∧ 0 < x.ref
  lt : 0 < x.ref → x.inum < sb.ninodes ∧ x.dev = ROOTDEV
  uniq : 0 < x.ref → ∀ e, e ≠ ip → 0 < (s.inode e).ref → (s.inode e).inum ≠ x.inum
  mem : 0 < x.ref → x.valid = true → x.toDinode = V.ino x.inum ∧ (V.ino x.inum).type ≠ 0
  files : 0 < c.kept ip → (s.inode ip).valid = true → x.valid = true ∧ x.type = (s.inode ip).type
  live : safe.live → 0 < x.ref → Live sb V x.inum
  orphan : ∀ j, ¬ c.scope.stray j → Live sb V j → (V.ino j).nlink = 0 → Loaded s ip j → 0 < x.ref ∧
    x.valid = true ∧ x.inum = j

/-- A representation without its dirty entry, when the disk is right there too. -/
theorem rep_entry {dirty : Option Idx} {x : Inode} (h : Rep sb s V dirty) (hd : ∀ e, dirty = some e → e = ip)
    (hdisk : ∀ i < sb.ninodes, getDinode (s.data (sb.IBLOCK i)) (ioff i) = V.ino i)
    (hlt : 0 < x.ref → x.inum < sb.ninodes ∧ x.dev = ROOTDEV)
    (huniq : 0 < x.ref → ∀ e, e ≠ ip → 0 < (s.inode e).ref → (s.inode e).inum ≠ x.inum)
    (hmem : 0 < x.ref → x.valid = true → x.toDinode = V.ino x.inum ∧ (V.ino x.inum).type ≠ 0) :
    Rep sb { s with inode := upd s.inode ip x } V none where
  mem := by
    intro e
    simp only [upd]
    split
    · exact fun h1 h2 => (hmem h1 h2).1
    · exact h.mem e
  disk := fun j hj _ => hdisk j hj
  used := h.used
  blk := h.blk
  uniq := by
    intro e e'
    simp only [upd]
    split
    · next he =>
      split
      · next he' => exact fun _ _ _ => he.trans he'.symm
      · next he' => exact fun h1 h2 h3 => absurd h3.symm (huniq h1 e' he' h2)
    · next he =>
      split
      · exact fun h1 h2 h3 => absurd h3 (huniq h2 e he h1)
      · exact h.uniq e e'
  range := by
    intro e
    simp only [upd]
    split
    · exact hlt
    · exact h.range e
  live := by
    intro e _
    simp only [upd]
    split
    · exact fun h1 h2 => (hmem h1 h2).2
    · next he => exact h.live e fun hde => he (hd e hde)
  fits := h.fits

theorem mid_entry (h : Mid sb safe c s V T L) {x : Inode} (hx : EntryOk sb safe c s V T' L' ip x)
    (hT : ∀ e, e ≠ ip → temps T' e = temps T e) (hsub : ∀ p ∈ T', p.1 ≠ ip → p ∈ T)
    (hL : ∀ e, e ≠ ip → (e ∈ L' ↔ e ∈ L)) (hnd : L'.Nodup) :
    Mid sb safe c { s with inode := upd s.inode ip x } V T' L' where
  rep := rep_entry h.rep (fun e he => by cases he) (fun j hj => h.rep.disk j hj fun e he => by cases he)
    hx.lt hx.uniq hx.mem
  sound := h.sound
  noLeak := h.noLeak
  holes := h.holes
  dirs := h.dirs
  stable := h.stable
  file := h.file
  proc := h.proc
  refs := fun e => by
    simp only [upd]
    split
    · next he => rw [he]; exact hx.ref
    · next he => rw [hT e he]; exact h.refs e
  inum := fun p hp => by
    simp only [upd]
    split
    · next he => exact hx.inum p hp he
    · next he => exact h.inum p (hsub p hp he)
  num := fun e he => by
    simp only [upd]
    split
    · next hip => rw [hip] at he ⊢; exact hx.num he
    · exact h.num e he
  locks := fun e => by
    simp only [upd]
    split
    · next he => rw [he]; exact hx.lock
    · next he => rw [hL e he]; exact h.locks e
  locked := fun e he => by
    simp only [upd]
    split
    · next hip => exact hx.locked (hip ▸ he)
    · next hip => exact h.locked e ((hL e hip).mp he)
  nodup := hnd
  files := fun f hf => by
    obtain ⟨h1, h2, h3⟩ := h.files f hf
    refine ⟨h1, ?_⟩
    simp only [upd]
    split
    · next he =>
      rw [he] at h1 h2 h3
      obtain ⟨h4, h5⟩ := hx.files h1 h2
      exact ⟨h4, by rw [h5]; exact h3⟩
    · exact ⟨h2, h3⟩
  live := fun hsafe e he => by
    simp only [upd] at he ⊢
    split at he
    · next hip => rw [if_pos hip]; exact hx.live hsafe he
    · next hip => rw [if_neg hip]; exact h.live hsafe e he
  unread := fun e he => by
    rcases h.unread e he with hv | hroot
    · refine .inl ?_
      simp only [upd]
      split
      · next hip => exact (hx.files (hip ▸ he) (hip ▸ hv)).1
      · exact hv
    · exact .inr hroot
  orphan := fun j hj hlj h0 => by
    obtain ⟨e, he⟩ := h.orphan j hj hlj h0
    refine ⟨e, ?_⟩
    by_cases hip : e = ip
    · obtain ⟨h1, h2, h3⟩ := hx.orphan j hj hlj h0 (hip ▸ he)
      exact ⟨by simpa only [upd, if_pos hip] using h1, by simpa only [upd, if_pos hip] using h2,
        by simpa only [upd, if_pos hip] using h3⟩
    · exact ⟨by simpa only [upd, if_neg hip] using he.ref, by simpa only [upd, if_neg hip] using he.valid,
        by simpa only [upd, if_neg hip] using he.inum⟩
  bitmap := h.bitmap
  logged := h.logged
  room := h.room

/-- The call's own code changes files, processes, and who holds which reference. -/
theorem mid_ctx (c' : Ctx) (h : Mid sb safe c s V T L) (hk : ∀ e, c'.kept e + temps T' e = c.kept e + temps T e)
    (hT : ∀ p ∈ T', (s.inode p.1).inum = p.2) (hn : ∀ e, 0 < c'.kept e → (s.inode e).inum = c'.num e)
    (hu : ∀ e, 0 < c'.kept e → (s.inode e).valid = true ∨ c'.num e = ROOTINO) 
    (hstray : ∀ j, c.scope.stray j → c'.scope.stray j ∨ ∃ e, Loaded s e j) (htight : c'.scope.tight → c.scope.tight)
    (hbill : c'.bill = c.bill)
    (hf : ∀ f, (c'.file f).Inoded → 0 < c'.kept (c'.file f).ip ∧ (s.inode (c'.file f).ip).valid = true ∧
      ((c'.file f).type = .inode → (c'.file f).writable = true → (s.inode (c'.file f).ip).type ≠ T_DIR)) :
    Mid sb safe c' { s with file := c'.file, proc := c'.proc } V T' L where
  rep := rep_same h.rep rfl rfl
  sound := h.sound
  noLeak := fun h' => h.noLeak (htight h')
  holes := h.holes
  dirs := h.dirs
  stable := h.stable
  file := rfl
  proc := rfl
  refs := fun e => by rw [hk e]; exact h.refs e
  inum := hT
  num := hn
  locks := h.locks
  locked := h.locked
  nodup := h.nodup
  files := hf
  live := h.live
  unread := hu
  orphan := fun j hj hlj h0 => by
    have hs : ∃ e, Loaded s e j := by
      by_cases hc : c.scope.stray j
      · exact (hstray j hc).resolve_left hj
      · exact h.orphan j hc hlj h0
    obtain ⟨e, he⟩ := hs
    exact ⟨e, loaded_same (s := s) rfl he⟩
  bitmap := by rw [hbill]; exact h.bitmap
  logged := by rw [hbill]; exact h.logged
  room := by rw [hbill]; exact h.room

/-- The buffers a call holds and the pipes play no part. -/
theorem mid_same (h : Mid sb safe c s V T L) (hdata : t.data = s.data) (hhome : t.home = s.home) (hlog : t.log = s.log)
    (hino : t.inode = s.inode) (hfile : t.file = s.file) (hproc : t.proc = s.proc) : Mid sb safe c t V T L where
  rep := rep_same h.rep hdata hino
  sound := h.sound
  noLeak := h.noLeak
  holes := h.holes
  dirs := h.dirs
  stable := by unfold Stable; rw [hdata, hhome, hlog]; exact h.stable
  file := hfile.trans h.file
  proc := hproc.trans h.proc
  refs := by rw [hino]; exact h.refs
  inum := by rw [hino]; exact h.inum
  num := by rw [hino]; exact h.num
  locks := by rw [hino]; exact h.locks
  locked := by rw [hino]; exact h.locked
  nodup := h.nodup
  files := by rw [hino]; exact h.files
  live := by rw [hino]; exact h.live
  unread := by rw [hino]; exact h.unread
  orphan := fun j hj hlj h0 => (h.orphan j hj hlj h0).imp fun _ => loaded_same hino
  bitmap := h.bitmap
  logged := by rw [hlog]; exact h.logged
  room := h.room

theorem mid_log {l : Log.LogSt} {home : Nat → Block} (h : Mid sb safe c s V T L)
    (hs : Stable sb { s with log := l, home := home } V) (hlog : l.lh.Sublist s.log.lh)
    (hin : l.outstanding < 1 → l.lh = []) :
    Mid sb safe c { s with log := l, home := home } V T L where
  rep := rep_same h.rep rfl rfl
  sound := h.sound
  noLeak := h.noLeak
  holes := h.holes
  dirs := h.dirs
  stable := hs
  file := h.file
  proc := h.proc
  refs := h.refs
  inum := h.inum
  num := h.num
  locks := h.locks
  locked := h.locked
  nodup := h.nodup
  files := h.files
  live := h.live
  unread := h.unread
  orphan := fun j hj hlj h0 => (h.orphan j hj hlj h0).imp fun _ => loaded_same (s := s) rfl
  bitmap := h.bitmap
  logged := Bill.fits_sub h.logged hlog hin
  room := h.room

end Xv6.Fs
