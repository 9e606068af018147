/-
  Xv6.Itable.ItableProofs — the inode table is safe under any interleaving (`itable_safe`):
  an inode has one entry, an entry in use keeps its inode, `iput` frees an inode only on the
  last reference, and who locks an inode it has allocated finds it as allocated; see
  `Xv6.Itable.Itable`.
-/

import Xv6.Itable.Entry
import Xv6.Fs.State

namespace Xv6.Itable

open Lib Fs

variable {P : Type} [DecidableEq P]

/-! ## What a step leaves alone -/

section
variable {n : Nat} {s s' : St P} {p : P}

/-- The entry that a step gets its process a reference to. -/
def gains (s : St P) : Ev P → Option Slot
  | .iget _ dev inum => (iget s dev inum).map Prod.fst
  | .idup _ ip => some ip
  | .go p =>
    match s.pc p with
    | .iallocGet dev inum _ => (iget s dev inum).map Prod.fst
    | _ => none
  | _ => none

def gained (live : Slot → Nat) : Option Slot → Slot → Nat
  | some ip => upd live ip (live ip + 1)
  | none => live

/-- The references that may be used after a step. -/
def St.lives (s : St P) : Ev P → Slot → Nat
  | .iput _ ip => upd s.live ip (s.live ip - 1)
  | e => gained s.live (gains s e)

/-- A step of `p`: an entry in use keeps its inode, and `p` starts to free one only after
    `iput`'s test. -/
structure Leaves (s s' : St P) (p : P) (live : Slot → Nat) : Prop where
  ino : ∀ i, 0 < s.ref i → s'.ino i = s.ino i
  pc : s'.pc = s.pc ∨ ∃ y, s'.pc = upd s.pc p y ∧ ∀ ip, y = .itrunc ip → s.pc p = .iput ip ∧ s.freeable ip = true
  live : s'.live = live

section
omit [DecidableEq P]

theorem ino_upd {ip : Slot} {e : Inode P} (hs : s'.inode = upd s.inode ip e) (he : e.ino = s.ino ip) (i : Slot) :
    s'.ino i = s.ino i := by
  unfold St.ino
  rw [hs]
  exact upd_forall (Q := fun i (e : Inode P) => e.ino = (s.inode i).ino) he (fun _ _ => rfl) i

/-- `iget` gives another inode only to an entry without references. -/
theorem iget_leaves {ip : Slot} {dev inum : Nat} (hg : iget s dev inum = some (ip, s')) :
    (∀ i, 0 < s.ref i → s'.ino i = s.ino i) ∧ s'.pc = s.pc ∧ s'.live = upd s.live ip (s.live ip + 1) := by
  unfold iget at hg
  split at hg
  · cases hg
    exact ⟨fun i _ => ino_upd rfl (by rfl) i, rfl, rfl⟩
  split at hg
  · rename_i j hf
    have hok := (first_some hf).1
    simp only [decide_eq_true_eq] at hok
    cases hg
    refine ⟨fun i hi => congrArg Inode.ino (upd_ne _ _ fun e => ?_), rfl, rfl⟩
    rw [e] at hi
    omega
  · cases hg

end

theorem leaves_ilock (ip : Slot) (a : Option Alloc) : Leaves s (ilock s p ip a) p s.live := by
  unfold ilock
  split
  · exact ⟨fun _ _ => rfl, .inl rfl, rfl⟩
  · exact ⟨fun _ _ => rfl, .inr ⟨_, rfl, fun ip e => by cases e⟩, rfl⟩

theorem go_leaves : Leaves s (go n s p (s.pc p)) p (s.lives (.go p)) := by
  cases hp : s.pc p with
  | iallocGet dev inum a =>
    simp only [go, St.lives, gains, hp]
    split
    · rename_i ip s' hg
      obtain ⟨h1, h2, h3⟩ := iget_leaves hg
      rw [hg]
      refine ⟨h1, .inr ⟨.alloced ip a, ?_, fun ip e => by cases e⟩, h3⟩
      show upd s'.pc p _ = _
      rw [h2]
    · rename_i hg
      rw [hg]
      exact ⟨fun _ _ => rfl, .inl rfl, rfl⟩
  | alloced ip a =>
    simp only [St.lives, gains, hp]
    exact leaves_ilock ip _
  | iput ip =>
    simp only [go, St.lives, gains, hp]
    split
    · rename_i hf
      split
      · exact ⟨fun i _ => ino_upd rfl (by rfl) i, .inr ⟨_, rfl, fun ip' e => by cases e; exact ⟨hp, hf⟩⟩, rfl⟩
      · exact ⟨fun _ _ => rfl, .inl rfl, rfl⟩
    · exact ⟨fun i _ => ino_upd rfl (by rfl) i, .inr ⟨_, rfl, fun ip e => by cases e⟩, rfl⟩
  | _ =>
    simp only [go, St.lives, gains, hp]
    repeat' split
    all_goals
      first
      | exact ⟨fun _ _ => rfl, .inl rfl, rfl⟩
      | exact ⟨fun _ _ => rfl, .inr ⟨_, rfl, fun ip e => by cases e⟩, rfl⟩
      | exact ⟨fun i _ => ino_upd rfl (by rfl) i, .inr ⟨_, rfl, fun ip e => by cases e⟩, rfl⟩

theorem call_leaves (e : Ev P) (hgo : ∀ p, e ≠ .go p) : Leaves s (call s e) e.by (s.lives e) := by
  cases e with
  | iget p dev inum =>
    simp only [call, St.lives, gains]
    split
    · rename_i ip s' hg
      obtain ⟨h1, h2, h3⟩ := iget_leaves hg
      rw [hg]
      exact ⟨h1, .inl h2, h3⟩
    · rename_i hg
      rw [hg]
      exact ⟨fun _ _ => rfl, .inl rfl, rfl⟩
  | idup p ip | write p ip d => exact ⟨fun i _ => ino_upd rfl (by rfl) i, .inl rfl, rfl⟩
  | ilock p ip => exact leaves_ilock ip none
  | iunlock p ip =>
    simp only [call]
    split
    · exact ⟨fun _ _ => rfl, .inl rfl, rfl⟩
    · exact ⟨fun i _ => ino_upd rfl (by rfl) i, .inl rfl, rfl⟩
  | iput p ip | ialloc p dev type => exact ⟨fun _ _ => rfl, .inr ⟨_, rfl, fun ip e => by cases e⟩, rfl⟩
  | iupdate p ip => exact ⟨fun _ _ => rfl, .inl rfl, rfl⟩
  | go p => exact absurd rfl (hgo p)

theorem step_leaves (e : Ev P) : step n s e = s ∨ Leaves s (step n s e) e.by (s.lives e) := by
  unfold step
  split
  · exact .inl rfl
  · split
    · exact .inr go_leaves
    · rename_i hgo
      split
      · exact .inr (call_leaves e hgo)
      · exact .inl rfl

theorem ino_step (e : Ev P) {i : Slot} (hi : 0 < s.ref i) : (step n s e).ino i = s.ino i := by
  rcases step_leaves (n := n) (s := s) e with h | h
  · rw [h]
  · exact h.ino i hi

/-- Only `iput`'s test leads to the freeing of an inode. -/
theorem starts_freeing {e : Ev P} {ip : Slot} (hne : s.pc p ≠ .itrunc ip) (h : (step n s e).pc p = .itrunc ip) :
    s.pc p = .iput ip ∧ s.freeable ip = true := by
  rcases step_leaves (n := n) (s := s) e with hs | hs
  · rw [hs] at h; exact absurd h hne
  rcases hs.pc with hpc | ⟨y, hpc, hy⟩
  · rw [hpc] at h; exact absurd h hne
  rw [hpc] at h
  rcases upd_eq.mp h with ⟨hq, h⟩ | ⟨-, h⟩
  · rw [hq]; exact hy ip h
  · exact absurd h hne

end

section
variable [Fintype P] {s : St P} (h : Inv s) {p : P} {ip : Slot} {a : Option Alloc} {x : Pc} {dev inum : Nat}
include h

/-! ## ilock and iunlock -/

theorem inv_ilock (hp : s.pc p = .idle ∨ ∃ b, s.pc p = .alloced ip b) (hl : 1 ≤ s.live ip)
    (ha : ∀ b, a = some b → b.nth ≤ s.allocs (s.ino ip)) : Inv (ilock s p ip a) := by
  have href := ref_of_live h hl
  have hon : (s.pc p).On ip ∧ putting ip (s.pc p) = 0 ∧ s.pc p ≠ .ivalid ip := by
    rcases hp with hp | ⟨b, hp⟩ <;> rw [hp] <;> simp [Pc.On, putting]
  have hvalid : (s.inode ip).lock = some p → (s.inode ip).valid = true := by
    have hok := ((h.entry ip).proc p).lockValid
    rcases hp with hp | ⟨b, hp⟩ <;> simpa [hp] using hok
  have hi := inv_entry h (e := s.inode ip) (x := .ilock ip a) rfl href hon.1 (by simp [Pc.On]) trivial
    (entry_move (h.entry ip) (by rw [hon.2.1]; rfl) ?_ (fun _ _ => id) (copy_turn (h.entry ip) hon.2.2 _))
  · unfold ilock
    rw [if_neg (by omega)]
    rwa [St.setInode, upd_self] at hi
  · exact ⟨fun _ => hl, by simp, fun hlk => .inr (.inr (hvalid hlk)), by simp, by simpa using ha⟩

theorem inv_acquire (hp : s.pc p = .ilock ip a) (hlk : (s.inode ip).lock = none) :
    Inv ((s.setInode ip { s.inode ip with lock := some p }).setPc p (.ilockRead ip a)) := by
  have hok := proc_at h hp ip
  have hused : 1 ≤ s.live ip := hok.used (.inl rfl)
  refine inv_entry h rfl (ref_of_live h hused) (by simp [Pc.On, hp]) (by simp [Pc.On]) trivial
    (entry_move (h.entry ip) (by rw [hp]; rfl) ?_ (fun q hq hok => ?_) (copy_turn (h.entry ip) (by simp [hp]) _))
  · exact ⟨fun _ => hused, fun _ => rfl, fun _ => .inr (.inl rfl), by simp, hok.alloc⟩
  · exact procOk_other hok (by simp [hlk, Ne.symm hq]) (fun _ => rfl) hok.used

/-- `ilock` returns with the copy in `e`. -/
theorem inv_locked {e : Inode P} (hp : s.pc p = .ilockRead ip a) (hino : e.ino = s.ino ip)
    (href : e.ref = (s.inode ip).ref) (hlock : e.lock = (s.inode ip).lock) (hv : e.valid = true)
    (hc : Good e.readAt e.type (s.allocs (s.ino ip)) (s.disk (s.ino ip)) none) :
    Inv (locked (s.setInode ip e) p ip) := by
  have hok := proc_at h hp ip
  have hl : (s.inode ip).lock = some p := hok.locked (.inr rfl)
  have hused : 1 ≤ s.live ip := hok.used (.inl rfl)
  have he : EntryOk e (s.live ip) (s.allocs e.ino) (s.disk e.ino) none (upd s.pc p .idle) ip := by
    rw [hino]
    refine entry_move (h.entry ip) (by rw [hp, href]; rfl) ?_ (fun q hq hok => ?_) fun _ _ => .inl hc
    · exact (procOk_clear (clear_of_slot (by simp))).mpr fun _ => ⟨hused, hv⟩
    · exact procOk_other hok (by rw [hlock]) (fun hq' => absurd (Option.some.inj (hq'.symm.trans hl)) hq) hok.used
  have hi := inv_put h (x := .idle) (other_ino h (ref_of_live h hused) hino) (by simp [Pc.On, hp])
    (by simp [Pc.On]) trivial he
    fun b hb => by cases hb
  unfold St.put at hi
  rw [upd_self, upd_self] at hi
  have hino' : (s.setInode ip e).ino ip = e.ino := congrArg Inode.ino (upd_same _ _ _)
  unfold locked
  rw [hino']
  exact hi

theorem inv_ilockRead (hp : s.pc p = .ilockRead ip a) (n : Nat) : Inv (go n s p (.ilockRead ip a)) := by
  have hl : (s.inode ip).lock = some p := (proc_at h hp ip).locked (.inr rfl)
  simp only [go]
  split
  · rename_i hv
    have hc := copy_locked h hl (by simp [hp]) hv
    have hi := inv_locked h hp (e := s.inode ip) rfl rfl rfl hv { hc with locked := rfl }
    rwa [St.setInode, upd_self] at hi
  · split
    · exact inv_panic h
    · rename_i ht
      exact inv_locked h hp rfl rfl rfl rfl ⟨rfl, ht, ht, rfl⟩

section
variable (hp : s.pc p = .idle)
include hp

theorem inv_iunlock (hl : (s.inode ip).lock = some p) : Inv (s.setInode ip { s.inode ip with lock := none }) := by
  refine inv_stay hp (inv_entry h rfl (ref_of_lock (h.entry ip) hl) (by simp [Pc.On, hp]) (by simp [Pc.On]) trivial
    (entry_move (h.entry ip) (by rw [hp]) ?_ (fun q hq hok => ?_) (copy_turn (h.entry ip) (by simp [hp]) _)))
  · exact (procOk_clear (clear_of_slot (by simp))).mpr fun hlk => by cases hlk
  · exact procOk_other hok (by simp [hl, Ne.symm hq]) (fun _ => rfl) hok.used

theorem inv_write (hl : (s.inode ip).lock = some p) {d : Dinode} (hd : d.type ≠ 0) :
    Inv (s.setInode ip { s.inode ip with toDinode := d }) := by
  obtain ⟨-, -, hc⟩ := holds_idle h hp hl
  exact inv_stay hp (inv_entry h rfl (ref_of_lock (h.entry ip) hl) (by simp [Pc.On, hp]) (by simp [Pc.On]) trivial
    (entry_move (h.entry ip) (by rw [hp]) (proc_at h hp ip) (fun _ _ => id) fun _ _ =>
      .inl ⟨hc.current, hc.onDisk, hd, hc.locked⟩))

theorem inv_iupdate (hl : (s.inode ip).lock = some p) : Inv (store s ip) := by
  obtain ⟨-, -, hc⟩ := holds_idle h hp hl
  have he : EntryOk (s.inode ip) (s.live ip) (s.allocs (s.inode ip).ino) (s.inode ip).toDinode
    (s.fresh (s.inode ip).ino)
      (upd s.pc p .idle) ip :=
    entry_move (h.entry ip) (by rw [hp]) (proc_at h hp ip) (fun _ _ => id)
      fun _ _ => .inl ⟨hc.current, hc.typed, hc.typed, hc.locked⟩
  have hi := inv_put h (x := .idle) (other_ino h (ref_of_lock (h.entry ip) hl) rfl) (by simp [Pc.On, hp])
    (by simp [Pc.On]) trivial he
    fun a ha => absurd (hc.locked.symm.trans ha) (by simp)
  unfold St.put at hi
  rw [upd_self, upd_self, upd_self] at hi
  exact inv_stay hp hi

/-! ## iput -/

theorem inv_iput (hl : 1 ≤ s.live ip) (hu : s.live ip = 1 → ∀ q, ¬ Uses s q ip) :
    Inv { s.setPc p (.iput ip) with live := upd s.live ip (s.live ip - 1) } := by
  have hused : ∀ q, Uses s q ip → 1 ≤ s.live ip - 1 := by
    intro q hq
    have hne : s.live ip ≠ 1 := fun e => hu e q hq
    omega
  have he : EntryOk (s.inode ip) (s.live ip - 1) (s.allocs (s.inode ip).ino) (s.disk (s.inode ip).ino)
    (s.fresh (s.inode ip).ino)
      (upd s.pc p (.iput ip)) ip :=
    entry_move (h.entry ip) ?_ ?_ (fun q _ hok => procOk_other hok .rfl (fun _ => rfl) (hused q))
      (copy_turn (h.entry ip) (by simp [hp]) _)
  · have hi := inv_turn h (x := .iput ip) rfl (ref_of_live h hl) (by simp [Pc.On, hp]) (by simp [Pc.On]) trivial he
    rw [upd_self] at hi
    exact hi
  · have e1 : putting ip (s.pc p) = 0 := by rw [hp]; rfl
    have e2 : putting ip (.iput ip) = 1 := if_pos rfl
    omega
  · exact (procOk_clear ⟨by simp, by simp, by simp, by simp, rfl⟩).mpr fun hlk =>
      ⟨hused p (.inr ⟨hlk, by simp [hp]⟩), (holds_idle h hp hlk).2.1⟩

end

theorem inv_drop (hp : s.pc p = .iput ip ∨ s.pc p = .idrop ip) : Inv (drop s p ip) := by
  have hat : (s.pc p).puts = some ip ∧ (s.pc p).Clear ip ∧ s.pc p ≠ .ivalid ip ∧ (s.pc p).On ip := by
    rcases hp with hp | hp <;> rw [hp] <;>
      exact ⟨rfl, ⟨by simp, by simp, by simp, by simp, rfl⟩, by simp, by simp [Pc.On]⟩
  have href : 0 < (s.inode ip).ref := ref_of_puts (h.entry ip) hat.1
  refine inv_entry h rfl href hat.2.2.2 (by simp [Pc.On]) trivial
    (entry_move (h.entry ip) ?_ ?_ (fun _ _ => id) fun _ hv => ?_)
  · have e1 : putting ip (s.pc p) = 1 := if_pos hat.1
    have e2 : putting ip .idle = 0 := rfl
    show (s.inode ip).ref - 1 + _ + _ = _
    omega
  · exact (procOk_clear (clear_of_slot (by simp))).mpr ((procOk_clear hat.2.1).mp ((h.entry ip).proc p))
  · exact copy_turn (h.entry ip) hat.2.2.1 .idle href hv

theorem inv_start (hp : s.pc p = .iput ip) (hlk : (s.inode ip).lock = none) (hv : (s.inode ip).valid = true) :
    Inv ((s.setInode ip { s.inode ip with lock := some p }).setPc p (.itrunc ip)) := by
  refine inv_entry h rfl (ref_of_puts (h.entry ip) (q := p) (by rw [hp]; rfl)) (by simp [Pc.On, hp])
    (by simp [Pc.On]) trivial
    (entry_move (h.entry ip) (by rw [hp]; rfl) ?_ (fun q hq hok => ?_) (copy_turn (h.entry ip) (by simp [hp]) _))
  · exact (procOk_frees rfl).mpr ⟨rfl, fun _ => hv⟩
  · exact procOk_other hok (by simp [hlk, Ne.symm hq]) (fun _ => rfl) hok.used

/-- The two `iupdate`s of `iput`: before the second the inode keeps its type. -/
theorem inv_store {e : Inode P} (hp : s.pc p = .itrunc ip ∨ s.pc p = .ifree ip) (hx : x = .ifree ip ∨ x = .ivalid ip)
    (hino : e.ino = s.ino ip) (href : e.ref = (s.inode ip).ref) (hlock : e.lock = (s.inode ip).lock)
    (hvalid : e.valid = (s.inode ip).valid) (hread : e.readAt = (s.inode ip).readAt)
    (htype : x = .ivalid ip ∨ e.type = (s.inode ip).type) : Inv ((store (s.setInode ip e) ip).setPc p x) := by
  have hat : (s.pc p).puts = some ip ∧ (s.pc p).frees = some ip ∧ (s.pc p).keeps = some ip ∧
      s.pc p ≠ .ivalid ip ∧ (s.pc p).On ip := by
    rcases hp with hp | hp <;> rw [hp] <;> exact ⟨rfl, rfl, rfl, by simp, by simp [Pc.On]⟩
  have hxs : x.puts = some ip ∧ x.frees = some ip ∧ x.On ip ∧ Pending s.allocs x := by
    rcases hx with hx | hx <;> rw [hx] <;> exact ⟨rfl, rfl, by simp [Pc.On], trivial⟩
  obtain ⟨hl, hv⟩ := (procOk_frees hat.2.1).mp ((h.entry ip).proc p)
  have hc := copy_locked h hl hat.2.2.2.1 (hv hat.2.2.1)
  have he : EntryOk e (s.live ip) (s.allocs e.ino) e.toDinode (s.fresh e.ino) (upd s.pc p x) ip := by
    rw [hino]
    refine entry_move (h.entry ip) ?_ ?_ (fun q _ hok => by rw [hlock, hvalid]; exact hok) fun _ _ => ?_
    · unfold putting
      rw [if_pos hat.1, if_pos hxs.1, href]
    · exact (procOk_frees hxs.2.1).mpr ⟨hlock.trans hl, fun _ => hvalid.trans (hv hat.2.2.1)⟩
    · rcases htype with ht | ht
      · exact .inr ⟨p, by rw [upd_same, ht]⟩
      · have hty : e.type ≠ 0 := by rw [ht]; exact hc.typed
        exact .inl ⟨hread.trans hc.current, hty, hty, hc.locked⟩
  have hi := inv_put h (other_ino h (ref_of_lock (h.entry ip) hl) hino) hat.2.2.2.2 hxs.2.2.1 hxs.2.2.2 he
    fun a ha => by rw [hino, hc.locked] at ha; cases ha
  unfold St.put at hi
  rw [upd_self, upd_self] at hi
  have he' : (s.setInode ip e).inode ip = e := upd_same _ _ _
  unfold store St.ino
  rw [he']
  exact hi

theorem inv_ivalid (hp : s.pc p = .ivalid ip) :
    Inv ((s.setInode ip { s.inode ip with valid := false }).setPc p (.irelease ip)) := by
  obtain ⟨hl, -⟩ := (procOk_frees rfl).mp (proc_at h hp ip)
  refine inv_entry h rfl (ref_of_lock (h.entry ip) hl) (by simp [Pc.On, hp]) (by simp [Pc.On]) trivial
    (entry_move (h.entry ip) (by rw [hp]; rfl) ?_ (fun q hq hok => ?_) fun _ hv => by cases hv)
  · exact (procOk_frees rfl).mpr ⟨hl, fun hk => by cases hk⟩
  · exact procOk_other hok .rfl (fun hq' => absurd (Option.some.inj (hq'.symm.trans hl)) hq) hok.used

theorem inv_irelease (hp : s.pc p = .irelease ip) :
    Inv ((s.setInode ip { s.inode ip with lock := none }).setPc p (.idrop ip)) := by
  obtain ⟨hl, -⟩ := (procOk_frees rfl).mp (proc_at h hp ip)
  refine inv_entry h rfl (ref_of_lock (h.entry ip) hl) (by simp [Pc.On, hp]) (by simp [Pc.On]) trivial
    (entry_move (h.entry ip) (by rw [hp]; rfl) ?_ (fun q hq hok => ?_) (copy_turn (h.entry ip) (by simp [hp]) _))
  · exact (procOk_clear ⟨by simp, by simp, by simp, by simp, rfl⟩).mpr fun hlk => by cases hlk
  · exact procOk_other hok (by simp [hl, Ne.symm hq]) (fun _ => rfl) hok.used

/-! ## iget -/

/-- A process that goes on to `x` with a new reference to the entry, and does nothing with it yet. -/
structure Gets (allocs : Ino → Nat) (t : Ino) (ip : Slot) (x : Pc) : Prop where
  on : x.On ip
  pending : Pending allocs x
  puts : putting ip x = 0
  frees : x.frees ≠ some ip
  reads : x.reads ≠ some ip
  keeps : x.keeps ≠ some ip
  alloc : ∀ a, x.takes ip = some a → a.nth ≤ allocs t

omit h [DecidableEq P] [Fintype P] in
theorem gets_proc {lock : Option P} {valid : Bool} {live : Nat} {t : Ino} {allocs : Ino → Nat} (hx : Gets allocs t ip x)
    (hlive : 1 ≤ live) (hv : lock = some p → valid = true) : ProcOk lock valid live (allocs t) ip p x :=
  ⟨fun _ => hlive, fun hu => (hu.elim hx.frees hx.reads).elim, fun hl => .inr (.inr (hv hl)),
    fun hk => absurd hk hx.keeps, hx.alloc⟩

theorem inv_idup (href : 0 < s.ref ip) (hwas : (s.pc p).slot = none) (hx : Gets s.allocs (s.ino ip) ip x) :
    Inv ((idup s ip).setPc p x) := by
  have haway : (s.pc p).slot ≠ some ip := by rw [hwas]; simp
  refine inv_turn h rfl href (on_of_slot hwas) hx.on hx.pending (entry_move (h.entry ip) ?_
    (gets_proc hx (Nat.le_add_left 1 _) fun hl => ?_)
    (fun q _ hok => procOk_other hok .rfl (fun _ => rfl) fun hu => Nat.le_succ_of_le (hok.used hu)) fun _ hv => ?_)
  · rw [putting_of_slot haway, hx.puts]
    show (s.inode ip).ref + 1 + _ = _ + (_ + 1)
    omega
  · exact ((procOk_clear (clear_of_slot haway)).mp ((h.entry ip).proc p) hl).2
  · refine copy_turn (h.entry ip) (fun e => ?_) x href hv
    rw [e] at hwas
    cases hwas

/-- An entry without references is taken for an inode that has none. -/
theorem inv_recycle (hr : s.ref ip = 0) (hnew : ∀ j, 0 < s.ref j → s.ino j ≠ (dev, inum)) (hwas : (s.pc p).slot = none)
    (hx : Gets s.allocs (dev, inum) ip x) : Inv ((recycle s ip dev inum).setPc p x) := by
  obtain ⟨hlive, haway, hlock, htot⟩ := unused_entry h hr
  have he : EntryOk { s.inode ip with dev := dev, inum := inum, ref := 1, valid := false }
    (s.live ip + 1) (s.allocs (dev, inum))
      (s.disk (dev, inum)) (s.fresh (dev, inum)) (upd s.pc p x) ip := by
    refine ⟨?_, upd_forall (gets_proc hx (Nat.le_add_left 1 _) fun hl => ?_) fun q _ => ?_, fun _ hv => by cases hv⟩
    · have ht := total_upd (putting ip) s.pc p x
      have e1 := putting_of_slot (haway p)
      have e2 := hx.puts
      show 1 = _
      omega
    · exact absurd (hlock.symm.trans hl) (by simp)
    · exact (procOk_clear (clear_of_slot (haway q))).mpr fun hl => absurd (hlock.symm.trans hl) (by simp)
  have hi := inv_put h (e := { s.inode ip with dev := dev, inum := inum, ref := 1, valid := false })
    (fun j _ hj => hnew j hj)
    (on_of_slot hwas) hx.on hx.pending he (h.fresh (dev, inum))
  simp only [St.put, Inode.ino, upd_self] at hi
  exact hi

/-- `iget`, by a process that goes on to `x ip` with the entry. -/
theorem inv_iget {s' : St P} {x : Slot → Pc} (hg : iget s dev inum = some (ip, s')) (hwas : (s.pc p).slot = none)
    (hx : Gets s.allocs (dev, inum) ip (x ip)) : Inv (s'.setPc p (x ip)) := by
  unfold iget at hg
  split at hg
  · rename_i i hf
    have hok := (first_some hf).1
    simp only [decide_eq_true_eq] at hok
    cases hg
    exact inv_idup h hok.1 hwas (by rw [hok.2]; exact hx)
  · rename_i hnone
    split at hg
    · rename_i i hf
      have hok := (first_some hf).1
      simp only [decide_eq_true_eq] at hok
      cases hg
      refine inv_recycle h hok (fun j hj e => ?_) hwas hx
      have := first_none hnone j
      simp only [decide_eq_false_iff_not] at this
      exact this ⟨hj, e⟩
    · cases hg

/-! ## ialloc -/

/-- A free dinode is marked allocated: no copy of it is good, so that all are old ones. -/
theorem inv_mark {t : Ino} (a : Alloc) (hfree : (s.disk t).type = 0) (ha : a.type ≠ 0) (hn : s.allocs t ≤ a.nth)
    (hwas : (s.pc p).slot = none) (hx : x.slot = none) (hpend : Pending (upd s.allocs t a.nth) x) : Inv { s with
      disk := upd s.disk t (Dinode.ofType a.type), allocs := upd s.allocs t a.nth, fresh := upd s.fresh t (some a),
      pc := upd s.pc p x } := by
  have hle : ∀ t', s.allocs t' ≤ upd s.allocs t a.nth t' :=
    upd_forall (Q := fun t' => (s.allocs t' ≤ ·)) hn fun t' _ => le_refl _
  refine ⟨h.unique, fun j => ?_, fun t' b hb => ?_, ?_⟩
  · refine entry_away ?_ (by rw [hwas]; simp) (by rw [hx]; simp)
    have he := h.entry j
    refine ⟨he.count, fun q => { he.proc q with alloc := fun b hb => ((he.proc q).alloc b hb).trans (hle _) },
      fun hr hv => ?_⟩
    by_cases e : s.ino j = t
    · exact .inr ((he.copy hr hv).resolve_left fun hc => hc.onDisk (by rw [e]; exact hfree))
    · show Good _ _ (upd s.allocs t a.nth (s.ino j)) (upd s.disk t _ (s.ino j)) (upd s.fresh t _ (s.ino j)) ∨ _
      rw [upd_ne _ _ e, upd_ne _ _ e, upd_ne _ _ e]
      exact he.copy hr hv
  · rcases upd_eq.mp hb with ⟨e, hb⟩ | ⟨e, hb⟩
    · cases hb
      rw [e]
      exact ⟨upd_same _ _ _, ha⟩
    · show upd s.disk t _ t' = _ ∧ _
      rw [upd_ne _ _ e]
      exact h.fresh t' b hb
  · exact upd_forall (Q := fun _ => Pending (upd s.allocs t a.nth)) hpend fun q _ => pending_mono hle (h.pending q)

/-! ## Every step -/

theorem inv_go (n : Nat) : Inv (go n s p (s.pc p)) := by
  cases hp : s.pc p with
  | idle => exact h
  | ialloc dev type inum =>
    have hwas : (s.pc p).slot = none := by rw [hp]; rfl
    have htype : type ≠ 0 := by have := h.pending p; rw [hp] at this; exact this
    simp only [go]
    split
    · split
      · rename_i hfree
        refine inv_mark h ⟨type, s.allocs (dev, inum) + 1⟩ hfree htype (Nat.le_succ _) hwas rfl ?_
        show _ ≤ upd s.allocs (dev, inum) _ (dev, inum)
        rw [upd_same]
      · exact inv_setPc h hwas rfl htype
    · exact inv_setPc h hwas rfl trivial
  | iallocGet dev inum a =>
    have hwas : (s.pc p).slot = none := by rw [hp]; rfl
    have hn : a.nth ≤ s.allocs (dev, inum) := by have := h.pending p; rw [hp] at this; exact this
    simp only [go]
    split
    · rename_i ip s' hg
      refine inv_iget h (x := fun ip => .alloced ip a) hg hwas ⟨by simp [Pc.On], trivial,
        rfl, by simp, by simp, by simp, fun b hb => ?_⟩
      have hb' : a = b := by simpa using hb
      rwa [← hb']
    · exact inv_panic h
  | alloced ip a =>
    have hok := proc_at h hp ip
    refine inv_ilock h (.inr ⟨a, hp⟩) (hok.used (.inl rfl)) fun b hb => ?_
    cases hb
    exact hok.alloc a (by simp)
  | ilock ip a =>
    simp only [go]
    split
    · exact inv_acquire h hp ‹_›
    · exact h
  | ilockRead ip a => exact inv_ilockRead h hp n
  | iput ip =>
    simp only [go]
    split
    · rename_i hf
      unfold St.freeable at hf
      simp only [Bool.and_eq_true, decide_eq_true_eq] at hf
      split
      · exact inv_start h hp ‹_› hf.1.2
      · exact inv_panic h
    · exact inv_drop h (.inl hp)
  | itrunc ip => exact inv_store h (.inl hp) (.inl rfl) rfl rfl rfl rfl rfl (.inr rfl)
  | ifree ip => exact inv_store h (.inr hp) (.inr rfl) rfl rfl rfl rfl rfl (.inl rfl)
  | ivalid ip => exact inv_ivalid h hp
  | irelease ip => exact inv_irelease h hp
  | idrop ip => exact inv_drop h (.inr hp)

theorem inv_call {e : Ev P} (hp : s.pc e.by = .idle) (hu : Meets s e) : Inv (call s e) := by
  have hwas : (s.pc e.by).slot = none := by rw [hp]; rfl
  have hgets : ∀ t ip, Gets s.allocs t ip .idle :=
    fun t ip => ⟨by simp [Pc.On], trivial, rfl, by simp, by simp, by simp, fun a ha => by cases ha⟩
  cases e with
  | iget p dev inum =>
    simp only [call]
    split
    · rename_i ip s' hg
      exact inv_stay (by rw [(iget_leaves hg).2.1]; exact hp) (inv_iget h (x := fun _ => .idle) hg hwas (hgets _ ip))
    · exact inv_panic h
  | idup p ip => exact inv_stay hp (inv_idup h (ref_of_live h hu) hwas (hgets _ ip))
  | ilock p ip => exact inv_ilock h (.inl hp) hu fun b hb => by cases hb
  | iunlock p ip =>
    simp only [call]
    split
    · exact inv_panic h
    · rename_i hl
      exact inv_iunlock h hp (by by_contra hne; exact hl (.inl hne))
  | iput p ip => exact inv_iput h hp hu.1 hu.2
  | ialloc p dev type => exact inv_setPc h hwas rfl hu
  | write p ip d => exact inv_write h hp hu.1 hu.2
  | iupdate p ip => exact inv_iupdate h hp hu
  | go p => exact h

end

variable [Fintype P]

theorem inv_step {n : Nat} {s : St P} {e : Ev P} (hu : Meets s e) (h : Inv s) : Inv (step n s e) := by
  unfold step
  split
  · exact h
  · split
    · exact inv_go h n
    · split
      · exact inv_call h ‹_› hu
      · exact h

omit [DecidableEq P] in
theorem inv_iinit (disk : Ino → Dinode) : Inv (iinit disk : St P) := by
  refine ⟨(fun i j hi => by cases hi), fun i => ⟨?_, fun q => ?_, fun hr => by cases hr⟩,
    (fun t a ht => by cases ht), fun q => trivial⟩
  · have ht : total (putting i) (iinit disk : St P).pc = 0 := total_eq_zero.mpr fun q => rfl
    rw [ht]
    rfl
  · exact (procOk_clear (clear_of_slot (by simp [iinit]))).mpr fun hl => by cases hl

/-! ## Runs -/

/-- What an interleaving keeps to. -/
structure Safe (n : Nat) (s : St P) : Prop where
  /-- An inode has one entry. -/
  unique : ∀ i j, 0 < s.ref i → 0 < s.ref j → s.ino i = s.ino j → i = j
  /-- An entry in use keeps its inode. -/
  steady : ∀ e i, 0 < s.ref i → (step n s e).ino i = s.ino i
  /-- `iput` starts to free an inode only on the last reference, which is the caller's. -/
  last : ∀ e p ip, s.pc p ≠ .itrunc ip → (step n s e).pc p = .itrunc ip →
    s.pc p = .iput ip ∧ (s.inode ip).ref = 1 ∧ (s.inode ip).valid = true ∧ (s.inode ip).nlink = 0 ∧
    s.live ip = 0 ∧ (∀ q, q ≠ p → (s.pc q).puts ≠ some ip) ∧ ∀ q, ¬ Uses s q ip
  /-- Its `acquiresleep` does not sleep. -/
  awake : ∀ p ip, s.pc p = .iput ip → s.freeable ip = true → (s.inode ip).lock = none
  /-- The `ilock` of an inode from `ialloc` returns with a copy that was read since, and with
      what `ialloc` wrote if it is
      the first to return. -/
  news : ∀ p ip a, s.panicked = false → s.pc p = .ilockRead ip (some a) →
    ((step n s (.go p)).panicked = false →
      ((step n s (.go p)).inode ip).valid = true ∧ a.nth ≤ ((step n s (.go p)).inode ip).readAt) ∧
    (s.fresh (s.ino ip) = some a →
      (step n s (.go p)).panicked = false ∧ ((step n s (.go p)).inode ip).toDinode = Dinode.ofType a.type)

theorem safe_of_inv {n : Nat} {s : St P} (h : Inv s) : Safe n s := by
  have hfree : ∀ {ip}, s.freeable ip = true → (s.inode ip).ref = 1 ∧ (s.inode ip).valid = true ∧
      (s.inode ip).nlink = 0 := by
    intro ip hf
    unfold St.freeable at hf
    simp only [Bool.and_eq_true, decide_eq_true_eq] at hf
    exact ⟨hf.1.1, hf.1.2, hf.2⟩
  refine ⟨h.unique, fun e i hi => ino_step e hi, fun e p ip hne hs => ?_, fun p ip hp hf => ?_,
    fun p ip a hrun hp => ?_⟩
  · obtain ⟨hp, hf⟩ := starts_freeing hne hs
    obtain ⟨h1, h2, h3⟩ := hfree hf
    obtain ⟨l1, l2, l3, -⟩ := last_reference h hp h1
    exact ⟨hp, h1, h2, h3, l1, l2, l3⟩
  · exact (last_reference h hp (hfree hf).1).2.2.2
  · have hl : (s.inode ip).lock = some p := (proc_at h hp ip).locked (.inr rfl)
    have hn : a.nth ≤ s.allocs (s.ino ip) := (proc_at h hp ip).alloc a (by simp)
    have hstep : step n s (.go p) = go n s p (.ilockRead ip (some a)) := by
      rw [← hp]
      unfold step
      rw [hrun]
      rfl
    rw [hstep]
    simp only [go]
    by_cases hv : (s.inode ip).valid = true
    · -- a copy that is valid was read since, by a process whose `ilock` has returned
      obtain ⟨h1, -, -, h4⟩ := copy_locked h hl (by simp [hp]) hv
      rw [if_pos hv]
      refine ⟨fun _ => ⟨hv, ?_⟩, fun hfr => ?_⟩
      · show a.nth ≤ (s.inode ip).readAt
        rw [h1]
        exact hn
      · rw [h4] at hfr; cases hfr
    · rw [if_neg hv]
      by_cases ht : (s.disk (s.ino ip)).type = 0
      · rw [if_pos ht]
        refine ⟨(fun hpan => by cases hpan), fun hfr => ?_⟩
        obtain ⟨hd, hty⟩ := h.fresh _ a hfr
        rw [hd] at ht
        exact absurd ht hty
      · rw [if_neg ht]
        have he : (locked (s.setInode ip { s.inode ip with
            toDinode := s.disk (s.ino ip), valid := true, readAt := s.allocs (s.ino ip) }) p ip).inode ip =
            { s.inode ip with toDinode := s.disk (s.ino ip), valid := true, readAt := s.allocs (s.ino ip) } :=
              upd_same _ _ _
        rw [he]
        exact ⟨fun _ => ⟨rfl, hn⟩, fun hfr => ⟨hrun, (h.fresh _ a hfr).1⟩⟩

/-- Any number of processes, in any interleaving and from any disk. -/
theorem itable_safe (ninodes : Nat) (disk : Ino → Dinode) (es : List (Ev P))
    (hu : Along (step ninodes) Meets (iinit disk) es) : Safe ninodes (run (step ninodes) (iinit disk) es) :=
  safe_of_inv (run_inv (fun _ _ hu h => inv_step hu h) es hu (inv_iinit disk))

/-- A directory and a file without links. -/
def twoInodes : Ino → Dinode := fun t =>
  if t = (1, 1) then { Dinode.ofType 1 with nlink := 1 } else if t = (1, 2) then Dinode.ofType 2 else Dinode.blank

/-- Process 0 frees inode 2; before it has cleared `valid`, process 1 allocates the inode again,
    gets the same entry and waits for its lock. Then process 0 is done and process 1 has the lock. -/
def reallocated : List (Ev (Fin 6)) :=
  [.iget 0 1 2, .ilock 0 Idx.zero, .go 0, .go 0, .iunlock 0 Idx.zero,
   .iput 0 Idx.zero, .go 0, .go 0, .go 0,
   .ialloc 1 1 3, .go 1, .go 1, .go 1, .go 1, .go 1,
   .go 0, .go 0, .go 0, .go 1]

theorem itable_safe_reallocated : Along (step 3) Meets (iinit twoInodes) reallocated ∧
    Safe 3 (run (step 3) (iinit twoInodes) reallocated) := by
  have hu : Along (step 3) Meets (iinit twoInodes) reallocated := by decide +kernel
  exact ⟨hu, itable_safe 3 twoInodes reallocated hu⟩

/-- At its end process 1 is about to read what `ialloc` wrote. -/
example : (run (step 3) (iinit twoInodes) reallocated).pc 1 = .ilockRead Idx.zero (some ⟨3, 1⟩) ∧
    (run (step 3) (iinit twoInodes) reallocated).fresh (1, 2) = some ⟨3, 1⟩ := by
  decide +kernel

end Xv6.Itable
