/-
  Xv6.Itable.Entry — an entry of the inode table and the processes that are at it: what holds
  in every interleaving (`Inv`), and what a step that changes one entry has to show
  (`inv_put`, `inv_turn`).
-/

import Xv6.Itable.Itable
import Xv6.Lib.Count

namespace Xv6.Itable

open Lib Fs

variable {P : Type} [DecidableEq P]

/-! ## Where a process is -/

attribute [simp] Pc.locks Pc.frees

/-- The entry that a call of `iput` gives up a reference to. -/
@[simp]
def Pc.puts : Pc → Option Slot
  | .iput ip | .itrunc ip | .ifree ip | .ivalid ip | .irelease ip | .idrop ip => some ip
  | _ => none

@[simp]
def Pc.reads : Pc → Option Slot
  | .ilockRead ip _ => some ip
  | _ => none

@[simp]
def Pc.keeps : Pc → Option Slot
  | .itrunc ip | .ifree ip | .ivalid ip => some ip
  | _ => none

/-- The allocation that a process is going to lock in entry `ip`. -/
@[simp]
def Pc.takes (ip : Slot) : Pc → Option Alloc
  | .alloced ip' a => if ip' = ip then some a else none
  | .ilock ip' a => if ip' = ip then a else none
  | .ilockRead ip' a => if ip' = ip then a else none
  | _ => none

@[simp]
def Pc.slot : Pc → Option Slot
  | .idle | .ialloc _ _ _ | .iallocGet _ _ _ => none
  | .alloced ip _ | .ilock ip _ | .ilockRead ip _ | .iput ip | .itrunc ip | .ifree ip | .ivalid ip |
    .irelease ip | .idrop ip =>
    some ip

/-- The process is at no other entry. -/
def Pc.On (x : Pc) (ip : Slot) : Prop := ∀ j, x.slot = some j → j = ip

/-- The process neither locks the entry nor frees the inode. -/
structure Pc.Clear (x : Pc) (i : Slot) : Prop where
  locks : x.locks ≠ some i
  frees : x.frees ≠ some i
  reads : x.reads ≠ some i
  keeps : x.keeps ≠ some i
  takes : x.takes i = none

/-- A call of `iput` on entry `i`. -/
def putting (i : Slot) (x : Pc) : Nat := if x.puts = some i then 1 else 0

section
variable {x : Pc} {i : Slot}

theorem clear_of_slot (h : x.slot ≠ some i) : x.Clear i := by
  constructor <;> cases x <;> simp_all

theorem putting_of_slot (h : x.slot ≠ some i) : putting i x = 0 := by
  cases x <;> simp_all [putting]

theorem on_of_slot (h : x.slot = none) : x.On i := fun j hj => by rw [h] at hj; cases hj

theorem puts_of_frees (hx : x.frees = some i) : x.puts = some i := by
  cases x <;> simp_all

theorem frees_of_keeps (hx : x.keeps = some i) : x.frees = some i := by
  cases x <;> simp_all

end

/-! ## The invariant -/

/-- What holds between the entry `i`, with its lock, and a process `q` that is at `x`. -/
@[mk_iff]
structure ProcOk (lock : Option P) (valid : Bool) (live allocs : Nat) (i : Slot) (q : P) (x : Pc) : Prop where
  used : x.locks = some i ∨ (lock = some q ∧ x.frees ≠ some i) → 1 ≤ live
  locked : x.frees = some i ∨ x.reads = some i → lock = some q
  lockValid : lock = some q → x.frees = some i ∨ x.reads = some i ∨ valid = true
  freeing : x.keeps = some i → valid = true
  alloc : ∀ a, x.takes i = some a → a.nth ≤ allocs

/-- The copy of an inode that is allocated, read since and locked since. -/
structure Good (readAt : Nat) (type : Int16) (allocs : Nat) (disk : Dinode) (fresh : Option Alloc) : Prop where
  current : readAt = allocs
  onDisk : disk.type ≠ 0
  typed : type ≠ 0
  locked : fresh = none

variable [Fintype P]

structure EntryOk (e : Inode P) (live allocs : Nat) (disk : Dinode) (fresh : Option Alloc) (pc : P → Pc) (i : Slot) :
    Prop where
  count : e.ref = live + total (putting i) pc
  proc : ∀ q, ProcOk e.lock e.valid live allocs i q (pc q)
  -- between its last `iupdate` and `valid = 0`, `iput` leaves an old copy
  copy : 0 < e.ref → e.valid = true → Good e.readAt e.type allocs disk fresh ∨ ∃ q, pc q = .ivalid i

/-- What holds of the calls of `ialloc`. -/
def Pending (allocs : Ino → Nat) : Pc → Prop
  | .ialloc _ type _ => type ≠ 0
  | .iallocGet dev inum a => a.nth ≤ allocs (dev, inum)
  | _ => True

structure Inv (s : St P) : Prop where
  unique : ∀ i j, 0 < s.ref i → 0 < s.ref j → s.ino i = s.ino j → i = j
  entry : ∀ i, EntryOk (s.inode i) (s.live i) (s.allocs (s.ino i)) (s.disk (s.ino i)) (s.fresh (s.ino i)) s.pc i
  fresh : ∀ t a, s.fresh t = some a → s.disk t = Dinode.ofType a.type ∧ a.type ≠ 0
  pending : ∀ q, Pending s.allocs (s.pc q)

section
omit [DecidableEq P] [Fintype P]
variable {lock lock' : Option P} {valid valid' : Bool} {live live' allocs : Nat} {i : Slot} {q : P} {x : Pc}

theorem procOk_clear (hx : x.Clear i) :
    ProcOk lock valid live allocs i q x ↔ (lock = some q → 1 ≤ live ∧ valid = true) := by
  refine ⟨fun h hl => ⟨h.used (.inr ⟨hl, hx.frees⟩), ?_⟩,
    fun h => ⟨fun hu => ?_, fun hu => ?_, fun hl => .inr (.inr (h hl).2),
    fun hk => absurd hk hx.keeps, fun a ha => by rw [hx.takes] at ha; cases ha⟩⟩
  · exact ((h.lockValid hl).resolve_left hx.frees).resolve_left hx.reads
  · exact (h (hu.resolve_left hx.locks).1).1
  · exact (hu.elim hx.frees hx.reads).elim

theorem procOk_frees (hx : x.frees = some i) :
    ProcOk lock valid live allocs i q x ↔ lock = some q ∧ (x.keeps = some i → valid = true) := by
  cases x <;> simp_all [procOk_iff]

/-- Another process, which neither gets nor loses the lock. -/
theorem procOk_other (h : ProcOk lock valid live allocs i q x) (hlock : lock' = some q ↔ lock = some q)
    (hvalid : lock = some q → valid' = valid)
    (hlive : x.locks = some i ∨ (lock = some q ∧ x.frees ≠ some i) → 1 ≤ live') :
    ProcOk lock' valid' live' allocs i q x := by
  refine ⟨?_, fun hx => hlock.mpr (h.locked hx), fun hl => ?_, fun hx => ?_, h.alloc⟩
  · rwa [hlock]
  · rw [hvalid (hlock.mp hl)]
    exact h.lockValid (hlock.mp hl)
  · rw [hvalid (h.locked (.inl (frees_of_keeps hx)))]
    exact h.freeing hx

theorem pending_mono {allocs allocs' : Ino → Nat} (hle : ∀ t, allocs t ≤ allocs' t) (hx : Pending allocs x) :
    Pending allocs' x := by
  cases x with
  | ialloc dev type inum => exact hx
  | iallocGet dev inum a => exact Nat.le_trans hx (hle _)
  | _ => trivial

end

section
variable {e : Inode P} {live allocs : Nat} {disk : Dinode} {fresh : Option Alloc} {pc : P → Pc} {i : Slot}
  (h : EntryOk e live allocs disk fresh pc i)
include h

section
omit [DecidableEq P]
variable {q : P}

theorem ref_of_used (hq : (pc q).locks = some i ∨ (e.lock = some q ∧ (pc q).frees ≠ some i)) : 0 < e.ref := by
  have := (h.proc q).used hq
  have := h.count
  omega

theorem ref_of_puts (hq : (pc q).puts = some i) : 0 < e.ref := by
  have h1 := le_total (putting i) pc q
  have h2 := h.count
  have h3 : putting i (pc q) = 1 := if_pos hq
  omega

/-- Who holds the lock of an entry has a reference. -/
theorem ref_of_lock (hq : e.lock = some q) : 0 < e.ref := by
  by_cases hf : (pc q).frees = some i
  · exact ref_of_puts h (puts_of_frees hf)
  · exact ref_of_used h (.inr ⟨hq, hf⟩)

/-- Only the disk changes, which matters to an entry in use only. -/
theorem entry_disk {disk' : Dinode} {fresh' : Option Alloc} (hd : 0 < e.ref → disk' = disk ∧ fresh' = fresh) :
    EntryOk e live allocs disk' fresh' pc i := by
  refine ⟨h.count, h.proc, fun hr hv => ?_⟩
  obtain ⟨e1, e2⟩ := hd hr
  rw [e1, e2]
  exact h.copy hr hv

end

/-- An old copy stays one while others go on. -/
theorem copy_turn {p : P} (hp : pc p ≠ .ivalid i) (x : Pc) (hr : 0 < e.ref) (hv : e.valid = true) :
    Good e.readAt e.type allocs disk fresh ∨ ∃ q, upd pc p x q = .ivalid i := by
  refine (h.copy hr hv).imp id fun ⟨q, hq⟩ => ⟨q, ?_⟩
  have hqp : q ≠ p := fun e => hp (e ▸ hq)
  rw [upd_ne _ _ hqp]
  exact hq

variable {e' : Inode P} {live' : Nat} {disk' : Dinode} {fresh' : Option Alloc} {p : P} {x : Pc}

/-- The entry `e` becomes `e'` and process `p` goes on to `x`. -/
theorem entry_move (hcount : e'.ref + live + putting i (pc p) = e.ref + live' + putting i x)
    (hproc : ProcOk e'.lock e'.valid live' allocs i p x)
    (hothers : ∀ q, q ≠ p → ProcOk e.lock e.valid live allocs i q (pc q) →
      ProcOk e'.lock e'.valid live' allocs i q (pc q))
    (hcopy : 0 < e'.ref → e'.valid = true → Good e'.readAt e'.type allocs disk' fresh' ∨
      ∃ q, upd pc p x q = .ivalid i) :
    EntryOk e' live' allocs disk' fresh' (upd pc p x) i := by
  refine ⟨?_, upd_forall hproc fun q hq => hothers q hq (h.proc q), hcopy⟩
  have h1 := total_upd (putting i) pc p x
  have h2 := h.count
  omega

/-- A process goes on that is at other entries. -/
theorem entry_away (h1 : (pc p).slot ≠ some i) (h2 : x.slot ≠ some i) :
    EntryOk e live allocs disk fresh (upd pc p x) i := by
  refine entry_move h ?_ ?_ (fun _ _ => id) (copy_turn h (fun e => h1 (by rw [e]; rfl)) x)
  · rw [putting_of_slot h1, putting_of_slot h2]
  · exact (procOk_clear (clear_of_slot h2)).mpr ((procOk_clear (clear_of_slot h1)).mp (h.proc p))

end

/-! ## Steps on one entry -/

def St.put (s : St P) (p : P) (ip : Slot) (e : Inode P) (live : Nat) (disk : Dinode) (fresh : Option Alloc)
    (x : Pc) : St P :=
  { s with
    inode := upd s.inode ip e
    live := upd s.live ip live
    disk := upd s.disk e.ino disk
    fresh := upd s.fresh e.ino fresh
    pc := upd s.pc p x }

section
variable {s : St P} (h : Inv s) {p : P} {ip : Slot} {x : Pc} {e : Inode P} {live : Nat}
include h

section
omit [DecidableEq P]

theorem inv_panic : Inv s.panic := ⟨h.unique, h.entry, h.fresh, h.pending⟩

/-- Another entry in use has another inode. -/
theorem other_ino (href : 0 < s.ref ip) {e : Inode P} (hino : e.ino = s.ino ip) :
    ∀ j, j ≠ ip → 0 < s.ref j → s.ino j ≠ e.ino :=
  fun j hj hr he => hj (h.unique j ip hr href (he.trans hino))

theorem ref_of_live (hl : 1 ≤ s.live ip) : 0 < s.ref ip := by
  have := (h.entry ip).count
  unfold St.ref
  omega

/-- What holds of the process at `x` and the entry. -/
theorem proc_at (hp : s.pc p = x) (ip : Slot) :
    ProcOk (s.inode ip).lock (s.inode ip).valid (s.live ip) (s.allocs (s.ino ip)) ip p x := hp ▸ (h.entry ip).proc p

/-- Who holds the lock, and does not free the inode, has a good copy. -/
theorem copy_locked (hl : (s.inode ip).lock = some p) (hp : s.pc p ≠ .ivalid ip) (hv : (s.inode ip).valid = true) :
    Good (s.inode ip).readAt (s.inode ip).type (s.allocs (s.ino ip)) (s.disk (s.ino ip)) (s.fresh (s.ino ip)) := by
  refine ((h.entry ip).copy (ref_of_lock (h.entry ip) hl) hv).resolve_right fun ⟨q, hq⟩ => ?_
  have hlq := (proc_at h hq ip).locked (.inl rfl)
  rw [hl] at hlq
  cases hlq
  exact hp hq

/-- Between two calls, who has locked an entry has a reference to it and a good copy. -/
theorem holds_idle (hp : s.pc p = .idle) (hl : (s.inode ip).lock = some p) :
    1 ≤ s.live ip ∧ (s.inode ip).valid = true ∧
      Good (s.inode ip).readAt (s.inode ip).type (s.allocs (s.ino ip)) (s.disk (s.ino ip)) (s.fresh (s.ino ip)) := by
  obtain ⟨h1, h2⟩ := (procOk_clear (clear_of_slot (by simp))).mp (proc_at h hp ip) hl
  exact ⟨h1, h2, copy_locked h hl (by rw [hp]; simp) h2⟩

/-- An entry without references is free. -/
theorem unused_entry (hr : s.ref ip = 0) :
    s.live ip = 0 ∧ (∀ q, (s.pc q).slot ≠ some ip) ∧ (s.inode ip).lock = none ∧ total (putting ip) s.pc = 0 := by
  have hr' : (s.inode ip).ref = 0 := hr
  have hc := (h.entry ip).count
  have hputs : ∀ q, (s.pc q).puts ≠ some ip := fun q hq => by have := ref_of_puts (h.entry ip) hq; omega
  have hlocks : ∀ q, (s.pc q).locks ≠ some ip := fun q hq => by have := ref_of_used (h.entry ip) (.inl hq); omega
  refine ⟨by omega, fun q hs => ?_, Option.eq_none_iff_forall_ne_some.mpr fun q hl => ?_, by omega⟩
  · have h1 := hputs q
    have h2 := hlocks q
    cases hq : s.pc q <;> rw [hq] at hs h1 h2 <;> simp_all
  · have := ref_of_lock (h.entry ip) hl
    omega

end

/-- An entry changes, and what the disk has of the inode that is in it then. -/
theorem inv_put {disk : Dinode} {fresh : Option Alloc} (hnew : ∀ j, j ≠ ip → 0 < s.ref j → s.ino j ≠ e.ino)
    (hwas : (s.pc p).On ip) (hx : x.On ip) (hpend : Pending s.allocs x)
    (he : EntryOk e live (s.allocs e.ino) disk fresh (upd s.pc p x) ip)
    (hf : ∀ a, fresh = some a → disk = Dinode.ofType a.type ∧ a.type ≠ 0) :
    Inv (s.put p ip e live disk fresh x) := by
  generalize hs' : s.put p ip e live disk fresh x = s'
  have e1 : s'.inode ip = e := by rw [← hs']; exact upd_same _ _ _
  have hino : s'.ino ip = e.ino := by unfold St.ino; rw [e1]
  have hold : ∀ j, j ≠ ip → s'.inode j = s.inode j := fun j hj => by rw [← hs']; exact upd_ne _ _ hj
  have hino' : ∀ j, j ≠ ip → s'.ino j = s.ino j := fun j hj => by unfold St.ino; rw [hold j hj]
  have href' : ∀ j, j ≠ ip → s'.ref j = s.ref j := fun j hj => by unfold St.ref; rw [hold j hj]
  refine ⟨fun i j hi hj heq => ?_, fun j => ?_, ?_, ?_⟩
  · by_cases ei : i = ip
    · by_contra hne
      have ej : j ≠ ip := fun ej => hne (ei.trans ej.symm)
      rw [ei, hino, hino' j ej] at heq
      exact hnew j ej (href' j ej ▸ hj) heq.symm
    · rw [hino' i ei] at heq
      rw [href' i ei] at hi
      by_cases ej : j = ip
      · rw [ej, hino] at heq
        exact absurd heq (hnew i ei hi)
      · rw [hino' j ej] at heq
        exact h.unique i j hi (href' j ej ▸ hj) heq
  · by_cases ej : j = ip
    · rw [ej, e1, hino, ← hs']
      simp only [St.put, upd_same]
      exact he
    · rw [hold j ej, hino' j ej, ← hs']
      simp only [St.put, upd_ne _ _ ej]
      refine entry_away ?_ (fun e => ej (hwas j e)) (fun e => ej (hx j e))
      -- an entry in use has another inode
      refine entry_disk (h.entry j) fun hr => ?_
      have hne := hnew j ej hr
      exact ⟨upd_ne _ _ hne, upd_ne _ _ hne⟩
  · rw [← hs']
    intro t a
    by_cases et : t = e.ino
    · simp only [St.put, et, upd_same]
      exact hf a
    · simp only [St.put, upd_ne _ _ et]
      exact h.fresh t a
  · rw [← hs']
    exact upd_forall (Q := fun _ => Pending s.allocs) hpend fun q _ => h.pending q

/-- An entry in use changes, and a process goes on. -/
theorem inv_turn (hino : e.ino = s.ino ip) (href : 0 < s.ref ip) (hwas : (s.pc p).On ip) (hx : x.On ip)
    (hpend : Pending s.allocs x)
    (he : EntryOk e live (s.allocs (s.ino ip)) (s.disk (s.ino ip)) (s.fresh (s.ino ip)) (upd s.pc p x) ip) :
    Inv { s with inode := upd s.inode ip e, live := upd s.live ip live, pc := upd s.pc p x } := by
  rw [← hino] at he
  have hi := inv_put h (other_ino h href hino) hwas hx hpend he (h.fresh e.ino)
  unfold St.put at hi
  rwa [upd_self, upd_self] at hi

/-- Nobody gets a reference or begins to give one up. -/
theorem inv_entry (hino : e.ino = s.ino ip) (href : 0 < s.ref ip) (hwas : (s.pc p).On ip) (hx : x.On ip)
    (hpend : Pending s.allocs x)
    (he : EntryOk e (s.live ip) (s.allocs (s.ino ip)) (s.disk (s.ino ip)) (s.fresh (s.ino ip)) (upd s.pc p x) ip) :
    Inv ((s.setInode ip e).setPc p x) := by
  have hi := inv_turn h hino href hwas hx hpend he
  rw [upd_self] at hi
  exact hi

omit h in
theorem inv_stay {s' : St P} (hpc : s'.pc p = x) (h : Inv (s'.setPc p x)) : Inv s' := by
  unfold St.setPc at h
  rwa [← hpc, upd_self] at h

/-- A process goes on that is at no entry. -/
theorem inv_setPc (hwas : (s.pc p).slot = none) (hx : x.slot = none) (hpend : Pending s.allocs x) : Inv (s.setPc p x) :=
  ⟨h.unique, fun j => entry_away (h.entry j) (by rw [hwas]; simp) (by rw [hx]; simp), h.fresh,
    upd_forall (Q := fun _ => Pending s.allocs) hpend fun q _ => h.pending q⟩

/-- On the last reference nobody uses the entry. -/
theorem last_reference (hp : s.pc p = .iput ip) (hr : (s.inode ip).ref = 1) :
    s.live ip = 0 ∧ (∀ q, q ≠ p → (s.pc q).puts ≠ some ip) ∧ (∀ q, ¬ Uses s q ip) ∧ (s.inode ip).lock = none := by
  have hc := (h.entry ip).count
  have hself : putting ip (s.pc p) = 1 := by rw [hp]; exact if_pos rfl
  have hle := le_total (putting ip) s.pc p
  have hlive : s.live ip = 0 := by omega
  have hothers : ∀ q, q ≠ p → (s.pc q).puts ≠ some ip := by
    intro q hq hput
    -- the calls without that of `p`
    have h1 := total_upd (putting ip) s.pc p .idle
    have h2 := le_total (putting ip) (upd s.pc p .idle) q
    rw [upd_ne _ _ hq] at h2
    have h3 : putting ip (s.pc q) = 1 := if_pos hput
    have h4 : putting ip .idle = 0 := rfl
    omega
  have huses : ∀ q, ¬ Uses s q ip := by
    intro q hq
    have := ((h.entry ip).proc q).used hq
    omega
  refine ⟨hlive, hothers, huses, Option.eq_none_iff_forall_ne_some.mpr fun q hl => huses q (.inr ⟨hl, fun hf => ?_⟩)⟩
  by_cases e : q = p
  · rw [e, hp] at hf; cases hf
  · exact hothers q e (puts_of_frees hf)

end

end Xv6.Itable
