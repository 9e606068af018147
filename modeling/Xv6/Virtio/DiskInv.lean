/-
  Xv6.Virtio.DiskInv — the invariant of the virtio disk driver: who owns which descriptor,
  where each published chain is on its way from the avail ring through the device and the
  used ring back to the driver, and what each buffer waits for; see `Xv6.Virtio.Disk`.
-/

import Xv6.Virtio.Disk
import Xv6.Lib.Pool

namespace Xv6.Virtio

open Lib Monitor

variable {B P : Type}

theorem num_dvd : NUM ∣ Fifo.values 16 := by decide

/-! ## Chains on their way -/

def availQ (d : Disk B) : List Nat := Fifo.queue num_pos d.availRing d.fetched d.availIdx

def usedQ (d : Disk B) : List Nat := Fifo.queue num_pos d.usedRing d.seen d.usedIdx

def inDevice (d : Disk B) : List Nat := availQ d ++ (d.working ++ (d.finished ++ d.entered.toList))

def flow (d : Disk B) : List Nat := inDevice d ++ usedQ d

def statused (d : Disk B) : List Nat := d.finished ++ d.entered.toList ++ usedQ d

variable {h i : Nat} {free : Nat → Bool}

variable {d : Disk B}

theorem statused_flow (hh : h ∈ statused d) : h ∈ flow d := by
  unfold statused at hh
  unfold flow inDevice
  simp only [List.mem_append] at hh ⊢
  tauto

theorem not_inDevice (hn : (flow d).Nodup) (hh : h ∈ usedQ d) : h ∉ inDevice d :=
  fun hi => (List.nodup_append.mp hn).2.2 h hi h hh rfl

/-! ## What a call holds -/

def Loc.owned : Loc B → List Nat
  | .undo _ _ todo => todo
  | .format _ _ idx => idx.list
  | .publish _ idx => idx.list
  | .bump _ idx => idx.list
  | .wait _ idx => idx.list
  | .finish _ idx => idx.list
  | .freeChain _ i rest => i :: rest
  | _ => []

/-- The buffer of a `virtio_disk_rw`. -/
def Loc.buf : Loc B → Option B
  | .alloc b _ => some b
  | .undo b _ _ => some b
  | .format b _ _ => some b
  | .publish b _ => some b
  | .bump b _ => some b
  | .wait b _ => some b
  | .finish b _ => some b
  | .freeChain b _ _ => some b
  | .ret b => some b
  | _ => none

/-- The chain that a call waits for. -/
def Loc.head : Loc B → Option Nat
  | .wait _ idx => some idx.i0
  | _ => none

/-- The entry of the used ring that the handler is done with. -/
def Loc.done : Loc B → Option Nat
  | .intrNext id => some id
  | _ => none

def own (ls : P → Option (Loc B)) (p : P) : List Nat := (ls p).elim [] Loc.owned

def buf (ls : P → Option (Loc B)) (p : P) : Option B := (ls p).bind Loc.buf

variable {ls : P → Option (Loc B)} {l : Loc B} {p : P}

theorem own_some (h : ls p = some l) : own ls p = l.owned := by
  unfold own
  rw [h]
  rfl

theorem buf_some (h : ls p = some l) : buf ls p = l.buf := by
  unfold buf
  rw [h]
  rfl

def Links (desc : Nat → Desc B) : List Nat → Prop
  | [] => True
  | [i] => (desc i).fNext = false
  | i :: j :: rest => (desc i).fNext = true ∧ (desc i).next = j ∧ Links desc (j :: rest)

structure Chain (d : Disk B) (b : B) (idx : Idx) : Prop where
  links : Links d.desc idx.list
  status : (d.desc idx.i2).addr = .status idx.i0
  info : d.infoB idx.i0 = some b

variable {is : List Nat}

theorem links_congr {desc desc' : Nat → Desc B} (h : ∀ i ∈ is, desc' i = desc i) (hl : Links desc is) :
    Links desc' is := by
  induction is with
  | nil => trivial
  | cons i is ih =>
    have hi := h i List.mem_cons_self
    cases is with
    | nil => unfold Links at hl ⊢; rw [hi]; exact hl
    | cons j rest =>
      obtain ⟨h1, h2, h3⟩ := hl
      exact ⟨by rw [hi]; exact h1, by rw [hi]; exact h2, ih (fun k hk => h k (.tail _ hk)) h3⟩

variable {idx : Idx} {b : B}

theorem chain_congr {d d' : Disk B}
    (h : ∀ i ∈ idx.list, d'.desc i = d.desc i ∧ d'.infoB i = d.infoB i) (hc : Chain d b idx) : Chain d' b idx := by
  refine ⟨links_congr (fun i hi => (h i hi).1) hc.links, ?_, ?_⟩
  · rw [(h idx.i2 (by simp [Idx.list])).1]; exact hc.status
  · rw [(h idx.i0 (by simp [Idx.list])).2]; exact hc.info

/-! ## The invariant -/

def Fact (d : Disk B) : Loc B → Prop
  | .alloc b _ => d.stage b = .returned
  | .undo b _ todo => d.stage b = .returned ∧ freeCount NUM d.free + todo.length ≤ 2
  | .format b _ _ => d.stage b = .returned
  | .publish b idx => d.stage b = .returned ∧ d.bdisk b = true ∧ Chain d b idx
  | .bump b idx =>
    d.stage b = .returned ∧ d.bdisk b = true ∧ Chain d b idx ∧ d.availRing (Fifo.slot num_pos d.availIdx) = idx.i0
  | .wait b idx => Chain d b idx
  | .finish b idx => d.stage b = .cleared ∧ Links d.desc idx.list
  | .freeChain b i rest => d.stage b = .cleared ∧ Links d.desc (i :: rest)
  | .ret b => d.stage b = .cleared
  | .intr => True
  -- the entry is still in the used ring, and its buffer's flag is cleared
  | .intrNext id => ∃ b rest, usedQ d = id :: rest ∧ d.infoB id = some b ∧ d.stage b = .cleared
  | .panicked => False

def Parked : Loc B → Prop
  | .alloc _ _ => True
  | .wait _ _ => True
  | _ => False

inductive Waiting (d : Disk B) (ls : P → Option (Loc B)) (b : B) (h : Nat) : Prop
  | device : h ∈ inDevice d → d.stage b = .published → d.bdisk b = true → Waiting d ls b h
  | used : h ∈ usedQ d → d.stage b = .completed → d.bdisk b = true → Waiting d ls b h
  | done : h ∉ inDevice d → (h ∈ usedQ d → ∃ q, ls q = some (.intrNext h)) → d.stage b = .cleared → d.bdisk b = false →
      Waiting d ls b h

structure Good (d : Disk B) (ls : P → Option (Loc B)) : Prop where
  pool : Pool NUM d.free (own ls)
  bufs : ∀ p q b, buf ls p = some b → buf ls q = some b → p = q
  fact : ∀ p l, ls p = some l → Fact d l
  nodup : (flow d).Nodup
  owner : ∀ h ∈ flow d, ∃ p b idx, ls p = some (.wait b idx) ∧ idx.i0 = h
  waiting : ∀ p b idx, ls p = some (.wait b idx) → Waiting d ls b idx.i0
  status : ∀ h ∈ statused d, d.infoStatus h = 0#8
  entry : ∀ h, d.entered = some h → d.usedRing (Fifo.slot num_pos d.usedIdx) = h
  idle : ∀ b, (∀ p, buf ls p ≠ some b) → d.stage b = .returned
  orderly : d.orderly = true
  panic : d.panic = none

section
variable {d : Disk B} {ls : P → Option (Loc B)} (hg : Good d ls)
include hg

/-- Two requests never wait for the same chain. -/
theorem head_owner {p q : P} (hp : ls p = some l) (hq : ls q = some (.wait b idx))
    (hi : idx.i0 ∈ l.owned) : p = q :=
  hg.pool.disjoint p q idx.i0 (by rw [own_some hp]; exact hi) (by rw [own_some hq]; simp [Loc.owned, Idx.list])

theorem buf_owner {p q : P} {l l' : Loc B} (hp : ls p = some l) (hq : ls q = some l') (h1 : l.buf = some b)
    (h2 : l'.buf = some b) : p = q :=
  hg.bufs p q b (by rw [buf_some hp, h1]) (by rw [buf_some hq, h2])

/-- A call that waits for no chain on its way owns none of those. -/
theorem not_flow (hp : ls p = some l) (hout : l.head.elim True (· ∉ flow d)) {i : Nat} (hi : i ∈ l.owned) :
    i ∉ flow d := by
  intro hf
  obtain ⟨q, b, idx, hq, e⟩ := hg.owner i hf
  have hpq := head_owner hg hp hq (by rw [e]; exact hi)
  rw [hpq, hq] at hp
  cases hp
  exact hout (by rw [e]; exact hf)

/-- At most two chains are on their way: each holds three of eight descriptors. -/
theorem length_flow : (flow d).length ≤ 2 := by
  have h := hg.pool.bound_keys (k := 3) (R := fun p h => ∃ b idx, ls p = some (.wait b idx) ∧ idx.i0 = h)
    (fun p x y ⟨b, idx, h1, e1⟩ ⟨b', idx', h2, e2⟩ => by rw [h1] at h2; cases h2; rw [← e1, ← e2]) hg.nodup
    fun h hh => by
      obtain ⟨p, b, idx, hp, e⟩ := hg.owner h hh
      exact ⟨p, ⟨b, idx, hp, e⟩, by rw [own_some hp]; rfl⟩
  show (flow d).length ≤ 2
  have h8 : (flow d).length * 3 ≤ 8 := h
  omega

theorem avail_dist : Fifo.dist d.fetched d.availIdx ≤ 2 := by
  have h := length_flow hg
  rw [← Fifo.length_queue num_pos d.availRing]
  unfold flow inDevice availQ at h
  simp only [List.length_append] at h
  omega

theorem used_dist : Fifo.dist d.seen d.usedIdx ≤ 2 := by
  have h := length_flow hg
  rw [← Fifo.length_queue num_pos d.usedRing]
  unfold flow usedQ at h
  simp only [List.length_append] at h
  omega

/-- The request whose chain is next in the used ring. -/
theorem used_head (hne : d.seen ≠ d.usedIdx) :
    ∃ rest q b idx, usedQ d = idx.i0 :: rest ∧ idx.i0 = d.usedRing (Fifo.slot num_pos d.seen) ∧
    ls q = some (.wait b idx) ∧
      d.infoStatus idx.i0 = 0#8 ∧ d.infoB idx.i0 = some b := by
  have hu : usedQ d = d.usedRing (Fifo.slot num_pos d.seen) :: _ := Fifo.queue_pop num_pos d.usedRing hne
  have hm : d.usedRing (Fifo.slot num_pos d.seen) ∈ usedQ d := by rw [hu]; exact .head _
  obtain ⟨q, b, idx, hq, e⟩ := hg.owner _ (List.mem_append_right _ hm)
  have hc : Chain d b idx := hg.fact q _ hq
  refine ⟨_, q, b, idx, by rw [e]; exact hu, e, hq, ?_, hc.info⟩
  rw [e]
  exact hg.status _ (List.mem_append_right _ hm)

/-- The status of a chain that the device works on is written where the driver looks for it. -/
theorem writeStatus_flow {h : Nat} (hh : h ∈ flow d) :
    writeStatus d h = { d with infoStatus := upd d.infoStatus h 0#8 } := by
  obtain ⟨p, b, idx, hp, e⟩ := hg.owner h hh
  have hc : Chain d b idx := hg.fact p _ hp
  obtain ⟨-, h1, -, h2, -⟩ := hc.links
  unfold writeStatus
  rw [← e, h1, h2, hc.status]

end

theorem fact_parked {d d' : Disk B} (hl : Parked l) (hs : ∀ b, l.buf = some b → d'.stage b = d.stage b)
    (hd : ∀ i ∈ l.owned, d'.desc i = d.desc i ∧ d'.infoB i = d.infoB i) (hf : Fact d l) : Fact d' l := by
  cases l with
  | alloc b write => exact (hs b rfl).trans hf
  | wait b idx => exact chain_congr hd hf
  | _ => exact hl.elim

structure Alike (d d' : Disk B) : Prop where
  desc : d'.desc = d.desc
  free : d'.free = d.free
  infoB : d'.infoB = d.infoB
  bdisk : d'.bdisk = d.bdisk
  avail : d'.availRing (Fifo.slot num_pos d'.availIdx) = d.availRing (Fifo.slot num_pos d.availIdx)

theorem chain_alike {d d' : Disk B} (ha : Alike d d') (hc : Chain d b idx) : Chain d' b idx :=
  chain_congr (fun i _ => ⟨by rw [ha.desc], by rw [ha.infoB]⟩) hc

theorem fact_alike {d d' : Disk B} (ha : Alike d d')
    (hs : ∀ b, l.buf = some b → (∀ b idx, l ≠ .wait b idx) → d'.stage b = d.stage b)
    (hc : ∀ b, d.stage b = .cleared → d'.stage b = .cleared) (hu : ∃ more, usedQ d' = usedQ d ++ more)
    (hf : Fact d l) : Fact d' l := by
  cases l with
  | alloc b write | format b write idx => exact (hs b rfl fun _ _ e => by cases e).trans hf
  | undo b write todo => exact ⟨(hs b rfl fun _ _ e => by cases e).trans hf.1, by rw [ha.free]; exact hf.2⟩
  | publish b idx =>
    exact ⟨(hs b rfl fun _ _ e => by cases e).trans hf.1, by rw [ha.bdisk]; exact hf.2.1, chain_alike ha hf.2.2⟩
  | bump b idx =>
    exact ⟨(hs b rfl fun _ _ e => by cases e).trans hf.1, by rw [ha.bdisk]; exact hf.2.1,
      chain_alike ha hf.2.2.1, ha.avail.trans hf.2.2.2⟩
  | wait b idx => exact chain_alike ha hf
  | finish b idx | freeChain b i rest => exact ⟨hc b hf.1, by rw [ha.desc]; exact hf.2⟩
  | ret b => exact hc b hf
  | intr => trivial
  | intrNext id =>
    obtain ⟨b, rest, h1, h2, h3⟩ := hf
    obtain ⟨more, hu⟩ := hu
    exact ⟨b, rest ++ more, by rw [hu, h1]; rfl, by rw [ha.infoB]; exact h2, hc b h3⟩
  | panicked => exact hf.elim

theorem waiting_congr {d d' : Disk B} {ls ls' : P → Option (Loc B)} (hs : d'.stage b = d.stage b)
    (hb : d'.bdisk b = d.bdisk b) (hdev : h ∈ inDevice d' ↔ h ∈ inDevice d) (hu : h ∈ usedQ d' ↔ h ∈ usedQ d)
    (hi : ∀ q, ls q = some (.intrNext h) → ∃ q, ls' q = some (.intrNext h)) (hw : Waiting d ls b h) :
    Waiting d' ls' b h := by
  cases hw with
  | device h1 h2 h3 => exact .device (hdev.mpr h1) (hs.trans h2) (hb.trans h3)
  | used h1 h2 h3 => exact .used (hu.mpr h1) (hs.trans h2) (hb.trans h3)
  | done h1 h2 h3 h4 =>
    refine .done (fun h => h1 (hdev.mp h)) (fun h => ?_) (hs.trans h3) (hb.trans h4)
    obtain ⟨q, hq⟩ := h2 (hu.mp h)
    exact hi q hq

theorem good_init : Good (virtioDiskInit : Disk B) (fun _ : P => none) := by
  have hflow : flow (virtioDiskInit : Disk B) = [] := by
    show Fifo.queue num_pos _ 0#16 0#16 ++ [] ++ Fifo.queue num_pos _ 0#16 0#16 = []
    rfl
  refine ⟨Pool.empty, (fun p q b h => by cases h), (fun p l h => by cases h), by rw [hflow]; exact List.nodup_nil,
    fun h hh => ?_, (fun p b idx h => by cases h), fun _ _ => rfl, (fun h hh => by cases hh), fun _ _ => rfl, rfl, rfl⟩
  rw [hflow] at hh
  cases hh

/-! ## Steps on what a call owns -/

structure Mine (d d' : Disk B) (is : List Nat) (b : Option B) : Prop where
  desc : ∀ i, i ∉ is → d'.desc i = d.desc i ∧ d'.infoB i = d.infoB i
  status : ∀ i, i ∉ is → d'.infoStatus i = d.infoStatus i
  bdisk : ∀ b', b ≠ some b' → d'.bdisk b' = d.bdisk b'
  device : inDevice d' = inDevice d
  used : usedQ d' = usedQ d
  finished : d'.finished = d.finished
  entered : d'.entered = d.entered
  entry : d'.usedRing (Fifo.slot num_pos d'.usedIdx) = d.usedRing (Fifo.slot num_pos d.usedIdx)
  stage : d'.stage = d.stage
  orderly : d'.orderly = d.orderly
  panic : d'.panic = d.panic

variable [DecidableEq P]

theorem own_upd (ls : P → Option (Loc B)) (p : P) (l : Option (Loc B)) :
    own (upd ls p l) = upd (own ls) p (l.elim [] Loc.owned) := comp_upd (·.elim [] Loc.owned) ls p l

theorem buf_upd (ls : P → Option (Loc B)) (p : P) (l : Option (Loc B)) :
    buf (upd ls p l) = upd (buf ls) p (l.bind Loc.buf) :=
  comp_upd (·.bind Loc.buf) ls p l

theorem own_upd_same (hp : ls p = some l) (l' : Loc B) (h : l'.owned = l.owned) :
    own (upd ls p (some l')) = own ls := by
  rw [own_upd]
  show upd (own ls) p l'.owned = own ls
  rw [h, ← own_some hp]
  exact upd_self _ _

theorem buf_upd_same (hp : ls p = some l) (l' : Loc B) (h : l'.buf = l.buf) :
    buf (upd ls p (some l')) = buf ls := by
  rw [buf_upd]
  show upd (buf ls) p l'.buf = buf ls
  rw [h, ← buf_some hp]
  exact upd_self _ _

theorem pool_same (hg : Good d ls) (hp : ls p = some l) (l' : Loc B)
    (h : l'.owned = l.owned) : Pool NUM d.free (upd (own ls) p l'.owned) := by
  rw [h, ← own_some hp, upd_self]
  exact hg.pool

section
variable {d d' : Disk B} {ls : P → Option (Loc B)} (hg : Good d ls) {p : P} {l : Loc B} (hp : ls p = some l)
  (hpark : ∀ q l', q ≠ p → ls q = some l' → Parked l')
include hg hp hpark

/-- Every step that changes only what its call owns keeps the invariant. -/
theorem good_mine {l' : Loc B} (hout : l.head.elim True (· ∉ flow d)) (hm : Mine d d' l.owned l.buf)
    (hpool : Pool NUM d'.free (upd (own ls) p l'.owned)) (hbuf : l'.buf = l.buf) (hf : Fact d' l')
    (hw : l'.head = none) (hi : l.done = none) : Good d' (upd ls p (some l')) := by
  have hflow : flow d' = flow d := by unfold flow; rw [hm.device, hm.used]
  have hstat : statused d' = statused d := by unfold statused; rw [hm.finished, hm.entered, hm.used]
  have hfree : ∀ i ∈ l.owned, i ∉ flow d := fun i hio => not_flow hg hp hout hio
  have hrest : ∀ q l'', q ≠ p → ls q = some l'' → ∀ i ∈ l''.owned, i ∉ l.owned := by
    intro q l'' hqp hq i hi1 hi2
    exact hqp (hg.pool.disjoint q p i (by rw [own_some hq]; exact hi1) (by rw [own_some hp]; exact hi2))
  refine ⟨by rw [own_upd]; exact hpool, by rw [buf_upd_same hp l' hbuf]; exact hg.bufs,
    fun q l'' hq => ?_, by rw [hflow]; exact hg.nodup,
    fun h hh => ?_, fun q b idx hq => ?_, fun h hh => ?_, fun h hh => ?_, ?_, hm.orderly.trans hg.orderly,
    hm.panic.trans hg.panic⟩
  · rcases upd_eq.mp hq with ⟨-, e⟩ | ⟨e, hq⟩
    · cases e; exact hf
    · exact fact_parked (hpark q l'' e hq) (fun b _ => by rw [hm.stage])
        (fun i hio => hm.desc i (hrest q l'' e hq i hio))
        (hg.fact q l'' hq)
  · rw [hflow] at hh
    obtain ⟨q, b, idx, hq, e⟩ := hg.owner h hh
    have hqp : q ≠ p := by
      intro e2
      rw [e2, hp] at hq
      cases hq
      exact hout (by rw [e]; exact hh)
    exact ⟨q, b, idx, by rw [upd_ne _ _ hqp]; exact hq, e⟩
  · rcases upd_eq.mp hq with ⟨-, e⟩ | ⟨e, hq⟩
    · cases e; cases hw
    refine waiting_congr (by rw [hm.stage]) (hm.bdisk b fun hb => e (buf_owner hg hq hp rfl hb))
      (by rw [hm.device]) (by rw [hm.used])
      (fun q' hq' => ⟨q', ?_⟩) (hg.waiting q b idx hq)
    have hq'p : q' ≠ p := fun e2 => by rw [e2, hp] at hq'; cases hq'; cases hi
    rw [upd_ne _ _ hq'p]
    exact hq'
  · rw [hstat] at hh
    rw [hm.status h fun hio => hfree h hio (statused_flow hh)]
    exact hg.status h hh
  · rw [hm.entered] at hh
    exact hm.entry.trans (hg.entry h hh)
  · rw [buf_upd_same hp l' hbuf, hm.stage]
    exact hg.idle

end

/-! ## Descriptors -/

theorem allocDesc_some (h : allocDesc free = some i) : free i = true ∧ i < NUM :=
  ⟨List.find?_some h, List.mem_range.mp (List.mem_of_find?_eq_some h)⟩

theorem allocDesc_none (h : allocDesc free = none) : freeCount NUM free = 0 :=
  List.countP_eq_zero.mpr (List.find?_eq_none.mp h)

def Takes : (Nat → Bool) → List Nat → Prop
  | _, [] => True
  | free, i :: is => free i = true ∧ i < NUM ∧ Takes (upd free i false) is

theorem pool_takes (is : List Nat) : ∀ {free : Nat → Bool} {o : P → List Nat}, Pool NUM free o → Takes free is →
    Pool NUM (mark free is) (upd o p (o p ++ is)) := by
  induction is with
  | nil =>
    intro free o h _
    rw [List.append_nil, upd_self]
    exact h
  | cons i is ih =>
    intro free o h ⟨hi, hN, hrest⟩
    have h1 := ih (h.take hi hN p) hrest
    rw [upd_upd, upd_same, List.append_assoc] at h1
    exact h1

theorem freeCount_mark (is : List Nat) (free : Nat → Bool) : freeCount NUM (mark free is) ≤ freeCount NUM free := by
  induction is generalizing free with
  | nil => exact le_refl _
  | cons i is ih => exact (ih (upd free i false)).trans (freeCount_take_le NUM free i)

theorem alloc3Desc_inr (h : alloc3Desc free = .inr idx) : Takes free idx.list := by
  unfold alloc3Desc at h
  split at h
  · cases h
  rename_i i0 h0
  split at h
  · cases h
  rename_i i1 h1
  split at h
  · cases h
  rename_i i2 h2
  cases h
  obtain ⟨a0, b0⟩ := allocDesc_some h0
  obtain ⟨a1, b1⟩ := allocDesc_some h1
  obtain ⟨a2, b2⟩ := allocDesc_some h2
  exact ⟨a0, b0, a1, b1, a2, b2, trivial⟩

/-- `alloc3_desc` fails with at most two descriptors in hand, and none is left. -/
theorem alloc3Desc_inl {todo : List Nat} (h : alloc3Desc free = .inl todo) :
    Takes free todo ∧ freeCount NUM (mark free todo) + todo.length ≤ 2 := by
  unfold alloc3Desc at h
  split at h
  · rename_i h0
    cases h
    refine ⟨trivial, ?_⟩
    have := allocDesc_none h0
    show freeCount NUM free + 0 ≤ 2
    omega
  · rename_i i0 h0
    obtain ⟨a0, b0⟩ := allocDesc_some h0
    split at h
    · rename_i h1
      cases h
      refine ⟨⟨a0, b0, trivial⟩, ?_⟩
      have := allocDesc_none h1
      show freeCount NUM (upd free i0 false) + 1 ≤ 2
      omega
    · rename_i i1 h1
      obtain ⟨a1, b1⟩ := allocDesc_some h1
      split at h
      · rename_i h2
        cases h
        refine ⟨⟨a0, b0, a1, b1, trivial⟩, ?_⟩
        have := allocDesc_none h2
        show freeCount NUM (upd (upd free i0 false) i1 false) + 2 ≤ 2
        omega
      · cases h

/-- The disk after `free_desc`. -/
def freed (d : Disk B) (i : Nat) : Disk B :=
  { d with desc := upd d.desc i ⟨.null, 0, false, false, 0⟩, free := upd d.free i true }

omit [DecidableEq P] in
/-- `free_desc` does not panic on a descriptor that is owned. -/
theorem freeDesc_owned {o : P → List Nat} (h : Pool NUM d.free o) (hi : i ∈ o p) :
    freeDesc d i = .ok (freed d i) := by
  have hlt : ¬ NUM ≤ i := Nat.not_le.mpr (h.small p i hi)
  unfold freeDesc
  rw [if_neg hlt, h.not_free hi]
  rfl

omit [DecidableEq P] in
theorem mine_free (d : Disk B) (free : Nat → Bool) (is : List Nat) (b : Option B) :
    Mine d { d with free := free } is b :=
  ⟨fun _ _ => ⟨rfl, rfl⟩, fun _ _ => rfl, fun _ _ => rfl, rfl, rfl, rfl, rfl, rfl, rfl, rfl, rfl⟩

omit [DecidableEq P] in
/-- What `free_desc` changes is the descriptor. -/
theorem mine_freed (d : Disk B) (hi : i ∈ is) (b : Option B) : Mine d (freed d i) is b :=
  ⟨fun _ hj => ⟨upd_ne _ _ fun e => hj (e ▸ hi), rfl⟩, fun _ _ => rfl, fun _ _ => rfl, rfl,
    rfl, rfl, rfl, rfl, rfl, rfl, rfl⟩

end Xv6.Virtio
