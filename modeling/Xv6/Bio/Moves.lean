/-
  Xv6.Bio.Moves — what one step can do to the cache (see `Xv6.Bio.Cache`), and the
  invariant that every such move keeps: the ring, who caches what, what each `refcnt`
  counts, who holds each lock, and which of cache, log and disk holds the newest contents
  of a block.
-/

import Xv6.Bio.Cache

namespace Xv6.Bio

open Lib Log

variable {P : Type}

/-! ## Readings of a state -/

def Use.block : Use → Option Nat
  | .idle => none
  | .waiting b | .locked b | .holding b _ | .releasing b => some b

def Use.held : Use → Bool
  | .locked _ | .holding _ _ => true
  | _ => false

def Use.count : Use → Nat
  | .idle => 0
  | _ => 1

/-- The processes that hold, wait for or are still releasing buffer `i`. -/
def users [Fintype P] (use : P → Idx → Use) (i : Idx) : Nat := total (fun f => (f i).count) use

/-- The blocks pinned in the cache: those listed in the header whose `bunpin` is not done,
    and the one `log_write` is about to list. -/
def pinned (s : St P) : List Nat :=
  s.log.lh.drop s.unpinned ++ (s.pinning.map fun x => (s.buf x.2).blockno).toList

def pins (s : St P) (i : Idx) : Nat := if (s.buf i).dev = ROOTDEV ∧ (s.buf i).blockno ∈ pinned s then 1 else 0

def Caches (x : Buf) (b : Nat) : Prop := x.dev = ROOTDEV ∧ x.blockno = b

variable (start : Nat) (d₀ : Disk)

/-- The most recently logged contents of each block, or else those of the initial disk. -/
def logical (s : St P) : Disk := putAll s.hist d₀

/-- What a clean buffer for a block holds. The log's own blocks are never logged. -/
def want (s : St P) (b : Nat) : Block := if Home start b then logical d₀ s b else s.disk b

/-! ## The invariant -/

structure Ident (s : St P) : Prop where
  dev : ∀ i, (s.buf i).dev = 0 ∨ (s.buf i).dev = ROOTDEV
  uniq : ∀ i j b, Caches (s.buf i) b → Caches (s.buf j) b → i = j
  asked : ∀ p i b, (s.use p i).block = some b → Caches (s.buf i) b

structure Listed (s : St P) : Prop where
  nodup : s.log.lh.Nodup
  home : ∀ b ∈ s.log.lh, Home start b
  fits : s.log.lh.length ≤ LOGBLOCKS
  pin : ∀ p i, s.pinning = some (p, i) → (s.buf i).dev = ROOTDEV ∧ (s.buf i).valid = true ∧
    Home start (s.buf i).blockno ∧
    (s.buf i).blockno ∉ s.log.lh ∧ s.log.lh.length < LOGBLOCKS ∧ s.unpinned = 0

/-- Where the newest contents of each block are. -/
structure Data (s : St P) : Prop where
  /-- A pinned block is in the cache. -/
  cached : ∀ b ∈ pinned s, ∃ i, Caches (s.buf i) b ∧ (s.buf i).valid = true
  filled : ∀ p i b k, s.use p i = .holding b k → (s.buf i).valid = true
  clean : ∀ i, (s.buf i).valid = true → (s.buf i).dev = ROOTDEV →
    (s.buf i).data = want start d₀ s (s.buf i).blockno ∨ ∃ p, s.use p i = .holding (s.buf i).blockno true
  /-- A block that is not pinned is up to date on disk. -/
  synced : ∀ b, Home start b → b ∉ pinned s → s.disk b = logical d₀ s b

/-- Each `refcnt` counts the buffer's users and its pin. -/
def Counted [Fintype P] (s : St P) : Prop := ∀ i, (s.buf i).refcnt = (users s.use i : Int) + pins s i

structure Core [Fintype P] (s : St P) : Prop where
  ring : ∃ l, s.ring.Ring l ∧ l.Nodup ∧ ∀ i, i ∈ l
  ident : Ident s
  count : Counted s
  lock : ∀ p i, s.lock i = some p ↔ (s.use p i).held = true
  listed : Listed start s
  data : Data start d₀ s

/-! ## Small facts -/

variable {start d₀}

def SameId (f g : Idx → Buf) : Prop := ∀ i, (g i).dev = (f i).dev ∧ (g i).blockno = (f i).blockno

theorem sameId_refl (f : Idx → Buf) : SameId f f := fun _ => ⟨rfl, rfl⟩

theorem sameId_upd (f : Idx → Buf) (i : Idx) (x : Buf) (hd : x.dev = (f i).dev) (hb : x.blockno = (f i).blockno) :
    SameId f (upd f i x) := by
  intro j
  by_cases h : j = i
  · rw [h, upd_same]; exact ⟨hd, hb⟩
  · rw [upd_ne _ _ h]; exact ⟨rfl, rfl⟩

theorem caches_sameId {f g : Idx → Buf} (h : SameId f g) (i : Idx) (b : Nat) : Caches (g i) b ↔ Caches (f i) b := by
  unfold Caches; rw [(h i).1, (h i).2]

theorem pinned_congr {s s' : St P} (hl : s'.log.lh = s.log.lh) (hu : s'.unpinned = s.unpinned)
    (hp : s'.pinning = s.pinning)
    (hb : ∀ p i, s.pinning = some (p, i) → (s'.buf i).blockno = (s.buf i).blockno) :
    pinned s' = pinned s := by
  unfold pinned
  rw [hu, hp]
  congr 2
  cases h : s.pinning with
  | none => rfl
  | some x => simp [hb x.1 x.2 (by rw [h])]

variable {i : Idx} {p : P}

theorem pins_congr {s s' : St P} (hp : pinned s' = pinned s) (hd : (s'.buf i).dev = (s.buf i).dev)
    (hb : (s'.buf i).blockno = (s.buf i).blockno) : pins s' i = pins s i := by
  unfold pins; rw [hp, hd, hb]

theorem ident_congr {s s' : St P} (hi : Ident s) (hs : SameId s.buf s'.buf)
    (hu : ∀ p i b, (s'.use p i).block = some b → (s.use p i).block = some b ∨ Caches (s.buf i) b) : Ident s' := by
  refine ⟨fun i => ?_, fun i j b h1 h2 => ?_, fun p i b h => ?_⟩
  · rw [(hs i).1]; exact hi.dev i
  · exact hi.uniq i j b ((caches_sameId hs i b).mp h1) ((caches_sameId hs j b).mp h2)
  · rw [caches_sameId hs]
    rcases hu p i b h with h1 | h1
    · exact hi.asked p i b h1
    · exact h1

section Facts

variable [Fintype P] {s : St P}

variable {p : P} {i : Idx}

theorem users_pos {use : P → Idx → Use} (h : use p i ≠ .idle) : 0 < users use i := by
  have h1 := le_total (fun f : Idx → Use => (f i).count) use p
  have h2 : 0 < (use p i).count := by
    cases hu : use p i with
    | idle => exact absurd hu h
    | _ => simp [Use.count]
  exact lt_of_lt_of_le h2 h1

section

variable (hc : Core start d₀ s)

include hc

/-- A free buffer: no process uses it and its block is not pinned. -/
theorem free_buf (h : (s.buf i).refcnt = 0) : users s.use i = 0 ∧ pins s i = 0 := by
  have := hc.count i
  omega

theorem free_idle (h : (s.buf i).refcnt = 0) (p : P) : s.use p i = .idle := by
  by_contra hu
  have := users_pos hu
  have := (free_buf hc h).1
  omega

/-- The buffer that `log_write` is pinning is not free. -/
theorem pinning_ne (h : (s.buf i).refcnt = 0) {j : Idx} (hp : s.pinning = some (p, j)) : j ≠ i := by
  intro e
  have hz := (free_buf hc h).2
  have hd := (hc.listed.pin p j hp).1
  rw [e] at hd hp
  have hm : (s.buf i).blockno ∈ pinned s := by simp [pinned, hp]
  simp [pins, hd, hm] at hz

theorem held_unique {q : P} (hp : (s.use p i).held = true) (hq : (s.use q i).held = true) : p = q :=
  Option.some.inj (((hc.lock p i).mpr hp).symm.trans ((hc.lock q i).mpr hq))

/-- What the holder of an unchanged buffer sees. -/
theorem clean_data {b : Nat} (h : s.use p i = .holding b false) : (s.buf i).data = want start d₀ s b := by
  obtain ⟨hd, hb⟩ := hc.ident.asked p i b (by rw [h]; rfl)
  rcases hc.data.clean i (hc.data.filled p i b _ h) hd with h1 | ⟨q, hq⟩
  · rw [h1, hb]
  · have := held_unique hc (p := p) (q := q) (i := i) (by rw [h]; rfl) (by rw [hq]; rfl)
    rw [← this, h] at hq
    cases hq

end

end Facts

variable [DecidableEq P]

/-! ## The updates -/

def upd2 (use : P → Idx → Use) (p : P) (i : Idx) (u : Use) : P → Idx → Use := upd use p (upd (use p) i u)

theorem upd2_apply (use : P → Idx → Use) (p : P) (i : Idx) (u : Use) (q : P) (j : Idx) :
    upd2 use p i u q j = if q = p ∧ j = i then u else use q j := by
  unfold upd2 upd
  by_cases hq : q = p
  · subst hq; by_cases hj : j = i <;> simp [hj]
  · simp [hq]

@[simp] theorem upd2_same (use : P → Idx → Use) (p : P) (i : Idx) (u : Use) : upd2 use p i u p i = u := by
  simp [upd2_apply]

theorem upd2_eq {use : P → Idx → Use} {u : Use} (h : use p i = u) : upd2 use p i u = use := by
  funext q j
  rw [upd2_apply]
  split
  · rename_i e; rw [e.1, e.2, h]
  · rfl

theorem upd2_ne (use : P → Idx → Use) {q : P} {j : Idx} (u : Use) (h : ¬ (q = p ∧ j = i)) :
    upd2 use p i u q j = use q j := by
  rw [upd2_apply, if_neg h]

section Users

variable [Fintype P]

/-- One process changes what it does with one buffer. -/
theorem users_upd (use : P → Idx → Use) (p : P) (i : Idx) (u : Use) :
    users (upd2 use p i u) i + (use p i).count = users use i + u.count := by
  have h := total_upd (fun f : Idx → Use => (f i).count) use p (upd (use p) i u)
  simpa [users, upd2] using h

theorem users_other (use : P → Idx → Use) (p : P) {i j : Idx} (u : Use) (h : j ≠ i) :
    users (upd2 use p i u) j = users use j := by
  refine total_congr fun q => ?_
  rw [upd2_ne _ _ fun hq => h hq.2]

end Users

/-- A step in the use of a buffer keeps the block asked for. -/
theorem block_upd2 {use : P → Idx → Use} {u u' : Use} (hu : use p i = u)
    (h : u'.block = u.block ∨ u'.block = none) {q : P} {j : Idx} {b : Nat}
    (hb : (upd2 use p i u' q j).block = some b) : (use q j).block = some b := by
  rw [upd2_apply] at hb
  split at hb
  · rename_i he
    rcases h with h | h
    · rw [he.1, he.2, hu, ← h]; exact hb
    · rw [h] at hb; cases hb
  · exact hb

/-! ## What a step can do -/

variable (start d₀) in
/-- One move of the cache; `c` is where it leaves `commit`. -/
inductive Move (s : St P) : St P → Prop
  | panic (x : Panic) : Move s { s with panic := some x }
  | ctl (l : LogSt) (c : Option (Committer P)) : l.lh = s.log.lh → Move s { s with log := l, commit := c }
  | hit (p : P) (i : Idx) (b : Nat) (c : Option (Committer P)) : Caches (s.buf i) b → s.use p i = .idle →
      Move s { s with
        buf := upd s.buf i { s.buf i with refcnt := (s.buf i).refcnt + 1 }
        use := upd2 s.use p i (.waiting b)
        commit := c }
  | recycle (p : P) (i : Idx) (b : Nat) (c : Option (Committer P)) : (∀ j, ¬ Caches (s.buf j) b) →
    (s.buf i).refcnt = 0 →
      Move s { s with
        buf := upd s.buf i { s.buf i with dev := ROOTDEV, blockno := b, valid := false, refcnt := 1 }
        use := upd2 s.use p i (.waiting b)
        commit := c }
  | acquire (p : P) (i : Idx) (b : Nat) (c : Option (Committer P)) : s.use p i = .waiting b → s.lock i = none →
      Move s { s with
        lock := upd s.lock i (some p)
        use := upd2 s.use p i (.locked b)
        commit := c }
  | keep (p : P) (i : Idx) (b : Nat) (c : Option (Committer P)) : s.use p i = .locked b → (s.buf i).valid = true →
      Move s { s with use := upd2 s.use p i (.holding b false), commit := c }
  | fill (p : P) (i : Idx) (b : Nat) (c : Option (Committer P)) : s.use p i = .locked b → (s.buf i).valid = false →
      Move s { s with
        buf := upd s.buf i { s.buf i with data := s.disk (s.buf i).blockno, valid := true }
        use := upd2 s.use p i (.holding b false)
        commit := c }
  | put (p : P) (i : Idx) (b : Nat) (k k' : Bool) (d : Block) (c : Option (Committer P)) : s.use p i = .holding b k →
      k' = true ∨ (Home start b ∧ d = logical d₀ s b) →
      Move s { s with
        buf := upd s.buf i { s.buf i with data := d }
        use := upd2 s.use p i (.holding b k')
        commit := c }
  | bwrite (p : P) (i : Idx) (b : Nat) (k : Bool) (c : Option (Committer P)) : s.use p i = .holding b k →
      (Home start b → k = false) →
      Move s { s with
        disk := upd s.disk (s.buf i).blockno (s.buf i).data
        use := upd2 s.use p i (.holding b false)
        commit := c }
  | absorb (p : P) (i : Idx) (b : Nat) (k : Bool) : s.use p i = .holding b k → Home start b → b ∈ s.log.lh →
      s.unpinned = 0 →
      Move s { s with
        hist := s.hist ++ [((s.buf i).blockno, (s.buf i).data)]
        use := upd2 s.use p i (.holding b false) }
  | pin (p : P) (i : Idx) (b : Nat) (k : Bool) : s.use p i = .holding b k → Home start b → b ∉ s.log.lh →
      s.unpinned = 0 → s.log.lh.length < LOGBLOCKS → s.pinning = none →
      Move s { s with
        buf := upd s.buf i { s.buf i with refcnt := (s.buf i).refcnt + 1 }
        hist := s.hist ++ [((s.buf i).blockno, (s.buf i).data)]
        pinning := some (p, i)
        use := upd2 s.use p i (.holding b false) }
  | list (p : P) (i : Idx) : s.pinning = some (p, i) →
      Move s { s with log := { s.log with lh := s.log.lh ++ [(s.buf i).blockno] }, pinning := none }
  | release (p : P) (i : Idx) (b : Nat) (c : Option (Committer P)) : s.use p i = .holding b false →
      Move s { s with
        lock := upd s.lock i none
        use := upd2 s.use p i (.releasing b)
        commit := c }
  | unref (p : P) (i : Idx) (b : Nat) (r : Links Idx) (c : Option (Committer P)) : s.use p i = .releasing b →
      r = s.ring ∨ r = (s.ring.unlink i).pushFront i →
      Move s { s with
        buf := upd s.buf i { s.buf i with refcnt := (s.buf i).refcnt - 1 }
        ring := r
        use := upd2 s.use p i .idle
        commit := c }
  | unpin (i : Idx) (b : Nat) (c : Option (Committer P)) : Caches (s.buf i) b → s.log.lh[s.unpinned]? = some b →
      s.pinning = none → s.disk b = logical d₀ s b →
      Move s { s with
        buf := upd s.buf i { s.buf i with refcnt := (s.buf i).refcnt - 1 }
        unpinned := s.unpinned + 1
        commit := c }
  | clear (c : Option (Committer P)) : s.unpinned = s.log.lh.length → s.pinning = none →
      Move s { s with log := { s.log with lh := [] }, unpinned := 0, commit := c }

end Xv6.Bio
