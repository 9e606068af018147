/-
  Xv6.Bio.MovesProofs — every move of the cache keeps the invariant (see
  `Xv6.Bio.Moves`).
-/

import Xv6.Bio.Moves

namespace Xv6.Bio

open Lib Log

variable {P : Type} {start : Nat} {d₀ : Disk} {s t : St P} {p : P} {i : Idx} {u : Use} {b : Nat} {x : Buf} {k : Bool}

/-! ## What steps leave as it is -/

theorem pinned_keep (hs : SameId s.buf t.buf) (hl : t.log.lh = s.log.lh) (hu : t.unpinned = s.unpinned)
    (hp : t.pinning = s.pinning) : pinned t = pinned s :=
  pinned_congr hl hu hp fun _ i _ => (hs i).2

theorem pinned_none (hp : s.pinning = none) : pinned s = s.log.lh.drop s.unpinned := by simp [pinned, hp]

theorem listed_congr (h : Listed start s) (hl : t.log.lh = s.log.lh) (hu : t.unpinned = s.unpinned)
    (hp : t.pinning = s.pinning)
    (hb : ∀ p i, s.pinning = some (p, i) → (t.buf i).dev = (s.buf i).dev ∧ (t.buf i).blockno = (s.buf i).blockno ∧
      ((s.buf i).valid = true → (t.buf i).valid = true)) : Listed start t := by
  refine ⟨hl ▸ h.nodup, hl ▸ h.home, hl ▸ h.fits, fun p i hpi => ?_⟩
  rw [hp] at hpi
  obtain ⟨h1, h2, h3⟩ := hb p i hpi
  have ⟨h4, h5, h6⟩ := h.pin p i hpi
  rw [h1, h2, hl, hu]
  exact ⟨h4, h3 h5, h6⟩

theorem listed_data (h : Listed start s) (hl : t.log.lh = s.log.lh) (hu : t.unpinned = s.unpinned)
    (hp : t.pinning = s.pinning) (hb : t.buf = upd s.buf i x) (hd : x.dev = (s.buf i).dev)
    (hn : x.blockno = (s.buf i).blockno) (hv : (s.buf i).valid = true → x.valid = true) : Listed start t := by
  refine listed_congr h hl hu hp fun p j _ => ?_
  rw [hb]
  by_cases hj : j = i
  · rw [hj, upd_same]; exact ⟨hd, hn, hv⟩
  · rw [upd_ne _ _ hj]; exact ⟨rfl, rfl, id⟩

theorem logical_congr (h : t.hist = s.hist) : logical d₀ t = logical d₀ s := by unfold logical; rw [h]

theorem want_congr (hh : t.hist = s.hist) (hd : t.disk = s.disk) (b : Nat) : want start d₀ t b = want start d₀ s b := by
  unfold want; rw [logical_congr hh, hd]

/-- A block is logged: its logical contents change, no other block's do. -/
theorem logical_log (b : Nat) (d : Block) (hh : t.hist = s.hist ++ [(b, d)]) :
    logical d₀ t = upd (logical d₀ s) b d := by
  unfold logical; rw [hh, putAll_append]; rfl

/-- Pinned blocks stay in the cache if valid buffers stay as they are. -/
theorem cached_mono (hc : ∀ b ∈ pinned s, ∃ i, Caches (s.buf i) b ∧ (s.buf i).valid = true)
    (hp : ∀ b ∈ pinned t, b ∈ pinned s)
    (hb : ∀ i b, Caches (s.buf i) b → (s.buf i).valid = true → Caches (t.buf i) b ∧ (t.buf i).valid = true) :
    ∀ b ∈ pinned t, ∃ i, Caches (t.buf i) b ∧ (t.buf i).valid = true := by
  intro b hm
  obtain ⟨i, h1, h2⟩ := hc b (hp b hm)
  exact ⟨i, hb i b h1 h2⟩

/-- No contents change: some pins may go, for blocks that are up to date on disk, and
    processes go on with buffers they have not changed. -/
theorem data_keep (h : Data start d₀ s) (hp : ∀ b ∈ pinned t, b ∈ pinned s)
    (hs : ∀ b, b ∈ pinned s → b ∉ pinned t → s.disk b = logical d₀ s b) (hh : t.hist = s.hist)
    (hd : t.disk = s.disk)
    (hb : ∀ i, (t.buf i).dev = (s.buf i).dev ∧ (t.buf i).blockno = (s.buf i).blockno ∧
      (t.buf i).valid = (s.buf i).valid ∧ (t.buf i).data = (s.buf i).data)
    (hf : ∀ q j b k, t.use q j = .holding b k → s.use q j = .holding b k ∨ (s.buf j).valid = true)
    (hk : ∀ q j b, s.use q j = .holding b true → t.use q j = .holding b true) : Data start d₀ t := by
  refine ⟨cached_mono h.cached hp fun j b h1 h2 => ?_, fun q j b k hq => ?_, fun j hv hr => ?_, fun b hh' hm => ?_⟩
  · unfold Caches
    rw [(hb j).1, (hb j).2.1, (hb j).2.2.1]; exact ⟨h1, h2⟩
  · rw [(hb j).2.2.1]
    rcases hf q j b k hq with h1 | h1
    · exact h.filled q j b k h1
    · exact h1
  · obtain ⟨h1, h2, h3, h4⟩ := hb j
    rw [h3] at hv
    rw [h1] at hr
    rw [want_congr hh hd, h2, h4]
    rcases h.clean j hv hr with h5 | ⟨q, hq⟩
    · exact .inl h5
    · exact .inr ⟨q, hk q j _ hq⟩
  · rw [logical_congr hh, hd]
    by_cases hb' : b ∈ pinned s
    · exact hs b hb' hm
    · exact h.synced b hh' hb'

variable [DecidableEq P]

theorem ident_use (hi : Ident s) (hs : SameId s.buf t.buf) {u' : Use} (hu : s.use p i = u)
    (he : t.use = upd2 s.use p i u') (h : u'.block = u.block ∨ u'.block = none) : Ident t :=
  ident_congr hi hs fun _ _ _ hb => .inl (block_upd2 hu h (he ▸ hb))

/-! ## The list of the buffers, and which blocks they are for -/

variable [Fintype P]

theorem ring_move (hc : Core start d₀ s) (m : Move start d₀ s t) : ∃ l, t.ring.Ring l ∧ l.Nodup ∧ ∀ i, i ∈ l := by
  cases m with
  | unref p i b r c hu hr =>
    rcases hr with rfl | rfl
    · exact hc.ring
    · obtain ⟨l, h1, h2, h3⟩ := hc.ring
      obtain ⟨l', h4, h5, h6⟩ := Links.ring_front h1 h2 (h3 i)
      exact ⟨l', h4, h5, fun j => (h6 j).mpr (h3 j)⟩
  | _ => exact hc.ring

section

variable (hc : Core start d₀ s)

include hc

theorem ident_move (m : Move start d₀ s t) : Ident t := by
  have hi := hc.ident
  cases m with
  | panic x | ctl l c hl | list p i hp | clear c hu hp => exact ident_congr hi (sameId_refl _) fun _ _ _ h => .inl h
  | hit p i b c hb hu =>
    refine ident_congr hi (sameId_upd _ _ _ rfl rfl) fun q j b' h => ?_
    simp only [upd2_apply] at h
    split at h
    · rename_i he; cases h; rw [he.2]; exact .inr hb
    · exact .inl h
  | recycle p i b c hno hz =>
    have hcase : ∀ {j b'}, Caches
      (upd s.buf i { s.buf i with dev := ROOTDEV, blockno := b, valid := false, refcnt := 1 } j) b' →
        (j = i ∧ b' = b) ∨ (j ≠ i ∧ Caches (s.buf j) b') := by
      intro j b' h
      by_cases hj : j = i
      · rw [hj, upd_same] at h; exact .inl ⟨hj, h.2.symm⟩
      · rw [upd_ne _ _ hj] at h; exact .inr ⟨hj, h⟩
    refine ⟨fun j => ?_, fun j k b' h1 h2 => ?_, fun q j b' h => ?_⟩
    · by_cases hj : j = i
      · simp only [hj, upd_same]; exact .inr trivial
      · simp only [upd_ne _ _ hj]; exact hi.dev j
    · rcases hcase h1 with ⟨e1, eb⟩ | ⟨-, h1⟩ <;> rcases hcase h2 with ⟨e2, eb'⟩ | ⟨-, h2⟩
      · rw [e1, e2]
      · exact absurd (eb ▸ h2) (hno k)
      · exact absurd (eb' ▸ h1) (hno j)
      · exact hi.uniq j k b' h1 h2
    · simp only [upd2_apply] at h
      split at h
      · rename_i he; cases h; simp only [he.2, upd_same]; exact ⟨rfl, rfl⟩
      -- a free buffer is in nobody's use
      have hj : j ≠ i := by
        intro e
        rw [e, free_idle hc hz q] at h
        cases h
      simp only [upd_ne _ _ hj]; exact hi.asked q j b' h
  | acquire p i b c hu hl | keep p i b c hu hv | bwrite p i b k c hu hk
  | absorb p i b k hu hh hm h0 | release p i b c hu =>
    exact ident_use hi (sameId_refl _) hu rfl (.inl rfl)
  | fill p i b c hu hv | put p i b k k' d c hu hd | pin p i b k hu hh hm h0 hl hp =>
    exact ident_use hi (sameId_upd _ _ _ rfl rfl) hu rfl (.inl rfl)
  | unref p i b r c hu hr => exact ident_use hi (sameId_upd _ _ _ rfl rfl) hu rfl (.inr rfl)
  | unpin i b c hb hl hp hd => exact ident_congr hi (sameId_upd _ _ _ rfl rfl) fun _ _ _ h => .inl h

/-! ## Locks -/

/-- The lock and its holder's use change together. -/
theorem lock_upd {o : Option P}
    (ho : (o = some p ∧ u.held = true ∧ (s.lock i = none ∨ s.lock i = some p)) ∨
      (o = none ∧ u.held = false ∧ s.lock i = some p))
    (q : P) (j : Idx) : upd s.lock i o j = some q ↔ (upd2 s.use p i u q j).held = true := by
  have hl := hc.lock q j
  by_cases hj : j = i
  · rw [hj]
    by_cases hq : q = p
    · rw [hq]
      rcases ho with ⟨h1, h2, -⟩ | ⟨h1, h2, -⟩ <;> simp [h1, h2]
    · rw [upd2_ne _ _ fun h => hq h.1, ← hc.lock q i]
      rcases ho with ⟨h1, -, h3 | h3⟩ | ⟨h1, -, h3⟩ <;> simp [h1, h3, Ne.symm hq]
  · rw [upd_ne _ _ hj, upd2_ne _ _ fun h => hj h.2]; exact hl

theorem lock_keep (hu : u.held = (s.use p i).held) (q : P) (j : Idx) :
    s.lock j = some q ↔ (upd2 s.use p i u q j).held = true := by
  rw [hc.lock q j, upd2_apply]
  split
  · rename_i h; rw [h.1, h.2, hu]
  · exact .rfl

theorem lock_move (m : Move start d₀ s t) : ∀ p i, t.lock i = some p ↔ (t.use p i).held = true := by
  cases m with
  | hit p i b c hb hu => exact lock_keep hc (by rw [hu]; rfl)
  | recycle p i b c hno hz => exact lock_keep hc (by rw [free_idle hc hz p]; rfl)
  | acquire p i b c hu hl => exact lock_upd hc (.inl ⟨rfl, rfl, .inl hl⟩)
  | keep p i b c hu hv | fill p i b c hu hv | put p i b k k' d c hu hd | bwrite p i b k c hu hk
  | absorb p i b k hu hh hm h0
  | pin p i b k hu hh hm h0 hl hp | unref p i b r c hu hr => exact lock_keep hc (by rw [hu]; rfl)
  | release p i b c hu => exact lock_upd hc (.inr ⟨rfl, rfl, (hc.lock p i).mpr (by rw [hu]; rfl)⟩)
  | _ => exact hc.lock

end

/-! ## Reference counts -/

/-- A free buffer is not the one being pinned, so recycling it unpins nothing. -/
theorem pinned_recycle (hc : Core start d₀ s) (hz : (s.buf i).refcnt = 0) (p : P) (b : Nat)
    (c : Option (Committer P)) : pinned { s with
      buf := upd s.buf i { s.buf i with dev := ROOTDEV, blockno := b, valid := false, refcnt := 1 }
      use := upd2 s.use p i (.waiting b)
      commit := c } = pinned s :=
  pinned_congr rfl rfl rfl fun q j hq => by simp only [upd_ne _ _ (pinning_ne hc hz hq)]

/-- The next block to unpin is pinned, and no longer so afterwards. -/
theorem drop_next {l : List Nat} (hl : l.Nodup) {u : Nat} (h : l[u]? = some b) :
    l.drop u = b :: l.drop (u + 1) ∧ b ∉ l.drop (u + 1) := by
  obtain ⟨hu, hb⟩ := List.getElem?_eq_some_iff.mp h
  have h1 : l.drop u = b :: l.drop (u + 1) := by rw [← hb]; exact List.drop_eq_getElem_cons hu
  have h2 : (l.drop u).Nodup := hl.sublist (List.drop_sublist u l)
  rw [h1] at h2
  exact ⟨h1, (List.nodup_cons.mp h2).1⟩

/-- One process changes its use of one buffer, and the count follows. -/
theorem count_use (hc : Core start d₀ s) (hb : t.buf = upd s.buf i x) (hs : SameId s.buf t.buf)
    (hp : pinned t = pinned s) (he : t.use = upd2 s.use p i u)
    (hi : x.refcnt + (s.use p i).count = (s.buf i).refcnt + u.count) : Counted t := by
  intro j
  have h1 := hc.count j
  rw [pins_congr hp (hs j).1 (hs j).2, he, hb]
  by_cases hj : j = i
  · have h3 := users_upd s.use p i u
    rw [hj] at h1 ⊢
    rw [upd_same]
    omega
  · rw [users_other _ _ _ hj, upd_ne _ _ hj]; exact h1

/-- One process goes on with its use of a buffer; no count changes. -/
theorem count_turn (hc : Core start d₀ s) (hr : ∀ j, (t.buf j).refcnt = (s.buf j).refcnt) (hs : SameId s.buf t.buf)
    (hp : pinned t = pinned s) (he : t.use = upd2 s.use p i u) (hi : (s.use p i).count = u.count) : Counted t := by
  intro j
  have h1 := hc.count j
  rw [pins_congr hp (hs j).1 (hs j).2, he, hr]
  by_cases hj : j = i
  · have h3 := users_upd s.use p i u
    rw [hj] at h1 ⊢
    omega
  · rw [users_other _ _ _ hj]; exact h1

omit [DecidableEq P] in
/-- The pin of one buffer changes, and its count follows. -/
theorem count_pin (hc : Core start d₀ s) (hb : t.buf = upd s.buf i x) (hs : SameId s.buf t.buf)
    (hu : ∀ j, users t.use j = users s.use j) (hi : x.refcnt + pins s i = (s.buf i).refcnt + pins t i)
    (hp : ∀ b, b ≠ (s.buf i).blockno → (b ∈ pinned t ↔ b ∈ pinned s)) (hr : (s.buf i).dev = ROOTDEV) : Counted t := by
  intro j
  have h1 := hc.count j
  rw [hu]
  by_cases hj : j = i
  · rw [hj] at h1 ⊢
    rw [hb, upd_same]
    omega
  have : pins t j = pins s j := by
    unfold pins
    rw [(hs j).1, (hs j).2]
    by_cases hd : (s.buf j).dev = ROOTDEV
    · have hne : (s.buf j).blockno ≠ (s.buf i).blockno := fun e => hj (hc.ident.uniq j i _ ⟨hd, rfl⟩ ⟨hr, e.symm⟩)
      simp only [hp _ hne]
    · simp [hd]
  rw [this, hb, upd_ne _ _ hj]; exact h1

omit [DecidableEq P] in
theorem count_same (hc : Core start d₀ s) (hb : t.buf = s.buf) (hu : t.use = s.use) (hp : pinned t = pinned s) :
    Counted t := by
  intro j
  rw [pins_congr hp (by rw [hb]) (by rw [hb]), hb, hu]
  exact hc.count j

theorem refcnt_data (f : Idx → Buf) (i : Idx) (d : Block) (v : Bool) (j : Idx) :
    (upd f i { f i with data := d, valid := v } j).refcnt = (f j).refcnt := by
  by_cases h : j = i
  · rw [h, upd_same]
  · rw [upd_ne _ _ h]

theorem count_move (hc : Core start d₀ s) (m : Move start d₀ s t) : Counted t := by
  cases m with
  | panic x => exact hc.count
  | ctl l c hl => exact count_same hc rfl rfl (pinned_keep (sameId_refl _) hl rfl rfl)
  | hit p i b c hb hu =>
    have hs := sameId_upd s.buf i { s.buf i with refcnt := (s.buf i).refcnt + 1 } rfl rfl
    refine count_use hc rfl hs (pinned_keep hs rfl rfl rfl) rfl ?_
    rw [hu]
    simp [Use.count]
  | recycle p i b c hno hz =>
    have hp := pinned_recycle hc hz p b c
    intro j
    by_cases hj : j = i
    · have h1 := users_upd s.use p i (.waiting b)
      have h2 := (free_buf hc hz).1
      have h3 : b ∉ pinned s := fun h => by
        obtain ⟨k, hk, -⟩ := hc.data.cached b h
        exact hno k hk
      rw [free_idle hc hz p] at h1
      simp only [hj, upd_same, pins, hp, h3, and_false, if_false]
      simp only [Use.count] at h1
      omega
    · rw [pins_congr hp (by simp only [upd_ne _ _ hj]) (by simp only [upd_ne _ _ hj])]
      simp only [upd_ne _ _ hj, users_other _ _ _ hj]
      exact hc.count j
  | acquire p i b c hu hl | keep p i b c hu hv | bwrite p i b k c hu hk
  | absorb p i b k hu hh hm h0 | release p i b c hu =>
    exact count_turn hc (fun _ => rfl) (sameId_refl _) rfl rfl (by rw [hu]; rfl)
  | fill p i b c hu hv =>
    have hs := sameId_upd s.buf i { s.buf i with data := s.disk (s.buf i).blockno, valid := true } rfl rfl
    exact count_turn hc (refcnt_data _ _ _ _) hs (pinned_keep hs rfl rfl rfl) rfl (by rw [hu]; rfl)
  | put p i b k k' d c hu hd =>
    have hs := sameId_upd s.buf i { s.buf i with data := d } rfl rfl
    exact count_turn hc (refcnt_data _ _ _ _) hs (pinned_keep hs rfl rfl rfl) rfl (by rw [hu]; rfl)
  | pin p i b k hu hh hm h0 hl hp =>
    obtain ⟨hd, hb⟩ := hc.ident.asked p i b (by rw [hu]; rfl)
    have hs := sameId_upd s.buf i { s.buf i with refcnt := (s.buf i).refcnt + 1 } rfl rfl
    have h1 : pinned s = s.log.lh := by rw [pinned_none hp, h0, List.drop_zero]
    refine count_pin hc rfl hs (fun j => ?_) ?_ (fun b' hb' => ?_) hd
    · by_cases hj : j = i
      · have h2 := users_upd s.use p i (.holding b false)
        rw [hu] at h2
        rw [hj]
        exact Nat.add_right_cancel h2
      · exact users_other _ _ _ hj
    · simp [pins, pinned, hp, h0, hd, hb, hm]
    · rw [h1]
      simp [pinned, h0, hb']
  | list p i hp =>
    refine count_same hc rfl rfl ?_
    have h0 := (hc.listed.pin p i hp).2.2.2.2.2
    simp [pinned, hp, h0]
  | unref p i b r c hu hr =>
    have hs := sameId_upd s.buf i { s.buf i with refcnt := (s.buf i).refcnt - 1 } rfl rfl
    refine count_use hc rfl hs (pinned_keep hs rfl rfl rfl) rfl ?_
    rw [hu]
    simp [Use.count]
  | unpin i b c hb hl hp hd =>
    have hs := sameId_upd s.buf i { s.buf i with refcnt := (s.buf i).refcnt - 1 } rfl rfl
    obtain ⟨h1, h2⟩ := drop_next hc.listed.nodup hl
    refine count_pin hc rfl hs (fun _ => rfl) ?_ (fun b' hb' => ?_) hb.1
    · simp [pins, pinned, hp, hb.1, hb.2, h1, h2]
    · rw [hb.2] at hb'
      simp [pinned, hp, h1, hb']
  | clear c hu hp =>
    refine count_same hc rfl rfl ?_
    simp [pinned, hp, hu]

/-! ## The list of the log -/

theorem listed_move (hc : Core start d₀ s) (m : Move start d₀ s t) : Listed start t := by
  have h := hc.listed
  cases m with
  | ctl l c hl => exact listed_congr h hl rfl rfl fun _ _ _ => ⟨rfl, rfl, id⟩
  | hit p i b c hb hu | put p i b k k' d c hu hd | unref p i b r c hu hr =>
    exact listed_data h rfl rfl rfl rfl rfl rfl id
  | recycle p i b c hno hz =>
    refine listed_congr h rfl rfl rfl fun q j hq => ?_
    simp only [upd_ne _ _ (pinning_ne hc hz hq)]
    exact ⟨trivial, trivial, id⟩
  | fill p i b c hu hv => exact listed_data h rfl rfl rfl rfl rfl rfl fun _ => rfl
  | pin p i b k hu hh hm h0 hl hp =>
    obtain ⟨hd, hb⟩ := hc.ident.asked p i b (by rw [hu]; rfl)
    refine ⟨h.nodup, h.home, h.fits, fun q j hq => ?_⟩
    cases hq
    simp only [upd_same]
    rw [hb]
    exact ⟨hd, hc.data.filled p i b k hu, hh, hm, hl, h0⟩
  | list p i hp =>
    obtain ⟨h1, h2, h3, h4, h5, h6⟩ := h.pin p i hp
    refine ⟨?_, fun b hb => ?_, ?_, fun _ _ hq => by cases hq⟩
    · exact List.Nodup.append h.nodup (List.nodup_singleton _) (by simpa using h4)
    · rcases List.mem_append.mp hb with hb | hb
      · exact h.home b hb
      · rw [List.mem_singleton.mp hb]; exact h3
    · rw [List.length_append]; exact h5
  | unpin i b c hb hl hp hd => exact ⟨h.nodup, h.home, h.fits, fun q j hq => by rw [hp] at hq; cases hq⟩
  | clear c hu hp =>
    exact ⟨List.nodup_nil, fun _ hb => (by cases hb), Nat.zero_le _, fun q j hq => by rw [hp] at hq; cases hq⟩
  | _ => exact listed_congr h rfl rfl rfl fun _ _ _ => ⟨rfl, rfl, id⟩

/-! ## Contents -/

theorem buf_refcnt (f : Idx → Buf) (i : Idx) (n : Int) (j : Idx) :
    (upd f i { f i with refcnt := n } j).dev = (f j).dev ∧
    (upd f i { f i with refcnt := n } j).blockno = (f j).blockno ∧
    (upd f i { f i with refcnt := n } j).valid = (f j).valid ∧
    (upd f i { f i with refcnt := n } j).data = (f j).data := by
  by_cases h : j = i
  · rw [h, upd_same]; exact ⟨rfl, rfl, rfl, rfl⟩
  · rw [upd_ne _ _ h]; exact ⟨rfl, rfl, rfl, rfl⟩

omit [Fintype P] in
/-- `data_keep` for a process that goes on with one buffer. -/
theorem data_turn (h : Data start d₀ s) (hp : pinned t = pinned s) (hh : t.hist = s.hist)
    (hd : t.disk = s.disk)
    (hb : ∀ i, (t.buf i).dev = (s.buf i).dev ∧ (t.buf i).blockno = (s.buf i).blockno ∧
      (t.buf i).valid = (s.buf i).valid ∧ (t.buf i).data = (s.buf i).data)
    (he : t.use = upd2 s.use p i u) (hn : ∀ b, s.use p i ≠ .holding b true)
    (hu : ∀ b k, u = .holding b k → (s.buf i).valid = true) :
    Data start d₀ t := by
  refine data_keep h (fun b => by rw [hp]; exact id) (fun b h1 h2 => absurd (hp ▸ h1) h2) hh hd hb
    (fun q j b k hq => ?_)
    fun q j b hq => ?_
  · rw [he, upd2_apply] at hq
    split at hq
    · rename_i e; rw [e.2]; exact .inr (hu b k hq)
    · exact .inl hq
  · rw [he, upd2_ne _ _ fun e => hn _ (by rw [← e.1, ← e.2]; exact hq)]; exact hq

section

variable (hc : Core start d₀ s)

include hc

theorem data_recycle (hz : (s.buf i).refcnt = 0) (p : P) (b : Nat) (c : Option (Committer P)) :
    Data start d₀ { s with
      buf := upd s.buf i { s.buf i with dev := ROOTDEV, blockno := b, valid := false, refcnt := 1 }
      use := upd2 s.use p i (.waiting b)
      commit := c } := by
  have h := hc.data
  have hp := pinned_recycle hc hz p b c
  have hother : ∀ {q j}, s.use q j ≠ .idle → j ≠ i := fun hu e => hu (by rw [e]; exact free_idle hc hz _)
  refine ⟨fun b' hb' => ?_, fun q j b' k hq => ?_, fun j hv hr => ?_, fun b' hh hm => ?_⟩
  · rw [hp] at hb'
    obtain ⟨j, h1, h2⟩ := h.cached b' hb'
    -- the buffer of a pinned block is not free
    have hj : j ≠ i := by
      intro e
      have := (free_buf hc hz).2
      rw [e] at h1
      simp [pins, h1.1, h1.2, hb'] at this
    exact ⟨j, by simp only [upd_ne _ _ hj]; exact ⟨h1, h2⟩⟩
  · simp only [upd2_apply] at hq
    split at hq
    · cases hq
    · simp only [upd_ne _ _ (hother (by rw [hq]; exact Use.noConfusion))]
      exact h.filled q j b' k hq
  · have hj : j ≠ i := by
      intro e
      simp only [e, upd_same] at hv
      cases hv
    simp only [upd_ne _ _ hj] at hv hr ⊢
    rcases h.clean j hv hr with h1 | ⟨q, hq⟩
    · exact .inl h1
    · exact .inr ⟨q, by simp only [upd2_ne _ _ fun e : q = p ∧ j = i => hj e.2]; exact hq⟩
  · rw [hp] at hm; exact h.synced b' hh hm

/-- An invalid buffer's block is not pinned, so the disk has its contents. -/
theorem data_fill (hu : s.use p i = .locked b) (hv : (s.buf i).valid = false) (c : Option (Committer P)) :
    Data start d₀ { s with
      buf := upd s.buf i { s.buf i with data := s.disk (s.buf i).blockno, valid := true }
      use := upd2 s.use p i (.holding b false)
      commit := c } := by
  have h := hc.data
  obtain ⟨hd, hb⟩ := hc.ident.asked p i b (by rw [hu]; rfl)
  have hs := sameId_upd s.buf i { s.buf i with data := s.disk (s.buf i).blockno, valid := true } rfl rfl
  have hp := pinned_keep (s := s) (t := { s with
    buf := upd s.buf i { s.buf i with data := s.disk (s.buf i).blockno, valid := true }
    use := upd2 s.use p i (.holding b false)
    commit := c }) hs rfl rfl rfl
  have hnot : b ∉ pinned s := by
    intro hm
    obtain ⟨j, h1, h2⟩ := h.cached b hm
    rw [hc.ident.uniq j i b h1 ⟨hd, hb⟩, hv] at h2
    cases h2
  refine ⟨cached_mono h.cached (fun b' => by rw [hp]; exact id) fun j b' h1 h2 => ?_, fun q j b' k hq => ?_,
    fun j hv' hr => ?_,
    fun b' hh hm => ?_⟩
  · refine ⟨(caches_sameId hs j b').mpr h1, ?_⟩
    by_cases hj : j = i
    · simp only [hj, upd_same]
    · simp only [upd_ne _ _ hj]; exact h2
  · by_cases hj : j = i
    · simp only [hj, upd_same]
    · simp only [upd_ne _ _ hj]
      simp only [upd2_ne _ _ fun e : q = p ∧ j = i => hj e.2] at hq
      exact h.filled q j b' k hq
  · by_cases hj : j = i
    · refine .inl ?_
      simp only [hj, upd_same, hb, want]
      split
      · exact h.synced b ‹_› hnot
      · rfl
    · simp only [upd_ne _ _ hj] at hv' hr ⊢
      rcases h.clean j hv' hr with h1 | ⟨q, hq⟩
      · exact .inl h1
      · exact .inr ⟨q, by simp only [upd2_ne _ _ fun e : q = p ∧ j = i => hj e.2]; exact hq⟩
  · rw [hp] at hm; exact h.synced b' hh hm

theorem data_put {k' : Bool} {d : Block} (hu : s.use p i = .holding b k)
    (hd' : k' = true ∨ (Home start b ∧ d = logical d₀ s b)) (c : Option (Committer P)) : Data start d₀ { s with
      buf := upd s.buf i { s.buf i with data := d }
      use := upd2 s.use p i (.holding b k')
      commit := c } := by
  have h := hc.data
  obtain ⟨hd, hb⟩ := hc.ident.asked p i b (by rw [hu]; rfl)
  have hs := sameId_upd s.buf i { s.buf i with data := d } rfl rfl
  have hp := pinned_keep (s := s) (t := { s with
    buf := upd s.buf i { s.buf i with data := d }
    use := upd2 s.use p i (.holding b k')
    commit := c }) hs rfl rfl rfl
  have hvalid : ∀ j, (upd s.buf i { s.buf i with data := d } j).valid = (s.buf j).valid := by
    intro j
    by_cases hj : j = i
    · rw [hj, upd_same]
    · rw [upd_ne _ _ hj]
  refine ⟨cached_mono h.cached (fun b' => by rw [hp]; exact id) fun j b' h1 h2 =>
    ⟨(caches_sameId hs j b').mpr h1, by rw [hvalid]; exact h2⟩,
    fun q j b' k'' hq => ?_, fun j hv' hr => ?_, fun b' hh hm => ?_⟩
  · rw [hvalid]
    simp only [upd2_apply] at hq
    split at hq
    · rename_i e; rw [e.2]; exact h.filled p i b k hu
    · exact h.filled q j b' k'' hq
  · rw [hvalid] at hv'
    by_cases hj : j = i
    · simp only [hj, upd_same]
      rcases hd' with rfl | ⟨hh, hd'⟩
      · exact .inr ⟨p, by rw [upd2_same, hb]⟩
      · exact .inl (by rw [hb, want, if_pos hh]; exact hd')
    · simp only [upd_ne _ _ hj] at hr ⊢
      rcases h.clean j hv' hr with h1 | ⟨q, hq⟩
      · exact .inl h1
      · exact .inr ⟨q, by simp only [upd2_ne _ _ fun e : q = p ∧ j = i => hj e.2]; exact hq⟩
  · rw [hp] at hm; exact h.synced b' hh hm

theorem data_bwrite (hu : s.use p i = .holding b k) (hk : Home start b → k = false) (c : Option (Committer P)) :
    Data start d₀ { s with
      disk := upd s.disk (s.buf i).blockno (s.buf i).data
      use := upd2 s.use p i (.holding b false)
      commit := c } := by
  have h := hc.data
  obtain ⟨hd, hb⟩ := hc.ident.asked p i b (by rw [hu]; rfl)
  have hhome : Home start b → (s.buf i).data = logical d₀ s b := fun hh => by
    have := clean_data hc (hk hh ▸ hu)
    rwa [want, if_pos hh] at this
  refine ⟨cached_mono h.cached (fun _ hm => hm) fun j b' h1 h2 => ⟨h1, h2⟩, fun q j b' k' hq => ?_, fun j hv hr => ?_,
    fun b' hh hm => ?_⟩
  · simp only [upd2_apply] at hq
    split at hq
    · rename_i e; rw [e.2]; exact h.filled p i b k hu
    · exact h.filled q j b' k' hq
  · by_cases hj : j = i
    · refine .inl ?_
      simp only [hj, hb, want, upd_same]
      split
      · exact hhome ‹_›
      · rfl
    · have hne : (s.buf j).blockno ≠ (s.buf i).blockno := fun e => hj (hc.ident.uniq j i _ ⟨hr, rfl⟩ ⟨hd, e.symm⟩)
      rcases h.clean j hv hr with h1 | ⟨q, hq⟩
      · refine .inl (h1.trans ?_)
        unfold want
        split
        · rfl
        · simp only [upd_ne _ _ hne]
      · exact .inr ⟨q, by simp only [upd2_ne _ _ fun e : q = p ∧ j = i => hj e.2]; exact hq⟩
  · by_cases e : b' = b
    · simp only [e, hb, upd_same]
      exact hhome (e ▸ hh)
    · simp only [hb, upd_ne _ _ e]; exact h.synced b' hh hm

/-- `log_write`: the holder's changes become the logical contents, and the block is pinned. -/
theorem data_log (hu : s.use p i = .holding b k) (hh : Home start b)
    (hb : ∀ j, (t.buf j).dev = (s.buf j).dev ∧ (t.buf j).blockno = (s.buf j).blockno ∧
      (t.buf j).valid = (s.buf j).valid ∧ (t.buf j).data = (s.buf j).data)
    (hist : t.hist = s.hist ++ [((s.buf i).blockno, (s.buf i).data)]) (hd : t.disk = s.disk)
    (he : t.use = upd2 s.use p i (.holding b false)) (hp : ∀ b', b' ∈ pinned t ↔ b' ∈ pinned s ∨ b' = b) :
    Data start d₀ t := by
  have h := hc.data
  obtain ⟨hd0, hb0⟩ := hc.ident.asked p i b (by rw [hu]; rfl)
  have hlog : logical d₀ t = _ := logical_log _ _ hist
  rw [hb0] at hlog
  have hcaches : ∀ j b', Caches (t.buf j) b' ↔ Caches (s.buf j) b' := fun j b' => by
    unfold Caches; rw [(hb j).1, (hb j).2.1]
  refine ⟨fun b' hb' => ?_, fun q j b' k' hq => ?_, fun j hv hr => ?_, fun b' hh' hm => ?_⟩
  · rcases (hp b').mp hb' with h1 | h1
    · obtain ⟨j, h2, h3⟩ := h.cached b' h1
      exact ⟨j, (hcaches j b').mpr h2, (hb j).2.2.1.trans h3⟩
    · exact ⟨i, (hcaches i b').mpr ⟨hd0, hb0.trans h1.symm⟩, (hb i).2.2.1.trans (h.filled p i b k hu)⟩
  · rw [(hb j).2.2.1]
    rw [he, upd2_apply] at hq
    split at hq
    · rename_i e; rw [e.2]; exact h.filled p i b k hu
    · exact h.filled q j b' k' hq
  · obtain ⟨h1, h2, h3, h4⟩ := hb j
    rw [h3] at hv
    rw [h1] at hr
    rw [h2, h4]
    by_cases hj : j = i
    · refine .inl ?_
      rw [hj, hb0, want, if_pos hh, hlog, upd_same]
    have hne : (s.buf j).blockno ≠ b := fun e => hj (hc.ident.uniq j i b ⟨hr, e⟩ ⟨hd0, hb0⟩)
    rcases h.clean j hv hr with h5 | ⟨q, hq⟩
    · refine .inl (h5.trans ?_)
      unfold want
      rw [hlog, hd, upd_ne _ _ hne]
    · exact .inr ⟨q, by rw [he, upd2_ne _ _ fun e : q = p ∧ j = i => hj e.2]; exact hq⟩
  · have hne : b' ≠ b := fun e => hm ((hp b').mpr (.inr e))
    rw [hlog, upd_ne _ _ hne, hd]
    exact h.synced b' hh' fun h1 => hm ((hp b').mpr (.inl h1))

theorem data_move (m : Move start d₀ s t) : Data start d₀ t := by
  have h := hc.data
  cases m with
  | panic x =>
    exact data_keep h (fun _ => id) (fun _ h1 h2 => absurd h1 h2) rfl rfl (fun _ => ⟨rfl, rfl, rfl, rfl⟩)
      (fun _ _ _ _ => .inl) fun _ _ _ => id
  | ctl l c hl =>
    have hp := pinned_keep (s := s) (t := { s with log := l, commit := c }) (sameId_refl _) hl rfl rfl
    exact data_keep h (fun b => by rw [hp]; exact id) (fun b h1 h2 => absurd (hp ▸ h1) h2) rfl rfl
      (fun _ => ⟨rfl, rfl, rfl, rfl⟩)
      (fun _ _ _ _ => .inl) fun _ _ _ => id
  | hit p i b c hb hu | unref p i b r c hu hr =>
    exact data_turn h (pinned_keep (sameId_upd _ _ _ rfl rfl) rfl rfl rfl) rfl rfl (buf_refcnt _ _ _) rfl
      (fun b' e => by rw [hu] at e; cases e) fun _ _ e => by cases e
  | recycle p i b c hno hz => exact data_recycle hc hz p b c
  | acquire p i b c hu hl | release p i b c hu =>
    exact data_turn h rfl rfl rfl (fun _ => ⟨rfl, rfl, rfl, rfl⟩) rfl (fun b' e => by rw [hu] at e; cases e)
      fun _ _ e => by cases e
  | keep p i b c hu hv =>
    exact data_turn h rfl rfl rfl (fun _ => ⟨rfl, rfl, rfl, rfl⟩) rfl (fun b' e => by rw [hu] at e; cases e)
      fun _ _ _ => hv
  | fill p i b c hu hv => exact data_fill hc hu hv c
  | put p i b k k' d c hu hd => exact data_put hc hu hd c
  | bwrite p i b k c hu hk => exact data_bwrite hc hu hk c
  | absorb p i b k hu hh hm h0 =>
    have hb : b ∈ pinned s := by simp [pinned, h0, hm]
    exact data_log hc hu hh (fun _ => ⟨rfl, rfl, rfl, rfl⟩) rfl rfl rfl fun b' =>
      ⟨.inl, fun h => h.elim id fun e => e ▸ hb⟩
  | pin p i b k hu hh hm h0 hl hp =>
    have hb := (hc.ident.asked p i b (by rw [hu]; rfl)).2
    exact data_log hc hu hh (buf_refcnt _ _ _) rfl rfl rfl fun b' => by simp [pinned, hp, h0, hb]
  | list p i hp =>
    have h0 := (hc.listed.pin p i hp).2.2.2.2.2
    have he : pinned { s with log := { s.log with lh := s.log.lh ++ [(s.buf i).blockno] }, pinning := none } =
        pinned s := by
      simp [pinned, hp, h0]
    exact data_keep h (fun b => by rw [he]; exact id) (fun b h1 h2 => absurd (he ▸ h1) h2) rfl rfl
      (fun _ => ⟨rfl, rfl, rfl, rfl⟩)
      (fun _ _ _ _ => .inl) fun _ _ _ => id
  | unpin i b c hb hl hp hd =>
    obtain ⟨h1, -⟩ := drop_next hc.listed.nodup hl
    refine data_keep h (fun b' hb' => ?_) (fun b' hb' hn => ?_) rfl rfl (buf_refcnt _ _ _)
      (fun _ _ _ _ => .inl) fun _ _ _ => id
    · simp only [pinned, hp, h1] at hb' ⊢
      simpa using .inr (by simpa using hb')
    · simp only [pinned, hp, h1] at hb' hn
      have : b' = b := by
        rcases List.mem_cons.mp (by simpa using hb') with e | e
        · exact e
        · exact absurd (by simpa using e) hn
      rw [this]; exact hd
  | clear c hu hp =>
    have he : pinned { s with log := { s.log with lh := [] }, unpinned := 0, commit := c } = pinned s := by
      simp [pinned, hp, hu]
    exact data_keep h (fun b => by rw [he]; exact id) (fun b h1 h2 => absurd (he ▸ h1) h2) rfl rfl
      (fun _ => ⟨rfl, rfl, rfl, rfl⟩)
      (fun _ _ _ _ => .inl) fun _ _ _ => id

theorem core_move (m : Move start d₀ s t) : Core start d₀ t :=
  ⟨ring_move hc m, ident_move hc m, count_move hc m, lock_move hc m, listed_move hc m, data_move hc m⟩

end

end Xv6.Bio
