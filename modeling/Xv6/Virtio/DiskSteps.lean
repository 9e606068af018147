/-
  Xv6.Virtio.DiskSteps — every step of the driver and of the device keeps the invariant of
  `Xv6.Virtio.DiskInv`.
-/

import Xv6.Virtio.DiskInv

namespace Xv6.Virtio

open Lib Monitor

variable {B P : Type} {d : Disk B} {ls : P → Option (Loc B)} {l : Loc B} {p : P} {is : List Nat} {idx : Idx} {b : B}

/-! ## Steps of the device -/

/-- The device moves a chain on, up to the used ring. -/
theorem good_device (hg : Good d ls) {fetched : BitVec 16} {working finished : List Nat}
    {entered : Option Nat} {ring : Fin NUM → Nat}
    {status : Nat → BitVec 8} {d' : Disk B}
    (hd' : d' = { d with
      fetched := fetched, working := working, finished := finished, entered := entered
      usedRing := ring, infoStatus := status })
    (hdev : (inDevice d').Perm (inDevice d)) (hused : usedQ d' = usedQ d) (hstat : ∀ h ∈ statused d', status h = 0#8)
    (hent : ∀ h, entered = some h → ring (Fifo.slot num_pos d.usedIdx) = h) : Good d' ls := by
  have hflow : (flow d').Perm (flow d) := by unfold flow; rw [hused]; exact hdev.append_right _
  have hfact : ∀ l, Fact d l → Fact d' l := fun l =>
    fact_alike (by rw [hd']; exact ⟨rfl, rfl, rfl, rfl, rfl⟩) (fun _ _ _ => by rw [hd'])
      (fun _ h => by rw [hd']; exact h)
      ⟨[], by rw [hused, List.append_nil]⟩
  refine ⟨by rw [hd']; exact hg.pool, hg.bufs, fun p l hl => hfact l (hg.fact p l hl), hflow.nodup_iff.mpr hg.nodup,
    fun h hh => hg.owner h (hflow.mem_iff.mp hh), fun p b idx hp => ?_,
    by rw [hd'] at hstat ⊢; exact hstat, by rw [hd']; exact hent,
    by rw [hd']; exact hg.idle, by rw [hd']; exact hg.orderly, by rw [hd']; exact hg.panic⟩
  exact waiting_congr (by rw [hd']) (by rw [hd']) hdev.mem_iff (by rw [hused]) (fun q hq => ⟨q, hq⟩)
    (hg.waiting p b idx hp)

section
variable [DecidableEq B] (hg : Good d ls)
include hg

theorem good_fetch : Good (device d .fetch) ls := by
  simp only [device]
  split
  · rename_i hne
    have hpop : availQ d = _ :: Fifo.queue num_pos d.availRing (d.fetched + 1#16) d.availIdx :=
      Fifo.queue_pop num_pos d.availRing hne
    refine good_device hg rfl ?_ rfl hg.status hg.entry
    show (Fifo.queue num_pos d.availRing (d.fetched + 1#16) d.availIdx ++
      (d.working ++ [_] ++ (d.finished ++ d.entered.toList))).Perm
      (availQ d ++ (d.working ++ (d.finished ++ d.entered.toList)))
    rw [hpop, List.append_assoc, ← List.append_assoc, List.singleton_append, ← List.append_assoc]
    exact List.perm_middle
  · exact hg

theorem good_status (h : Nat) : Good (device d (.status h)) ls := by
  simp only [device]
  split
  · rename_i hin
    have hf : h ∈ flow d := by unfold flow inDevice; simp [hin]
    rw [writeStatus_flow hg hf]
    refine good_device hg rfl ?_ rfl (fun k hk => ?_) hg.entry
    · refine List.Perm.append_left _ ?_
      show (d.working.erase h ++ (d.finished ++ [h] ++ d.entered.toList)).Perm _
      rw [List.append_assoc, ← List.append_assoc]
      refine List.perm_middle.trans ?_
      rw [List.append_assoc]
      exact (List.perm_cons_erase hin).symm.append_right _
    · by_cases e : k = h
      · rw [e]; exact upd_same _ _ _
      · refine (upd_ne _ _ e).trans (hg.status k ?_)
        have hk' : k ∈ d.finished ++ [h] ++ d.entered.toList ++ usedQ d := hk
        unfold statused
        simp only [List.mem_append, List.mem_singleton] at hk' ⊢
        tauto
  · exact hg

theorem good_entry (h : Nat) : Good (device d (.entry h)) ls := by
  simp only [device]
  split
  · rename_i hin
    obtain ⟨hin, hnone⟩ := hin
    have hroom : Fifo.dist d.seen d.usedIdx < NUM := by have := used_dist hg; show _ < 8; omega
    have hused := Fifo.queue_write num_pos num_dvd d.usedRing hroom h
    have hperm : (d.finished.erase h ++ [h]).Perm d.finished :=
      List.perm_append_comm.trans (List.perm_cons_erase hin).symm
    refine good_device hg rfl ?_ hused (fun k hk => ?_) fun k e => ?_
    · refine List.Perm.append_left _ (List.Perm.append_left _ ?_)
      show (d.finished.erase h ++ [h]).Perm (d.finished ++ d.entered.toList)
      rw [hnone]
      show (d.finished.erase h ++ [h]).Perm (d.finished ++ [])
      rw [List.append_nil]
      exact hperm
    · refine hg.status k ?_
      rcases List.mem_append.mp hk with hk | hk
      · exact List.mem_append_left _ (List.mem_append_left _ (hperm.mem_iff.mp hk))
      · have hk' : k ∈ Fifo.queue num_pos (upd d.usedRing (Fifo.slot num_pos d.usedIdx) h) d.seen d.usedIdx := hk
        rw [hused] at hk'
        exact List.mem_append_right _ hk'
    · cases e
      exact upd_same _ _ _
  · exact hg

theorem good_complete : Good (device d .bump) ls := by
  simp only [device]
  split
  · rename_i h hent
    have hin : h ∈ inDevice d := by unfold inDevice; rw [hent]; simp
    obtain ⟨p, b, idx, hp, e⟩ := hg.owner h (List.mem_append_left _ hin)
    have hc : Chain d b idx := hg.fact p _ hp
    have hinfo : d.infoB h = some b := by rw [← e]; exact hc.info
    rw [hinfo]
    dsimp only
    generalize hd' : ({ d with usedIdx := d.usedIdx + 1#16, entered := none }.note b .completed : Disk B) = d'
    have hroom : Fifo.dist d.seen d.usedIdx + 1 < Fifo.values 16 := by
      have := used_dist hg
      have h16 : 3 < Fifo.values 16 := by decide
      omega
    have hpush := Fifo.queue_push num_pos d.usedRing hroom
    rw [hg.entry h hent] at hpush
    have hused : usedQ d' = usedQ d ++ [h] := by rw [← hd']; exact hpush
    have hdev : inDevice d = inDevice d' ++ [h] := by
      rw [← hd']
      show availQ d ++ (d.working ++ (d.finished ++ d.entered.toList)) =
        availQ d ++ (d.working ++ (d.finished ++ [])) ++ [h]
      rw [hent]
      simp
    have hperm : (flow d').Perm (flow d) := by
      unfold flow
      rw [hused, hdev, List.append_assoc]
      exact List.Perm.append_left _ List.perm_append_comm
    obtain ⟨hst, hbd⟩ : d.stage b = .published ∧ d.bdisk b = true := by
      cases hg.waiting p b idx hp with
      | device _ h2 h3 => exact ⟨h2, h3⟩
      | used h1 _ _ => exact absurd (e ▸ hin) (not_inDevice hg.nodup h1)
      | done h1 _ _ _ => exact absurd (e ▸ hin) h1
    have hstage : ∀ b', b' ≠ b → d'.stage b' = d.stage b' := fun b' hb => by rw [← hd']; exact upd_ne _ _ hb
    refine ⟨by rw [← hd']; exact hg.pool, hg.bufs, fun q l hq => ?_, hperm.nodup_iff.mpr hg.nodup,
      fun k hk => hg.owner k (hperm.mem_iff.mp hk), fun q b' idx' hq => ?_, fun k hk => ?_, ?_, fun b' hb => ?_, ?_, ?_⟩
    · -- only the request whose chain this is waits for `b`
      refine fact_alike (by rw [← hd']; exact ⟨rfl, rfl, rfl, rfl, rfl⟩) (fun b' hb hw => hstage b' fun e2 => ?_)
        (fun b' hc => ?_) ⟨[h], hused⟩
        (hg.fact q l hq)
      · have hqp := buf_owner hg hq hp (e2 ▸ hb) rfl
        rw [hqp, hp] at hq
        exact hw b idx (Option.some.inj hq).symm
      · rw [hstage b' fun e2 => ?_]
        · exact hc
        · rw [e2, hst] at hc
          cases hc
    · by_cases hqp : q = p
      · rw [hqp, hp] at hq
        cases hq
        refine .used (by rw [hused, e]; simp) (by rw [← hd']; exact upd_same _ _ _) (by rw [← hd']; exact hbd)
      have hne : b' ≠ b := fun e2 => hqp (buf_owner hg hq hp (by rw [e2]; rfl) rfl)
      have hh : idx'.i0 ≠ h := by
        intro e2
        exact hqp (head_owner hg hp hq (by rw [e2, ← e]; simp [Loc.owned, Idx.list])).symm
      refine waiting_congr (hstage b' hne) (by rw [← hd']; rfl) ?_ ?_ (fun r hr => ⟨r, hr⟩) (hg.waiting q b' idx' hq)
      · rw [hdev]; simp [hh]
      · rw [hused]; simp [hh]
    · have hk' : k ∈ statused d := by
        unfold statused at hk ⊢
        rw [hused, ← hd'] at hk
        rw [hent]
        have hk1 : k ∈ d.finished ++ [] ++ (usedQ d ++ [h]) := hk
        show k ∈ d.finished ++ [h] ++ usedQ d
        simp only [List.mem_append, List.mem_singleton, List.append_nil] at hk1 ⊢
        tauto
      rw [← hd']
      exact hg.status k hk'
    · rw [← hd']
      intro k hk
      cases hk
    · have hne : b' ≠ b := fun e2 => hb p (by rw [buf_some hp, e2]; rfl)
      exact (hstage b' hne).trans (hg.idle b' hb)
    · rw [← hd']
      show (d.orderly && decide (Stage.completed = (d.stage b).next)) = true
      rw [hg.orderly, hst]
      rfl
    · rw [← hd']; exact hg.panic
  · exact hg

theorem good_env (x : Dev) : Good (device d x) ls := by
  cases x with
  | fetch => exact good_fetch hg
  | status h => exact good_status hg h
  | entry h => exact good_entry hg h
  | bump => exact good_complete hg

end

variable [DecidableEq P]

/-! ## Calls -/

theorem good_enter (hg : Good d ls) (hp : ls p = none) (l : Loc B)
    (ho : l.owned = []) (hb : ∀ b, l.buf = some b → ∀ q, buf ls q ≠ some b) (hf : Fact d l) (hw : l.head = none) :
    Good d (upd ls p (some l)) := by
  have hown : own (upd ls p (some l)) = own ls := by
    rw [own_upd]
    show upd (own ls) p l.owned = own ls
    have h : own ls p = l.owned := by unfold own; rw [hp, ho]; rfl
    rw [← h]
    exact upd_self _ _
  have hkeep : ∀ {q l'}, ls q = some l' → upd ls p (some l) q = some l' := by
    intro q l' hq
    have hqp : q ≠ p := fun e => by rw [e, hp] at hq; cases hq
    rw [upd_ne _ _ hqp]
    exact hq
  refine ⟨by rw [hown]; exact hg.pool, fun q r b hq hr => ?_, fun q l' hq => ?_, hg.nodup,
    fun h hh => ?_, fun q b idx hq => ?_, hg.status,
    hg.entry, fun b hb' => hg.idle b fun q hq => hb' q ?_, hg.orderly, hg.panic⟩
  · rw [buf_upd] at hq hr
    rcases upd_eq.mp hq with ⟨e1, hq⟩ | ⟨-, hq⟩ <;> rcases upd_eq.mp hr with ⟨e2, hr⟩ | ⟨-, hr⟩
    · rw [e1, e2]
    · exact absurd hr (hb b hq r)
    · exact absurd hq (hb b hr q)
    · exact hg.bufs q r b hq hr
  · rcases upd_eq.mp hq with ⟨-, e⟩ | ⟨-, hq⟩
    · cases e; exact hf
    · exact hg.fact q l' hq
  · obtain ⟨q, b, idx, hq, e⟩ := hg.owner h hh
    exact ⟨q, b, idx, hkeep hq, e⟩
  · rcases upd_eq.mp hq with ⟨-, e⟩ | ⟨-, hq⟩
    · cases e; cases hw
    · exact waiting_congr rfl rfl .rfl .rfl (fun r hr => ⟨r, hkeep hr⟩) (hg.waiting q b idx hq)
  · have hqp : q ≠ p := fun e => by rw [e] at hq; unfold buf at hq; rw [hp] at hq; cases hq
    rw [buf_upd, upd_ne _ _ hqp]
    exact hq

/-! ## Steps within a stage of the request -/

section
variable (hg : Good d ls) (hpark : ∀ q l', q ≠ p → ls q = some l' → Parked l')
include hg hpark

theorem good_take (l' : Loc B) (hp : ls p = some l) (hl : ∃ b write, l = .alloc b write) (ht : Takes d.free is)
    (ho : l'.owned = is) (hbuf : l'.buf = l.buf) (hf : Fact { d with free := mark d.free is } l')
    (hw : l'.head = none) : Good { d with free := mark d.free is } (upd ls p (some l')) := by
  obtain ⟨b, write, e⟩ := hl
  subst e
  refine good_mine hg hp hpark trivial (mine_free d _ _ _) ?_ hbuf hf hw rfl
  have h := pool_takes (p := p) is hg.pool ht
  rw [own_some hp] at h
  rw [ho]
  exact h

theorem good_freed {l l' : Loc B} {i : Nat} (hp : ls p = some l) (hl : l.owned = i :: l'.owned) (hbuf : l'.buf = l.buf)
    (hf : Fact (freed d i) l') (hw : l.head = none) (hw' : l'.head = none) (hi : l.done = none) :
    Good (freed d i) (upd ls p (some l')) := by
  refine good_mine hg hp hpark (by rw [hw]; trivial) ?_ ?_ hbuf hf hw' hi
  · exact mine_freed d (by rw [hl]; exact .head _) _
  · exact hg.pool.give (by rw [own_some hp]; exact hl)

theorem good_publish (hp : ls p = some (.publish b idx)) :
    Good { d with availRing := upd d.availRing (Fifo.slot num_pos d.availIdx) idx.i0 }
      (upd ls p (some (.bump b idx))) := by
  have hroom : Fifo.dist d.fetched d.availIdx < NUM := by have := avail_dist hg; show _ < 8; omega
  have hq := Fifo.queue_write num_pos num_dvd d.availRing hroom idx.i0
  obtain ⟨h1, h2, h3⟩ := hg.fact p _ hp
  refine good_mine hg hp hpark trivial ?_ ?_ rfl ?_ rfl rfl
  · refine ⟨fun _ _ => ⟨rfl, rfl⟩, fun _ _ => rfl, fun _ _ => rfl, ?_, rfl, rfl, rfl, rfl, rfl, rfl, rfl⟩
    show Fifo.queue num_pos (upd d.availRing (Fifo.slot num_pos d.availIdx) idx.i0) d.fetched d.availIdx ++ _ = _
    rw [hq]
    rfl
  · exact pool_same hg hp (.bump b idx) rfl
  · exact ⟨h1, h2, chain_congr (d := d) (fun _ _ => ⟨rfl, rfl⟩) h3, upd_same _ _ _⟩

/-- The flag is cleared only when the handler has seen the chain. -/
theorem good_finish (hp : ls p = some (.wait b idx)) (hb : d.bdisk b = false) :
    Good d (upd ls p (some (.finish b idx))) := by
  have hc : Chain d b idx := hg.fact p _ hp
  have hw := hg.waiting p b idx hp
  cases hw with
  | device _ _ h | used _ _ h => rw [hb] at h; cases h
  | done hdev hus hst _ =>
    have hnot : idx.i0 ∉ flow d := by
      intro hf
      rcases List.mem_append.mp hf with h | h
      · exact hdev h
      · obtain ⟨q, hq⟩ := hus h
        have hqp : q ≠ p := fun e => by rw [e, hp] at hq; cases hq
        exact hpark q _ hqp hq
    exact good_mine hg hp hpark hnot (mine_free d d.free _ _) (pool_same hg hp (.finish b idx) rfl) rfl
      ⟨hst, hc.links⟩ rfl rfl

theorem good_unlink (hp : ls p = some (.finish b idx)) :
    Good { d with infoB := upd d.infoB idx.i0 none } (upd ls p (some (.freeChain b idx.i0 [idx.i1, idx.i2]))) := by
  refine good_mine hg hp hpark trivial ?_ ?_ rfl (hg.fact p _ hp) rfl rfl
  · refine ⟨fun i hi => ⟨rfl, upd_ne _ _ fun e => hi ?_⟩, fun _ _ => rfl, fun _ _ => rfl,
      rfl, rfl, rfl, rfl, rfl, rfl, rfl, rfl⟩
    rw [e]
    simp [Loc.owned, Idx.list]
  · exact pool_same hg hp (.freeChain b idx.i0 [idx.i1, idx.i2]) rfl

theorem good_next {id : Nat} (hp : ls p = some (.intrNext id)) :
    Good { d with seen := d.seen + 1#16 } (upd ls p (some .intr)) := by
  obtain ⟨b, rest, hu, hinfo, hst⟩ := hg.fact p _ hp
  have hne : d.seen ≠ d.usedIdx := fun e => by
    rw [show usedQ d = [] from Fifo.queue_nil num_pos d.usedRing e] at hu
    cases hu
  have hpop : usedQ d = _ :: usedQ { d with seen := d.seen + 1#16 } := Fifo.queue_pop num_pos d.usedRing hne
  rw [hu] at hpop
  have hrest : usedQ { d with seen := d.seen + 1#16 } = rest := (List.cons.inj hpop).2.symm
  have hflow : flow { d with seen := d.seen + 1#16 } = inDevice d ++ rest := by unfold flow; rw [hrest]; rfl
  have hsub : ∀ h, h ∈ rest → h ∈ usedQ d := fun h hh => by rw [hu]; exact .tail _ hh
  have hnd : (usedQ d).Nodup := (List.nodup_append.mp hg.nodup).2.1
  have hid : id ∉ rest := by rw [hu] at hnd; exact (List.nodup_cons.mp hnd).1
  have hfl : ∀ h, h ∈ flow { d with seen := d.seen + 1#16 } → h ∈ flow d := by
    intro h hh
    rw [hflow] at hh
    rcases List.mem_append.mp hh with hh | hh
    · exact List.mem_append_left _ hh
    · exact List.mem_append_right _ (hsub h hh)
  refine ⟨?_, by rw [buf_upd_same hp .intr rfl]; exact hg.bufs, fun q l' hq => ?_, ?_, fun h hh => ?_,
    fun q b' idx hq => ?_, fun h hh => ?_,
    hg.entry, ?_, hg.orderly, hg.panic⟩
  · rw [own_upd_same hp .intr rfl]; exact hg.pool
  · rcases upd_eq.mp hq with ⟨-, e⟩ | ⟨e, hq⟩
    · cases e; trivial
    · exact fact_parked (d := d) (hpark q l' e hq) (fun _ _ => rfl) (fun _ _ => ⟨rfl, rfl⟩) (hg.fact q l' hq)
  · rw [hflow]
    have h := hg.nodup
    unfold flow at h
    rw [hu] at h
    exact List.Nodup.sublist (List.Sublist.append_left (List.sublist_cons_self id rest) _) h
  · obtain ⟨q, b', idx, hq, e⟩ := hg.owner h (hfl h hh)
    have hqp : q ≠ p := fun e2 => by rw [e2, hp] at hq; cases hq
    exact ⟨q, b', idx, by rw [upd_ne _ _ hqp]; exact hq, e⟩
  · have hqp : q ≠ p := fun e => by rw [e, upd_same] at hq; cases hq
    rw [upd_ne _ _ hqp] at hq
    have hc : Chain d b' idx := hg.fact q _ hq
    cases hg.waiting q b' idx hq with
    | device h1 h2 h3 => exact .device h1 h2 h3
    | used h1 h2 h3 =>
      -- the entry that was dealt with is cleared already
      have hne' : idx.i0 ≠ id := by
        intro e
        rw [← e, hc.info] at hinfo
        cases hinfo
        rw [h2] at hst
        cases hst
      rw [hu] at h1
      refine .used ?_ h2 h3
      rw [hrest]
      exact (List.mem_cons.mp h1).resolve_left hne'
    | done h1 h2 h3 h4 =>
      refine .done h1 (fun h => ?_) h3 h4
      rw [hrest] at h
      obtain ⟨r, hr⟩ := h2 (hsub _ h)
      by_cases e : r = p
      · rw [e, hp] at hr
        cases hr
        exact absurd h hid
      · exact (hpark r _ e hr).elim
  · refine hg.status h ?_
    unfold statused at hh ⊢
    rw [hrest] at hh
    rcases List.mem_append.mp hh with hh | hh
    · exact List.mem_append_left _ hh
    · exact List.mem_append_right _ (hsub h hh)
  · rw [buf_upd_same hp .intr rfl]; exact hg.idle

/-! ## Steps from one stage to the next -/

variable [DecidableEq B]

theorem good_format {write : Bool} (hp : ls p = some (.format b write idx)) :
    Good (format d b write idx) (upd ls p (some (.publish b idx))) := by
  have hnd : idx.list.Nodup := by have := hg.pool.nodup p; rwa [own_some hp] at this
  simp only [Idx.list, List.nodup_cons, List.mem_cons, List.not_mem_nil, or_false, not_or] at hnd
  obtain ⟨⟨h01, h02⟩, h12, -⟩ := hnd
  -- the three descriptors are distinct, so each write is there
  have e2 : (format d b write idx).desc idx.i2 = ⟨.status idx.i0, 1, false, true, 0⟩ := upd_same _ _ _
  have e1 : (format d b write idx).desc idx.i1 = ⟨.data b, BSIZE, true, !write, idx.i2⟩ :=
    (upd_ne _ _ h12).trans (upd_same _ _ _)
  have e0 : (format d b write idx).desc idx.i0 = ⟨.op idx.i0, 16, true, false, idx.i1⟩ :=
    (upd_ne _ _ h02).trans ((upd_ne _ _ h01).trans (upd_same _ _ _))
  refine good_mine hg hp hpark trivial ?_ ?_ rfl ?_ rfl rfl
  · refine ⟨fun i hi => ?_, fun i hi => ?_, fun b' hb => ?_, rfl, rfl, rfl, rfl, rfl, rfl, rfl, rfl⟩
    · simp only [Loc.owned, Idx.list, List.mem_cons, List.not_mem_nil, or_false, not_or] at hi
      exact ⟨(upd_ne _ _ hi.2.2).trans ((upd_ne _ _ hi.2.1).trans (upd_ne _ _ hi.1)), upd_ne _ _ hi.1⟩
    · exact upd_ne _ _ fun e => hi (by rw [e]; simp [Loc.owned, Idx.list])
    · exact upd_ne _ _ fun e => hb (by rw [e]; rfl)
  · exact pool_same hg hp (.publish b idx) rfl
  · refine ⟨hg.fact p _ hp, upd_same _ _ _, ⟨?_, ?_, upd_same _ _ _⟩⟩
    · exact ⟨by rw [e0], by rw [e0], by rw [e1], by rw [e1], congrArg Desc.fNext e2⟩
    · rw [e2]

theorem good_bump (hp : ls p = some (.bump b idx)) :
    Good ({ d with availIdx := d.availIdx + 1#16 }.note b .published) (upd ls p (some (.wait b idx))) := by
  obtain ⟨hst, hbd, hc, hring⟩ := hg.fact p _ hp
  have hroom : Fifo.dist d.fetched d.availIdx + 1 < Fifo.values 16 := by
    have := avail_dist hg
    have h16 : 3 < Fifo.values 16 := by decide
    omega
  have hq := Fifo.queue_push num_pos d.availRing hroom
  rw [hring] at hq
  have hnot : idx.i0 ∉ flow d := not_flow hg hp trivial (by simp [Loc.owned, Idx.list])
  generalize hd' : ({ d with availIdx := d.availIdx + 1#16 }.note b .published : Disk B) = d'
  have hav : availQ d' = availQ d ++ [idx.i0] := by rw [← hd']; exact hq
  have hused : usedQ d' = usedQ d := by rw [← hd']; rfl
  have hdev : inDevice d' = availQ d ++ [idx.i0] ++ (d.working ++ (d.finished ++ d.entered.toList)) := by
    rw [← hav, ← hd']; rfl
  have hmem : ∀ h, h ∈ inDevice d' ↔ h = idx.i0 ∨ h ∈ inDevice d := by
    intro h
    rw [hdev]
    unfold inDevice
    simp only [List.mem_append, List.mem_singleton]
    tauto
  have hperm : (flow d').Perm (idx.i0 :: flow d) := by
    unfold flow
    rw [hdev, hused]
    unfold inDevice
    simp only [List.append_assoc, List.cons_append]
    exact List.perm_middle
  have hother : ∀ q l', q ≠ p → ls q = some l' → l'.buf ≠ some b := fun q l' hqp hq e => hqp (buf_owner hg hq hp e rfl)
  have hstage : ∀ b', b' ≠ b → d'.stage b' = d.stage b' := fun b' hb => by rw [← hd']; exact upd_ne _ _ hb
  have hold : ∀ {q b' idx'}, ls q = some (.wait b' idx') → q ≠ p := fun hq e => by rw [e, hp] at hq; cases hq
  refine ⟨?_, by rw [buf_upd_same hp (.wait b idx) rfl]; exact hg.bufs, fun q l' hq => ?_,
    hperm.nodup_iff.mpr (List.nodup_cons.mpr ⟨hnot, hg.nodup⟩),
    fun h hh => ?_, fun q b' idx' hq => ?_, ?_, ?_, fun b' hb => ?_, ?_, ?_⟩
  · rw [own_upd_same hp (.wait b idx) rfl, ← hd']
    exact hg.pool
  · rcases upd_eq.mp hq with ⟨-, e⟩ | ⟨e, hq⟩
    · cases e
      rw [← hd']
      exact chain_congr (d := d) (fun _ _ => ⟨rfl, rfl⟩) hc
    · refine fact_parked (hpark q l' e hq) (fun b' hb => hstage b' fun e2 => hother q l' e hq (e2 ▸ hb))
        (fun _ _ => ?_) (hg.fact q l' hq)
      rw [← hd']
      exact ⟨rfl, rfl⟩
  · rcases List.mem_cons.mp (hperm.mem_iff.mp hh) with e | hh
    · exact ⟨p, b, idx, upd_same _ _ _, e.symm⟩
    · obtain ⟨q, b', idx', hq, e⟩ := hg.owner h hh
      exact ⟨q, b', idx', by rw [upd_ne _ _ (hold hq)]; exact hq, e⟩
  · rcases upd_eq.mp hq with ⟨-, e⟩ | ⟨e, hq⟩
    · cases e
      refine .device ((hmem _).mpr (.inl rfl)) ?_ ?_
      · rw [← hd']; exact upd_same _ _ _
      · rw [← hd']; exact hbd
    · have hne : idx'.i0 ≠ idx.i0 := fun e2 => e (head_owner hg hp hq (by rw [e2]; simp [Loc.owned, Idx.list])).symm
      refine waiting_congr (hstage b' fun e2 => hother q _ e hq (by rw [e2]; rfl))
        (by rw [← hd']; rfl) ?_ (by rw [hused])
        (fun q' hq' => ⟨q', ?_⟩) (hg.waiting q b' idx' hq)
      · rw [hmem]
        exact ⟨fun h => h.resolve_left hne, .inr⟩
      · have hq'p : q' ≠ p := fun e2 => by rw [e2, hp] at hq'; cases hq'
        rw [upd_ne _ _ hq'p]
        exact hq'
  · rw [← hd']; exact hg.status
  · rw [← hd']; exact hg.entry
  · rw [buf_upd_same hp (.wait b idx) rfl] at hb
    have hne : b' ≠ b := fun e => hb p (by rw [buf_some hp, e]; rfl)
    rw [hstage b' hne]
    exact hg.idle b' hb
  · rw [← hd']
    show (d.orderly && decide (Stage.published = (d.stage b).next)) = true
    rw [hg.orderly, hst]
    rfl
  · rw [← hd']; exact hg.panic

theorem good_clear (hp : ls p = some .intr) {q : P} {rest : List Nat} (hq : ls q = some (.wait b idx))
    (hu : usedQ d = idx.i0 :: rest) :
    Good ({ d with bdisk := upd d.bdisk b false }.note b .cleared) (upd ls p (some (.intrNext idx.i0))) := by
  have hc : Chain d b idx := hg.fact q _ hq
  have hin : idx.i0 ∈ usedQ d := by rw [hu]; exact .head _
  -- nobody is between the two halves of the handler's loop
  have hnone : ∀ r id, ls r ≠ some (.intrNext id) := by
    intro r id hr
    by_cases e : r = p
    · rw [e, hp] at hr; cases hr
    · exact hpark r _ e hr
  have hst : d.stage b = .completed := by
    cases hg.waiting q b idx hq with
    | device h _ _ => exact absurd h (not_inDevice hg.nodup hin)
    | used _ h _ => exact h
    | done _ h _ _ =>
      obtain ⟨r, hr⟩ := h hin
      exact absurd hr (hnone r _)
  have hold : ∀ {r b' idx'}, upd ls p (some (.intrNext idx.i0)) r = some (.wait b' idx') →
      ls r = some (.wait b' idx') := by
    intro r b' idx' hr
    rcases upd_eq.mp hr with ⟨-, e⟩ | ⟨-, hr⟩
    · cases e
    · exact hr
  refine ⟨?_, by rw [buf_upd_same hp (.intrNext idx.i0) rfl]; exact hg.bufs, fun r l' hr => ?_,
    hg.nodup, fun h hh => ?_, fun r b' idx' hr => ?_, hg.status,
    hg.entry, fun b' hb => ?_, ?_, hg.panic⟩
  · rw [own_upd_same hp (.intrNext idx.i0) rfl]; exact hg.pool
  · rcases upd_eq.mp hr with ⟨-, e⟩ | ⟨e, hr⟩
    · cases e
      exact ⟨b, rest, hu, hc.info, upd_same _ _ _⟩
    by_cases hrq : r = q
    · rw [hrq, hq] at hr; cases hr
      exact chain_congr (d := d) (fun _ _ => ⟨rfl, rfl⟩) hc
    · exact fact_parked (d := d) (hpark r l' e hr)
        (fun b' hb => upd_ne _ _ fun e2 => hrq (buf_owner hg hr hq (e2 ▸ hb) rfl))
        (fun _ _ => ⟨rfl, rfl⟩) (hg.fact r l' hr)
  · obtain ⟨r, b', idx', hr, e⟩ := hg.owner h hh
    have hrp : r ≠ p := fun e2 => by rw [e2, hp] at hr; cases hr
    exact ⟨r, b', idx', by rw [upd_ne _ _ hrp]; exact hr, e⟩
  · have hr' := hold hr
    by_cases hrq : r = q
    · rw [hrq, hq] at hr'; cases hr'
      exact .done (not_inDevice hg.nodup hin) (fun _ => ⟨p, upd_same _ _ _⟩) (upd_same _ _ _) (upd_same _ _ _)
    · have hb : b' ≠ b := fun e => hrq (buf_owner hg hr' hq (by rw [e]; rfl) rfl)
      exact waiting_congr (d := d) (upd_ne _ _ hb) (upd_ne _ _ hb) .rfl .rfl
        (fun r' hr'' => absurd hr'' (hnone r' _)) (hg.waiting r b' idx' hr')
  · rw [buf_upd_same hp (.intrNext idx.i0) rfl] at hb
    have hne : b' ≠ b := fun e => hb q (by rw [buf_some hq, e]; rfl)
    exact (upd_ne _ _ hne).trans (hg.idle b' hb)
  · show (d.orderly && decide (Stage.cleared = (d.stage b).next)) = true
    rw [hg.orderly, hst]
    rfl

/-- A call that owns no descriptor returns; its buffer, if it has one, starts over. -/
theorem good_leave (hp : ls p = some l) (hl : l.owned = []) (hi : l.done = none) {stage : B → Stage}
    {orderly : Bool} (hs : ∀ b, l.buf ≠ some b → stage b = d.stage b) (hr : ∀ b, l.buf = some b → stage b = .returned)
    (ho : orderly = true) : Good { d with stage := stage, orderly := orderly } (upd ls p none) := by
  have hown : own (upd ls p none) = own ls := by
    rw [own_upd]
    show upd (own ls) p [] = own ls
    have h := upd_self (own ls) p
    rwa [own_some hp, hl] at h
  have hbuf : ∀ q b, buf (upd ls p none) q = some b → buf ls q = some b := by
    intro q b hq
    rw [buf_upd] at hq
    rcases upd_eq.mp hq with ⟨-, e⟩ | ⟨-, hq⟩
    · cases e
    · exact hq
  have hold : ∀ {q l'}, upd ls p none q = some l' → q ≠ p ∧ ls q = some l' := by
    intro q l' hq
    rcases upd_eq.mp hq with ⟨-, e⟩ | hq
    · cases e
    · exact hq
  have hne : ∀ {q l' b}, q ≠ p → ls q = some l' → l'.buf = some b → l.buf ≠ some b :=
    fun hqp hq hb e => hqp (buf_owner hg hq hp hb e)
  refine ⟨by rw [hown]; exact hg.pool, fun q r b hq hr => hg.bufs q r b (hbuf q b hq) (hbuf r b hr),
    fun q l' hq => ?_, hg.nodup,
    fun h hh => ?_, fun q b idx hq => ?_, hg.status, hg.entry, fun b hb => ?_, ho, hg.panic⟩
  · obtain ⟨hqp, hq⟩ := hold hq
    exact fact_parked (d := d) (hpark q l' hqp hq) (fun b hb => hs b (hne hqp hq hb))
      (fun _ _ => ⟨rfl, rfl⟩) (hg.fact q l' hq)
  · obtain ⟨q, b, idx, hq, e⟩ := hg.owner h hh
    have hqp : q ≠ p := by
      intro e2
      rw [e2, hp] at hq
      rw [Option.some.inj hq] at hl
      cases hl
    exact ⟨q, b, idx, by rw [upd_ne _ _ hqp]; exact hq, e⟩
  · obtain ⟨hqp, hq⟩ := hold hq
    refine waiting_congr (d := d) (hs b (hne hqp hq rfl)) rfl .rfl .rfl (fun q' hq' => ⟨q', ?_⟩) (hg.waiting q b idx hq)
    have hq'p : q' ≠ p := fun e2 => by rw [e2, hp] at hq'; cases hq'; cases hi
    rw [upd_ne _ _ hq'p]
    exact hq'
  · by_cases e : l.buf = some b
    · exact hr b e
    refine (hs b e).trans (hg.idle b fun q hq => ?_)
    by_cases hqp : q = p
    · rw [hqp, buf_some hp] at hq; exact e hq
    · refine hb q ?_
      rw [buf_upd, upd_ne _ _ hqp]
      exact hq

theorem good_ret (hp : ls p = some (.ret b)) : Good (d.note b .returned) (upd ls p none) := by
  have hst : d.stage b = .cleared := hg.fact p _ hp
  refine good_leave hg hpark hp rfl rfl (fun b' hb => ?_) (fun b' hb => ?_) ?_
  · exact upd_ne _ _ fun e => hb (by rw [e]; rfl)
  · cases hb; exact upd_same _ _ _
  · rw [hg.orderly, hst]; rfl

end

/-! ## Every step -/

/-- Every step of a call that holds the lock keeps the invariant. -/
theorem good_step [DecidableEq B] (hg : Good d ls)
    (hpark : ∀ q l', q ≠ p → ls q = some l' → Parked l') (hp : ls p = some l) :
    Good (step d l).1 (upd ls p (step d l).2.loc) ∧ ∀ c l', (step d l).2 = .sleep c l' → Parked l' := by
  cases l with
  | alloc b write =>
    have hst : d.stage b = .returned := hg.fact p _ hp
    unfold step
    dsimp only
    split
    · rename_i todo h3
      obtain ⟨ht, hcount⟩ := alloc3Desc_inl h3
      exact ⟨good_take hg hpark (.undo b write todo) hp ⟨b, write, rfl⟩ ht rfl rfl ⟨hst, hcount⟩ rfl,
        fun _ _ e => by cases e⟩
    · rename_i idx h3
      exact ⟨good_take hg hpark (.format b write idx) hp ⟨b, write, rfl⟩ (alloc3Desc_inr h3) rfl rfl hst rfl,
        fun _ _ e => by cases e⟩
  | undo b write todo =>
    obtain ⟨hst, hcount⟩ := hg.fact p _ hp
    cases todo with
    | nil =>
      exact ⟨good_mine hg hp hpark trivial (mine_free d d.free _ _)
        (pool_same hg hp (.alloc b write) rfl) rfl hst rfl rfl,
        fun c l' e => by cases e; trivial⟩
    | cons j todo =>
      have hfree := freeDesc_owned hg.pool (p := p) (i := j) (by rw [own_some hp]; exact .head _)
      unfold step
      dsimp only
      rw [hfree]
      refine ⟨good_freed hg hpark hp rfl rfl ⟨hst, ?_⟩ rfl rfl rfl, fun _ _ e => by cases e⟩
      have hgive := freeCount_give_le NUM d.free j
      rw [List.length_cons] at hcount
      show freeCount NUM (upd d.free j true) + todo.length ≤ 2
      omega
  | format b write idx => exact ⟨good_format hg hpark hp, fun _ _ e => by cases e⟩
  | publish b idx => exact ⟨good_publish hg hpark hp, fun _ _ e => by cases e⟩
  | bump b idx => exact ⟨good_bump hg hpark hp, fun _ _ e => by cases e⟩
  | wait b idx =>
    unfold step
    dsimp only
    split
    · refine ⟨?_, fun c l' e => by cases e; trivial⟩
      show Good d (upd ls p (some (.wait b idx)))
      rw [← hp, upd_self]
      exact hg
    · exact ⟨good_finish hg hpark hp (Bool.eq_false_iff.mpr ‹_›), fun _ _ e => by cases e⟩
  | finish b idx => exact ⟨good_unlink hg hpark hp, fun _ _ e => by cases e⟩
  | freeChain b i rest =>
    obtain ⟨hst, hlinks⟩ := hg.fact p _ hp
    have hfree := freeDesc_owned hg.pool (p := p) (i := i) (by rw [own_some hp]; exact .head _)
    have hnd : (i :: rest).Nodup := by have := hg.pool.nodup p; rwa [own_some hp] at this
    unfold step
    dsimp only
    rw [hfree]
    refine ⟨?_, fun _ _ e => by cases e⟩
    cases rest with
    | nil =>
      have hflag : (d.desc i).fNext = false := hlinks
      rw [hflag]
      exact good_freed hg hpark hp rfl rfl hst rfl rfl rfl
    | cons j rest =>
      obtain ⟨h1, h2, h3⟩ := hlinks
      rw [h1, h2]
      refine good_freed hg hpark hp rfl rfl ⟨hst, links_congr (fun k hk => ?_) h3⟩ rfl rfl rfl
      exact upd_ne _ _ fun e => (List.nodup_cons.mp hnd).1 (e ▸ hk)
  | ret b => exact ⟨good_ret hg hpark hp, fun _ _ e => by cases e⟩
  | intr =>
    unfold step
    dsimp only
    split
    · rename_i hne
      obtain ⟨rest, q, b, idx, hu, hid, hq, hstat, hinfo⟩ := used_head hg hne
      rw [← hid, if_neg (fun h => h hstat), hinfo]
      exact ⟨good_clear hg hpark hp hq hu, fun _ _ e => by cases e⟩
    · exact ⟨good_leave hg hpark hp rfl rfl (fun _ _ => rfl) (fun _ e => by cases e) hg.orderly,
        fun _ _ e => by cases e⟩
  | intrNext id => exact ⟨good_next hg hpark hp, fun _ _ e => by cases e⟩
  | panicked => exact (hg.fact p _ hp).elim

end Xv6.Virtio
