/-
  Xv6.Virtio.DiskProofs — the request protocol of the virtio disk driver over whole runs
  (`virtio_protocol`); see `Xv6.Virtio.Disk`.
-/

import Xv6.Virtio.DiskSteps

namespace Xv6.Virtio

open Lib Monitor

variable {B P : Type} [DecidableEq B]

/-- At most one request for a buffer is in flight. -/
def oneInFlight (P B : Type) : Usage P (Disk B) (Loc B) (Call B) Unit :=
  { call := fun _ ls _ a => ∀ b write, a = .virtioDiskRw b write → ∀ q, buf ls q ≠ some b
    exec := fun _ _ _ _ _ => True
    kill := fun _ _ => True }

theorem keeps_virtio [FinEnum P] : Keeps (virtio P B) (oneInFlight P B) Parked Good := by
  refine ⟨fun d ls p a hg hp hall hu => ?_, fun d ls p k l i hg hp hpark _ => ?_, fun d ls x hg => good_env hg x⟩
  · cases a with
    | virtioDiskRw b write =>
      have hb := hu b write rfl
      refine good_enter hg hp (.alloc b write) rfl (fun b' e => ?_) (hg.idle b hb) rfl
      cases e
      exact hb
    | virtioDiskIntr => exact good_enter hg hp .intr rfl (fun b' e => by cases e) trivial rfl
  · exact good_step hg hpark hp

/-- Processes wait for descriptors while there are fewer than three, and for a buffer while the
    disk has it. -/
def Reason (d : Disk B) : Chan B → Prop
  | .free0 => freeCount NUM d.free ≤ 2
  | .buf b => d.bdisk b = true

theorem signals_virtio : Signals (m := virtio P B) (u := oneInFlight P B) Good Reason fun _ _ => False := by
  refine ⟨fun d ls p k l i hg hp _ => ?_, fun d x c hc => ?_⟩
  · have hf := hg.fact p l hp
    show Pays Reason (fun _ _ => False) d l (step d l).1 (step d l).2
    cases l with
    | alloc b write =>
      have hmark : ∀ is c, Reason d c ∨ False → Reason { d with free := mark d.free is } c ∨ False := by
        intro is c h
        refine .inl ?_
        cases c with
        | free0 => exact (freeCount_mark is d.free).trans (h.resolve_right id)
        | buf b => exact h.resolve_right id
      unfold step
      dsimp only
      split
      · exact hmark _
      · exact hmark _
    | undo b write todo =>
      cases todo with
      | nil => exact ⟨hf.2, fun c h => h.resolve_right id⟩
      | cons j todo =>
        unfold step
        dsimp only
        rw [freeDesc_owned hg.pool (p := p) (i := j) (by rw [own_some hp]; exact .head _)]
        intro c hc h
        cases c with
        | free0 => exact absurd rfl hc
        | buf b => exact h
    | format b write idx =>
      intro c h
      cases c with
      | free0 => exact h
      | buf b' =>
        refine .inl ?_
        show upd d.bdisk b true b' = true
        by_cases e : b' = b
        · rw [e, upd_same]
        · rw [upd_ne _ _ e]; exact h.resolve_right id
    | publish b idx | bump b idx | finish b idx | intrNext id =>
      intro c h
      cases c <;> exact h
    | wait b idx =>
      unfold step
      dsimp only
      split
      · exact ⟨‹_›, fun c h => h.resolve_right id⟩
      · exact fun c h => h
    | freeChain b i rest =>
      unfold step
      dsimp only
      rw [freeDesc_owned hg.pool (p := p) (i := i) (by rw [own_some hp]; exact .head _)]
      intro c hc h
      cases c with
      | free0 => exact absurd rfl hc
      | buf b => exact h
    | ret b =>
      intro c h
      cases c <;> exact h.resolve_right id
    | intr =>
      unfold step
      dsimp only
      split
      · rename_i hne
        obtain ⟨rest, q, b, idx, hu, hid, hq, hstat, hinfo⟩ := used_head hg hne
        rw [← hid, if_neg (fun h => h hstat), hinfo]
        intro c hc h
        cases c with
        | free0 => exact h
        | buf b' =>
          have hne' : b' ≠ b := fun e => hc (by rw [e])
          refine .inl ?_
          show upd d.bdisk b false b' = true
          rw [upd_ne _ _ hne']
          exact h.resolve_right id
      · exact fun c h => h.resolve_right id
    | panicked => exact hf.elim
  · show Reason (device d x) c
    have hkeep : (device d x).free = d.free ∧ (device d x).bdisk = d.bdisk := by
      cases x with
      | fetch | entry h => simp only [device]; split <;> exact ⟨rfl, rfl⟩
      | status h =>
        simp only [device]
        split
        · unfold writeStatus
          split <;> exact ⟨rfl, rfl⟩
        · exact ⟨rfl, rfl⟩
      | bump =>
        simp only [device]
        split
        · split <;> exact ⟨rfl, rfl⟩
        · exact ⟨rfl, rfl⟩
    cases c with
    | free0 => show freeCount NUM (device d x).free ≤ 2; rw [hkeep.1]; exact hc
    | buf b => show (device d x).bdisk b = true; rw [hkeep.2]; exact hc

variable [FinEnum P]

/-- The protocol in a state. -/
structure Protocol (s : St P (Chan B) (Disk B) (Loc B)) : Prop where
  /-- The descriptors that are not free are those of the calls, each of one call. -/
  owned : ∀ i, i < NUM → (s.data.free i = false ↔ ∃ p l, s.loc p = some l ∧ i ∈ l.owned)
  apart : ∀ p q l l' i, s.loc p = some l → s.loc q = some l' → i ∈ l.owned → i ∈ l'.owned → p = q
  distinct : ∀ p l, s.loc p = some l → l.owned.Nodup ∧ ∀ i ∈ l.owned, i < NUM
  /-- While the lock is free they are the three of each request that waits. -/
  inFlight : s.holder = none →
    ∀ i, i < NUM → (s.data.free i = false ↔ ∃ p b idx, s.loc p = some (.wait b idx) ∧ i ∈ idx.list)
  /-- The next slot of each ring holds no entry that is still to be read. -/
  rings : Fifo.dist s.data.fetched s.data.availIdx < NUM ∧ Fifo.dist s.data.seen s.data.usedIdx < NUM
  /-- Each entry of the used ring is the chain of a request, and leads to the flag of its buffer. -/
  entries : ∀ h ∈ usedQ s.data, ∃ p b idx, s.loc p = some (.wait b idx) ∧ idx.i0 = h ∧ s.data.infoB h = some b
  /-- A request that waits finds its flag cleared exactly when its completion was dealt with. -/
  flags : ∀ p b idx, s.loc p = some (.wait b idx) → (s.data.bdisk b = false ↔ s.data.stage b = .cleared)
  /-- A call that is about to return has had its completion dealt with. -/
  returns : ∀ p b, s.loc p = some (.ret b) → s.data.stage b = .cleared
  /-- Each buffer is published, completed, cleared and returned in turn. -/
  orderly : s.data.orderly = true
  panic : s.data.panic = none
  sleepers : s.holder = none → 3 ≤ freeCount NUM s.data.free → ∀ p l, s.phase p ≠ .asleep .free0 l

/-- Any number of processes and handlers, any interleaving with the device, runs of any length. -/
theorem virtio_protocol (es : List (Ev P (Call B) Unit Dev))
    (hu : Along (St.step (virtio P B)) (oneInFlight P B).Meets (St.init virtioDiskInit) es) :
    Protocol (run (St.step (virtio P B)) (St.init virtioDiskInit) es) := by
  obtain ⟨hw, hpark, hg⟩ := data_inv keeps_virtio es hu good_init
  have hs := signals_inv keeps_virtio signals_virtio es hu good_init
  generalize run (St.step (virtio P B)) (St.init virtioDiskInit) es = s at hw hpark hg hs
  have howned : ∀ i, i < NUM → (s.data.free i = false ↔ ∃ p l, s.loc p = some l ∧ i ∈ l.owned) := by
    intro i hi
    rw [hg.pool.owner i hi]
    constructor
    · intro ⟨p, hp⟩
      unfold own at hp
      cases hl : s.loc p with
      | none => rw [hl] at hp; cases hp
      | some l => rw [hl] at hp; exact ⟨p, l, hl, hp⟩
    · intro ⟨p, l, hl, hp⟩
      exact ⟨p, by rw [own_some hl]; exact hp⟩
  refine ⟨howned, fun p q l l' i hp hq h1 h2 => ?_, fun p l hp => ⟨?_, fun i hi => ?_⟩, fun hn i hi => ?_,
    ⟨?_, ?_⟩, fun h hh => ?_,
    fun p b idx hp => ?_, fun p b => hg.fact p _, hg.orderly, hg.panic, fun hn h3 p l hp => ?_⟩
  · exact hg.pool.disjoint p q i (by rw [own_some hp]; exact h1) (by rw [own_some hq]; exact h2)
  · have := hg.pool.nodup p
    rwa [own_some hp] at this
  · exact hg.pool.small p i (by rw [own_some hp]; exact hi)
  · rw [howned i hi]
    constructor
    · intro ⟨p, l, hl, hp⟩
      have hheld : (s.phase p).held = none := by
        by_contra hne
        rw [(hw p).mpr hne] at hn
        cases hn
      have hpk := hpark p l hheld hl
      cases l with
      | alloc b write => cases hp
      | wait b idx => exact ⟨p, b, idx, hl, hp⟩
      | _ => exact hpk.elim
    · intro ⟨p, b, idx, hl, hp⟩
      exact ⟨p, _, hl, hp⟩
  · have := avail_dist hg
    show _ < 8
    omega
  · have := used_dist hg
    show _ < 8
    omega
  · obtain ⟨p, b, idx, hp, e⟩ := hg.owner h (List.mem_append_right _ hh)
    have hc : Chain s.data b idx := hg.fact p _ hp
    exact ⟨p, b, idx, hp, e, by rw [← e]; exact hc.info⟩
  · cases hg.waiting p b idx hp with
    | device _ h2 h3 | used _ h2 h3 | done _ _ h2 h3 => rw [h2, h3]; simp
  · have hr : freeCount NUM s.data.free ≤ 2 := hs.free hn p .free0 (by rw [hp]; rfl)
    omega

/-- The calls after the first are interrupt handlers. -/
theorem along_handlers {s : St P (Chan B) (Disk B) (Loc B)} (es : List (Ev P (Call B) Unit Dev))
    (hes : ∀ p b write, .call p (.virtioDiskRw b write) ∉ es) :
    Along (St.step (virtio P B)) (oneInFlight P B).Meets s es := by
  induction es generalizing s with
  | nil => trivial
  | cons e es ih =>
    refine ⟨?_, ih fun p b write h => hes p b write (.tail _ h)⟩
    cases e with
    | call p a =>
      intro b write ha
      rw [ha] at hes
      exact absurd List.mem_cons_self (hes p b write)
    | exec p i | kill p => exact fun _ _ => trivial
    | _ => trivial

/-- Process 0 writes buffer 7; the device completes the request, the handler (party 1) clears
    the flag and wakes the process. -/
def oneRequest : List (Ev (Fin 5) (Call Nat) Unit Dev) :=
  .call 0 (.virtioDiskRw 7 true) ::
    ([.exec 0 (), .exec 0 (), .exec 0 (), .exec 0 (), .exec 0 (), .doze 0,
      .env .fetch, .env (.status 0), .env (.entry 0), .env .bump,
      .call 1 .virtioDiskIntr, .exec 1 (), .visit 1, .visit 1, .visit 1, .visit 1, .visit 1,
      .visit 1, .exec 1 (), .exec 1 (),
      .resume 0, .exec 0 (), .exec 0 ()] : List (Ev (Fin 5) (Call Nat) Unit Dev))

theorem virtio_protocol_oneRequest :
    Along (St.step (virtio (Fin 5) Nat)) (oneInFlight (Fin 5) Nat).Meets (St.init virtioDiskInit) oneRequest ∧
    Protocol (run (St.step (virtio (Fin 5) Nat)) (St.init virtioDiskInit) oneRequest) := by
  have hu : Along (St.step (virtio (Fin 5) Nat)) (oneInFlight (Fin 5) Nat).Meets
      (St.init virtioDiskInit) oneRequest := by
    refine ⟨(fun b write _ q h => by cases h), along_handlers _ fun p b write h => ?_⟩
    simp at h
  exact ⟨hu, virtio_protocol _ hu⟩

/-- At its end process 0 has seen its flag cleared and is about to free the chain. -/
example : (run (St.step (virtio (Fin 5) Nat)) (St.init virtioDiskInit) oneRequest).phase 0 =
    .inside (.freeChain 7 0 [1, 2]) := by
  decide +kernel

end Xv6.Virtio
