/-
  Xv6.Smp.WaitProofs — every step keeps `Wait`. An operation that does not work on the
  family changes nothing that anybody knows; one that does is done by the process that has
  `wait_lock`, and for each of these the new knowledge follows from the old.
-/

import Xv6.Smp.Wait
import Xv6.Smp.ThreadsProofs

namespace Xv6.Smp

open Lib
open Sched (Slot Proc Chan ProcState freeproc incr charge)

/-! ## Operations -/

def Op.isFamily : Op → Bool
  | .setParent _ | .reparent _ _ | .exitLast _ | .die _ _ | .kwaitScan _ _ | .kwaitTest _ _ | .kwaitKilled _ => true
  | .sleep c _ | .wakeup (some c) _ | .wake (some c) _ _ => Chan.isProc c
  | _ => false

section Operations

variable {H : Type} {s : St H} {h : H} {p q r : Slot} {k : Code} {i j : Op} {ok : Bool}

variable {todo : List Slot} {st : Int}

/-- What an operation goes on with is calm if it does not work on the family, and dozes only in
    the `sleep` of `kwait`. -/
structure Fresh (p : Slot) (i j : Op) : Prop where
  calm : i.isFamily = false → j.isCalm = true
  doze : j.isDoze = true → ∃ r l, i = .sleep (.proc r) l ∧ j = .doze p (.proc r)

theorem exec_calm (hi : i.isFamily = false) (hj : .op j ∈ (exec s p ok i).code) : j = i ∨ j.isCalm = true := by
  revert hi hj
  fun_cases exec s p ok i <;> grind [Op.isFamily, Op.isCalm, Op.stop]

theorem exec_doze (hj : .op j ∈ (exec s p ok i).code) (hd : j.isDoze = true) :
    j = i ∨ ∃ r l, i = .sleep (.proc r) l ∧ j = .doze p (.proc r) := by
  revert hj hd
  fun_cases exec s p ok i <;> grind [Op.isDoze, Chan.isProc, cases Chan, Op.stop]

theorem exec_fresh (hj : .op j ∈ (exec s p ok i).code) : j = i ∨ Fresh p i j := by
  by_cases e : j = i
  · exact .inl e
  · exact .inr ⟨fun hi => (exec_calm hi hj).resolve_left e, fun hd => (exec_doze hj hd).resolve_left e⟩

theorem effect_fresh {me : Option Slot} (hm : me = some p) (hj : .op j ∈ (effect s me ok i).code) :
    j = i ∨ Fresh p i j := by
  have hwakeup : ∀ todo, (Op.wakeup none todo).isCalm = true := fun _ => rfl
  have hwake : ∀ q todo, (Op.wake none q todo).isCalm = true := fun _ _ => rfl
  revert hj
  fun_cases effect s me ok i <;>
    grind [Op.isFamily, Op.isCalm, Op.isDoze, Fresh, Chan.isProc, cases Option, exec_fresh]

/-- One process at most counts on `wait_lock`. -/
theorem wait_alone (hI : Inv s) (ho : (s.cpu h).on = some p) (hp : .wait ∈ held Op.holds (s.kstack p)) (hne : q ≠ p) :
    .wait ∉ held Op.holds (s.kstack q) := by
  intro hq
  by_cases e : ∃ h', (s.cpu h').on = some q
  · obtain ⟨h', ho'⟩ := e
    have e1 := lock_code (h := h) hI (by rw [code_on ho]; exact hp)
    have e2 := lock_code (h := h') hI (by rw [code_on ho']; exact hq)
    have eh : h = h' := Option.some.inj (e1.symm.trans e2)
    rw [eh, ho'] at ho
    exact hne (Option.some.inj ho)
  · cases (hI.off q fun h' e' => e ⟨h', e'⟩).lock .wait hq

/-- A process that is calling another one in `kexit` runs on some hart, with `wait_lock`. -/
theorem calling_on (hI : Inv s) (hc : Calling s p r) :
    .wait ∈ held Op.holds (s.kstack p) ∧ ∃ h, (s.cpu h).on = some p := by
  obtain ⟨i, hi, hr⟩ := hc
  have hw : .wait ∈ held Op.holds (s.kstack p) := by
    by_contra hn
    have := calm_mem (wf_calm (hI.wfp p) hn) hi
    rw [calls_calm hr] at this
    cases this
  refine ⟨hw, ?_⟩
  by_contra hn
  cases (hI.off p fun h' e' => hn ⟨h', e'⟩).lock .wait hw

theorem ctx_calling (hI : Inv s) (hc : s.code h = .op i :: k) (hx : (effect s (s.cpu h).proc ok i).ctx = some p) :
    ¬Calling s p r := by
  intro hr
  obtain ⟨rfl, _⟩ := effect_ctx hx
  obtain ⟨_, h', ho'⟩ := calling_on hI hr
  have hwf := wf_code hI hc
  obtain ⟨p0, ho⟩ := fits_on hwf.1 id
  exact (inside_used hI ho').1 (hI.found h p0 p ho (by rw [← code_on ho, hc]; exact .mem k))

theorem forkret_dozes : ¬Dozes (forkret p) := by
  rintro (e | e)
  · cases e
  · exact e

theorem charge_chan (v : Proc) : (charge v).chan = v.chan := by rw [Sched.charge_eq]

theorem write_drowsy {me : Option Slot} {v : Proc} (hw : Write s me i q v) (hst : v.state = .sleeping)
    (hch : v.chan = some (.proc r)) :
    (s.proc q).state = .sleeping ∧ (s.proc q).chan = some (.proc r) ∨ ∃ p, me = some p ∧ i = .doze q (.proc r) := by
  cases hw with
  | dispatch | wake | giveUp | alloc | allocFail | undo | forkEnd | die | reap => cases hst
  | tidy => cases hch
  | charge =>
    rw [charge_state] at hst
    rw [charge_chan] at hch
    exact .inl ⟨hst, hch⟩
  | allocpid | setParent | reparent | setkilled => exact .inl ⟨hst, hch⟩
  | kill =>
    split at hst
    · cases hst
    · exact .inl ⟨hst, hch⟩
  | doze p =>
    cases hch
    exact .inr ⟨p, rfl, rfl⟩

theorem write_zombie {me : Option Slot} {v : Proc} (hw : Write s me i q v) (hz : v.state = .zombie) :
    (s.proc q).state = .zombie ∨ ∃ st, i = .die q st := by
  cases hw with
  | die => exact .inr ⟨_, rfl⟩
  | charge =>
    rw [charge_state] at hz
    exact .inl hz
  | kill =>
    split at hz
    · cases hz
    · exact .inl hz
  | tidy | allocpid | setParent | reparent | setkilled => exact .inl hz
  | _ => cases hz

theorem calm_forkret (hj : .op j ∈ forkret p) : j.isCalm = true := by
  simp [forkret] at hj
  subst hj
  rfl

/-- A process that does some other operation is not drowsy. -/
theorem awake (hI : Inv s) (hW : Wait s) (ho : (s.cpu h).on = some p) (hc : s.code h = .op i :: k) (hs : i ≠ .sched)
    (hp : i ≠ .panic) (hd : i.isDoze = false) : ¬Drowsy s p := by
  rintro (⟨e, _⟩ | e)
  · rw [inside_running hI ho hc hs hp] at e
    cases e
  · have hpl : Placed (.op i :: k) := by
      rw [← hc, code_on ho]
      exact hW.placed p
    rw [← code_on ho, hc] at e
    rcases List.mem_cons.mp e with e | e
    · cases e
      cases hd
    · exact hpl.1 hp (dozes_mem.mpr ⟨_, e, rfl⟩)

/-- A process on its way to sleep runs on some hart. -/
theorem doze_on (hI : Inv s) (hW : Wait s) (hm : .op (.doze q (.proc r)) ∈ s.kstack q) :
    ∃ h, (s.cpu h).on = some q := by
  by_contra hn
  have hoff := hI.off q fun h' e' => hn ⟨h', e'⟩
  have hpl := hW.placed q
  have hdz : Dozes (s.kstack q) := dozes_mem.mpr ⟨_, hm, rfl⟩
  rcases hoff.code with e | e
  · rw [e] at hm
    cases hm
  · generalize s.kstack q = k' at *
    cases e with
    | yield k => cases hpl.1 hdz
    | sleep k | exit k => exact hpl.1 Op.noConfusion (hdz.resolve_left (fun e => by cases e))

/-! ## The state at boot -/

theorem boot_parent (p : Slot) : (Sched.boot.proc p).parent = none := by
  revert p
  decide +kernel

theorem boot_mem (hj : .op j ∈ (boot : St H).kstack p) : .op j ∈ forkret p := by
  rw [boot_kstack] at hj
  by_cases e : p = Sched.boot.initproc
  · rw [e] at hj
    rw [e]
    exact hj
  · rw [upd_ne _ _ e] at hj
    cases hj

theorem kin_boot : Kin (boot : St H) := by
  have hnone {c q : Slot} : (Sched.boot.proc c).parent ≠ some q := fun e => by rw [boot_parent] at e; cases e
  refine ⟨⟨⟨?_, boot_parent _⟩, fun x y e => absurd e hnone, fun x hx hg => ?_, fun x _ => boot_parent x,
    fun x y e => absurd e hnone⟩, fun p j todo hj hl => absurd hl (left_forkret (boot_mem hj)), fun p j q hj hn => ?_⟩
  · show age (Sched.boot.proc Sched.boot.initproc).state = _
    rfl
  · replace hg : age (Sched.boot.proc x).state = .grown ∨ age (Sched.boot.proc x).state = .dead := hg
    rw [boot_state.2 x hx] at hg
    rcases hg with e | e <;> cases e
  · rw [np_forkret (boot_mem hj)] at hn
    cases hn

theorem wait_boot : Wait (boot : St H) := by
  refine ⟨fun p => placed_of_not fun e => ?_, fun p j hj => calm_knows (calm_forkret (boot_mem hj)), fun r hr => ?_⟩
  · obtain ⟨i, hi, e⟩ := dozes_mem.mp e
    exact forkret_dozes (dozes_mem.mpr ⟨i, boot_mem hi, e⟩)
  · exfalso
    rcases hr with ⟨e, _⟩ | e
    · replace e : (Sched.boot.proc r).state = .sleeping := e
      by_cases hr : r = Sched.boot.initproc
      · rw [hr] at e
        cases e
      · rw [boot_state.2 r hr] at e
        cases e
    · exact forkret_dozes (dozes_mem.mpr ⟨_, boot_mem e, rfl⟩)

/-! ## Every step keeps the invariant -/

variable [DecidableEq H]

/-- A `wakeup` goes on being one while another operation is done. -/
theorem calling_kept (ok : Bool) (hI : Inv s) (hc : s.code h = .op i :: k) (hr : Calling s p r)
    (hi : (s.cpu h).on = some p → i.calls r → ∃ j, .op j ∈ (effect s (some p) ok i).code ∧ j.calls r) :
    Calling (s.apply h (effect s (s.cpu h).proc ok i) k) p r := by
  obtain ⟨j, hj, hjr⟩ := hr
  rcases effect_kstack ok hI hc p with ⟨ho, hk⟩ | ⟨_, ⟨hk, _⟩ | ⟨hx, _⟩⟩
  · rw [← code_on ho, hc] at hj
    rcases List.mem_cons.mp hj with e | e
    · cases e
      obtain ⟨j, hj, hjr⟩ := hi ho hjr
      exact ⟨j, by rw [hk, inside_proc hI ho]; exact List.mem_append_left _ hj, hjr⟩
    · exact ⟨j, by rw [hk]; exact List.mem_append_right _ e, hjr⟩
  · exact ⟨j, by rw [hk]; exact hj, hjr⟩
  · exact absurd ⟨j, hj, hjr⟩ (ctx_calling hI hc hx)

theorem effect_placed (hI : Inv s) (hW : Wait s) (hc : s.code h = .op i :: k) (p : Slot) :
    Placed ((s.apply h (effect s (s.cpu h).proc ok i) k).kstack p) := by
  rcases effect_kstack ok hI hc p with ⟨ho, hk⟩ | ⟨_, ⟨hk, _⟩ | ⟨_, hk⟩⟩
  · have hp : Placed (.op i :: k) := by
      rw [← hc, code_on ho]
      exact hW.placed p
    rw [hk, inside_proc hI ho]
    by_cases hpanic : i = .panic
    · subst hpanic
      exact hp
    have hno := hp.1 hpanic
    by_cases hs : ∃ r l, i = .sleep (.proc r) l
    · obtain ⟨r, l, rfl⟩ := hs
      have hwf := wf_code hI hc
      obtain ⟨rfl, _⟩ := hwf.2.1.2.1 rfl
      refine ⟨fun _ => ⟨Lock.noConfusion, .head _⟩, ⟨fun _ => rfl, ⟨fun _ => hno, ?_⟩⟩⟩
      exact ⟨fun e => absurd e hno, placed_of_not hno⟩
    · refine placed_of_not fun e => ?_
      rcases dozes_append.mp e with e | e
      · obtain ⟨j, hj, hdoze⟩ := dozes_mem.mp e
        rcases effect_fresh rfl hj with rfl | hf
        · -- a doze goes on without one
          cases j with
          | doze q c => simp [effect, exec] at hj
          | _ => cases hdoze
        · obtain ⟨r, l, e, _⟩ := hf.doze hdoze
          exact hs ⟨r, l, e⟩
      · exact hno e
  · rw [hk]
    exact hW.placed p
  · rw [hk]
    exact placed_of_not forkret_dozes

/-- Who is drowsy after an operation was so before, or has just started to `sleep`. -/
theorem effect_drowsy (hI : Inv s) (hc : s.code h = .op i :: k)
    (hd : Drowsy (s.apply h (effect s (s.cpu h).proc ok i) k) r) :
    Drowsy s r ∨ (s.cpu h).on = some r ∧ ∃ l, i = .sleep (.proc r) l := by
  have hwf := wf_code hI hc
  rcases hd with ⟨hst, hch⟩ | hm
  · left
    rcases apply_proc s h (effect s (s.cpu h).proc ok i) k r with e | he
    · rw [e] at hst hch
      exact .inl ⟨hst, hch⟩
    rcases write_drowsy (effect_set he) hst hch with e | ⟨p, hme, rfl⟩
    · exact .inl e
    have ho := on_of_proc hI hc id hme
    have hq : r = p := fits_own hwf.1 ho
    exact .inr (by rw [← hq] at ho; exact mem_code ho hc)
  · rcases effect_kstack ok hI hc r with ⟨ho, hk⟩ | ⟨_, ⟨hk, _⟩ | ⟨_, hk⟩⟩
    · rw [hk, inside_proc hI ho] at hm
      rcases List.mem_append.mp hm with e | e
      · rcases effect_fresh rfl e with rfl | hf
        · exact .inl (.inr (mem_code ho hc))
        · obtain ⟨r', l, e1, e2⟩ := hf.doze rfl
          cases e2
          exact .inr ⟨ho, l, e1⟩
      · exact .inl (.inr (mem_below ho hc e))
    · rw [hk] at hm
      exact .inl (.inr hm)
    · rw [hk] at hm
      exact absurd (dozes_mem.mpr ⟨_, hm, rfl⟩) forkret_dozes

/-- An operation that leaves children and zombies alone and does not `sleep`. -/
theorem wait_quiet (ok : Bool) (hI : Inv s) (hW : Wait s) (hc : s.code h = .op i :: k)
    (hp : ∀ c, ((s.apply h (effect s (s.cpu h).proc ok i) k).proc c).parent = (s.proc c).parent)
    (hz : ∀ c, ((s.apply h (effect s (s.cpu h).proc ok i) k).proc c).state = .zombie → (s.proc c).state = .zombie)
    (hs : ∀ r l, i ≠ .sleep (.proc r) l)
    (hcall : ∀ p r, Drowsy (s.apply h (effect s (s.cpu h).proc ok i) k) r → (s.cpu h).on = some p → i.calls r →
      ∃ j, .op j ∈ (effect s (some p) ok i).code ∧ j.calls r)
    (hnew : ∀ p j, (s.cpu h).on = some p → .op j ∈ (effect s (some p) ok i).code →
      j = i ∨ j.Knows (s.apply h (effect s (s.cpu h).proc ok i) k) p) :
    Wait (s.apply h (effect s (s.cpu h).proc ok i) k) := by
  refine wait_mono hW apply_initproc hp hz (fun r hr => ?_) (fun p r hr hcl => calling_kept ok hI hc hcl (hcall p r hr))
    (effect_placed hI hW hc) (fun p j hj => ?_)
  · rcases effect_drowsy hI hc hr with e | ⟨_, l, e⟩
    · exact e
    · exact absurd e (hs r l)
  · rcases effect_kstack ok hI hc p with ⟨ho, hk⟩ | ⟨_, ⟨hk, _⟩ | ⟨_, hk⟩⟩
    · rw [hk, inside_proc hI ho] at hj
      rcases List.mem_append.mp hj with e | e
      · rcases hnew p j ho e with rfl | e
        · exact .inl (mem_code ho hc)
        · exact .inr e
      · exact .inl (mem_below ho hc e)
    · rw [hk] at hj
      exact .inl hj
    · rw [hk] at hj
      exact .inr (calm_knows (calm_forkret hj))

/-- An operation that does not work on the family. -/
theorem wait_plain (hI : Inv s) (hK : Kin s) (hW : Wait s) (hc : s.code h = .op i :: k) (hf : i.isFamily = false) :
    Wait (s.apply h (effect s (s.cpu h).proc ok i) k) := by
  have hwf := wf_code hI hc
  refine wait_quiet _ hI hW hc (fun c => ?_) (fun c hz => ?_) (fun r l e => by rw [e] at hf; cases hf)
    (fun p r _ _ e => ?_) (fun p j _ hj => ?_)
  · rcases apply_proc s h (effect s (s.cpu h).proc ok i) k c with e | he
    · rw [e]
    rcases write_parent (effect_set he) with e | ⟨rfl, e⟩ | ⟨rfl, e⟩ | ⟨rfl, e⟩ | ⟨_, _, rfl, _⟩ | ⟨_, rfl, _⟩
    · exact e
    · obtain ⟨p0, ho⟩ := fits_on hwf.1 id
      have hu := hI.found h p0 c ho (by rw [← code_on ho, hc]; exact .mem k)
      exact e.trans (hK.tree.fresh c (by rw [family_age, hu]; rfl)).symm
    · obtain ⟨p0, ho⟩ := fits_on hwf.1 id
      exact e.trans (hK.newborn p0 _ c (mem_code ho hc) rfl).symm
    · cases hf
    · cases hf
    · cases hf
  · rcases apply_proc s h (effect s (s.cpu h).proc ok i) k c with e | he
    · rw [e] at hz
      exact hz
    · rcases write_zombie (effect_set he) hz with e | ⟨st, rfl⟩
      · exact e
      · cases hf
  · have : i.isFamily = true := by
      cases i with
      | wakeup c todo | wake c q todo =>
        rw [e.1]
        rfl
      | _ => exact e.elim
    rw [hf] at this
    cases this
  · exact (effect_fresh rfl hj).imp_right fun e => calm_knows (e.calm hf)

/-- `wakeup` has visited `q`. -/
theorem wake_drowsy (hI : Inv s) (hW : Wait s) (hc : s.code h = .op (.wake (some (.proc q)) q todo) :: k)
    (ho : (s.cpu h).on = some p) :
    ¬Drowsy (s.apply h (effect s (s.cpu h).proc ok (.wake (some (.proc q)) q todo)) k) q := by
  have hwf := wf_code hI hc
  intro hd
  rcases hd with ⟨hst, hch⟩ | hm
  · by_cases e : (s.proc q).state = .sleeping ∧ (s.proc q).chan = some (.proc q)
    · rw [apply_set (q := q) (v := { s.proc q with state := .runnable }) (by simp only [effect, if_pos e]),
        upd_same] at hst
      cases hst
    · rw [apply_unset (by simp only [effect, if_neg e])] at hst hch
      exact e ⟨hst, hch⟩
  · have hne : q ≠ p := by
      rintro rfl
      have hd : Drowsy (s.apply h (effect s (s.cpu h).proc ok (.wake (some (.proc q)) q todo)) k) q := .inr hm
      rcases effect_drowsy hI hc hd with e | ⟨_, l, e⟩
      · exact awake hI hW ho hc Op.noConfusion Op.noConfusion rfl e
      · cases e
    have hm' : .op (.doze q (.proc q)) ∈ s.kstack q := by
      rcases effect_kstack ok hI hc q with ⟨ho', _⟩ | ⟨_, ⟨hk, _⟩ | ⟨hx, _⟩⟩
      · rw [ho] at ho'
        exact absurd (Option.some.inj ho').symm hne
      · rw [← hk]
        exact hm
      · cases (effect_ctx hx).1
    rcases placed_held (hW.placed q) hm' with e | e
    · refine wait_alone hI ho ?_ hne e
      rw [← code_on ho, hc]
      exact List.mem_append_right _ (hwf.2.1 rfl).2
    obtain ⟨h', ho'⟩ := doze_on hI hW hm'
    have e1 := lock_code (h := h) hI (l := .proc q) (by rw [hc]; exact .head _)
    have e2 := lock_code (h := h') hI (by rw [code_on ho']; exact e)
    have eh : h = h' := Option.some.inj (e1.symm.trans e2)
    rw [eh, ho'] at ho
    exact hne (Option.some.inj ho)

theorem wait_wakeup {c : Option Chan} (hI : Inv s) (hW : Wait s) (hc : s.code h = .op (.wakeup c todo) :: k) :
    Wait (s.apply h (effect s (s.cpu h).proc ok (.wakeup c todo)) k) := by
  have hset (me : Option Slot) : (effect s me ok (.wakeup c todo)).set = none := by
    cases todo with
    | nil => rfl
    | cons q todo =>
      simp only [effect]
      split <;> rfl
  refine wait_quiet _ hI hW hc (fun c => by rw [apply_unset (hset _)])
    (fun c e => by rw [apply_unset (hset _)] at e; exact e)
    (fun r l => Op.noConfusion) (fun p r hr ho hcl => ?_) (fun p j ho hj => .inr ?_)
  · obtain ⟨rfl, hm⟩ := hcl
    cases todo with
    | nil => cases hm
    | cons q todo =>
      by_cases e : p = q
      · refine ⟨.wakeup (some (.proc r)) todo, by simp [effect, e], rfl, ?_⟩
        rcases List.mem_cons.mp hm with rfl | hm
        · subst e
          rcases effect_drowsy hI hc hr with e | ⟨_, l, e⟩
          · exact absurd e (awake hI hW ho hc Op.noConfusion Op.noConfusion rfl)
          · cases e
        · exact hm
      · exact ⟨.wake (some (.proc r)) q todo, by simp [effect, e], rfl, hm⟩
  · cases todo with
    | nil => simp [effect] at hj
    | cons q todo =>
      simp only [effect] at hj
      split at hj <;> simp at hj <;> subst hj <;> trivial

theorem wait_wake {c : Option Chan} (hI : Inv s) (hW : Wait s) (hc : s.code h = .op (.wake c q todo) :: k) :
    Wait (s.apply h (effect s (s.cpu h).proc ok (.wake c q todo)) k) := by
  have hproc (x : Slot) : ((s.apply h (effect s (s.cpu h).proc ok (.wake c q todo)) k).proc x).parent =
    (s.proc x).parent ∧
      (((s.apply h (effect s (s.cpu h).proc ok (.wake c q todo)) k).proc x).state = .zombie →
        (s.proc x).state = .zombie) := by
    by_cases e : (s.proc q).state = .sleeping ∧ (s.proc q).chan = c
    · rw [apply_set (q := q) (v := { s.proc q with state := .runnable }) (by simp only [effect, if_pos e])]
      by_cases ex : x = q
      · subst ex
        rw [upd_same]
        exact ⟨rfl, (fun e => by cases e)⟩
      · rw [upd_ne _ _ ex]
        exact ⟨rfl, id⟩
    · rw [apply_unset (by simp only [effect, if_neg e])]
      exact ⟨rfl, id⟩
  refine wait_quiet _ hI hW hc (fun x => (hproc x).1) (fun x => (hproc x).2) (fun r l => Op.noConfusion)
    (fun p r hr ho hcl => ?_)
    (fun p j ho hj => .inr ?_)
  · obtain ⟨rfl, hm⟩ := hcl
    refine ⟨.wakeup (some (.proc r)) todo, by simp [effect], rfl, ?_⟩
    rcases List.mem_cons.mp hm with rfl | hm
    · exact absurd hr (wake_drowsy hI hW hc ho)
    · exact hm
  · simp [effect] at hj
    subst hj
    trivial

section

variable (hI : Inv s) (hW : Wait s)

include hI hW

/-- An operation that writes nothing and does not `sleep`. -/
theorem wait_still (hc : s.code h = .op i :: k) (ho : (s.cpu h).on = some p)
    (he : (effect s (some p) ok i).set = none) (hs : ∀ r l, i ≠ .sleep (.proc r) l) (hcall : ∀ r, ¬i.calls r)
    (hnew : ∀ j, .op j ∈ (effect s (some p) ok i).code → j.Knows (s.apply h (effect s (some p) ok i) k) p) :
    Wait (s.apply h (effect s (some p) ok i) k) := by
  have hme := inside_proc hI ho
  have hq := wait_quiet ok hI hW hc
  rw [hme] at hq
  refine hq (fun c => by rw [apply_unset he]) (fun c e => by rw [apply_unset he] at e; exact e) hs
    (fun p r _ _ e => absurd e (hcall r)) (fun p' j ho' hj => .inr ?_)
  rw [ho] at ho'
  cases ho'
  exact hnew j hj

/-- An operation of the process that has `wait_lock`: nobody else knows anything about the family. -/
theorem wait_work (hc : s.code h = .op i :: k) (ho : (s.cpu h).on = some p)
    (hwt : .wait ∈ held Op.holds (.op i :: k)) (hk : Calm k)
    (hnew : ∀ j, .op j ∈ (effect s (some p) ok i).code → j.Knows (s.apply h (effect s (some p) ok i) k) p)
    (hd : ∀ r, Drowsy (s.apply h (effect s (some p) ok i) k) r → HasKid (s.apply h (effect s (some p) ok i) k) r ∧
      ∀ c, ((s.apply h (effect s (some p) ok i) k).proc c).parent = some r →
        ((s.apply h (effect s (some p) ok i) k).proc c).state = .zombie →
          r = s.initproc ∧ ∃ p', Calling (s.apply h (effect s (some p) ok i) k) p' r) :
    Wait (s.apply h (effect s (some p) ok i) k) := by
  have hme := inside_proc hI ho
  have hwt' : .wait ∈ held Op.holds (s.kstack p) := by
    rw [← code_on ho, hc]
    exact hwt
  refine ⟨fun p' => ?_, fun p' j hj => ?_, by rw [apply_initproc]; exact hd⟩
  · rw [← hme]
    exact effect_placed hI hW hc p'
  · have hks := effect_kstack ok hI hc p'
    rw [hme] at hks
    rcases hks with ⟨ho', e⟩ | ⟨hne, ⟨e, _⟩ | ⟨_, e⟩⟩
    · rw [ho] at ho'
      cases ho'
      rw [e] at hj
      rcases List.mem_append.mp hj with hj | hj
      · exact hnew j hj
      · exact calm_knows (calm_mem hk hj)
    · rw [e] at hj
      have hne' : p' ≠ p := fun e => hne (by rw [ho, e])
      exact calm_knows (calm_mem (wf_calm (hI.wfp p') (wait_alone hI ho hwt' hne')) hj)
    · rw [e] at hj
      exact calm_knows (calm_forkret hj)

/-- Such an operation writes: the drowsy keep their children, and get a zombie only with a call for init. -/
theorem wait_write (hc : s.code h = .op i :: k) (ho : (s.cpu h).on = some p)
    (hwt : .wait ∈ held Op.holds (.op i :: k)) (hk : Idle k) (hs : ∀ r l, i ≠ .sleep (.proc r) l)
    (hcall : ∀ r, ¬i.calls r)
    (hnew : ∀ j, .op j ∈ (effect s (some p) ok i).code → j.Knows (s.apply h (effect s (some p) ok i) k) p)
    (hkid : ∀ r c, Drowsy s r → (s.proc c).parent = some r →
      ((s.apply h (effect s (some p) ok i) k).proc c).parent = some r)
    (hz : ∀ r c, Drowsy s r → ((s.apply h (effect s (some p) ok i) k).proc c).parent = some r →
      ((s.apply h (effect s (some p) ok i) k).proc c).state = .zombie → (s.proc c).parent = some r ∧
      (s.proc c).state = .zombie ∨ r = s.initproc ∧ Calling (s.apply h (effect s (some p) ok i) k) p r) :
    Wait (s.apply h (effect s (some p) ok i) k) := by
  have hme := inside_proc hI ho
  refine wait_work hI hW hc ho hwt (idle_calm hk) hnew fun r hr => ?_
  have hr' : Drowsy s r := by
    rw [← hme] at hr
    rcases effect_drowsy hI hc hr with e | ⟨_, l, e⟩
    · exact e
    · exact absurd e (hs r l)
  obtain ⟨⟨c, hc'⟩, hno⟩ := hW.drowsy r hr'
  refine ⟨⟨c, hkid r c hr' hc'⟩, fun c hp hz' => ?_⟩
  rcases hz r c hr' hp hz' with ⟨e, ez⟩ | ⟨e, ec⟩
  · obtain ⟨e, p', hp'⟩ := hno c e ez
    have hkept := calling_kept (r := r) ok hI hc hp' fun _ e => absurd e (hcall r)
    rw [hme] at hkept
    exact ⟨e, p', hkept⟩
  · exact ⟨e, p, ec⟩

theorem wait_reparent (ho : (s.cpu h).on = some p) (hc : s.code h = .op (.reparent st todo) :: k) :
    Wait (s.apply h (effect s (some p) ok (.reparent st todo)) k) := by
  have hme := inside_proc hI ho
  have hwf := wf_code hI hc
  cases todo with
  | nil =>
    refine wait_still hI hW hc ho rfl (fun _ _ => Op.noConfusion) (fun _ => id) fun j hj => ?_
    simp [effect, exec] at hj
    rcases hj with rfl | rfl
    · trivial
    intro r hr _
    rw [apply_unset rfl] at hr
    refine ⟨.wakeup (some (.proc r)) all, ?_, rfl, mem_all r⟩
    rcases effect_kstack ok hI hc p with ⟨_, e⟩ | ⟨e, _⟩
    · rw [← hme, e, hme]
      simp [effect, exec, hr]
    · exact absurd ho e
  | cons q todo =>
    by_cases hq : (s.proc q).parent = some p
    · have hset : (effect s (some p) ok (.reparent st (q :: todo))).set =
          some (q, { s.proc q with parent := some s.initproc }) := by
        simp only [effect, exec, if_pos hq]
      have hcode : (effect s (some p) ok (.reparent st (q :: todo))).code =
          [.op (.wakeup (some (.proc s.initproc)) all), .op (.reparent st todo)] := by
        simp only [effect, exec, if_pos hq]
      have hawake : ¬Drowsy s p := awake hI hW ho hc Op.noConfusion Op.noConfusion rfl
      refine wait_write hI hW hc ho (.head _) (hwf.2.1 rfl) (fun _ _ => Op.noConfusion) (fun _ => id)
        (fun j hj => ?_) (fun r c hr hkid => ?_) (fun r c hr hp hz => ?_)
      · rw [hcode] at hj
        simp at hj
        rcases hj with rfl | rfl <;> trivial
      · have hne : c ≠ q := by
          rintro rfl
          exact hawake (Option.some.inj (hq.symm.trans hkid) ▸ hr)
        rw [apply_set hset, upd_ne _ _ hne]
        exact hkid
      · rw [apply_set hset] at hp hz
        by_cases e : c = q
        · subst e
          rw [upd_same] at hp
          cases hp
          refine .inr ⟨rfl, .wakeup (some (.proc s.initproc)) all, ?_, rfl, mem_all _⟩
          rcases effect_kstack ok hI hc p with ⟨_, e⟩ | ⟨e, _⟩
          · rw [← hme, e, hme, hcode]
            exact .head _
          · exact absurd ho e
        · rw [upd_ne _ _ e] at hp hz
          exact .inl ⟨hp, hz⟩
    · refine wait_still hI hW hc ho (by simp only [effect, exec, if_neg hq]) (fun _ _ => Op.noConfusion) (fun _ => id)
        fun j hj => ?_
      simp only [effect, exec, if_neg hq] at hj
      simp at hj
      subst hj
      trivial

theorem wait_exitLast (ho : (s.cpu h).on = some p) (hc : s.code h = .op (.exitLast st) :: k) :
    Wait (s.apply h (effect s (some p) ok (.exitLast st)) k) := by
  have hme := inside_proc hI ho
  have hwf := wf_code hI hc
  refine wait_still hI hW hc ho rfl (fun _ _ => Op.noConfusion) (fun _ => id) fun j hj => ?_
  simp [effect, exec] at hj
  subst hj
  intro r hr hd
  rw [apply_unset rfl] at hr
  rw [← hme] at hd
  rcases effect_drowsy hI hc hd with e | ⟨_, l, e⟩
  · -- the call has ended
    obtain ⟨i, hi, hcl⟩ := hW.knows p _ (mem_code ho hc) r hr e
    rw [← code_on ho, hc] at hi
    rcases List.mem_cons.mp hi with e | e
    · cases e
      exact hcl
    · have := calm_mem (idle_calm (hwf.2.1 rfl)) e
      rw [calls_calm hcl] at this
      cases this
  · cases e

end

theorem wait_kwaitScan {b : Bool} (hI : Inv s) (hW : Wait s) (ho : (s.cpu h).on = some p)
    (hc : s.code h = .op (.kwaitScan b todo) :: k) :
    Wait (s.apply h (effect s (some p) ok (.kwaitScan b todo)) k) := by
  obtain ⟨hkid, hno⟩ : (b = true → HasKid s p) ∧ NoZombie s p todo := hW.knows p _ (mem_code ho hc)
  have hset : (effect s (some p) ok (.kwaitScan b todo)).set = none := by
    cases todo <;> simp only [effect, exec] <;> split <;> rfl
  refine wait_still hI hW hc ho hset (fun _ _ => Op.noConfusion) (fun _ => id) fun j hj => ?_
  have hproc := apply_unset (s := s) (h := h) (k := k) hset
  generalize s.apply h (effect s (some p) ok (.kwaitScan b todo)) k = s' at hproc
  cases todo with
  | nil =>
    simp only [effect, exec] at hj
    split at hj <;> simp at hj
    subst hj
    simp only [Op.Knows, HasKid, NoZombie, hproc]
    exact ⟨hkid (by assumption), hno⟩
  | cons q todo =>
    simp only [effect, exec] at hj
    split at hj <;> simp at hj <;> subst hj <;> simp only [Op.Knows, HasKid, NoZombie, hproc]
    · exact ⟨by assumption, hno⟩
    · rename_i hq
      refine ⟨hkid, fun c hm hp => hno c (fun e => ?_) hp⟩
      rcases List.mem_cons.mp e with rfl | e
      · exact hq hp
      · exact hm e

theorem wait_kwaitKilled (hI : Inv s) (hW : Wait s) (ho : (s.cpu h).on = some p)
    (hc : s.code h = .op (.kwaitKilled q) :: k) : Wait (s.apply h (effect s (some p) ok (.kwaitKilled q)) k) := by
  have hkn : HasKid s p ∧ NoZombie s p [] := hW.knows p _ (mem_code ho hc)
  have hset : (effect s (some p) ok (.kwaitKilled q)).set = none := by
    simp only [effect, exec]
    split <;> rfl
  refine wait_still hI hW hc ho hset (fun _ _ => Op.noConfusion) (fun _ => id) fun j hj => ?_
  have hproc := apply_unset (s := s) (h := h) (k := k) hset
  generalize s.apply h (effect s (some p) ok (.kwaitKilled q)) k = s' at hproc
  simp only [effect, exec] at hj
  split at hj <;> simp at hj
  rcases hj with rfl | rfl
  · intro _
    simp only [HasKid, NoZombie, hproc]
    exact hkn
  · exact calm_knows (by simp [Op.isCalm])

theorem wait_kwaitTest (hI : Inv s) (hW : Wait s) (ho : (s.cpu h).on = some p)
    (hc : s.code h = .op (.kwaitTest q todo) :: k) :
    Wait (s.apply h (effect s (some p) ok (.kwaitTest q todo)) k) := by
  have hwf := wf_code hI hc
  obtain ⟨hq, hno⟩ : (s.proc q).parent = some p ∧ NoZombie s p (q :: todo) := hW.knows p _ (mem_code ho hc)
  by_cases hz : (s.proc q).state = .zombie
  · cases ok with
    | true =>
      have hset : (effect s (some p) true (.kwaitTest q todo)).set = some (q, freeproc (s.proc q)) := by
        simp only [effect, exec, if_pos hz]
        rfl
      have hawake : ¬Drowsy s p := awake hI hW ho hc Op.noConfusion Op.noConfusion rfl
      refine wait_write hI hW hc ho (by simp [Op.holds]) (hwf.2.1 rfl) (fun _ _ => Op.noConfusion) (fun _ => id)
        (fun j hj => ?_) (fun r c hr hkid => ?_) (fun r c hr hp hz => ?_)
      · simp [effect, exec, hz] at hj
        subst hj
        trivial
      · have hne : c ≠ q := by
          rintro rfl
          exact hawake (Option.some.inj (hq.symm.trans hkid) ▸ hr)
        rw [apply_set hset, upd_ne _ _ hne]
        exact hkid
      · rw [apply_set hset] at hp hz
        by_cases e : c = q
        · subst e
          rw [upd_same] at hp
          cases hp
        · rw [upd_ne _ _ e] at hp hz
          exact .inl ⟨hp, hz⟩
    | false =>
      refine wait_still hI hW hc ho (by simp [effect, exec, hz]) (fun _ _ => Op.noConfusion)
        (fun _ => id) fun j hj => ?_
      simp [effect, exec, hz] at hj
  · have hset : (effect s (some p) ok (.kwaitTest q todo)).set = none := by simp only [effect, exec, if_neg hz]
    refine wait_still hI hW hc ho hset (fun _ _ => Op.noConfusion) (fun _ => id) fun j hj => ?_
    have hproc := apply_unset (s := s) (h := h) (k := k) hset
    generalize s.apply h (effect s (some p) ok (.kwaitTest q todo)) k = s' at hproc
    simp [effect, exec, hz] at hj
    subst hj
    simp only [Op.Knows, HasKid, NoZombie, hproc]
    refine ⟨fun _ => ⟨q, hq⟩, fun c hm hp => ?_⟩
    by_cases e : c = q
    · rw [e]
      exact hz
    · exact hno c (fun hm' => (List.mem_cons.mp hm').elim e hm) hp

theorem wait_die (hI : Inv s) (hW : Wait s) (ho : (s.cpu h).on = some p) (hc : s.code h = .op (.die q st) :: k) :
    Wait (s.apply h (effect s (some p) ok (.die q st)) k) := by
  have hwf := wf_code hI hc
  have hqp : q = p := fits_own hwf.1 ho
  subst hqp
  have hkn : ∀ r, (s.proc q).parent = some r → ¬Drowsy s r := hW.knows q _ (mem_code ho hc)
  have hproc := apply_set (s := s) (h := h) (k := k) (e := effect s (some q) ok (.die q st)) (q := q) rfl
  have hpar (c : Slot) : ((s.apply h (effect s (some q) ok (.die q st)) k).proc c).parent = (s.proc c).parent := by
    rw [hproc]
    by_cases e : c = q
    · subst e
      rw [upd_same]
    · rw [upd_ne _ _ e]
  refine wait_write hI hW hc ho (.head _) (hwf.2.1 rfl) (fun _ _ => Op.noConfusion) (fun _ => id)
    (fun j hj => ?_) (fun r c _ hkid => (hpar c).trans hkid) (fun r c hr hp hz => .inl ?_)
  · simp [effect, exec] at hj
    rcases hj with rfl | rfl <;> trivial
  · rw [hpar] at hp
    by_cases e : c = q
    · subst e
      exact absurd hr (hkn r hp)
    · rw [hproc, upd_ne _ _ e] at hz
      exact ⟨hp, hz⟩

theorem wait_setParent (hI : Inv s) (hK : Kin s) (hW : Wait s) (ho : (s.cpu h).on = some p)
    (hc : s.code h = .op (.setParent q) :: k) : Wait (s.apply h (effect s (some p) ok (.setParent q)) k) := by
  have hwf := wf_code hI hc
  have hused := (hI.fork p _ q (mem_code ho hc) rfl).1
  have hnone : (s.proc q).parent = none := hK.newborn p _ q (mem_code ho hc) rfl
  refine wait_write hI hW hc ho (.head _) (hwf.2.1 rfl) (fun _ _ => Op.noConfusion) (fun _ => id)
    (fun j hj => ?_) (fun r c _ hkid => ?_) (fun r c _ hp hz => .inl ?_)
  · simp [effect, exec] at hj
    subst hj
    trivial
  · have hne : c ≠ q := fun e => by rw [e, hnone] at hkid; cases hkid
    rw [apply_set (q := q) rfl, upd_ne _ _ hne]
    exact hkid
  · rw [apply_set (q := q) rfl] at hp hz
    by_cases e : c = q
    · subst e
      rw [upd_same] at hz
      rw [hused] at hz
      cases hz
    · rw [upd_ne _ _ e] at hp hz
      exact ⟨hp, hz⟩

theorem wait_sleep {l : Lock} (hI : Inv s) (hW : Wait s) (ho : (s.cpu h).on = some p)
    (hc : s.code h = .op (.sleep (.proc q) l) :: k) :
    Wait (s.apply h (effect s (some p) ok (.sleep (.proc q) l)) k) := by
  have hme := inside_proc hI ho
  have hwf := wf_code hI hc
  obtain ⟨hl, hcalm, _⟩ := hwf.2.1.2.1 rfl
  subst hl
  have hkn : Chan.proc q = .proc p → HasKid s p ∧ NoZombie s p [] := hW.knows p _ (mem_code ho hc)
  have hproc := apply_unset (s := s) (h := h) (k := k) (e := effect s (some p) ok (.sleep (.proc q) .wait)) rfl
  refine wait_work hI hW hc ho hwf.2.1.1 hcalm (fun j hj => ?_) (fun r hr => ?_)
  · simp [effect, exec] at hj
    subst hj
    trivial
  · rw [HasKid, hproc]
    rw [← hme] at hr
    rcases effect_drowsy hI hc hr with e | ⟨ho', l, e⟩
    · obtain ⟨hkid, hno⟩ := hW.drowsy r e
      refine ⟨hkid, fun c hp hz => ?_⟩
      obtain ⟨e, p', hp'⟩ := hno c hp hz
      have hkept := calling_kept (r := r) ok hI hc hp' fun _ e => e.elim
      rw [hme] at hkept
      exact ⟨e, p', hkept⟩
    · cases e
      rw [ho] at ho'
      cases ho'
      obtain ⟨hkid, hno⟩ := hkn rfl
      exact ⟨hkid, fun c hp hz => absurd hz (hno c List.not_mem_nil hp)⟩

theorem wait_step (hI : Inv s) (hK : Kin s) (hW : Wait s) (e : H × Ev) : Wait (step s e) := by
  obtain ⟨h, e⟩ := e
  rcases step_shape s h e with ⟨k', hs, hn⟩ | ⟨i, k, ok, _, hc, _, _, hs⟩
  · exact wait_shift hI hW hs hn
  rw [hs]
  have hwf := wf_code hI hc
  cases hf : i.isFamily with
  | false => exact wait_plain hI hK hW hc hf
  | true =>
    have hon (hn : ¬i.Fits none) : ∃ p, (s.cpu h).on = some p ∧ (s.cpu h).proc = some p := by
      obtain ⟨p, ho⟩ := fits_on hwf.1 hn
      exact ⟨p, ho, inside_proc hI ho⟩
    cases i with
    | wakeup c todo => exact wait_wakeup hI hW hc
    | wake c q todo => exact wait_wake hI hW hc
    | setParent q =>
      obtain ⟨p, ho, hme⟩ := hon id
      exact hme ▸ wait_setParent hI hK hW ho hc
    | reparent st todo =>
      obtain ⟨p, ho, hme⟩ := hon id
      exact hme ▸ wait_reparent hI hW ho hc
    | exitLast st =>
      obtain ⟨p, ho, hme⟩ := hon id
      exact hme ▸ wait_exitLast hI hW ho hc
    | die q st =>
      obtain ⟨p, ho, hme⟩ := hon id
      exact hme ▸ wait_die hI hW ho hc
    | kwaitScan b todo =>
      obtain ⟨p, ho, hme⟩ := hon id
      exact hme ▸ wait_kwaitScan hI hW ho hc
    | kwaitTest q todo =>
      obtain ⟨p, ho, hme⟩ := hon id
      exact hme ▸ wait_kwaitTest hI hW ho hc
    | kwaitKilled q =>
      obtain ⟨p, ho, hme⟩ := hon id
      exact hme ▸ wait_kwaitKilled hI hW ho hc
    | sleep c l =>
      obtain ⟨p, ho, hme⟩ := hon id
      cases c with
      | proc q => exact hme ▸ wait_sleep hI hW ho hc
      | _ => cases hf
    | _ => cases hf

/-! ## Whole runs -/

theorem family_run (es : List (H × Ev)) : Inv (run step boot es) ∧ Kin (run step boot es) ∧ Wait (run step boot es) :=
  run_keeps (f := step) (I := fun s : St H => Inv s ∧ Kin s ∧ Wait s)
    (fun _ e ⟨hI, hK, hW⟩ => ⟨inv_step hI e, kin_step hI hK e, wait_step hI hK hW e⟩) es ⟨inv_boot, kin_boot, wait_boot⟩

/-- Who sleeps in `kwait` while nobody works on the family has a child, and none of its children is a zombie. -/
theorem exit_wakes_wait (es : List (H × Ev)) (p : Slot) (hl : (run step boot es).lock .wait = none)
    (hst : ((run step boot es).proc p).state = .sleeping) (hch : ((run step boot es).proc p).chan = some (.proc p)) :
    (∃ c, ((run step boot es).proc c).parent = some p) ∧
      ∀ c, ((run step boot es).proc c).parent = some p → ((run step boot es).proc c).state ≠ .zombie := by
  obtain ⟨hI, _, hW⟩ := family_run (H := H) es
  generalize run step boot es = s at *
  obtain ⟨hkid, hno⟩ := hW.drowsy p (.inl ⟨hst, hch⟩)
  refine ⟨hkid, fun c hc hz => ?_⟩
  -- nobody is calling init: that takes wait_lock
  obtain ⟨_, q, hq⟩ := hno c hc hz
  obtain ⟨hw, h, ho⟩ := calling_on hI hq
  have := lock_code (h := h) hI (by rw [code_on ho]; exact hw)
  rw [hl] at this
  cases this

/-- On one hart: init makes a child and waits for it. -/
def waiting : List (Unit × Ev) :=
  List.replicate 5 ((), .next true) ++ [((), .call .kfork)] ++ List.replicate 21 ((), .next true) ++
    [((), .call .kwait)] ++ List.replicate 76 ((), .next true)

theorem exit_wakes_wait_init :
    (∃ c, ((run step boot waiting).proc c).parent = some Sched.boot.initproc) ∧
      ∀ c, ((run step boot waiting).proc c).parent = some Sched.boot.initproc →
        ((run step boot waiting).proc c).state ≠ .zombie :=
  exit_wakes_wait waiting Sched.boot.initproc (by decide +kernel) (by decide +kernel) (by decide +kernel)

end Operations

end Xv6.Smp
