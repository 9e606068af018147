/-
  Xv6.Smp.Family — the processes as a family (`Xv6.Lib.Forest`): `kfork` gives birth,
  `kexit` hands its children to init and dies, `kwait` reaps. Every step of every hart is
  a move of the family, so the parent links form a tree whatever the interleaving. What a
  process in the middle of `kexit` or `kfork` counts on (`Kin`): its children are among
  those that `reparent` has still to visit, and the child it is making has no parent yet,
  or has it for a parent.
-/

import Xv6.Smp.Moves
import Xv6.Lib.Forest

namespace Xv6.Smp

open Lib
open Sched (Slot Proc Chan ProcState freeproc incr charge)

def age : ProcState → Age
  | .unused => .free
  | .used => .young
  | .zombie => .dead
  | .runnable | .running | .sleeping => .grown

def St.family {H : Type} (s : St H) : Family Slot where
  age p := age (s.proc p).state
  par p := (s.proc p).parent
  root := s.initproc

/-- The slots among which the children of a process in `kexit` are. -/
def Op.left : Op → Option (List Slot)
  | .body _ (some _) => some all
  | .reparent _ todo => some todo
  | .exitLast _ | .die _ _ | .zombieExit _ => some []
  | _ => none

structure Kin {H : Type} (s : St H) : Prop where
  tree : s.family.Tree
  exits : ∀ p i todo, .op i ∈ s.kstack p → i.left = some todo →
    p ≠ s.initproc ∧ ∀ c, (s.proc c).parent = some p → c ∈ todo
  newborn : ∀ p i q, .op i ∈ s.kstack p → i.np = some q → (s.proc q).parent = if i = .forkEnd q then some p else none

section Family

variable {H : Type} {s s' : St H} {h h' : H} {p q : Slot} {k k' : Code} {i j : Op} {ok : Bool}

variable {v : Proc} {me : Option Slot} {todo : List Slot}

theorem mem_all (p : Slot) : p ∈ all := List.mem_finRange p

/-! ## What a thread goes on with -/

structure Begins (s : St H) (h : H) (j : Op) : Prop where
  calm : j.isCalm = true
  np : j.np = none
  left : ∀ todo, j.left = some todo → ∃ i, .op i ∈ s.code h ∧ i.left = some todo
  doze : ∀ p c, j ≠ .doze p c
  ret : ∀ pid, j ≠ .kwaitRet pid

theorem call_begins {locks : List Nat} {status : Option Int} (c : Call) (hc : s.code h = .op (.body locks status) :: k)
    (hj : .op j ∈ call p locks status c) : Begins s h j := by
  have hbody (ls : List Nat) : Begins s h (.body ls status) := by
    refine ⟨rfl, rfl, fun todo hl => ⟨.body locks status, by rw [hc]; exact .head _, ?_⟩,
      (fun _ _ e => by cases e), (fun _ e => by cases e)⟩
    cases status with
    | none => cases hl
    | some st => exact hl
  have hplain {j : Op} (hm : j.isCalm = true) (hn : j.np = none) (hl : j.left = none) (hd : ∀ p c, j ≠ .doze p c)
      (hr : ∀ pid, j ≠ .kwaitRet pid) : Begins s h j := ⟨hm, hn, (fun _ e => by rw [hl] at e; cases e), hd, hr⟩
  cases c with
  | acquire a =>
    simp [call] at hj
    exact hj ▸ hbody _
  | release a =>
    simp only [call] at hj
    split at hj
    · simp at hj
      exact hj ▸ hbody _
    · simp at hj
      rcases hj with rfl | rfl
      · exact hplain rfl rfl rfl (fun _ _ => Op.noConfusion) (fun _ => Op.noConfusion)
      · exact hbody _
  | sleep c a | wakeup c =>
    simp only [call] at hj
    split at hj
    · rename_i hc
      simp at hj
      rcases hj with rfl | rfl
      · exact hplain (by simp [Op.isCalm, hc]) rfl rfl (fun _ _ => Op.noConfusion) (fun _ => Op.noConfusion)
      · exact hbody _
    · simp at hj
      exact hj ▸ hbody _
  | yield | usertrap | kfork | kexit | kwait | kkill | setkilled | killed =>
    cases status with
    | some st =>
      simp [call] at hj
      exact hj ▸ hbody _
    | none =>
      simp [call] at hj
      rcases hj with rfl | hj
      · exact hplain (by simp [Op.isCalm]) rfl rfl (fun _ _ => Op.noConfusion) (fun _ => Op.noConfusion)
      · first
        | exact hj ▸ hbody _
        | (rcases hj with rfl | rfl
           · exact hplain rfl rfl rfl (fun _ _ => Op.noConfusion) (fun _ => Op.noConfusion)
           · exact hbody _)

theorem next_mem (hn : Next s h k') (hj : .op j ∈ k') : .op j ∈ s.code h ∨ Begins s h j := by
  cases hn with
  | stay => exact .inl hj
  | pop c k code => exact .inl (by rw [code]; exact .tail _ hj)
  | panic =>
    rcases List.mem_cons.mp hj with e | e
    · cases e
      exact .inr ⟨rfl, rfl, (fun _ e => by cases e), (fun _ _ e => by cases e), (fun _ e => by cases e)⟩
    · exact .inl e
  | call p locks status c k code =>
    rcases List.mem_append.mp hj with e | e
    · exact .inr (call_begins c code e)
    · exact .inl (by rw [code]; exact .tail _ e)
  | interrupt new _ ops =>
    rcases List.mem_append.mp hj with e | e
    · rcases ops j e with rfl | ⟨c, hc, rfl⟩
      · exact .inr ⟨rfl, rfl, (fun _ e => by cases e), (fun _ _ e => by cases e), (fun _ e => by cases e)⟩
      · exact .inr ⟨by simp [Op.isCalm, hc], rfl, (fun _ e => by cases e), (fun _ _ e => by cases e),
          (fun _ e => by cases e)⟩
    · exact .inl e

theorem next_keeps (hn : Next s h k') (hj : .op j ∈ s.code h) (hs : j ≠ .sched) (ht : ∀ p, j ≠ .swtch p)
    (hb : ∀ ls st, j ≠ .body ls st) : .op j ∈ k' := by
  cases hn with
  | stay => exact hj
  | pop c k code op =>
    rw [code] at hj
    rcases List.mem_cons.mp hj with e | e
    · rcases op j e.symm with e | ⟨p, e⟩
      · exact absurd e hs
      · exact absurd e (ht p)
    · exact e
  | panic => exact .tail _ hj
  | call p locks status c k code =>
    rw [code] at hj
    rcases List.mem_cons.mp hj with e | e
    · cases e
      exact absurd rfl (hb _ _)
    · exact List.mem_append_right _ e
  | interrupt new _ ops => exact List.mem_append_right _ hj

/-! ## The family -/

theorem family_age : s.family.age p = age (s.proc p).state := rfl

theorem family_par : s.family.par p = (s.proc p).parent := rfl

section

variable (hp : s'.proc = upd s.proc q v) (hi : s'.initproc = s.initproc)

include hp hi

theorem family_set :
    s'.family = { s.family with age := upd s.family.age q (age v.state), par := upd s.family.par q v.parent } := by
  unfold St.family
  rw [hp]
  congr 1
  · exact comp_upd (fun x : Proc => age x.state) s.proc q v
  · exact comp_upd Proc.parent s.proc q v

theorem family_aged (hv : v.parent = (s.proc q).parent) :
    s'.family = { s.family with age := upd s.family.age q (age v.state) } := by
  have hq : upd s.family.par q v.parent = s.family.par := by
    rw [hv]
    exact upd_self s.family.par q
  rw [family_set hp hi, hq]

theorem family_linked (hv : age v.state = age (s.proc q).state) :
    s'.family = { s.family with par := upd s.family.par q v.parent } := by
  have hq : upd s.family.age q (age v.state) = s.family.age := by
    rw [hv]
    exact upd_self s.family.age q
  rw [family_set hp hi, hq]

/-- Nothing that the family shows is written. -/
theorem family_same (hv : age v.state = age (s.proc q).state)
    (hv' : v.parent = (s.proc q).parent) : s'.family = s.family := by
  have hq : upd s.family.par q v.parent = s.family.par := by
    rw [hv']
    exact upd_self s.family.par q
  rw [family_linked hp hi hv, hq]

end

/-! ## What an operation does to a family -/

theorem charge_parent (v : Proc) : (charge v).parent = v.parent := by rw [Sched.charge_eq]

theorem exec_left (hj : .op j ∈ (exec s p ok i).code) (hl : j.left = some todo) :
    i.left = some todo ∨ (∃ st q, i = .reparent st (q :: todo)) ∨ todo = all ∧ p ≠ s.initproc := by
  revert hj
  fun_cases exec s p ok i <;> grind [Op.left, Op.stop]

theorem effect_left (hj : .op j ∈ (effect s me ok i).code) (hl : j.left = some todo) :
    i.left = some todo ∨ (∃ st q, i = .reparent st (q :: todo)) ∨ todo = all ∧ me ≠ some s.initproc := by
  revert hj
  fun_cases effect s me ok i <;> grind [Op.left, Op.stop, exec_left]

theorem write_parent (hw : Write s me i q v) :
    v.parent = (s.proc q).parent ∨ i = .allocMem q ∧ v.parent = none ∨ i = .forkCopy q ∧ v.parent = none ∨
      i = .setParent q ∧ v.parent = me ∨
        (∃ st todo, i = .reparent st (q :: todo) ∧ (s.proc q).parent = me ∧ v.parent = some s.initproc) ∨
          ∃ todo, i = .kwaitTest q todo ∧ (s.proc q).state = .zombie ∧ v.parent = none := by
  cases hw with
  | charge => exact .inl (charge_parent _)
  | allocFail => exact .inr (.inl ⟨rfl, rfl⟩)
  | undo => exact .inr (.inr (.inl ⟨rfl, rfl⟩))
  | setParent => exact .inr (.inr (.inr (.inl ⟨rfl, rfl⟩)))
  | reparent =>
    rename_i parent
    exact .inr (.inr (.inr (.inr (.inl ⟨_, _, rfl, parent, rfl⟩))))
  | reap =>
    rename_i state
    exact .inr (.inr (.inr (.inr (.inr ⟨_, rfl, state, rfl⟩))))
  | _ => exact .inl rfl

theorem mem_code (ho : (s.cpu h).on = some p) (hc : s.code h = .op i :: k) : .op i ∈ s.kstack p := by
  rw [← code_on ho, hc]
  exact .head _

theorem mem_below (ho : (s.cpu h).on = some p) (hc : s.code h = .op i :: k) (hj : .op j ∈ k) : .op j ∈ s.kstack p := by
  rw [← code_on ho, hc]
  exact .tail _ hj

/-- The process that does an operation of its own is `myproc()`. -/
theorem on_of_proc (hI : Inv s) (hc : s.code h = .op i :: k) (hn : ¬i.Fits none) (hp : (s.cpu h).proc = some p) :
    (s.cpu h).on = some p := by
  have hwf := wf_code hI hc
  obtain ⟨p', ho⟩ := fits_on hwf.1 hn
  rw [← hp, inside_proc hI ho, ho]

/-- An operation that a process comes to have in front of it is one that begins. -/
theorem shift_mem (hs : Shift s s' h k') (hn : Next s h k') (p : Slot) (j : Op) (hj : .op j ∈ s'.kstack p) :
    .op j ∈ s.kstack p ∨ (s.cpu h).on = some p ∧ Begins s h j := by
  by_cases ho : (s.cpu h).on = some p
  · rw [hs.mine p ho] at hj
    rcases next_mem hn hj with e | e
    · exact .inl (by rw [← code_on ho]; exact e)
    · exact .inr ⟨ho, e⟩
  · rw [hs.other p ho] at hj
    exact .inl hj

theorem kin_shift (hK : Kin s) (hs : Shift s s' h k') (hn : Next s h k') : Kin s' := by
  have hfam : s'.family = s.family := by
    unfold St.family
    rw [hs.proc, hs.initproc]
  refine ⟨hfam ▸ hK.tree, fun p j todo hj hl => ?_, fun p j q hj hq => ?_⟩
  · rw [hs.initproc, hs.proc]
    rcases shift_mem hs hn p j hj with e | ⟨ho, e⟩
    · exact hK.exits p j todo e hl
    · obtain ⟨i, hi, hl'⟩ := e.left todo hl
      exact hK.exits p i todo (by rw [← code_on ho]; exact hi) hl'
  · rw [hs.proc]
    rcases shift_mem hs hn p j hj with e | ⟨_, e⟩
    · exact hK.newborn p j q e hq
    · rw [e.np] at hq
      cases hq

/-! ## Every step is a move of the family -/

theorem write_move (hI : Inv s) (hK : Kin s) (hc : s.code h = .op i :: k) (hme : (s.cpu h).proc = me)
    (hw : Write s me i q v) (hp : s'.proc = upd s.proc q v) (hi : s'.initproc = s.initproc) :
    s.family.Move s'.family := by
  have hwf := wf_code hI hc
  have hmem {p0 : Slot} (ho : (s.cpu h).on = some p0) : .op i ∈ s.kstack p0 := by
    rw [← code_on ho, hc]
    exact .head _
  have hon {p0 : Slot} (hn : ¬i.Fits none) (hp0 : (s.cpu h).proc = some p0) : (s.cpu h).on = some p0 := by
    obtain ⟨p', ho⟩ := fits_on hwf.1 hn
    rw [← hp0, inside_proc hI ho, ho]
  have hsame (ha : age v.state = age (s.proc q).state) (hv : v.parent = (s.proc q).parent) :
      s.family.Move s'.family := by
    rw [family_same hp hi ha hv]
    exact .same
  cases hw with
  | dispatch | wake =>
    rename_i state
    exact hsame (by rw [state]; rfl) rfl
  | charge p => exact hsame (by rw [charge_state]) (charge_parent _)
  | tidy | allocpid | setkilled => exact hsame rfl rfl
  | kill p pid todo =>
    refine hsame ?_ rfl
    split
    · rename_i e
      rw [e]
      rfl
    · rfl
  | giveUp p | doze p c =>
    have ho := hon id hme
    have hq : q = p := fits_own hwf.1 ho
    refine hsame ?_ rfl
    rw [hq, inside_running hI ho hc Op.noConfusion Op.noConfusion]
    rfl
  | alloc p =>
    have ho := hon id hme
    have hu : (s.proc q).state = .unused := hI.found h p q ho (by rw [← code_on ho, hc]; exact .mem k)
    rw [family_aged hp hi rfl]
    exact .born q (by rw [family_age, hu]; rfl)
  | allocFail p =>
    have ho := hon id hme
    have hu : (s.proc q).state = .unused := hI.found h p q ho (by rw [← code_on ho, hc]; exact .mem k)
    refine hsame (by rw [hu]; rfl) (hK.tree.fresh q ?_).symm
    rw [family_age, hu]
    rfl
  | undo p =>
    have ho := hon id hme
    have hu := (hI.fork p _ q (hmem ho) rfl).1
    have hn : (s.proc q).parent = none := hK.newborn p _ q (hmem ho) rfl
    rw [family_aged hp hi hn.symm]
    exact .undone q (by rw [family_age, hu]; rfl) hn
  | setParent p =>
    have ho := hon id hme
    have hu := (hI.fork p _ q (hmem ho) rfl).1
    have hn : (s.proc q).parent = none := hK.newborn p _ q (hmem ho) rfl
    rw [family_linked hp hi rfl]
    refine .adopted q p (by rw [family_age, hu]; rfl) hn ?_
    rw [family_age, inside_running hI ho hc Op.noConfusion Op.noConfusion]
    rfl
  | forkEnd p =>
    have ho := hon id hme
    have hu := (hI.fork p _ q (hmem ho) rfl).1
    have hn : (s.proc q).parent = some p := (hK.newborn p _ q (hmem ho) rfl).trans (if_pos rfl)
    rw [family_aged hp hi rfl]
    exact .grew q (by rw [family_age, hu]; rfl) (by rw [family_par, hn]; rfl)
  | reparent =>
    rename_i parent
    rw [family_linked hp hi rfl]
    exact .handed q (by rw [family_par, parent]; rfl)
  | die p st =>
    have ho := hon id hme
    have hq : q = p := fits_own hwf.1 ho
    subst hq
    obtain ⟨hne, hkids⟩ := hK.exits q _ [] (hmem ho) rfl
    rw [family_aged hp hi rfl]
    refine .died q ?_ hne fun x e => by cases hkids x e
    rw [family_age, inside_running hI ho hc Op.noConfusion Op.noConfusion]
    rfl
  | reap =>
    rename_i state
    rw [family_set hp hi]
    exact .reaped q (by rw [family_age, state]; rfl)

variable [DecidableEq H]

theorem effect_move (hI : Inv s) (hK : Kin s) (hc : s.code h = .op i :: k) :
    s.family.Move (s.apply h (effect s (s.cpu h).proc ok i) k).family := by
  cases he : (effect s (s.cpu h).proc ok i).set with
  | none =>
    have : (s.apply h (effect s (s.cpu h).proc ok i) k).family = s.family := by
      unfold St.family
      rw [apply_unset he, apply_initproc]
    rw [this]
    exact .same
  | some w => exact write_move hI hK hc rfl (effect_set he) (apply_set he) apply_initproc

/-! ## Processes in the middle of `kexit` and `kfork` -/

theorem left_call (hl : j.left = some todo) : j.isCall = true := by
  cases j with
  | body ls st => cases st <;> first | rfl | cases hl
  | _ => first | rfl | cases hl

theorem np_call (hn : j.np = some q) : j.isCall = true := by
  rcases np_cases hn with rfl | rfl | rfl <;> rfl

theorem left_forkret (hj : .op j ∈ forkret p) : j.left ≠ some todo := by
  simp [forkret] at hj
  subst hj
  exact (fun e => by cases e)

/-- A child after an operation was one before, or its parent has just made it, or init has got it. -/
theorem effect_kid {c : Slot} (hp : ((s.apply h (effect s me ok i) k).proc c).parent = some p) :
    (s.proc c).parent = some p ∨ i = .setParent c ∧ me = some p ∨ p = s.initproc := by
  rcases apply_proc s h (effect s me ok i) k c with e | he
  · rw [e] at hp
    exact .inl hp
  rcases write_parent (effect_set he) with e | ⟨_, e⟩ | ⟨_, e⟩ | ⟨hi, e⟩ | ⟨_, _, _, _, e⟩ | ⟨_, _, _, e⟩
  · exact .inl (e.symm.trans hp)
  · rw [hp] at e; cases e
  · rw [hp] at e; cases e
  · exact .inr (.inl ⟨hi, e.symm.trans hp⟩)
  · exact .inr (.inr (Option.some.inj (hp.symm.trans e)))
  · rw [hp] at e; cases e

theorem exits_effect (hI : Inv s) (hK : Kin s) (hc : s.code h = .op i :: k)
    (hj : .op j ∈ (s.apply h (effect s (s.cpu h).proc ok i) k).kstack p) (hl : j.left = some todo) :
    p ≠ s.initproc ∧ ∀ c, ((s.apply h (effect s (s.cpu h).proc ok i) k).proc c).parent = some p → c ∈ todo := by
  have hwf := wf_code hI hc
  rcases effect_kstack ok hI hc p with ⟨ho, hk⟩ | ⟨ho, ⟨hk, _⟩ | ⟨_, hk⟩⟩
  · have hme := inside_proc hI ho
    rw [hk] at hj
    rcases List.mem_append.mp hj with hm | hm
    · rcases effect_left hm hl with hi | ⟨st, q, rfl⟩ | ⟨rfl, hne⟩
      · obtain ⟨hne, hkids⟩ := hK.exits p i todo (mem_code ho hc) hi
        refine ⟨hne, fun c hp => ?_⟩
        rcases effect_kid hp with e | ⟨rfl, _⟩ | e
        · exact hkids c e
        · cases hi
        · exact absurd e hne
      · -- the child at the head of the list is init's now, or it was not a child
        obtain ⟨hne, hkids⟩ := hK.exits p _ (q :: todo) (mem_code ho hc) rfl
        refine ⟨hne, fun c hp => ?_⟩
        rcases effect_kid hp with e | ⟨e, _⟩ | e
        · rcases List.mem_cons.mp (hkids c e) with rfl | hm'
          · have hset : (effect s (some p) ok (.reparent st (c :: todo))).set =
                some (c, { s.proc c with parent := some s.initproc }) := by
              simp only [effect, exec, if_pos e]
            rw [hme, apply_set hset, upd_same] at hp
            exact absurd (Option.some.inj hp).symm hne
          · exact hm'
        · cases e
        · exact absurd e hne
      · rw [hme] at hne
        exact ⟨fun e => hne (by rw [e]), fun c _ => mem_all c⟩
    · obtain ⟨hne, hkids⟩ := hK.exits p j todo (mem_below ho hc hm) hl
      refine ⟨hne, fun c hp => ?_⟩
      rcases effect_kid hp with e | ⟨rfl, _⟩ | e
      · exact hkids c e
      · have := idle_mem (hwf.2.1 rfl) hm
        rw [left_call hl] at this
        cases this
      · exact absurd e hne
  · rw [hk] at hj
    obtain ⟨hne, hkids⟩ := hK.exits p j todo hj hl
    refine ⟨hne, fun c hp => ?_⟩
    rcases effect_kid hp with e | ⟨rfl, e⟩ | e
    · exact hkids c e
    · exact absurd (on_of_proc hI hc id e) ho
    · exact absurd e hne
  · rw [hk] at hj
    exact absurd hl (left_forkret hj)

/-- A child in the making keeps its parent, or its lack of one, while its parent does not work on it. -/
theorem newborn_kept (hI : Inv s) (hK : Kin s) (hc : s.code h = .op i :: k) (hj : .op j ∈ s.kstack p)
    (hn : j.np = some q) (hmine : (s.cpu h).on = some p → .op j ∈ k) :
    ((s.apply h (effect s (s.cpu h).proc ok i) k).proc q).parent = (s.proc q).parent := by
  have hwf := wf_code hI hc
  have hused := (hI.fork p j q hj hn).1
  have hcall (hi : ¬i.Fits none) (hidle : Idle k) : ∃ p0, (s.cpu h).on = some p0 ∧ p0 ≠ p := by
    obtain ⟨p0, ho⟩ := fits_on hwf.1 hi
    refine ⟨p0, ho, fun e => ?_⟩
    have := idle_mem hidle (hmine (e ▸ ho))
    rw [np_call hn] at this
    cases this
  rcases apply_proc s h (effect s (s.cpu h).proc ok i) k q with e | he
  · rw [e]
  rcases write_parent (effect_set he) with e | ⟨rfl, e⟩ | ⟨rfl, e⟩ | ⟨rfl, e⟩ | ⟨_, _, rfl, hp, e⟩ | ⟨_, rfl, hz, e⟩
  · exact e
  · obtain ⟨p0, ho, _⟩ := hcall id (hwf.2.1 rfl)
    have hu := hI.found h p0 q ho (by rw [← code_on ho, hc]; exact .mem k)
    rw [hu] at hused
    cases hused
  · obtain ⟨p0, ho, hne⟩ := hcall id (hwf.2.1 rfl)
    exact absurd (hI.forkOne p0 p _ j q (mem_code ho hc) hj rfl hn) hne
  · obtain ⟨p0, ho, hne⟩ := hcall id (hwf.2.1 rfl)
    exact absurd (hI.forkOne p0 p _ j q (mem_code ho hc) hj rfl hn) hne
  · obtain ⟨p0, ho, hne⟩ := hcall id (hwf.2.1 rfl)
    rw [inside_proc hI ho, hK.newborn p j q hj hn] at hp
    split at hp
    · exact absurd (Option.some.inj hp).symm hne
    · cases hp
  · rw [hz] at hused
    cases hused

theorem newborn_effect (hI : Inv s) (hK : Kin s) (hc : s.code h = .op i :: k)
    (hj : .op j ∈ (s.apply h (effect s (s.cpu h).proc ok i) k).kstack p) (hn : j.np = some q) :
    ((s.apply h (effect s (s.cpu h).proc ok i) k).proc q).parent = if j = .forkEnd q then some p else none := by
  rcases effect_kstack ok hI hc p with ⟨ho, hk⟩ | ⟨ho, ⟨hk, _⟩ | ⟨_, hk⟩⟩
  · have hme := inside_proc hI ho
    rw [hk] at hj
    rcases List.mem_append.mp hj with hj | hj
    · rcases effect_np hj hn with ⟨hi, _⟩ | hx
      · have hold := hK.newborn p i q (mem_code ho hc) hi
        rcases np_cases hi with rfl | rfl | rfl
        · rw [hme] at hj ⊢
          simp only [effect, exec] at hj ⊢
          split at hj
          · rename_i hok
            simp at hj
            subst hj
            rw [apply_unset (by simp [hok]), hold]
            rfl
          · simp at hj
        · rw [hme] at hj ⊢
          simp [effect, exec] at hj
          subst hj
          rw [apply_set (by rfl), upd_same, if_pos rfl]
        · rw [hme] at hj
          simp [effect, exec] at hj
      · obtain ⟨rfl, hset, hcode⟩ := effect_ctx hx
        have hu := hI.found h p q ho (by rw [← code_on ho, hc]; exact .mem k)
        have hfresh : (s.proc q).parent = none := hK.tree.fresh q (by rw [family_age, hu]; rfl)
        rw [hcode] at hj
        simp at hj
        subst hj
        rw [apply_set hset, upd_same]
        exact hfresh
    · have hold := mem_below ho hc hj
      rw [newborn_kept hI hK hc hold hn fun _ => hj]
      exact hK.newborn p j q hold hn
  · rw [hk] at hj
    rw [newborn_kept hI hK hc hj hn fun e => absurd e ho]
    exact hK.newborn p j q hj hn
  · rw [hk] at hj
    rw [np_forkret hj] at hn
    cases hn

/-! ## The tree -/

theorem kin_step (hI : Inv s) (hK : Kin s) (e : H × Ev) : Kin (step s e) := by
  obtain ⟨h, e⟩ := e
  rcases step_shape s h e with ⟨k', hs, hn⟩ | ⟨i, k, ok, _, hc, _, _, hs⟩
  · exact kin_shift hK hs hn
  · rw [hs]
    refine ⟨hK.tree.move (effect_move hI hK hc), fun p j todo hj hl => ?_, fun p j q => newborn_effect hI hK hc⟩
    rw [apply_initproc]
    exact exits_effect hI hK hc hj hl

end Family

end Xv6.Smp
