/-
  Xv6.Lib.Signals — what wakeups and kills guarantee in a monitor (`Xv6.Lib.Monitor`):
  - `signals_inv`: nobody sleeps on a channel without reason while the lock is free;
  - `alert_inv`: nobody is asleep and killed.
  Both ask only about single steps of the program.
-/

import Xv6.Lib.Monitor

namespace Xv6.Lib.Monitor

variable {P C D L A I X : Type} {m : Prog P C D L A I X} {u : Usage P D L A I}

variable {s : St P C D L} {p : P} {ph : Phase P C L} {c : C}

/-! ## No lost wakeup -/

/-- `B d c`: with the data `d` there is reason to sleep on `c`. A party at `l` that has taken
    the reason away from sleepers on `c` owes them a wakeup (`Owe l c`). A step from `d` and `l`
    keeps account of what is owed, and it is paid before a sleep or the return. -/
def Pays (B : D → C → Prop) (Owe : L → C → Prop) (d : D) (l : L) (d' : D) : Act C L → Prop
  | .go l' => ∀ c, B d c ∨ Owe l c → B d' c ∨ Owe l' c
  | .wake c l' => ∀ c', c' ≠ c → B d c' ∨ Owe l c' → B d' c' ∨ Owe l' c'
  | .sleep c _ => B d' c ∧ ∀ c', B d c' ∨ Owe l c' → B d' c'
  | .leave => ∀ c, B d c ∨ Owe l c → B d' c

structure Signals (J : D → (P → Option L) → Prop) (B : D → C → Prop) (Owe : L → C → Prop) : Prop where
  exec : ∀ d ls p k l i, J d ls → ls p = some l → u.exec p k d l i →
    Pays B Owe d l (m.step p k d l i).1 (m.step p k d l i).2
  env : ∀ d x c, B d c → B (m.env d x) c

/-- Who sleeps, or is about to, has reason to, or the holder of the lock is going to wake it. -/
structure Signalled (B : D → C → Prop) (Owe : L → C → Prop) (s : St P C D L) : Prop where
  free : s.holder = none → ∀ q c, (s.phase q).waits = some c → B s.data c
  inside : ∀ p l, s.phase p = .inside l → ∀ q c, (s.phase q).waits = some c → B s.data c ∨ Owe l c
  waking : ∀ p c' todo l, s.phase p = .waking c' todo l → ∀ q c, (s.phase q).waits = some c →
    (c' = c ∧ q ∈ todo) ∨ B s.data c ∨ Owe l c

theorem waits_wake [DecidableEq C] {c' : C} (h : (ph.wake c).waits = some c') (hf : ph.falls = false) :
    ph.waits = some c' ∧ c' ≠ c := by
  cases ph with
  | asleep c'' l =>
    unfold Phase.wake at h
    dsimp only at h
    split at h
    · cases h
    · cases h; exact ⟨rfl, ‹_›⟩
  | falling c'' l => cases hf
  | _ => cases h

theorem waits_rouse (h : ph.rouse.waits = some c) : ph.waits = some c := by
  cases ph with
  | asleep c' l => cases h
  | _ => exact h

/-- The holder of the lock is the only party inside. -/
theorem only_holder (hw : Wf s) {q : P} (hp : (s.phase p).held ≠ none) (hq : (s.phase q).held ≠ none) : q = p := by
  have h1 := (hw p).mpr hp
  have h2 := (hw q).mpr hq
  rw [h1] at h2
  exact (Option.some.inj h2).symm

section
variable {J : D → (P → Option L) → Prop} {B : D → C → Prop} {Owe : L → C → Prop} {s : St P C D L}

variable {d : D} {f : P → Phase P C L} {k : P → Bool} {p : P}

theorem signalled_free (hw : Wf ⟨d, f, none, k⟩) (h : ∀ q c, (f q).waits = some c → B d c) :
    Signalled B Owe ⟨d, f, none, k⟩ := by
  have hno : ∀ p, (f p).held = none := by
    intro p
    by_contra hne
    cases (hw p).mpr hne
  refine ⟨fun _ => h, fun p l (hp : f p = .inside l) => ?_, fun p c' todo l (hp : f p = .waking c' todo l) => ?_⟩
  · have := hno p; rw [hp] at this; cases this
  · have := hno p; rw [hp] at this; cases this

theorem signalled_inside (hw : Wf ⟨d, f, some p, k⟩) {l : L} (hp : f p = .inside l)
    (h : ∀ q c, (f q).waits = some c → B d c ∨ Owe l c) : Signalled B Owe ⟨d, f, some p, k⟩ := by
  have hin : (f p).held ≠ none := by rw [hp]; exact Option.some_ne_none _
  have honly : ∀ q, (f q).held ≠ none → q = p := fun q hq => only_holder hw hin hq
  refine ⟨(fun hn => by cases hn), fun q l' (hq : f q = .inside l') => ?_,
    fun q c' todo l' (hq : f q = .waking c' todo l') => ?_⟩
  · have e := honly q (by rw [hq]; exact Option.some_ne_none _)
    rw [e, hp] at hq
    cases hq
    exact h
  · have e := honly q (by rw [hq]; exact Option.some_ne_none _)
    rw [e, hp] at hq
    cases hq

/-- Party `p` is in a `wakeup` afterwards. -/
theorem signalled_waking (hw : Wf ⟨d, f, some p, k⟩) {c : C} {todo : List P} {l : L}
    (hp : f p = .waking c todo l)
    (h : ∀ q c', (f q).waits = some c' → (c = c' ∧ q ∈ todo) ∨ B d c' ∨ Owe l c') :
    Signalled B Owe ⟨d, f, some p, k⟩ := by
  have hin : (f p).held ≠ none := by rw [hp]; exact Option.some_ne_none _
  have honly : ∀ q, (f q).held ≠ none → q = p := fun q hq => only_holder hw hin hq
  refine ⟨(fun hn => by cases hn), fun q l' (hq : f q = .inside l') => ?_,
    fun q c' todo' l' (hq : f q = .waking c' todo' l') => ?_⟩
  · have e := honly q (by rw [hq]; exact Option.some_ne_none _)
    rw [e, hp] at hq
    cases hq
  · have e := honly q (by rw [hq]; exact Option.some_ne_none _)
    rw [e, hp] at hq
    cases hq
    exact h

variable [FinEnum P]

/-- A party that sleeps somewhere, after `p` took a phase in which it does not. -/
theorem waits_upd {f : P → Phase P C L} {q : P} (hp : ph.waits = none) (h : (upd f p ph q).waits = some c) :
    (f q).waits = some c := by
  by_cases e : q = p
  · rw [e, upd_same, hp] at h; cases h
  · rwa [upd_ne _ _ e] at h

/-- A party changes its phase outside the lock and sleeps on nothing new. -/
theorem signalled_keep (h : Signalled B Owe s) {ph : Phase P C L} (hheld : ph.held = none)
    (hwaits : ∀ c, ph.waits = some c → (s.phase p).waits = some c) (k : P → Bool) :
    Signalled B Owe ⟨s.data, upd s.phase p ph, s.holder, k⟩ := by
  have hw : ∀ q c, (upd s.phase p ph q).waits = some c → (s.phase q).waits = some c := by
    intro q c hq
    by_cases e : q = p
    · rw [e, upd_same] at hq; rw [e]; exact hwaits c hq
    · rwa [upd_ne _ _ e] at hq
  have hother : ∀ q ph', upd s.phase p ph q = ph' → ph'.held ≠ none → s.phase q = ph' := by
    intro q ph' hq hne
    by_cases e : q = p
    · rw [e, upd_same] at hq; rw [← hq] at hne; exact absurd hheld hne
    · rwa [upd_ne _ _ e] at hq
  refine ⟨fun hn q c hq => h.free hn q c (hw q c hq), fun q l hq r c hr => ?_, fun q c' todo l hq r c hr => ?_⟩
  · exact h.inside q l (hother q _ hq (Option.some_ne_none _)) r c (hw r c hr)
  · exact h.waking q c' todo l (hother q _ hq (Option.some_ne_none _)) r c (hw r c hr)

variable [DecidableEq C]

theorem signalled_move (hs : Signals (m := m) (u := u) J B Owe) {s' : St P C D L} (hm : Move m u s s') (hw : Wf s)
    (hj : J s.data s.loc) (h : Signalled B Owe s) : Signalled B Owe s' := by
  have hw' := wf_move m u hm hw
  cases hm with
  | stay => exact h
  | call p a hn hoff hu | resume p l hn hr =>
    refine signalled_inside hw' (upd_same _ _ _) fun q c hq => .inl (h.free hn q c ?_)
    exact waits_upd rfl hq
  | exec p l i hin hu =>
    have hl : s.loc p = some l := by unfold St.loc; rw [hin]; rfl
    have hh : s.holder = some p := (hw p).mpr (by rw [hin]; exact Option.some_ne_none _)
    have hold := h.inside p l hin
    have hx := hs.exec s.data s.loc p (s.killed p) l i hj hl hu
    generalize (m.step p (s.killed p) s.data l i).1 = d at hx hw'
    generalize (m.step p (s.killed p) s.data l i).2 = a at hx hw'
    cases a with
    | go l' =>
      unfold St.act at hw' ⊢
      rw [hh] at hw' ⊢
      exact signalled_inside hw' (upd_same _ _ _) fun q c hq => hx c (hold q c (waits_upd rfl hq))
    | wake c l' =>
      unfold St.act at hw' ⊢
      rw [hh] at hw' ⊢
      refine signalled_waking hw' (upd_same _ _ _) fun q c' hq => ?_
      by_cases e : c' = c
      · exact .inl ⟨e.symm, FinEnum.mem_toList q⟩
      · exact .inr (hx c' e (hold q c' (waits_upd rfl hq)))
    | sleep c l' =>
      refine signalled_free hw' fun q c' hq => ?_
      by_cases e : q = p
      · rw [e, upd_same] at hq; cases hq; exact hx.1
      · rw [upd_ne _ _ e] at hq; exact hx.2 c' (hold q c' hq)
    | leave => exact signalled_free hw' fun q c' hq => hx c' (hold q c' (waits_upd rfl hq))
  | woken p c l hwk =>
    have hh : s.holder = some p := (hw p).mpr (by rw [hwk]; exact Option.some_ne_none _)
    rw [hh] at hw' ⊢
    refine signalled_inside hw' (upd_same _ _ _) fun q c' hq => ?_
    rcases h.waking p c [] l hwk q c' (waits_upd rfl hq) with ⟨_, hm⟩ | hr
    · cases hm
    · exact hr
  | visit p c q todo l hwk hq =>
    have hh : s.holder = some p := (hw p).mpr (by rw [hwk]; exact Option.some_ne_none _)
    rw [hh] at hw' ⊢
    refine signalled_waking hw' (upd_same _ _ _) fun r c' hr => ?_
    have hr' := waits_upd rfl hr
    by_cases e : r = q
    · -- still asleep after its visit: on another channel
      rw [e, upd_same] at hr'
      obtain ⟨h1, h2⟩ := waits_wake hr' hq
      rcases h.waking p c (q :: todo) l hwk q c' h1 with ⟨hc, _⟩ | hrest
      · exact absurd hc.symm h2
      · exact .inr hrest
    · rw [upd_ne _ _ e] at hr'
      rcases h.waking p c (q :: todo) l hwk r c' hr' with ⟨hc, hmem⟩ | hrest
      · exact .inl ⟨hc, (List.mem_cons.mp hmem).resolve_left e⟩
      · exact .inr hrest
  | doze p c l hf => exact signalled_keep h rfl (fun c' hc => by rw [hf]; exact hc) _
  | kill p hf hu =>
    cases hph : s.phase p with
    | asleep c l =>
      exact signalled_keep h rfl (fun c' hc => by cases hc) _
    | _ =>
      have he : upd s.phase p (s.phase p) = s.phase := upd_self _ _
      rw [hph] at he
      simp only [Phase.rouse, he]
      exact ⟨h.free, h.inside, h.waking⟩
  | env x =>
    refine ⟨fun hn q c hq => hs.env _ x c (h.free hn q c hq), fun p l hp q c hq => ?_, fun p c' todo l hp q c hq => ?_⟩
    · exact (h.inside p l hp q c hq).imp_left (hs.env _ x c)
    · exact (h.waking p c' todo l hp q c hq).imp_right (Or.imp_left (hs.env _ x c))

/-- While the lock is free, nobody sleeps without reason. -/
theorem signals_inv {Parked : L → Prop} (hk : Keeps m u Parked J) (hs : Signals (m := m) (u := u) J B Owe)
    (es : List (Ev P A I X))
    (hc : Along (St.step m) u.Meets (St.init d) es) (h0 : J d fun _ => none) :
    Signalled B Owe (run (St.step m) (St.init d) es) := by
  have hinit : Signalled B Owe (St.init d : St P C D L) :=
    ⟨fun _ q c hq => (by cases hq), fun p l hp => (by cases hp), fun p c' todo l hp => (by cases hp)⟩
  refine (run_move m u (J := fun s => (Wf s ∧ AllParked Parked s ∧ J s.data s.loc) ∧ Signalled B Owe s) ?_ es hc ?_).2
  · intro s s' hm ⟨⟨hw, hp, hj⟩, h⟩
    exact ⟨⟨wf_move m u hm hw, parked_move hk hm hw hj hp, data_move hk hm hw hp hj⟩, signalled_move hs hm hw hj h⟩
  · exact ⟨⟨wf_init d, fun p l _ hl => (by cases hl), h0⟩, hinit⟩

end

/-! ## Kills -/

/-- A party goes to sleep only where it is armed: it has seen that it is not killed (`k`), and is
    bound to sleep. -/
def Tests (Armed : D → L → Prop) (k : Bool) (d : D) (l : L) (d' : D) : Act C L → Prop
  | .go l' => Armed d' l' → k = false ∨ Armed d l
  | .wake _ l' => Armed d' l' → k = false ∨ Armed d l
  | .sleep _ l' => (k = false ∨ Armed d l) ∧ ∀ d, ¬ Armed d l'
  | .leave => True

structure Alert (Armed : D → L → Prop) : Prop where
  start : ∀ d p a, ¬ Armed d (m.start p a)
  exec : ∀ p k d l i, u.exec p k d l i → Tests Armed k d l (m.step p k d l i).1 (m.step p k d l i).2
  env : ∀ d x l, Armed (m.env d x) l → Armed d l
  kill : ∀ d l, u.kill d l → ¬ Armed d l

structure Awake (Armed : D → L → Prop) (s : St P C D L) : Prop where
  waits : ∀ p c, (s.phase p).waits = some c → s.killed p = false
  held : ∀ p l, (s.phase p).held = some l → Armed s.data l → s.killed p = false
  parked : ∀ p l, (s.phase p).held = none → (s.phase p).loc = some l → ∀ d, ¬ Armed d l

section
variable {Armed : D → L → Prop} {s : St P C D L}

variable [FinEnum P]

theorem awake_upd (h : Awake Armed s) {p : P} {ph : Phase P C L} (hwaits : ∀ c, ph.waits = some c → s.killed p = false)
    (hheld : ∀ l, ph.held = some l → Armed s.data l → s.killed p = false)
    (hparked : ∀ l, ph.held = none → ph.loc = some l → ∀ d, ¬ Armed d l) (o : Option P) :
    Awake Armed ⟨s.data, upd s.phase p ph, o, s.killed⟩ := by
  refine ⟨fun q c hq => ?_, fun q l hq ha => ?_, fun q l h1 h2 => ?_⟩
  · by_cases e : q = p
    · simp only [e, upd_same] at hq ⊢; exact hwaits c hq
    · simp only [upd_ne _ _ e] at hq; exact h.waits q c hq
  · by_cases e : q = p
    · simp only [e, upd_same] at hq ⊢; exact hheld l hq ha
    · simp only [upd_ne _ _ e] at hq; exact h.held q l hq ha
  · by_cases e : q = p
    · simp only [e, upd_same] at h1 h2; exact hparked l h1 h2
    · simp only [upd_ne _ _ e] at h1 h2; exact h.parked q l h1 h2

/-- The holder of the lock changes the data; nobody else is inside. -/
theorem awake_data (h : Awake Armed s) (hw : Wf s) {p : P} (hp : s.holder = some p) {ph : Phase P C L} {d : D}
    (hwaits : ∀ c, ph.waits = some c → s.killed p = false)
    (hheld : ∀ l, ph.held = some l → Armed d l → s.killed p = false)
    (hparked : ∀ l, ph.held = none → ph.loc = some l → ∀ d, ¬ Armed d l) (o : Option P) :
    Awake Armed ⟨d, upd s.phase p ph, o, s.killed⟩ := by
  refine ⟨fun q c hq => ?_, fun q l hq ha => ?_, fun q l h1 h2 => ?_⟩
  · by_cases e : q = p
    · simp only [e, upd_same] at hq ⊢; exact hwaits c hq
    · simp only [upd_ne _ _ e] at hq; exact h.waits q c hq
  · by_cases e : q = p
    · simp only [e, upd_same] at hq ⊢; exact hheld l hq ha
    · simp only [upd_ne _ _ e] at hq
      have hq' := (hw q).mpr (by rw [hq]; exact Option.some_ne_none _)
      rw [hp] at hq'
      exact absurd (Option.some.inj hq').symm e
  · by_cases e : q = p
    · simp only [e, upd_same] at h1 h2; exact hparked l h1 h2
    · simp only [upd_ne _ _ e] at h1 h2; exact h.parked q l h1 h2

variable [DecidableEq C]

theorem awake_move (ha : Alert (m := m) (u := u) Armed) {s' : St P C D L} (hm : Move m u s s') (hw : Wf s)
    (h : Awake Armed s) : Awake Armed s' := by
  cases hm with
  | stay => exact h
  | call p a hn hoff hu =>
    refine awake_upd h (fun c hc => by cases hc) (fun l hl hr => ?_) (fun l hl => by cases hl) _
    cases hl
    exact absurd hr (ha.start _ _ _)
  | resume p l hn hr =>
    refine awake_upd h (fun c hc => by cases hc) (fun l' hl harm => ?_) (fun l hl => by cases hl) _
    cases hl
    exact absurd harm (h.parked p l (by rw [hr]; rfl) (by rw [hr]; rfl) _)
  | exec p l i hin hu =>
    have hh : s.holder = some p := (hw p).mpr (by rw [hin]; exact Option.some_ne_none _)
    have hnow : s.killed p = false ∨ Armed s.data l → s.killed p = false := by
      intro hor
      rcases hor with hk | hr
      · exact hk
      · exact h.held p l (by rw [hin]; rfl) hr
    have hx := ha.exec p (s.killed p) s.data l i hu
    generalize (m.step p (s.killed p) s.data l i).1 = d at hx
    generalize (m.step p (s.killed p) s.data l i).2 = a at hx
    cases a with
    | go l' | wake c l' =>
      refine awake_data h hw hh (fun c hc => by cases hc) (fun l'' hl hr => ?_) (fun l hl => by cases hl) _
      cases hl
      exact hnow (hx hr)
    | sleep c l' =>
      refine awake_data h hw hh (fun _ _ => hnow hx.1) (fun l hl => by cases hl) (fun l'' _ hl => ?_) _
      cases hl
      exact hx.2
    | leave =>
      exact awake_data h hw hh (fun c hc => by cases hc) (fun l hl => by cases hl) (fun l _ hl => by cases hl) _
  | woken p c l hwk =>
    refine awake_upd h (fun c hc => by cases hc) (fun l' hl hr => ?_) (fun l hl => by cases hl) _
    cases hl
    exact h.held p l (by rw [hwk]; rfl) hr
  | visit p c q todo l hwk hq =>
    have h1 : Awake Armed ⟨s.data, upd s.phase q ((s.phase q).wake c), s.holder, s.killed⟩ :=
      awake_upd h (fun c' hc => h.waits q c' (waits_wake hc hq).1) (fun l' hl => h.held q l' (by rwa [held_wake] at hl))
        (fun l' h1 h2 => h.parked q l' (by rwa [held_wake] at h1) (by rwa [loc_wake] at h2)) _
    refine awake_upd h1 (fun c hc => by cases hc) (fun l' hl hr => ?_) (fun l hl => by cases hl) _
    cases hl
    exact h.held p l (by rw [hwk]; rfl) hr
  | doze p c l hf =>
    refine awake_upd h (fun c' hc => h.waits p c' (by rw [hf]; exact hc)) (fun l' hl => by cases hl)
      (fun l' _ hl => ?_) _
    exact h.parked p l' (by rw [hf]; rfl) (by rw [hf]; exact hl)
  | kill p hf hu =>
    have hp : Awake Armed ⟨s.data, upd s.phase p (s.phase p).rouse, s.holder, s.killed⟩ :=
      awake_upd h (fun c hc => h.waits p c (waits_rouse hc)) (fun l hl => h.held p l (by rwa [held_rouse] at hl))
        (fun l h1 h2 => h.parked p l (by rwa [held_rouse] at h1) (by rwa [loc_rouse] at h2)) _
    refine ⟨fun q c hq => ?_, fun q l hq hr => ?_, hp.parked⟩
    · by_cases e : q = p
      · -- a party that a kill found asleep is ready now
        rw [e] at hq
        simp only [upd_same] at hq
        cases hph : s.phase p with
        | falling c l => rw [hph] at hf; cases hf
        | _ => rw [hph] at hq; cases hq
      · have := hp.waits q c hq
        simpa [upd_ne _ _ e] using this
    · by_cases e : q = p
      · rw [e] at hq
        simp only [upd_same, held_rouse] at hq
        exact absurd hr (ha.kill _ _ (hu l hq))
      · have := hp.held q l hq hr
        simpa [upd_ne _ _ e] using this
  | env x => exact ⟨h.waits, fun p l hp hr => h.held p l hp (ha.env _ x l hr), h.parked⟩

theorem alert_inv (ha : Alert (m := m) (u := u) Armed) (es : List (Ev P A I X)) {d : D}
    (hc : Along (St.step m) u.Meets (St.init d) es) : Awake Armed (run (St.step m) (St.init d) es) := by
  have hinit : Awake Armed (St.init d : St P C D L) :=
    ⟨fun p c hp => (by cases hp), fun p l hp => (by cases hp), fun p l _ hp => (by cases hp)⟩
  refine (run_move m u (J := fun s => Wf s ∧ Awake Armed s) ?_ es hc ⟨wf_init d, hinit⟩).2
  intro s s' hm ⟨hw, h⟩
  exact ⟨wf_move m u hm hw, awake_move ha hm hw h⟩

end

end Xv6.Lib.Monitor
