/-
  Xv6.Fs.Walk — path resolution (`kernel/fs.c`: `skipelem`, `namex`, `namei`, `nameiparent`) by
  a process that works alone. The elements of a path are what stands between its slashes, cut
  to `DIRSIZ` bytes (`elems_eq`). `path_resolution` says that `namei` and `nameiparent` look
  them up one after the other, and that of all the references taken on the way only one to
  the result is left.
-/

import Xv6.Fs.Dirmap

namespace Xv6.Fs

open Lib Vol

/-! ## Elements -/

def components (path : Name) : List Name := (path.splitOn slash).filter (· ≠ [])

theorem components_nil : components [] = [] := rfl

theorem components_slash (p : Name) : components (slash :: p) = components p := by
  unfold components List.splitOn
  rw [List.splitOnP_cons_eq_if_modifyHead]
  simp

theorem components_dropWhile (p : Name) : components (p.dropWhile (· = slash)) = components p := by
  induction p with
  | nil => rfl
  | cons c p ih =>
    by_cases hc : c = slash
    · rw [List.dropWhile_cons, if_pos (decide_eq_true hc), ih, hc, components_slash]
    · rw [List.dropWhile_cons, if_neg (by simpa using hc)]

theorem components_word {w : Name} (hw : w ≠ []) (hno : ∀ c ∈ w, c ≠ slash) (p : Name)
    (hp : p = [] ∨ p.head? = some slash) :
    components (w ++ p) = w :: components p := by
  have hsep : ∀ c ∈ w, (c == slash) = false := fun c hc => by simpa using hno c hc
  cases p with
  | nil =>
    unfold components List.splitOn
    rw [List.append_nil, List.splitOnP_eq_singleton hsep]
    simp [hw]
  | cons c p =>
    obtain rfl : c = slash := by simpa using hp
    rw [components_slash]
    unfold components List.splitOn
    rw [List.splitOnP_append_cons_of_forall_mem hsep slash (by simp)]
    simp [hw]

/-- What stands between the slashes in front of a path and the next one is its first component. -/
theorem components_first {path : Name} {c : UInt8} {cs : Name} (hd : path.dropWhile (· = slash) = c :: cs) :
    (c :: cs).takeWhile (· ≠ slash) ≠ [] ∧
    components path = (c :: cs).takeWhile (· ≠ slash) :: components
      (((c :: cs).dropWhile (· ≠ slash)).dropWhile (· = slash)) := by
  have hc : c ≠ slash := by
    have := List.head?_dropWhile_not (fun x => decide (x = slash)) path
    rw [hd] at this
    simpa using this
  have hsplit := List.takeWhile_append_dropWhile (p := fun x => decide (x ≠ slash)) (l := c :: cs)
  have hw : (c :: cs).takeWhile (· ≠ slash) ≠ [] := by
    rw [List.takeWhile_cons, if_pos (decide_eq_true hc)]
    exact List.cons_ne_nil _ _
  refine ⟨hw, ?_⟩
  rw [components_dropWhile, ← components_dropWhile path, hd]
  refine (congrArg components hsplit.symm).trans (components_word hw (fun x hx => ?_) _ ?_)
  · simpa using List.all_eq_true.mp List.all_takeWhile x hx
  · cases hr : (c :: cs).dropWhile (· ≠ slash) with
    | nil => exact .inl rfl
    | cons x xs =>
      have := List.head?_dropWhile_not (fun x => decide (x ≠ slash)) (c :: cs)
      rw [hr] at this
      exact .inr (by simpa using this)

/-- An element that `skipelem` finds is the first component. -/
theorem components_skipelem {path name rest : Name} (h : skipelem path = some (name, rest)) :
    rest.length < path.length ∧ ∃ w, name = w.take DIRSIZ ∧ components path = w :: components rest := by
  unfold skipelem at h
  split at h
  · cases h
  next c cs hd =>
  obtain ⟨rfl, rfl⟩ := Prod.mk.inj (Option.some.inj h)
  obtain ⟨hw, hfirst⟩ := components_first hd
  refine ⟨?_, (c :: cs).takeWhile (· ≠ slash), rfl, hfirst⟩
  have h0 : (c :: cs).length ≤ path.length := by
    rw [← hd]
    exact (List.dropWhile_sublist _).length_le
  have h1 := (List.dropWhile_sublist (fun x => decide (x = slash)) (l := (c :: cs).dropWhile (· ≠ slash))).length_le
  have h2 := congrArg List.length (List.takeWhile_append_dropWhile (p := fun x => decide (x ≠ slash)) (l := c :: cs))
  rw [List.length_append] at h2
  have h3 := List.length_pos_iff.mpr hw
  omega

theorem components_none {path : Name} (h : skipelem path = none) : components path = [] := by
  unfold skipelem at h
  split at h
  · next hd => rw [← components_dropWhile, hd, components_nil]
  · cases h

theorem elemsFrom_eq (fuel : Nat) :
    ∀ path : Name, path.length ≤ fuel → elemsFrom fuel path = (components path).map (·.take DIRSIZ) := by
  induction fuel with
  | zero =>
    intro path h
    rw [List.length_eq_zero_iff.mp (Nat.le_zero.mp h)]
    rfl
  | succ fuel ih =>
    intro path h
    unfold elemsFrom
    split
    · next hs => rw [components_none hs, List.map_nil]
    · next name rest hs =>
      obtain ⟨hlt, w, rfl, hc⟩ := components_skipelem hs
      rw [hc, List.map_cons, ih rest (by omega)]

/-- The elements of a path are what stands between its slashes, cut short. -/
theorem elems_eq (path : Name) : elems path = (components path).map (·.take DIRSIZ) := elemsFrom_eq _ _ (Nat.le_refl _)

/-! ## References -/

/-- A file system in which nobody else is at work: no inode is locked, every directory is whole
    and names allocated inodes, and what has lost its links somebody has open. -/
structure Lone (sb : Superblock) (s : St) (V : Vol) : Prop where
  rep : Rep sb s V none
  sound : Sound sb V
  unlocked : ∀ e, (s.inode e).lock = false
  counts : ∀ e, 0 ≤ (s.inode e).ref
  live : ∀ e, 0 < (s.inode e).ref → Live sb V (s.inode e).inum
  root : Live sb V ROOTINO
  dirs : ∀ d, (node sb V d).type = T_DIR → HoleFree V d ∧ DESIZE ∣ (node sb V d).size
  entries : ∀ d k, (node sb V d).type = T_DIR → (node sb V d).ent k ≠ 0 → Live sb V ((node sb V d).ent k)
  orphans : ∀ j, Live sb V j → (V.ino j).nlink = 0 → ∃ e, 0 < (s.inode e).ref ∧ (s.inode e).inum = j

structure Held (sb : Superblock) (s : St) (V : Vol) (u : St) (T : List Idx) (L : Option Idx) : Prop where
  rep : Rep sb u V none
  same : { u with inode := s.inode } = s
  refs : ∀ e, (u.inode e).ref = (s.inode e).ref + (T.count e : Int)
  inum : ∀ e, 0 < (s.inode e).ref → (u.inode e).inum = (s.inode e).inum
  locks : ∀ e, (u.inode e).lock = true ↔ L = some e

section

variable {sb : Superblock} {s u : St} {V : Vol} {e : Idx} {i j : Nat} {T T' : List Idx}
  {L L' : Option Idx} {E : Panic → Prop}

theorem held_refl (hs : Lone sb s V) : Held sb s V s [] none where
  rep := hs.rep
  same := rfl
  refs := fun e => (Int.add_zero _).symm
  inum := fun _ _ => rfl
  locks := fun e => by
    rw [hs.unlocked]
    exact iff_of_false Bool.false_ne_true (Option.some_ne_none e).symm

theorem held_entry {x : Inode} (h : Held sb s V u T L) (hrep : Rep sb (setEntry u e x) V none)
    (href : x.ref = (s.inode e).ref + (T'.count e : Int)) (hT : ∀ e', e' ≠ e → T'.count e' = T.count e')
    (hinum : 0 < (s.inode e).ref → x.inum = (s.inode e).inum) (hlock : x.lock = true ↔ L' = some e)
    (hL : ∀ e', e' ≠ e → (L' = some e' ↔ L = some e')) : Held sb s V (setEntry u e x) T' L' where
  rep := hrep
  same := h.same
  refs := fun e' => by
    by_cases he : e' = e
    · rw [he, setEntry_same]
      exact href
    · rw [setEntry_ne _ _ he, hT e' he]
      exact h.refs e'
  inum := fun e' h0 => by
    by_cases he : e' = e
    · subst he
      rw [setEntry_same]
      exact hinum h0
    · rw [setEntry_ne _ _ he]
      exact h.inum e' h0
  locks := fun e' => by
    by_cases he : e' = e
    · rw [he, setEntry_same]
      exact hlock
    · rw [setEntry_ne _ _ he, hL e' he]
      exact h.locks e'

theorem setEntry_inum {x : Inode} (h : x.inum = (u.inode e).inum) (e' : Idx) :
    ((setEntry u e x).inode e').inum = (u.inode e').inum := by
  by_cases he : e' = e
  · rw [he, setEntry_same]
    exact h
  · rw [setEntry_ne _ _ he]

theorem count_cons_ne {e' : Idx} (h : e' ≠ e) : (e :: T).count e' = T.count e' := List.count_cons_of_ne h.symm

/-- Another reference to an entry that somebody has. -/
theorem held_idup (h : Held sb s V u T L) (hr : 0 < (u.inode e).ref) {Q : Idx → St → Prop}
    (hq : ∀ t, Held sb s V t (e :: T) L → (t.inode e).inum = (u.inode e).inum → Q e t) : wp (idup e) Q E u := by
  unfold idup
  refine hq (setEntry u e { u.inode e with ref := (u.inode e).ref + 1 }) ?_ (by rw [setEntry_same])
  refine held_entry h (rep_more h.rep hr) ?_ (fun _ => count_cons_ne) (h.inum e) (h.locks e) fun _ _ => .rfl
  have := h.refs e
  rw [List.count_cons_self]
  push_cast
  omega

theorem held_iget (h : Held sb s V u T L) (hj : Live sb V j)
    (hfull : (∀ e, (u.inode e).ref ≠ 0) → E .igetNoInodes) {Q : Idx → St → Prop}
    (hq : ∀ e t, Held sb s V t (e :: T) L → (t.inode e).inum = j → Q e t) : wp (iget ROOTDEV j) Q E u := by
  refine iget_got hfull fun e x hg => ?_
  obtain ⟨href, hinum, _, hlock⟩ := got_ref hg
  refine hq e _ (held_entry h ?_ ?_ (fun _ => count_cons_ne) ?_ ?_ fun _ _ => .rfl) (by rw [setEntry_same]; exact hinum)
  · cases hg with
    | found h1 h2 h3 => exact rep_more h.rep h1
    | fresh h1 h2 =>
      refine rep_setEntry h.rep ⟨hj.1, rfl⟩ (fun e' _ hr => h2 e' hr (h.rep.range e' hr).2) fun hv => ?_
      cases hv
  · have := h.refs e
    rw [List.count_cons_self]
    push_cast
    omega
  · intro h0
    have hpos : (u.inode e).ref ≠ 0 := by
      have := h.refs e
      omega
    rw [← h.inum e h0]
    cases hg with
    | found h1 h2 h3 => rfl
    | fresh h1 h2 => exact absurd h1 hpos
  · rw [hlock]
    exact h.locks e

theorem held_pos (hs : Lone sb s V) (h : Held sb s V u T L) (he : e ∈ T) : 0 < (u.inode e).ref := by
  have h1 := h.refs e
  have h2 := hs.counts e
  have h3 := List.count_pos_iff.mpr he
  omega

variable {Q : Unit → St → Prop}

theorem held_ilock (hs : Lone sb s V) (h : Held sb s V u T none) (he : e ∈ T) (hi : (u.inode e).inum = i)
    (hlive : Live sb V i) (hq : ∀ t, Held sb s V t T (some e) → Loaded t e i → Q () t) :
    wp (ilock sb e) Q E u := by
  have hfree : (u.inode e).lock = false := Bool.eq_false_iff.mpr fun hl => by cases (h.locks e).mp hl
  refine ilock_live h.rep (held_pos hs h he) hfree hi hlive fun x hx hlk hxi hrep hp => ?_
  refine hq _ (held_entry h hrep (hx.trans (h.refs e)) (fun _ _ => rfl) (fun h0 => ?_) (iff_of_true hlk rfl)
    fun e' he' => ?_) hp
  · rw [hxi, ← hi]
    exact h.inum e h0
  · exact iff_of_false (fun heq => he' (Option.some.inj heq).symm) (Option.some_ne_none e').symm

theorem held_iunlock (hs : Lone sb s V) (h : Held sb s V u T (some e)) (he : e ∈ T)
    (hq : ∀ t, Held sb s V t T none → (∀ e', (t.inode e').inum = (u.inode e').inum) → Q () t) :
    wp (iunlock e) Q E u := by
  have hpos := held_pos hs h he
  refine iunlock_held hpos ((h.locks e).mpr rfl) (hq _ ?_ (setEntry_inum rfl))
  refine held_entry h (rep_keep h.rep hpos _ _) (h.refs e) (fun _ _ => rfl) (h.inum e) ?_ fun e' he' => ?_
  · exact iff_of_false Bool.false_ne_true (Option.some_ne_none e).symm
  · exact iff_of_false (Option.some_ne_none e').symm fun heq => he' (Option.some.inj heq).symm

/-- A reference is given back: the inode has links, or somebody else has it. -/
theorem held_iput (hs : Lone sb s V) (h : Held sb s V u (e :: T) none)
    (hq : ∀ t, Held sb s V t T none → (∀ e', (t.inode e').inum = (u.inode e').inum) → Q () t) :
    wp (iput sb e) Q E u := by
  have hpos := held_pos hs h List.mem_cons_self
  have href := h.refs e
  rw [List.count_cons_self] at href
  push_cast at href
  have hkeep : ¬ ((u.inode e).ref = 1 ∧ (u.inode e).valid = true ∧ (u.inode e).nlink = 0) := by
    rintro ⟨h1, hv, hn⟩
    have hp : Loaded u e (u.inode e).inum := ⟨hpos, hv, rfl⟩
    have hnlink : (V.ino (u.inode e).inum).nlink = 0 := by
      rw [← loaded_ino h.rep hp]
      exact hn
    obtain ⟨e', h2, h3⟩ := hs.orphans _ (loaded_live h.rep hp) hnlink
    have hc := h.refs e'
    have he : e' = e := h.rep.uniq e' e (by omega) hpos ((h.inum e' h2).trans h3)
    rw [he] at h2
    omega
  unfold iput
  rw [wp_bind, wp_getInode, if_neg hkeep]
  refine hq (setEntry u e { u.inode e with ref := (u.inode e).ref - 1 }) ?_ (setEntry_inum rfl)
  exact held_entry h (rep_keep h.rep hpos _ _) (by simp only; omega) (fun e' he' => (count_cons_ne he').symm) (h.inum e)
    (h.locks e) fun _ _ => .rfl

theorem held_iunlockput (hs : Lone sb s V) (h : Held sb s V u (e :: T) (some e))
    (hq : ∀ t, Held sb s V t T none → (∀ e', (t.inode e').inum = (u.inode e').inum) → Q () t) :
    wp (iunlockput sb e) Q E u := by
  refine wp_then (held_iunlock hs h List.mem_cons_self fun t ht h1 => ?_)
  exact held_iput hs ht fun v hv h2 => hq v hv fun e' => (h2 e').trans (h1 e')

/-! ## The loop -/

/-- A walk ended with `r`: the entry of the inode it was to get to, and of all references only
    the one to it is left. -/
structure Arrived (sb : Superblock) (s : St) (V : Vol) (r : Option (Idx × Name)) (t : St)
    (goal : Option (Nat × Name)) : Prop where
  held : Held sb s V t (r.map Prod.fst).toList none
  inum : (r.map fun p => ((t.inode p.1).inum, p.2)) = goal

theorem arrived_none (h : Held sb s V u [] none) : Arrived sb s V none u none := ⟨h, rfl⟩

/-- With at most one free entry in the table `iget` may find none. -/
def Crowded (s : St) : Prop := ∃ e₀, ∀ e, e ≠ e₀ → (s.inode e).ref ≠ 0

theorem crowded_held (h : Held sb s V u [e] L) (hfull : ∀ e, (u.inode e).ref ≠ 0) : Crowded s := by
  refine ⟨e, fun e' he' h0 => hfull e' ?_⟩
  rw [h.refs e', h0, count_cons_ne he']
  rfl

theorem namexFrom_walk (hs : Lone sb s V) (hE : Crowded s → E .igetNoInodes) (parent : Bool) (names : List Name) :
    ∀ {ip : Idx} {i : Nat} {u : St}, Held sb s V u [ip] none → (u.inode ip).inum = i → Live sb V i →
      wp (namexFrom sb parent ip names) (fun r t => Arrived sb s V r t (target (node sb V) parent i names)) E u := by
  induction names with
  | nil =>
    intro ip i u h hi hlive
    rw [target_nil]
    refine wp_if (fun hp => ?_) fun hp => ?_
    · rw [if_pos hp, wp_bind]
      exact held_iput hs h fun t ht _ => arrived_none ht
    · rw [if_neg hp]
      exact ⟨h, by rw [Option.map_some, hi]⟩
  | cons name rest ih =>
    intro ip i u h hi hlive
    refine wp_then (held_ilock hs h List.mem_cons_self hi hlive fun v hv hp => ?_)
    rw [wp_bind, wp_getInode, loaded_type hv.rep hp]
    by_cases hd : (node sb V i).type = T_DIR
    · rw [if_neg (fun hne => hne hd)]
      by_cases hlast : parent = true ∧ rest = []
      · rw [target_last hd hlast, if_pos hlast, wp_bind]
        refine held_iunlock hs hv List.mem_cons_self fun t ht hti => ⟨ht, ?_⟩
        rw [Option.map_some, hti, hp.inum]
      rw [target_cons hd hlast, if_neg hlast, wp_bind]
      obtain ⟨hholes, hwhole⟩ := hs.dirs i hd
      refine dirlookup_read ⟨hv.rep, hs.sound, hp, hholes⟩ hd (fun hno => absurd hwhole hno) (fun hno => ?_)
        fun k h0 _ hfound => ?_
      · rw [hno]
        exact wp_then (held_iunlockput hs hv fun t ht _ => arrived_none ht)
      · rw [hfound]
        have hnext := hs.entries i k hd h0
        refine held_iget hv hnext (fun hfull => hE (crowded_held hv hfull)) fun next t ht hti => ?_
        rw [wp_bind]
        have hswap : Held sb s V t (ip :: [next]) (some ip) :=
          { ht with refs := fun e' => by rw [ht.refs e', (List.Perm.swap ip next []).count_eq] }
        exact held_iunlockput hs hswap fun w hw hwi => ih hw ((hwi next).trans hti) hnext
    · rw [target_file hd, if_pos hd, wp_bind]
      exact held_iunlockput hs hv fun t ht _ => arrived_none ht

theorem namex_walk (hs : Lone sb s V) (hE : Crowded s → E .igetNoInodes) {cwd : Idx}
    (hcwd : 0 < (s.inode cwd).ref) (path : Name) (parent : Bool) : wp (namex sb cwd path parent)
      (fun r t => Arrived sb s V r t (target (node sb V) parent (origin s cwd path) (elems path))) E s := by
  unfold namex origin
  refine wp_if (fun habs => ?_) fun hrel => ?_
  · rw [if_pos habs, wp_bind]
    refine held_iget (held_refl hs) hs.root (fun hfull => hE ⟨cwd, fun e _ => hfull e⟩) fun e t ht hti => ?_
    exact namexFrom_walk hs hE parent _ ht hti hs.root
  · rw [if_neg hrel, wp_bind]
    exact held_idup (held_refl hs) hcwd fun t ht hti => namexFrom_walk hs hE parent _ ht hti (hs.live cwd hcwd)

theorem count_toList (r : Option Idx) (e : Idx) : (r.toList.count e : Int) = if r = some e then 1 else 0 := by
  cases r with
  | none => rfl
  | some e' =>
    by_cases he : e' = e
    · rw [he]
      simp
    · simp [he]

end

/-- All that is left of a walk: a reference to the entry `r`, if there is one. -/
structure Leaves (sb : Superblock) (s : St) (V : Vol) (r : Option Idx) (t : St) : Prop where
  refs : ∀ e, (t.inode e).ref = (s.inode e).ref + if r = some e then 1 else 0
  inum : ∀ e, 0 < (s.inode e).ref → (t.inode e).inum = (s.inode e).inum
  unlocked : ∀ e, (t.inode e).lock = false
  same : { t with inode := s.inode } = s
  rep : Rep sb t V none

theorem leaves_held {sb : Superblock} {s t : St} {V : Vol} {r : Option Idx} (h : Held sb s V t r.toList none) :
    Leaves sb s V r t where
  refs := fun e => by rw [h.refs e, count_toList]
  inum := h.inum
  unlocked := fun e => Bool.eq_false_iff.mpr fun hl => by cases (h.locks e).mp hl
  same := h.same
  rep := h.rep

/-- `namei` and `nameiparent` of a process that works alone walk along the components of the
    path, and take one reference. -/
theorem path_resolution (sb : Superblock) (s : St) (V : Vol) (hs : Lone sb s V) (cwd : Idx)
    (hcwd : 0 < (s.inode cwd).ref) (path : Name) :
    elems path = ((path.splitOn slash).filter (· ≠ [])).map (·.take DIRSIZ) ∧
    ((∃ r t, namei sb cwd path s = .ok (r, t) ∧ Leaves sb s V r t ∧
        (r.map fun ip => (t.inode ip).inum) = walk (node sb V) (origin s cwd path) (elems path)) ∨
      Crowded s ∧ namei sb cwd path s = .error .igetNoInodes) ∧
    ((∃ r t, nameiparent sb cwd path s = .ok (r, t) ∧ Leaves sb s V (r.map Prod.fst) t ∧
        (r.map fun p => ((t.inode p.1).inum, p.2)) = walkParent (node sb V) (origin s cwd path) (elems path)) ∨
      Crowded s ∧ nameiparent sb cwd path s = .error .igetNoInodes) ∧
    (elems path ≠ [] → walk (node sb V) (origin s cwd path) (elems path) =
      (walkParent (node sb V) (origin s cwd path) (elems path)).bind fun p =>
      ((node sb V p.1).lookup p.2).map Prod.fst) := by
  have hwalk (parent : Bool) : wp (namex sb cwd path parent)
      (fun r t => Arrived sb s V r t (target (node sb V) parent (origin s cwd path) (elems path)))
      (fun x => Crowded s ∧ x = .igetNoInodes) s := namex_walk hs (fun hc => ⟨hc, rfl⟩) hcwd path parent
  refine ⟨elems_eq path, ?_, ?_, walk_parent _ _⟩
  · have hnamei : wp (namei sb cwd path) (fun r t => Leaves sb s V r t ∧
        (r.map fun ip => (t.inode ip).inum) = walk (node sb V) (origin s cwd path) (elems path))
        (fun x => Crowded s ∧ x = .igetNoInodes) s := by
      refine wp_then (wp_mono (hwalk false) fun r t ht => ?_)
      have hinum := ht.inum
      unfold target at hinum
      cases r with
      | none => exact ⟨leaves_held ht.held, (Option.map_eq_none_iff.mp hinum.symm).symm⟩
      | some p =>
        obtain ⟨j, hj, he⟩ := Option.map_eq_some_iff.mp hinum.symm
        refine ⟨leaves_held ht.held, ?_⟩
        rw [hj]
        exact congrArg some (Prod.mk.inj he).1.symm
    rcases wp_cases hnamei with ⟨r, t, hm, h1, h2⟩ | ⟨_, hm, hc, rfl⟩
    · exact .inl ⟨r, t, hm, h1, h2⟩
    · exact .inr ⟨hc, hm⟩
  · rcases wp_cases (hwalk true) with ⟨r, t, hm, ht⟩ | ⟨_, hm, hc, rfl⟩
    · exact .inl ⟨r, t, hm, leaves_held ht.held, ht.inum⟩
    · exact .inr ⟨hc, hm⟩

/-! ## A root with one file -/

namespace Tiny

theorem entries_live : ∀ k, (node sb (vol entries 6 Bytes.zero) 1).ent k ≠ 0 →
    Live sb (vol entries 6 Bytes.zero) ((node sb (vol entries 6 Bytes.zero) 1).ent k) := by
  have hsize : (node sb (vol entries 6 Bytes.zero) 1).size / DESIZE = 3 := by
    rfl
  have hent : ∀ k < 3, (node sb (vol entries 6 Bytes.zero) 1).ent k = 1 ∨
      (node sb (vol entries 6 Bytes.zero) 1).ent k = 2 := by
    decide +kernel
  intro k hk
  rcases hent k (hsize ▸ ent_lt hk) with he | he
  · rw [he]
    exact live_root
  · rw [he]
    exact ⟨by decide, by rw [ino_file (by decide)]; decide⟩

theorem lone : Lone sb (mount (disk entries 6 Bytes.zero)) (vol entries 6 Bytes.zero) where
  rep := rep_mount (by decide) _
  sound := (exact_iff.mp (exact (by decide))).1
  unlocked := fun e => (mount_unread _ e).2
  counts := fun e => by
    by_cases he : e = .zero
    · rw [he]
      decide
    · rw [mount_rest _ he]
      decide
  live := fun e he => by
    rw [mount_used he]
    exact live_root
  root := live_root
  dirs := fun d hd => by
    have hlive : Live sb (vol entries 6 Bytes.zero) d := node_type_ne.mp (by rw [hd]; decide)
    refine ⟨holeFree (by decide) (by decide) (by decide) hlive, ?_⟩
    rcases live_cases hlive with rfl | rfl
    · exact rootOpen_dir.whole
    · rw [node_live hlive] at hd
      cases hd
  entries := fun d k hd => by
    have hlive : Live sb (vol entries 6 Bytes.zero) d := node_type_ne.mp (by rw [hd]; decide)
    rcases live_cases hlive with rfl | rfl
    · exact entries_live k
    · rw [node_live hlive] at hd
      cases hd
  orphans := fun j hj hn => by
    rcases live_cases hj with rfl | rfl
    · rw [ino_root (by decide)] at hn
      cases hn
    · rw [ino_file (by decide)] at hn
      cases hn

end Tiny

/-- `"/g"` leads to the file. -/
theorem path_resolution_tiny :
    ∃ ip t, namei Tiny.sb .zero [47, 103] (mount (Tiny.disk Tiny.entries 6 Bytes.zero)) = .ok
      (some ip, t) ∧ (t.inode ip).inum = 2 := by
  obtain ⟨_, hnamei, _⟩ := path_resolution Tiny.sb _ _ Tiny.lone .zero (by decide) [47, 103]
  have hroom : ¬ Crowded (mount (Tiny.disk Tiny.entries 6 Bytes.zero)) := by
    rintro ⟨e₀, h⟩
    have hfree (k : Nat) (hk : k < NINODE) (h0 : k ≠ 0) : k = e₀.1 := by
      refine Decidable.by_contra fun hne => h ⟨k, hk⟩ (fun he => hne (congrArg Fin.val he)) ?_
      rw [mount_rest _ fun he => h0 (congrArg Fin.val he)]
      rfl
    have h1 := hfree 1 (by decide) (by decide)
    have h2 := hfree 2 (by decide) (by decide)
    omega
  have hwalk : walk (node Tiny.sb (Tiny.vol Tiny.entries 6 Bytes.zero)) ROOTINO [[103]] = some 2 := by decide +kernel
  obtain ⟨r, t, hm, _, hr⟩ := hnamei.resolve_right fun hc => hroom hc.1
  have hgoal := hr.trans hwalk
  cases r with
  | none => cases hgoal
  | some ip => exact ⟨ip, t, hm, Option.some.inj hgoal⟩

end Xv6.Fs
