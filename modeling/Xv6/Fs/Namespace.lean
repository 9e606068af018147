/-
  Xv6.Fs.Namespace — what one system call may do to the inodes. `Calm` changes are those
  no path can tell: an inode without links is freed, the contents of a file change. An
  `Op` is an operation on names: an entry is made or removed, and the link counts follow.
  A call makes at most one of them, among calm changes (`Chg`). A walk only sheds inodes
  that have no links and that nobody keeps (`Sheds`), and so does a call that fails.
-/

import Xv6.Fs.DirProofs
import Xv6.Fs.Sys
import Mathlib.Logic.Relation

namespace Xv6.Fs

open Lib Vol

/-! ## Changes -/

inductive Calm1 (F : Nat → Node) : (Nat → Node) → Prop where
  | free {i : Nat} (live : (F i).type ≠ 0) (nlink : (F i).nlink = 0) : Calm1 F (upd F i .free)
  | content {i : Nat} {x : Node} (live : (F i).type ≠ 0) (file : (F i).type ≠ T_DIR) (type : x.type = (F i).type)
    (nlink : x.nlink = (F i).nlink) : Calm1 F (upd F i x)

abbrev Calm : (Nat → Node) → (Nat → Node) → Prop := Relation.ReflTransGen Calm1

inductive Shed1 (K : Nat → Prop) (F : Nat → Node) : (Nat → Node) → Prop where
  | free {i : Nat} (live : (F i).type ≠ 0) (nlink : (F i).nlink = 0) (lone : ¬ K i) : Shed1 K F (upd F i .free)

abbrev Sheds (K : Nat → Prop) : (Nat → Node) → (Nat → Node) → Prop := Relation.ReflTransGen (Shed1 K)

def Ctx.Keeps (c : Ctx) (i : Nat) : Prop := ∃ e, 0 < c.kept e ∧ c.num e = i

def Node.withLinks (x : Node) (n : Int16) : Node := { x with nlink := n }

/-- An inode as `create` finds it after its first `iupdate`. -/
def Node.born (type : Int16) : Node := ⟨type, 1, 0, fun _ => 0⟩

/-- The new directory `i` with its entry `"."`. -/
def Node.dotDir (i : Nat) : Node := (Node.born T_DIR).put (DESIZE * 0) (mkDirent i dot)

/-- And with `".."`, for its parent `d`, in slot `k`. -/
def Node.newDir (i d k : Nat) : Node := (Node.dotDir i).put (DESIZE * k) (mkDirent d dotdot)

/-- Directory `x` with the entry (`name`, `i`) in slot `k`. -/
def Node.link (x : Node) (k i : Nat) (name : Name) : Node := x.put (DESIZE * k) (mkDirent i name)

/-- Directory `x` with slot `k` cleared. -/
def Node.unlink (x : Node) (k : Nat) : Node := x.put (DESIZE * k) (List.replicate DESIZE 0)

/-- Slot `k` of directory `x` is free for an entry `name`. -/
structure Node.Room (x : Node) (k : Nat) (name : Name) : Prop where
  dir : x.type = T_DIR
  lacks : x.Lacks name
  ent : x.ent k = 0
  size : DESIZE * k ≤ x.size

structure Removable (F : Nat → Node) (d k i : Nat) : Prop where
  dir : (F d).type = T_DIR
  ent : (F d).ent k = i
  pos : i ≠ 0
  live : (F i).type ≠ 0
  named : ∃ name, namecmp name ((F d).name k) = 0 ∧ namecmp name dot ≠ 0 ∧ namecmp name dotdot ≠ 0
  nlink : 1 ≤ (F i).nlink
  empty : (F i).type = T_DIR → ∀ l, 2 ≤ l → (F i).ent l = 0
  ne : i ≠ d

/-- The directory an entry was removed from: a subdirectory takes a link with it. -/
def Node.unlinked (x : Node) (k : Nat) (type : Int16) : Node :=
  (x.unlink k).withLinks (if type = T_DIR then x.nlink - 1 else x.nlink)

inductive Op (sb : Superblock) (F : Nat → Node) : (Nat → Node) → Prop where
  /-- `create`, of a file or a device. -/
  | create {d k i : Nat} {name : Name} {type : Int16} (room : (F d).Room k name) (free : F i = .free) (pos : i ≠ 0)
    (lt : i < sb.ninodes) (kind : type ≠ 0 ∧ type ≠ T_DIR) :
      Op sb F (upd (upd F i (.born type)) d ((F d).link k i name))
  /-- `create`, of a directory. -/
  | mkdir {d k i j : Nat} {name : Name} (room : (F d).Room k name) (free : F i = .free) (pos : i ≠ 0)
    (lt : i < sb.ninodes)
    (dots : (Node.dotDir i).ent j = 0 ∧ DESIZE * j ≤ (Node.dotDir i).size) :
    Op sb F (upd (upd F i (.newDir i d j)) d (((F d).link k i name).withLinks ((F d).nlink + 1)))
  | link {d k i : Nat} {name : Name} (room : (F d).Room k name) (live : (F i).type ≠ 0) (file : (F i).type ≠ T_DIR)
    (lt : i < sb.ninodes) : Op sb F (upd (upd F i ((F i).withLinks ((F i).nlink + 1))) d ((F d).link k i name))
  | unlink {d k i : Nat} (doomed : Removable F d k i) :
    Op sb F (upd (upd F d ((F d).unlinked k (F i).type)) i ((F i).withLinks ((F i).nlink - 1)))
  /-- If the root is free, a `create` that fails may leave something of itself there. -/
  | stray {x : Node} (free : (F ROOTINO).type = 0) (nlink : x.nlink = 0) : Op sb F (upd F ROOTINO x)

def Chg (sb : Superblock) (F F' : Nat → Node) : Prop := ∃ G G', Calm F G ∧ (G' = G ∨ Op sb G G') ∧ Calm G' F'

/-- What a call does that fails. If the root is free, it may leave something of itself there. -/
def Fails (sb : Superblock) (K : Nat → Prop) (F F' : Nat → Node) : Prop :=
  Sheds K F F' ∨ ((F ROOTINO).type = 0 ∧ Chg sb F F')

variable {sb : Superblock} {F G H : Nat → Node} {V V' : Vol} {i : Nat} {safe : Guard} {c : Ctx}
  {T : List (Idx × Nat)} {K : Nat → Prop}

theorem chg_calm (h : Calm F G) : Chg sb F G := ⟨G, G, h, .inl rfl, .refl⟩

theorem chg_op (h : Calm F G) (ho : Op sb G H) : Chg sb F H := ⟨G, H, h, .inr ho, .refl⟩

theorem chg_then (h : Chg sb F G) (hc : Calm G H) : Chg sb F H := by
  obtain ⟨G1, G2, h1, h2, h3⟩ := h
  exact ⟨G1, G2, h1, h2, h3.trans hc⟩

/-- An inode without links goes, wherever else the map may differ from the volume. -/
theorem calm_free (hi : Live sb V i) (h0 : (V.ino i).nlink = 0) (hG : G i = node sb V i) : Calm1 G (upd G i .free) := by
  rw [node_live hi] at hG
  exact .free (by rw [hG]; exact hi.2) (by rw [hG]; exact h0)

theorem calm_drop (h : Drop sb c T V V' i) : Calm (node sb V) (node sb V') := by
  rcases h with rfl | ⟨hi, h0, he, _⟩
  · exact .refl
  · rw [emptied_node he]
    exact .single (calm_free hi h0 rfl)

theorem sheds_calm (h : Sheds K F G) : Calm F G := by
  refine Relation.ReflTransGen.mono (fun A B hAB => ?_) F G h
  cases hAB with
  | free live nlink _ => exact .free live nlink

theorem sheds_same (h : Sheds K F G) (hi : K i ∨ (F i).nlink ≠ 0) : G i = F i := by
  induction h with
  | refl => rfl
  | tail _ hstep ih =>
    cases hstep with
    | @free j live nlink lone =>
      have hij : i ≠ j := by
        rintro rfl
        rcases hi with hi | hi
        · exact lone hi
        · exact hi (by rw [← ih]; exact nlink)
      rw [upd_ne _ _ hij, ih]

theorem sheds_live (h : Sheds K F G) (hi : (G i).type ≠ 0) : G i = F i := by
  induction h with
  | refl => rfl
  | tail _ hstep ih =>
    cases hstep with
    | @free j live nlink lone =>
      by_cases hij : i = j
      · rw [hij, upd_same] at hi
        exact absurd rfl hi
      · rw [upd_ne _ _ hij] at hi ⊢
        exact ih hi

/-- Nothing is shed if everything without links is kept. -/
theorem sheds_none (h : Sheds K F G) (hk : ∀ i, (F i).type ≠ 0 → (F i).nlink = 0 → K i) : G = F := by
  induction h with
  | refl => rfl
  | tail _ hstep ih =>
    subst ih
    cases hstep with
    | free live nlink lone => exact absurd (hk _ live nlink) lone

theorem sheds_drop (h : Drop sb c T V V' i) : Sheds c.Keeps (node sb V) (node sb V') := by
  rcases h with rfl | ⟨hi, h0, he, hne⟩
  · exact .refl
  · rw [emptied_node he]
    refine .single (.free (node_type_ne.mpr hi) (by rw [node_live hi]; exact h0) ?_)
    rintro ⟨e, he⟩
    exact hne e i (.inr he) rfl

theorem fails_chg (h : Fails sb K F G) : Chg sb F G := by
  rcases h with h | ⟨_, h⟩
  · exact chg_calm (sheds_calm h)
  · exact h

theorem fails_then (h : Fails sb K F G) (hs : Sheds K G H) : Fails sb K F H := by
  rcases h with h | ⟨h0, h⟩
  · exact .inl (h.trans hs)
  · exact .inr ⟨h0, chg_then h (sheds_calm hs)⟩

/-- What a dropped reference leaves of an inode somebody still refers to. -/
theorem drop_ref {j : Nat} {e : Idx} (h : Drop sb c T V V' i) (hr : Ref c T e j) : node sb V' j = node sb V j := by
  rcases h with rfl | ⟨_, _, he, hne⟩
  · rfl
  · rw [emptied_node he, upd_ne _ _ (hne e j hr)]

/-! ## Walks -/

/-- Paths can be walked, also once calm changes are made: under `safe`, what a directory
    names is allocated. -/
structure Walkable (sb : Superblock) (safe : Guard) (F : Nat → Node) : Prop where
  root : ROOTINO < sb.ninodes
  small : safe.live → sb.ninodes ≤ 65536
  live : safe.live → ∀ G, Calm F G → (G ROOTINO).type ≠ 0
  closed : safe.live → ∀ G, Calm F G → ∀ d k, (G d).type = T_DIR → (G d).ent k ≠ 0 → (G ((G d).ent k)).type ≠ 0

def Sheltered (sb : Superblock) (c : Ctx) (F : Nat → Node) : Prop :=
  ∀ i, (F i).type ≠ 0 → (F i).nlink = 0 → c.Keeps i ∨ c.bill.free (sb.IBLOCK i)

/-- Where no inode strays, one without links is kept. -/
theorem mid_keeps {s : St} {L : List Idx} (h : Mid sb safe c s V [] L) (hs : ∀ j, ¬ c.scope.stray j)
    (hi : (node sb V i).type ≠ 0) (h0 : (node sb V i).nlink = 0) : c.Keeps i := by
  have hlive := node_type_ne.mp hi
  rw [node_live hlive] at h0
  obtain ⟨e, he⟩ := h.orphan i (hs i) hlive h0
  have hk : 0 < c.kept e := by
    have h1 := h.refs e
    have h2 := he.ref
    rw [temps_nil] at h1
    omega
  exact ⟨e, hk, (h.num e hk).symm.trans he.inum⟩

theorem sheltered_covered (hb : Sheltered sb c F) (hi : node sb V i = F i) (T : List (Idx × Nat)) :
    Covered sb c T V i := by
  intro hlive h0
  rw [node_live hlive] at hi
  rcases hb i (by rw [← hi]; exact hlive.2) (by rw [← hi]; exact h0) with ⟨e, he⟩ | hfree
  · exact .inl ⟨e, .inr he⟩
  · exact .inr hfree

theorem sheds_covered (hb : Sheltered sb c F) (h : Sheds c.Keeps F (node sb V)) (i : Nat)
    (T : List (Idx × Nat)) : Covered sb c T V i :=
  fun hlive => sheltered_covered hb (sheds_live h (node_type_ne.mpr hlive)) T hlive

theorem walk_sheds (hw : Walkable sb safe F) (hb : Sheltered sb c F) :
    Walk sb safe c T fun V => Sheds c.Keeps F (node sb V) where
  drop := fun _ _ _ _ _ hP hd => hP.trans (sheds_drop hd)
  closed := fun _ d hP hty hsafe k hk => node_type_ne.mp (hw.closed hsafe _ (sheds_calm hP) d k hty hk)
  root := ⟨hw.root, fun _ hsafe hP => node_type_ne.mp (hw.live hsafe _ (sheds_calm hP))⟩
  covered := fun T' _ i _ hP => sheds_covered hb hP i T'

/-- Whatever has lost its links is kept. -/
def KeepsAll (sb : Superblock) (c : Ctx) (V : Vol) : Prop := ∀ j, Live sb V j → (V.ino j).nlink = 0 → c.Keeps j

/-- Then a walk changes nothing. -/
theorem walk_keepsAll {P : Vol → Prop} (hw : Walk sb safe c T P) :
    Walk sb safe c T fun W => P W ∧ (KeepsAll sb c V → W = V) where
  drop := fun T' W W' i hsub hP hd => by
    refine ⟨hw.drop T' W W' i hsub hP.1 hd, fun hs => ?_⟩
    rcases hd with rfl | ⟨hi, h0, _, hne⟩
    · exact hP.2 hs
    · rw [hP.2 hs] at hi h0
      obtain ⟨e, he⟩ := hs i hi h0
      exact absurd rfl (hne e i (.inr he))
  closed := fun V d hP => hw.closed V d hP.1
  root := ⟨hw.root.1, fun V hsafe hP => hw.root.2 V hsafe hP.1⟩
  covered := fun T' V i hsub hP => hw.covered T' V i hsub hP.1

end Xv6.Fs
