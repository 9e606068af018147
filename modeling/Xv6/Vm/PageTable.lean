/-
  Xv6.Vm.PageTable — the three levels of a page table as a map from pages to entries. A page
  table is a tree of pages (`Lib.Radix`) with two levels above the leaf entries; in a
  well-formed one (`Tree`) no page is at the end of two paths, and none is on the free list.

  - `walk_spec`: a walk that may allocate changes no leaf entry, also when it runs out of
    memory half-way.
  - `mappages_spec`, `uvmunmap_spec`: the leaf entries after mapping and unmapping a range.
  - `page_table_map`: all of it in terms of the entry that `walk` finds.
-/

import Xv6.Lib.Radix
import Xv6.Vm.Vm

namespace Xv6.Vm

open Lib

/-! ## Entries and indices -/

/-- One more than the largest physical address, `1L << 56`. -/
def PAMAX : Nat := 72057594037927936

theorem add64_eq {a b : Nat} (h : a + b < W64) : add64 a b = a + b := Nat.mod_eq_of_lt h

theorem and_V (x : Nat) : x &&& PTE_V = x % 2 := Nat.and_one_is_mod x

theorem PTE_FLAGS_eq (x : Nat) : PTE_FLAGS x = x % 1024 := Nat.and_two_pow_sub_one_eq_mod x 10

theorem PTE2PA_eq (x : Nat) : PTE2PA x = x / 1024 * 4096 % W64 := by
  simp [PTE2PA, Nat.shiftRight_eq_div_pow, Nat.shiftLeft_eq]

theorem PX_eq (level va : Nat) : PX level va = va / 2 ^ (12 + 9 * level) % 512 := by
  unfold PX
  rw [Nat.shiftRight_eq_div_pow]
  exact Nat.and_two_pow_sub_one_eq_mod _ 9

theorem PX_lt (level va : Nat) : PX level va < 512 := by
  rw [PX_eq]
  exact Nat.mod_lt _ (by decide)

/-- The entry that `mappages` stores. -/
def mkPte (pa perm : Nat) : Nat := PA2PTE pa ||| perm ||| PTE_V

section mkPte

variable (pa : Nat) {perm : Nat} (hp : perm < 1024)

include hp

/-- The flags stand below the address of the page. -/
theorem mkPte_eq : ∃ f, f = perm ||| PTE_V ∧ f < 1024 ∧ f % 2 = 1 ∧ mkPte pa perm = pa / 4096 * 1024 + f := by
  have hlt : perm ||| PTE_V < 2 ^ 10 := Nat.or_lt_two_pow hp (by decide)
  refine ⟨_, rfl, hlt, Nat.or_mod_two_eq_one.mpr (.inr rfl), ?_⟩
  unfold mkPte
  rw [Nat.or_assoc, PA2PTE, Nat.shiftRight_eq_div_pow, ← Nat.shiftLeft_add_eq_or_of_lt hlt, Nat.shiftLeft_eq]

theorem mkPte_valid : mkPte pa perm &&& PTE_V ≠ 0 := by
  obtain ⟨f, -, -, hodd, he⟩ := mkPte_eq pa hp
  rw [and_V]
  omega

theorem mkPte_flags : PTE_FLAGS (mkPte pa perm) = perm ||| PTE_V := by
  obtain ⟨f, hf, hlt, -, he⟩ := mkPte_eq pa hp
  rw [PTE_FLAGS_eq]
  omega

variable {pa} (hlt : pa < PAMAX)

include hlt

theorem mkPte_lt : mkPte pa perm < W64 := by
  obtain ⟨f, -, hf, -, he⟩ := mkPte_eq pa hp
  simp only [PAMAX, W64] at hlt ⊢
  omega

theorem PTE2PA_mkPte (ha : pa % PGSIZE = 0) : PTE2PA (mkPte pa perm) = pa := by
  obtain ⟨f, -, hf, -, he⟩ := mkPte_eq pa hp
  rw [PTE2PA_eq]
  simp only [PAMAX, W64, PGSIZE] at hlt ha ⊢
  omega

end mkPte

def dir (va : Nat) : List Nat := [PX 2 va, PX 1 va]

theorem dir_length (va : Nat) : (dir va).length = 2 := rfl

section indices

variable {va w : Nat}

/-- The indices of a page below `MAXVA` give the page back. -/
theorem page_of_indices (h : va < MAXVA) : va / PGSIZE = (PX 2 va * 512 + PX 1 va) * 512 + PX 0 va := by
  simp only [PX_eq, PGSIZE, MAXVA] at h ⊢
  omega

/-- Only the page of an address says where its entry is. -/
theorem PX_page (h : va / PGSIZE = w / PGSIZE) (level : Nat) : PX level va = PX level w := by
  rw [PX_eq, PX_eq, Nat.pow_add, ← Nat.div_div_eq_div_mul, ← Nat.div_div_eq_div_mul]
  exact congrArg (fun n => n / 2 ^ (9 * level) % 512) h

theorem indices_inj (h : va < MAXVA) (hw : w < MAXVA) :
    dir va = dir w ∧ PX 0 va = PX 0 w ↔ va / PGSIZE = w / PGSIZE := by
  constructor
  · simp only [dir, List.cons.injEq]
    rintro ⟨⟨h2, h1, -⟩, h0⟩
    rw [page_of_indices h, page_of_indices hw, h2, h1, h0]
  · intro hp
    simp [dir, PX_page hp]

end indices

/-! ## The tree -/

/-- The page a valid entry points to. -/
def child (x : Nat) : Option Nat := if x &&& PTE_V ≠ 0 then some (PTE2PA x) else none

theorem child_none {x : Nat} : child x = none ↔ x &&& PTE_V = 0 := by simp [child]

theorem child_some {x b : Nat} : child x = some b ↔ x &&& PTE_V ≠ 0 ∧ PTE2PA x = b := by simp [child]

/-- The page-table page at the end of a path. -/
abbrev node (s : St) (pt : Nat) (q : List Nat) : Option Nat := Radix.node child (pte s) pt q

/-- Page `a` is a page-table page of the tree at `pt`. -/
abbrev IsTable (s : St) (pt a : Nat) : Prop := Radix.Table child (pte s) 2 pt a

abbrev Separate (s : St) (pt : Nat) : Prop := Radix.Separate child (pte s) 2 pt

def leaf (s : St) (pt va : Nat) : Nat := Radix.cell child 0 (pte s) pt (dir va) (PX 0 va)

/-- A page that `kinit` gave to the allocator. -/
def Allocatable (kend a : Nat) : Prop := a % PGSIZE = 0 ∧ kend ≤ a ∧ a < PHYSTOP

structure Tree (kend : Nat) (s : St) (pt : Nat) : Prop where
  separate : Separate s pt
  held : ∀ a, IsTable s pt a → a ∉ s.freelist
  nodup : s.freelist.Nodup
  free : ∀ a ∈ s.freelist, Allocatable kend a

variable {kend pt : Nat} {s t u : St}

theorem leaf_eq (s : St) (pt va : Nat) : leaf s pt va = (node s pt (dir va)).elim 0 fun a => pte s a (PX 0 va) := rfl

theorem leaf_page {va w : Nat} (h : va / PGSIZE = w / PGSIZE) : leaf s pt va = leaf s pt w := by
  simp [leaf, dir, PX_page h]

/-! ## Reads and writes of entries -/

def withPte (s : St) (a i x : Nat) : St := { s with page := upd s.page a ((s.page a).putLE (8 * i) 8 x) }

theorem setPte_run (s : St) (a i x : Nat) : setPte a i x s = .ok ((), withPte s a i x) := rfl

theorem getPte_run (s : St) (a i : Nat) : getPte a i s = .ok (pte s a i, s) := rfl

theorem pte_withPte {a i x : Nat} (hi : i < 512) (hx : x < W64) : pte (withPte s a i x) a i = x := by
  show Bytes.getLE (upd s.page a _ a) (8 * i) 8 = x
  rw [upd_same, Bytes.getLE_putLE _ (by simp only [PGSIZE]; omega)]
  exact Nat.mod_eq_of_lt hx

theorem pte_withPte_ne {a i x b j : Nat} (h : b = a → j ≠ i) : pte (withPte s a i x) b j = pte s b j := by
  show Bytes.getLE (upd s.page a _ b) (8 * j) 8 = _
  by_cases e : b = a
  · subst e
    rw [upd_same]
    exact Bytes.getLE_putLE_out _ (by omega)
  · rw [upd_ne _ _ e]
    rfl

theorem pte_congr {a : Nat} (h : t.page a = s.page a) (i : Nat) : pte t a i = pte s a i := by simp [pte, h]

theorem pte_fill_zero {a : Nat} (h : s.page a = fill 0) (i : Nat) : pte s a i = 0 := by
  unfold pte
  rw [h]
  exact Bytes.getLE_zero _ 8

/-- An empty page table is a tree of one page. -/
theorem tree_empty (h : s.page pt = fill 0) (hf : pt ∉ s.freelist) (hnd : s.freelist.Nodup)
    (hfree : ∀ a ∈ s.freelist, Allocatable kend a) : Tree kend s pt := by
  have hroot : ∀ {q a}, node s pt q = some a → q = [] ∧ a = pt := by
    rintro (_ | ⟨i, q⟩) a ha
    · exact ⟨rfl, (Option.some.inj ha).symm⟩
    · simp [node, Radix.node, pte_fill_zero h, child] at ha
  refine ⟨fun q q' a _ _ h1 h2 => ?_, fun a hat => ?_, hnd, hfree⟩
  · rw [(hroot h1).1, (hroot h2).1]
  · obtain ⟨q, -, hq⟩ := hat
    rw [(hroot hq).2]
    exact hf

section frame

variable (h : ∀ a, IsTable s pt a → t.page a = s.page a)

include h

theorem node_frame {q : List Nat} (hq : q.length ≤ 2) : node t pt q = node s pt q :=
  Radix.node_congr (n := 2) (fun q a hq ha i => by rw [pte_congr (h a ⟨q, Nat.le_of_lt hq, ha⟩)]) q hq

theorem leaf_frame (va : Nat) : leaf t pt va = leaf s pt va := by
  rw [leaf_eq, leaf_eq, node_frame h (Nat.le_of_eq (dir_length va))]
  cases ha : node s pt (dir va) with
  | none => simp
  | some a => simp [pte_congr (h a ⟨dir va, Nat.le_refl 2, ha⟩)]

end frame

/-! ## A tree that grows -/

section attach

variable {a i r : Nat} {rest q : List Nat}

/-- `s` after `walk` hung the free page `r` into entry `i` of page `a`. -/
def attach (s : St) (a i r : Nat) (rest : List Nat) : St :=
  withPte { s with freelist := rest, page := upd s.page r (fill 0) } a i (mkPte r 0)

variable (h : Tree kend s pt) (hq : q.length < 2) (ha : node s pt q = some a) (hi : i < 512)
  (hc : child (pte s a i) = none) (hf : s.freelist = r :: rest)

include h hq ha hi hc hf

theorem attached : Radix.Attached child 0 (pte s) 2 pt q a i r (pte (attach s a i r rest)) := by
  have hr : r ∈ s.freelist := by simp [hf]
  have hne : ∀ b, IsTable s pt b → b ≠ r := fun b hb e => h.held b hb (e ▸ hr)
  have hra : r ≠ a := (hne a ⟨q, Nat.le_of_lt hq, ha⟩).symm
  have hlt : r < PAMAX := Nat.lt_trans (h.free r hr).2.2 (by decide)
  refine ⟨rfl, hq, ha, hc, fun hr' => hne r hr' rfl, ?_, fun j => ?_, fun b j hb hbj => ?_⟩
  · unfold attach
    rw [pte_withPte hi (mkPte_lt (by decide) hlt), child_some]
    exact ⟨mkPte_valid r (by decide), PTE2PA_mkPte (by decide) hlt (h.free r hr).1⟩
  · unfold attach
    rw [pte_withPte_ne fun e => absurd e hra]
    exact pte_fill_zero (upd_same _ _ _) j
  · unfold attach
    rw [pte_withPte_ne hbj]
    exact pte_congr (upd_ne _ _ (hne b hb)) j

theorem leaf_attach (w : Nat) : leaf (attach s a i r rest) pt w = leaf s pt w :=
  Radix.cell_attached (attached h hq ha hi hc hf) h.separate (dir w) (dir_length w) (PX 0 w)

theorem tree_attach : Tree kend (attach s a i r rest) pt := by
  have hatt := attached h hq ha hi hc hf
  have hnd := h.nodup
  rw [hf, List.nodup_cons] at hnd
  have hrest : ∀ b ∈ rest, b ∈ s.freelist := fun b hb => by simp [hf, hb]
  refine ⟨Radix.separate_attached hatt h.separate, fun b hb hbf => ?_, hnd.2, fun b hb => h.free b (hrest b hb)⟩
  rcases (Radix.table_attached hatt h.separate b).mp hb with hb | rfl
  · exact h.held b hb (hrest b hbf)
  · exact hnd.1 hbf

end attach

/-! ## walk -/

theorem kalloc_none (hf : s.freelist = []) : kalloc s = .ok (none, s) := by
  unfold kalloc
  rw [run_bind (show (get : M St) s = .ok (s, s) from rfl), hf]
  rfl

theorem kalloc_some {r : Nat} {rest : List Nat} (hf : s.freelist = r :: rest) :
    kalloc s = .ok (some r, { s with freelist := rest, page := upd s.page r (fill 5) }) := by
  unfold kalloc
  rw [run_bind (show (get : M St) s = .ok (s, s) from rfl), hf]
  rfl

section level

variable {a va level : Nat}

theorem walkLevel_hit {b : Nat} {alloc : Bool} (h : child (pte s a (PX level va)) = some b) :
    walkLevel a va alloc level s = .ok (some b, s) := by
  obtain ⟨hv, rfl⟩ := child_some.mp h
  unfold walkLevel
  rw [run_bind (getPte_run s a _), if_pos hv]
  rfl

variable (h : child (pte s a (PX level va)) = none)

include h

theorem walkLevel_miss : walkLevel a va false level s = .ok (none, s) := by
  unfold walkLevel
  rw [run_bind (getPte_run s a _), if_neg (not_not.mpr (child_none.mp h))]
  rfl

theorem walkLevel_full (hf : s.freelist = []) : walkLevel a va true level s = .ok (none, s) := by
  unfold walkLevel
  rw [run_bind (getPte_run s a _), if_neg (not_not.mpr (child_none.mp h)), if_pos rfl, run_bind (kalloc_none hf)]
  rfl

theorem walkLevel_new {r : Nat} {rest : List Nat} (hf : s.freelist = r :: rest) :
    walkLevel a va true level s = .ok (some r, attach s a (PX level va) r rest) := by
  unfold walkLevel
  rw [run_bind (getPte_run s a _), if_neg (not_not.mpr (child_none.mp h)), if_pos rfl, run_bind (kalloc_some hf)]
  show Except.ok (some r, withPte { s with freelist := rest, page := upd (upd s.page r (fill 5)) r (fill 0) } _ _ _) = _
  rw [upd_upd]
  unfold attach mkPte
  rw [Nat.or_zero]

end level

variable {va : Nat}

theorem walk_find (h : va < MAXVA) (s : St) (pt : Nat) :
    walk pt va false s = .ok ((node s pt (dir va)).map fun a => (a, PX 0 va), s) := by
  unfold walk
  rw [if_neg (by omega)]
  simp only [node, dir, Radix.node]
  cases h2 : child (pte s pt (PX 2 va)) with
  | none =>
    rw [run_bind (walkLevel_miss h2)]
    rfl
  | some a =>
    rw [run_bind (walkLevel_hit h2)]
    simp only [Option.bind_some]
    cases h1 : child (pte s a (PX 1 va)) with
    | none =>
      rw [run_bind (walkLevel_miss h1)]
      rfl
    | some b =>
      rw [run_bind (walkLevel_hit h1)]
      rfl

/-- What a step of a walk that may allocate leaves: the leaf entries, and no memory if it fails. -/
structure Walked (kend pt : Nat) (q : List Nat) (s : St) (r : Option Nat) (t : St) : Prop where
  tree : Tree kend t pt
  same : ∀ w, leaf t pt w = leaf s pt w
  full : r = none → t.freelist = []
  found : ∀ a, r = some a → node t pt q = some a

theorem walkLevel_spec {q : List Nat} {a va level : Nat} (h : Tree kend s pt) (hq : q.length < 2)
    (ha : node s pt q = some a) :
    wp (walkLevel a va true level) (Walked kend pt (q ++ [PX level va]) s) (fun _ => False) s := by
  cases hc : child (pte s a (PX level va)) with
  | some b =>
    refine wp_of_run (walkLevel_hit hc) ⟨h, fun _ => rfl, by simp, fun b' e => ?_⟩
    exact (Radix.node_snoc _ _ _ _).trans (Option.bind_eq_some_iff.mpr ⟨a, ha, hc.trans e⟩)
  | none =>
    cases hf : s.freelist with
    | nil => exact wp_of_run (walkLevel_full hc hf) ⟨h, fun _ => rfl, fun _ => hf, by simp⟩
    | cons r rest =>
      have hi := PX_lt level va
      refine wp_of_run (walkLevel_new hc hf) ⟨tree_attach h hq ha hi hc hf,
        leaf_attach h hq ha hi hc hf, by simp, fun b e => ?_⟩
      rw [← e]
      exact (Radix.node_attached (attached h hq ha hi hc hf) h.separate _ (by simp; omega)).trans (if_pos rfl)

theorem walk_spec (h : Tree kend s pt) (hva : va < MAXVA) :
    wp (walk pt va true) (fun r t => Walked kend pt (dir va) s (r.map (·.1)) t ∧ ∀ e, r = some e → e.2 = PX 0 va)
      (fun _ => False) s := by
  unfold walk
  rw [if_neg (by omega)]
  refine wp_seq (walkLevel_spec (q := []) h (by decide) rfl) fun r t hw => ?_
  cases r with
  | none => exact ⟨⟨hw.tree, hw.same, hw.full, by simp⟩, by simp⟩
  | some a =>
    refine wp_seq (walkLevel_spec (q := [PX 2 va]) hw.tree (Nat.lt_succ_self 1) (hw.found a rfl)) fun r u hu => ?_
    have hsame : ∀ w, leaf u pt w = leaf s pt w := fun w => (hu.same w).trans (hw.same w)
    cases r with
    | none => exact ⟨⟨hu.tree, hsame, hu.full, by simp⟩, by simp⟩
    | some b =>
      refine ⟨⟨hu.tree, hsame, by simp, hu.found⟩, ?_⟩
      rintro e ⟨⟩
      rfl

/-! ## Ranges of pages -/

/-- From `s` to `t` the leaf entries from `lo` up to `hi` come to be as `P` says, and the others
    stay. -/
structure Over (pt lo hi : Nat) (P : Nat → Nat → Prop) (s t : St) : Prop where
  inside : ∀ w, lo ≤ w → w < hi → P (w / PGSIZE) (leaf t pt w)
  outside : ∀ w < MAXVA, w < lo ∨ hi ≤ w → leaf t pt w = leaf s pt w

theorem Over.append {lo mid hi : Nat} {P : Nat → Nat → Prop} (h : Over pt lo mid P s t) (h' : Over pt mid hi P t u)
    (hlo : lo ≤ mid) (hm : mid ≤ hi) (hhi : hi ≤ MAXVA) : Over pt lo hi P s u := by
  refine ⟨fun w h1 h2 => ?_, fun w hw hout => ?_⟩
  · by_cases hwm : w < mid
    · rw [h'.outside w (by omega) (.inl hwm)]
      exact h.inside w h1 hwm
    · exact h'.inside w (by omega) h2
  · rw [h'.outside w hw (by omega), h.outside w hw (by omega)]

theorem page_iff {va w : Nat} (hva : va % PGSIZE = 0) : w / PGSIZE = va / PGSIZE ↔ va ≤ w ∧ w < va + PGSIZE := by
  simp only [PGSIZE] at *
  omega

section leaf

variable {a va x : Nat} (h : Separate s pt) (ha : node s pt (dir va) = some a)

include h ha

theorem node_withPte {q : List Nat} (hq : q.length ≤ 2) : node (withPte s a (PX 0 va) x) pt q = node s pt q :=
  Radix.node_leaf (i := PX 0 va) h (dir_length va) ha (fun _ _ _ hj => pte_withPte_ne hj) q hq

theorem leaf_withPte (hx : x < W64) {w : Nat} (hva : va < MAXVA) (hw : w < MAXVA) :
    leaf (withPte s a (PX 0 va) x) pt w = if w / PGSIZE = va / PGSIZE then x else leaf s pt w := by
  refine (Radix.cell_leaf h (dir_length va) ha (fun _ _ _ hj => pte_withPte_ne hj) (dir w)
    (dir_length w) (PX 0 w)).trans ?_
  rw [pte_withPte (PX_lt _ _) hx]
  simp only [indices_inj hw hva]
  rfl

theorem over_withPte {P : Nat → Nat → Prop} (hal : va % PGSIZE = 0) (hva : va < MAXVA) (hx : x < W64)
    (hP : P (va / PGSIZE) x) (hu : ∀ w, leaf s pt w = leaf u pt w) :
    Over pt va (va + PGSIZE) P u (withPte s a (PX 0 va) x) := by
  have hend : va + PGSIZE ≤ MAXVA := by
    simp only [PGSIZE, MAXVA] at *
    omega
  refine ⟨fun w h1 h2 => ?_, fun w hw hout => ?_⟩
  · have hpg := (page_iff hal).mpr ⟨h1, h2⟩
    rw [leaf_withPte h ha hx hva (by omega), if_pos hpg, hpg]
    exact hP
  · rw [leaf_withPte h ha hx hva hw, if_neg fun e => ?_, hu]
    have := (page_iff hal).mp e
    omega

end leaf

/-! ## mappages -/

def Maps (va pa perm p x : Nat) : Prop := ∃ y, y + va = p * PGSIZE + pa ∧ x = mkPte y perm

/-- The whole loop: all pages are mapped, or memory ran out, or one was mapped before. -/
theorem mappagesFrom_spec (va pa : Nat) {perm last : Nat} (hp : perm < 1024) (hl : last + PGSIZE ≤ MAXVA) :
    ∀ (n a b : Nat) (s : St), Tree kend s pt → a % PGSIZE = 0 → last + PGSIZE = a + n * PGSIZE →
    0 < n → b + va = a + pa →
    b + n * PGSIZE ≤ PAMAX →
    wp (mappagesFrom pt last perm n a b)
      (fun r t => r = 0 ∧ Over pt a (last + PGSIZE) (Maps va pa perm) s t ∨ r = -1 ∧ t.freelist = [])
      (fun _ => ∃ w, a ≤ w ∧ w ≤ last ∧ leaf s pt w &&& PTE_V ≠ 0) s := by
  intro n
  induction n with
  | zero =>
    intro a b s _ _ _ h0
    omega
  | succ n ih =>
    intro a b s h ha hn _ hb hbm
    have hlt : a < MAXVA ∧ b < PAMAX ∧ a ≤ last := by
      simp only [PGSIZE] at *
      omega
    have hnext : add64 a PGSIZE = a + PGSIZE ∧ add64 b PGSIZE = b + PGSIZE :=
      ⟨add64_eq (by simp only [PGSIZE, MAXVA, W64] at *; omega),
        add64_eq (by simp only [PGSIZE, PAMAX, W64] at *; omega)⟩
    refine wp_seq (wp_imp (walk_spec h hlt.1) (fun _ _ h => h) fun _ h => h.elim) fun r t ⟨hw, hi⟩ => ?_
    cases r with
    | none => exact .inr ⟨rfl, hw.full rfl⟩
    | some e =>
      obtain ⟨pg, i⟩ := e
      obtain rfl := hi _ rfl
      have hpg := hw.found pg rfl
      have hleaf : pte t pg (PX 0 a) = leaf s pt a := by
        rw [← hw.same, leaf_eq, hpg]
        rfl
      refine wp_after (getPte_run t pg _) (wp_if (fun hv => ⟨a, Nat.le_refl a, hlt.2.2, hleaf ▸ hv⟩) fun _ => ?_)
      have hover : Over pt a (a + PGSIZE) (Maps va pa perm) s (withPte t pg (PX 0 a) (mkPte b perm)) := by
        refine over_withPte hw.tree.separate hpg ha hlt.1 (mkPte_lt hp hlt.2.1) ⟨b, ?_, rfl⟩ hw.same
        simp only [PGSIZE] at *
        omega
      have htree : Tree kend (withPte t pg (PX 0 a) (mkPte b perm)) pt := by
        have hn : ∀ q : List Nat, q.length ≤ 2 → _ = _ := fun q => node_withPte (x := mkPte b perm) hw.tree.separate hpg
        exact ⟨Radix.separate_congr hn hw.tree.separate, fun c hc => hw.tree.held c ((Radix.table_congr hn c).mp hc),
          hw.tree.nodup, hw.tree.free⟩
      refine wp_after (setPte_run t pg _ _) (wp_if (fun e => .inl ⟨rfl, e ▸ hover⟩) fun hne => ?_)
      rw [hnext.1, hnext.2]
      simp only [PGSIZE] at *
      refine wp_imp (ih (a + 4096) (b + 4096) _ htree (by omega) (by omega) (by omega) (by omega) (by omega))
        (fun r u hr => ?_) ?_
      · exact hr.imp (And.imp_right fun ho => hover.append ho (by omega) (by omega) hl) id
      · rintro _ ⟨w, h1, h2, hv⟩
        exact ⟨w, by omega, h2, hover.outside w (by omega) (.inr h1) ▸ hv⟩

section mappages

variable {va size pa perm : Nat} (h : Tree kend s pt) (hva : va % PGSIZE = 0) (hsz : size % PGSIZE = 0)
  (hlt : va + size ≤ MAXVA) (hpm : pa + size ≤ PAMAX) (hp : perm < 1024)

include h hva hsz hlt hpm hp

theorem mappages_spec (h0 : size ≠ 0) :
    wp (mappages pt va size pa perm)
      (fun r t => r = 0 ∧ Over pt va (va + size) (Maps va pa perm) s t ∨ r = -1 ∧ t.freelist = [])
      (fun _ => ∃ w, va ≤ w ∧ w < va + size ∧ leaf s pt w &&& PTE_V ≠ 0) s := by
  obtain ⟨last, hl⟩ : ∃ last, last + PGSIZE = va + size := ⟨va + size - PGSIZE, by simp only [PGSIZE] at *; omega⟩
  have hlast : sub64 (add64 va size) PGSIZE = last := by
    simp only [sub64, add64, PGSIZE, MAXVA, W64] at *
    omega
  unfold mappages
  rw [if_neg (by omega), if_neg (by omega), if_neg h0, hlast, ← hl]
  refine wp_imp (mappagesFrom_spec va pa hp (hl ▸ hlt) _ _ _ _ h hva ?_ ?_ (Nat.add_comm _ _) ?_) (fun _ _ hr => hr) ?_
  · simp only [PGSIZE] at *
    omega
  · simp only [PGSIZE] at *
    omega
  · simp only [PGSIZE] at *
    omega
  · rintro _ ⟨w, h1, h2, hv⟩
    exact ⟨w, h1, by simp only [PGSIZE]; omega, hv⟩

end mappages

/-! ## uvmunmap -/

/-- What `uvmunmap` does to the page of an entry. -/
def dropPage (doFree : Bool) (pa : Nat) (s : St) : St :=
  if doFree then { s with page := upd s.page pa (fill 1), freelist := pa :: s.freelist } else s

theorem kfree_run {pa : Nat} (h : Allocatable kend pa) (s : St) : kfree kend pa s = .ok ((), dropPage true pa s) := by
  obtain ⟨h1, h2, h3⟩ := h
  unfold kfree
  rw [if_neg (by omega)]
  rfl

variable {doFree : Bool}

theorem page_dropPage {pa : Nat} (h : doFree = true → ¬ IsTable s pt pa) (b : Nat) (hb : IsTable s pt b) :
    (dropPage doFree pa s).page b = s.page b := by
  unfold dropPage
  split
  · next e => exact upd_ne _ _ fun hbp => h e (hbp ▸ hb)
  · rfl

/-- The pages that valid entries from `lo` up to `hi` point to can be given back. -/
def Droppable (kend pt lo hi : Nat) (s : St) : Prop :=
  ∀ w, lo ≤ w → w < hi → leaf s pt w &&& PTE_V ≠ 0 →
    Allocatable kend (PTE2PA (leaf s pt w)) ∧ ¬ IsTable s pt (PTE2PA (leaf s pt w))

/-- The loop of `uvmunmap`. -/
theorem uvmunmapFrom_spec {stop : Nat} (hst : stop ≤ MAXVA) :
    ∀ (n a : Nat) (s : St), Separate s pt →
    a % PGSIZE = 0 → stop = a + n * PGSIZE → (doFree = true → Droppable kend pt a stop s) →
    wp (uvmunmapFrom kend pt stop doFree n a) (fun _ t => Over pt a stop (fun _ x => x &&& PTE_V = 0) s t)
      (fun _ => False) s := by
  intro n
  induction n with
  | zero =>
    intro a s _ _ hn _
    exact ⟨fun w h1 h2 => by omega, fun _ _ _ => rfl⟩
  | succ n ih =>
    intro a s h ha hn hfree
    have hlt : a < MAXVA ∧ a + PGSIZE ≤ stop := by
      simp only [PGSIZE] at *
      omega
    -- whatever is done for this page, the rest of the loop takes out the others
    have hrest : ∀ t, (∀ q : List Nat, q.length ≤ 2 → node t pt q = node s pt q) →
        Over pt a (a + PGSIZE) (fun _ x => x &&& PTE_V = 0) s t →
        wp (uvmunmapFrom kend pt stop doFree n (add64 a PGSIZE))
        (fun _ u => Over pt a stop (fun _ x => x &&& PTE_V = 0) s u)
          (fun _ => False) t := fun t ht ho => by
      rw [add64_eq (by simp only [PGSIZE, MAXVA, W64] at *; omega)]
      have hn' : stop = a + PGSIZE + n * PGSIZE := by
        simp only [PGSIZE] at *
        omega
      refine wp_mono (ih _ t (Radix.separate_congr ht h) (by rw [Nat.add_mod_right, ha]) hn' fun e w h1 h2 hv => ?_)
        fun _ u hu => ?_
      · rw [ho.outside w (by omega) (.inr h1)] at hv ⊢
        rw [IsTable, Radix.table_congr ht]
        exact hfree e w (by omega) h2 hv
      · exact ho.append hu (by omega) hlt.2 hst
    have hskip : leaf s pt a &&& PTE_V = 0 → Over pt a (a + PGSIZE) (fun _ x => x &&& PTE_V = 0) s s := fun hv =>
      ⟨fun w h1 h2 => by rwa [leaf_page ((page_iff ha).mpr ⟨h1, h2⟩)], fun _ _ _ => rfl⟩
    unfold uvmunmapFrom
    rw [if_pos (by simp only [PGSIZE] at *; omega)]
    refine wp_after (walk_find hlt.1 s pt) ?_
    cases hpg : node s pt (dir a) with
    | none =>
      refine hrest s (fun _ _ => rfl) (hskip ?_)
      rw [leaf_eq, hpg]
      exact Nat.zero_and _
    | some pg =>
      have hleaf : leaf s pt a = pte s pg (PX 0 a) := by
        rw [leaf_eq, hpg]
        rfl
      refine wp_after (getPte_run s pg (PX 0 a)) (wp_if (fun hv => ?_) fun hv => ?_)
      · exact hrest s (fun _ _ => rfl) (hskip (hleaf ▸ hv))
      · have hdrop := fun e => hfree e a (Nat.le_refl a) (by simp only [PGSIZE] at *; omega) (hleaf ▸ hv)
        rw [hleaf] at hdrop
        have hpage := page_dropPage fun e => (hdrop e).2
        have hnode : ∀ q : List Nat, q.length ≤ 2 → node (dropPage doFree (PTE2PA (pte s pg (PX 0 a))) s) pt q =
          node s pt q :=
          fun q => node_frame hpage
        have hsep := Radix.separate_congr hnode h
        have hpg' := (hnode (dir a) (Nat.le_refl 2)).trans hpg
        have hdone := hrest (withPte (dropPage doFree (PTE2PA (pte s pg (PX 0 a))) s) pg (PX 0 a) 0)
          (fun q hq => (node_withPte hsep hpg' hq).trans (hnode q hq))
          (over_withPte hsep hpg' ha hlt.1 (by decide) (Nat.zero_and _) (leaf_frame hpage))
        cases doFree with
        | false => exact hdone
        | true => exact wp_after (kfree_run (hdrop rfl).1 s) hdone

theorem uvmunmap_spec {va n : Nat} (h : Separate s pt) (hva : va % PGSIZE = 0) (hlt : va + n * PGSIZE ≤ MAXVA)
    (hfree : doFree = true → Droppable kend pt va (va + n * PGSIZE) s) :
    wp (uvmunmap kend pt va n doFree) (fun _ t => Over pt va (va + n * PGSIZE) (fun _ x => x &&& PTE_V = 0) s t)
      (fun _ => False) s := by
  have hstop : add64 va (n * PGSIZE % W64) = va + n * PGSIZE := by
    simp only [add64, W64, MAXVA, PGSIZE] at *
    omega
  unfold uvmunmap
  rw [if_neg (by omega), hstop]
  exact uvmunmapFrom_spec hlt n va s h hva rfl hfree

/-! ## The map -/

/-- The leaf entry that `walk` finds, if it is valid. -/
def lookup (s : St) (pt va : Nat) : Option Nat :=
  match walk pt va false s with
  | .ok (some (a, i), _) => if pte s a i &&& PTE_V ≠ 0 then some (pte s a i) else none
  | _ => none

theorem lookup_eq (h : va < MAXVA) (s : St) (pt : Nat) :
    lookup s pt va = if leaf s pt va &&& PTE_V ≠ 0 then some (leaf s pt va) else none := by
  unfold lookup
  rw [walk_find h, leaf_eq]
  cases node s pt (dir va) with
  | none => exact (if_neg fun e => e (Nat.zero_and _)).symm
  | some a => rfl

theorem lookup_none (h : va < MAXVA) : lookup s pt va = none ↔ leaf s pt va &&& PTE_V = 0 := by simp [lookup_eq h]

theorem lookup_congr (h : va < MAXVA) (hl : leaf t pt va = leaf s pt va) : lookup t pt va = lookup s pt va := by
  rw [lookup_eq h, lookup_eq h, hl]

section ranges

variable {va size pa perm : Nat} (h : Tree kend s pt) (hva : va % PGSIZE = 0) (hsz : size % PGSIZE = 0)
  (hlt : va + size ≤ MAXVA) (hpm : pa + size ≤ PAMAX) (hp : perm < 1024)

include h hva hsz hlt hpm hp

theorem mappages_lookup (hpa : pa % PGSIZE = 0) (ht : mappages pt va size pa perm s = .ok (0, t)) :
    (∀ j < size / PGSIZE, ∃ x, lookup t pt (va + j * PGSIZE) = some x ∧ PTE2PA x = pa + j * PGSIZE ∧
      PTE_FLAGS x = perm ||| PTE_V) ∧
    ∀ w < MAXVA, w < va ∨ va + size ≤ w → lookup t pt w = lookup s pt w := by
  have h0 : size ≠ 0 := fun e => by
    unfold mappages at ht
    rw [if_neg (by omega), if_neg (by omega), if_pos e] at ht
    cases ht
  obtain ⟨-, hm⟩ | ⟨he, -⟩ := wp_ok (mappages_spec h hva hsz hlt hpm hp h0) ht
  · refine ⟨fun j hj => ?_, fun w hw hout => lookup_congr hw (hm.outside w hw hout)⟩
    have hin : va + j * PGSIZE < va + size ∧ pa + j * PGSIZE < PAMAX ∧ (pa + j * PGSIZE) % PGSIZE = 0 := by
      simp only [PGSIZE] at *
      omega
    obtain ⟨y, hy, hx⟩ := hm.inside (va + j * PGSIZE) (Nat.le_add_right _ _) hin.1
    obtain rfl : y = pa + j * PGSIZE := by
      simp only [PGSIZE] at *
      omega
    refine ⟨_, ?_, PTE2PA_mkPte hp hin.2.1 hin.2.2, mkPte_flags _ hp⟩
    rw [lookup_eq (by omega), hx, if_pos (mkPte_valid _ hp)]
  · cases he

/-- Over pages that are not mapped it succeeds unless memory runs out. -/
theorem mappages_returns (h0 : size ≠ 0) (hnone : ∀ w, va ≤ w → w < va + size → lookup s pt w = none) :
    ∃ r t, mappages pt va size pa perm s = .ok (r, t) ∧ (r = 0 ∨ r = -1 ∧ t.freelist = []) := by
  obtain ⟨r, t, hr, hq⟩ | ⟨e, -, w, h1, h2, hv⟩ := wp_cases (mappages_spec h hva hsz hlt hpm hp h0)
  · exact ⟨r, t, hr, hq.imp And.left id⟩
  · exact absurd ((lookup_none (by omega)).mp (hnone w h1 h2)) hv

end ranges

theorem uvmunmap_lookup {va n : Nat} (h : Separate s pt) (hva : va % PGSIZE = 0) (hlt : va + n * PGSIZE ≤ MAXVA)
    (hfree : doFree = true → ∀ w x, va ≤ w → w < va + n * PGSIZE → lookup s pt w = some x →
      Allocatable kend (PTE2PA x) ∧ ¬ IsTable s pt (PTE2PA x)) :
    ∃ t, uvmunmap kend pt va n doFree s = .ok ((), t) ∧ (∀ w, va ≤ w → w < va + n * PGSIZE → lookup t pt w = none) ∧
      ∀ w < MAXVA, w < va ∨ va + n * PGSIZE ≤ w → lookup t pt w = lookup s pt w := by
  have hdrop : doFree = true → Droppable kend pt va (va + n * PGSIZE) s := fun e w h1 h2 hv =>
    hfree e w _ h1 h2 ((lookup_eq (by omega) s pt).trans (if_pos hv))
  obtain ⟨_, t, ht, hu⟩ := wp_total (uvmunmap_spec h hva hlt hdrop)
  exact ⟨t, ht, fun w h1 h2 => (lookup_none (by omega)).mpr (hu.inside w h1 h2),
    fun w hw hout => lookup_congr hw (hu.outside w hw hout)⟩

theorem walk_apart {va w a i b j : Nat} (h : Separate s pt) (hva : va < MAXVA) (hw : w < MAXVA)
    (hne : va / PGSIZE ≠ w / PGSIZE) (h1 : walk pt va false s = .ok (some (a, i), s))
    (h2 : walk pt w false s = .ok (some (b, j), s)) : (a, i) ≠ (b, j) := by
  rw [walk_find hva] at h1
  rw [walk_find hw] at h2
  obtain ⟨pg, hpg, h1⟩ := Option.map_eq_some_iff.mp (Prod.mk.inj (Except.ok.inj h1)).1
  obtain ⟨pg', hpg', h2⟩ := Option.map_eq_some_iff.mp (Prod.mk.inj (Except.ok.inj h2)).1
  intro e
  obtain ⟨rfl, hx⟩ := Prod.mk.inj (h1.trans (e.trans h2.symm))
  exact hne ((indices_inj hva hw).mp ⟨h _ _ pg (Nat.le_refl 2) (Nat.le_refl 2) hpg hpg', hx⟩)

theorem page_table_map {kend : Nat} {s : St} {pt : Nat} (h : Tree kend s pt) :
    (∀ va size pa perm, va % PGSIZE = 0 → size % PGSIZE = 0 → pa % PGSIZE = 0 → va + size ≤ MAXVA →
      pa + size ≤ PAMAX → perm < 1024 →
      (∀ t, mappages pt va size pa perm s = .ok (0, t) →
        (∀ j < size / PGSIZE, ∃ x, lookup t pt (va + j * PGSIZE) = some x ∧
          PTE2PA x = pa + j * PGSIZE ∧ PTE_FLAGS x = perm ||| PTE_V) ∧
        ∀ w < MAXVA, w < va ∨ va + size ≤ w → lookup t pt w = lookup s pt w) ∧
      (size ≠ 0 → (∀ w, va ≤ w → w < va + size → lookup s pt w = none) →
        ∃ r t, mappages pt va size pa perm s = .ok (r, t) ∧ (r = 0 ∨ r = -1 ∧ t.freelist = []))) ∧
    (∀ va npages doFree, va % PGSIZE = 0 → va + npages * PGSIZE ≤ MAXVA →
      (doFree = true → ∀ w x, va ≤ w → w < va + npages * PGSIZE → lookup s pt w = some x →
        Allocatable kend (PTE2PA x) ∧ ¬ IsTable s pt (PTE2PA x)) →
      ∃ t, uvmunmap kend pt va npages doFree s = .ok ((), t) ∧
        (∀ w, va ≤ w → w < va + npages * PGSIZE → lookup t pt w = none) ∧
        ∀ w < MAXVA, w < va ∨ va + npages * PGSIZE ≤ w → lookup t pt w = lookup s pt w) ∧
    (∀ va < MAXVA, ∃ r t, walk pt va true s = .ok (r, t) ∧ ∀ w < MAXVA, lookup t pt w = lookup s pt w) ∧
    ∀ va w a i b j, va < MAXVA → w < MAXVA → va / PGSIZE ≠ w / PGSIZE → walk pt va false s = .ok (some (a, i), s) →
      walk pt w false s = .ok (some (b, j), s) → (a, i) ≠ (b, j) := by
  refine ⟨fun va size pa perm hva hsz hpa hlt hpm hp => ⟨fun t ht => mappages_lookup h hva hsz hlt hpm hp hpa ht,
    fun h0 hnone => mappages_returns h hva hsz hlt hpm hp h0 hnone⟩,
    fun va n doFree hva hlt hfree => uvmunmap_lookup h.separate hva hlt hfree, fun va hva => ?_,
    fun va w a i b j hva hw hne h1 h2 => walk_apart h.separate hva hw hne h1 h2⟩
  obtain ⟨r, t, hr, hw, -⟩ := wp_total (walk_spec h hva)
  exact ⟨r, t, hr, fun w hlt => lookup_congr hlt (hw.same w)⟩

/-! ## A machine with little memory -/

namespace Sample

/-- Page `0x80100000` is an empty page table, and four pages are free. -/
def empty : St := { page := fun _ => fill 0, freelist := [0x80104000, 0x80103000, 0x80102000, 0x80101000] }

theorem empty_free : ∀ a ∈ empty.freelist, Allocatable 0x80030000 a := by
  unfold Allocatable
  decide

theorem empty_tree : Tree 0x80030000 empty 0x80100000 := tree_empty rfl (by decide) (by decide) empty_free

theorem empty_maps :
    (mappages 0x80100000 0x1000 0x1000 0x80200000 (PTE_R ||| PTE_U) empty).toOption.map (·.1) = some 0 := by
  decide +kernel

end Sample

theorem page_table_map_empty : Tree 0x80030000 Sample.empty 0x80100000 ∧
    ∃ t, mappages 0x80100000 0x1000 0x1000 0x80200000 (PTE_R ||| PTE_U) Sample.empty = .ok (0, t) ∧
      ∃ x, lookup t 0x80100000 0x1000 = some x ∧ PTE2PA x = 0x80200000 ∧ PTE_FLAGS x = 19 := by
  refine ⟨Sample.empty_tree, ?_⟩
  have hrun := Sample.empty_maps
  cases hm : mappages 0x80100000 0x1000 0x1000 0x80200000 (PTE_R ||| PTE_U) Sample.empty with
  | error e =>
    rw [hm] at hrun
    cases hrun
  | ok r =>
    rw [hm] at hrun
    obtain ⟨x, t⟩ := r
    obtain rfl : x = 0 := Option.some.inj hrun
    have hmap := (page_table_map Sample.empty_tree).1 0x1000 0x1000 0x80200000 (PTE_R ||| PTE_U)
      (by decide) (by decide) (by decide)
      (by decide) (by decide) (by decide)
    exact ⟨t, rfl, (hmap.1 t hm).1 0 (by decide)⟩

end Xv6.Vm
