/-
  Xv6.Fs.Names — what a directory says, as a function of its bytes (`kernel/fs.c`: `namecmp`,
  `dirlookup`, `dirlink`, `namex`). Of a name its first `DIRSIZ` bytes count, up to a NUL
  (`key`). `Node.lookup` is the map from names to inode numbers, with the offset of each
  binding; `walk` looks up the elements of a path one after the other.
-/

import Xv6.Fs.Mid

namespace Xv6.Fs

open Lib Vol

/-! ## Entries -/

def Node.dirent (x : Node) (k : Nat) : List UInt8 := (List.range DESIZE).map fun j => x.byte (DESIZE * k + j)

def Node.name (x : Node) (k : Nat) : Name := deName (x.dirent k)

/-- The bytes `l` written at `off`. -/
def Node.put (x : Node) (off : Nat) (l : List UInt8) : Node :=
  { x with
    size := max x.size (off + l.length)
    byte := fun y => if off ≤ y ∧ y < off + l.length then l.getD (y - off) 0 else x.byte y }

section

variable {x : Node} {k : Nat} {l : List UInt8}

theorem ent_eq (h : DESIZE * k + DESIZE ≤ x.size) : x.ent k = deInum (x.dirent k) := if_pos h

theorem ent_ne (h : x.ent k ≠ 0) : DESIZE * k + DESIZE ≤ x.size := by
  unfold Node.ent at h
  split at h
  · next h' => exact h'
  · exact absurd rfl h

theorem dirent_put (hl : l.length = DESIZE) (j : Nat) :
    (x.put (DESIZE * k) l).dirent j = if j = k then l else x.dirent j := by
  by_cases e : j = k
  · subst e
    rw [if_pos rfl]
    apply List.ext_getElem
    · simp only [Node.dirent, List.length_map, List.length_range, hl]
    · intro a h1 h2
      simp only [Node.dirent, Node.put, List.getElem_map, List.getElem_range]
      rw [if_pos ⟨Nat.le_add_right _ _, by omega⟩, Nat.add_sub_cancel_left, List.getD_eq_getElem?_getD,
        List.getElem?_eq_getElem h2, Option.getD_some]
  · rw [if_neg e]
    apply List.map_congr_left
    intro a ha
    have ha' : a < DESIZE := List.mem_range.mp ha
    simp only [Node.put]
    rw [if_neg]
    simp only [DESIZE, DIRSIZ, hl] at *
    omega

theorem ent_put (hl : l.length = DESIZE) (hk : DESIZE * k ≤ x.size) (j : Nat) :
    (x.put (DESIZE * k) l).ent j = if j = k then deInum l else x.ent j := by
  have hsize : (x.put (DESIZE * k) l).size = max x.size (DESIZE * k + DESIZE) := by simp only [Node.put, hl]
  by_cases e : j = k
  · subst e
    rw [ent_eq (by rw [hsize]; omega), dirent_put hl, if_pos rfl, if_pos rfl]
  rw [if_neg e]
  by_cases hj : DESIZE * j + DESIZE ≤ x.size
  · rw [ent_eq (by rw [hsize]; omega), dirent_put hl, if_neg e, ent_eq hj]
  · unfold Node.ent
    rw [if_neg hj, if_neg]
    simp only [DESIZE, DIRSIZ] at *
    omega

theorem mkDirent_length (inum : Nat) (name : Name) : (mkDirent inum name).length = DESIZE := by
  have h : ∀ n (t : Name), (strncpy n t).length = n := by
    intro n
    induction n with
    | zero => intro t; rfl
    | succ n ih =>
      intro t
      unfold strncpy
      split
      · simp
      · simp [ih]
  simp only [mkDirent, List.length_cons, h, DESIZE, DIRSIZ]

theorem deInum_mkDirent (inum : Nat) (name : Name) : deInum (mkDirent inum name) = inum % 65536 := by
  have h0 := Bytes.leByte_zero inum
  have h1 := Bytes.leByte_zero (inum / 256)
  rw [← Bytes.leByte_succ] at h1
  simp only [deInum, mkDirent, List.getD_cons_zero, List.getD_cons_succ]
  rw [h1]
  omega

end

/-! ## Names -/

/-- What counts of a name. -/
def key (name : Name) : Name := (name.take DIRSIZ).takeWhile (· ≠ 0)

theorem strncmp_eq_zero (n : Nat) : ∀ p q : Name,
    strncmp n p q = 0 ↔ (p.take n).takeWhile (· ≠ 0) = (q.take n).takeWhile (· ≠ 0) := by
  induction n with
  | zero => exact fun p q => iff_of_true rfl rfl
  | succ n ih =>
    intro p q
    have hz (x : UInt8) : x.toNat = 0 ↔ x = 0 := by
      rw [← UInt8.toNat_inj]
      rfl
    cases p with
    | nil =>
      cases q with
      | nil => simp [strncmp]
      | cons y ys =>
        by_cases hy : y = 0
        · simp [strncmp, hy]
        · simp [strncmp, hy, hz]
    | cons x xs =>
      cases q with
      | nil =>
        by_cases hx : x = 0
        · simp [strncmp, hx]
        · simp [strncmp, hx, hz]
      | cons y ys =>
        by_cases hx : x = 0
        · by_cases hy : y = 0
          · simp [strncmp, hx, hy]
          · simp [strncmp, hx, hy, hz]
        by_cases hxy : x = y
        · have hy : y ≠ 0 := hxy ▸ hx
          simpa [strncmp, hxy, hy] using ih xs ys
        have hne : ¬ ((x.toNat : Int) - y.toNat = 0) := by
          rw [← UInt8.toNat_inj] at hxy
          omega
        by_cases hy : y = 0
        · simp [strncmp, hx, hy, hz]
        · simp [strncmp, hx, hy, hxy, hne]

theorem namecmp_eq_zero (s t : Name) : namecmp s t = 0 ↔ key s = key t := strncmp_eq_zero DIRSIZ s t

theorem strncpy_takeWhile (n : Nat) :
    ∀ t : Name, ((strncpy n t).take n).takeWhile (· ≠ 0) = (t.take n).takeWhile (· ≠ 0) := by
  induction n with
  | zero => exact fun t => rfl
  | succ n ih =>
    intro t
    cases t with
    | nil => simp [strncpy]
    | cons x xs =>
      by_cases hx : x = 0
      · simp [strncpy, hx]
      · simpa [strncpy, hx] using ih xs

theorem key_mkDirent (inum : Nat) (name : Name) :
    key (deName (mkDirent inum name)) = key name := strncpy_takeWhile DIRSIZ name

/-! ## The map -/

def Node.Names (x : Node) (name : Name) (k : Nat) : Prop := x.ent k ≠ 0 ∧ key (x.name k) = key name

instance (x : Node) (name : Name) (k : Nat) : Decidable (x.Names name k) := inferInstanceAs (Decidable (_ ∧ _))

/-- The inode number that a directory binds a name to, and the offset of the entry. -/
def Node.lookup (x : Node) (name : Name) : Option (Nat × Nat) :=
  ((List.range (x.size / DESIZE)).find? fun k => x.Names name k).map fun k => (x.ent k, DESIZE * k)

def Node.Lacks (x : Node) (name : Name) : Prop := ∀ k, x.ent k ≠ 0 → namecmp name (x.name k) ≠ 0

def Node.Distinct (x : Node) : Prop := ∀ k l, x.ent k ≠ 0 → x.ent l ≠ 0 → key (x.name k) = key (x.name l) → k = l

/-- The first free entry, or the one behind the last. -/
def Node.gap (x : Node) : Nat := ((List.range (x.size / DESIZE)).find? fun k => x.ent k = 0).getD (x.size / DESIZE)

section

variable {x : Node} {name : Name} {k : Nat}

theorem ent_lt (h : x.ent k ≠ 0) : k < x.size / DESIZE := by
  have := ent_ne h
  simp only [DESIZE, DIRSIZ] at *
  omega

theorem lacks_iff : x.Lacks name ↔ ∀ k, ¬ x.Names name k := by
  unfold Node.Lacks Node.Names
  simp only [ne_eq, namecmp_eq_zero, not_and]
  exact forall_congr' fun k => forall_congr' fun _ => not_congr ⟨Eq.symm, Eq.symm⟩

theorem lookup_eq_none : x.lookup name = none ↔ x.Lacks name := by
  unfold Node.lookup
  rw [lacks_iff, Option.map_eq_none_iff, List.find?_eq_none]
  simp only [List.mem_range, decide_eq_true_eq]
  exact ⟨fun h k hk => h k (ent_lt hk.1) hk, fun h k _ => h k⟩

/-- Of several entries with one name the first is found. -/
theorem lookup_first (h0 : x.ent k ≠ 0) (hcmp : namecmp name (x.name k) = 0)
    (hno : ∀ j < k, x.ent j ≠ 0 → namecmp name (x.name j) ≠ 0) : x.lookup name = some (x.ent k, DESIZE * k) := by
  have hk : x.Names name k := ⟨h0, ((namecmp_eq_zero _ _).mp hcmp).symm⟩
  refine Option.map_eq_some_iff.mpr
    ⟨k, List.find?_range_eq_some.mpr ⟨decide_eq_true hk, List.mem_range.mpr (ent_lt h0), ?_⟩, rfl⟩
  intro j hj
  simp only [Bool.not_eq_true', decide_eq_false_iff_not]
  exact fun hn => hno j hj hn.1 ((namecmp_eq_zero _ _).mpr hn.2.symm)

/-- In a directory with distinct names every entry in use is found. -/
theorem lookup_eq_some (hx : x.Distinct) {p : Nat × Nat} :
    x.lookup name = some p ↔ ∃ k, x.Names name k ∧ (x.ent k, DESIZE * k) = p := by
  unfold Node.lookup
  rw [Option.map_eq_some_iff]
  refine exists_congr fun k => and_congr_left fun _ => ⟨fun h => ?_, fun h => ?_⟩
  · have := List.find?_some h
    exact of_decide_eq_true this
  · cases hf : (List.range (x.size / DESIZE)).find? fun k => x.Names name k with
    | none =>
      have := List.find?_eq_none.mp hf k (List.mem_range.mpr (ent_lt h.1))
      rw [decide_eq_true_eq] at this
      exact absurd h this
    | some j =>
      have hj := List.find?_some hf
      rw [decide_eq_true_eq] at hj
      rw [hx j k hj.1 h.1 (hj.2.trans h.2.symm)]

/-- Two maps agree if they bind the same names in the same places. -/
theorem lookup_ext {y : Node} {name' : Name} (hx : x.Distinct) (hy : y.Distinct)
    (h : ∀ k, y.Names name' k ↔ x.Names name k) (he : ∀ k, x.Names name k → y.ent k = x.ent k) :
    y.lookup name' = x.lookup name := by
  refine Option.ext fun p => ?_
  rw [lookup_eq_some hx, lookup_eq_some hy]
  refine exists_congr fun k => ?_
  rw [h k]
  exact and_congr_right fun hk => by rw [he k hk]

/-! ## Binding a name -/

theorem names_put {l : List UInt8} (hlen : l.length = DESIZE) (hk : DESIZE * k ≤ x.size) (m : Name) (j : Nat) :
    (x.put (DESIZE * k) l).Names m j ↔ if j = k then deInum l ≠ 0 ∧ key (deName l) = key m else x.Names m j := by
  unfold Node.Names Node.name
  rw [ent_put hlen hk, dirent_put hlen]
  split <;> rfl

theorem distinct_put {l : List UInt8} (hlen : l.length = DESIZE) (hk : DESIZE * k ≤ x.size) (hx : x.Distinct)
    (hnew : deInum l ≠ 0 → ∀ j, j ≠ k → x.ent j ≠ 0 → key (x.name j) ≠ key (deName l)) :
    (x.put (DESIZE * k) l).Distinct := by
  intro a b ha hb hab
  unfold Node.name at hab
  rw [ent_put hlen hk] at ha hb
  rw [dirent_put hlen, dirent_put hlen] at hab
  by_cases hak : a = k
  · by_cases hbk : b = k
    · exact hak.trans hbk.symm
    · rw [if_pos hak] at ha hab
      rw [if_neg hbk] at hb hab
      exact absurd hab.symm (hnew ha b hbk hb)
  · rw [if_neg hak] at ha hab
    by_cases hbk : b = k
    · rw [if_pos hbk] at hb hab
      exact absurd hab (hnew hb a hak ha)
    · rw [if_neg hbk] at hb hab
      exact hx a b ha hb hab

theorem distinct_link (inum : Nat) (hx : x.Distinct) (hk : DESIZE * k ≤ x.size) (hno : x.lookup name = none) :
    (x.put (DESIZE * k) (mkDirent inum name)).Distinct := by
  refine distinct_put (mkDirent_length inum name) hk hx fun _ j _ hj he => ?_
  rw [key_mkDirent] at he
  exact lacks_iff.mp (lookup_eq_none.mp hno) j ⟨hj, he⟩

variable {inum : Nat} (hin : 0 < inum ∧ inum < 65536)

include hin

theorem deInum_pos : deInum (mkDirent inum name) = inum := by
  rw [deInum_mkDirent]
  exact Nat.mod_eq_of_lt hin.2

theorem lookup_link (hx : x.Distinct) (hk : DESIZE * k ≤ x.size) (h0 : x.ent k = 0)
    (hno : x.lookup name = none) (m : Name) :
    (x.put (DESIZE * k) (mkDirent inum name)).lookup m = if key m = key name then some
    (inum, DESIZE * k) else x.lookup m := by
  have hlen := mkDirent_length inum name
  have hy := distinct_link inum hx hk hno
  split
  · next he =>
    refine (lookup_eq_some hy).mpr ⟨k, ?_, ?_⟩
    · rw [names_put hlen hk, if_pos rfl, deInum_pos hin, key_mkDirent]
      exact ⟨Nat.ne_of_gt hin.1, he.symm⟩
    · rw [ent_put hlen hk, if_pos rfl, deInum_pos hin]
  · next he =>
    refine lookup_ext hx hy (fun j => ?_) fun j hj => ?_
    · rw [names_put hlen hk]
      split
      · next hjk =>
        rw [key_mkDirent, hjk]
        exact iff_of_false (fun hm => he hm.2.symm) fun hm => hm.1 h0
      · exact .rfl
    · rw [ent_put hlen hk, if_neg]
      rintro rfl
      exact hj.1 h0

end

/-! ## Removing one -/

/-- What `sys_unlink` writes over an entry. -/
def noDirent : List UInt8 := List.replicate DESIZE 0

section

variable {x : Node} {name : Name} {k : Nat}

theorem distinct_unlink (hx : x.Distinct) (hk : DESIZE * k ≤ x.size) : (x.put (DESIZE * k) noDirent).Distinct :=
  distinct_put List.length_replicate hk hx fun h0 => absurd rfl h0

theorem lookup_unlink (hx : x.Distinct) (hk : x.Names name k) (m : Name) :
    (x.put (DESIZE * k) noDirent).lookup m = if key m = key name then none else x.lookup m := by
  have hlen : noDirent.length = DESIZE := List.length_replicate
  have hle : DESIZE * k ≤ x.size := Nat.le_trans (Nat.le_add_right _ _) (ent_ne hk.1)
  have hy := distinct_unlink hx hle
  split
  · next he =>
    refine lookup_eq_none.mpr (lacks_iff.mpr fun j hj => ?_)
    rw [names_put hlen hle] at hj
    split at hj
    · exact hj.1 rfl
    · next hjk => exact hjk (hx j k hj.1 hk.1 (hj.2.trans (he.trans hk.2.symm)))
  · next he =>
    refine lookup_ext hx hy (fun j => ?_) fun j hj => ?_
    · rw [names_put hlen hle]
      split
      · next hjk =>
        refine iff_of_false (fun hm => hm.1 rfl) fun hm => ?_
        rw [hjk] at hm
        exact he (hm.2.symm.trans hk.2)
      · exact .rfl
    · rw [ent_put hlen hle, if_neg]
      rintro rfl
      exact he (hj.2.symm.trans hk.2)

end

theorem gap_eq {x : Node} {k : Nat} (h0 : x.ent k = 0) (hk : ∀ j < k, x.ent j ≠ 0) : x.gap = k := by
  unfold Node.gap
  by_cases hlt : k < x.size / DESIZE
  · have hf : (List.range (x.size / DESIZE)).find? (fun k => x.ent k = 0) = some k := by
      refine List.find?_range_eq_some.mpr ⟨decide_eq_true h0, List.mem_range.mpr hlt, fun j hj => ?_⟩
      simp only [Bool.not_eq_true', decide_eq_false_iff_not]
      exact hk j hj
    rw [hf]
    rfl
  · have hle : k ≤ x.size / DESIZE := by
      cases k with
      | zero => exact Nat.zero_le _
      | succ k => exact ent_lt (hk k (Nat.lt_succ_self k))
    have hf : (List.range (x.size / DESIZE)).find? (fun k => x.ent k = 0) = none := by
      refine List.find?_eq_none.mpr fun j hj => ?_
      rw [decide_eq_true_eq]
      exact hk j (Nat.lt_of_lt_of_le (List.mem_range.mp hj) (Nat.le_of_not_lt hlt))
    rw [hf]
    exact (Nat.le_antisymm hle (Nat.le_of_not_lt hlt)).symm

theorem gap_free (x : Node) : x.ent x.gap = 0 := by
  unfold Node.gap
  cases hf : (List.range (x.size / DESIZE)).find? fun k => x.ent k = 0 with
  | none => exact Decidable.by_contra fun hne => absurd (ent_lt hne) (Nat.lt_irrefl _)
  | some k =>
    have := List.find?_some hf
    exact of_decide_eq_true this

theorem gap_le (x : Node) : DESIZE * x.gap ≤ x.size := by
  refine Nat.le_trans (Nat.mul_le_mul_left _ ?_) (Nat.mul_div_le x.size DESIZE)
  unfold Node.gap
  cases hf : (List.range (x.size / DESIZE)).find? fun k => x.ent k = 0 with
  | none => exact Nat.le_refl _
  | some k => exact Nat.le_of_lt (List.mem_range.mp (List.mem_of_find?_eq_some hf))

/-! ## Walks -/

/-- The inode that `path` starts from. -/
def origin (s : St) (cwd : Idx) (path : Name) : Nat := if path.head? = some slash then ROOTINO else (s.inode cwd).inum

/-- The inode that a walk from inode `i` gets to. -/
def walk (F : Nat → Node) : Nat → List Name → Option Nat
  | i, [] => some i
  | i, name :: rest =>
    if (F i).type = T_DIR then
      match (F i).lookup name with
      | some (j, _) => walk F j rest
      | none => none
    else none

/-- The directory that all names but the last lead to, and the last name. -/
def walkParent (F : Nat → Node) (i : Nat) (names : List Name) : Option (Nat × Name) :=
  match names.getLast? with
  | none => none
  | some name =>
    match walk F i names.dropLast with
    | some d => if (F d).type = T_DIR then some (d, name) else none
    | none => none

/-- What `namex` looks for. -/
def target (F : Nat → Node) (parent : Bool) (i : Nat) (names : List Name) : Option (Nat × Name) :=
  if parent then walkParent F i names else (walk F i names).map fun j => (j, [])

section

variable {F : Nat → Node} {i : Nat} {name : Name} {rest : List Name}

theorem walk_cons (h : (F i).type = T_DIR) :
    walk F i (name :: rest) = ((F i).lookup name).bind fun p => walk F p.1 rest := by
  rw [walk, if_pos h]
  cases (F i).lookup name <;> rfl

theorem walk_file (h : (F i).type ≠ T_DIR) : walk F i (name :: rest) = none := by rw [walk, if_neg h]

theorem walkParent_one : walkParent F i [name] = if (F i).type = T_DIR then some (i, name) else none := rfl

theorem walkParent_cons (h : (F i).type = T_DIR) (hr : rest ≠ []) :
    walkParent F i (name :: rest) = ((F i).lookup name).bind fun p => walkParent F p.1 rest := by
  obtain ⟨r, rs, rfl⟩ := List.exists_cons_of_ne_nil hr
  unfold walkParent
  rw [List.dropLast_cons_cons, walk_cons h]
  cases (F i).lookup name with
  | none => cases (r :: rs).getLast? <;> rfl
  | some p => rfl

theorem walkParent_file (h : (F i).type ≠ T_DIR) : walkParent F i (name :: rest) = none := by
  cases rest with
  | nil => rw [walkParent_one, if_neg h]
  | cons r rs =>
    unfold walkParent
    rw [List.dropLast_cons_cons, walk_file h]
    cases (name :: r :: rs).getLast? <;> rfl

theorem walkParent_dir {names : List Name} {d : Nat} (h : walkParent F i names = some (d, name)) :
    (F d).type = T_DIR := by
  unfold walkParent at h
  grind

/-- The last name is looked up in the parent. -/
theorem walk_parent (names : List Name) : ∀ i, names ≠ [] →
    walk F i names = (walkParent F i names).bind fun p => ((F p.1).lookup p.2).map Prod.fst := by
  induction names with
  | nil => exact fun i h => absurd rfl h
  | cons name rest ih =>
    intro i _
    by_cases hd : (F i).type = T_DIR
    · rw [walk_cons hd]
      by_cases hr : rest = []
      · rw [hr, walkParent_one, if_pos hd, Option.bind_some]
        cases (F i).lookup name <;> rfl
      · rw [walkParent_cons hd hr]
        cases (F i).lookup name with
        | none => rfl
        | some p => exact ih p.1 hr
    · rw [walk_file hd, walkParent_file hd]
      rfl

variable {parent : Bool}

theorem target_nil : target F parent i [] = if parent then none else some (i, []) := by
  cases parent <;> rfl

theorem target_file (h : (F i).type ≠ T_DIR) : target F parent i (name :: rest) = none := by
  unfold target
  rw [walkParent_file h, walk_file h, Option.map_none, ite_self]

theorem target_last (h : (F i).type = T_DIR) (hp : parent = true ∧ rest = []) :
    target F parent i (name :: rest) = some (i, name) := by
  unfold target
  rw [if_pos hp.1, hp.2, walkParent_one, if_pos h]

theorem target_cons (h : (F i).type = T_DIR) (hp : ¬ (parent = true ∧ rest = [])) :
    target F parent i (name :: rest) = ((F i).lookup name).bind fun p => target F parent p.1 rest := by
  unfold target
  split
  · next hpar => exact walkParent_cons h fun hr => hp ⟨hpar, hr⟩
  · rw [walk_cons h]
    cases (F i).lookup name <;> rfl

end

end Xv6.Fs
