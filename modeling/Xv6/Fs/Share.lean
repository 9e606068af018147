/-
  Xv6.Fs.Share — processes that write through one `struct file` (`kernel/file.c`:
  `filewrite`).

  Any number of processes have the file `f`. A call of `filewrite` goes on in steps: one
  `begin_op`, one section between `ilock` and `iunlock` (`writeSection`) and one `end_op`
  for each pass of its loop. The steps of all calls interleave, with each other and with
  whatever else the kernel does (`other`). The offset is read and moved in the section, so
  each section writes where the one before it stopped. A section that has to wait is tried
  again later; a call that panics counts as failed.
  - `filewrite_alone`: the steps of a call that nobody interrupts are `filewrite`.
  - `shared_reachable`: the processes may start from any state the kernel can be in.
  - `writes_consecutive`: if no write fails and nobody else changes the file, what was
    written is one range from the first offset on, section after section.

  Ghost state: `chunks`, what each section wrote and where.
-/

import Xv6.Fs.ByteArray
import Xv6.Fs.Consistency

namespace Xv6.Fs.Share

open Lib Vol

/-! ## The machine -/

inductive Pc where
  | beginOp
  | write
  /-- `writei` returned `r`. -/
  | endOp (r : Int)
  | returned
  | failed
  deriving DecidableEq, Repr

/-- A call of `filewrite`, by process `who`. -/
structure Call where
  who : Nat
  src : User
  n : Nat
  i : Nat
  pc : Pc

structure Chunk where
  call : Nat
  off : Nat
  bytes : List UInt8
  deriving DecidableEq, Repr

structure Mach where
  fs : St
  calls : List Call
  chunks : List Chunk

inductive Ev where
  | call (p : Nat) (src : User) (n : Nat)
  /-- Call `k` goes on. -/
  | go (k : Nat)
  /-- Somebody else does something. -/
  | other (t : St)

/-- `n1` of the loop. -/
def Call.next (c : Call) : Nat := min (c.n - c.i) writeMax

/-- How much of the call is in the file. -/
def Call.written (c : Call) : Nat :=
  match c.pc with
  | .endOp r => c.i + r.toNat
  | _ => c.i

def Call.over (c : Call) : Bool :=
  match c.pc with
  | .returned | .failed => true
  | _ => false

def Call.failing (c : Call) : Bool :=
  match c.pc with
  | .failed => true
  | .endOp r => r ≠ c.next
  | _ => false

variable (sb : Superblock) (f : Fin NFILE)

/-- A pass of `filewrite`'s loop, from `ilock` to `iunlock`. -/
def writeSection (src : User) (n i : Nat) : M Int := do
  let x ← getFile f
  ilock sb x.ip
  let r ← writei sb x.ip (fun k => src (i + k)) x.off (min (n - i) writeMax)
  if r > 0 then setFile f fun x => { x with off := add32 x.off r.toNat } else pure ()
  iunlock x.ip
  return r

/-- A step that did not return: it is tried again, or the kernel panicked. -/
def stopped (m : Mach) (k : Nat) (c : Call) (x : Panic) : Mach :=
  if x = .hang then m else { m with calls := m.calls.set k { c with pc := .failed } }

def goOn (m : Mach) (k : Nat) (c : Call) : Mach :=
  match c.pc with
  | .beginOp =>
    if c.i < c.n then
      match Fs.beginOp m.fs with
      | .ok (_, t) => { m with fs := t, calls := m.calls.set k { c with pc := .write } }
      | .error x => stopped m k c x
    else { m with calls := m.calls.set k { c with pc := .returned } }
  | .write =>
    match writeSection sb f c.src c.n c.i m.fs with
    | .ok (r, t) =>
      { fs := t, calls := m.calls.set k { c with pc := .endOp r },
        chunks := m.chunks ++ [⟨k, (m.fs.file f).off, srcBytes (fun j => c.src (c.i + j)) r.toNat⟩] }
    | .error x => stopped m k c x
  | .endOp r =>
    match Fs.endOp m.fs with
    | .ok (_, t) =>
      { m with
        fs := t
        calls := m.calls.set k
          (if r ≠ c.next then { c with pc := .failed } else { c with i := c.i + c.next, pc := .beginOp }) }
    | .error x => stopped m k c x
  | .returned | .failed => m

/-- A process makes one call at a time. -/
def step (m : Mach) : Ev → Mach
  | .call p src n =>
    if m.calls.any fun c => c.who = p ∧ c.over = false then m
    else
      let ok := (m.fs.file f).writable = true ∧ (m.fs.file f).type = .inode
      { m with calls := m.calls ++ [⟨p, src, n, 0, if ok then .beginOp else .failed⟩] }
  | .go k =>
    match m.calls[k]? with
    | some c => goOn sb f m k c
    | none => m
  | .other t => { m with fs := t }

/-! ## What the processes share -/

/-- The file `f` is inode `i` of the volume `V`. -/
structure Shared (i : Nat) (s : St) (V : Vol) : Prop where
  rep : Rep sb s V none
  sound : Sound sb V
  ref : 0 < (s.inode (s.file f).ip).ref
  inum : (s.inode (s.file f).ip).inum = i

/-- Nobody else changes the file: what else happens keeps the file system in order, the
    bytes of inode `i`, and all of `f` but the number of its users. -/
def Undisturbed (i : Nat) (m : Mach) : Ev → Prop
  | .other t => (∃ ref, t.file f = { m.fs.file f with ref := ref }) ∧
      ∀ V, Shared sb f i m.fs V → ∃ V', Shared sb f i t V' ∧ content V' i = content V i
  | _ => True

/-- One chunk after the other, from `off` on. -/
def Consecutive : Nat → List Chunk → Prop
  | _, [] => True
  | off, x :: xs => x.off = off ∧ Consecutive (off + x.bytes.length) xs

def bytes (l : List Chunk) : List UInt8 := l.flatMap Chunk.bytes

def ofCall (k : Nat) (l : List Chunk) : List Chunk := l.filter fun x => x.call = k

variable {sb f}

/-! ## Lists -/

theorem overwrite_middle {c p x q : List UInt8} {off : Nat} (h : off ≤ c.length) :
    ((overwrite c off (p ++ x ++ q)).drop (off + p.length)).take x.length = x := by
  have hlen : (c.take off ++ p).length = off + p.length := by
    rw [List.length_append, List.length_take]
    omega
  have hsplit : overwrite c off (p ++ x ++ q) =
      (c.take off ++ p) ++ (x ++ (q ++ c.drop (off + (p ++ x ++ q).length))) := by
    unfold overwrite
    simp only [List.append_assoc]
  rw [hsplit, List.drop_left' hlen, List.take_left' rfl]

variable {x : Chunk}

theorem consecutive_append : ∀ {l : List Chunk} {off : Nat}, Consecutive off l → x.off = off + (bytes l).length →
    Consecutive off (l ++ [x]) := by
  intro l
  induction l with
  | nil => exact fun _ hx => ⟨hx, trivial⟩
  | cons y ys ih =>
    intro off h hx
    refine ⟨h.1, ih h.2 ?_⟩
    rw [hx, bytes, List.flatMap_cons, List.length_append, Nat.add_assoc]
    rfl

theorem consecutive_off {p q : List Chunk} :
    ∀ {off : Nat}, Consecutive off (p ++ x :: q) → x.off = off + (bytes p).length := by
  induction p with
  | nil => exact fun h => h.1
  | cons y ys ih =>
    intro off h
    rw [ih h.2, bytes, bytes, List.flatMap_cons, List.length_append, Nat.add_assoc]

theorem consecutive_disjoint :
    ∀ {l : List Chunk} {off : Nat}, Consecutive off l → l.Pairwise fun x y => x.off + x.bytes.length ≤ y.off := by
  intro l
  induction l with
  | nil => exact fun _ => List.Pairwise.nil
  | cons x xs ih =>
    intro off h
    refine List.Pairwise.cons (fun y hy => ?_) (ih h.2)
    obtain ⟨p, q, rfl⟩ := List.append_of_mem hy
    rw [consecutive_off h.2, h.1]
    omega

@[simp] theorem bytes_append (l : List Chunk) (x : Chunk) : bytes (l ++ [x]) = bytes l ++ x.bytes := by simp [bytes]

theorem ofCall_append_same (l : List Chunk) (x : Chunk) :
    ofCall x.call (l ++ [x]) = ofCall x.call l ++ [x] := by simp [ofCall]

theorem ofCall_append_ne (l : List Chunk) {k : Nat} (h : x.call ≠ k) : ofCall k (l ++ [x]) = ofCall k l := by
  simp [ofCall, h]

/-! ## One section -/

section

theorem wp_getFile {E : Panic → Prop} {s : St} {Q : File → St → Prop} : wp (getFile f) Q E s = Q (s.file f) s := rfl

theorem wp_setFile {E : Panic → Prop} {s : St} {g : File → File} {Q : Unit → St → Prop} :
    wp (setFile f g) Q E s = Q () { s with file := upd s.file f (g (s.file f)) } := rfl

variable {s t : St} {V : Vol} {i : Nat}

variable {ip : Idx} {src : User} {n : Nat}

/-- The loop of `writei` gets to its end only over bytes that can be read. -/
theorem writeiFrom_reads (fuel : Nat) : ∀ tot off s, (∀ k < tot, (src k).isSome = true) →
    wp (writeiFrom sb ip src n fuel tot off) (fun r _ => r.1 = n → ∀ k < n, (src k).isSome = true)
      (fun _ => True) s := by
  induction fuel with
  | zero =>
    intro tot off s h hn
    exact hn ▸ h
  | succ fuel ih =>
    intro tot off s h
    refine wp_if (fun _ => ?_) fun _ hn => hn ▸ h
    refine wp_then (wp_any fun addr u => ?_)
    refine wp_if (fun _ hn => hn ▸ h) fun _ => ?_
    refine wp_if (fun hc => ?_) fun hc => ?_
    · exact fun hn => hn ▸ h
    · refine wp_then (wp_any fun _ v => ?_)
      refine ih _ _ _ fun k hk => ?_
      by_cases hkt : k < tot
      · exact h k hkt
      · have hok (hlt : k < tot + reach (fun k => (src k).isSome) tot (min (n - tot) (BSIZE - off % BSIZE))) :=
          reach_ok _ _ tot k (by omega) hlt
        exact hok (by omega)

theorem writei_reads {off : Nat} (s : St) :
    wp (writei sb ip src off n) (fun r _ => r = n → ∀ k < n, (src k).isSome = true) (fun _ => True) s := by
  unfold writei
  refine wp_if (fun _ hn => by omega) fun _ => wp_if (fun _ hn => by omega) fun _ => ?_
  refine wp_then (wp_mono (writeiFrom_reads n 0 off s fun k hk => absurd hk (Nat.not_lt_zero k)) fun r u hr => ?_)
  simp only [wp_bind, wp_setInode]
  exact wp_any fun _ _ hn => hr (by exact_mod_cast hn)

/-- `writei` of bytes that can all be read, when it returns their number. -/
theorem writei_filled (hl : sb.Layout) (h : Rep sb s V none) (hs : Sound sb V) (hp : Loaded s ip i) {off : Nat} :
    wp (writei sb ip src off n) (fun r t => r = n → ∃ V', (∀ k < n, (src k).isSome = true) ∧ off ≤ (V.ino i).size ∧
      Filled sb s V ip i src off n n t V') (fun _ => True) s := by
  by_cases hsrc : ∀ k < n, (src k).isSome = true
  · refine writei_spec (m := 0) hl h hp (loaded_live h hp) hs (.inl hsrc) costs_any (room_any fun _ => trivial)
      (fun _ hn => by omega) ?_
    intro r t V' hoff hf _ hn
    have hrn : r = n := by omega
    subst hrn
    exact ⟨V', hsrc, hoff, hf⟩
  · exact wp_mono (writei_reads s) fun r t hr hn => absurd (hr hn) hsrc

theorem writeSection_spec (hl : sb.Layout) (h : Shared sb f i s V) {k : Nat} (hpos : 0 < min (n - k) writeMax) :
    wp (writeSection sb f src n k) (fun r t => r = (min (n - k) writeMax : Nat) → ∃ V', Shared sb f i t V' ∧
      (s.file f).off ≤ (content V i).length ∧
      t.file f = { s.file f with off := (s.file f).off + min (n - k) writeMax } ∧
      content V' i = overwrite (content V i) (s.file f).off (srcBytes (fun j => src (k + j)) (min (n - k) writeMax)))
      (fun _ => True) s := by
  unfold writeSection
  generalize min (n - k) writeMax = n1 at hpos ⊢
  rw [wp_bind, wp_getFile, wp_bind]
  refine ilock_entry h.rep h.ref h.inum (fun _ => trivial) (fun _ => trivial) fun x _ hlock _ h1 hp1 => ?_
  have hfile : (setEntry s (s.file f).ip x).file = s.file := rfl
  have hlock1 : ((setEntry s (s.file f).ip x).inode (s.file f).ip).lock = true := by
    rw [setEntry_same]
    exact hlock
  generalize setEntry s (s.file f).ip x = u at h1 hp1 hfile hlock1 ⊢
  refine wp_then (wp_mono (writei_filled hl h1 h.sound hp1) fun r t hr => ?_)
  by_cases hn : r = n1
  · obtain ⟨V', hsrc, hoff, hf⟩ := hr hn
    have hft : t.file = s.file := hf.tame.file.trans hfile
    have hp2 := loaded_put hf.inode hp1
    have hlock2 : (t.inode (s.file f).ip).lock = true := by
      rw [hf.inode]
      simp only [putIno, upd_same]
      exact hlock1
    have hsize : (V'.ino i).size = max (V.ino i).size ((s.file f).off + n1) := by rw [hf.hdr]
    have hfits := (hf.rep.fits i (loaded_lt hf.rep hp2)).size
    have hoff' : add32 (s.file f).off r.toNat = (s.file f).off + n1 := by
      rw [hn, Int.toNat_natCast, add32, Nat.mod_eq_of_lt (by omega)]
    rw [if_pos (by omega), wp_bind, wp_setFile, wp_bind]
    refine iunlock_held (by exact hp2.ref) (by exact hlock2) ?_
    intro _
    have hfile2 : upd t.file f { t.file f with off := add32 (t.file f).off r.toNat } f =
        { s.file f with off := (s.file f).off + n1 } := by
      rw [upd_same, hft, hoff']
    refine ⟨V', ⟨?_, hf.sound, ?_, ?_⟩, ?_, hfile2, ?_⟩
    · refine rep_keep (rep_same hf.rep ?_ ?_) ?_ _ _
      · rfl
      · rfl
      · exact hp2.ref
    · show 0 < ((setEntry _ _ _).inode (upd t.file f _ f).ip).ref
      rw [hfile2, setEntry_same]
      exact hp2.ref
    · show ((setEntry _ _ _).inode (upd t.file f _ f).ip).inum = i
      rw [hfile2, setEntry_same]
      exact hp2.inum
    · rw [content_length]
      exact hoff
    · exact overwrite_content hoff hsize fun x _ => hf.exact hsrc x
  · have hrest (v : St) : wp (iunlock (s.file f).ip >>= fun _ => pure r) (fun r' _ => r' = (n1 : Int) → False)
        (fun _ => True) v := by
      exact wp_then (wp_any fun _ _ => hn)
    refine wp_if (fun _ => ?_) fun _ => wp_mono (hrest t) fun _ _ hne h => (hne h).elim
    exact wp_mono (hrest _) fun _ _ hne h => (hne h).elim

theorem shared_same (h : Shared sb f i s V) (hdata : t.data = s.data) (hino : t.inode = s.inode)
    (hfile : t.file = s.file) : Shared sb f i t V :=
  ⟨rep_same h.rep hdata hino, h.sound, by rw [hino, hfile]; exact h.ref, by rw [hino, hfile]; exact h.inum⟩

theorem beginOp_same (hb : Fs.beginOp s = .ok ((), t)) : t.data = s.data ∧ t.inode = s.inode ∧ t.file = s.file := by
  have h : wp Fs.beginOp (fun _ t => t.data = s.data ∧ t.inode = s.inode ∧ t.file = s.file) (fun _ => True) s := by
    unfold Fs.beginOp
    rw [wp_bind, wp_get]
    split
    · exact ⟨rfl, rfl, rfl⟩
    · trivial
  have ht := wp_ok h hb
  exact ht

theorem endOp_same (hb : Fs.endOp s = .ok ((), t)) : t.data = s.data ∧ t.inode = s.inode ∧ t.file = s.file := by
  have h : wp Fs.endOp (fun _ t => t.data = s.data ∧ t.inode = s.inode ∧ t.file = s.file) (fun _ => True) s := by
    unfold Fs.endOp
    rw [wp_bind, wp_get]
    split
    · trivial
    · exact wp_if (fun _ => ⟨rfl, rfl, rfl⟩) fun _ => ⟨rfl, rfl, rfl⟩
  have ht := wp_ok h hb
  exact ht

end

/-! ## Steps -/

section

variable {m : Mach} {k i off : Nat} {c : Call} {old : List UInt8}

inductive Went (sb : Superblock) (f : Fin NFILE) (m : Mach) (k : Nat) (c : Call) : Mach → Prop
  | waits : Went sb f m k c m
  | fails (t : St) : Went sb f m k c { m with fs := t, calls := m.calls.set k { c with pc := .failed } }
  | begins (t : St) : c.pc = .beginOp → c.i < c.n → Fs.beginOp m.fs = .ok ((), t) →
      Went sb f m k c { m with fs := t, calls := m.calls.set k { c with pc := .write } }
  | returns : c.pc = .beginOp → ¬ c.i < c.n →
    Went sb f m k c { m with calls := m.calls.set k { c with pc := .returned } }
  | writes (r : Int) (t : St) : c.pc = .write → writeSection sb f c.src c.n c.i m.fs = .ok (r, t) →
      Went sb f m k c { fs := t, calls := m.calls.set k { c with pc := .endOp r },
                        chunks := m.chunks ++ [⟨k, (m.fs.file f).off, srcBytes (fun j => c.src (c.i + j)) r.toNat⟩] }
  | ends (t : St) : c.pc = .endOp c.next → Fs.endOp m.fs = .ok ((), t) →
      Went sb f m k c { m with fs := t, calls := m.calls.set k { c with i := c.i + c.next, pc := .beginOp } }

theorem stopped_went (x : Panic) : Went sb f m k c (stopped m k c x) := by
  unfold stopped
  split
  · exact .waits
  · exact .fails m.fs

theorem goOn_went : Went sb f m k c (goOn sb f m k c) := by
  unfold goOn
  split
  · next hpc =>
    split
    · next hlt =>
      split
      · next t ht => exact .begins t hpc hlt ht
      · exact stopped_went _
    · next hlt => exact .returns hpc hlt
  · next hpc =>
    split
    · next r t ht => exact .writes r t hpc ht
    · exact stopped_went _
  · next r hpc =>
    split
    · next t ht =>
      split
      · exact .fails t
      · next hr => exact .ends t (by rw [hpc, Decidable.not_not.mp hr]) ht
    · exact stopped_went _
  · exact .waits
  · exact .waits

/-- Call `k` is `c`, and is replaced by `c'`. -/
theorem set_some {l : List Call} {j : Nat} {c' d : Call} (h : (l.set k c')[j]? = some d) :
    j = k ∧ d = c' ∨ j ≠ k ∧ l[j]? = some d := by
  rw [List.getElem?_set] at h
  split at h
  · next hjk =>
    split at h
    · exact .inl ⟨hjk.symm, (Option.some.inj h).symm⟩
    · cases h
  · next hjk => exact .inr ⟨fun e => hjk e.symm, h⟩

/-- A call that has failed, or is about to, stays so. -/
theorem failing_step {e : Ev} (h : ∃ c ∈ m.calls, c.failing = true) :
    ∃ c ∈ (step sb f m e).calls, c.failing = true := by
  obtain ⟨d, hd, hf⟩ := h
  cases e with
  | call p src n =>
    simp only [step]
    split
    · exact ⟨d, hd, hf⟩
    · exact ⟨d, List.mem_append_left _ hd, hf⟩
  | other t => exact ⟨d, hd, hf⟩
  | go k =>
    simp only [step]
    split
    · next c hc =>
      obtain ⟨j, hj⟩ := List.mem_iff_getElem?.mp hd
      -- another call's step leaves it alone; its own can only make it fail
      have hset {c' : Call} (h' : j = k → c'.failing = true) : ∃ x ∈ m.calls.set k c', x.failing = true := by
        by_cases hjk : j = k
        · obtain ⟨hlt, _⟩ := List.getElem?_eq_some_iff.mp hc
          exact ⟨c', List.mem_iff_getElem?.mpr ⟨k, List.getElem?_set_self hlt⟩, h' hjk⟩
        · exact ⟨d, List.mem_iff_getElem?.mpr ⟨j, by rw [List.getElem?_set_ne fun e => hjk e.symm]; exact hj⟩, hf⟩
      have hcd (hjk : j = k) : c.failing = true := by
        rw [hjk, hc] at hj
        rw [Option.some.inj hj]
        exact hf
      have hwent := (goOn_went : Went sb f m k c _)
      generalize goOn sb f m k c = m' at hwent ⊢
      cases hwent with
      | waits => exact ⟨d, hd, hf⟩
      | fails t => exact hset fun _ => rfl
      | begins t hpc | returns hpc | writes r t hpc | ends t hpc =>
        exact hset fun hjk => by simp [Call.failing, hpc] at hcd; exact absurd hjk hcd
    · exact ⟨d, hd, hf⟩

theorem failing_run (es : List Ev) :
    ∀ m, (∃ c ∈ m.calls, c.failing = true) → ∃ c ∈ (run (step sb f) m es).calls, c.failing = true := by
  induction es with
  | nil => exact fun m h => h
  | cons e es ih => exact fun m h => ih _ (failing_step h)

/-! ## One call alone -/

theorem filewriteFrom_succ (src : User) (n fuel j : Nat) : filewriteFrom sb f src n (fuel + 1) j =
    if j < n then
      Fs.beginOp >>= fun _ => writeSection sb f src n j >>= fun r => Fs.endOp >>= fun _ =>
        if r ≠ (min (n - j) writeMax : Nat) then pure j else filewriteFrom sb f src n fuel (j + min (n - j) writeMax)
    else pure j := by
  rw [filewriteFrom]
  split
  · unfold writeSection
    simp only [bind_assoc]
    congr 1
    funext _
    congr 1
    funext x
    congr 1
    funext _
    congr 1
    funext r
    split
    · simp only [bind_assoc, pure_bind]
    · simp only [bind_assoc, pure_bind]
  · rfl

/-- The steps of a call that nobody interrupts are those of `filewrite`'s loop. -/
theorem filewrite_alone (p : Nat) (src : User) (n fuel : Nat) :
    ∀ (j : Nat) (s : St) (l : List Chunk) (j' : Nat) (t : St), n ≤ j + fuel →
    filewriteFrom sb f src n fuel j s = .ok (j', t) → ∃ k l', run (step sb f) ⟨s, [⟨p, src, n, j, .beginOp⟩], l⟩
      (List.replicate k (.go 0)) =
      ⟨t, [⟨p, src, n, j', if j' < n then .failed else .returned⟩], l'⟩ := by
  have hlast (j : Nat) (s : St) (l : List Chunk) (hj : ¬ j < n) : run (step sb f)
    ⟨s, [⟨p, src, n, j, .beginOp⟩], l⟩ (List.replicate 1 (.go 0)) =
      ⟨s, [⟨p, src, n, j, if j < n then .failed else .returned⟩], l⟩ := by
    simp [run, step, goOn, hj]
  induction fuel with
  | zero =>
    intro j s l j' t hn h
    obtain ⟨rfl, rfl⟩ := Prod.mk.inj (Except.ok.inj h)
    exact ⟨1, l, hlast j s l (by omega)⟩
  | succ fuel ih =>
    intro j s l j' t hn h
    rw [filewriteFrom_succ] at h
    by_cases hj : j < n
    · rw [if_pos hj] at h
      obtain ⟨_, s1, h1, h⟩ := bind_ok h
      obtain ⟨r, s2, h2, h⟩ := bind_ok h
      obtain ⟨_, s3, h3, h⟩ := bind_ok h
      obtain ⟨x, hpass⟩ : ∃ x, run (step sb f) ⟨s, [⟨p, src, n, j, .beginOp⟩], l⟩ (List.replicate 3 (.go 0)) =
          ⟨s3, [if r ≠ (min (n - j) writeMax : Nat) then ⟨p, src, n, j, .failed⟩ else ⟨p,
            src, n, j + min (n - j) writeMax, .beginOp⟩],
            l ++ [x]⟩ := by
        refine ⟨⟨0, (s1.file f).off, srcBytes (fun q => src (j + q)) r.toNat⟩, ?_⟩
        simp only [List.replicate, run_cons, run_nil, step, goOn, List.getElem?_cons_zero,
          List.set_cons_zero, if_pos hj, h1, h2, h3]
        rfl
      by_cases hr : r ≠ (min (n - j) writeMax : Nat)
      · rw [if_pos hr] at h hpass
        obtain ⟨rfl, rfl⟩ := Prod.mk.inj (Except.ok.inj h)
        exact ⟨3, _, by rw [hpass, if_pos hj]⟩
      rw [if_neg hr] at h hpass
      have hmin : 0 < min (n - j) writeMax := Nat.lt_min.mpr ⟨by omega, by decide⟩
      obtain ⟨k, l', hrun⟩ := ih _ s3 (l ++ [x]) j' t (by omega) h
      refine ⟨3 + k, l', ?_⟩
      rw [List.replicate_add, run_append, hpass]
      exact hrun
    · rw [if_neg hj] at h
      obtain ⟨rfl, rfl⟩ := Prod.mk.inj (Except.ok.inj h)
      exact ⟨1, l, hlast j s l hj⟩

/-! ## The invariant -/

structure Good (l : List Chunk) (c : Call) : Prop where
  le : c.written ≤ c.n
  copied : bytes l = srcBytes c.src c.written
  count : l.length = (c.written + (writeMax - 1)) / writeMax
  aligned : c.written % writeMax = 0 ∨ c.written = c.n
  busy : c.pc = .write → c.i < c.n
  returned : c.pc = .returned → c.written = c.n

/-- From offset `off` on the chunks stand in what was the file `old`. -/
structure Inv (sb : Superblock) (f : Fin NFILE) (i off : Nat) (old : List UInt8) (m : Mach) : Prop where
  shared : ∃ V, Shared sb f i m.fs V ∧ content V i = overwrite old off (bytes m.chunks)
  fits : m.chunks = [] ∨ off ≤ old.length
  here : (m.fs.file f).off = off + (bytes m.chunks).length
  runs : Consecutive off m.chunks
  calls : ∀ k c, m.calls[k]? = some c → Good (ofCall k m.chunks) c
  known : ∀ x ∈ m.chunks, x.call < m.calls.length

theorem good_new {c : Call} (hi : c.i = 0) (hpc : c.pc = .beginOp ∨ c.pc = .failed) : Good [] c := by
  have hw : c.written = 0 := by
    rcases hpc with hpc | hpc <;> rw [Call.written, hpc, hi]
  refine ⟨by omega, by rw [hw]; rfl, by rw [hw]; decide, .inl (by rw [hw]; decide), fun hp => ?_, fun hp => ?_⟩
  · rcases hpc with hpc | hpc <;> rw [hpc] at hp <;> cases hp
  · rcases hpc with hpc | hpc <;> rw [hpc] at hp <;> cases hp

variable {l : List Chunk}

theorem good_same (h : Good l c) {j : Nat} {pc : Pc} (hw : ({ c with i := j, pc := pc } : Call).written = c.written)
    (hb : pc = .write → j < c.n) (hr : pc = .returned → c.written = c.n) : Good l { c with i := j, pc := pc } :=
  ⟨by rw [hw]; exact h.le, by rw [hw]; exact h.copied, by rw [hw]; exact h.count, by rw [hw]; exact h.aligned,
    hb, fun hp => hw.trans (hr hp)⟩

theorem good_write {x : Chunk} (h : Good l c) (hpc : c.pc = .write)
    (hx : x.bytes = srcBytes (fun j => c.src (c.i + j)) c.next) :
    Good (l ++ [x]) { c with pc := .endOp c.next } := by
  have hlt := h.busy hpc
  have hi : c.written = c.i := by rw [Call.written, hpc]
  have hnext : c.next = min (c.n - c.i) 3072 := rfl
  have hmax : writeMax = 3072 := rfl
  have hw : ({ c with pc := .endOp c.next } : Call).written = c.i + c.next := rfl
  have hal := h.aligned
  have hcount := h.count
  rw [hmax] at hal hcount
  refine ⟨?_, ?_, ?_, ?_, (fun hp => by cases hp), fun hp => by cases hp⟩
  · show c.i + c.next ≤ c.n
    omega
  · rw [bytes_append, h.copied, hi, hx]
    exact (srcBytes_add _ _ _).symm
  · rw [hmax, List.length_append, List.length_singleton]
    omega
  · rw [hmax]
    show _ ∨ c.i + c.next = c.n
    omega

theorem inv_set (h : Inv sb f i off old m) {t : St} {c' : Call} (hdata : t.data = m.fs.data)
    (hino : t.inode = m.fs.inode) (hfile : t.file = m.fs.file) (hc : Good (ofCall k m.chunks) c') :
    Inv sb f i off old { m with fs := t, calls := m.calls.set k c' } := by
  obtain ⟨V, hV, hcont⟩ := h.shared
  refine ⟨⟨V, shared_same hV hdata hino hfile, hcont⟩, h.fits, by rw [hfile]; exact h.here,
    h.runs, fun j d hj => ?_, fun x hx => ?_⟩
  · rcases set_some hj with ⟨rfl, rfl⟩ | ⟨_, hd⟩
    · exact hc
    · exact h.calls j d hd
  · rw [List.length_set]
    exact h.known x hx

theorem inv_write (hl : sb.Layout) (h : Inv sb f i off old m) (hc : m.calls[k]? = some c) (hpc : c.pc = .write) {t : St}
    (hw : writeSection sb f c.src c.n c.i m.fs = .ok ((c.next : Int), t)) :
    Inv sb f i off old { fs := t, calls := m.calls.set k { c with pc := .endOp c.next },
                         chunks := m.chunks ++ [⟨k, (m.fs.file f).off,
                           srcBytes (fun j => c.src (c.i + j)) c.next⟩] } := by
  obtain ⟨V, hV, hcont⟩ := h.shared
  have hgood := h.calls k c hc
  have hlt := hgood.busy hpc
  have hnext : 0 < c.next := by
    unfold Call.next writeMax
    simp only [MAXOPBLOCKS, BSIZE]
    omega
  obtain ⟨V', hV', hroom, hfile, hcont'⟩ := wp_ok (writeSection_spec hl hV hnext) hw rfl
  have hlen : (srcBytes (fun j => c.src (c.i + j)) c.next).length = c.next := srcBytes_length _ _
  have hoff := h.here
  -- where the offset stands is where the bytes so far end
  have hold : off ≤ old.length := by
    rcases h.fits with hnil | hle
    · rw [hcont, hnil] at hroom
      simp [bytes, overwrite] at hroom
      omega
    · exact hle
  refine ⟨⟨V', hV', ?_⟩, .inr hold, ?_, consecutive_append h.runs hoff, fun j d hj => ?_, fun x hx => ?_⟩
  · rw [hcont', hcont, hoff, bytes_append]
    exact overwrite_append hold
  · show (t.file f).off = _
    rw [hfile, bytes_append, List.length_append, hlen, ← Nat.add_assoc, ← hoff]
    rfl
  · rcases set_some hj with ⟨rfl, rfl⟩ | ⟨hne, hd⟩
    · rw [ofCall_append_same m.chunks ⟨j, _, _⟩]
      exact good_write hgood hpc rfl
    · rw [ofCall_append_ne _ hne.symm]
      exact h.calls j d hd
  · rw [List.length_set]
    rcases List.mem_append.mp hx with hx | hx
    · exact h.known x hx
    · rw [List.mem_singleton.mp hx]
      exact (List.getElem?_eq_some_iff.mp hc).1

theorem inv_goOn (hl : sb.Layout) (h : Inv sb f i off old m) (hc : m.calls[k]? = some c)
    (hok : ∀ d ∈ (goOn sb f m k c).calls, d.failing = false) : Inv sb f i off old (goOn sb f m k c) := by
  have hgood := h.calls k c hc
  have hwent := (goOn_went : Went sb f m k c _)
  have hmem {c' : Call} : c' ∈ m.calls.set k c' :=
    List.mem_iff_getElem?.mpr ⟨k, List.getElem?_set_self (List.getElem?_eq_some_iff.mp hc).1⟩
  generalize goOn sb f m k c = m' at hwent hok ⊢
  cases hwent with
  | waits => exact h
  | fails t => exact absurd (hok _ hmem) Bool.noConfusion
  | begins t hpc hlt ht =>
    obtain ⟨h1, h2, h3⟩ := beginOp_same ht
    exact inv_set h h1 h2 h3 (good_same hgood (by rw [Call.written, Call.written, hpc]) (fun _ => hlt)
      fun hp => by cases hp)
  | returns hpc hlt =>
    have hw : c.written = c.i := by rw [Call.written, hpc]
    have hle := hgood.le
    exact inv_set h rfl rfl rfl (good_same hgood hw.symm (fun hp => by cases hp) fun _ => by omega)
  | writes r t hpc ht =>
    have hr : r = c.next := by
      have := of_decide_eq_false (hok _ hmem)
      exact Decidable.not_not.mp this
    subst hr
    exact inv_write hl h hc hpc ht
  | ends t hpc ht =>
    obtain ⟨h1, h2, h3⟩ := endOp_same ht
    have hw : c.written = c.i + c.next := by
      rw [Call.written, hpc]
      rfl
    exact inv_set h h1 h2 h3 (good_same hgood hw.symm (fun hp => by cases hp) fun hp => by cases hp)

theorem inv_step (hl : sb.Layout) (h : Inv sb f i off old m) {e : Ev} (he : Undisturbed sb f i m e)
    (hok : ∀ d ∈ (step sb f m e).calls, d.failing = false) : Inv sb f i off old (step sb f m e) := by
  cases e with
  | go k =>
    simp only [step] at hok ⊢
    split
    · next c hc =>
      rw [hc] at hok
      exact inv_goOn hl h hc hok
    · exact h
  | other t =>
    obtain ⟨V, hV, hcont⟩ := h.shared
    obtain ⟨⟨ref, hfile⟩, hkeep⟩ := he
    obtain ⟨V', hV', hsame⟩ := hkeep V hV
    refine ⟨⟨V', hV', hsame.trans hcont⟩, h.fits, ?_, h.runs, h.calls, h.known⟩
    show (t.file f).off = _
    rw [hfile]
    exact h.here
  | call p src n =>
    simp only [step] at hok ⊢
    split
    · exact h
    refine ⟨h.shared, h.fits, h.here, h.runs, fun j d hj => ?_, fun x hx => ?_⟩
    · by_cases hlt : j < m.calls.length
      · rw [List.getElem?_append_left hlt] at hj
        exact h.calls j d hj
      -- the new call, which has written nothing
      · have hnone : ofCall j m.chunks = [] := by
          refine List.filter_eq_nil_iff.mpr fun x hx => ?_
          have := h.known x hx
          simp only [decide_eq_true_eq]
          omega
        rw [List.getElem?_append_right (Nat.le_of_not_lt hlt)] at hj
        obtain rfl := List.mem_singleton.mp (List.mem_iff_getElem?.mpr ⟨_, hj⟩)
        rw [hnone]
        refine good_new rfl ?_
        split
        · exact .inl rfl
        · exact .inr rfl
    · rw [List.length_append]
      exact Nat.lt_add_right _ (h.known x hx)

theorem inv_run (hl : sb.Layout) (es : List Ev) :
    ∀ m, Inv sb f i off old m → Along (step sb f) (Undisturbed sb f i) m es →
    (∀ d ∈ (run (step sb f) m es).calls, d.failing = false) → Inv sb f i off old (run (step sb f) m es) := by
  induction es with
  | nil => exact fun m h _ _ => h
  | cons e es ih =>
    intro m h hes hok
    refine ih _ (inv_step hl h hes.1 fun d hd => ?_) hes.2 hok
    refine Bool.eq_false_iff.mpr fun hf => ?_
    obtain ⟨d', hd', hf'⟩ := failing_run es _ ⟨d, hd, hf⟩
    rw [hok d' hd'] at hf'
    cases hf'

/-- A call of at most one section has one chunk. -/
theorem good_short (h : Good l c) (hpos : 0 < c.n) (hmax : c.n ≤ writeMax) (hret : c.pc = .returned) :
    ∃ x, l = [x] ∧ x.bytes = srcBytes c.src c.n := by
  have hw := h.returned hret
  have hcount := h.count
  have hcopied := h.copied
  have hmax' : writeMax = 3072 := rfl
  rw [hmax'] at hcount
  rw [hw] at hcopied
  obtain ⟨x, rfl⟩ := List.length_eq_one_iff.mp (by omega : l.length = 1)
  refine ⟨x, rfl, ?_⟩
  rw [← hcopied]
  simp [bytes]

end

/-- After every run from a disk in order the state represents one volume, and every open
    inode is so shared. -/
theorem shared_reachable {disk : Nat → Block} (hd : InOrder sb disk) (es : List Fs.Ev) {s : St}
    (hs : run (Fs.step sb) (boot sb disk) es = .ok s) :
    ∃ V, Rep sb s V none ∧ Sound sb V ∧ ∀ f, (s.file f).Inoded → 0 < (s.inode (s.file f).ip).ref := by
  have hkept : Kept sb ⟨fun _ => True, False⟩ (run (Fs.step sb) (boot sb disk) es) :=
    kept_run hd False.elim (fun _ hj => absurd trivial hj) es
  rw [hs] at hkept
  obtain ⟨V, c, h, _⟩ := hkept
  refine ⟨V, h.rep, h.sound, fun f hf => ?_⟩
  rw [h.file] at hf ⊢
  have hpos := (h.files f hf).1
  rw [h.refs]
  omega

/-- If no write fails and nobody else changes the file, the chunks that any number of calls
    write through one `struct file` follow each other from its first offset on. -/
theorem writes_consecutive (sb : Superblock) (hl : sb.Layout) (f : Fin NFILE) (i : Nat) (s : St) (V : Vol)
    (hs : Shared sb f i s V) (es : List Ev) (hes : Along (step sb f) (Undisturbed sb f i) ⟨s, [], []⟩ es)
    (m : Mach) (hm : run (step sb f) ⟨s, [], []⟩ es = m) (hok : ∀ c ∈ m.calls, c.failing = false) :
    Consecutive (s.file f).off m.chunks ∧ (m.chunks.Pairwise fun x y => x.off + x.bytes.length ≤ y.off) ∧
      (m.fs.file f).off = (s.file f).off + (bytes m.chunks).length ∧
      (∃ V', Shared sb f i m.fs V' ∧ content V' i = overwrite (content V i) (s.file f).off (bytes m.chunks) ∧
        ∀ x ∈ m.chunks, ((content V' i).drop x.off).take x.bytes.length = x.bytes) ∧
      (∀ k c, m.calls[k]? = some c → bytes (ofCall k m.chunks) = srcBytes c.src c.written ∧
        (c.pc = .returned → c.written = c.n)) ∧
      ∀ k c, m.calls[k]? = some c → c.pc = .returned → 0 < c.n → c.n ≤ writeMax →
        ∃ x, ofCall k m.chunks = [x] ∧ x.bytes = srcBytes c.src c.n := by
  have h0 : Inv sb f i (s.file f).off (content V i) ⟨s, [], []⟩ := by
    refine ⟨⟨V, hs, ?_⟩, .inl rfl, rfl, trivial, (fun k c hc => by cases hc), fun x hx => by cases hx⟩
    simp [overwrite, bytes]
  have h : Inv sb f i (s.file f).off (content V i) m := by
    rw [← hm] at hok ⊢
    exact inv_run hl es _ h0 hes hok
  obtain ⟨V', hV', hcont⟩ := h.shared
  refine ⟨h.runs, consecutive_disjoint h.runs, h.here, ⟨V', hV', hcont, fun x hx => ?_⟩,
    fun k c hc => ?_, fun k c hc hret hpos hmax => ?_⟩
  · obtain ⟨p, q, hpq⟩ := List.append_of_mem hx
    have hoff : x.off = (s.file f).off + (bytes p).length := consecutive_off (hpq ▸ h.runs)
    have hle : (s.file f).off ≤ (content V i).length := by
      rcases h.fits with hnil | hle
      · rw [hnil] at hx
        cases hx
      · exact hle
    have hbytes : bytes m.chunks = bytes p ++ x.bytes ++ bytes q := by
      rw [hpq]
      simp [bytes]
    rw [hcont, hoff, hbytes]
    exact overwrite_middle hle
  · exact ⟨(h.calls k c hc).copied, (h.calls k c hc).returned⟩
  · exact good_short (h.calls k c hc) hpos hmax hret

theorem undisturbed_calls {i : Nat} (es : List Ev) :
    ∀ m, (∀ e ∈ es, ∀ t, e ≠ .other t) → Along (step sb f) (Undisturbed sb f i) m es := by
  induction es with
  | nil => exact fun _ _ => trivial
  | cons e es ih =>
    intro m h
    refine ⟨?_, ih _ fun x hx => h x (.tail _ hx)⟩
    cases e with
    | other t => exact absurd rfl (h _ List.mem_cons_self t)
    | call p src n | go k => trivial

/-! ## Two writers -/

namespace Pair

def file : Fin NFILE := ⟨0, Nat.zero_lt_succ 99⟩

/-- The sample file, open for writing at offset 1020. -/
def st : St :=
  { setEntry Sample.st Sample.ip { Sample.st.inode Sample.ip with lock := false } with
    file := fun _ => ⟨.inode, 2, true, true, 0, Sample.ip, 1020, 0⟩
    log := idle }

def letters (x : UInt8) : User := fun _ => some x

/-- Both have begun their operation before the second call writes, then the first. -/
def es : List Ev :=
  [.call 1 (letters 97) 4, .call 2 (letters 98) 5, .go 0, .go 1, .go 1, .go 0, .go 0, .go 1, .go 0, .go 1]

theorem shared : Shared Sample.sb file 1 st (view Sample.sb Sample.st) :=
  ⟨rep_same (rep_keep Sample.rep Sample.loaded.ref _ _) rfl rfl, Sample.sound, by decide, by decide⟩

end Pair

/-- The second call's five bytes, then the first one's four. -/
theorem writes_consecutive_pair :
    (run (step Sample.sb Pair.file) ⟨Pair.st, [], []⟩ Pair.es).chunks =
    [⟨1, 1020, [98, 98, 98, 98, 98]⟩, ⟨0, 1025, [97, 97, 97, 97]⟩] ∧
      ((run (step Sample.sb Pair.file) ⟨Pair.st, [], []⟩ Pair.es).fs.file Pair.file).off =
        1020 + (bytes (run (step Sample.sb Pair.file) ⟨Pair.st, [], []⟩ Pair.es).chunks).length := by
  refine ⟨by decide +kernel, ?_⟩
  have hok : ((run (step Sample.sb Pair.file) ⟨Pair.st, [], []⟩ Pair.es).calls.all fun c => !c.failing) = true := by
    decide +kernel
  refine (writes_consecutive Sample.sb Sample.layout Pair.file 1 Pair.st _ Pair.shared Pair.es ?_ _ rfl
    fun c hc => ?_).2.2.1
  · refine undisturbed_calls _ _ fun e he t heq => ?_
    subst heq
    simp [Pair.es] at he
  · simpa using List.all_eq_true.mp hok c hc

theorem filewrite_alone_four : ∃ j t k l,
    run (step Sample.sb Pair.file) ⟨Pair.st, [⟨1, Pair.letters 97, 4, 0, .beginOp⟩], []⟩ (List.replicate k (.go 0)) =
      ⟨t, [⟨1, Pair.letters 97, 4, j, if j < 4 then .failed else .returned⟩], l⟩ := by
  cases h : filewriteFrom Sample.sb Pair.file (Pair.letters 97) 4 4 0 Pair.st with
  | ok r => exact ⟨_, _, filewrite_alone 1 _ 4 4 0 _ [] r.1 r.2 (by decide) h⟩
  | error x => exact absurd (congrArg Except.toBool h) (by simp only [Except.toBool]; decide +kernel)

/-- `"/g"` is open. -/
theorem shared_reachable_tiny :
    ∃ s V, Tiny.runs 6 [.open initproc Tiny.file O_RDWR] = .ok s ∧ (s.file Pair.file).Inoded ∧
    Shared Tiny.sb Pair.file 2 s V := by
  obtain ⟨s, hs, hf, hi⟩ : ∃ s, Tiny.runs 6 [.open initproc Tiny.file O_RDWR] = .ok s ∧
    (s.file Pair.file).type = .inode ∧
      (s.inode (s.file Pair.file).ip).inum = 2 := Tiny.ends_ok (by decide +kernel)
  obtain ⟨V, hrep, hsound, href⟩ := shared_reachable Tiny.inOrder _ hs
  exact ⟨s, V, hs, .inl hf, hrep, hsound, href _ (.inl hf), hi⟩

end Xv6.Fs.Share
