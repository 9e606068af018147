/-
  Xv6.Vm.Vm — page tables (`kernel/vm.c`: `walk`, `mappages`, `uvmunmap`) over physical memory
  as `kernel/kalloc.c` hands it out, with the layout of addresses and page-table entries
  (`kernel/riscv.h`, `kernel/memlayout.h`).

  Memory is given page by page, under the address of the page. A `uint64` is a number below
  `2^64`; sums that can wrap are taken modulo that. A pointer to a page-table entry is the
  page it stands in and its index there. The free list is a list: that its links stand in
  the free pages themselves can be seen by nobody, since `kalloc` fills a page before it
  hands it out. Calls run one after another, and `kmem.lock` is left out. `kend` is where the
  linker puts `end`.
-/

import Xv6.Param
import Xv6.Lib.Bytes
import Xv6.Lib.Wp
import Xv6.Lib.Writes

namespace Xv6.Vm

open Lib

/-! ## riscv.h and memlayout.h -/

/-- One more than the largest `uint64`. -/
def W64 : Nat := 18446744073709551616

def add64 (a b : Nat) : Nat := (a + b) % W64

def sub64 (a b : Nat) : Nat := (a + (W64 - b)) % W64

def PTE_V : Nat := 1
def PTE_R : Nat := 2
def PTE_U : Nat := 16

def PA2PTE (pa : Nat) : Nat := pa >>> 12 <<< 10

def PTE2PA (pte : Nat) : Nat := (pte >>> 10 <<< 12) % W64

def PTE_FLAGS (pte : Nat) : Nat := pte &&& 0x3FF

def PX (level va : Nat) : Nat := va >>> (12 + 9 * level) &&& 0x1FF

/-- `1L << 38`. -/
def MAXVA : Nat := 274877906944

def PHYSTOP : Nat := 0x80000000 + 128 * 1024 * 1024

/-! ## State -/

abbrev Page := Bytes PGSIZE

/-- What `memset` leaves of a page. -/
def fill (x : UInt8) : Page := Bytes.ofFn fun _ => x

structure St where
  page : Nat → Page
  freelist : List Nat

inductive Panic where
  | kfree
  | walk
  | mappagesVa
  | mappagesSizeAligned
  | mappagesSize
  | mappagesRemap
  | uvmunmap
  deriving DecidableEq, Repr

def Panic.msg : Panic → String
  | .kfree => "kfree"
  | .walk => "walk"
  | .mappagesVa => "mappages: va not aligned"
  | .mappagesSizeAligned => "mappages: size not aligned"
  | .mappagesSize => "mappages: size"
  | .mappagesRemap => "mappages: remap"
  | .uvmunmap => "uvmunmap: not aligned"

abbrev M (α : Type) := Prog St Panic α

/-- `memset(pa, x, PGSIZE)`. -/
def memset (pa : Nat) (x : UInt8) : M Unit := modify fun s => { s with page := upd s.page pa (fill x) }

def pte (s : St) (pt i : Nat) : Nat := (s.page pt).getLE (8 * i) 8

def getPte (pt i : Nat) : M Nat := do return pte (← get) pt i

def setPte (pt i x : Nat) : M Unit :=
  modify fun s => { s with page := upd s.page pt ((s.page pt).putLE (8 * i) 8 x) }

/-! ## kalloc.c -/

def kalloc : M (Option Nat) := do
  let s ← get
  match s.freelist with
  | [] => return none
  | r :: rest =>
    set { s with freelist := rest }
    memset r 5
    return some r

def kfree (kend pa : Nat) : M Unit :=
  if pa % PGSIZE ≠ 0 ∨ pa < kend ∨ PHYSTOP ≤ pa then throw .kfree
  else do
    memset pa 1
    modify fun s => { s with freelist := pa :: s.freelist }

/-! ## vm.c -/

/-- One turn of `walk`'s loop: the page-table page a level down. -/
def walkLevel (pagetable va : Nat) (alloc : Bool) (level : Nat) : M (Option Nat) := do
  let x ← getPte pagetable (PX level va)
  if x &&& PTE_V ≠ 0 then return some (PTE2PA x)
  else if alloc then do
    match ← kalloc with
    | none => return none
    | some page =>
      memset page 0
      setPte pagetable (PX level va) (PA2PTE page ||| PTE_V)
      return some page
  else return none

def walk (pagetable va : Nat) (alloc : Bool) : M (Option (Nat × Nat)) :=
  if MAXVA ≤ va then throw .walk
  else do
    match ← walkLevel pagetable va alloc 2 with
    | none => return none
    | some pagetable =>
      match ← walkLevel pagetable va alloc 1 with
      | none => return none
      | some pagetable => return some (pagetable, PX 0 va)

/-- `mappages`'s loop from `a` on. -/
def mappagesFrom (pagetable last perm : Nat) : Nat → Nat → Nat → M Int
  | 0, _, _ => return 0
  | fuel + 1, a, pa => do
    match ← walk pagetable a true with
    | none => return -1
    | some (pt, i) =>
      let x ← getPte pt i
      if x &&& PTE_V ≠ 0 then throw .mappagesRemap
      else do
        setPte pt i (PA2PTE pa ||| perm ||| PTE_V)
        if a = last then return 0
        else mappagesFrom pagetable last perm fuel (add64 a PGSIZE) (add64 pa PGSIZE)

def mappages (pagetable va size pa perm : Nat) : M Int :=
  if va % PGSIZE ≠ 0 then throw .mappagesVa
  else if size % PGSIZE ≠ 0 then throw .mappagesSizeAligned
  else if size = 0 then throw .mappagesSize
  else mappagesFrom pagetable (sub64 (add64 va size) PGSIZE) perm (size / PGSIZE) va pa

/-- `uvmunmap`'s loop from `a` on, up to `stop`. -/
def uvmunmapFrom (kend pagetable stop : Nat) (doFree : Bool) : Nat → Nat → M Unit
  | 0, _ => return ()
  | fuel + 1, a =>
    if a < stop then do
      match ← walk pagetable a false with
      | none => uvmunmapFrom kend pagetable stop doFree fuel (add64 a PGSIZE)
      | some (pt, i) =>
        let x ← getPte pt i
        if x &&& PTE_V = 0 then uvmunmapFrom kend pagetable stop doFree fuel (add64 a PGSIZE)
        else do
          if doFree then kfree kend (PTE2PA x) else pure ()
          setPte pt i 0
          uvmunmapFrom kend pagetable stop doFree fuel (add64 a PGSIZE)
    else return ()

def uvmunmap (kend pagetable va npages : Nat) (doFree : Bool) : M Unit :=
  if va % PGSIZE ≠ 0 then throw .uvmunmap
  else uvmunmapFrom kend pagetable (add64 va (npages * PGSIZE % W64)) doFree npages va

end Xv6.Vm
