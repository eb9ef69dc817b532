/-
  Xv6.Vm.Uvm — user page tables as the kernel builds and frees them (kernel/kalloc.c: `kfree`;
  kernel/vm.c: `mappages`, `uvmunmap`, `uvmcreate`, `uvmalloc`, `uvmdealloc`, `freewalk`,
  `uvmfree`, `uvmcopy`, `uvmclear`; kernel/proc.c: `proc_pagetable`, `proc_freepagetable`,
  `growproc`; kernel/sysproc.c: `sys_sbrk`).

  A size is a `uint64`: additions are taken modulo 2^64. The loops of the source are recursions
  on the number of rounds that are left; the source's own test stays in the body. `true` stands
  for the 0 that `mappages` and `uvmcopy` return, `false` for their -1.
-/

import Xv6.Vm.PageTable

namespace Xv6.Vm

open Xv6.Lib

/-! ## kernel/memlayout.h, kernel/kernel.sym -/

def physTop : Nat := 0x80000000 + 128 * 1024 * 1024

/-- `end`, the first address after the kernel. -/
def kernelEnd : Nat := 0x800237e0

/-- The page of trampoline.S. -/
def trampolinePage : Nat := 0x80006000

def trampoline : Nat := maxva - pgsize

def trapframeVa : Nat := trampoline - pgsize

def pgroundup (sz : Nat) : Nat := (sz + pgsize - 1) % 2 ^ 64 / pgsize * pgsize

/-- `PTE_R`, `PTE_W`, `PTE_X`, `PTE_U`. -/
def pteRBit : Nat := 2
def pteWBit : Nat := 4
def pteXBit : Nat := 8
def pteUBit : Nat := 16

/-- `PTE_FLAGS(pte)`. -/
def pteFlags (pte : Nat) : Nat := pte % 1024

/-- An `int` passed as a `uint64`. -/
def ofInt (n : Int) : Nat := (n % 2 ^ 64).toNat

/-! ## kernel/kalloc.c -/

def kfree (pa : Nat) : VmM Unit :=
  if pa % pgsize ≠ 0 ∨ pa < kernelEnd ∨ physTop ≤ pa then throw .kfree
  else do
    memsetPage pa 1
    let s ← get
    store pa (s.freelist.headD 0)
    modify fun s => { s with freelist := pa :: s.freelist }

/-! ## kernel/vm.c -/

/-- The loop of `mappages`. -/
def mapFrom (pagetable perm last : Nat) : Nat → Nat → Nat → VmM Bool
  | 0, _, _ => pure false
  | fuel + 1, a, pa => do
    let pte ← walk pagetable a true
    if pte = 0 then pure false
    else do
      let v ← load pte
      if pteV v then throw .remap
      else do
        store pte (pa2pte pa ||| perm ||| 1)
        if a = last then pure true else mapFrom pagetable perm last fuel ((a + pgsize) % 2 ^ 64) ((pa + pgsize) % 2 ^ 64)

def mappages (pagetable va size pa perm : Nat) : VmM Bool :=
  if va % pgsize ≠ 0 then throw .mapVa
  else if size % pgsize ≠ 0 then throw .mapSize
  else if size = 0 then throw .mapNone
  else mapFrom pagetable perm ((va + size - pgsize) % 2 ^ 64) (size / pgsize) va pa

/-- One round of `uvmunmap`. -/
def unmapPage (pagetable : Nat) (doFree : Bool) (a : Nat) : VmM Unit := do
  let pte ← walk pagetable a false
  if pte = 0 then throw .unmapWalk
  else do
    let v ← load pte
    if !pteV v then throw .unmapInvalid
    else if pteFlags v = 1 then throw .unmapTable
    else do
      if doFree then kfree (pte2pa v)
      store pte 0

def unmapFrom (pagetable : Nat) (doFree : Bool) (stop : Nat) : Nat → Nat → VmM Unit
  | 0, _ => pure ()
  | fuel + 1, a =>
    if a < stop then do
      unmapPage pagetable doFree a
      unmapFrom pagetable doFree stop fuel ((a + pgsize) % 2 ^ 64)
    else pure ()

def uvmunmap (pagetable va npages : Nat) (doFree : Bool) : VmM Unit :=
  if va % pgsize ≠ 0 then throw .unmapVa
  else unmapFrom pagetable doFree ((va + npages * pgsize) % 2 ^ 64) npages va

def uvmcreate : VmM Nat := do
  let pagetable ← kalloc
  if pagetable = 0 then pure 0
  else do
    memsetPage pagetable 0
    pure pagetable

def uvmdealloc (pagetable oldsz newsz : Nat) : VmM Nat :=
  if oldsz ≤ newsz then pure oldsz
  else do
    if pgroundup newsz < pgroundup oldsz then
      -- `int npages`
      uvmunmap pagetable (pgroundup newsz) (ofInt (toInt32 ((pgroundup oldsz - pgroundup newsz) / pgsize % 2 ^ 32))) true
    pure newsz

/-- The loop of `uvmalloc`; `oldsz` is rounded up. -/
def uvmallocFrom (pagetable oldsz newsz xperm : Nat) : Nat → Nat → VmM Nat
  | 0, _ => pure newsz
  | fuel + 1, a =>
    if a < newsz then do
      let mem ← kalloc
      if mem = 0 then do
        let _ ← uvmdealloc pagetable a oldsz
        pure 0
      else do
        memsetPage mem 0
        let ok ← mappages pagetable a pgsize mem (pteRBit ||| pteUBit ||| xperm)
        if ok then uvmallocFrom pagetable oldsz newsz xperm fuel ((a + pgsize) % 2 ^ 64)
        else do
          kfree mem
          let _ ← uvmdealloc pagetable a oldsz
          pure 0
    else pure newsz

def uvmalloc (pagetable oldsz newsz xperm : Nat) : VmM Nat :=
  if newsz < oldsz then pure oldsz
  else uvmallocFrom pagetable (pgroundup oldsz) newsz xperm (newsz / pgsize + 1) (pgroundup oldsz)

/-- One round of `freewalk`; `free` is the recursive call. -/
def freeEntry (free : Nat → VmM Unit) (pagetable i : Nat) : VmM Unit := do
  let pte ← load (pagetable + 8 * i)
  if pteV pte && !pteLeaf pte then do
    free (pte2pa pte)
    store (pagetable + 8 * i) 0
  else if pteV pte then throw .freewalk
  else pure ()

/-- `depth` bounds the recursion. -/
def freewalk : Nat → Nat → VmM Unit
  | 0, _ => throw .depth
  | depth + 1, pagetable => do
    forTo (freeEntry (freewalk depth) pagetable) 512
    kfree pagetable

def uvmfree (pagetable sz : Nat) : VmM Unit := do
  if 0 < sz then uvmunmap pagetable 0 (pgroundup sz / pgsize) true
  freewalk 3 pagetable

/-- `memmove(dst, src, PGSIZE)`. -/
def copyPage (dst src : Nat) : VmM Unit :=
  modify fun s => { s with mem := fun b => if dst ≤ b ∧ b < dst + pgsize then s.mem (src + (b - dst)) else s.mem b }

/-- The loop of `uvmcopy`. -/
def uvmcopyFrom (old new sz : Nat) : Nat → Nat → VmM Bool
  | 0, _ => pure true
  | fuel + 1, i =>
    if i < sz then do
      let pte ← walk old i false
      if pte = 0 then throw .copyWalk
      else do
        let v ← load pte
        if !pteV v then throw .copyAbsent
        else do
          let mem ← kalloc
          if mem = 0 then do
            uvmunmap new 0 (i / pgsize) true
            pure false
          else do
            copyPage mem (pte2pa v)
            let ok ← mappages new i pgsize mem (pteFlags v)
            if ok then uvmcopyFrom old new sz fuel ((i + pgsize) % 2 ^ 64)
            else do
              kfree mem
              uvmunmap new 0 (i / pgsize) true
              pure false
    else pure true

def uvmcopy (old new sz : Nat) : VmM Bool := uvmcopyFrom old new sz (sz / pgsize + 1) 0

/-- `pte & ~PTE_U`. -/
def clearU (pte : Nat) : Nat := pte &&& (2 ^ 64 - 1 - 2 ^ 4)

def uvmclear (pagetable va : Nat) : VmM Unit := do
  let pte ← walk pagetable va false
  if pte = 0 then throw .clear
  else do
    let v ← load pte
    store pte (clearU v)

/-! ## kernel/proc.c -/

def procPagetable (trapframe : Nat) : VmM Nat := do
  let pagetable ← uvmcreate
  if pagetable = 0 then pure 0
  else do
    let ok ← mappages pagetable trampoline pgsize trampolinePage (pteRBit ||| pteXBit)
    if !ok then do
      uvmfree pagetable 0
      pure 0
    else do
      let ok ← mappages pagetable trapframeVa pgsize trapframe (pteRBit ||| pteWBit)
      if !ok then do
        uvmunmap pagetable trampoline 1 false
        uvmfree pagetable 0
        pure 0
      else pure pagetable

def procFreepagetable (pagetable sz : Nat) : VmM Unit := do
  uvmunmap pagetable trampoline 1 false
  uvmunmap pagetable trapframeVa 1 false
  uvmfree pagetable sz

/-- The new size, or `none` for -1. -/
def growproc (pagetable sz : Nat) (n : Int) : VmM (Option Nat) :=
  if 0 < n then do
    let sz1 ← uvmalloc pagetable sz (ofInt (sz + n)) pteWBit
    pure (if sz1 = 0 then none else some sz1)
  else if n < 0 then do
    let sz1 ← uvmdealloc pagetable sz (ofInt (sz + n))
    pure (some sz1)
  else pure (some sz)

/-- What `sbrk` returns, and the new `p->sz`. -/
def sysSbrk (pagetable sz : Nat) (n : Int) : VmM (Int × Nat) := do
  match ← growproc pagetable sz n with
  | none => pure (-1, sz)
  | some sz1 => pure (sz, sz1)

end Xv6.Vm
