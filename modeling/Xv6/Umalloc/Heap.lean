/-
  Xv6.Umalloc.Heap — the user-level allocator (user/umalloc.c: `free`, `morecore`, `malloc`).

  Free memory is a circular list of headers, each followed by its block, in order of address;
  `base` is a header of size 0 in the program's own data. Sizes are counted in headers (16
  bytes) and kept in 32 bits. A heap here is what the headers in memory hold, by address, with
  `freep` (0 before the first call of `malloc`).

  `sbrk` is the environment: a list of answers says what each call does, -1 (`none`) or memory
  that starts some bytes above the end of what was handed out before. It hands out fewer than
  `limit` bytes in all. The loops take a bound on their rounds.
-/

import Xv6.Lib.Circle
import Xv6.Lib.Cover

namespace Xv6.Umalloc

open Lib (update)

structure Heap where
  /-- The `s.ptr` and `s.size` of the header at an address. -/
  ptr : Nat → Nat
  size : Nat → Nat
  freep : Nat
  /-- The end of the memory that `sbrk` has handed out, and its pieces (start and bytes). -/
  brk : Nat
  chunks : List (Nat × Nat)
  /-- What the next calls of `sbrk` do: the gap below the new memory, or -1. -/
  answers : List (Option Nat)

/-- `sizeof(Header)`. -/
def hdr : Nat := 16

/-- The bytes obtained from `sbrk` so far. -/
def Heap.obtained (h : Heap) : Nat := (h.chunks.map Prod.snd).sum

/-- `sbrk(k)` with the argument cut to an `int`. Memory is handed out or refused as the
answers say; a negative count gives memory back, or does nothing when there is less. -/
def sbrk (limit : Nat) (h : Heap) (k : Nat) : Heap × Option Nat :=
  let n := k % 2 ^ 32
  if n < 2 ^ 31 then
    match h.answers with
    | [] => (h, none)
    | none :: rest => ({ h with answers := rest }, none)
    | some gap :: rest =>
      if h.obtained + n < limit then
        ({ h with answers := rest, brk := h.brk + gap + n, chunks := (h.brk + gap, n) :: h.chunks },
          some (h.brk + gap))
      else ({ h with answers := rest }, none)
  else ({ h with brk := if h.brk < 2 ^ 32 - n then h.brk else h.brk - (2 ^ 32 - n) }, some h.brk)

def Heap.setFreep (h : Heap) (p : Nat) : Heap := { h with freep := p }

/-- `p->s.size += q->s.size; p->s.ptr = q->s.ptr`. -/
def Heap.merge (h : Heap) (p q : Nat) : Heap :=
  { h with size := update h.size p ((h.size p + h.size q) % 2 ^ 32), ptr := update h.ptr p (h.ptr q) }

/-- Where the search of `free` stops: `bp` lies between `p` and the next header, or past either
end of the list. -/
def between (h : Heap) (bp p : Nat) : Bool :=
  (p < bp && bp < h.ptr p) || (h.ptr p ≤ p && (p < bp || bp < h.ptr p))

/-- `bp` is joined to the block after `p`, or made to point to it. -/
def joinUp (h : Heap) (bp p : Nat) : Heap :=
  if bp + hdr * h.size bp = h.ptr p then h.merge bp (h.ptr p) else { h with ptr := update h.ptr bp (h.ptr p) }

/-- `p` is joined to `bp`, or made to point to it. -/
def joinDown (h : Heap) (bp p : Nat) : Heap :=
  if p + hdr * h.size p = bp then h.merge p bp else { h with ptr := update h.ptr p bp }

def free (fuel : Nat) (h : Heap) (ap : Nat) : Option Heap :=
  let bp := ap - hdr
  (Lib.follow (between h bp) h.ptr fuel h.freep).map fun p =>
    (joinDown (joinUp h bp p) bp p).setFreep p

/-- The result 0 is a failed `sbrk`. -/
def morecore (limit fuel : Nat) (h : Heap) (nu : Nat) : Option (Heap × Nat) :=
  let nu := max nu 4096
  match sbrk limit h (nu * hdr) with
  | (h, none) => some (h, 0)
  | (h, some p) => (free fuel { h with size := update h.size p nu } (p + hdr)).map fun h => (h, h.freep)

/-- The headers that a request for `nbytes` takes, its own among them. -/
def nunits (nbytes : Nat) : Nat := ((nbytes + hdr - 1) / hdr + 1) % 2 ^ 32

/-- The block `p` after `prevp` is large enough: it is unlinked, or its tail is cut off. -/
def take (h : Heap) (prevp p nu : Nat) : Heap × Nat :=
  if h.size p = nu then ({ h with ptr := update h.ptr prevp (h.ptr p) }.setFreep prevp, p + hdr)
  else
    let size := update h.size p (h.size p - nu)
    let q := p + hdr * size p
    ({ h with size := update size q nu }.setFreep prevp, q + hdr)

/-- The loop of `malloc`, with `p` the header after `prevp`. -/
def search (limit nu : Nat) : Nat → Heap → Nat → Option (Heap × Nat)
  | 0, _, _ => none
  | fuel + 1, h, prevp =>
    let p := h.ptr prevp
    if nu ≤ h.size p then some (take h prevp p nu)
    else if p = h.freep then
      (morecore limit fuel h nu).bind fun r => if r.2 = 0 then some (r.1, 0) else search limit nu fuel r.1 r.2
    else search limit nu fuel h p

/-- The first call makes `base` the whole list. -/
def Heap.start (base : Nat) (h : Heap) : Heap :=
  if h.freep = 0 then { h with ptr := update h.ptr base base, size := update h.size base 0, freep := base } else h

def malloc (base limit fuel : Nat) (h : Heap) (nbytes : Nat) : Option (Heap × Nat) :=
  let h := h.start base
  search limit (nunits nbytes) fuel h h.freep

end Xv6.Umalloc
