/-
  Xv6.Bio.Cache — the buffer cache (kernel/bio.c; `virtio_disk_rw` of kernel/virtio_disk.c as
  far as it concerns which bytes move).

  Any number of processes use the cache together. One action runs a process through one
  section under `bcache.lock` or a buffer's sleep-lock: `bget` up to the `release`, its
  `acquiresleep`, the rest of `bread`, and so on. A process that has several buffers holds
  several sleep-locks; while it is inside a call it does nothing else.

  The disk is one disk. `virtio_disk_rw` computes the sector from `b->blockno` in 32 bits and
  does not look at `b->dev`.

  `log_write` (`Xv6.Log.Group`) calls `bpin` when it adds the block to the log, and otherwise
  leaves the cache alone; `install_trans` is `bread`, a store, `bwrite`, `bunpin` and `brelse`.
  Waking those who wait for a sleep-lock is left out, as is a disk that fails.

  Three fields of a buffer are not in the source: how often it is pinned, whether its bytes
  were changed since they were last written to the disk, and whether it was its present
  holder who did so. `events` is the history of `bread`s that returned and of stores.
-/

import Xv6.Lib.History
import Xv6.Lib.Reach
import Xv6.Lib.Ring
import Xv6.Param

namespace Xv6.Bio

open Xv6.Lib

variable {β : Type}

/-- Device and block number. -/
abbrev Key := Nat × Nat

/-- `struct buf`, without its links. -/
structure Buf (β : Type) where
  valid : Bool
  dev : Nat
  blockno : Nat
  /-- Who holds the sleep-lock. -/
  lock : Option Nat
  /-- A `uint` in the source; it stays small (`Refs.refcnt_le`). -/
  refcnt : Nat
  data : β
  pins : Nat
  dirty : Bool
  wrote : Bool

def Buf.key (b : Buf β) : Key := (b.dev, b.blockno)

inductive Panic
  | bgetNoBuffers
  | bwrite
  | brelse
  deriving DecidableEq

/-- Where a process is; `i` is the buffer. -/
inductive Pc
  | idle
  /-- In `bget` for block `k`, about to `acquiresleep`. -/
  | bget (i : Nat) (k : Key)
  /-- In `bread` for block `k`, with the sleep-lock. -/
  | bread (i : Nat) (k : Key)
  /-- In `brelse`, without the sleep-lock. -/
  | brelse (i : Nat)
  deriving DecidableEq

structure St (β : Type) where
  buf : Nat → Buf β
  links : Links Nat
  disk : Nat → β
  pc : Nat → Pc
  panic : Option Panic
  events : List (Event Key β)

/-- `&bcache.head`, after the buffers. -/
def head : Nat := nbuf

def St.setBuf (s : St β) (i : Nat) (b : Buf β) : St β := { s with buf := update s.buf i b }

def St.goto (s : St β) (p : Nat) (y : Pc) : St β := { s with pc := update s.pc p y }

/-! ## virtio_disk.c -/

/-- `b->blockno * (BSIZE / 512)`, a `uint`. -/
def sector (k : Key) : Nat := k.2 * 2 % 2 ^ 32

/-! ## bio.c -/

/-- The loop of `binit`, over the first `n` buffers. -/
def binitLinks : Nat → Links Nat
  | 0 => ⟨fun _ => head, fun _ => head⟩
  | n + 1 => (binitLinks n).push head n

/-- The state after `binit`; the bytes of a buffer that was not used do not matter. -/
def binit (disk : Nat → β) : St β where
  buf _ := ⟨false, 0, 0, none, 0, disk 0, 0, false, false⟩
  links := binitLinks nbuf
  disk := disk
  pc _ := .idle
  panic := none
  events := []

/-- `bget`, up to its `release`. -/
def bget (s : St β) (p : Nat) (k : Key) : St β :=
  match scan s.links.next head (fun i => (s.buf i).key == k) (nbuf + 1) (s.links.next head) with
  | some i => (s.setBuf i { s.buf i with refcnt := (s.buf i).refcnt + 1 }).goto p (.bget i k)
  | none =>
    match scan s.links.prev head (fun i => (s.buf i).refcnt == 0) (nbuf + 1) (s.links.prev head) with
    | some i =>
      (s.setBuf i { s.buf i with dev := k.1, blockno := k.2, valid := false, refcnt := 1, dirty := false,
                                 wrote := false }).goto p (.bget i k)
    | none => { s with panic := some .bgetNoBuffers }

/-- The `acquiresleep` at the end of `bget`. -/
def acquiresleep (s : St β) (p i : Nat) (k : Key) : St β :=
  (s.setBuf i { s.buf i with lock := some p, wrote := false }).goto p (.bread i k)

/-- `bread`, from `bget` on. -/
def bread (s : St β) (p i : Nat) (k : Key) : St β :=
  let b := s.buf i
  let b' := if b.valid then b else { b with data := s.disk (sector b.key), valid := true }
  { s.setBuf i b' with events := .load k b'.data :: s.events }.goto p .idle

/-- A holder changes the bytes. -/
def store (s : St β) (i : Nat) (d : β) : St β :=
  { s.setBuf i { s.buf i with data := d, dirty := true, wrote := true } with
    events := .store (s.buf i).key d :: s.events }

def bwrite (s : St β) (p i : Nat) : St β :=
  if (s.buf i).lock = some p then
    { s.setBuf i { s.buf i with dirty := false, wrote := false } with
      disk := update s.disk (sector (s.buf i).key) (s.buf i).data }
  else { s with panic := some .bwrite }

/-- `brelse`, up to its `releasesleep`. -/
def brelse (s : St β) (p i : Nat) : St β :=
  if (s.buf i).lock = some p then (s.setBuf i { s.buf i with lock := none }).goto p (.brelse i)
  else { s with panic := some .brelse }

/-- The rest of `brelse`. -/
def brelseRest (s : St β) (p i : Nat) : St β :=
  let s1 := (s.setBuf i { s.buf i with refcnt := (s.buf i).refcnt - 1 }).goto p .idle
  if (s.buf i).refcnt - 1 = 0 then { s1 with links := (s.links.unlink i).push head i } else s1

def bpin (s : St β) (i : Nat) : St β :=
  s.setBuf i { s.buf i with refcnt := (s.buf i).refcnt + 1, pins := (s.buf i).pins + 1 }

def bunpin (s : St β) (i : Nat) : St β :=
  s.setBuf i { s.buf i with refcnt := (s.buf i).refcnt - 1, pins := (s.buf i).pins - 1 }

/-! ## Runs -/

inductive Act (β : Type)
  | bread (p : Nat) (k : Key)
  | store (p i : Nat) (d : β)
  | bwrite (p i : Nat)
  | bpin (p i : Nat)
  | bunpin (p i : Nat)
  | brelse (p i : Nat)
  | step (p : Nat)

/-- Process `p` is in no call. -/
def St.free (s : St β) (p : Nat) : Prop := p < nproc ∧ s.pc p = .idle

instance (s : St β) (p : Nat) : Decidable (s.free p) := inferInstanceAs (Decidable (_ ∧ _))

/-- Process `p` has buffer `i`, from a `bread` that returned. -/
def St.holds (s : St β) (p i : Nat) : Prop := s.free p ∧ i < nbuf ∧ (s.buf i).lock = some p

instance (s : St β) (p i : Nat) : Decidable (s.holds p i) := inferInstanceAs (Decidable (_ ∧ _ ∧ _))

/-- The next step of process `p` in its call. -/
def advance (s : St β) (p : Nat) : Option (St β) :=
  match s.pc p with
  | .idle => none
  | .bget i k => if (s.buf i).lock = none then some (acquiresleep s p i k) else none
  | .bread i k => some (bread s p i k)
  | .brelse i => some (brelseRest s p i)

def act (s : St β) (a : Act β) : Option (St β) :=
  if s.panic ≠ none then none
  else match a with
    | .bread p k => if s.free p then some (bget s p k) else none
    | .store p i d => if s.holds p i then some (store s i d) else none
    | .bwrite p i => if s.free p ∧ i < nbuf then some (bwrite s p i) else none
    | .bpin p i => if s.holds p i then some (bpin s i) else none
    | .bunpin p i => if s.free p ∧ i < nbuf then some (bunpin s i) else none
    | .brelse p i => if s.free p ∧ i < nbuf then some (brelse s p i) else none
    | .step p => if p < nproc then advance s p else none

/-- How the cache may be used: for the blocks of `K`; a holder that has changed a buffer writes it or has it pinned
    before it releases it; a buffer that is unpinned was pinned, and has been written unless it stays pinned. -/
def Polite (K : Key → Prop) (s : St β) : Act β → Prop
  | .bread _ k => K k
  | .brelse _ i => (s.buf i).wrote = true → 0 < (s.buf i).pins
  | .bunpin _ i => 0 < (s.buf i).pins ∧ ((s.buf i).dirty = true → 1 < (s.buf i).pins)
  | _ => True

instance (K : Key → Prop) [DecidablePred K] (s : St β) : (a : Act β) → Decidable (Polite K s a)
  | .bread _ k => inferInstanceAs (Decidable (K k))
  | .brelse _ i => inferInstanceAs (Decidable ((s.buf i).wrote = true → 0 < (s.buf i).pins))
  | .bunpin _ i =>
    inferInstanceAs (Decidable (0 < (s.buf i).pins ∧ ((s.buf i).dirty = true → 1 < (s.buf i).pins)))
  | .store _ _ _ | .bwrite _ _ | .bpin _ _ | .step _ => inferInstanceAs (Decidable True)

abbrev Reached (disk : Nat → β) (K : Key → Prop) : St β → Prop := Reach act (Polite K) (binit disk)

end Xv6.Bio
