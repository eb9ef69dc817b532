/-
  Xv6.Virtio.Driver — the disk driver and the device (kernel/virtio_disk.c: `alloc_desc`,
  `free_desc`, `free_chain`, `alloc3_desc`, `virtio_disk_rw`, `virtio_disk_intr`).

  The driver's data is under `vdisk_lock`, which a process in `virtio_disk_rw` or the interrupt
  handler holds. The device takes no lock: it takes chain heads from the avail ring, in order,
  and finishes the requests it has taken in any order; a request is finished once, with status 0
  written where its chain says and its head put on the used ring. An action is one step of a
  process, of the handler, or of the device. What a process does under the lock is cut where the
  device could see a difference: the chain is formatted, the ring's slot written, the index
  increased. Processes asleep are woken by `wakeup`, or at any time (`kick`) since they may be
  killed.

  A process that calls `virtio_disk_rw(b, write)` holds `b->lock` (`owner`), so no two calls are
  under way for one buffer.

  `serial`, `completed` and `returned` are for the record: requests are numbered, and the device
  writes down which request it carried out, as the descriptors describe it.
-/

import Xv6.Lib.Reach
import Xv6.Lib.Update

namespace Xv6.Virtio

open Lib (update)

/-- `NUM`: descriptors, and slots of each ring. -/
def num : Nat := 8

/-- What a descriptor points to. -/
inductive Addr
  | null
  /-- `&disk.ops[i]`. -/
  | op (i : Nat)
  /-- `b->data`. -/
  | data (b : Nat)
  /-- `&disk.info[i].status`. -/
  | status (i : Nat)
  deriving DecidableEq, Repr

structure Desc where
  addr : Addr
  len : Nat
  flags : Nat
  next : Nat
  deriving DecidableEq, Repr

/-- `VRING_DESC_F_NEXT` and `VRING_DESC_F_WRITE`. -/
def fNext : Nat := 1
def fWrite : Nat := 2

/-- `struct virtio_blk_req`; `out` is the type `VIRTIO_BLK_T_OUT`. -/
structure Op where
  out : Bool
  reserved : Nat
  sector : Nat
  deriving DecidableEq, Repr

/-- A call of `virtio_disk_rw`. -/
structure Req where
  buf : Nat
  write : Bool
  sector : Nat
  deriving DecidableEq, Repr

/-- `uint64 sector = b->blockno * (BSIZE / 512)`, multiplied in 32 bits. -/
def sectorOf (blockno : Nat) : Nat := blockno * 2 % 2 ^ 32

structure Disk where
  desc : Nat → Desc
  /-- `avail->ring`, `avail->idx`. -/
  availRing : Nat → Nat
  availIdx : Nat
  /-- The ids in `used->ring`, and `used->idx`. -/
  usedRing : Nat → Nat
  usedIdx : Nat
  free : Nat → Bool
  /-- `disk.used_idx`: how far the driver has looked. -/
  lookedIdx : Nat
  infoB : Nat → Option Nat
  status : Nat → Nat
  ops : Nat → Op

inductive Panic
  | freeDesc1
  | freeDesc2
  | intrStatus
  /-- `b->disk = 0` through a null pointer. -/
  | nullBuf
  deriving DecidableEq, Repr

/-! ## Descriptors -/

def allocDesc (d : Disk) : Option (Nat × Disk) :=
  ((List.range num).find? fun i => d.free i).map fun i => (i, { d with free := update d.free i false })

def freeDesc (d : Disk) (i : Nat) : Except Panic Disk :=
  if num ≤ i then .error .freeDesc1
  else if d.free i then .error .freeDesc2
  else .ok { d with desc := update d.desc i ⟨.null, 0, 0, 0⟩, free := update d.free i true }

/-- The loop, with a bound: after `num` rounds the next descriptor would be free already. -/
def freeChainFrom : Nat → Disk → Nat → Except Panic Disk
  | 0, _, _ => .error .freeDesc2
  | fuel + 1, d, i =>
    let flag := (d.desc i).flags
    let nxt := (d.desc i).next
    (freeDesc d i).bind fun d => if flag &&& fNext ≠ 0 then freeChainFrom fuel d nxt else .ok d

def freeChain (d : Disk) (i : Nat) : Except Panic Disk := freeChainFrom (num + 1) d i

/-- `k` more descriptors after `idx`; if one is missing, those of `idx` are given back. -/
def allocLoop : Nat → Disk → List Nat → Except Panic (Disk × Option (List Nat))
  | 0, d, idx => .ok (d, some idx)
  | k + 1, d, idx =>
    match allocDesc d with
    | some (i, d) => allocLoop k d (idx ++ [i])
    | none => (idx.foldlM freeDesc d).map (·, none)

def alloc3Desc (d : Disk) : Except Panic (Disk × Option (List Nat)) := allocLoop 3 d []

/-! ## The chain of a request -/

/-- The driver's writes for request `q` with descriptors `i0`, `i1`, `i2`. -/
def format (d : Disk) (q : Req) (i0 i1 i2 : Nat) : Disk :=
  let flags := (if q.write then 0 else fWrite) ||| fNext
  { d with
    ops := update d.ops i0 ⟨q.write, 0, q.sector⟩
    desc := update (update (update d.desc i0 ⟨.op i0, 16, fNext, i1⟩) i1 ⟨.data q.buf, 1024, flags, i2⟩)
      i2 ⟨.status i0, 1, fWrite, 0⟩
    status := update d.status i0 0xff
    infoB := update d.infoB i0 (some q.buf) }

/-- What the device makes of the chain at `h`: the request, and where its status goes. -/
def decode (d : Disk) (h : Nat) : Option (Req × Nat) :=
  let d0 := d.desc h
  let d1 := d.desc d0.next
  let d2 := d.desc d1.next
  if d0.flags = fNext ∧ d2.flags = fWrite ∧ d0.len = 16 ∧ d1.len = 1024 ∧ d2.len = 1 then
    match d0.addr, d1.addr, d2.addr with
    | .op i, .data b, .status j =>
      -- the device may write the data of a read only
      if d1.flags = (if (d.ops i).out then 0 else fWrite) ||| fNext then some (⟨b, (d.ops i).out, (d.ops i).sector⟩, j)
      else none
    | _, _, _ => none
  else none

/-! ## Processes, handler and device -/

/-- A request that has its descriptors. -/
structure Request where
  req : Req
  idx : List Nat
  serial : Nat
  deriving DecidableEq, Repr

/-- `idx[0]`. -/
def Request.head (r : Request) : Nat := r.idx.headD 0

inductive Stage
  /-- Has the descriptors. -/
  | format
  /-- About to write the slot of the avail ring. -/
  | ring
  /-- About to increase `avail->idx`. -/
  | index
  /-- At the test `b->disk == 1`. -/
  | wait
  /-- In `sleep(b, &disk.vdisk_lock)`. -/
  | asleep
  /-- Woken, wants the lock. -/
  | woken
  deriving DecidableEq, Repr

inductive Pc
  | out
  /-- Wants the lock. -/
  | start (q : Req)
  /-- About to call `alloc3_desc`. -/
  | alloc (q : Req)
  /-- In `sleep(&disk.free[0], &disk.vdisk_lock)`. -/
  | noDesc (q : Req)
  | own (r : Request) (at_ : Stage)
  deriving DecidableEq, Repr

/-- Holds `vdisk_lock`. -/
def Pc.holds : Pc → Bool
  | .alloc _ | .own _ .format | .own _ .ring | .own _ .index | .own _ .wait => true
  | _ => false

def Pc.buf : Pc → Option Nat
  | .out => none
  | .start q | .alloc q | .noDesc q => some q.buf
  | .own r _ => some r.req.buf

/-- `wakeup(&disk.free[0])`. -/
def Pc.wakeFree : Pc → Pc
  | .noDesc q => .start q
  | pc => pc

/-- `wakeup(b)`. -/
def Pc.wakeBuf (b : Nat) : Pc → Pc
  | .own r .asleep => if r.req.buf = b then .own r .woken else .own r .asleep
  | pc => pc

inductive Holder
  | none
  | proc (p : Nat)
  | handler
  deriving DecidableEq, Repr

structure St where
  disk : Disk
  /-- `b->disk`. -/
  bdisk : Nat → Bool
  /-- Who holds `b->lock`. -/
  owner : Nat → Option Nat
  lock : Holder
  pc : Nat → Pc
  panic : Option Panic
  /-- The device: how far it has read the avail ring, and the heads it works on. -/
  seen : Nat
  pending : List Nat
  requests : Nat
  serial : Nat → Nat
  completed : List (Nat × Req)
  returned : List (Nat × Req)

inductive Act
  /-- A call `virtio_disk_rw(b, write)`. -/
  | rw (p b blockno : Nat) (write : Bool)
  | acquire (p : Nat)
  | step (p : Nat)
  | kick (p : Nat)
  /-- The handler takes the lock. -/
  | intr
  /-- One round of its loop, or its end. -/
  | loop
  | fetch
  | complete (h : Nat)
  deriving DecidableEq, Repr

def St.goto (s : St) (p : Nat) (pc : Pc) : St := { s with pc := update s.pc p pc }

/-- `alloc3_desc`, and `sleep` if it fails; giving descriptors back wakes those who wait. -/
def tryAlloc (s : St) (p : Nat) (q : Req) : St :=
  match alloc3Desc s.disk with
  | .error e => { s with panic := some e }
  | .ok (d, some idx) =>
    { s with disk := d, requests := s.requests + 1, pc := update s.pc p (.own ⟨q, idx, s.requests⟩ .format) }
  | .ok (d, none) =>
    -- if one was there at all, `free_desc` gave it back
    let pc := if (allocDesc s.disk).isSome then fun x => (s.pc x).wakeFree else s.pc
    { s with disk := d, lock := .none, pc := update pc p (.noDesc q) }

/-- The request is done: `info[].b = 0`, `free_chain`, `release`, return. -/
def finish (s : St) (p : Nat) (r : Request) : St :=
  match freeChain { s.disk with infoB := update s.disk.infoB r.head none } r.head with
  | .error e => { s with panic := some e }
  | .ok d =>
    { s with
      disk := d
      lock := .none
      pc := update (fun x => (s.pc x).wakeFree) p .out
      owner := update s.owner r.req.buf none
      returned := s.returned ++ [(r.serial, r.req)] }

/-- A process that holds the lock goes on. -/
def advance (s : St) (p : Nat) : Option St :=
  match s.pc p with
  | .alloc q => some (tryAlloc s p q)
  | .own r .format =>
    match r.idx with
    | [i0, i1, i2] =>
      some { s.goto p (.own r .ring) with
        disk := format s.disk r.req i0 i1 i2
        bdisk := update s.bdisk r.req.buf true
        serial := update s.serial i0 r.serial }
    | _ => none
  | .own r .ring =>
    some { s.goto p (.own r .index) with
      disk := { s.disk with availRing := update s.disk.availRing (s.disk.availIdx % num) r.head } }
  | .own r .index =>
    some { s.goto p (.own r .wait) with disk := { s.disk with availIdx := (s.disk.availIdx + 1) % 2 ^ 16 } }
  | .own r .wait =>
    if s.bdisk r.req.buf then some { s.goto p (.own r .asleep) with lock := .none } else some (finish s p r)
  | _ => none

/-- A round of the loop of `virtio_disk_intr`. -/
def intrRound (s : St) : St :=
  let id := s.disk.usedRing (s.disk.lookedIdx % num)
  if s.disk.status id ≠ 0 then { s with panic := some .intrStatus }
  else match s.disk.infoB id with
    | none => { s with panic := some .nullBuf }
    | some b =>
      { s with
        bdisk := update s.bdisk b false
        pc := fun p => (s.pc p).wakeBuf b
        disk := { s.disk with lookedIdx := (s.disk.lookedIdx + 1) % 2 ^ 16 } }

def act (s : St) (a : Act) : Option St :=
  if s.panic ≠ none then none
  else match a with
  | .rw p b blockno write =>
    if s.pc p = .out ∧ s.owner b = none then
      some { s.goto p (.start ⟨b, write, sectorOf blockno⟩) with owner := update s.owner b (some p) }
    else none
  | .acquire p =>
    match s.lock, s.pc p with
    | .none, .start q => some { s.goto p (.alloc q) with lock := .proc p }
    | .none, .own r .woken => some { s.goto p (.own r .wait) with lock := .proc p }
    | _, _ => none
  | .step p => advance s p
  | .kick p =>
    match s.pc p with
    | .noDesc q => some (s.goto p (.start q))
    | .own r .asleep => some (s.goto p (.own r .woken))
    | _ => none
  | .intr => if s.lock = .none then some { s with lock := .handler } else none
  | .loop =>
    if s.lock = .handler then
      if s.disk.lookedIdx = s.disk.usedIdx then some { s with lock := .none } else some (intrRound s)
    else none
  | .fetch =>
    if s.seen = s.disk.availIdx then none
    else some { s with pending := s.disk.availRing (s.seen % num) :: s.pending, seen := (s.seen + 1) % 2 ^ 16 }
  | .complete h =>
    if h ∈ s.pending then
      match decode s.disk h with
      | some (q, j) =>
        some { s with
          pending := s.pending.erase h
          completed := s.completed ++ [(s.serial h, q)]
          disk := { s.disk with
            status := update s.disk.status j 0
            usedRing := update s.disk.usedRing (s.disk.usedIdx % num) h
            usedIdx := (s.disk.usedIdx + 1) % 2 ^ 16 } }
      | none => none
    else none

/-- The state after `virtio_disk_init`. -/
def initial : St where
  disk := ⟨fun _ => ⟨.null, 0, 0, 0⟩, fun _ => 0, 0, fun _ => 0, 0, fun _ => true, 0, fun _ => none, fun _ => 0,
    fun _ => ⟨false, 0, 0⟩⟩
  bdisk _ := false
  owner _ := none
  lock := .none
  pc _ := .out
  panic := none
  seen := 0
  pending := []
  requests := 0
  serial _ := 0
  completed := []
  returned := []

abbrev Reached (s : St) : Prop := Lib.Reach act (fun _ _ => True) initial s

end Xv6.Virtio
