/-
  Xv6.Fs.Offset — one `struct file` of an inode, used by many processes (kernel/file.c:
  `fileread`, `filewrite`).

  `f->off` is read and advanced under the inode's sleep-lock. `filewrite` splits a long write into
  chunks and gives the lock up between them, so the chunks of several calls interleave. One action
  takes a process to the next point where another can run: `begin_op`, which waits for room in the
  log, `ilock`, `readi` or `writei`, the update of `f->off`, `iunlock`, `end_op`. A `panic` ends
  the run. `other` is what the rest of the kernel does meanwhile to other files: `Foreign`.

  The calls are those that the mode of the file allows, with `n` not negative and a valid buffer.
  `chunks` records the transfers in the order in which `f->off` was advanced.

  Proved: `shared_offset`, from one invariant for the lock and the file (`Locks`), one for the
  stream of chunks (`Stream`) and one for the calls (`Books`).
-/

import Xv6.Fs.Partial
import Xv6.Fs.Sysfile
import Xv6.Lib.Monitor
import Xv6.Lib.Reach
import Xv6.Lib.Tally

namespace Xv6.Fs.Offset

open Xv6.Lib

structure Call where
  id : Nat
  write : Bool
  n : Nat
  buf : Bytes
  /-- How many bytes are written. -/
  i : Nat

/-- What a process does next. -/
inductive Pc
  | loop
  | ilock
  | io
  /-- `readi` or `writei` has returned `r` and moved the bytes `l`. -/
  | advance (r : Int) (l : List UInt8)
  | iunlock (r : Int)
  | endOp (r : Int)

structure Proc where
  call : Call
  pc : Pc

structure Chunk where
  id : Nat
  write : Bool
  start : Nat
  bytes : List UInt8

structure Return where
  call : Call
  ret : Int

structure St where
  fs : Fs.St
  off : Nat
  /-- Who holds the inode's sleep-lock. -/
  holder : Option Nat
  proc : Nat → Option Proc
  next : Nat
  chunks : List Chunk
  returns : List Return

def St.goto (s : St) (p : Nat) (c : Call) (pc : Pc) : St := { s with proc := update s.proc p (some ⟨c, pc⟩) }

def St.leave (s : St) (p : Nat) (c : Call) (r : Int) : St :=
  { s with proc := update s.proc p none, returns := s.returns ++ [⟨c, r⟩] }

/-- `if(r > 0) f->off += r`. -/
def St.advance (s : St) (c : Call) (r : Int) (l : List UInt8) : St :=
  if 0 < r then { s with off := u32 (s.off + r.toNat), chunks := s.chunks ++ [⟨c.id, c.write, s.off, l⟩] } else s

@[simp] theorem goto_proc (s : St) (p : Nat) (c : Call) (pc : Pc) : (s.goto p c pc).proc = update s.proc p (some ⟨c, pc⟩) := rfl

/-- What the update of `f->off` leaves alone. -/
theorem advance_same (s : St) (c : Call) (r : Int) (l : List UInt8) :
    (s.advance c r l).proc = s.proc ∧ (s.advance c r l).fs = s.fs ∧ (s.advance c r l).holder = s.holder ∧
      (s.advance c r l).next = s.next ∧ (s.advance c r l).returns = s.returns := by
  unfold St.advance
  split <;> exact ⟨rfl, rfl, rfl, rfl, rfl⟩

/-- `n1`. -/
def Call.chunk (c : Call) : Nat := min (c.n - c.i) writeMax

/-- The user's bytes from `buf + i` on. -/
def Call.source (c : Call) : CopyIn := .user (fun _ => true) fun j => c.buf (c.i + j)

inductive Act
  | start (p : Nat) (write : Bool) (n : Nat) (buf : Bytes)
  | step (p : Nat)
  | other (fs : Fs.St)

section

variable (sb : Superblock) (ip : Nat)

def step (s : St) (p : Nat) : Option St :=
  match s.proc p with
  | none => none
  | some ⟨c, .loop⟩ =>
    if c.write = false then some (s.goto p c .ilock)
    else if c.i < c.n then
      if s.fs.lh.length + (s.fs.outstanding + 1) * maxopblocks ≤ logsize then
        some ({ s with fs := { s.fs with outstanding := s.fs.outstanding + 1 } }.goto p c .ilock)
      else none
    else some (s.leave p c (if c.i = c.n then c.n else -1))
  | some ⟨c, .ilock⟩ =>
    if s.holder = none then
      match ilock sb ip s.fs with
      | .ok (_, fs) => some ({ s with fs := fs, holder := some p }.goto p c .io)
      | .error _ => none
    else none
  | some ⟨c, .io⟩ =>
    if c.write then
      match writei sb ip s.off c.chunk c.source s.fs with
      | .ok (r, fs) => some ({ s with fs := fs }.goto p c (.advance r (slice c.buf c.i r.toNat)))
      | .error _ => none
    else
      match readi sb ip s.off c.n .kernel s.fs with
      | .ok ((l, r), fs) => some ({ s with fs := fs }.goto p c (.advance r l))
      | .error _ => none
  | some ⟨c, .advance r l⟩ => some ((s.advance c r l).goto p c (.iunlock r))
  | some ⟨c, .iunlock r⟩ =>
    match iunlock ip s.fs with
    | .ok (_, fs) =>
      if c.write then some ({ s with fs := fs, holder := none }.goto p c (.endOp r))
      else some ({ s with fs := fs, holder := none }.leave p c r)
    | .error _ => none
  | some ⟨c, .endOp r⟩ =>
    match endOp s.fs with
    | .ok (_, fs) =>
      if r = c.chunk then some ({ s with fs := fs }.goto p { c with i := c.i + r.toNat } .loop)
      else some ({ s with fs := fs }.leave p c (-1))
    | .error _ => none

def act (s : St) : Act → Option St
  | .start p write n buf =>
    if p < nproc ∧ (s.proc p).isNone ∧ n < 2 ^ 31 then
      some { s with next := s.next + 1, proc := update s.proc p (some ⟨⟨s.next, write, n, buf, 0⟩, .loop⟩) }
    else none
  | .step p => step sb ip s p
  | .other fs => some { s with fs := fs }

/-! ## What a step does -/

/-- The file system is in order, and the file's inode is in use. -/
structure InUse (fs : Fs.St) : Prop where
  ok : Ok sb True fs
  cached : fs.cached ip

/-- The file is as it was. -/
structure SameFile (fs fs' : Fs.St) : Prop where
  use : InUse sb ip fs'
  data : (node sb fs' ip).data = (node sb fs ip).data

/-- `readi` or `writei` at the shared offset returned `r` and moved the bytes `l`. -/
structure Transfer (s : St) (c : Call) (r : Int) (l : List UInt8) (fs : Fs.St) : Prop where
  use : InUse sb ip fs
  outstanding : fs.outstanding = s.fs.outstanding
  none : r ≤ 0 → (node sb fs ip).data = (node sb s.fs ip).data
  before : ∀ o < s.off, (node sb fs ip).data o = (node sb s.fs ip).data o
  bytes : 0 < r → l.length = r.toNat ∧ slice (node sb fs ip).data s.off r.toNat = l
  fits : 0 < r → s.off + r.toNat < 2 ^ 32
  written : 0 < r → c.write = true → l = slice c.buf c.i r.toNat ∧ r.toNat ≤ c.chunk

/-- The steps of process `p`. -/
inductive Step (s : St) (p : Nat) : St → Prop
  | enter (c : Call) (fs : Fs.St) : s.proc p = some ⟨c, .loop⟩ → (c.write = true → c.i < c.n) → SameFile sb ip s.fs fs →
      fs.outstanding = s.fs.outstanding + c.write.toNat → Step s p ({ s with fs := fs }.goto p c .ilock)
  | finish (c : Call) : s.proc p = some ⟨c, .loop⟩ → c.write = true → ¬c.i < c.n →
      Step s p (s.leave p c (if c.i = c.n then c.n else -1))
  | lock (c : Call) (fs : Fs.St) : s.proc p = some ⟨c, .ilock⟩ → s.holder = none → SameFile sb ip s.fs fs →
      fs.outstanding = s.fs.outstanding → Step s p ({ s with fs := fs, holder := some p }.goto p c .io)
  | io (c : Call) (r : Int) (l : List UInt8) (fs : Fs.St) : s.proc p = some ⟨c, .io⟩ → Transfer sb ip s c r l fs →
      Step s p ({ s with fs := fs }.goto p c (.advance r l))
  | advance (c : Call) (r : Int) (l : List UInt8) : s.proc p = some ⟨c, .advance r l⟩ →
      Step s p ((s.advance c r l).goto p c (.iunlock r))
  | unlock (c : Call) (r : Int) (fs : Fs.St) : s.proc p = some ⟨c, .iunlock r⟩ → c.write = true → SameFile sb ip s.fs fs →
      fs.outstanding = s.fs.outstanding → Step s p ({ s with fs := fs, holder := none }.goto p c (.endOp r))
  | read (c : Call) (r : Int) (fs : Fs.St) : s.proc p = some ⟨c, .iunlock r⟩ → c.write = false → SameFile sb ip s.fs fs →
      fs.outstanding = s.fs.outstanding → Step s p ({ s with fs := fs, holder := none }.leave p c r)
  | again (c : Call) (fs : Fs.St) : s.proc p = some ⟨c, .endOp c.chunk⟩ → SameFile sb ip s.fs fs →
      fs.outstanding = s.fs.outstanding - 1 → Step s p ({ s with fs := fs }.goto p { c with i := c.i + c.chunk } .loop)
  | fail (c : Call) (r : Int) (fs : Fs.St) : s.proc p = some ⟨c, .endOp r⟩ → r ≠ c.chunk → SameFile sb ip s.fs fs →
      fs.outstanding = s.fs.outstanding - 1 → Step s p ({ s with fs := fs }.leave p c (-1))

end

section

variable {sb : Superblock} {ip : Nat} {s s' : St} {p : Nat} {c : Call} {fs fs' : Fs.St} {r : Int}

theorem SameFile.refl (h : InUse sb ip fs) : SameFile sb ip fs fs := ⟨h, rfl⟩

theorem ilock_same (h : InUse sb ip fs) (hrun : ilock sb ip fs = .ok ((), fs')) :
    SameFile sb ip fs fs' ∧ fs'.outstanding = fs.outstanding := by
  have hlock : Lockable sb (fun _ => True) (node sb fs) ip := ⟨h.ok.range ip h.cached, fun _ => trivial⟩
  obtain ⟨hinv, hmoved, -, hc, -⟩ := (ilock_wp tolerant_any h.ok hlock).ok hrun
  exact ⟨⟨⟨hinv, hc⟩, by rw [hmoved.node]⟩, hmoved.outstanding⟩

theorem iunlock_same (h : InUse sb ip fs) (hrun : iunlock ip fs = .ok ((), fs')) :
    SameFile sb ip fs fs' ∧ fs'.outstanding = fs.outstanding := by
  obtain ⟨hinv, hmoved, -⟩ : Ok sb True fs' ∧ Fs.Placed sb fs fs' ∧ _ :=
    (iunlock_wp tolerant_any h.ok).ok hrun
  exact ⟨⟨⟨hinv, hmoved.cached ip h.cached⟩, by rw [hmoved.node]⟩, hmoved.outstanding⟩

/-- A change that only the log sees. -/
theorem InUse.log (h : InUse sb ip fs) (m : Nat) (l : List Nat) :
    SameFile sb ip fs { fs with outstanding := m, lh := l } :=
  ⟨⟨⟨h.ok.good, h.ok.range, h.ok.alive, h.ok.sync⟩, h.cached⟩, rfl⟩

theorem source_total (c : Call) (n : Nat) : c.source.Total n fun j => c.buf (c.i + j) := by
  intro q m _
  have hall : Vm.reach (fun _ => true) q m = m := Vm.reach_eq_iff.mpr fun _ _ => rfl
  refine ⟨decide_eq_true hall, ?_⟩
  change slice (fun j => c.buf (c.i + j)) q (Vm.reach (fun _ => true) q m) = slice (fun j => c.buf (c.i + j)) q m
  rw [hall]

theorem slice_patched (old g : Bytes) (off k : Nat) : slice (patched old off k g) off k = slice g 0 k := by
  refine slice_congr fun j hj => ?_
  rw [patched, if_pos (by omega)]
  congr 1
  omega

theorem writei_transfer (h : InUse sb ip s.fs) (ht : 0 < s.fs.outstanding)
    (hrun : writei sb ip s.off c.chunk c.source s.fs = .ok (r, fs)) :
    Transfer sb ip s c r (slice c.buf c.i r.toNat) fs := by
  have hbig : maxfile * bsize < 2 ^ 32 := by decide
  obtain ⟨hinv, hres⟩ : Ok sb True fs ∧ _ := (writei_wp tolerant_any h.ok h.cached ht).ok hrun
  rcases hres with ⟨rfl, hsame⟩ | ⟨k, l, rfl, hk, hoff, hmax, hch, htot, -, -⟩
  · exact ⟨⟨hinv, (hsame.cached ip).mpr h.cached⟩, hsame.outstanding, fun _ => by rw [hsame.node],
      fun _ _ => by rw [hsame.node], fun h0 => absurd h0 (by decide), fun h0 => absurd h0 (by decide),
      fun h0 => absurd h0 (by decide)⟩
  · have hdata : (node sb fs ip).data = patched (node sb s.fs ip).data s.off k fun j => c.buf (c.i + j) := by
      rw [hch.node, update_self, htot _ (source_total c _), ← putBytes_slice]
      rfl
    rw [Int.toNat_natCast]
    refine ⟨⟨hinv, (hch.cached ip).mpr h.cached⟩, hch.outstanding, fun h0 => ?_, fun o ho => ?_,
        fun _ => ⟨slice_length _ _ _, ?_⟩,
      fun _ => by omega, fun _ _ => ⟨rfl, hk⟩⟩
    · obtain rfl : k = 0 := by omega
      rw [hdata]
      funext o
      exact if_neg (by omega)
    · rw [hdata]
      exact if_neg (by omega)
    · rw [hdata, Int.toNat_natCast, slice_patched]
      exact slice_congr fun j _ => by rw [Nat.zero_add]

theorem readi_transfer {l : List UInt8} (h : InUse sb ip s.fs) (hc : c.write = false) (hn : c.n < 2 ^ 31)
    (hrun : readi sb ip s.off c.n .kernel s.fs = .ok ((l, r), fs)) : Transfer sb ip s c r l fs := by
  have hsize := h.ok.size_le ip
  have hbig : maxfile * bsize < 2 ^ 32 := by decide
  have hread : readi sb ip s.off c.n .kernel s.fs = _ := readi_exact h.ok h.cached (by omega) fun _ _ => rfl
  rw [hrun] at hread
  cases hread
  refine ⟨h, rfl, fun _ => rfl, fun _ _ => rfl, fun _ => ⟨slice_length _ _ _, rfl⟩, fun h0 => ?_, fun _ hw => ?_⟩
  · unfold readCount at h0 ⊢
    split at h0
    · omega
    next hguard =>
      rw [if_neg hguard]
      omega
  · rw [hc] at hw
    cases hw

/-! ## The lock -/

/-- Holds the inode's sleep-lock. -/
def holds : Option Proc → Bool
  | some ⟨_, .io⟩ | some ⟨_, .advance _ _⟩ | some ⟨_, .iunlock _⟩ => true
  | _ => false

/-- Between `begin_op` and `end_op`. -/
def inOp : Option Proc → Nat
  | some ⟨_, .loop⟩ | none => 0
  | some ⟨_, .endOp _⟩ => 1
  | some ⟨c, _⟩ => c.write.toNat

structure Locks (sb : Superblock) (ip : Nat) (s : St) : Prop where
  use : InUse sb ip s.fs
  holder : Holder holds s.proc s.holder
  ops : tally nproc inOp s.proc ≤ s.fs.outstanding
  range : ∀ p x, s.proc p = some x → p < nproc ∧ x.call.n < 2 ^ 31

section

variable (h : Locks sb ip s)
include h

theorem Locks.inside {x : Proc} (hp : s.proc p = some x) : inOp (some x) ≤ s.fs.outstanding := by
  have hle : inOp (s.proc p) ≤ tally nproc inOp s.proc := le_tally (h.range p _ hp).1
  rw [hp] at hle
  exact Nat.le_trans hle h.ops

/-- One process holds the lock. -/
theorem Locks.same {q : Nat} (hp : holds (s.proc p) = true) (hq : holds (s.proc q) = true) : q = p :=
  Option.some.inj (((h.holder q).mp hq).symm.trans ((h.holder p).mp hp))

theorem step_of_act (hs : step sb ip s p = some s') : Step sb ip s p s' := by
  unfold step at hs
  split at hs
  · cases hs
  next c hp =>
    split at hs
    next hw =>
      cases hs
      exact .enter c s.fs hp (fun h0 => absurd h0 (by simp [hw])) (.refl h.use) (by simp [hw])
    next hw =>
      have hw : c.write = true := by simpa using hw
      split at hs
      next hlt =>
        obtain ⟨-, rfl⟩ := of_guard hs
        exact .enter c _ hp (fun _ => hlt) (h.use.log _ _) (by simp [hw])
      next hlt =>
        cases hs
        exact .finish c hp hw hlt
  next c hp =>
    obtain ⟨hfree, hs⟩ := Option.ite_none_right_eq_some.mp hs
    split at hs
    next fs hrun =>
      cases hs
      obtain ⟨hsame, hout⟩ := ilock_same h.use hrun
      exact .lock c fs hp hfree hsame hout
    next => cases hs
  next c hp =>
    split at hs
    next hw =>
      split at hs
      next r fs hrun =>
        cases hs
        have hpos : 0 < s.fs.outstanding := by
          have hone : c.write.toNat ≤ s.fs.outstanding := h.inside hp
          rwa [hw] at hone
        exact .io c r _ fs hp (writei_transfer h.use hpos hrun)
      next => cases hs
    next hw =>
      split at hs
      next l r fs hrun =>
        cases hs
        exact .io c r l fs hp (readi_transfer h.use (by simpa using hw) (h.range p _ hp).2 hrun)
      next => cases hs
  next c r l hp =>
    cases hs
    exact .advance c r l hp
  next c r hp =>
    split at hs
    next fs hrun =>
      obtain ⟨hsame, hout⟩ := iunlock_same h.use hrun
      split at hs
      next hw =>
        cases hs
        exact .unlock c r fs hp hw hsame hout
      next hw =>
        cases hs
        exact .read c r fs hp (by simpa using hw) hsame hout
    next => cases hs
  next c r hp =>
    split at hs
    next fs hrun =>
      cases hrun
      split at hs
      next hr =>
        subst hr
        cases hs
        rw [Int.toNat_natCast]
        exact .again c _ hp (h.use.log _ _) rfl
      next hr =>
        cases hs
        exact .fail c r _ hp hr (h.use.log _ _) rfl
    next => cases hs

/-- Only process `p` has moved. -/
theorem Locks.set {t : St} {x : Proc} {y : Option Proc} (hp : s.proc p = some x) (hproc : t.proc = update s.proc p y)
    (hn : ∀ z, y = some z → z.call.n = x.call.n) (hfree : holds y = true → holds (some x) = true ∨ s.holder = none)
    (hholder : t.holder = if holds y then some p else if holds (some x) then none else s.holder) (huse : InUse sb ip t.fs)
    (hops : t.fs.outstanding + inOp (some x) = s.fs.outstanding + inOp y) : Locks sb ip t := by
  refine ⟨huse, ?_, ?_, fun q z hq => ?_⟩
  · rw [← hp] at hfree hholder
    rw [hproc, hholder]
    exact h.holder.update hfree
  · have htally : tally nproc inOp (update s.proc p y) + inOp (s.proc p) = _ := tally_update (h.range p x hp).1
    have hle := h.ops
    rw [hp] at htally
    rw [hproc]
    omega
  · rcases update_cases (hproc ▸ hq) with ⟨rfl, hz⟩ | ⟨-, hz⟩
    · rw [hn z hz]
      exact h.range q x hp
    · exact h.range q z hz

theorem Locks.step (hs : Step sb ip s p s') : Locks sb ip s' := by
  cases hs with
  | enter c fs hp hlt hsame hout =>
    refine h.set hp rfl (by rintro z ⟨⟩; rfl) nofun rfl hsame.use ?_
    change fs.outstanding + 0 = s.fs.outstanding + c.write.toNat
    omega
  | finish c hp hw hlt => exact h.set hp rfl nofun nofun rfl h.use rfl
  | lock c fs hp hnone hsame hout =>
    refine h.set hp rfl (by rintro z ⟨⟩; rfl) (fun _ => .inr hnone) rfl hsame.use ?_
    change fs.outstanding + c.write.toNat = s.fs.outstanding + c.write.toNat
    omega
  | io c r l fs hp hmoved =>
    have hheld := (h.holder p).mp (by rw [hp]; rfl)
    refine h.set hp rfl (by rintro z ⟨⟩; rfl) (fun _ => .inl rfl) hheld hmoved.use ?_
    change fs.outstanding + c.write.toNat = s.fs.outstanding + c.write.toNat
    rw [hmoved.outstanding]
  | advance c r l hp =>
    have hheld := (h.holder p).mp (by rw [hp]; rfl)
    obtain ⟨hproc, hfs, hhold, -, -⟩ := advance_same s c r l
    refine h.set (y := some ⟨c, .iunlock r⟩) hp (by rw [goto_proc, hproc]) (by rintro z ⟨⟩; rfl) (fun _ => .inl rfl)
      (hhold.trans hheld) ?_ ?_
    · change InUse sb ip (s.advance c r l).fs
      rw [hfs]
      exact h.use
    · change (s.advance c r l).fs.outstanding + c.write.toNat = s.fs.outstanding + c.write.toNat
      rw [hfs]
  | unlock c r fs hp hw hsame hout =>
    refine h.set hp rfl (by rintro z ⟨⟩; rfl) nofun rfl hsame.use ?_
    change fs.outstanding + c.write.toNat = s.fs.outstanding + 1
    rw [hout, hw]
    rfl
  | read c r fs hp hw hsame hout =>
    refine h.set hp rfl nofun nofun rfl hsame.use ?_
    change fs.outstanding + c.write.toNat = s.fs.outstanding + 0
    rw [hout, hw]
    rfl
  | again c fs hp hsame hout =>
    have hpos : 1 ≤ s.fs.outstanding := h.inside hp
    refine h.set hp rfl (by rintro z ⟨⟩; rfl) nofun rfl hsame.use ?_
    change fs.outstanding + 1 = s.fs.outstanding + 0
    omega
  | fail c r fs hp hr hsame hout =>
    have hpos : 1 ≤ s.fs.outstanding := h.inside hp
    refine h.set hp rfl nofun nofun rfl hsame.use ?_
    change fs.outstanding + 1 = s.fs.outstanding + 0
    omega

end

/-! ## The stream of chunks -/

/-- The chunks follow one another from `lo` to `hi`. -/
def Tiles : Nat → List Chunk → Nat → Prop
  | lo, [], hi => lo = hi
  | lo, c :: l, hi => c.start = lo ∧ Tiles (lo + c.bytes.length) l hi

/-- How many bytes were moved. -/
def total (l : List Chunk) : Nat := (l.map fun c => c.bytes.length).sum

section

variable {lo hi : Nat} {l : List Chunk}

section

variable (h : Tiles lo l hi)
include h

theorem Tiles.snoc {k : Chunk} (hk : k.start = hi) : Tiles lo (l ++ [k]) (hi + k.bytes.length) := by
  induction l generalizing lo with
  | nil =>
    obtain rfl : lo = hi := h
    exact ⟨hk, rfl⟩
  | cons d l ih => exact ⟨h.1, ih h.2⟩

theorem Tiles.total : hi = lo + total l := by
  induction l generalizing lo with
  | nil => exact (show lo = hi from h).symm
  | cons d l ih =>
    rw [ih h.2]
    simp [Offset.total, Nat.add_assoc]

/-- Every chunk lies below the end. -/
theorem Tiles.below : ∀ d ∈ l, d.start + d.bytes.length ≤ hi := by
  induction l generalizing lo with
  | nil => nofun
  | cons e l ih =>
    intro d hd
    rcases List.mem_cons.mp hd with rfl | hd
    · rw [h.1, h.2.total]
      exact Nat.le_add_right _ _
    · exact ih h.2 d hd

theorem Tiles.above : ∀ d ∈ l, lo ≤ d.start := by
  induction l generalizing lo with
  | nil => nofun
  | cons e l ih =>
    intro d hd
    rcases List.mem_cons.mp hd with rfl | hd
    · exact Nat.le_of_eq h.1.symm
    · exact Nat.le_of_add_right_le (ih h.2 d hd)

/-- No chunk meets a later one. -/
theorem Tiles.apart : l.Pairwise fun d e => d.start + d.bytes.length ≤ e.start := by
  induction l generalizing lo with
  | nil => exact .nil
  | cons d l ih =>
    refine .cons (fun e he => ?_) (ih h.2)
    rw [h.1]
    exact h.2.above e he

end

end

structure Stream (sb : Superblock) (ip off0 : Nat) (s : St) : Prop where
  tiles : Tiles off0 s.chunks s.off
  stored : ∀ d ∈ s.chunks, slice (node sb s.fs ip).data d.start d.bytes.length = d.bytes
  pending : ∀ p c r l, s.proc p = some ⟨c, .advance r l⟩ → 0 < r →
    l.length = r.toNat ∧ s.off + r.toNat < 2 ^ 32 ∧ slice (node sb s.fs ip).data s.off r.toNat = l

/-- The file's bytes and the chunks are the same, and no process has come to an `advance`. -/
theorem Stream.same {off0 : Nat} {t : St} (h : Stream sb ip off0 s) (hoff : t.off = s.off) (hchunks : t.chunks = s.chunks)
    (hdata : (node sb t.fs ip).data = (node sb s.fs ip).data)
    (hproc : ∀ p c r l, t.proc p = some ⟨c, .advance r l⟩ → s.proc p = some ⟨c, .advance r l⟩) : Stream sb ip off0 t := by
  refine ⟨by rw [hoff, hchunks]; exact h.tiles, by rw [hchunks, hdata]; exact h.stored, ?_⟩
  rw [hoff, hdata]
  exact fun p c r l hp => h.pending p c r l (hproc p c r l hp)

/-- A process that is not at an `advance` now. -/
theorem advance_of_update {f : Nat → Option Proc} {y : Option Proc} (hy : ∀ c r l, y ≠ some ⟨c, .advance r l⟩) :
    ∀ q c r l, update f p y q = some ⟨c, .advance r l⟩ → f q = some ⟨c, .advance r l⟩ := by
  intro q c r l hq
  rcases update_cases hq with ⟨-, hq⟩ | ⟨-, hq⟩
  · exact absurd hq (hy c r l)
  · exact hq

theorem Stream.step {off0 : Nat} (h : Stream sb ip off0 s) (hl : Locks sb ip s) (hs : Step sb ip s p s') :
    Stream sb ip off0 s' := by
  cases hs with
  | enter c fs hp hlt hsame hout | lock c fs hp hnone hsame hout | unlock c r fs hp hw hsame hout
  | read c r fs hp hw hsame hout | fail c r fs hp hr hsame hout => exact h.same rfl rfl hsame.data (advance_of_update nofun)
  | finish c hp hw hlt => exact h.same rfl rfl rfl (advance_of_update nofun)
  | again c fs hp hsame hout => exact h.same rfl rfl hsame.data (advance_of_update (by simp))
  | io c r l fs hp hmoved =>
    refine ⟨h.tiles, fun d hd => ?_, fun q d r' l' hq hr' => ?_⟩
    · rw [← h.stored d hd]
      -- what is written lies after every chunk
      have hbelow := h.tiles.below d hd
      have hlen : (slice (node sb s.fs ip).data d.start d.bytes.length).length = d.bytes.length := slice_length _ _ _
      rw [hlen]
      exact slice_congr fun j hj => hmoved.before _ (by omega)
    · rw [goto_proc] at hq
      rcases update_cases hq with ⟨rfl, hz⟩ | ⟨hqp, hz⟩
      · cases hz
        exact ⟨(hmoved.bytes hr').1, hmoved.fits hr', (hmoved.bytes hr').2⟩
      · -- the lock is with `p`
        exact absurd (hl.same (by rw [hp]; rfl) (by rw [hz]; rfl)) hqp
  | advance c r l hp =>
    have hproc : ∀ q d r' l', ((s.advance c r l).goto p c (.iunlock r)).proc q = some ⟨d, .advance r' l'⟩ →
        s.proc q = some ⟨d, .advance r' l'⟩ ∧ q ≠ p := by
      intro q d r' l' hq
      rw [goto_proc, (advance_same s c r l).1] at hq
      rcases update_cases hq with ⟨-, hq⟩ | ⟨hqp, hq⟩
      · cases hq
      · exact ⟨hq, hqp⟩
    by_cases hr : 0 < r
    · obtain ⟨hlen, hfit, hbytes⟩ := h.pending p c r l hp hr
      have hadv : s.advance c r l = { s with off := u32 (s.off + r.toNat), chunks := s.chunks ++ [⟨c.id, c.write, s.off, l⟩] } :=
        if_pos hr
      refine ⟨?_, ?_, fun q d r' l' hq hr' => ?_⟩
      · rw [hadv]
        change Tiles off0 (s.chunks ++ [⟨c.id, c.write, s.off, l⟩]) (u32 (s.off + r.toNat))
        rw [u32, Nat.mod_eq_of_lt hfit, ← hlen]
        exact h.tiles.snoc rfl
      · rw [hadv]
        intro d hd
        rcases List.mem_append.mp hd with hd | hd
        · exact h.stored d hd
        · obtain rfl := List.mem_singleton.mp hd
          change slice (node sb s.fs ip).data s.off l.length = l
          rw [hlen]
          exact hbytes
      · obtain ⟨hq, hqp⟩ := hproc q d r' l' hq
        exact absurd (hl.same (by rw [hp]; rfl) (by rw [hq]; rfl)) hqp
    · have hadv : s.advance c r l = s := if_neg hr
      rw [hadv] at hproc ⊢
      exact h.same rfl rfl rfl fun q d r' l' hq => (hproc q d r' l' hq).1

/-! ## The calls -/

/-- What call `id` has moved, in order. -/
def written (l : List Chunk) (id : Nat) : List UInt8 := (l.filter fun d => d.id = id).flatMap fun d => d.bytes

theorem written_append (l l' : List Chunk) (id : Nat) : written (l ++ l') id = written l id ++ written l' id := by
  rw [written, List.filter_append, List.flatMap_append]
  rfl

theorem written_nil {l : List Chunk} {id : Nat} (h : ∀ d ∈ l, d.id ≠ id) : written l id = [] := by
  have hnone : (l.filter fun d => d.id = id) = [] := by
    rw [List.filter_eq_nil_iff]
    exact fun d hd he => h d hd (of_decide_eq_true he)
  rw [written, hnone]
  rfl

/-- How much of its buffer a call has written, up to the last update of `f->off`. -/
def Proc.progress (x : Proc) : Nat :=
  match x.pc with
  | .iunlock r | .endOp r => x.call.i + r.toNat
  | _ => x.call.i

structure Books (s : St) : Prop where
  fresh : ∀ d ∈ s.chunks, d.id < s.next
  running : ∀ p x, s.proc p = some x → x.call.id < s.next
  distinct : ∀ p q x y, s.proc p = some x → s.proc q = some y → x.call.id = y.call.id → p = q
  progress : ∀ p x, s.proc p = some x → x.call.write = true →
    x.call.i ≤ x.call.n ∧ written s.chunks x.call.id = slice x.call.buf 0 x.progress
  pending : ∀ p c r l, s.proc p = some ⟨c, .advance r l⟩ → 0 < r → c.write = true →
    l = slice c.buf c.i r.toNat ∧ r.toNat ≤ c.chunk
  small : ∀ d ∈ s.chunks, d.write = true → d.bytes.length ≤ writeMax
  returned : ∀ d ∈ s.returns, d.call.id < s.next ∧ (∀ p x, s.proc p = some x → x.call.id ≠ d.call.id) ∧
    (d.call.write = true → d.ret = d.call.n → written s.chunks d.call.id = slice d.call.buf 0 d.call.n)

section

variable {t : St} {x y : Proc}

/-- No other call has the id. -/
def Mine (s : St) (p id : Nat) : Prop :=
  (∀ q x, s.proc q = some x → x.call.id = id → q = p) ∧ ∀ d ∈ s.returns, d.call.id ≠ id

theorem Books.mine (h : Books s) (hp : s.proc p = some x) : Mine s p x.call.id :=
  ⟨fun q z hq he => h.distinct q p z x hq hp he, fun d hd => ((h.returned d hd).2.1 p x hp).symm⟩

/-- Call `j` of process `p` begins, goes on or returns, and has moved the chunks `k`. -/
theorem Books.set {y : Option Proc} {j : Nat} {k : List Chunk} {v : List Return} (h : Books s) (hmine : Mine s p j)
    (hlt : j < t.next) (hproc : t.proc = update s.proc p y) (hchunks : t.chunks = s.chunks ++ k) (hnext : s.next ≤ t.next)
    (hret : t.returns = s.returns ++ v)
    (hk : ∀ d ∈ k, d.id = j ∧ (d.write = true → d.bytes.length ≤ writeMax))
    (hy : ∀ z, y = some z → z.call.id = j ∧
      (z.call.write = true → z.call.i ≤ z.call.n ∧ written s.chunks j ++ written k j = slice z.call.buf 0 z.progress) ∧
      ∀ r l, z.pc = .advance r l → 0 < r → z.call.write = true →
        l = slice z.call.buf z.call.i r.toNat ∧ r.toNat ≤ z.call.chunk)
    (hrs : ∀ d ∈ v, d.call.id = j ∧ y = none ∧
      (d.call.write = true → d.ret = d.call.n → written t.chunks j = slice d.call.buf 0 d.call.n)) : Books t := by
  have hother : ∀ {i}, i ≠ j → written t.chunks i = written s.chunks i := by
    intro i hne
    rw [hchunks, written_append, written_nil fun d hd he => hne (he.symm.trans (hk d hd).1), List.append_nil]
  have hold : ∀ q z, t.proc q = some z → q = p ∧ y = some z ∨ s.proc q = some z ∧ z.call.id ≠ j := by
    intro q z hq
    exact (update_cases (hproc ▸ hq)).imp_right fun hz => ⟨hz.2, fun he => hz.1 (hmine.1 q z hz.2 he)⟩
  refine ⟨?_, ?_, ?_, ?_, ?_, ?_, ?_⟩
  · intro d hd
    rw [hchunks] at hd
    rcases List.mem_append.mp hd with hd | hd
    · exact Nat.lt_of_lt_of_le (h.fresh d hd) hnext
    · rw [(hk d hd).1]
      exact hlt
  · intro q z hq
    rcases hold q z hq with ⟨-, hz⟩ | ⟨hz, -⟩
    · rw [(hy z hz).1]
      exact hlt
    · exact Nat.lt_of_lt_of_le (h.running q z hz) hnext
  · intro q q' z z' hq hq' he
    rcases hold q z hq with ⟨hqp, hz⟩ | ⟨hz, hne⟩
    · rcases hold q' z' hq' with ⟨hqp', -⟩ | ⟨-, hne⟩
      · rw [hqp, hqp']
      · exact absurd (he.symm.trans (hy z hz).1) hne
    · rcases hold q' z' hq' with ⟨-, hz'⟩ | ⟨hz', -⟩
      · exact absurd (he.trans (hy z' hz').1) hne
      · exact h.distinct q q' z z' hz hz' he
  · intro q z hq hw
    rcases hold q z hq with ⟨-, hz⟩ | ⟨hz, hne⟩
    · obtain ⟨hid, hprog, -⟩ := hy z hz
      rw [hid, hchunks, written_append]
      exact hprog hw
    · rw [hother hne]
      exact h.progress q z hz hw
  · intro q c r l hq
    rcases hold q _ hq with ⟨-, hz⟩ | ⟨hz, -⟩
    · exact (hy _ hz).2.2 r l rfl
    · exact h.pending q c r l hz
  · intro d hd
    rw [hchunks] at hd
    rcases List.mem_append.mp hd with hd | hd
    · exact h.small d hd
    · exact (hk d hd).2
  · intro d hd
    rw [hret] at hd
    rcases List.mem_append.mp hd with hd | hd
    · obtain ⟨hd', hnot, hdone⟩ := h.returned d hd
      have hne := hmine.2 d hd
      refine ⟨Nat.lt_of_lt_of_le hd' hnext, fun q z hq => ?_, ?_⟩
      · rcases hold q z hq with ⟨-, hz⟩ | ⟨hz, -⟩
        · rw [(hy z hz).1]
          exact hne.symm
        · exact hnot q z hz
      · rw [hother hne]
        exact hdone
    · obtain ⟨hid, rfl, hdone⟩ := hrs d hd
      rw [hid]
      refine ⟨hlt, fun q z hq => ?_, hdone⟩
      rcases hold q z hq with ⟨-, hz⟩ | ⟨-, hne⟩
      · cases hz
      · exact hne

theorem Books.goto (h : Books s) (hp : s.proc p = some x) (hproc : t.proc = update s.proc p (some y))
    (hchunks : t.chunks = s.chunks) (hnext : t.next = s.next) (hret : t.returns = s.returns) (hid : y.call.id = x.call.id)
    (hprog : y.call.write = true → y.call.i ≤ y.call.n ∧ written s.chunks x.call.id = slice y.call.buf 0 y.progress)
    (hpend : ∀ r l, y.pc = .advance r l → 0 < r → y.call.write = true →
      l = slice y.call.buf y.call.i r.toNat ∧ r.toNat ≤ y.call.chunk) : Books t := by
  refine h.set (k := []) (v := []) (h.mine hp) (hnext ▸ h.running p x hp) hproc (by rw [hchunks, List.append_nil]) hnext.ge
    (by rw [hret, List.append_nil]) (by simp) ?_ (by simp)
  rintro z ⟨⟩
  rw [written_nil (l := []) (by simp), List.append_nil]
  exact ⟨hid, hprog, hpend⟩

/-- The call of process `p` returns `v`. -/
theorem Books.leave {v : Int} (h : Books s) (hp : s.proc p = some x) (hproc : t.proc = update s.proc p none)
    (hchunks : t.chunks = s.chunks) (hnext : t.next = s.next) (hret : t.returns = s.returns ++ [⟨x.call, v⟩])
    (hv : x.call.write = true → v = x.call.n → written s.chunks x.call.id = slice x.call.buf 0 x.call.n) : Books t := by
  refine h.set (k := []) (h.mine hp) (hnext ▸ h.running p x hp) hproc (by rw [hchunks, List.append_nil]) hnext.ge hret (by simp)
    (by simp) fun d hd => ?_
  obtain rfl := List.mem_singleton.mp hd
  rw [hchunks]
  exact ⟨rfl, rfl, hv⟩

end

theorem chunk_le (c : Call) : c.chunk ≤ c.n - c.i ∧ c.chunk ≤ writeMax := ⟨Nat.min_le_left _ _, Nat.min_le_right _ _⟩

theorem Books.step (h : Books s) (hs : Step sb ip s p s') : Books s' := by
  cases hs with
  | enter c fs hp hlt hsame hout | lock c fs hp hnone hsame hout | unlock c r fs hp hw hsame hout =>
    have hprog := h.progress p _ hp
    exact h.goto hp rfl rfl rfl rfl rfl hprog nofun
  | finish c hp hw hlt =>
    refine h.leave hp rfl rfl rfl rfl fun _ _ => ?_
    obtain ⟨hle, hbytes⟩ := h.progress p _ hp hw
    rw [hbytes]
    change slice c.buf 0 c.i = slice c.buf 0 c.n
    rw [show c.i = c.n from Nat.le_antisymm hle (Nat.le_of_not_lt hlt)]
  | io c r l fs hp hmoved =>
    have hprog := h.progress p _ hp
    refine h.goto hp rfl rfl rfl rfl rfl hprog fun r' l' hpc hr hw => ?_
    cases hpc
    exact hmoved.written hr hw
  | advance c r l hp =>
    obtain ⟨hproc, -, -, hnext, hret⟩ := advance_same s c r l
    by_cases hr : 0 < r
    · have hadv : (s.advance c r l).chunks = s.chunks ++ [⟨c.id, c.write, s.off, l⟩] := by rw [St.advance, if_pos hr]
      refine h.set (y := some ⟨c, .iunlock r⟩) (v := []) (h.mine hp) (hnext ▸ h.running p _ hp) (by rw [goto_proc, hproc]) hadv
        hnext.ge (by rw [List.append_nil]; exact hret) (fun k hk => ?_) ?_ (by simp)
      · obtain rfl := List.mem_singleton.mp hk
        refine ⟨rfl, fun hw => ?_⟩
        obtain ⟨hl, hle⟩ := h.pending p c r l hp hr hw
        change l.length ≤ writeMax
        rw [hl, slice_length]
        exact Nat.le_trans hle (chunk_le c).2
      · rintro z ⟨⟩
        refine ⟨rfl, fun hw => ?_, nofun⟩
        obtain ⟨hl, -⟩ := h.pending p c r l hp hr hw
        obtain ⟨hle, hbytes⟩ := h.progress p _ hp hw
        refine ⟨hle, ?_⟩
        rw [hbytes, hl, show written [⟨c.id, c.write, s.off, slice c.buf c.i r.toNat⟩] c.id =
            slice c.buf c.i r.toNat by simp [written]]
        change slice c.buf 0 c.i ++ slice c.buf c.i r.toNat = slice c.buf 0 (c.i + r.toNat)
        rw [← slice_append, Nat.zero_add]
    · have hadv : s.advance c r l = s := if_neg hr
      refine h.goto (y := ⟨c, .iunlock r⟩) hp (by rw [goto_proc, hproc]) (by rw [hadv]; rfl) hnext hret rfl (fun hw => ?_) nofun
      have hzero : c.i + r.toNat = c.i := by omega
      obtain ⟨hle, hbytes⟩ := h.progress p _ hp hw
      refine ⟨hle, ?_⟩
      change written s.chunks c.id = slice c.buf 0 (c.i + r.toNat)
      rw [hzero]
      exact hbytes
  | read c r fs hp hw hsame hout =>
    refine h.leave hp rfl rfl rfl rfl fun hwrite => ?_
    rw [show c.write = true from hwrite] at hw
    cases hw
  | again c fs hp hsame hout =>
    refine h.goto hp rfl rfl rfl rfl rfl (fun hw => ?_) (by simp)
    obtain ⟨hle, hbytes⟩ := h.progress p _ hp hw
    have hchunk := (chunk_le c).1
    have hle : c.i ≤ c.n := hle
    exact ⟨show c.i + c.chunk ≤ c.n by omega, hbytes⟩
  | fail c r fs hp hr hsame hout =>
    refine h.leave hp rfl rfl rfl rfl fun _ hv => ?_
    have hv : (-1 : Int) = c.n := hv
    omega

/-! ## Runs -/

/-- What the rest of the kernel may do: the file keeps its bytes and its place in the table, and the
operations of these processes stay open. -/
def Foreign (sb : Superblock) (ip : Nat) (s : St) : Act → Prop
  | .other fs => SameFile sb ip s.fs fs ∧ tally nproc inOp s.proc ≤ fs.outstanding
  | _ => True

/-- Nobody uses the file. -/
def init (fs : Fs.St) (off : Nat) : St := ⟨fs, off, none, fun _ => none, 0, [], []⟩

structure Inv (sb : Superblock) (ip off0 : Nat) (s : St) : Prop where
  locks : Locks sb ip s
  stream : Stream sb ip off0 s
  books : Books s

theorem inv_init {off0 : Nat} (h : InUse sb ip fs) : Inv sb ip off0 (init fs off0) := by
  have hzero : tally nproc inOp (init fs off0).proc = 0 := tally_eq_zero.mpr fun _ _ => rfl
  exact ⟨⟨h, fun _ => ⟨nofun, nofun⟩, by rw [hzero]; exact Nat.zero_le _, nofun⟩, ⟨rfl, nofun, nofun⟩,
    ⟨nofun, nofun, nofun, nofun, nofun, nofun, nofun⟩⟩

/-- A new call begins: `x` is in its loop, with an id of its own. -/
theorem Inv.start {off0 : Nat} {x : Proc} (h : Inv sb ip off0 s) (hp : p < nproc) (hnone : s.proc p = none)
    (hn : x.call.n < 2 ^ 31) (hpc : x.pc = .loop) (hid : x.call.id = s.next) (hi : x.call.i = 0) :
    Inv sb ip off0 { s with next := s.next + 1, proc := update s.proc p (some x) } := by
  have hzero : inOp (some x) = 0 ∧ holds (some x) = false := by
    obtain ⟨c, pc⟩ := x
    subst hpc
    exact ⟨rfl, rfl⟩
  refine ⟨⟨h.locks.use, ?_, ?_, fun q z hq => ?_⟩, h.stream.same rfl rfl rfl (advance_of_update ?_), ?_⟩
  · have hholder := h.locks.holder.update (a := p) (x := some x) (by simp [hzero.2])
    rw [hzero.2, hnone] at hholder
    exact hholder
  · have htally : tally nproc inOp (update s.proc p (some x)) + inOp (s.proc p) = _ := tally_update hp
    have hle := h.locks.ops
    rw [hnone, hzero.1] at htally
    change tally nproc inOp (update s.proc p (some x)) ≤ s.fs.outstanding
    have hnil : inOp none = 0 := rfl
    omega
  · rcases update_cases hq with ⟨rfl, hz⟩ | ⟨-, hz⟩
    · rw [← Option.some.inj hz]
      exact ⟨hp, hn⟩
    · exact h.locks.range q z hz
  · intro c r l hx
    rw [Option.some.inj hx] at hpc
    cases hpc
  · refine h.books.set (k := []) (v := []) (j := s.next) ⟨fun q z hq he => ?_, fun d hd => ?_⟩ (Nat.lt_succ_self _) rfl
      (List.append_nil _).symm (Nat.le_succ _) (List.append_nil _).symm (by simp) ?_ (by simp)
    · exact absurd he (h.books.running q z hq).ne
    · exact (h.books.returned d hd).1.ne
    · rintro z ⟨⟩
      have hprog : x.progress = 0 := by rw [Proc.progress, hpc, hi]
      refine ⟨hid, fun _ => ⟨by omega, ?_⟩, fun r l hr => ?_⟩
      · rw [hprog, ← written_append, List.append_nil]
        exact written_nil fun d hd => (h.books.fresh d hd).ne
      · rw [hpc] at hr
        cases hr

theorem Inv.act {off0 : Nat} {a : Act} (h : Inv sb ip off0 s) (hok : Foreign sb ip s a) (hs : Offset.act sb ip s a = some s') :
    Inv sb ip off0 s' := by
  cases a with
  | start q write n buf =>
    obtain ⟨⟨hp, hidle, hn⟩, rfl⟩ := of_guard hs
    exact h.start hp (Option.isNone_iff_eq_none.mp hidle) hn rfl rfl rfl
  | step q =>
    have hstep := step_of_act h.locks hs
    exact ⟨h.locks.step hstep, h.stream.step h.locks hstep, h.books.step hstep⟩
  | other fs =>
    cases hs
    exact ⟨⟨hok.1.use, h.locks.holder, hok.2, h.locks.range⟩,
      h.stream.same rfl rfl hok.1.data fun _ _ _ _ hq => hq,
      ⟨h.books.fresh, h.books.running, h.books.distinct, h.books.progress, h.books.pending, h.books.small, h.books.returned⟩⟩

theorem inv_of_reach {off0 : Nat} (h0 : InUse sb ip fs) (h : Lib.Reach (Offset.act sb ip) (Foreign sb ip) (init fs off0) s) :
    Inv sb ip off0 s := h.inv (inv_init h0) fun _ _ _ hinv hok hs => hinv.act hok hs

/-- However the calls interleave, the chunks follow one another from the first offset to `f->off`, and
each is still in the file; a `filewrite` that returns `n` has written its buffer, in order, in chunks
that fit a transaction. -/
theorem shared_offset {off0 : Nat} (h0 : InUse sb ip fs)
    (h : Lib.Reach (Offset.act sb ip) (Foreign sb ip) (init fs off0) s) :
    Tiles off0 s.chunks s.off ∧ s.off = off0 + total s.chunks ∧
    s.chunks.Pairwise (fun d e => d.start + d.bytes.length ≤ e.start) ∧
    (∀ d ∈ s.chunks, slice (node sb s.fs ip).data d.start d.bytes.length = d.bytes) ∧
    (∀ d ∈ s.chunks, d.write = true → d.bytes.length ≤ (maxopblocks - 1 - 1 - 2) / 2 * bsize) ∧
    ∀ d ∈ s.returns, d.call.write = true → d.ret = d.call.n →
      written s.chunks d.call.id = slice d.call.buf 0 d.call.n := by
  have hinv := inv_of_reach h0 h
  have htiles := hinv.stream.tiles
  refine ⟨htiles, htiles.total, htiles.apart, hinv.stream.stored, hinv.books.small, fun d hd hw hret => ?_⟩
  obtain ⟨-, -, hdone⟩ := hinv.books.returned d hd
  exact hdone hw hret

end

/-- An empty file that nobody uses, outside any transaction. -/
def quiet : Fs.St := { (blank emptyFile).setInode 2 ⟨1, false, true, emptyFile⟩ with outstanding := 0, lh := [] }

theorem quiet_inUse : InUse Mkfs.sb 2 quiet := by
  have hblank : InUse Mkfs.sb 2 (blank emptyFile) := ⟨blank_ok emptyFile_blockless, (blank_cached emptyFile 2).mpr rfl⟩
  exact ((iunlock_same hblank rfl).1.use.log 0 []).use

/-- Two processes write, and the first chunk of one lies between the steps of the other. -/
def twoWriters : List Act :=
  [.start 1 true 2 (fun _ => 7), .start 2 true 1 (fun _ => 8), .step 1, .step 2, .step 2, .step 2, .step 2, .step 2,
    .step 1, .step 1, .step 1, .step 1, .step 1, .step 1, .step 2, .step 2]

theorem shared_offset_two : ∃ s, Lib.Reach (act Mkfs.sb 2) (Foreign Mkfs.sb 2) (init quiet 0) s ∧
    s.chunks.map (fun d => (d.id, d.start, d.bytes)) = [(1, 0, [8]), (0, 1, [7, 7])] ∧
    s.returns.map (fun d => (d.call.id, d.ret)) = [(0, 2), (1, 1)] ∧
    s.off = 0 + total s.chunks := by
  have hrun : (Lib.run (act Mkfs.sb 2) (init quiet 0) twoWriters).map
      (fun s => (s.chunks.map (fun d => (d.id, d.start, d.bytes)), s.returns.map (fun d => (d.call.id, d.ret)))) =
        some ([(1, 0, [8]), (0, 1, [7, 7])], [(0, 2), (1, 1)]) := by decide +kernel
  obtain ⟨s, hs, hv⟩ := Option.map_eq_some_iff.mp hrun
  obtain ⟨hchunks, hreturns⟩ := Prod.mk.inj hv
  have hreach : Lib.Reach (act Mkfs.sb 2) (Foreign Mkfs.sb 2) (init quiet 0) s := reach_of_run (fun a ha t => by
    simp only [twoWriters, List.mem_cons, List.not_mem_nil, or_false] at ha
    rcases ha with rfl | rfl | rfl | rfl | rfl | rfl | rfl | rfl | rfl | rfl | rfl | rfl | rfl | rfl | rfl | rfl <;> trivial) hs
  exact ⟨s, hreach, hchunks, hreturns, (shared_offset quiet_inUse hreach).2.1⟩

end Xv6.Fs.Offset
