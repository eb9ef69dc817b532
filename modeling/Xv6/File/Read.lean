/-
  Xv6.File.Read — `fileread` on pipes, the console and inodes (kernel/file.c: `fileread`;
  kernel/pipe.c: `piperead`; kernel/console.c: `consoleread`; kernel/fs.c: `readi`), with the
  stores to user memory that it makes.

  `w` says which user addresses `copyout` may write: `mayWrite` of the reader's page table. A
  store is recorded as the address and the byte; `Vm.copyout_stores` says that these are what
  `copyout` does to memory. `readiTo` is `Fs.readi` with the stores (`readiTo_ret`).

  `n` is an `int` in `fileread`. The loops of `piperead` and `consoleread` compare with it as an
  `int`, but `readi` takes it as a `uint`: a negative count is a huge one there, and is cut down
  to what the file has left.

  Proved: `read_within_buffer_iff`, `undelivered_kept_iff`.
-/

import Xv6.Console.Refused
import Xv6.Fs.Sysfile
import Xv6.Fs.ByteFile
import Xv6.Ipc.Refused
import Xv6.Vm.Pgaccess
import Xv6.Vm.Stores

namespace Xv6.File

open Xv6.Lib
open Vm (reach reach_le reach_good reach_stop)

/-- `CONSOLE`: the one device that has a `read`. -/
def console : Int := 1

/-- What a file is, with what the reader finds there. -/
inductive Kind
  | none
  /-- The pipe when the copy loop starts, or no pipe if the reader is killed while it waits. -/
  | pipe (pi : Option Ipc.Pipe)
  /-- The states of the console when the reader gets its lock. -/
  | device (major : Int) (c : Console.Cons) (cs : List Console.Cons)
  | inode (ip off : Nat)

structure OpenFile where
  readable : Bool
  kind : Kind

/-- A byte stored at a user address. -/
abbrev Store := Nat × UInt8

/-- The bytes `l` stored from `va` on. -/
def storesAt (va : Nat) (l : List UInt8) : List Store := (List.range l.length).map fun j => ((va + j) % 2 ^ 64, l.getD j 0)

/-- The copy loop of `piperead` with `k` rounds left. -/
def pipereadLoop (w : Nat → Bool) (addr : Nat) : Nat → Ipc.Pipe → List UInt8 → Ipc.Pipe × List UInt8
  | 0, pi, got => (pi, got)
  | k + 1, pi, got =>
    if pi.Empty then (pi, got)
    else if w ((addr + got.length) % 2 ^ 64) then pipereadLoop w addr k pi.drop (got ++ [pi.head])
    else (pi.drop, got)

section

variable (sb : Fs.Superblock) (w : Nat → Bool)

/-- The loop of `readi`: the value of `tot` at its end and the stores. -/
def readLoopTo (i n dst : Nat) : Nat → Nat → Nat → List Store → Fs.FsM (Int × List Store)
  | 0, tot, _, st => pure (tot, st)
  | fuel + 1, tot, off, st =>
    if tot < n then do
      let addr ← Fs.bmap sb i (off / bsize)
      if addr = 0 then pure (tot, st)
      else do
        let s ← get
        let m := min (n - tot) (bsize - off % bsize)
        let k := reach w ((dst + tot) % 2 ^ 64) m
        let st := st ++ storesAt ((dst + tot) % 2 ^ 64) (slice (s.disk addr) (off % bsize) k)
        if k = m then readLoopTo i n dst fuel (tot + m) (off + m) st else pure (-1, st)
    else pure (tot, st)

def readiTo (i dst off n : Nat) : Fs.FsM (Int × List Store) := do
  let s ← get
  let size := (s.itab i).din.size
  if size < off ∨ Fs.u32 (off + n) < off then pure (0, [])
  else do
    let n := if size < Fs.u32 (off + n) then size - off else n
    readLoopTo sb w i n dst n 0 off []

/-- The value returned, the stores, and the file afterwards. -/
def fileread (f : OpenFile) (addr : Nat) (n : Int) : Fs.FsM (Int × List Store × OpenFile) :=
  if !f.readable then pure (-1, [], f)
  else match f.kind with
    | .pipe none => pure (-1, [], f)
    | .pipe (some pi) =>
      let (pi, got) := pipereadLoop w addr n.toNat pi []
      pure (got.length, storesAt addr got, { f with kind := .pipe (some pi) })
    | .device major c cs =>
      if major < 0 ∨ (Fs.ndev : Int) ≤ major ∨ major ≠ console then pure (-1, [], f)
      else
        let res := Console.consoleread (fun k => w ((addr + k) % 2 ^ 64)) n.toNat n.toNat [] 0 c cs
        pure (res.ret, storesAt addr res.got, f)
    | .inode ip off => do
      Fs.ilock sb ip
      let (r, st) ← readiTo sb w ip addr off (Fs.intToU32 n)
      Fs.iunlock ip
      pure (r, st, { f with kind := .inode ip (if 0 < r then Fs.u32 (off + r.toNat) else off) })
    | .none => throw .fileread

end

/-! ## The same readi -/

/-- Which pieces `either_copyout` copies. -/
def copies (w : Nat → Bool) (dst : Nat) : Fs.CopyOut := fun p m => decide (reach w ((dst + p) % 2 ^ 64) m = m)

section

variable {sb : Fs.Superblock} {w : Nat → Bool} {i n dst : Nat}

theorem readLoopTo_ret (fuel : Nat) : ∀ (tot off : Nat) (st : List Store) (acc : List UInt8), acc.length = tot →
    ((fun r => r.1) <$> readLoopTo sb w i n dst fuel tot off st) =
      ((fun r => if r.2 then (r.1.length : Int) else -1) <$> Fs.readLoop sb i n (copies w dst) fuel tot off acc) := by
  induction fuel with
  | zero =>
    intro tot off st acc hlen
    simp [readLoopTo, Fs.readLoop, hlen]
  | succ fuel ih =>
    intro tot off st acc hlen
    rw [readLoopTo, Fs.readLoop]
    split
    · rw [map_bind, map_bind]
      congr 1
      funext addr
      split
      · simp [hlen]
      · rw [map_bind, map_bind]
        congr 1
        funext s
        dsimp only
        by_cases hk : reach w ((dst + tot) % 2 ^ 64) (min (n - tot) (bsize - off % bsize)) =
            min (n - tot) (bsize - off % bsize)
        · have hcopies : copies w dst tot (min (n - tot) (bsize - off % bsize)) = true := decide_eq_true hk
          rw [if_pos hk, if_pos hcopies]
          exact ih _ _ _ _ (by simp [hlen])
        · have hcopies : ¬copies w dst tot (min (n - tot) (bsize - off % bsize)) = true := by
            rw [copies, decide_eq_true_iff]
            exact hk
          rw [if_neg hk, if_neg hcopies]
          simp
    · simp [hlen]

/-- The value that `readi` returns. -/
theorem readiTo_ret (i dst off n : Nat) :
    ((fun r => r.1) <$> readiTo sb w i dst off n) = ((fun r => r.2) <$> Fs.readi sb i off n (copies w dst)) := by
  rw [readiTo, Fs.readi, map_bind, map_bind]
  congr 1
  funext s
  dsimp only
  split
  · simp
  · rw [readLoopTo_ret _ 0 off [] [] rfl]
    simp

end

/-! ## Within the buffer -/

/-- Every store is to one of the `n` bytes from `addr` on. -/
def Within (addr n : Nat) (st : List Store) : Prop := ∀ x ∈ st, addr ≤ x.1 ∧ x.1 < addr + n

/-- The widths of the counters. -/
def OpenFile.Fits (f : OpenFile) : Prop :=
  match f.kind with
  | .device _ c cs => c.r < 2 ^ 32 ∧ ∀ c ∈ cs, c.r < 2 ^ 32
  | .inode _ off => off < 2 ^ 32
  | _ => True

section

variable {sb : Fs.Superblock} {w : Nat → Bool} {addr n : Nat} {st : List Store} {l : List UInt8}

theorem Within.append {st' : List Store} (h : Within addr n st) (h' : Within addr n st') : Within addr n (st ++ st') := by
  intro x hx
  rcases List.mem_append.mp hx with hx | hx
  · exact h x hx
  · exact h' x hx

/-- Bytes stored below the top of the user's addresses. -/
theorem storesAt_within {va : Nat} (hlow : addr ≤ va) (hlen : va + l.length ≤ addr + n)
    (htop : ∀ j < l.length, va + j < Vm.maxva) : Within addr n (storesAt va l) := by
  intro x hx
  obtain ⟨j, hj, rfl⟩ := List.mem_map.mp hx
  have hj := List.mem_range.mp hj
  have htop := htop j hj
  unfold Vm.maxva at htop
  dsimp only
  rw [Nat.mod_eq_of_lt (by omega)]
  omega

/-- `piperead` copies at most `k` bytes, all to addresses that can be written. -/
theorem pipereadLoop_good {k : Nat} {pi : Ipc.Pipe} {got : List UInt8}
    (hgot : ∀ j < got.length, w ((addr + j) % 2 ^ 64) = true) :
    (pipereadLoop w addr k pi got).2.length ≤ got.length + k ∧
      ∀ j < (pipereadLoop w addr k pi got).2.length, w ((addr + j) % 2 ^ 64) = true := by
  induction k generalizing pi got with
  | zero => exact ⟨Nat.le_refl _, hgot⟩
  | succ k ih =>
    rw [pipereadLoop]
    split
    · exact ⟨Nat.le_add_right _ _, hgot⟩
    · split
      next hok =>
        have hlen : (got ++ [pi.head]).length = got.length + 1 := by simp
        have hnext : ∀ j < (got ++ [pi.head]).length, w ((addr + j) % 2 ^ 64) = true := by
          intro j hj
          rw [hlen] at hj
          by_cases hlast : j = got.length
          · rwa [hlast]
          · exact hgot j (by omega)
        have hrest : (pipereadLoop w addr k pi.drop (got ++ [pi.head])).2.length ≤ (got ++ [pi.head]).length + k ∧ _ :=
          ih hnext
        exact ⟨by omega, hrest.2⟩
      next => exact ⟨Nat.le_add_right _ _, hgot⟩

variable (hw : ∀ va, w va = true → va < Vm.maxva)
include hw

/-- Addresses that can be written one after the other do not wrap. -/
theorem unwrapped {len : Nat} (haddr : addr < 2 ^ 64) (hgood : ∀ j < len, w ((addr + j) % 2 ^ 64) = true) :
    ∀ j < len, addr + j < Vm.maxva := by
  intro j hj
  have hmod : (addr + j) % 2 ^ 64 = addr + j := by
    refine Nat.mod_eq_of_lt ?_
    cases j with
    | zero => exact haddr
    | succ j =>
      have hbefore := unwrapped haddr hgood j (by omega)
      unfold Vm.maxva at hbefore
      omega
  rw [← hmod]
  exact hw _ (hgood j hj)

/-- The loop of `readi` stores inside its range, which begins below the top or has not begun. -/
theorem readLoopTo_within {i n dst : Nat} (fuel : Nat) : ∀ (tot off : Nat) (st : List Store) (s : Fs.St),
    dst + tot < Vm.maxva + 1 ∨ tot = 0 ∧ dst < 2 ^ 64 → tot ≤ n → Within dst n st →
    wp (fun _ => True) (readLoopTo sb w i n dst fuel tot off st) (fun r _ => Within dst n r.2 ∧ r.1 ≤ n) s := by
  induction fuel with
  | zero =>
    intro tot off st s _ hle hst
    exact ⟨hst, Int.ofNat_le.mpr hle⟩
  | succ fuel ih =>
    intro tot off st s hdst hle hst
    rw [readLoopTo]
    split
    next hlt =>
      refine wp_seq (wp_any _ s) fun addr s1 _ => ?_
      split
      · exact ⟨hst, Int.ofNat_le.mpr hle⟩
      · rw [wp_get_bind]
        dsimp only
        have hmod : (dst + tot) % 2 ^ 64 = dst + tot := by
          unfold Vm.maxva at hdst
          exact Nat.mod_eq_of_lt (by omega)
        rw [hmod]
        generalize hm : min (n - tot) (bsize - off % bsize) = m
        have hk : reach w (dst + tot) m ≤ m := reach_le
        have htop : ∀ j < reach w (dst + tot) m, dst + tot + j < Vm.maxva := fun j hj => hw _ (reach_good hj)
        have hnew : Within dst n (storesAt (dst + tot) (slice (s1.disk addr) (off % bsize) (reach w (dst + tot) m))) := by
          refine storesAt_within (Nat.le_add_right _ _) ?_ ?_
          · rw [slice_length]
            omega
          · intro j hj
            rw [slice_length] at hj
            exact htop j hj
        split
        next heq =>
          refine ih (tot + m) (off + m) _ s1 ?_ (by omega) (hst.append hnew)
          rcases Nat.eq_zero_or_pos m with h0 | hpos
          · rw [h0]
            exact hdst
          · have hlast := htop (m - 1) (by omega)
            exact .inl (by omega)
        next => exact ⟨hst.append hnew, by dsimp only; omega⟩
    next => exact ⟨hst, Int.ofNat_le.mpr hle⟩

theorem readiTo_within {i dst off n : Nat} (hdst : dst < 2 ^ 64) (hoff : off < 2 ^ 32) (hn : n < 2 ^ 32) (s : Fs.St) :
    wp (fun _ => True) (readiTo sb w i dst off n) (fun r _ => Within dst n r.2 ∧ r.1 ≤ n) s := by
  rw [readiTo, wp_get_bind]
  dsimp only
  split
  · exact ⟨nofun, by dsimp only; omega⟩
  next hguard =>
    generalize hn' : (if (s.itab i).din.size < Fs.u32 (off + n) then (s.itab i).din.size - off else n) = n'
    have hle : n' ≤ n := by
      unfold Fs.u32 at hguard hn'
      split at hn' <;> omega
    refine wp_mono (readLoopTo_within hw n' 0 off [] s (.inr ⟨rfl, hdst⟩) (Nat.zero_le _) nofun) ?_
    intro r _ hr
    refine ⟨fun x hx => ?_, by have := hr.2; omega⟩
    have := hr.1 x hx
    omega

/-- A read stays within the buffer if the count is not negative or `readi` does not get it. -/
theorem fileread_within {f : OpenFile} {n : Int} (haddr : addr < 2 ^ 64) (hmax : n < 2 ^ 31) (hf : f.Fits)
    (hn : 0 ≤ n ∨ f.readable = false ∨ ∀ ip off, f.kind ≠ .inode ip off) (s : Fs.St) :
    wp (fun _ => True) (fileread sb w f addr n) (fun r _ => Within addr n.toNat r.2.1 ∧ r.1 ≤ max n 0) s := by
  have hbytes : ∀ {l : List UInt8}, l.length ≤ n.toNat → (∀ j < l.length, w ((addr + j) % 2 ^ 64) = true) →
      Within addr n.toNat (storesAt addr l) := fun hlen hgood =>
    storesAt_within (Nat.le_refl _) (by omega) (unwrapped hw haddr hgood)
  rw [fileread]
  split
  · exact ⟨nofun, by dsimp only; omega⟩
  next hread =>
    split
    · exact ⟨nofun, by dsimp only; omega⟩
    · rename_i pi hkind
      obtain ⟨hlen, hgood⟩ : (pipereadLoop w addr n.toNat pi []).2.length ≤ [].length + n.toNat ∧ _ :=
        pipereadLoop_good nofun
      simp only [List.length_nil, Nat.zero_add] at hlen
      exact ⟨hbytes hlen hgood, by dsimp only; omega⟩
    · rename_i major c cs hkind
      split
      · exact ⟨nofun, by dsimp only; omega⟩
      · rw [OpenFile.Fits, hkind] at hf
        obtain ⟨hret, -, hlen, hgood, -, -⟩ : Console.Delivered (fun k => w ((addr + k) % 2 ^ 64)) n.toNat
            (Console.consoleread _ n.toNat n.toNat [] 0 c cs) :=
          Console.consoleread_removes hf.1 hf.2 (by omega) rfl rfl nofun
        refine ⟨hbytes hlen hgood, ?_⟩
        dsimp only
        rw [hret]
        split <;> omega
    · rename_i ip off hkind
      have hn : 0 ≤ n := by
        rcases hn with h | h | h
        · exact h
        · exact absurd (by rw [h]; rfl) hread
        · exact absurd hkind (h ip off)
      rw [OpenFile.Fits, hkind] at hf
      have hu : Fs.intToU32 n = n.toNat := by
        unfold Fs.intToU32
        omega
      rw [hu]
      refine wp_seq (wp_any _ s) fun _ s1 _ => ?_
      refine wp_seq (readiTo_within hw haddr hf (by omega) s1) fun r s2 hr => ?_
      refine wp_seq (wp_any _ s2) fun _ s3 _ => ?_
      exact ⟨hr.1, by have := hr.2; dsimp only; omega⟩
    · trivial

end

/-! ## A negative count -/

/-- The bitmap has no block to give: all are marked, or the first that is not is block 0. -/
def NoFree (sb : Fs.Superblock) (d : Disk) : Prop := ∀ c, Fs.FirstFree sb d c → c = 0

/-- Block `bn` of a file is a hole, and there is no block for it; or there is one, and the indirect block takes it. -/
def NoBlock (sb : Fs.Superblock) (d : Disk) (x : Fs.Dinode) (bn : Nat) : Prop :=
  Fs.blockOf d x bn = 0 ∧ (NoFree sb d ∨ Fs.ndirect ≤ bn ∧ x.indirect = 0 ∧
    ∃ c, Fs.FirstFree sb d c ∧ NoFree sb (update (Fs.markUsed sb d c) c zero))

/-- `readi` with the count `n < 0` has nothing to store: nothing is left of the file, the count is
cut off by the test for wrap-around, the first byte cannot be copied, or it has no block. -/
def Spared (sb : Fs.Superblock) (w : Nat → Bool) (ip off addr : Nat) (n : Int) (s : Fs.St) : Prop :=
  (s.itab ip).din.size ≤ off ∨ 0 ≤ off + n ∨ w addr = false ∨ NoBlock sb s.disk (s.itab ip).din (off / bsize)

section

variable {sb : Fs.Superblock} {w : Nat → Bool} {ip off addr : Nat} {n : Int} {s s' : Fs.St}

theorem FirstFree.noFree_iff {d : Disk} {c : Nat} (h : Fs.FirstFree sb d c) : NoFree sb d ↔ c = 0 := by
  exact ⟨fun hno => hno c h, fun h0 c' h' => (h'.unique h).trans h0⟩

/-- The block that `balloc` returns, in any state of the bitmap. -/
theorem balloc_zero (s : Fs.St) : wp (fun _ => True) (Fs.balloc sb) (fun a s1 => (a = 0 ↔ NoFree sb s.disk) ∧
    (a ≠ 0 → Fs.FirstFree sb s.disk a ∧ s1.disk = update (Fs.markUsed sb s.disk a) a zero)) s := by
  rcases Fs.balloc_cases s with ⟨b, hb, hrun⟩ | ⟨hall, hrun⟩
  · refine wp_congr hrun (wp_mono (Fs.takeBlock_wp Fs.tolerant_any (.inr trivial)) fun a s1 hs => ?_)
    obtain ⟨rfl, hdisk, -⟩ := hs
    exact ⟨(FirstFree.noFree_iff hb).symm, fun _ => ⟨hb, hdisk⟩⟩
  · have hpure : Fs.balloc sb s = (pure 0 : Fs.FsM Nat) s := hrun
    refine wp_congr hpure ⟨iff_of_true rfl fun c hc => ?_, fun h => absurd rfl h⟩
    have hmark := hall c hc.lt
    rw [hc.free] at hmark
    cases hmark

theorem noBlock_iff {d : Disk} {x : Fs.Dinode} {bn : Nat} (hb : Fs.blockOf d x bn = 0)
    (hind : bn < Fs.ndirect ∨ x.indirect ≠ 0) : NoBlock sb d x bn ↔ NoFree sb d := by
  rw [NoBlock, and_iff_right hb]
  refine or_iff_left fun h => ?_
  rcases hind with hd | hne
  · omega
  · exact hne h.2.1

/-- `bmap` returns 0 when the block is a hole and the bitmap has too few blocks to give. -/
theorem bmap_zero (i bn : Nat) (s : Fs.St) :
    wp (fun _ => True) (Fs.bmap sb i bn) (fun a _ => a = 0 ↔ NoBlock sb s.disk (s.itab i).din bn) s := by
  unfold Fs.bmap
  rw [wp_get_bind]
  dsimp only
  split
  · rename_i hbn
    have hblk : Fs.blockOf s.disk (s.itab i).din bn = _ := Fs.blockOf_direct hbn
    split
    · rename_i h0
      rw [noBlock_iff (hblk.trans h0) (.inl hbn)]
      refine wp_seq (balloc_zero s) fun a s1 ha => ?_
      split
      · rename_i h
        exact h ▸ ha.1
      · exact ha.1
    · rename_i hne
      exact iff_of_false hne fun h => hne (hblk.symm.trans h.1)
  · rename_i hdirect
    split
    · rename_i hbn
      have hblk : Fs.blockOf s.disk (s.itab i).din bn = _ := Fs.blockOf_indirect (by omega) hbn
      have hlast : ∀ (s1 : Fs.St) (ind : Nat), ind ≠ 0 → (NoBlock sb s.disk (s.itab i).din bn ↔
            Fs.slot (s1.disk ind) bn = 0 ∧ NoFree sb s1.disk) →
          wp (fun _ => True) (do
            if ind = 0 then pure 0
            else do
              let s ← get
              if Fs.slot (s.disk ind) bn = 0 then do
                let addr ← Fs.balloc sb
                if addr = 0 then pure 0
                else do
                  let s ← get
                  Fs.store sb ind (Fs.putSlot (s.disk ind) bn addr)
                  pure addr
              else pure (Fs.slot (s.disk ind) bn)) (fun a _ => a = 0 ↔ NoBlock sb s.disk (s.itab i).din bn) s1 := by
        intro s1 ind hind hiff
        rw [if_neg hind, wp_get_bind, hiff]
        split
        · rename_i h0
          rw [and_iff_right h0]
          refine wp_seq (balloc_zero s1) fun a s2 ha => ?_
          split
          · rename_i h
            exact h ▸ ha.1
          · rw [wp_get_bind]
            exact wp_seq (wp_any _ s2) fun _ _ _ => ha.1
        · rename_i hne
          exact iff_of_false hne fun h => hne h.1
      rw [wp_bind]
      by_cases hi : (s.itab i).din.indirect = 0
      · rw [if_pos hi] at hblk ⊢
        refine wp_seq (balloc_zero s) fun a s1 ha => ?_
        split
        · rename_i h0
          exact iff_of_true rfl ⟨hblk, .inl (ha.1.mp h0)⟩
        · -- the new indirect block is empty
          rename_i hne
          obtain ⟨hfirst, hdisk⟩ := ha.2 hne
          refine hlast (s1.setDin i _) a hne ?_
          rw [show (s1.setDin i _).disk = s1.disk from rfl, hdisk, update_self, NoBlock, and_iff_right hblk,
            and_iff_right Fs.slot_zero, or_iff_right fun h => hne (ha.1.mpr h),
            and_iff_right (Nat.le_of_not_lt hdirect), and_iff_right hi]
          refine ⟨fun h => ?_, fun h => ⟨a, hfirst, h⟩⟩
          obtain ⟨c, hc, hno⟩ := h
          rwa [hc.unique hfirst] at hno
      · rw [if_neg hi] at hblk ⊢
        refine hlast s _ hi ?_
        refine ⟨fun h => ?_, fun h => (noBlock_iff (hblk.trans h.1) (.inr hi)).mpr h.2⟩
        exact ⟨hblk.symm.trans h.1, (noBlock_iff h.1 (.inr hi)).mp h⟩
    · trivial

/-- The loop only adds stores. -/
theorem readLoopTo_mono {i n dst : Nat} (fuel : Nat) : ∀ (tot off : Nat) (st : List Store) (s : Fs.St),
    wp (fun _ => True) (readLoopTo sb w i n dst fuel tot off st) (fun r _ => ∀ x ∈ st, x ∈ r.2) s := by
  induction fuel with
  | zero => exact fun tot off st s x hx => hx
  | succ fuel ih =>
    intro tot off st s
    rw [readLoopTo]
    split
    · refine wp_seq (wp_any _ s) fun addr s1 _ => ?_
      split
      · exact fun x hx => hx
      · rw [wp_get_bind]
        dsimp only
        split
        · refine wp_mono (ih _ _ _ s1) fun r _ hr x hx => hr x (List.mem_append_left _ hx)
        · exact fun x hx => List.mem_append_left _ hx
    · exact fun x hx => hx

theorem readiTo_negative (hn : n < 0) (hmin : -2 ^ 31 ≤ n) (hoff : off < 2 ^ 32) (haddr : addr < 2 ^ 64) {r : Int}
    {st : List Store} (hrun : readiTo sb w ip addr off (Fs.intToU32 n) s = .ok ((r, st), s')) :
    (Spared sb w ip off addr n s ∧ st = [] ∧ r ≤ 0) ∨ (¬Spared sb w ip off addr n s ∧ ∃ b, (addr, b) ∈ st) := by
  have hu : (Fs.intToU32 n : Int) = 2 ^ 32 + n := by
    unfold Fs.intToU32
    omega
  generalize Fs.intToU32 n = u at hu hrun
  rw [readiTo] at hrun
  change (if (s.itab ip).din.size < off ∨ Fs.u32 (off + u) < off then _ else _ : Fs.FsM (Int × List Store)) s = _ at hrun
  generalize hsize : (s.itab ip).din.size = size at hrun
  by_cases hguard : size < off ∨ Fs.u32 (off + u) < off
  · rw [if_pos hguard] at hrun
    cases hrun
    refine .inl ⟨?_, rfl, Int.le_refl 0⟩
    unfold Fs.u32 at hguard
    rcases hguard with h | h
    · exact .inl (by omega)
    · exact .inr (.inl (by omega))
  rw [if_neg hguard] at hrun
  have hsum : off + n < 0 := by
    unfold Fs.u32 at hguard
    omega
  generalize hcount : (if size < Fs.u32 (off + u) then size - off else u) = count at hrun
  by_cases hend : size = off
  · -- nothing is left of the file
    obtain rfl : count = 0 := by
      unfold Fs.u32 at hcount
      split at hcount <;> omega
    cases hrun
    exact .inl ⟨.inl (by omega), rfl, Int.le_refl 0⟩
  obtain ⟨k, rfl⟩ : ∃ k, count = k + 1 := Nat.exists_eq_succ_of_ne_zero (by
    unfold Fs.u32 at hcount hguard
    split at hcount <;> omega)
  rw [readLoopTo, if_pos (Nat.succ_pos k)] at hrun
  cases hb : Fs.bmap sb ip (off / bsize) s with
  | error e =>
    rw [run_bind_error hb] at hrun
    cases hrun
  | ok p =>
    obtain ⟨a, s1⟩ := p
    rw [run_bind_ok hb] at hrun
    have hzero : a = 0 ↔ NoBlock sb s.disk (s.itab ip).din (off / bsize) := (bmap_zero ip (off / bsize) s).ok hb
    by_cases ha : a = 0
    · rw [if_pos ha] at hrun
      cases hrun
      exact .inl ⟨.inr (.inr (.inr (hzero.mp ha))), rfl, Int.le_refl 0⟩
    rw [if_neg ha] at hrun
    change (if reach w ((addr + 0) % 2 ^ 64) (min (k + 1 - 0) (bsize - off % bsize)) = min (k + 1 - 0) (bsize - off % bsize)
      then _ else _ : Fs.FsM (Int × List Store)) s1 = _ at hrun
    have hmod : (addr + 0) % 2 ^ 64 = addr := Nat.mod_eq_of_lt haddr
    obtain ⟨m, hm⟩ : ∃ m, min (k + 1 - 0) (bsize - off % bsize) = m + 1 := Nat.exists_eq_succ_of_ne_zero (by
      unfold bsize
      omega)
    rw [hmod, hm] at hrun
    cases hwa : w addr with
    | false =>
      rw [Vm.reach_refused hwa, if_neg (Nat.succ_ne_zero m).symm] at hrun
      cases hrun
      exact .inl ⟨.inr (.inr (.inl hwa)), by simp [storesAt, slice], by decide⟩
    | true =>
      refine .inr ⟨?_, ?_⟩
      · rintro (h | h | h | h)
        · omega
        · omega
        · rw [h] at hwa
          cases hwa
        · exact ha (hzero.mpr h)
      · obtain ⟨j, hj⟩ : ∃ j, reach w addr (m + 1) = j + 1 := ⟨_, by rw [reach, if_pos hwa]⟩
        have hfirst : (addr, (slice (s1.disk a) (off % bsize) (j + 1)).getD 0 0) ∈
            storesAt addr (slice (s1.disk a) (off % bsize) (j + 1)) :=
          List.mem_map.mpr ⟨0, List.mem_range.mpr (by rw [slice_length]; omega), by rw [hmod]⟩
        rw [hj] at hrun
        split at hrun
        · have hmono := (readLoopTo_mono k _ _ _ s1).ok hrun
          exact ⟨_, hmono _ hfirst⟩
        · cases hrun
          exact ⟨_, hfirst⟩

theorem mayWrite_below {m : Bytes} {pagetable va : Nat} (h : Vm.mayWrite m pagetable va = true) : va < Vm.maxva := by
  have hpage := (of_decide_eq_true h).1
  unfold Vm.pgrounddown Vm.pgsize Vm.maxva at *
  omega

/-- `fileread` of an inode, in its parts. -/
theorem fileread_inode {f f' : OpenFile} {r : Int} {st : List Store} (hread : f.readable = true) (hkind : f.kind = .inode ip off)
    (hrun : fileread sb w f addr n s = .ok ((r, st, f'), s')) :
    ∃ s0 s1, Fs.ilock sb ip s = .ok ((), s0) ∧ readiTo sb w ip addr off (Fs.intToU32 n) s0 = .ok ((r, st), s1) := by
  rw [fileread, hread, hkind] at hrun
  simp only [Bool.not_true, Bool.false_eq_true, if_false] at hrun
  cases hl : Fs.ilock sb ip s with
  | error e =>
    rw [run_bind_error hl] at hrun
    cases hrun
  | ok p =>
    obtain ⟨⟨⟩, s0⟩ := p
    rw [run_bind_ok hl] at hrun
    cases hr : readiTo sb w ip addr off (Fs.intToU32 n) s0 with
    | error e =>
      rw [run_bind_error hr] at hrun
      cases hrun
    | ok p =>
      obtain ⟨⟨r0, st0⟩, s1⟩ := p
      rw [run_bind_ok hr] at hrun
      refine ⟨s0, s1, rfl, ?_⟩
      cases hu : Fs.iunlock ip s1 with
      | error e =>
        rw [run_bind_error hu] at hrun
        cases hrun
      | ok p =>
        rw [run_bind_ok hu] at hrun
        cases hrun
        exact hr

end

/-- A read by a user with page table `pagetable` stays within the `max n 0` bytes from `addr` on, and
returns no more than that, exactly when the count is not negative, the file is not an inode that can
be read, or `readi` has nothing to store. -/
theorem read_within_buffer_iff {sb : Fs.Superblock} {m : Bytes} {pagetable addr : Nat} {n : Int} {f f' : OpenFile}
    {s s' : Fs.St} {r : Int} {st : List Store} (haddr : addr < 2 ^ 64) (hmin : -2 ^ 31 ≤ n) (hmax : n < 2 ^ 31) (hf : f.Fits)
    (hrun : fileread sb (Vm.mayWrite m pagetable) f addr n s = .ok ((r, st, f'), s')) :
    (Within addr n.toNat st ∧ r ≤ max n 0) ↔
      (0 ≤ n ∨ f.readable = false ∨ ∀ ip off s0, f.kind = .inode ip off → Fs.ilock sb ip s = .ok ((), s0) →
        Spared sb (Vm.mayWrite m pagetable) ip off addr n s0) := by
  by_cases hsafe : 0 ≤ n ∨ f.readable = false ∨ ∀ ip off, f.kind ≠ .inode ip off
  · have hgood : Within addr n.toNat st ∧ r ≤ max n 0 :=
      (fileread_within (fun _ => mayWrite_below) haddr hmax hf hsafe s).ok hrun
    refine ⟨fun _ => ?_, fun _ => hgood⟩
    rcases hsafe with h | h | h
    · exact .inl h
    · exact .inr (.inl h)
    · exact .inr (.inr fun ip off s0 hk => absurd hk (h ip off))
  · simp only [not_or, Bool.not_eq_false, not_forall, not_not] at hsafe
    obtain ⟨hneg, hread, ip, off, hkind⟩ := hsafe
    obtain ⟨s0, s1, hlock, hreadi⟩ := fileread_inode hread hkind hrun
    rw [OpenFile.Fits, hkind] at hf
    rcases readiTo_negative (by omega) hmin hf haddr hreadi with ⟨hspared, rfl, hr⟩ | ⟨hspared, b, hb⟩
    · refine ⟨fun _ => .inr (.inr fun ip' off' s0' hk hl => ?_), fun _ => ⟨nofun, by omega⟩⟩
      rw [hkind] at hk
      cases hk
      rw [hlock] at hl
      cases hl
      exact hspared
    · constructor
      · -- the store to the first byte is outside of the empty buffer
        intro hwithin
        have := hwithin.1 _ hb
        dsimp only at this
        omega
      · rintro (h | h | h)
        · exact absurd h hneg
        · rw [hread] at h
          cases h
        · exact absurd (h ip off s0 hkind hlock) hspared

/-- Inode 2 is a file with the three bytes 1, 2 and 3, in block 100. -/
def threeBytes : Fs.St where
  disk := update (fun _ => zero) 100 (putBytes zero 0 [1, 2, 3])
  outstanding := 0
  lh := []
  itab := update (fun _ => ⟨0, false, false, Fs.Dinode.zero⟩) 2
    ⟨1, false, true, { Fs.Dinode.zero with type := Fs.tFile, nlink := 1, size := 3, addrs := fun j => if j = 0 then 100 else 0 }⟩
  nlive := 1

def threeBytesFile : OpenFile := ⟨true, .inode 2 0⟩

/-- `read(fd, buf, 2)` stores two of them. -/
theorem read_within_buffer_iff_two : ∃ r st f' s',
    fileread Mkfs.sb (Vm.mayWrite (Vm.demo 0x57 0x17) 0x1000) threeBytesFile 0x1000 2 threeBytes = .ok ((r, st, f'), s') ∧
      r = 2 ∧ Within 0x1000 2 st := by
  have hrun : (fileread Mkfs.sb (Vm.mayWrite (Vm.demo 0x57 0x17) 0x1000) threeBytesFile 0x1000 2 threeBytes).toOption.map
      (fun p => p.1.1) = some 2 := by decide +kernel
  obtain ⟨⟨⟨r, st, f'⟩, s'⟩, hok, hr⟩ := exists_of_run hrun
  refine ⟨r, st, f', s', hok, hr, ?_⟩
  have hfits : threeBytesFile.Fits := show 0 < 2 ^ 32 by decide
  exact ((read_within_buffer_iff (by decide) (by decide) (by decide) hfits hok).mpr (.inl (by decide))).1

/-- `read(fd, buf, -1)` stores the whole file. -/
theorem negative_count_reads_the_file : ∃ r st f' s',
    fileread Mkfs.sb (Vm.mayWrite (Vm.demo 0x57 0x17) 0x1000) threeBytesFile 0x1000 (-1) threeBytes = .ok ((r, st, f'), s') ∧
      r = 3 ∧ st = [(0x1000, 1), (0x1001, 2), (0x1002, 3)] ∧ ¬(Within 0x1000 (-1 : Int).toNat st ∧ r ≤ max (-1) 0) := by
  have hrun : (fileread Mkfs.sb (Vm.mayWrite (Vm.demo 0x57 0x17) 0x1000) threeBytesFile 0x1000 (-1) threeBytes).toOption.map
      (fun p => (p.1.1, p.1.2.1)) = some (3, [(0x1000, 1), (0x1001, 2), (0x1002, 3)]) := by decide +kernel
  obtain ⟨⟨⟨r, st, f'⟩, s'⟩, hok, hr⟩ := exists_of_run hrun
  cases hr
  exact ⟨_, _, f', s', hok, rfl, rfl, fun h => absurd h.2 (by decide)⟩

/-! ## What a failed copy removes -/

/-- A read of a pipe with buffer `dst` removes just the bytes that it counts exactly when every byte it
can take can be stored. A read of the console that ends at a failed copy always loses a character, so
it is all right exactly when no copy fails: the buffer refuses none of the characters that the console
offers, at the start of the call and each time it wakes. -/
theorem undelivered_kept_iff {ok : Ipc.St → Ipc.Act → Prop} {s0 s : Ipc.St} {p i m : Nat} {n : Int} {dst : Nat → Bool}
    {c : Console.Cons} {cs : List Console.Cons} (h0 : Ipc.Reached ok s0) (hstart : s0.pc p = .rcopy 0 n dst)
    (hrun : Reach Ipc.act (Ipc.InLoop p n dst) s0 s) (hend : s.pc p = .waking 0 (.rret i n)) (hc : c.Ranged)
    (hcs : ∀ c ∈ cs, c.Ranged) (hm : m < 2 ^ 31) :
    (s.taken = s0.taken ++ s0.pipe.contents.take i ↔ ∀ k < s0.pipe.offered n, dst k = true) ∧
    let res := Console.consoleread dst m m [] 0 c cs
    ((res.why = none → (res.removed : Int) = res.ret) ↔
      ∀ k < Console.offered m (c.waiting ++ cs.flatMap Console.Cons.waiting), dst k = true) := by
  constructor
  · obtain ⟨hle, hgood, hstop, -, htaken⟩ := Ipc.piperead_copies h0 hstart hrun hend
    constructor
    · intro hkept k hk
      by_cases hlt : i < s0.pipe.offered n
      · -- one byte too many is gone
        rw [htaken, if_pos hlt, List.append_cancel_left_eq] at hkept
        have hlen := congrArg List.length hkept
        unfold Ipc.Pipe.offered at hlt
        simp only [List.length_take] at hlen
        omega
      · exact hgood k (by omega)
    · intro hall
      have hge : ¬i < s0.pipe.offered n := by
        intro hlt
        rw [hall i hlt] at hstop
        cases hstop hlt
      rw [htaken, if_neg hge]
  · dsimp only
    have hd : Console.Delivered dst m (Console.consoleread dst m m [] 0 c cs) :=
      Console.consoleread_removes hc.1 (fun c hmem => (hcs c hmem).1) hm rfl rfl nofun
    have hlost : (Console.consoleread dst m m [] 0 c cs).why = none →
        ((Console.consoleread dst m m [] 0 c cs).removed : Int) ≠ (Console.consoleread dst m m [] 0 c cs).ret := by
      intro hwhy
      rw [hd.ret, hd.removed, hwhy, if_neg nofun, Console.surplus]
      omega
    have hiff : (Console.consoleread dst m m [] 0 c cs).why = none ↔
        ∃ k < [].length + Console.offered m (c.waiting ++ cs.flatMap Console.Cons.waiting), dst k = false :=
      Console.consoleread_refused_iff hc hcs nofun
    rw [List.length_nil, Nat.zero_add] at hiff
    constructor
    · intro hkept k hk
      by_contra hbad
      have hwhy := hiff.mpr ⟨k, hk, by simpa using hbad⟩
      exact hlost hwhy (hkept hwhy)
    · intro hall hwhy
      obtain ⟨k, hk, hbad⟩ := hiff.mp hwhy
      rw [hall k hk] at hbad
      cases hbad

/-- A writer has stored 7 and 8, and a reader of two bytes is about to copy the first. -/
def startRead (dst : Nat → Bool) : List Ipc.Act :=
  [.sched 0, .sched 1, .write 0 2 fun k => some (if k = 0 then 7 else 8), .read 1 2 dst] ++ List.replicate 69 (.step 0) ++
    List.replicate 2 (.step 1)

theorem startRead_runs {dst : Nat → Bool}
    (hpc : (Lib.run Ipc.act Ipc.init (startRead dst)).map (fun s => s.pc 1) = some (.rcopy 0 2 dst))
    (hbytes : (Lib.run Ipc.act Ipc.init (startRead dst)).map (fun s => (s.taken, s.accepted)) = some ([], [7, 8])) :
    ∃ s0, Ipc.Reached (fun _ _ => True) s0 ∧ Lib.run Ipc.act Ipc.init (startRead dst) = some s0 ∧
      s0.pc 1 = .rcopy 0 2 dst ∧ s0.taken = [] ∧ s0.pipe.contents = [7, 8] := by
  obtain ⟨s0, hs0, hpc⟩ := Option.map_eq_some_iff.mp hpc
  rw [hs0] at hbytes
  simp only [Option.map_some, Option.some.injEq, Prod.mk.injEq] at hbytes
  have hreach : Ipc.Reached (fun _ _ => True) s0 := reach_of_run (fun _ _ _ => trivial) hs0
  have hcont := (Ipc.books_reached hreach).accepted_eq
  rw [hbytes.1, hbytes.2, List.nil_append] at hcont
  exact ⟨s0, hreach, hs0, hpc, hbytes.1, hcont.symm⟩

/-- A console with the line `ab`, of which a reader that has found nothing first gets one character and then, when it
wakes, the other two. -/
def lineInTwo : Console.Cons × List Console.Cons :=
  (⟨fun _ => 0, 0, 0, 0, []⟩,
    [⟨fun _ => 97, 0, 1, 1, []⟩, ⟨fun k => if k = 0 then 97 else if k = 1 then 98 else 10, 1, 3, 3, []⟩])

/-- A buffer with room for two bytes takes both of the pipe and not the three of the console. -/
theorem undelivered_kept_iff_two : ∃ s0 s, Ipc.Reached (fun _ _ => True) s0 ∧ s0.pipe.contents = [7, 8] ∧
    Reach Ipc.act (Ipc.InLoop 1 2 (· < 2)) s0 s ∧ s.pc 1 = .waking 0 (.rret 2 2) ∧
    s.taken = s0.taken ++ s0.pipe.contents.take 2 ∧
    Console.offered 3 (lineInTwo.1.waiting ++ lineInTwo.2.flatMap Console.Cons.waiting) = 3 ∧
    let res := Console.consoleread (· < 2) 3 3 [] 0 lineInTwo.1 lineInTwo.2
    ¬(res.why = none → (res.removed : Int) = res.ret) := by
  obtain ⟨s0, hreach, hrun0, hpc0, htaken0, hcont⟩ := @startRead_runs (· < 2) (by rfl) (by decide +kernel)
  have hrun1 : (Lib.run Ipc.act Ipc.init (startRead (· < 2) ++ [.step 1])).map (fun s => s.pc 1) =
      some (.rcopy 1 2 (· < 2)) := rfl
  have hrun2 : (Lib.run Ipc.act Ipc.init (startRead (· < 2) ++ [.step 1, .step 1])).map (fun s => s.pc 1) =
      some (.rcopy 2 2 (· < 2)) := rfl
  have hrun3 : (Lib.run Ipc.act Ipc.init (startRead (· < 2) ++ [.step 1, .step 1, .step 1])).map (fun s => s.pc 1) =
      some (.waking 0 (.rret 2 2)) := rfl
  rw [run_append, hrun0] at hrun1 hrun2 hrun3
  obtain ⟨s, hs, hend⟩ := Option.map_eq_some_iff.mp hrun3
  obtain ⟨s1, hs1, hs⟩ := Option.bind_eq_some_iff.mp (show (Ipc.act s0 (.step 1)).bind _ = some s from hs)
  obtain ⟨s2, hs2, hs⟩ := Option.bind_eq_some_iff.mp (show (Ipc.act s1 (.step 1)).bind _ = some s from hs)
  obtain ⟨s3, hs3, hlast⟩ := Option.bind_eq_some_iff.mp (show (Ipc.act s2 (.step 1)).bind _ = some s from hs)
  cases hlast
  have hpc1 : s1.pc 1 = .rcopy 1 2 (· < 2) := by simpa [Lib.run, hs1] using hrun1
  have hpc2 : s2.pc 1 = .rcopy 2 2 (· < 2) := by simpa [Lib.run, hs1, hs2] using hrun2
  have hloop : Reach Ipc.act (Ipc.InLoop 1 2 (· < 2)) s0 s :=
    ((Reach.refl.next ⟨0, hpc0⟩ hs1).next ⟨1, hpc1⟩ hs2).next ⟨2, hpc2⟩ hs3
  have hranged : ∀ c ∈ lineInTwo.2, c.Ranged := by
    intro c hc
    simp only [lineInTwo, List.mem_cons, List.not_mem_nil, or_false] at hc
    rcases hc with rfl | rfl <;> exact ⟨by decide, by decide⟩
  have hoffer : Console.offered 3 (lineInTwo.1.waiting ++ lineInTwo.2.flatMap Console.Cons.waiting) = 3 := by decide
  obtain ⟨hpipe, hcons⟩ := undelivered_kept_iff hreach hpc0 hloop hend (m := 3) (c := lineInTwo.1) ⟨by decide, by decide⟩ hranged
    (by decide)
  refine ⟨s0, s, hreach, hcont, hloop, hend, hpipe.mpr fun k hk => ?_, hoffer, fun hkept => ?_⟩
  · simp only [Ipc.Pipe.offered] at hk
    simp only [decide_eq_true_eq]
    omega
  · have := hcons.mp hkept 2 (by rw [hoffer]; decide)
    simp at this

/-- The buffer has room for one byte: the second one is removed and not counted. -/
theorem refused_byte_is_lost :
    (∃ s0 s, Ipc.Reached (fun _ _ => True) s0 ∧ s0.pc 1 = .rcopy 0 2 (· == 0) ∧
      Reach Ipc.act (Ipc.InLoop 1 2 (· == 0)) s0 s ∧ s.pc 1 = .waking 0 (.rret 1 2) ∧ s0.taken = [] ∧
      s0.pipe.contents = [7, 8] ∧ s.taken = [7, 8]) ∧
    (let c : Console.Cons := ⟨fun k => if k = 0 then 97 else if k = 1 then 98 else 10, 0, 3, 3, []⟩
      let res := Console.consoleread (· == 0) 3 3 [] 0 c []
      res.why = none ∧ res.ret = 1 ∧ res.got = [97] ∧ res.removed = 2) := by
  refine ⟨?_, by decide⟩
  obtain ⟨s0, hreach, hrun0, hpc0, htaken0, hcont⟩ := @startRead_runs (· == 0) (by rfl) (by decide +kernel)
  have hrun1 : (Lib.run Ipc.act Ipc.init (startRead (· == 0) ++ [.step 1])).map (fun s => s.pc 1) =
      some (.rcopy 1 2 (· == 0)) := rfl
  have hrun2 : (Lib.run Ipc.act Ipc.init (startRead (· == 0) ++ [.step 1, .step 1])).map (fun s => (s.pc 1, s.taken)) =
      some (.waking 0 (.rret 1 2), [7, 8]) := rfl
  rw [run_append, hrun0] at hrun1 hrun2
  obtain ⟨s, hs, hq⟩ := Option.map_eq_some_iff.mp hrun2
  obtain ⟨s1, hs1, hs⟩ := Option.bind_eq_some_iff.mp (show (Ipc.act s0 (.step 1)).bind _ = some s from hs)
  obtain ⟨s2, hs2, hlast⟩ := Option.bind_eq_some_iff.mp (show (Ipc.act s1 (.step 1)).bind _ = some s from hs)
  cases hlast
  have hpc1 : s1.pc 1 = .rcopy 1 2 (· == 0) := by
    simpa [Lib.run, hs1] using hrun1
  simp only [Prod.mk.injEq] at hq
  exact ⟨s0, s, hreach, hpc0, (Reach.refl.next ⟨0, hpc0⟩ hs1).next ⟨1, hpc1⟩ hs2, hq.1, htaken0, hcont, hq.2⟩

end Xv6.File
