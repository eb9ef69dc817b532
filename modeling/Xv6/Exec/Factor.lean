/-
  Xv6.Exec.Factor — `exec` takes apart into the file system's part and memory's part.

  The program's inode is locked while the file is read, so the reads see one file, and they change
  nothing. `execOn f` is `exec` as memory sees it, with the file `f` given. On a consistent file system
  `exec` is `execOn` of the file that the path leads to; afterwards no inode is locked, every reference
  has been put back, and the transaction has ended (`exec_factors`).
-/

import Xv6.Exec.Elf

namespace Xv6.Exec

open Xv6.Lib Xv6.Fs Xv6.Vm

/-! ## Memory's part -/

/-- What a read of `n` bytes at `off` gives. -/
def readAt (f : Node) (off n : Nat) : List UInt8 × Int :=
  (slice f.data off (readCount f.size off n), (readCount f.size off n : Int))

section

variable (f : Node)

def loadsegFromOn (pagetable va offset sz : Nat) : Nat → Nat → VmM Bool
  | 0, _ => pure true
  | fuel + 1, i =>
    if i < sz then do
      let pa ← walkaddr pagetable ((va + i) % 2 ^ 64)
      if pa = 0 then throw .loadseg
      else do
        let n := if sz - i < pgsize then sz - i else pgsize
        modify fun s => { s with mem := putBytes s.mem pa (readAt f (u32 (offset + i)) n).1 }
        if (readAt f (u32 (offset + i)) n).2 ≠ n then pure false
        else loadsegFromOn pagetable va offset sz fuel (u32 (i + pgsize))
    else pure true

def loadsegOn (pagetable va offset sz : Nat) : VmM Bool := loadsegFromOn f pagetable va offset sz (sz / pgsize + 1) 0

def loadOn (pagetable : Nat) : Nat → Nat → Nat → VmM (Bool × Nat)
  | 0, _, sz => pure (true, sz)
  | n + 1, off, sz =>
    if (readAt f off proghdrSize).2 ≠ proghdrSize then pure (false, sz)
    else do
      let ph := Proghdr.at (putBytes zero 0 (readAt f off proghdrSize).1) 0
      if ph.type ≠ elfProgLoad then loadOn pagetable n (u32 (off + proghdrSize)) sz
      else if ph.memsz < ph.filesz then pure (false, sz)
      else if (ph.vaddr + ph.memsz) % 2 ^ 64 < ph.vaddr then pure (false, sz)
      else if ph.vaddr % pgsize ≠ 0 then pure (false, sz)
      else do
        let sz1 ← uvmalloc pagetable sz ((ph.vaddr + ph.memsz) % 2 ^ 64) (flags2perm ph.flags)
        if sz1 = 0 then pure (false, sz)
        else do
          let ok ← loadsegOn f pagetable ph.vaddr (u32 ph.off) (u32 ph.filesz)
          if ok then loadOn pagetable n (u32 (off + proghdrSize)) sz1 else pure (false, sz1)

def badOn (p : Proc) (pagetable sz : Nat) : VmM (Int × Proc) := do
  if pagetable ≠ 0 then procFreepagetable pagetable sz
  pure (-1, p)

def execOn (p : Proc) (path : List UInt8) (argv : Argv) : VmM (Int × Proc) :=
  if (readAt f 0 elfhdrSize).2 ≠ elfhdrSize then badOn p 0 0
  else do
    let elf := Elfhdr.at (putBytes zero 0 (readAt f 0 elfhdrSize).1) 0
    if elf.magic ≠ elfMagic then badOn p 0 0
    else do
      let pagetable ← procPagetable p.trapframe
      if pagetable = 0 then badOn p 0 0
      else do
        let (ok, sz) ← loadOn f pagetable elf.phnum (u32 elf.phoff) 0
        if ok then enter p path argv elf.entry pagetable sz else badOn p pagetable sz

end

/-- A program of memory's part, run by `exec`: the process is what it returns. -/
def onProc (m : VmM (Int × Proc)) : ExecM Int := fun s =>
  match m s.vm with
  | .ok ((r, p), vm) => .ok (r, { s with vm := vm, proc := p })
  | .error e => .error (.vm e)

section

variable {α β : Type} {s : St} {m : VmM α} {c : Prop} {vm : Vm.St}

/-- A program on memory followed by one that is a program on memory. -/
theorem onVm_seq {k : α → ExecM β} {k' : α → VmM β} (h : ∀ a vm, k a { s with vm := vm } = onVm (k' a) { s with vm := vm }) :
    (onVm m >>= k) s = onVm (m >>= k') s := by
  cases hm : m s.vm with
  | ok p =>
    have hl : onVm m s = .ok (p.1, { s with vm := p.2 }) := by
      unfold onVm
      rw [hm]
    rw [run_bind_ok hl, h]
    unfold onVm
    rw [run_bind_ok hm]
  | error e =>
    have hl : onVm m s = .error (.vm e) := by
      unfold onVm
      rw [hm]
    rw [run_bind_error hl]
    unfold onVm
    rw [run_bind_error hm]

theorem onVm_ite {x y : ExecM β} {x' y' : VmM β} [Decidable c] (hx : c → x s = onVm x' s) (hy : ¬c → y s = onVm y' s) :
    (if c then x else y) s = onVm (if c then x' else y') s := by
  split
  next hc => exact hx hc
  next hc => exact hy hc

theorem run_bind_congr {γ δ : Type} {x y : ExecM γ} {k : γ → ExecM δ} (h : x s = y s) : (x >>= k) s = (y >>= k) s := by
  change (x s >>= fun p => k p.1 p.2 : Except Panic (δ × St)) = (y s >>= fun p => k p.1 p.2 : Except Panic (δ × St))
  rw [h]

/-- The same, when the rest also closes the file: the file system is `fs` while `m` runs and `fs'` at the end. -/
theorem onProc_seq {k : α → ExecM Int} {k' : α → VmM (Int × Proc)} {fs fs' : Fs.St} {p : Proc}
    (h : ∀ a vm, k a ⟨fs, vm, p⟩ = onProc (k' a) ⟨fs', vm, p⟩) : (onVm m >>= k) ⟨fs, vm, p⟩ = onProc (m >>= k') ⟨fs', vm, p⟩ := by
  change (onVm m ⟨fs, vm, p⟩ >>= fun c => k c.1 c.2 : Except Panic (Int × St)) =
    match (m vm >>= fun c => k' c.1 c.2 : Except Vm.Stop ((Int × Proc) × Vm.St)) with
    | .ok ((r, p), vm) => .ok (r, ⟨fs', vm, p⟩)
    | .error e => .error (.vm e)
  unfold onVm
  dsimp only
  cases m vm with
  | ok c => exact h c.1 c.2
  | error e => rfl

theorem onProc_run {x : VmM (Int × Proc)} {c : Int × Proc} (h : x s.vm = .ok (c, vm)) :
    onProc x s = .ok (c.1, { s with vm := vm, proc := c.2 }) := by
  unfold onProc
  rw [h]

theorem onProc_ite {x y : ExecM Int} {x' y' : VmM (Int × Proc)} [Decidable c] {t t' : St} (hx : c → x t = onProc x' t')
    (hy : ¬c → y t = onProc y' t') : (if c then x else y) t = onProc (if c then x' else y') t' := by
  split
  next hc => exact hx hc
  next hc => exact hy hc

end

/-! ## The file system's part -/

/-- Inode `ip` has been looked up from `fs0` and is locked. -/
structure Opened (sb : Superblock) (fs0 : Fs.St) (ip : Nat) (fs : Fs.St) : Prop where
  visit : ∃ n, Visit sb fs0 (fs0.refs + one ip) n (some ip) fs
  cached : fs.cached ip
  outstanding : fs.outstanding = fs0.outstanding

/-- The inodes and the references to them are those of `fs0`, nothing is locked, and as many operations are
under way. -/
structure Settled (sb : Superblock) (fs0 fs : Fs.St) : Prop where
  refs : fs.refs = fs0.refs
  nodes : node sb fs = node sb fs0
  unlocked : ∀ i, (fs.itab i).locked = false
  outstanding : fs.outstanding = fs0.outstanding

/-- After `begin_op`. -/
def begun (fs : Fs.St) : Fs.St := { fs with outstanding := fs.outstanding + 1 }

/-- After `end_op`. -/
def ended (fs : Fs.St) : Fs.St :=
  { fs with outstanding := fs.outstanding - 1, lh := if fs.outstanding - 1 = 0 then [] else fs.lh }

/-- The inode that `path` leads to. -/
def program (sb : Superblock) (s : St) (path : List UInt8) : Option Nat :=
  (resolve (node sb s.fs) s.proc.cwd path false).map Prod.fst

section

variable {sb : Superblock} {fs0 fs fs' : Fs.St} {ip cwd off n pagetable sz : Nat} {s : St}

theorem Settled.ended (h : Settled sb (begun fs0) fs) : Settled sb fs0 (ended fs) := by
  refine ⟨h.refs, h.nodes, h.unlocked, ?_⟩
  change fs.outstanding - 1 = _
  rw [h.outstanding]
  rfl

/-- `namei` and `ilock` on a consistent file system. -/
theorem namei_opens (h : Consistent sb cwd fs) (path : List UInt8) :
    (namei sb cwd path fs = .error .igetNoInodes ∧ ninode < fs.nlive + 2) ∨
    ∃ fs1, namei sb cwd path fs = .ok ((resolve (node sb fs) cwd path false).map Prod.fst, fs1) ∧
      match (resolve (node sb fs) cwd path false).map Prod.fst with
      | none => Settled sb fs fs1
      | some ip => ∃ fs2, ilock sb ip fs1 = .ok ((), fs2) ∧ Opened sb fs ip fs2 := by
  have hpaths : Paths sb Other fs.refs (node sb fs) :=
    ⟨h.range, .inr ⟨h.tame, h.dangling⟩, lt_ninodes_of_type h.ok h.root, fun h0 => absurd h0 h.root⟩
  have hspec : wp Other (namex sb cwd path false) _ fs := namex_wp other_tolerant h.ok rfl h.trans hpaths h.cwdHeld
    ⟨lt_ninodes_of_type h.ok h.cwdUsed, fun h0 => absurd h0 h.cwdUsed⟩
  rcases namex_resolves h false path with ⟨hstop, hfull⟩ | ⟨fs1, hrun, hret⟩
  · exact .inl ⟨run_bind_error hstop, hfull⟩
  · obtain ⟨-, hreap, -, hfound, -⟩ := hspec.ok hrun
    obtain ⟨R, n, hvisit⟩ := (namex_runs h false path).ok hrun
    refine .inr ⟨fs1, run_bind_ok hrun, ?_⟩
    cases hr : (resolve (node sb fs) cwd path false).map Prod.fst with
    | none =>
      rw [hr] at hfound
      exact ⟨hfound, hret.nodes, hret.unlocked, hreap.outstanding⟩
    | some ip =>
      rw [hr] at hfound
      obtain ⟨hrefs, hlock⟩ := hfound
      obtain rfl : R = fs.refs + one ip := hvisit.refs.symm.trans hrefs
      have htype : (node sb fs ip).type ≠ 0 := by
        intro h0
        rw [hret.nodes] at hlock
        exact (hlock.2 h0).2.2 rfl
      obtain ⟨⟨⟩, fs2, hlocked, hvisit2, hcached⟩ := wp_total (hvisit.ilock (refs_one_pos _ _) htype)
      have hmoved := (ilock_wp other_tolerant hvisit.ok hlock).ok hlocked
      exact ⟨fs2, hlocked, ⟨n, hvisit2⟩, hcached, hmoved.2.1.outstanding.trans hreap.outstanding⟩

theorem Opened.readi (h : Opened sb fs0 ip fs) (hn : n < 2 ^ 32) :
    readi sb ip off n CopyOut.kernel fs = .ok (readAt (node sb fs0 ip) off n, fs) := by
  obtain ⟨k, hvisit⟩ := h.visit
  have hread : Fs.readi sb ip off n CopyOut.kernel fs = _ := readi_exact hvisit.ok h.cached hn fun _ _ => rfl
  rwa [hvisit.nodes] at hread

theorem Opened.close (h : Opened sb fs0 ip fs) (htame : Tame fs0.refs (node sb fs0)) :
    ∃ fs', iunlockput sb ip fs = .ok ((), fs') ∧ Settled sb fs0 fs' := by
  obtain ⟨k, hvisit⟩ := h.visit
  obtain ⟨⟨⟩, fs', hrun, hvisit'⟩ := wp_total (hvisit.iunlockput htame)
  have hput := ((iunlockput_wp other_tolerant hvisit.ok hvisit.refs hvisit.trans).ok hrun).2.1
  exact ⟨fs', hrun, hvisit'.refs, hvisit'.nodes, fun i => by simp [hvisit'.locked], hput.outstanding.trans h.outstanding⟩

theorem onFs_run {α : Type} {m : FsM α} {a : α} (h : m s.fs = .ok (a, fs')) : onFs m s = .ok (a, { s with fs := fs' }) := by
  unfold onFs
  rw [h]

theorem onFs_stop {α : Type} {m : FsM α} {e : Fs.Stop} (h : m s.fs = .error e) : onFs m s = .error (.fs e) := by
  unfold onFs
  rw [h]

/-! ## Reading while the inode is locked -/

theorem Opened.readi_seq {β : Type} {k : List UInt8 × Int → ExecM β} (h : Opened sb fs0 ip s.fs) (hn : n < 2 ^ 32) :
    (onFs (Fs.readi sb ip off n CopyOut.kernel) >>= k) s = k (readAt (node sb fs0 ip) off n) s :=
    run_bind_ok (onFs_run (h.readi hn))

theorem loadsegFrom_on (h : Opened sb fs0 ip s.fs) {va offset fuel i : Nat} :
    loadsegFrom sb pagetable va ip offset sz fuel i s = onVm (loadsegFromOn
      (node sb fs0 ip) pagetable va offset sz fuel i) s := by
  induction fuel generalizing i s with
  | zero => rfl
  | succ fuel ih =>
    rw [loadsegFrom, loadsegFromOn]
    refine onVm_ite (fun _ => onVm_seq fun pa vm => onVm_ite (fun _ => rfl) fun _ => ?_) fun _ => rfl
    have hn : (if sz - i < pgsize then sz - i else pgsize) < 2 ^ 32 := by
      unfold pgsize
      split <;> omega
    refine (Opened.readi_seq (s := { s with vm := vm }) h hn).trans ?_
    exact onVm_seq fun _ vm' => onVm_ite (fun _ => rfl) fun _ => ih (s := { s with vm := vm' }) h

theorem load_on (h : Opened sb fs0 ip s.fs) :
    load sb pagetable ip n off sz s = onVm (loadOn (node sb fs0 ip) pagetable n off sz) s := by
  induction n generalizing off sz s with
  | zero => rfl
  | succ n ih =>
    rw [load, h.readi_seq (by decide), loadOn]
    refine onVm_ite (fun _ => rfl) fun _ => onVm_ite (fun _ => ih h) fun _ => onVm_ite (fun _ => rfl) fun _ =>
      onVm_ite (fun _ => rfl) fun _ => onVm_ite (fun _ => rfl) fun _ => onVm_seq fun sz1 vm => onVm_ite (fun _ => rfl) fun _ => ?_
    refine (run_bind_congr (loadsegFrom_on (s := { s with vm := vm }) h)).trans ?_
    exact onVm_seq fun ok vm' => onVm_ite (fun _ => ih (s := { s with vm := vm' }) h) fun _ => rfl

/-! ## exec -/

/-- The jump to `bad` closes the file. -/
theorem bad_on (hclose : iunlockput sb ip s.fs = .ok ((), fs')) (pagetable sz : Nat) :
    bad sb ip pagetable sz s = onProc (badOn s.proc pagetable sz) { s with fs := ended fs' } := by
  have hend : ∀ vm, (do onFs (iunlockput sb ip); onFs endOp; pure (-1) : ExecM Int) { s with vm := vm } =
      onProc (pure (-1, s.proc)) { s with fs := ended fs', vm := vm } := by
    intro vm
    rw [run_bind_ok (onFs_run (s := { s with vm := vm }) hclose)]
    rfl
  unfold bad badOn
  split
  · exact onProc_seq fun _ vm => hend vm
  · exact hend s.vm

theorem execFile_on (h : Opened sb fs0 ip s.fs) (hclose : iunlockput sb ip s.fs = .ok ((), fs')) (path : List UInt8)
    (argv : Argv) :
    execFile sb s.proc path argv ip s = onProc (execOn (node sb fs0 ip) s.proc path argv) { s with fs := ended fs' } := by
  have hbad : ∀ vm pagetable sz, bad sb ip pagetable sz { s with vm := vm } =
      onProc (badOn s.proc pagetable sz) { s with fs := ended fs', vm := vm } :=
      fun vm => bad_on (s := { s with vm := vm }) hclose
  unfold execFile execOn
  rw [h.readi_seq (by decide)]
  dsimp only
  refine onProc_ite (fun _ => hbad s.vm 0 0) fun _ => onProc_ite (fun _ => hbad s.vm 0 0) fun _ => onProc_seq fun pagetable vm =>
    onProc_ite (fun _ => hbad vm 0 0) fun _ => ?_
  refine (run_bind_congr (load_on (s := { s with vm := vm }) h)).trans (onProc_seq fun c vm' => ?_)
  refine onProc_ite (fun _ => ?_) fun _ => hbad vm' pagetable c.2
  rw [run_bind_ok (onFs_run (s := { s with vm := vm' }) hclose)]
  exact (onProc_seq fun _ _ => rfl).trans (congrArg (fun m => onProc m _) (bind_pure _))

/-- `exec` on a consistent file system is `execOn` of the program's file, and leaves the file system as it was; or
it ends in the panic of `iget`, for want of two entries in the table. -/
theorem exec_factors (h : Consistent sb s.proc.cwd (begun s.fs)) (path : List UInt8) (argv : Argv) :
    (exec sb path argv s = .error (.fs .igetNoInodes) ∧ ninode < s.fs.nlive + 2) ∨
    ∃ fs', Settled sb s.fs fs' ∧ exec sb path argv s = match program sb s path with
      | none => .ok (-1, { s with fs := fs' })
      | some ip => onProc (execOn (node sb s.fs ip) s.proc path argv) { s with fs := fs' } := by
  have hbegin : exec sb path argv s = (do
    match ← onFs (namei sb s.proc.cwd path) with
    | none => do
      onFs endOp
      pure (-1)
    | some ip => do
      onFs (ilock sb ip)
      execFile sb s.proc path argv ip : ExecM Int) { s with fs := begun s.fs } := rfl
  rw [hbegin]
  have hprogram : program sb s path = (resolve (node sb (begun s.fs)) s.proc.cwd path false).map Prod.fst := rfl
  rcases namei_opens h path with ⟨hstop, hfull⟩ | ⟨fs1, hrun, hres⟩
  · exact .inl ⟨run_bind_error (onFs_stop hstop), hfull⟩
  · rw [← hprogram] at hrun hres
    rw [run_bind_ok (onFs_run hrun)]
    cases hp : program sb s path with
    | none =>
      rw [hp] at hres
      exact .inr ⟨ended fs1, hres.ended, rfl⟩
    | some ip =>
      rw [hp] at hres
      obtain ⟨fs2, hlock, hopened⟩ := hres
      obtain ⟨fs', hclose, hset⟩ := hopened.close h.tame
      refine .inr ⟨ended fs', hset.ended, ?_⟩
      change (onFs (ilock sb ip) >>= fun _ => execFile sb s.proc path argv ip) { s with fs := fs1 } = _
      rw [run_bind_ok (onFs_run (s := { s with fs := fs1 }) hlock)]
      exact execFile_on (s := { s with fs := fs2 }) hopened hclose path argv

end

end Xv6.Exec
