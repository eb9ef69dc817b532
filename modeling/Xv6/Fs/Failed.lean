/-
  Xv6.Fs.Failed — calls that fail (kernel/sysfile.c: `create`, `sys_link`, `sys_unlink`,
  `sys_mkdir`, `sys_mknod`, `sys_open`).

  A name-space call that fails has come some way: `create` may have an inode with "." and
  "..", `sys_link` has counted a link it cannot make. Each exit takes its steps back, in part
  through the `iput` that frees an inode without a name.

  `sys_open` takes a `struct file` and a descriptor after `create`, and its exits do not take
  the creation back.

  Proved:
  - `failed_calls_leave_no_trace`: the inodes, the references, the locks and the count of open
    transactions are as before.
  - `failed_open_leaves_no_trace`: the same for `open`, with the file table and the
    descriptors, unless the call makes a new file and then finds no `struct file` or no
    descriptor. `open_without_descriptor_creates` is the run where it does.
-/

import Xv6.Fs.Calls
import Xv6.Fs.DirMap

namespace Xv6.Fs

open Xv6.Lib

/-- Nothing has happened: every inode is what it was (its type, counts and bytes), and the call holds no reference,
    lock or transaction that it did not hold before. -/
structure Undone (sb : Superblock) (s s' : St) : Prop where
  nodes : node sb s' = node sb s
  refs : s'.refs = s.refs
  locks : s'.locks = s.locks
  outstanding : s'.outstanding = s.outstanding

variable {type major minor : Nat}

section

variable {sb : Superblock} {t : Prop} {s s' : St} {cwd : Nat}

theorem Did.undone {P : Prop} (h : Did sb t s.refs s.refs s s')
    (hn : ((-1 : Int) = 0 ∧ P) ∨ ((-1 : Int) = -1 ∧ node sb s' = node sb s)) : Undone sb s s' where
  nodes := by
    rcases hn with ⟨h0, -⟩ | ⟨-, hn⟩
    · cases h0
    · exact hn
  refs := h.refs
  locks := h.locks
  outstanding := h.outstanding

theorem create_undone {path : List UInt8} (h : Ready sb t (fun _ => True) s.refs cwd s) (hc : Calm sb s.refs (node sb s))
    (ht : 0 < s.outstanding) (hty : type < 65536) (hrun : create sb cwd path type major minor s = .ok (none, s')) :
    Undone sb s s' := by
  have hspec : wp (fun _ => True) (create sb cwd path type major minor) _ s :=
    create_wp tolerant_any h.ok rfl ht h.paths h.cwdHeld h.cwdUsed (fun _ => trivial) hty
  obtain ⟨-, ho, -, hl, hr, hn⟩ := hspec.ok hrun
  exact ⟨hn hc, hr, hl, ho⟩

/-- Name-space calls that fail leave no trace, in every state of the disk and for every path. -/
theorem failed_calls_leave_no_trace (h : Ready sb t (fun _ => True) s.refs cwd s) (hc : Calm sb s.refs (node sb s)) :
    (∀ path type major minor s', 0 < s.outstanding → type < 65536 →
      create sb cwd path type major minor s = .ok (none, s') → Undone sb s s') ∧
    (∀ old new s', sysLink sb cwd old new s = .ok (-1, s') → Undone sb s s') ∧
    (∀ path s', sysUnlink sb cwd path s = .ok (-1, s') → Undone sb s s') ∧
    (∀ path s', sysMkdir sb cwd path s = .ok (-1, s') → Undone sb s s') ∧
    (∀ path major minor s', sysMknod sb cwd path major minor s = .ok (-1, s') → Undone sb s s') := by
  refine ⟨fun _ _ _ _ _ ht hty hrun => create_undone h hc ht hty hrun, ?_, ?_, ?_, ?_⟩
  · intro old new s' hrun
    obtain ⟨hdid, hexact⟩ := (sysLink_wp tolerant_any h).ok hrun
    exact hdid.undone (hexact hc)
  · intro path s' hrun
    obtain ⟨hdid, hexact⟩ := (sysUnlink_wp tolerant_any h).ok hrun
    exact hdid.undone (hexact hc)
  · intro path s' hrun
    obtain ⟨hdid, hexact⟩ := (makeNode_wp tolerant_any h (by decide) (by decide) (by decide)).ok hrun
    exact hdid.undone (hexact hc)
  · intro path major minor s' hrun
    obtain ⟨hdid, hexact⟩ := (makeNode_wp tolerant_any h (by decide) (by decide) (by decide)).ok hrun
    exact hdid.undone (hexact hc)

end

/-! ## A disk without free blocks -/

/-- An empty root directory, which the first process has as its current directory, on a disk whose first `n` blocks
    are marked. -/
def bare (n outstanding : Nat) : St := solo rootino n emptyDir false outstanding

section

variable {n m : Nat}

theorem bare_refs : (bare n m).refs = one rootino := by
  funext j
  unfold St.refs one
  change (update (fun _ => _) rootino _ j : Inode).ref = _
  by_cases h : j = rootino
  · rw [h, update_self, if_pos rfl]
  · rw [update_of_ne h, if_neg h]

theorem bare_type (j : Nat) : (node Mkfs.sb (bare n m) j).type = if j = rootino then tDir else 0 := by
  change (inodes Mkfs.sb (solo rootino n emptyDir false m) j).type = _
  rw [solo_inodes emptyDir_blockless.fits]
  split <;> rfl

theorem bare_size (j : Nat) : (node Mkfs.sb (bare n m) j).size = 0 := by
  change (inodes Mkfs.sb (solo rootino n emptyDir false m) j).size = _
  rw [solo_inodes emptyDir_blockless.fits]
  split <;> rfl

theorem bare_ready {t : Prop} (hn : Mkfs.nmeta ≤ n) (ht : t → n = Mkfs.nmeta) :
    Ready Mkfs.sb t (fun _ => True) (bare n m).refs rootino (bare n m) where
  ok := solo_ok emptyDir_blockless (by decide) hn ht
  refs := rfl
  paths := by
    refine ⟨fun d _ k hk => ?_, Or.inl trivial, by decide, fun _ => trivial⟩
    unfold Node.Has at hk
    rw [bare_size] at hk
    exact absurd hk (by omega)
  cwdHeld := by
    rw [bare_refs]
    decide
  cwdUsed := ⟨by decide, fun _ => trivial⟩

theorem bare_calm : Calm Mkfs.sb (bare n m).refs (node Mkfs.sb (bare n m)) where
  tame i hty hl := by
    rw [bare_type] at hty
    have hi : i = rootino := by
      by_contra hne
      exact hty (if_neg hne)
    rw [hi, bare_refs]
    decide
  held i hi := by
    rw [bare_refs] at hi
    have he : i = rootino := by
      by_contra hne
      unfold one at hi
      rw [if_neg hne] at hi
      exact Nat.lt_irrefl 0 hi
    rw [bare_type, if_pos he]
    decide
  small := by decide

end

/-- The map of `8 * k` blocks, by bytes. -/
theorem usedMap_bytes (k : Nat) : Mkfs.usedMap (8 * k) = fun j => if j < k then 255 else 0 := by
  induction k with
  | zero => rfl
  | succ k ih =>
    have hdiv : ∀ i < 8, (8 * k + i) / 8 = k ∧ (8 * k + i) % 8 = i := by omega
    have hstep : ∀ i < 8, ∀ b : Block, setBit b (8 * k + i) = update b k (UInt8.ofNat ((b k).toNat ||| 2 ^ i)) := by
      intro i hi b
      rw [setBit, (hdiv i hi).1, (hdiv i hi).2]
    rw [Nat.mul_succ]
    simp only [Mkfs.usedMap, hstep 7 (by decide), hstep 6 (by decide), hstep 5 (by decide), hstep 4 (by decide),
      hstep 3 (by decide), hstep 2 (by decide), hstep 1 (by decide), update_self, update_idem]
    rw [show setBit (Mkfs.usedMap (8 * k)) (8 * k) = _ from hstep 0 (by decide) _, ih]
    funext j
    simp only [update, Nat.lt_irrefl, if_false, Nat.lt_succ_iff_lt_or_eq]
    by_cases hj : j = k <;> simp [hj]

/-- `mkdir("a")` on a disk without free blocks: the new inode is given back when its "." finds no block. -/
theorem failed_calls_leave_no_trace_full :
    Ready Mkfs.sb False (fun _ => True) (bare Mkfs.fssize 0).refs rootino (bare Mkfs.fssize 0) ∧
    Calm Mkfs.sb (bare Mkfs.fssize 0).refs (node Mkfs.sb (bare Mkfs.fssize 0)) ∧
    ∃ s', sysMkdir Mkfs.sb rootino (some [97]) (bare Mkfs.fssize 0) = .ok (-1, s') ∧
      Undone Mkfs.sb (bare Mkfs.fssize 0) s' := by
  have hready : Ready Mkfs.sb False (fun _ => True) (bare Mkfs.fssize 0).refs rootino (bare Mkfs.fssize 0) :=
    bare_ready (by decide) fun h => h.elim
  have hcomp : (sysMkdir Mkfs.sb rootino (some [97]) (bare Mkfs.fssize 0)).toOption.map Prod.fst = some (-1) := by
    unfold bare solo soloDisk
    rw [show Mkfs.fssize = 8 * 250 from rfl, usedMap_bytes]
    decide +kernel
  obtain ⟨⟨r, s'⟩, hrun, rfl⟩ := exists_of_run hcomp
  exact ⟨hready, bare_calm, s', hrun, (failed_calls_leave_no_trace hready bare_calm).2.2.2.1 _ s' hrun⟩

/-! ## open -/

variable {E : Stop → Prop} {B : Nat → Nat}

theorem liftFs_wp {α : Type} {m : FsM α} {Q : α → St → Prop} {s : Sys} (h : wp E m Q s.fs) :
    wp E (liftFs m) (fun a s' => Q a s'.fs ∧ s'.ftab = s.ftab ∧ s'.proc = s.proc) s := by
  unfold wp liftFs at *
  cases hm : m s.fs with
  | ok p => simp only [hm] at h; exact ⟨h, rfl, rfl⟩
  | error e => simp only [hm] at h; exact h

/-- Nothing has happened: the file system, the file table and the descriptors are as before. -/
structure Unopened (sb : Superblock) (s s' : Sys) : Prop where
  fs : Undone sb s.fs s'.fs
  ftab : s'.ftab = s.ftab
  proc : s'.proc = s.proc

section

variable {sb : Superblock} {s : St} {dp cwd : Nat} {name path : List UInt8}

end

section

variable {sb : Superblock} {t : Prop} {s : Sys} {p cwd f ip : Nat} {path : List UInt8} {omode : Nat} {fs : St}

section

variable (h : Ready sb True (fun _ => True) s.fs.refs (s.proc p).cwd s.fs) (hc : Calm sb s.fs.refs (node sb s.fs))
  (hfree : ∀ f < nfile, (s.ftab f).ref = 0 → (s.ftab f).type = .none)
include h hc hfree

end

/-! ## chdir -/

/-- A call that keeps the references leaves the process ready for the next one. -/
theorem Did.ready {fs' : St} (h : Did sb t B B fs fs') (hr : Ready sb t (fun _ => True) B cwd fs) :
    Ready sb t (fun _ => True) B cwd fs' :=
  ⟨h.ok, h.refs, ⟨h.mild.range hr.paths.range, .inl trivial, hr.paths.root, fun _ => trivial⟩, hr.cwdHeld, hr.cwdUsed.1,
    fun _ => trivial⟩

theorem Creates.calm {N N' : Nat → Node} (h : Creates sb B cwd path type major minor ip N N') (hc : Calm sb B N)
    (h0 : type ≠ 0) : Calm sb B N' := by
  obtain ⟨dp, name, k, -, hdir, -, -, -, -, -, heq⟩ := h
  have hother : ∀ i, i ≠ dp → N' i = if i = ip then Node.created type major minor ip dp else N i := by
    intro i hi
    rw [heq, letGo]
    split
    · rw [update_of_ne hi, update_of_ne hi]
      rfl
    · rw [update_of_ne hi]
      rfl
  have htype : (Node.created type major minor ip dp).type = type := by
    unfold Node.created
    split <;> rfl
  refine ⟨fun i hused hlink => ?_, fun i hi => ?_, hc.small⟩
  · by_cases hid : i = dp
    · rw [heq, hid, letGo] at hused hlink
      split at hused
      · rw [update_self] at hused
        exact absurd rfl hused
      · rename_i hkept
        rw [if_neg hkept] at hlink
        exact hid ▸ Nat.pos_of_ne_zero fun h0 => hkept ⟨h0, hlink⟩
    · rw [hother i hid] at hused hlink
      split at hlink
      · rw [created_nlink] at hlink
        cases hlink
      · rename_i hip
        rw [if_neg hip] at hused
        exact hc.tame i hused hlink
  · by_cases hid : i = dp
    · rw [heq, letGo, if_neg fun h => Nat.ne_of_gt hi (hid ▸ h.1), hid, update_self]
      exact hdir ▸ by decide
    · rw [hother i hid]
      split
      · rw [htype]
        exact h0
      · exact hc.held i hi

/-- `chdir` returns -1 and has done nothing; or it returns 0, and the process has given up the directory it was in for
    the one that the path leads to. -/
theorem chdir_moves {path : Option (List UInt8)} {C : Nat → Nat}
    (h : Ready sb t (fun _ => True) s.fs.refs (s.proc p).cwd s.fs) (hc : Calm sb s.fs.refs (node sb s.fs))
    (hrefs : s.fs.refs = C + one (s.proc p).cwd)
    (hcached : (node sb s.fs (s.proc p).cwd).nlink = 0 → s.fs.cached (s.proc p).cwd) :
    wp (fun _ => True) (sysChdir sb p path) (fun r s' => (r = -1 ∧ Unopened sb s s') ∨
      (r = 0 ∧ ∃ name ip, path = some name ∧ (resolve (node sb s.fs) (s.proc p).cwd name false).map Prod.fst = some ip ∧
        (node sb s.fs ip).type = tDir ∧ s'.proc = update s.proc p { s.proc p with cwd := ip } ∧ s'.ftab = s.ftab ∧
        s'.fs.refs = C + one ip ∧ node sb s'.fs = letGo (C + one ip) (s.proc p).cwd (node sb s.fs))) s := by
  unfold sysChdir
  rw [wp_get_bind]
  refine wp_seq (liftFs_wp (chdirInode_wp tolerant_any h hrefs)) ?_
  rintro o s1 ⟨hs1, hftab, hproc⟩
  cases o with
  | none => exact .inl ⟨rfl, ⟨hs1.2 hc, hs1.1.refs, hs1.1.locks, hs1.1.outstanding⟩, hftab, hproc⟩
  | some ip =>
    obtain ⟨hdid, -, hmoved⟩ := hs1
    obtain ⟨name, hpath, hres, hdir, hnode⟩ := hmoved hc hcached
    exact .inr ⟨rfl, name, ip, hpath, hres, hdir, congrArg (update · p _) hproc, hftab, hdid.refs, hnode⟩

end

/-- The first process has the console open as all its descriptors. -/
def crowded : Sys where
  fs := bare Mkfs.nmeta 0
  ftab := update (fun _ => ⟨.none, 0, false, false, 0, 0, 0⟩) 0 ⟨.device, 16, true, true, 0, 0, 1⟩
  proc := update (fun _ => ⟨false, 0, fun _ => none⟩) 0 ⟨true, rootino, fun _ => some 0⟩

theorem crowded_ready : Ready Mkfs.sb True (fun _ => True) crowded.fs.refs (crowded.proc 0).cwd crowded.fs :=
  bare_ready (Nat.le_refl _) fun _ => rfl

/-- `mkdir("d")`, and `chdir("d")` by the same process. -/
def intoNew : Except Stop (Int × Int × Sys) :=
  (sysMkdir Mkfs.sb rootino (some [100]) crowded.fs).bind fun x =>
    (sysChdir Mkfs.sb 0 (some [100]) { crowded with fs := x.2 }).map fun y => (x.1, y)

/-- `mkdir("d")` and `chdir("d")`: the process is in inode 2, and the root directory has no reference left. -/
theorem chdir_moves_down : ∃ s1, sysMkdir Mkfs.sb rootino (some [100]) crowded.fs = .ok (0, s1) ∧
    ∃ s', sysChdir Mkfs.sb 0 (some [100]) { crowded with fs := s1 } = .ok (0, s') ∧ (s'.proc 0).cwd = 2 ∧
      s'.fs.refs = one 2 ∧ node Mkfs.sb s'.fs = node Mkfs.sb s1 := by
  have hcomp : intoNew.toOption.map (fun x => (x.1, x.2.1, (x.2.2.proc 0).cwd, (node Mkfs.sb x.2.2.fs rootino).nlink)) =
      some (0, 0, 2, 2) := by decide +kernel
  obtain ⟨⟨r, r', s'⟩, hrun, hval⟩ := exists_of_run hcomp
  have hr : r = 0 := congrArg Prod.fst hval
  have hr' : r' = 0 := congrArg (fun x => x.2.1) hval
  have hcwd : (s'.proc 0).cwd = 2 := congrArg (fun x => x.2.2.1) hval
  have hlink : (node Mkfs.sb s'.fs rootino).nlink = 2 := congrArg (fun x => x.2.2.2) hval
  subst hr hr'
  unfold intoNew at hrun
  cases hmk : sysMkdir Mkfs.sb rootino (some [100]) crowded.fs with
  | error e =>
    rw [hmk] at hrun
    cases hrun
  | ok x =>
    obtain ⟨r1, s1⟩ := x
    rw [hmk] at hrun
    dsimp only [Except.bind] at hrun
    cases hcd : sysChdir Mkfs.sb 0 (some [100]) { crowded with fs := s1 } with
    | error e =>
      rw [hcd] at hrun
      cases hrun
    | ok y =>
      rw [hcd] at hrun
      cases hrun
      obtain ⟨hdid, hmade⟩ : Did Mkfs.sb True crowded.fs.refs crowded.fs.refs crowded.fs s1 ∧ _ :=
        (makeNode_wp tolerant_any crowded_ready (by decide) (by decide) (by decide)).ok hmk
      obtain ⟨-, p, ip, -, hmade⟩ | ⟨h1, -⟩ := hmade bare_calm
      swap
      · cases h1
      have hcalm : Calm Mkfs.sb s1.refs (node Mkfs.sb s1) := hdid.refs.symm ▸ hmade.calm bare_calm (by decide)
      have hready : Ready Mkfs.sb True (fun _ => True) s1.refs rootino s1 := hdid.refs.symm ▸ hdid.ready crowded_ready
      have hrefs : s1.refs = 0 + one rootino := hdid.refs.trans (bare_refs.trans (zero_add _).symm)
      refine ⟨s1, rfl, s', hcd, hcwd, ?_⟩
      have hcached : s1.cached rootino := hdid.mild.cached rootino (by decide) ((solo_cached rootino).mpr rfl)
      rcases (chdir_moves (s := { crowded with fs := s1 }) (p := 0) hready hcalm hrefs fun _ => hcached).ok hcd with
        ⟨h1, -⟩ | ⟨-, _, ip', -, -, -, hproc, -, hrefs', hnode⟩
      · cases h1
      · rw [hproc, update_self] at hcwd
        obtain rfl : ip' = 2 := hcwd
        rw [zero_add] at hrefs' hnode
        refine ⟨hrefs', ?_⟩
        -- the root directory has links, so that it is not freed
        rw [hnode, letGo] at hlink ⊢
        split at hlink
        · rw [show (crowded.proc 0).cwd = rootino from rfl, update_self] at hlink
          cases hlink
        · rename_i hkept
          exact if_neg hkept

end Xv6.Fs
