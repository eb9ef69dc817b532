/-
  Xv6.Fs.Coherent — the state of the file system between two functions of fs.c.

  `inodes` gives each inode number its current inode: the copy in memory when the table has
  a valid one, the disk's otherwise, and the empty inode when it is free. `node` is the
  abstract inode: its fields and its bytes, without its blocks.

  `Inv t W` is the invariant. Blocks are owned once and marked in the bit map (`Good`), and a
  valid copy in memory agrees with the disk's up to blocks that only it has (`Synced`), except
  for the inodes in `W`, which are being written. Where `t` holds the agreement is exact, no
  block is leaked and no file has a hole: then reading allocates nothing. Where it does not,
  a file may have holes, which read as zeros.

  Proved: what the functions that move inodes between table and disk do to `Inv` and `node`
  (`iget_wp`, `idup_wp`, `ilock_wp`, `iunlock_wp`, `iupdate_wp`, `setCore_wp`, `ialloc_wp`).
-/

import Xv6.Fs.Alloc

namespace Xv6.Fs

open Xv6.Lib

/-- An inode as the rest of the kernel sees it. -/
structure Node where
  type : Nat
  major : Nat
  minor : Nat
  nlink : Nat
  size : Nat
  data : Bytes

def Node.free : Node := ⟨0, 0, 0, 0, 0, zero⟩

def nodeOf (d : Disk) (x : Dinode) : Node := ⟨x.type, x.major, x.minor, x.nlink, x.size, byteAt d x⟩

/-- A free inode has no fields that matter. -/
def live (x : Dinode) : Dinode := if x.type = 0 then Dinode.zero else x

def St.refs (s : St) (i : Nat) : Nat := (s.itab i).ref

/-- The table holds a valid copy of inode `i`. -/
def St.cached (s : St) (i : Nat) : Prop := 0 < s.refs i ∧ (s.itab i).valid = true

instance (s : St) (i : Nat) : Decidable (s.cached i) := inferInstanceAs (Decidable (_ ∧ _))

/-- One reference to inode `i`. -/
def one (i : Nat) : Nat → Nat := fun j => if j = i then 1 else 0

/-- Whose sleep-locks are held. -/
def St.locks (s : St) (i : Nat) : Bool := (s.itab i).locked

/-- `M` is `L` with the lock of `i` taken, which was free. -/
structure Adds (L : Nat → Bool) (i : Nat) (M : Nat → Bool) : Prop where
  free : L i = false
  eq : M = update L i true

/-- References, valid copies and locks are as they were. -/
structure Tab (s s' : St) : Prop where
  refs : s'.refs = s.refs
  cached : ∀ i, s'.cached i ↔ s.cached i
  outstanding : s'.outstanding = s.outstanding
  locks : s'.locks = s.locks

section

variable (sb : Superblock)

def diskInodes (d : Disk) (i : Nat) : Dinode := if i < sb.ninodes then live (dinodeAt sb d i) else Dinode.zero

def inodes (s : St) (i : Nat) : Dinode :=
  if s.cached i then (s.itab i).din else diskInodes sb s.disk i

def node (s : St) (i : Nat) : Node := nodeOf s.disk (inodes sb s i)

structure Good (t : Prop) (d : Disk) (D : Nat → Dinode) : Prop where
  own : Owned (ptrs d D) (used sb d) sb.dataStart sb.size
  low : ∀ c, c < sb.dataStart → used sb d c = true
  leak : t → NoLeak (ptrs d D) (used sb d) sb.dataStart sb.size
  fits : ∀ i, (D i).Fits
  size : ∀ i, (D i).size ≤ maxfile * bsize
  hole : t → ∀ i bn, bn * bsize < (D i).size → blockOf d (D i) bn ≠ 0

/-- `x` in memory and `y` on disk: the same file, of which `x` may have more zeroed blocks. -/
structure Synced (t : Prop) (d : Disk) (x y : Dinode) : Prop where
  core : x.core = y.core
  sub : ∀ k, y.addrs k = 0 ∨ y.addrs k = x.addrs k
  bytes : byteAt d y = byteAt d x
  tight : t → x = y

structure Inv (t : Prop) (W : Nat → Prop) (s : St) : Prop where
  good : Good sb t s.disk (inodes sb s)
  range : ∀ i, s.cached i → i < sb.ninodes
  alive : ∀ i, s.cached i → (s.itab i).din.type ≠ 0
  sync : ∀ i, ¬ W i → s.cached i → Synced t s.disk (s.itab i).din (dinodeAt sb s.disk i)

/-- No inode is being written. -/
abbrev Ok (t : Prop) (s : St) : Prop := Inv sb t (fun _ => False) s

/-- The same inodes and the same table, as far as its users can tell. -/
structure Same (s s' : St) : Prop extends Tab s s' where
  node : node sb s' = node sb s

/-- The same inodes; the table may have more of them. -/
structure Moved (s s' : St) : Prop where
  node : node sb s' = node sb s
  cached : ∀ i, s.cached i → s'.cached i
  outstanding : s'.outstanding = s.outstanding

/-- And the same disk. -/
structure Placed (s s' : St) : Prop extends Moved sb s s' where
  disk : s'.disk = s.disk

/-- Every file has the blocks that it had, and the same blocks are marked. -/
structure Laid (s s' : St) : Prop where
  used : used sb s'.disk = used sb s.disk
  ptrs : ptrs s'.disk (inodes sb s') = ptrs s.disk (inodes sb s)

/-- The same inodes and locks; the table may have more of them. -/
structure Fetched (s s' : St) : Prop extends Moved sb s s' where
  locks : s'.locks = s.locks

/-- Inode `i` may be locked: it is an inode of the disk, and in use unless `E` tolerates the panic. -/
def Lockable (E : Stop → Prop) (N : Nat → Node) (i : Nat) : Prop :=
  i < sb.ninodes ∧ ((N i).type = 0 → E .ilockNoType)

/-- Inode `i` has become `n`; the table is the same. -/
structure Changed (s : St) (i : Nat) (n : Node) (s' : St) : Prop extends Tab s s' where
  node : node sb s' = update (node sb s) i n

end

variable {sb : Superblock} {t : Prop} {W V : Nat → Prop} {s s' : St}

theorem Tab.refl (s : St) : Tab s s := ⟨rfl, fun _ => Iff.rfl, rfl, rfl⟩

variable {s1 s2 : St} {i b type : Nat} {n : Node} {x y : Dinode} {d d' : Disk} {D : Nat → Dinode}

theorem Tab.trans (h1 : Tab s s1) (h2 : Tab s1 s2) : Tab s s2 where
  refs := h2.refs.trans h1.refs
  cached i := (h2.cached i).trans (h1.cached i)
  outstanding := h2.outstanding.trans h1.outstanding
  locks := h2.locks.trans h1.locks

theorem SameTab.tab (h : SameTab s s') : Tab s s' := by
  refine ⟨?_, fun i => ?_, h.outstanding, ?_⟩
  · unfold St.refs
    rw [h.itab]
  · unfold St.cached St.refs
    rw [h.itab]
  · unfold St.locks
    rw [h.itab]

theorem Same.refl (s : St) : Same sb s s := ⟨Tab.refl s, rfl⟩

theorem Same.trans (h1 : Same sb s s1) (h2 : Same sb s1 s2) : Same sb s s2 :=
  ⟨h1.toTab.trans h2.toTab, h2.node.trans h1.node⟩

theorem Changed.trans_same (h1 : Changed sb s i n s1) (h2 : Same sb s1 s2) :
    Changed sb s i n s2 := ⟨h1.toTab.trans h2.toTab, h2.node.trans h1.node⟩

theorem Same.trans_changed (h1 : Same sb s s1) (h2 : Changed sb s1 i n s2) :
    Changed sb s i n s2 := ⟨h1.toTab.trans h2.toTab, by rw [h2.node, h1.node]⟩

theorem Changed.trans {m : Node} (h1 : Changed sb s i n s1) (h2 : Changed sb s1 i m s2) :
    Changed sb s i m s2 := ⟨h1.toTab.trans h2.toTab, by rw [h2.node, h1.node, update_idem]⟩

theorem live_zero : live Dinode.zero = Dinode.zero := if_pos rfl

theorem inodes_cached (h : s.cached i) : inodes sb s i = (s.itab i).din := if_pos h

theorem inodes_uncached (h : ¬ s.cached i) : inodes sb s i = diskInodes sb s.disk i := if_neg h

theorem nodeOf_zero (d : Disk) : nodeOf d Dinode.zero = Node.free := by
  unfold nodeOf
  rw [byteAt_zero]
  rfl

theorem node_cached (h : s.cached i) : node sb s i = nodeOf s.disk (s.itab i).din := by
  unfold node
  rw [inodes_cached h]

theorem node_type (sb : Superblock) (h : s.cached i) : (node sb s i).type = (s.itab i).din.type := by
  rw [node_cached h]
  rfl

theorem node_nlink (sb : Superblock) (h : s.cached i) : (node sb s i).nlink = (s.itab i).din.nlink := by
  rw [node_cached h]
  rfl

theorem node_size (sb : Superblock) (h : s.cached i) : (node sb s i).size = (s.itab i).din.size := by
  rw [node_cached h]
  rfl

/-! ## Copies that agree -/

theorem Synced.refl (t : Prop) (d : Disk) (x : Dinode) : Synced t d x x := ⟨rfl, fun _ => Or.inr rfl, rfl, fun _ => rfl⟩

/-- A block of the copy on disk is a block of the copy in memory. -/
theorem blockOf_sub (h : ∀ k, y.addrs k = 0 ∨ y.addrs k = x.addrs k) (bn : Nat) :
    (∀ d' : Disk, blockOf d' y bn = 0) ∨ ∀ d' : Disk, blockOf d' y bn = blockOf d' x bn := by
  by_cases hd : bn < ndirect
  · rcases h (directIx bn hd) with h0 | he
    · left; intro d'; rw [blockOf_direct hd, h0]
    · right; intro d'; rw [blockOf_direct hd, blockOf_direct hd, he]
  · by_cases hm : bn < maxfile
    · rcases h 12 with h0 | he
      · left; intro d'; rw [blockOf_indirect (by omega) hm]; exact if_pos h0
      · right; intro d'
        have hi : y.indirect = x.indirect := he
        rw [blockOf_indirect (by omega) hm, blockOf_indirect (by omega) hm, hi]
    · right; intro d'; rw [blockOf_beyond (by omega), blockOf_beyond (by omega)]

/-- While the file keeps its bytes, so does the copy on disk. -/
theorem Synced.step {x' : Dinode} (h : Synced t d x y) (hcore : x'.core = x.core)
    (hgrow : ∀ k, x.addrs k = 0 ∨ x'.addrs k = x.addrs k) (hx : byteAt d' x = byteAt d x)
    (hx' : byteAt d' x' = byteAt d x) (ht : t → x' = x) : Synced t d' x' y where
  core := hcore.trans h.core
  sub k := by
    rcases h.sub k with h0 | he
    · exact Or.inl h0
    · rcases hgrow k with h0 | hg
      · exact Or.inl (he.trans h0)
      · exact Or.inr (he.trans hg.symm)
  bytes := by
    funext o
    rw [hx']
    rcases blockOf_sub h.sub (o / bsize) with h0 | he
    · have hb := congrFun h.bytes o
      unfold byteAt at hb
      rw [h0 d, if_pos rfl] at hb
      unfold byteAt
      rw [h0 d', if_pos rfl]
      exact hb
    · rw [← hx]
      unfold byteAt
      rw [he d']
  tight htt := (ht htt).trans (h.tight htt)

theorem Synced.disk (h : Synced t d x y) (hx : byteAt d' x = byteAt d x) :
    Synced t d' x y := h.step rfl (fun _ => Or.inr rfl) hx hx fun _ => rfl

/-! ## Moving between table and disk -/

theorem Inv.mono (h : Inv sb t W s) (hW : ∀ i, W i → V i) : Inv sb t V s :=
  ⟨h.good, h.range, h.alive, fun i hi => h.sync i fun hw => hi (hW i hw)⟩

theorem used_low (d : Disk) (hb : b < sb.bmapstart) (v : Block) : used sb (update d b v) = used sb d := by
  funext c
  unfold used
  have : sb.bmapstart ≤ bblock sb c := bblock_ge c
  rw [usedAt_update v (by omega)]

/-- A store into an inode block moves no file. -/
theorem Good.low_store (h : Good sb t d D) (hb : b < sb.bmapstart) (v : Block) :
    Good sb t (update d b v) D ∧ ∀ j, byteAt (update d b v) (D j) = byteAt d (D j) := by
  have hm := bmapstart_lt_dataStart sb
  have hhigh : ∀ c, sb.dataStart ≤ c → update d b v c = d c := fun c hc => update_of_ne (by omega) _ _
  refine ⟨⟨?_, ?_, ?_, h.fits, h.size, ?_⟩, byteAt_high h.own hhigh⟩
  · rw [ptrs_high h.own hhigh, used_low d hb]; exact h.own
  · rw [used_low d hb]; exact h.low
  · rw [ptrs_high h.own hhigh, used_low d hb]; exact h.leak
  · intro ht i bn
    rw [blockOf_high h.own hhigh]
    exact h.hole ht i bn

theorem Good.put_inode (h : Good sb t d D) (hi : i < sb.ninodes) (x : Dinode) :
    Good sb t (setDinode sb d i x) D ∧ ∀ j, byteAt (setDinode sb d i x) (D j) = byteAt d (D j) := h.low_store (iblock_lt hi) _

theorem inodes_congr (htab : Tab s s') (hdin : ∀ i, s.cached i → (s'.itab i).din = (s.itab i).din)
    (hdisk : ∀ i, ¬ s.cached i → i < sb.ninodes → dinodeAt sb s'.disk i = dinodeAt sb s.disk i) :
    inodes sb s' = inodes sb s := by
  funext i
  by_cases hc : s.cached i
  · rw [inodes_cached hc, inodes_cached ((htab.cached i).mpr hc), hdin i hc]
  · rw [inodes_uncached hc, inodes_uncached (mt (htab.cached i).mp hc)]
    unfold diskInodes
    split
    · rw [hdisk i hc ‹_›]
    · rfl

/-- The copy on disk of a cached inode does not count. -/
theorem inodes_store (htab : Tab s s') (hitab : s'.itab = s.itab) (hc : s.cached i) (hd : s'.disk = setDinode sb s.disk i x) :
    inodes sb s' = inodes sb s := by
  refine inodes_congr htab (fun j _ => by rw [hitab]) fun j hj _ => ?_
  have hne : j ≠ i := fun he => hj (he ▸ hc)
  rw [hd, dinodeAt_setDinode_ne _ _ hne]

theorem Inv.fits (h : Inv sb t W s) (hc : s.cached i) : (s.itab i).din.Fits := by
  have hf := h.good.fits i
  rwa [inodes_cached hc] at hf

/-- Without holes, a file has the blocks below its size. -/
theorem Inv.mapped (h : Inv sb t W s) (hc : s.cached i) (ht : t) {bn : Nat} (hbn : bn * bsize < (s.itab i).din.size) :
    blockOf s.disk (s.itab i).din bn ≠ 0 := by
  have hhole := h.good.hole ht i bn
  rw [inodes_cached hc] at hhole
  exact hhole hbn

theorem Laid.trans (h1 : Laid sb s s1) (h2 : Laid sb s1 s2) : Laid sb s s2 :=
  ⟨h2.used.trans h1.used, h2.ptrs.trans h1.ptrs⟩

/-- Where the agreement is exact, the disk has every inode. -/
theorem Inv.inodes_eq (h : Ok sb t s) (ht : t) : inodes sb s = diskInodes sb s.disk := by
  funext i
  by_cases hc : s.cached i
  · have hsync := (h.sync i not_false hc).tight ht
    rw [inodes_cached hc, diskInodes, if_pos (h.range i hc), ← hsync, live, if_neg (h.alive i hc)]
  · exact inodes_uncached hc

theorem Inv.laid (h : Ok sb t s) (ht : t) (h' : Ok sb t s') (hd : s'.disk = s.disk) : Laid sb s s' := by
  refine ⟨by rw [hd], ?_⟩
  rw [h.inodes_eq ht, h'.inodes_eq ht, hd]

/-- Inode `i` has changed on disk, and no file has other blocks. -/
theorem Inv.laid_inode (h : Inv sb t W s) (hi : i < sb.ninodes) (hd : s'.disk = setDinode sb s.disk i x)
    (ha : ∀ j, (inodes sb s' j).addrs = (inodes sb s j).addrs) : Laid sb s s' := by
  have hlow := iblock_lt hi
  have hm := bmapstart_lt_dataStart sb
  refine ⟨by rw [hd]; exact used_low _ hlow _, ?_⟩
  rw [ptrs_addrs ha, hd]
  exact ptrs_high h.good.own fun c hc => update_of_ne (by omega) _ _

/-- Blocks have changed, and the table has not. -/
theorem Inv.same_tab (h : Inv sb t W s) (htab : SameTab s s') (hgood : Good sb t s'.disk (inodes sb s')) (hsync : ∀ j, ¬ V j →
      s.cached j → Synced t s'.disk (s.itab j).din (dinodeAt sb s'.disk j)) : Inv sb t V s' := by
  have hcached := htab.tab.cached
  refine ⟨hgood, fun j hj => h.range j ((hcached j).mp hj), fun j hj => ?_, fun j hv hj => ?_⟩
  · rw [htab.itab]
    exact h.alive j ((hcached j).mp hj)
  · rw [htab.itab]
    exact hsync j hv ((hcached j).mp hj)

theorem Inv.type_ne (h : Inv sb t W s) (hc : s.cached i) : (node sb s i).type ≠ 0 := by
  rw [node_type sb hc]
  exact h.alive i hc

/-- A change of the table alone: no copy in memory is lost or changed, and a new one is the disk's. -/
theorem Inv.retab (h : Inv sb t W s) (hd : s'.disk = s.disk) (ho : s'.outstanding = s.outstanding)
    (hkeep : ∀ i, s.cached i → s'.cached i ∧ (s'.itab i).din = (s.itab i).din)
    (hnew : ∀ i, s'.cached i → ¬ s.cached i →
      i < sb.ninodes ∧ (s'.itab i).din = dinodeAt sb s.disk i ∧ (dinodeAt sb s.disk i).type ≠ 0) :
    Inv sb t W s' ∧ Placed sb s s' := by
  have hin : inodes sb s' = inodes sb s := by
    funext i
    by_cases hc : s.cached i
    · rw [inodes_cached hc, inodes_cached (hkeep i hc).1, (hkeep i hc).2]
    · rw [inodes_uncached hc]
      by_cases hc' : s'.cached i
      · obtain ⟨hi, he, hty⟩ := hnew i hc' hc
        rw [inodes_cached hc', he]
        unfold diskInodes live
        rw [if_pos hi, if_neg hty]
      · rw [inodes_uncached hc', hd]
  refine ⟨⟨?_, ?_, ?_, ?_⟩, ⟨?_, fun i hi => (hkeep i hi).1, ho⟩, hd⟩
  · rw [hin, hd]; exact h.good
  · intro i hc'
    by_cases hc : s.cached i
    · exact h.range i hc
    · exact (hnew i hc' hc).1
  · intro i hc'
    by_cases hc : s.cached i
    · rw [(hkeep i hc).2]; exact h.alive i hc
    · obtain ⟨-, he, hty⟩ := hnew i hc' hc
      rwa [he]
  · intro i hw hc'
    rw [hd]
    by_cases hc : s.cached i
    · rw [(hkeep i hc).2]; exact h.sync i hw hc
    · rw [(hnew i hc' hc).2.1]; exact Synced.refl _ _ _
  · unfold node
    rw [hin, hd]

theorem setInode_itab (i : Nat) (x : Inode) (j : Nat) : (s.setInode i x).itab j = if j = i then x else s.itab j := rfl

theorem setDin_itab (i : Nat) (x : Dinode) (j : Nat) :
    (s.setDin i x).itab j = if j = i then { s.itab i with din := x } else s.itab j := rfl

theorem setDin_self (i : Nat) (x : Dinode) : ((s.setDin i x).itab i).din = x := by rw [setDin_itab, if_pos rfl]

/-- Two locks can be released in either order. -/
theorem Adds.swap {L M M' : Nat → Bool} {i j : Nat} (h1 : Adds L i M) (h2 : Adds M j M') : Adds L j (update L j true) ∧
    Adds (update L j true) i M' := by
  have hij : j ≠ i := by
    intro he
    have hfree := h2.free
    rw [h1.eq, he, update_self] at hfree
    cases hfree
  have hj : L j = false := by
    have hfree := h2.free
    rwa [h1.eq, update_of_ne hij] at hfree
  refine ⟨⟨hj, rfl⟩, by rw [update_of_ne hij.symm]; exact h1.free, ?_⟩
  rw [h2.eq, h1.eq, update_comm hij]

theorem locks_setInode (s : St) (i : Nat) (x : Inode) : (s.setInode i x).locks = update s.locks i x.locked := by
  funext j
  unfold St.locks
  rw [setInode_itab]
  exact apply_ite Inode.locked (j = i) _ _

theorem locks_kept {i : Nat} {x : Inode} (h : x.locked = (s.itab i).locked) : (s.setInode i x).locks = s.locks := by
  rw [locks_setInode, h]
  exact update_eq_self s.locks i

theorem refs_setInode {i : Nat} {x : Inode} (hr : x.ref = (s.itab i).ref) : (s.setInode i x).refs = s.refs := by
  funext j
  unfold St.refs
  rw [setInode_itab]
  split
  · rename_i hj; rw [hj, hr]
  · rfl

theorem cached_setInode {i : Nat} {x : Inode} (hr : x.ref = (s.itab i).ref) (hv : x.valid = (s.itab i).valid) (j : Nat) :
    (s.setInode i x).cached j ↔ s.cached j := by
  unfold St.cached
  rw [refs_setInode hr, setInode_itab]
  split
  · rename_i hj; rw [hj, hv]
  · rfl

theorem setDin_tab (i : Nat) (x : Dinode) : Tab s (s.setDin i x) :=
  ⟨refs_setInode rfl, cached_setInode rfl rfl, rfl, locks_kept rfl⟩

theorem inodes_setDin (hc : s.cached i) (x : Dinode) : inodes sb (s.setDin i x) = update (inodes sb s) i x := by
  have htab := setDin_tab (s := s) i x
  funext j
  by_cases hj : j = i
  · subst hj
    rw [update_self, inodes_cached ((htab.cached j).mpr hc), setDin_self]
  · rw [update_of_ne hj]
    unfold inodes
    rw [setDin_itab, if_neg hj]
    exact if_congr (htab.cached j) rfl rfl

theorem Good.recore (h : Good sb t d D)
    (ha : x.addrs = (D i).addrs) (hf : x.Fits) (hsz : x.size ≤ maxfile * bsize)
    (hhole : t → ∀ bn, bn * bsize < x.size → blockOf d x bn ≠ 0) : Good sb t d (update D i x) := by
  have hp : ptrs d (update D i x) = ptrs d D := by
    refine ptrs_addrs fun j => ?_
    by_cases hj : j = i
    · subst hj; rw [update_self, ha]
    · rw [update_of_ne hj]
  refine ⟨hp ▸ h.own, h.low, hp ▸ h.leak, update_fits h.fits hf, fun j => ?_, fun ht j bn => ?_⟩
  · exact forall_update (P := fun _ (y : Dinode) => y.size ≤ maxfile * bsize) hsz (fun j _ => h.size j) j
  · exact forall_update (P := fun _ (y : Dinode) => bn * bsize < y.size → blockOf d y bn ≠ 0) (hhole ht bn)
      (fun j _ => h.hole ht j bn) j

/-- Inode `i` becomes `x`: the abstract inodes. -/
theorem node_update (i : Nat) (x : Dinode) :
    (fun j => nodeOf d (update D i x j)) = update (fun j => nodeOf d (D j)) i (nodeOf d x) := by
  funext j
  by_cases hj : j = i
  · subst hj; rw [update_self, update_self]
  · rw [update_of_ne hj, update_of_ne hj]

/-- The abstract inodes, when inode `i` has become `x` and no file has other bytes. -/
theorem node_of_inodes (hin : inodes sb s' = update (inodes sb s) i x)
    (hbytes : ∀ j, byteAt s'.disk (inodes sb s j) = byteAt s.disk (inodes sb s j)) (hx : nodeOf s'.disk x = n) :
    node sb s' = update (node sb s) i n := by
  unfold node
  rw [hin, node_update, hx]
  congr 1
  funext j
  unfold nodeOf
  rw [hbytes j]

/-- Fields of the copy in memory change, its blocks do not: the inode is ahead of the disk. -/
theorem Inv.setCore (h : Inv sb t W s) (hc : s.cached i) (ha : x.addrs = (s.itab i).din.addrs)
    (hf : x.Fits) (hty : x.type ≠ 0) (hsz : x.size ≤ maxfile * bsize)
    (hhole : t → ∀ bn, bn * bsize < x.size → blockOf s.disk x bn ≠ 0) :
    Inv sb t (fun j => W j ∨ j = i) (s.setDin i x) ∧ Changed sb s i (nodeOf s.disk x) (s.setDin i x) := by
  have htab := setDin_tab (s := s) i x
  have hin : inodes sb (s.setDin i x) = update (inodes sb s) i x := inodes_setDin hc x
  refine ⟨⟨?_, fun j hj => h.range j ((htab.cached j).mp hj), ?_, ?_⟩, htab, ?_⟩
  · rw [hin]
    exact h.good.recore (by rw [ha, inodes_cached hc]) hf hsz hhole
  · intro j hcj
    rw [setDin_itab]
    split
    · exact hty
    · exact h.alive j ((htab.cached j).mp hcj)
  · intro j hj hcj
    rw [setDin_itab, if_neg fun he => hj (Or.inr he)]
    exact h.sync j (fun hw => hj (Or.inl hw)) ((htab.cached j).mp hcj)
  · exact node_of_inodes hin (fun _ => rfl) rfl

/-- Entry `i` gains a reference and keeps the copy it has. -/
theorem Inv.get (h : Inv sb t W s) {v : Bool} (hd : s'.disk = s.disk)
    (ho : s'.outstanding = s.outstanding)
    (hit : s'.itab = update s.itab i { s.itab i with ref := (s.itab i).ref + 1, valid := v })
    (hv : v = true ↔ s.cached i) :
    Inv sb t W s' ∧ Fetched sb s s' ∧ s'.disk = s.disk ∧ s'.refs = s.refs + one i := by
  have hself : s'.itab i = { s.itab i with ref := (s.itab i).ref + 1, valid := v } := by rw [hit, update_self]
  have hother : ∀ j, j ≠ i → s'.itab j = s.itab j := fun j hj => by rw [hit, update_of_ne hj]
  have hcached : ∀ j, s'.cached j ↔ s.cached j := by
    intro j
    by_cases hj : j = i
    · subst hj
      rw [← hv]
      unfold St.cached St.refs
      rw [hself]
      exact ⟨fun hc => hc.2, fun hc => ⟨Nat.succ_pos _, hc⟩⟩
    · unfold St.cached St.refs
      rw [hother j hj]
  have hrefs : s'.refs = s.refs + one i := by
    funext j
    by_cases hj : j = i
    · subst hj
      simp [St.refs, one, hself]
    · simp [St.refs, one, hother j hj, hj]
  have hdin : ∀ j, (s'.itab j).din = (s.itab j).din := by
    intro j
    by_cases hj : j = i
    · subst hj; rw [hself]
    · rw [hother j hj]
  obtain ⟨h1, h2⟩ : Inv sb t W s' ∧ Placed sb s s' :=
    h.retab hd ho (fun j hj => ⟨(hcached j).mpr hj, hdin j⟩) fun j hj hnj => absurd ((hcached j).mp hj) hnj
  refine ⟨h1, ⟨h2.toMoved, ?_⟩, hd, hrefs⟩
  funext j
  unfold St.locks
  by_cases hj : j = i
  · subst hj
    rw [hself]
  · rw [hother j hj]

/-- Entry `i` has a valid copy: its own, or the disk's. -/
theorem Inv.load {x : Inode} (h : Inv sb t W s) (hi : 0 < s.refs i) (hr : x.ref = (s.itab i).ref)
    (hv : x.valid = true) (hfree : ¬ (s.itab i).locked) (hx : x.locked = true) (hkeep : s.cached i → x.din = (s.itab i).din)
    (hnew : ¬ s.cached i → i < sb.ninodes ∧ x.din = dinodeAt sb s.disk i ∧ (dinodeAt sb s.disk i).type ≠ 0) :
    Inv sb t W (s.setInode i x) ∧ Placed sb s (s.setInode i x) ∧ (s.setInode i x).refs = s.refs ∧
      (s.setInode i x).cached i ∧ Adds s.locks i (s.setInode i x).locks := by
  have hrefs : (s.setInode i x).refs = s.refs := refs_setInode hr
  have hci : (s.setInode i x).cached i := by
    refine ⟨by rw [hrefs]; exact hi, ?_⟩
    rw [setInode_itab, if_pos rfl, hv]
  have hself : (s.setInode i x).itab i = x := if_pos rfl
  have hother : ∀ j, j ≠ i → (s.setInode i x).itab j = s.itab j := fun j hj => if_neg hj
  have hcj : ∀ j, j ≠ i → ((s.setInode i x).cached j ↔ s.cached j) := by
    intro j hj
    unfold St.cached
    rw [hrefs, hother j hj]
  obtain ⟨h1, h2⟩ : Inv sb t W (s.setInode i x) ∧ Placed sb s (s.setInode i x) := by
    refine h.retab rfl rfl (fun j hj => ?_) (fun j hj hnj => ?_)
    · by_cases hji : j = i
      · subst hji
        exact ⟨hci, by rw [hself, hkeep hj]⟩
      · exact ⟨(hcj j hji).mpr hj, by rw [hother j hji]⟩
    · by_cases hji : j = i
      · subst hji
        rw [hself]
        exact hnew hnj
      · exact absurd ((hcj j hji).mp hj) hnj
  exact ⟨h1, h2, hrefs, hci, Bool.eq_false_iff.mpr hfree, by rw [locks_setInode, hx]⟩

variable {E : Stop → Prop} (hE : Tolerant E)
include hE

theorem iupdate_wp (h : Inv sb t W s) (hc : s.cached i) (ht : 0 < s.outstanding) :
    wp E (iupdate sb i) (fun _ s' => Inv sb t (fun j => W j ∧ j ≠ i) s' ∧ Same sb s s' ∧ s'.itab = s.itab ∧
      s'.disk = setDinode sb s.disk i (s.itab i).din ∧ ∀ c, c ∈ s'.lh ↔ c = iblock sb i ∨ c ∈ s.lh) s := by
  unfold iupdate
  rw [wp_get_bind]
  refine wp_mono (store_wp hE (Or.inl ht)) ?_
  rintro _ s' ⟨hd, htab, hlog⟩
  have hi : i < sb.ninodes := h.range i hc
  have hd' : s'.disk = setDinode sb s.disk i (s.itab i).din := hd
  have hself : dinodeAt sb s'.disk i = (s.itab i).din := by rw [hd', dinodeAt_setDinode _ _ (h.fits hc)]
  have hother : ∀ j, j ≠ i → dinodeAt sb s'.disk j = dinodeAt sb s.disk j := by
    intro j hj
    rw [hd', dinodeAt_setDinode_ne _ _ hj]
  have hin : inodes sb s' = inodes sb s := inodes_store htab.tab htab.itab hc hd'
  obtain ⟨hg, hbytes⟩ := h.good.put_inode hi (s.itab i).din
  rw [← hd'] at hg hbytes
  refine ⟨h.same_tab htab (hin ▸ hg) fun j hj hcj => ?_, ⟨htab.tab, ?_⟩, htab.itab, hd', hlog⟩
  · by_cases he : j = i
    · subst he
      rw [hself]
      exact Synced.refl _ _ _
    · have hb := hbytes j
      rw [inodes_cached hcj] at hb
      rw [hother j he]
      exact (h.sync j (fun hw => hj ⟨hw, he⟩) hcj).disk hb
  · funext j
    unfold node nodeOf
    rw [hin, hbytes j]

/-- A field of the inode changes, in memory and then on disk. -/
theorem setCore_wp (h : Inv sb t W s) (hc : s.cached i) (ht : 0 < s.outstanding)
    (ha : x.addrs = (s.itab i).din.addrs) (hf : x.Fits) (hty : x.type ≠ 0) (hsz : x.size = (s.itab i).din.size) :
    wp E (iupdate sb i) (fun _ s' => Inv sb t W s' ∧ Changed sb s i (nodeOf s.disk x) s' ∧ Laid sb s s') (s.setDin i x) := by
  have hsize := h.good.size i
  rw [inodes_cached hc] at hsize
  have hhole : t → ∀ bn, bn * bsize < x.size → blockOf s.disk x bn ≠ 0 := by
    intro htt bn hbn
    rw [blockOf_addrs ha]
    exact h.mapped hc htt (hsz ▸ hbn)
  obtain ⟨h1, hch⟩ := h.setCore hc ha hf hty (hsz ▸ hsize) hhole
  refine wp_mono (iupdate_wp hE h1 ((hch.cached i).mpr hc) (hch.outstanding.symm ▸ ht)) ?_
  rintro _ s' ⟨h2, hsame, hitab, hd, -⟩
  refine ⟨h2.mono fun j hj => hj.1.resolve_right hj.2, hch.trans_same hsame, h.laid_inode (h.range i hc) hd fun j => ?_⟩
  rw [inodes_store hsame.toTab hitab ((hch.cached i).mpr hc) hd, inodes_setDin hc]
  by_cases hj : j = i
  · rw [hj, update_self, ha, inodes_cached hc]
  · rw [update_of_ne hj]

theorem iget_wp (h : Inv sb t W s) :
    wp E (iget i) (fun _ s' => Inv sb t W s' ∧ Fetched sb s s' ∧ s'.disk = s.disk ∧ s'.refs = s.refs + one i) s := by
  unfold iget
  rw [wp_get_bind]
  split
  · rename_i href
    refine h.get rfl rfl rfl ?_
    exact ⟨fun hv => ⟨href, hv⟩, fun hc => hc.2⟩
  · rename_i href
    split
    · exact hE.rest _ (by decide) (by decide) (by decide)
    · have h0 : (s.itab i).ref = 0 := by omega
      refine h.get rfl rfl (v := false) ?_ ⟨fun hv => absurd hv (by decide), fun hc => absurd hc.1 href⟩
      rw [h0]
      rfl

omit hE in
theorem idup_wp (h : Inv sb t W s) (hi : 0 < s.refs i) :
    wp E (idup i) (fun _ s' => Inv sb t W s' ∧ Fetched sb s s' ∧ s'.disk = s.disk ∧ s'.refs = s.refs + one i) s :=
  h.get rfl rfl rfl ⟨fun hv => ⟨hi, hv⟩, fun hc => hc.2⟩

theorem ilock_wp (h : Inv sb t W s) (hl : Lockable sb E (node sb s) i) :
    wp E (ilock sb i) (fun _ s' => Inv sb t W s' ∧ Placed sb s s' ∧ s'.refs = s.refs ∧ s'.cached i ∧
      Adds s.locks i s'.locks) s := by
  unfold ilock
  rw [wp_get_bind]
  split
  · exact hE.rest _ (by decide) (by decide) (by decide)
  · rename_i href
    have hi : 0 < s.refs i := by unfold St.refs; omega
    split
    · exact hE.rest _ (by decide) (by decide) (by decide)
    · rename_i hfree
      split
      · rename_i hv
        exact h.load hi rfl hv hfree rfl (fun _ => rfl) fun hc => absurd ⟨hi, hv⟩ hc
      · rename_i hv
        have hnc : ¬ s.cached i := fun hc => hv hc.2
        change wp E (if (dinodeAt sb s.disk i).type = 0 then throw .ilockNoType else pure ()) _ _
        split
        · rename_i h0
          refine hl.2 ?_
          unfold node
          rw [inodes_uncached hnc]
          unfold diskInodes live
          rw [if_pos hl.1, if_pos h0]
          rfl
        · rename_i hne
          exact h.load hi rfl rfl hfree rfl (fun hc => absurd hc hnc) fun _ => ⟨hl.1, rfl, hne⟩

theorem iunlock_wp (h : Inv sb t W s) :
    wp E (iunlock i) (fun _ s' => Inv sb t W s' ∧ Placed sb s s' ∧ s'.refs = s.refs ∧
      ∀ L, Adds L i s.locks → s'.locks = L) s := by
  unfold iunlock
  rw [wp_get_bind]
  split
  · exact hE.rest _ (by decide) (by decide) (by decide)
  · have hc := fun j => cached_setInode (s := s) (i := i) (x := { s.itab i with locked := false }) rfl rfl j
    obtain ⟨h1, h2⟩ : Inv sb t W (s.setInode i { s.itab i with locked := false }) ∧
        Placed sb s (s.setInode i { s.itab i with locked := false }) := by
      refine h.retab rfl rfl (fun j hj => ⟨(hc j).mpr hj, ?_⟩) (fun j hj hnj => absurd ((hc j).mp hj) hnj)
      rw [setInode_itab]
      split
      · rename_i he; rw [he]
      · rfl
    refine ⟨h1, h2, refs_setInode rfl, fun L hL => ?_⟩
    rw [locks_setInode, hL.eq, update_idem]
    exact update_same hL.free

/-- The inode `ialloc` makes. -/
def Node.fresh (type : Nat) : Node := { Node.free with type := type }

omit hE in
theorem uncached_of_free (h : Ok sb t s) (h0 : (dinodeAt sb s.disk i).type = 0) : ¬ s.cached i := by
  intro hc
  have hcore := congrArg Dinode.type (h.sync i not_false hc).core
  exact h.alive i hc (hcore.trans h0)

omit hE in
theorem diskInodes_of_free (h0 : (dinodeAt sb d i).type = 0) : diskInodes sb d i = Dinode.zero := by
  unfold diskInodes live
  rw [if_pos h0, ite_self]

omit hE in
/-- A free inode of the disk is given a type. -/
theorem Inv.claim (h : Ok sb t s) (hi : i < sb.ninodes) (hfree : (dinodeAt sb s.disk i).type = 0)
    (hty : type < 65536) (htab : SameTab s s')
    (hd : s'.disk = setDinode sb s.disk i { Dinode.zero with type := type }) :
    Ok sb t s' ∧ Changed sb s i (Node.fresh type) s' ∧ Laid sb s s' := by
  have hnc := uncached_of_free h hfree
  have hfits : Dinode.Fits { Dinode.zero with type := type } :=
    ⟨hty, Dinode.Fits.zero.major, Dinode.Fits.zero.minor, Dinode.Fits.zero.nlink, Dinode.Fits.zero.size,
      Dinode.Fits.zero.addrs⟩
  have hself : dinodeAt sb s'.disk i = { Dinode.zero with type := type } := by rw [hd, dinodeAt_setDinode _ _ hfits]
  have hother : ∀ j, j ≠ i → dinodeAt sb s'.disk j = dinodeAt sb s.disk j := fun j hj => by
    rw [hd, dinodeAt_setDinode_ne _ _ hj]
  have hcached := htab.tab.cached
  have hin : inodes sb s' = update (inodes sb s) i { Dinode.zero with type := type } := by
    funext j
    by_cases hj : j = i
    · subst hj
      rw [update_self, inodes_uncached (mt (hcached j).mp hnc)]
      unfold diskInodes live
      rw [if_pos hi, hself]
      exact ite_eq_right_iff.mpr fun h0 : type = 0 => h0 ▸ rfl
    · rw [update_of_ne hj]
      unfold inodes diskInodes
      rw [htab.itab, hother j hj]
      exact if_congr (hcached j) rfl rfl
  obtain ⟨hg, hbytes⟩ := h.good.put_inode hi { Dinode.zero with type := type }
  rw [← hd] at hg hbytes
  have hzero : inodes sb s i = Dinode.zero := by rw [inodes_uncached hnc, diskInodes_of_free hfree]
  refine ⟨h.same_tab htab ?_ fun j hj hcj => ?_, ⟨htab.tab, ?_⟩, h.laid_inode hi hd fun j => ?_⟩
  · rw [hin]
    refine hg.recore ?_ hfits (Nat.zero_le _) fun _ bn hbn => absurd hbn (Nat.not_lt_zero _)
    rw [hzero]
  · have hb := hbytes j
    rw [inodes_cached hcj] at hb
    rw [hother j fun he => hnc (he ▸ hcj)]
    exact (h.sync j hj hcj).disk hb
  · refine node_of_inodes hin hbytes ?_
    have hb : byteAt s'.disk { Dinode.zero with type := type } = byteAt s'.disk Dinode.zero := byteAt_addrs rfl
    unfold nodeOf
    rw [hb, byteAt_zero]
    rfl
  · rw [hin]
    by_cases hj : j = i
    · rw [hj, update_self, hzero]
    · rw [update_of_ne hj]

/-- What `ialloc` has done when it returns `r`. -/
def Ialloced (sb : Superblock) (t : Prop) (s : St) (type : Nat) (r : Option Nat) (s' : St) : Prop :=
  match r with
  | none => s' = s ∧ ∀ i, 0 < i → i < sb.ninodes → (node sb s i).type ≠ 0
  | some i => 0 < i ∧ i < sb.ninodes ∧ (node sb s i).type = 0 ∧ Ok sb t s' ∧ (t → Laid sb s s') ∧
      node sb s' = update (node sb s) i (Node.fresh type) ∧ s'.refs = s.refs + one i ∧
      (∀ j, s.cached j → s'.cached j) ∧ s'.outstanding = s.outstanding ∧ s'.locks = s.locks

theorem iallocFrom_wp (h : Ok sb t s) (ht : 0 < s.outstanding) (hty : type < 65536)
    (n : Nat) : ∀ i, 0 < i → i + n = sb.ninodes → (∀ j, 0 < j → j < i → (node sb s j).type ≠ 0) →
      wp E (iallocFrom sb type i n) (Ialloced sb t s type) s := by
  induction n with
  | zero =>
    intro i _ hle hused
    exact ⟨rfl, fun j hj hlt => hused j hj (by omega)⟩
  | succ n ih =>
    intro i hpos hle hused
    unfold iallocFrom
    rw [wp_get_bind]
    split
    · rename_i hfree
      have hi : i < sb.ninodes := by omega
      have hnode : (node sb s i).type = 0 := by
        unfold node
        rw [inodes_uncached (uncached_of_free h hfree), diskInodes_of_free hfree]
        rfl
      apply wp_seq (store_wp hE (Or.inl ht))
      rintro _ s1 ⟨hd1, ht1, -⟩
      obtain ⟨h1, hch, hlaid⟩ := h.claim hi hfree hty ht1 hd1
      apply wp_seq (iget_wp hE h1)
      rintro _ s2 ⟨h2, hm, hd2, hr⟩
      refine ⟨hpos, hi, hnode, h2, fun htt => hlaid.trans (h1.laid htt h2 hd2), hm.node.trans hch.node,
          by rw [hr, hch.refs], fun j hj => ?_,
        hm.outstanding.trans hch.outstanding, hm.locks.trans hch.locks⟩
      exact hm.cached j ((hch.cached j).mpr hj)
    · rename_i hne
      refine ih (i + 1) (by omega) (by omega) fun j hj hlt => ?_
      rcases Nat.lt_succ_iff_lt_or_eq.mp hlt with hji | rfl
      · exact hused j hj hji
      · by_cases hc : s.cached j
        · exact h.type_ne hc
        · unfold node
          rw [inodes_uncached hc, diskInodes, if_pos (by omega), live, if_neg hne]
          exact hne

theorem ialloc_wp (h : Ok sb t s) (ht : 0 < s.outstanding) (hty : type < 65536)
    (hn : 0 < sb.ninodes) :
    wp E (ialloc sb type) (Ialloced sb t s type) s :=
  iallocFrom_wp hE h ht hty _ 1 Nat.one_pos (by omega) fun j _ _ => by omega

end Xv6.Fs
