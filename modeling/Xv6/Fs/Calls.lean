/-
  Xv6.Fs.Calls — what the file-system calls do to the inodes (kernel/sysfile.c).

  Each call is specified twice at once. In any state it is `Mild`: held inodes keep their type
  and entries name inodes of the disk. In a `Calm` state, where every inode without a name is
  held, its effect is exact: a function of the inodes before, in which the last `iput` of an
  inode without a name frees it (`letGo`).

  Proved: `sysLink_wp`, `sysUnlink_wp`, `openInode_wp`, `makeNode_wp`, `chdirInode_wp`.
-/

import Xv6.Fs.Links
import Xv6.Fs.Sysfile

namespace Xv6.Fs

open Xv6.Lib

/-- Inode `n` with one link more. -/
def Node.addLink (n : Node) : Node := { n with nlink := (n.nlink + 1) % 65536 }

/-- Inode `n` with one link less. -/
def Node.dropLink (n : Node) : Node := { n with nlink := (n.nlink + 65535) % 65536 }

/-- Directory `n` without entry `k`. -/
def Node.clear (n : Node) (k : Nat) : Node := n.written (16 * k) 16 (List.replicate 16 0)

/-- The inodes after `sys_link` has given inode `ip` the entry `k` of directory `dp`. -/
def linked (B : Nat → Nat) (N : Nat → Node) (ip dp k : Nat) (name : List UInt8) : Nat → Node :=
  letGo B ip (update (update N ip (N ip).addLink) dp ((N dp).link k name ip))

/-- The inodes after `sys_unlink` has removed the entry `k` of directory `dp`, which names `ip`. -/
def unlinked (B : Nat → Nat) (N : Nat → Node) (dp k ip : Nat) : Nat → Node :=
  let N1 := update N dp ((N dp).clear k)
  let N2 := if (N ip).type = tDir then update N1 dp (N1 dp).dropLink else N1
  let N3 := letGo (B + one ip) dp N2
  letGo B ip (update N3 ip (N3 ip).dropLink)

/-- What a call by a process with current directory `cwd` relies on; `B` counts the references. -/
structure Ready (sb : Superblock) (t : Prop) (E : Stop → Prop) (B : Nat → Nat) (cwd : Nat) (s : St) : Prop where
  ok : Ok sb t s
  refs : s.refs = B
  paths : Paths sb E B (node sb s)
  cwdHeld : 0 < B cwd
  cwdUsed : Lockable sb E (node sb s) cwd

/-- The same inodes and table; the log's count may differ. -/
structure Quiet (sb : Superblock) (s s' : St) : Prop where
  node : node sb s' = node sb s
  refs : s'.refs = s.refs
  cached : ∀ i, s'.cached i ↔ s.cached i
  locks : s'.locks = s.locks

variable {sb : Superblock} {t : Prop} {s s' : St} {B : Nat → Nat} {E : Stop → Prop} {cwd : Nat}

theorem Quiet.mild (h : Quiet sb s s') : Mild sb B s s' :=
  ⟨fun _ _ _ => by rw [h.node], fun hr => by rw [h.node]; exact hr, fun i _ hc => (h.cached i).mpr hc⟩

theorem Quiet.ready (h : Quiet sb s s') (ho : Ok sb t s') (hr : Ready sb t E B cwd s) : Ready sb t E B cwd s' :=
  ⟨ho, h.refs.trans hr.refs, by rw [h.node]; exact hr.paths, hr.cwdHeld, by rw [h.node]; exact hr.cwdUsed⟩

theorem beginOp_wp (h : Ok sb t s) :
    wp E beginOp (fun _ s' => Ok sb t s' ∧ Quiet sb s s' ∧ s'.outstanding = s.outstanding + 1) s :=
  ⟨⟨h.good, h.range, h.alive, h.sync⟩, ⟨rfl, rfl, fun _ => Iff.rfl, rfl⟩, rfl⟩

theorem endOp_wp (h : Ok sb t s) :
    wp E endOp (fun _ s' => Ok sb t s' ∧ Quiet sb s s' ∧ s'.outstanding = s.outstanding - 1) s :=
  ⟨⟨h.good, h.range, h.alive, h.sync⟩, ⟨rfl, rfl, fun _ => Iff.rfl, rfl⟩, rfl⟩

/-- A call ends: what held before `end_op` holds after it. -/
theorem endOp_return_wp {α : Type} {a : α} {Q : α → St → Prop} (h : Ok sb t s)
    (hQ : ∀ s', Ok sb t s' → Quiet sb s s' → s'.outstanding = s.outstanding - 1 → Q a s') :
    wp E (do
      endOp
      pure a) Q s := by
  apply wp_seq (endOp_wp h)
  rintro _ s1 ⟨h1, hq, ho⟩
  exact hQ s1 h1 hq ho

/-- The effect of a call at the level of the file system: references `C` are left. -/
structure Did (sb : Superblock) (t : Prop) (B C : Nat → Nat) (s s' : St) : Prop where
  ok : Ok sb t s'
  refs : s'.refs = C
  mild : Mild sb B s s'
  outstanding : s'.outstanding = s.outstanding
  locks : s'.locks = s.locks

/-- A call that has only reaped since `begin_op`, and holds the references `C` and the locks `M`. -/
structure Within (sb : Superblock) (t : Prop) (B C : Nat → Nat) (M : Nat → Bool) (s s' : St) : Prop where
  ok : Ok sb t s'
  refs : s'.refs = C
  locks : s'.locks = M
  mild : Mild sb B s s'
  outstanding : s'.outstanding = s.outstanding + 1
  calm : Calm sb B (node sb s) → node sb s' = node sb s

/-- A call that has returned `a` and changed nothing. -/
structure Quits {α : Type} (sb : Superblock) (t : Prop) (B : Nat → Nat) (a : α) (s : St) (r : α) (s' : St) : Prop where
  ret : r = a
  did : Did sb t B B s s'
  calm : Calm sb B (node sb s) → node sb s' = node sb s

theorem Quits.failed {P : Prop} {r : Int} (h : Quits sb t B (-1) s r s') :
    Did sb t B B s s' ∧ (Calm sb B (node sb s) → P ∨ (r = -1 ∧ node sb s' = node sb s)) :=
  ⟨h.did, fun hc => Or.inr ⟨h.ret, h.calm hc⟩⟩

section

variable {C D : Nat → Nat} {M M' : Nat → Bool} {s1 s2 : St} {α : Type} {a : α}

theorem Within.pos (h : Within sb t B C M s s1) : 0 < s1.outstanding := by
  rw [h.outstanding]
  omega

theorem Within.reap (h : Within sb t B C M s s1) (h2 : Ok sb t s2) (hreap : Reap sb B s1 s2) (hr : s2.refs = D)
    (hl : s2.locks = M') : Within sb t B D M' s s2 := by
  refine ⟨h2, hr, hl, h.mild.trans hreap.mild, hreap.outstanding.trans h.outstanding, fun hc => ?_⟩
  have he := h.calm hc
  rw [node_of_reap hreap h.ok (by rw [he]; exact hc.tame), he]

theorem Within.end_wp (h : Within sb t B B s.locks s s1) :
    wp E (do
      endOp
      pure a) (Quits sb t B a s) s1 := by
  refine endOp_return_wp h.ok fun s2 h2 hq ho => ⟨rfl, ⟨h2, hq.refs.trans h.refs, h.mild.trans hq.mild, ?_,
    hq.locks.trans h.locks⟩, fun hc => ?_⟩
  · rw [ho, h.outstanding, Nat.add_sub_cancel]
  · rw [hq.node, h.calm hc]

/-- What a path names, if it names something: it is held, and can be locked. -/
def Looked (sb : Superblock) (t : Prop) (E : Stop → Prop) (B : Nat → Nat) (s s' : St) : Option Nat → Prop
  | none => Within sb t B B s.locks s s'
  | some ip => Within sb t B (B + one ip) s.locks s s' ∧ Lockable sb E (node sb s') ip ∧ Paths sb E B (node sb s')

/-- The state after `begin_op`. -/
structure Begun (sb : Superblock) (t : Prop) (E : Stop → Prop) (B : Nat → Nat) (cwd : Nat) (s s' : St) : Prop extends
    Within sb t B B s.locks s s', Ready sb t E B cwd s' where
  same : node sb s' = node sb s

theorem begin_wp (h : Ready sb t E B cwd s) : wp E beginOp (fun _ s1 => Begun sb t E B cwd s s1) s := by
  refine wp_mono (beginOp_wp h.ok) ?_
  rintro _ s1 ⟨h1, hq, ho⟩
  have hr := hq.ready h1 h
  exact ⟨⟨h1, hr.refs, hq.locks, hq.mild, ho, fun _ => hq.node⟩, hr.paths, hr.cwdHeld, hr.cwdUsed, hq.node⟩

theorem Begun.looked {r : Option Nat} (h : Begun sb t E B cwd s s1) (h2 : Ok sb t s2) (hreap : Reap sb B s1 s2)
    (hl : s2.locks = s1.locks) (hfound : Found sb E B s2 r) : Looked sb t E B s s2 r := by
  have hlocks := hl.trans h.locks
  cases r with
  | none => exact h.reap h2 hreap hfound hlocks
  | some ip => exact ⟨h.reap h2 hreap hfound.1 hlocks, hfound.2, h.paths.reap h.ok hreap⟩

end

section

variable (hE : Tolerant E)
include hE

variable {M M' : Nat → Bool} {s1 : St} {ip k dp type major minor : Nat} {path : List UInt8} {C : Nat → Nat} {n : Node}

theorem Within.ilock_wp (h : Within sb t B C M s s1) (hl : Lockable sb E (node sb s1) ip) :
    wp E (ilock sb ip) (fun _ s2 => Within sb t B C s2.locks s s2 ∧ s2.cached ip ∧ Moved sb s1 s2 ∧
      Adds M ip s2.locks) s1 := by
  refine wp_mono (Fs.ilock_wp hE h.ok hl) ?_
  rintro _ s2 ⟨h2, hm, hr, hc, hl⟩
  exact ⟨h.reap h2 hm.reap (hr.trans h.refs) rfl, hc, hm.toMoved, h.locks ▸ hl⟩

theorem Within.put_wp (h : Within sb t B (C + one ip) M' s s1) (hM : Adds M ip M') (hle : ∀ j, B j ≤ C j) :
    wp E (iunlockput sb ip) (fun _ s2 => Within sb t B C M s s2) s1 := by
  refine wp_mono (iunlockput_wp hE h.ok h.refs h.pos) ?_
  rintro _ s2 ⟨h2, hput, hl⟩
  rw [← h.locks] at hM
  exact h.reap h2 (hput.reap hle) hput.refs (hl M hM)

/-- The inode is let go, and the call fails. -/
theorem Within.undo_wp {α : Type} {a : α} (h : Within sb t B (B + one ip) M s s1) (hM : Adds s.locks ip M) :
    wp E (do
      iunlockput sb ip
      endOp
      pure a) (Quits sb t B a s) s1 := by
  apply wp_seq (h.put_wp hE hM fun _ => Nat.le_refl _)
  intro _ s2 h2
  exact h2.end_wp

theorem Begun.namei_wp (h : Begun sb t E B cwd s s1) :
    wp E (namei sb cwd path) (fun r s2 => Looked sb t E B s s2 r ∧
      (Calm sb B (node sb s) → r = (resolve (node sb s) cwd path false).map Prod.fst)) s1 := by
  refine wp_mono (Fs.namei_wp hE h.ok h.refs h.pos h.paths h.cwdHeld h.cwdUsed) ?_
  rintro r s2 ⟨h2, hreap, hl, hfound, hres⟩
  rw [h.same] at hres
  exact ⟨h.looked h2 hreap hl hfound, fun hc => hres hc.tame⟩

/-- A call that looks up its path and locks what it names. -/
theorem Begun.open_wp {α : Type} {a : α} {k : Nat → FsM α} {Q : α → St → Prop} (h : Begun sb t E B cwd s s1)
    (hnone : ∀ s2, Quits sb t B a s a s2 → Q a s2) (hsome : ∀ ip s2, Within sb t B (B + one ip) s2.locks s s2 →
      Adds s.locks ip s2.locks → s2.cached ip → Paths sb E B (node sb s2) →
      (Calm sb B (node sb s) → (resolve (node sb s) cwd path false).map Prod.fst = some ip) → wp E (k ip) Q s2) :
    wp E (do
      match ← namei sb cwd path with
      | none => do
        endOp
        pure a
      | some ip => do
        ilock sb ip
        k ip) Q s1 := by
  apply wp_seq (h.namei_wp hE)
  rintro r s2 ⟨hlook, hres⟩
  cases r with
  | none =>
    refine wp_mono (Within.end_wp hlook) fun r s3 hs3 => ?_
    obtain rfl := hs3.ret
    exact hnone s3 hs3
  | some ip =>
    obtain ⟨hw2, hty2, hpaths⟩ := hlook
    apply wp_seq (hw2.ilock_wp hE hty2)
    rintro _ s3 ⟨hw3, hc3, hm3, hl3⟩
    exact hsome ip s3 hw3 hl3 hc3 (hm3.node.symm ▸ hpaths) fun hc => (hres hc).symm

/-! ## link -/

theorem linkBad_wp (h : Ok sb t s) (hr : s.refs = B + one ip) (hc : s.cached ip) (ht : 0 < s.outstanding) :
    wp E (linkBad sb ip) (fun r s' => r = -1 ∧ Ok sb t s' ∧ s'.refs = B ∧ Mild sb B s s' ∧
      s'.outstanding = s.outstanding - 1 ∧ s'.locks = s.locks ∧
      ∀ N, node sb s = update N ip (N ip).addLink → (N ip).nlink < 65536 → Tame B N → node sb s' = N) s := by
  unfold linkBad
  apply wp_seq (ilock_wp hE h ⟨h.range ip hc, fun h0 => absurd h0 (h.type_ne hc)⟩)
  rintro _ s1 ⟨h1, hm1, hr1, hc1, hl1⟩
  rw [wp_get_bind, ← node_nlink sb hc1, hm1.node]
  have ht1 : 0 < s1.outstanding := hm1.outstanding.symm ▸ ht
  apply wp_seq (setNlink_wp hE h1 hc1 ht1)
  rintro _ s2 ⟨h2, hch⟩
  rw [hm1.node] at hch
  rw [← hch.locks] at hl1
  apply wp_seq (iunlockput_wp hE h2 (by rw [hch.refs, hr1, hr]) (hch.outstanding.symm ▸ ht1))
  rintro _ s3 ⟨h3, hput, hl3⟩
  have hreap : Reap sb B s2 s3 := hput.reaped
  refine endOp_return_wp h3 fun s4 h4 hq ho => ⟨rfl, h4, hq.refs.trans hput.refs, ?_, ?_, hq.locks.trans (hl3 _ hl1), ?_⟩
  · have hm2 : Mild sb B s1 s2 := by
      refine mild_of_fields hch ?_ ?_ ?_ <;> rw [hm1.node]
    exact ((hm1.mild.trans hm2).trans hreap.mild).trans hq.mild
  · rw [ho, hput.outstanding, hch.outstanding, hm1.outstanding]
  · intro N hN hlt htame
    have hback : node sb s2 = N := by
      rw [hch.node, hm1.node, hN, update_idem, update_self]
      have he : ({ (N ip).addLink with nlink := ((N ip).addLink.nlink + 65535) % 65536 } : Node) = N ip := by
        have hn : ((N ip).addLink.nlink + 65535) % 65536 = (N ip).nlink := by
          change ((((N ip).nlink + 1) % 65536) + 65535) % 65536 = (N ip).nlink
          omega
        rw [hn]
        rfl
      rw [he, update_eq_self]
    rw [hq.node]
    rw [← hback] at htame
    rw [node_of_reap hreap h2 htame, hback]

omit hE in
/-- A path means the same where only an inode's link count differs. -/
theorem Paths.addLink {N : Nat → Node} (hp : Paths sb E B N) (ip : Nat) :
    Paths sb E (B + one ip) (update N ip (N ip).addLink) := by
  have htype : ∀ j, (update N ip (N ip).addLink j).type = (N j).type :=
    forall_update (P := fun j (n : Node) => n.type = (N j).type) rfl fun _ _ => rfl
  have hinum : ∀ j, (update N ip (N ip).addLink j).inum = (N j).inum :=
    forall_update (P := fun j (n : Node) => n.inum = (N j).inum) rfl fun _ _ => rfl
  have hhas : ∀ j, (update N ip (N ip).addLink j).Has = (N j).Has :=
    forall_update (P := fun j (n : Node) => n.Has = (N j).Has) rfl fun _ _ => rfl
  refine ⟨fun d hd k hk => ?_, ?_, hp.root, by rw [htype]; exact hp.rootUsed⟩
  · rw [htype] at hd
    rw [hhas] at hk
    rw [hinum]
    exact hp.range d hd k hk
  · rcases hp.safe with he | ⟨htame, hdang⟩
    · exact Or.inl he
    · refine Or.inr ⟨(htame.mono (le_add_one B ip)).update (refs_one_pos _ _) _, ?_⟩
      intro d hd k hk hne
      rw [htype] at hd
      rw [hhas] at hk
      rw [hinum] at hne ⊢
      rw [htype]
      exact hdang d hd k hk hne

/-- The directory part of `sys_link`, with inode `ip` held and its count raised. -/
theorem linkEntry_wp {name : List UInt8} (h : Ok sb t s) (hr : s.refs = B + one ip + one dp) (hcip : s.cached ip)
    (hdty : Lockable sb E (node sb s) dp) (hip : ip < sb.ninodes) (ht : 0 < s.outstanding) :
    wp E (do
      ilock sb dp
      let ok ← dirlink sb dp name ip
      iunlockput sb dp
      if !ok then linkBad sb ip
      else do
        iput sb ip
        endOp
        pure 0) (fun r s' => Ok sb t s' ∧ s'.refs = B ∧ Mild sb B s s' ∧ s'.outstanding = s.outstanding - 1 ∧
        s'.locks = s.locks ∧ ∀ N, node sb s = update N ip (N ip).addLink → (N ip).nlink < 65536 → Tame B N →
          (N ip).type ≠ tDir →
          (r = 0 ∧ (N dp).type = tDir ∧ (N dp).find name = none ∧ ∃ k, (N dp).Vacant k ∧
            node sb s' = linked B N ip dp k name) ∨ (r = -1 ∧ node sb s' = N)) s := by
  apply wp_seq (ilock_wp hE h hdty)
  rintro _ s1 ⟨h1, hm1, hr1, hc1, hl1⟩
  have ht1 : 0 < s1.outstanding := hm1.outstanding.symm ▸ ht
  apply wp_seq (dirlink_wp hE h1 hc1 (hr1.trans hr) ht1)
  rintro ok s2 ⟨h2, hr2, ho2, hl2, hres, -⟩
  rw [← hl2] at hl1
  have hCip : 0 < (B + one ip) ip := refs_one_pos _ _
  have hle : ∀ j, B j ≤ (B + one ip + one dp) j := fun j => (le_add_one B ip j).trans (le_add_one _ dp j)
  have hCip' : 0 < (B + one ip + one dp) ip := Nat.lt_of_lt_of_le hCip (le_add_one _ dp ip)
  have hm2 : Mild sb (B + one ip + one dp) s1 s2 := by
    rcases hres with ⟨-, hreap⟩ | ⟨-, -, -, k, hvac, hch⟩
    · exact hreap.mild
    · exact mild_of_link hip hvac hch
  have hc2 : s2.cached ip := hm2.cached ip hCip' (hm1.cached ip hcip)
  have hcd2 : s2.cached dp := hm2.cached dp (refs_one_pos _ _) hc1
  apply wp_seq (iunlockput_wp hE h2 hr2 (ho2.symm ▸ ht1))
  rintro _ s3 ⟨h3, hput, hl3⟩
  have hreap3 : Reap sb (B + one ip) s2 s3 := hput.reaped
  have ho3 : s3.outstanding = s.outstanding := by rw [hput.outstanding, ho2, hm1.outstanding]
  have hm3 : Mild sb B s s3 :=
    (hm1.mild.trans (hm2.mono hle)).trans (hreap3.mild.mono (le_add_one B ip))
  have hc3 : s3.cached ip := hput.cached ip hCip hc2
  rcases hres with ⟨hok, hreap⟩ | ⟨hok, hdir, hfind, k, hvac, hch⟩
  · subst hok
    refine wp_mono (linkBad_wp hE h3 hput.refs hc3 (ho3.symm ▸ ht)) ?_
    rintro r s4 ⟨hr4, h4, hrefs4, hm4, ho4, hl4, hback⟩
    refine ⟨h4, hrefs4, hm3.trans hm4, by rw [ho4, ho3], hl4.trans (hl3 _ hl1), fun N hN hlt htame _ => Or.inr ⟨hr4, ?_⟩⟩
    have hall : Reap sb (B + one ip) s s3 := (hm1.reap.trans (hreap.mono (le_add_one _ dp))).trans hreap3
    refine hback N ?_ hlt htame
    rw [node_of_reap hall h, hN]
    rw [hN]
    exact (htame.mono (le_add_one B ip)).update hCip _
  · subst hok
    rw [hm1.node] at hdir hfind hvac hch
    apply wp_seq (iput_wp hE h3 hput.refs (ho3.symm ▸ ht))
    rintro _ s4 ⟨h4, hput4, hl4⟩
    have hreap4 : Reap sb B s3 s4 := hput4.reaped
    refine endOp_return_wp h4 fun s5 h5 hq ho => ⟨h5, hq.refs.trans hput4.refs, ?_, ?_,
      (hq.locks.trans hl4).trans (hl3 _ hl1), ?_⟩
    · exact (hm3.trans hreap4.mild).trans hq.mild
    · rw [ho, hput4.outstanding, ho3]
    · intro N hN hlt htame hnd
      have hne : dp ≠ ip := by
        intro he
        rw [he, hN, update_self] at hdir
        exact hnd hdir
      have hNdp : node sb s dp = N dp := by rw [hN, update_of_ne hne]
      rw [hNdp] at hdir hfind hvac hch
      refine Or.inl ⟨rfl, hdir, hfind, k, hvac, ?_⟩
      have hn2 : node sb s2 = update (update N ip (N ip).addLink) dp ((N dp).link k name ip) := by
        rw [hch.node, hm1.node, hN]
      have hn3 : node sb s3 = node sb s2 := by
        rw [node_of_put h2 hput fun _ _ _ => hcd2]
        unfold letGo
        refine if_neg fun h0 => ?_
        rw [refs_one, if_neg hne, hn2, update_self] at h0
        have := htame dp (by rw [hdir]; decide) h0.2
        omega
      rw [hq.node, node_of_put h3 hput4 fun _ _ _ => hc3, hn3, hn2]
      rfl

theorem sysLink_wp {old new : List UInt8} (h : Ready sb t E B cwd s) :
    wp E (sysLink sb cwd old new) (fun r s' => Did sb t B B s s' ∧ (Calm sb B (node sb s) →
      (r = 0 ∧ ∃ ip dp name k, (resolve (node sb s) cwd old false).map Prod.fst = some ip ∧
        (node sb s ip).type ≠ tDir ∧ (node sb s ip).type ≠ 0 ∧
        resolve (update (node sb s) ip (node sb s ip).addLink) cwd new true = some (dp, name) ∧
        (node sb s dp).type = tDir ∧ (node sb s dp).find name = none ∧ (node sb s dp).Vacant k ∧
        node sb s' = linked B (node sb s) ip dp k name) ∨ (r = -1 ∧ node sb s' = node sb s))) s := by
  unfold sysLink
  apply wp_seq (begin_wp h)
  intro _ s1 h1
  refine h1.open_wp hE (fun _ hs2 => hs2.failed) fun ip s3 hw3 hl3 hc3 hpaths3 hres => ?_
  rw [wp_get_bind, ← node_type sb hc3, ← node_nlink sb hc3]
  split
  · exact wp_mono (hw3.undo_wp hE hl3) fun r s4 hs4 => hs4.failed
  · rename_i hnd
    have hused := hw3.ok.type_ne hc3
    apply wp_seq (setNlink_wp hE hw3.ok hc3 hw3.pos)
    rintro _ s4 ⟨h4, hch⟩
    apply wp_seq (iunlock_wp hE h4)
    rintro _ s5 ⟨h5, hm5, hr5, hl5⟩
    rw [← hch.locks] at hl3
    have hn5 : node sb s5 = update (node sb s3) ip (node sb s3 ip).addLink := by
      rw [hm5.node, hch.node]
      rfl
    have hr5' : s5.refs = B + one ip := by rw [hr5, hch.refs, hw3.refs]
    have hc5 : s5.cached ip := hm5.cached ip ((hch.cached ip).mpr hc3)
    have hm5' : Mild sb B s s5 := (hw3.mild.trans (mild_of_fields hch rfl rfl rfl)).trans hm5.mild
    have ho5 : s5.outstanding = s.outstanding + 1 := by rw [hm5.outstanding, hch.outstanding, hw3.outstanding]
    have ht5 : 0 < s5.outstanding := by omega
    have hpaths : Paths sb E (B + one ip) (node sb s5) := by
      rw [hn5]
      exact hpaths3.addLink ip
    have hCip : 0 < (B + one ip) ip := refs_one_pos _ _
    have hcwd5 : Lockable sb E (node sb s5) cwd := by
      have hkeep := hw3.mild.type cwd h.cwdHeld
      refine ⟨h.cwdUsed.1, fun h0 => ?_⟩
      by_cases hz : (node sb s cwd).type = 0
      · exact h.cwdUsed.2 hz
      · exfalso
        rw [hn5] at h0
        by_cases he : cwd = ip
        · rw [he, update_self] at h0
          exact hused h0
        · rw [update_of_ne he, hkeep hz] at h0
          exact hz h0
    have hN5 : Calm sb B (node sb s) → node sb s5 = update (node sb s) ip (node sb s ip).addLink := by
      intro hc
      rw [hn5, hw3.calm hc]
    unfold nameiparent
    apply wp_seq (namex_wp hE h5 hr5' ht5 hpaths
      (Nat.lt_of_lt_of_le h.cwdHeld (le_add_one B ip cwd)) hcwd5)
    rintro r s6 ⟨h6, hreap6, hl6, hfound6, hres6⟩
    rw [hl5 _ hl3] at hl6
    have ht6 : 0 < s6.outstanding := hreap6.outstanding.symm ▸ ht5
    have hm6 : Mild sb B s s6 := hm5'.trans (hreap6.mild.mono (le_add_one B ip))
    have hc6 : s6.cached ip := hreap6.cached ip hCip hc5
    have hlt : (node sb s ip).nlink < 65536 := (h.ok.good.fits ip).nlink
    have htame5 : Calm sb B (node sb s) → Tame (B + one ip) (node sb s5) := by
      intro hc
      rw [hN5 hc]
      exact (hc.tame.mono (le_add_one B ip)).update hCip _
    have hN6 : Calm sb B (node sb s) → node sb s6 = update (node sb s) ip (node sb s ip).addLink := by
      intro hc
      rw [node_of_reap hreap6 h5 (htame5 hc), hN5 hc]
    have hnd' : Calm sb B (node sb s) → (node sb s ip).type ≠ tDir ∧ (node sb s ip).type ≠ 0 := by
      intro hc
      rw [← hw3.calm hc]
      exact ⟨hnd, hused⟩
    cases r with
    | none =>
      refine wp_mono (linkBad_wp hE h6 hfound6 hc6 ht6) ?_
      rintro r s7 ⟨hr7, h7, hrefs7, hm7, ho7, hl7, hback⟩
      refine ⟨⟨h7, hrefs7, hm6.trans hm7, ?_, hl7.trans hl6⟩, fun hc => Or.inr ⟨hr7, hback _ (hN6 hc) hlt hc.tame⟩⟩
      rw [ho7, hreap6.outstanding, ho5, Nat.add_sub_cancel]
    | some e =>
      obtain ⟨dp, name⟩ := e
      obtain ⟨hr6, hty6⟩ := hfound6
      refine wp_mono (linkEntry_wp hE h6 hr6 hc6 hty6 (hw3.ok.range ip hc3) ht6) ?_
      rintro r s7 ⟨h7, hrefs7, hm7, ho7, hl7, hexact⟩
      refine ⟨⟨h7, hrefs7, hm6.trans hm7, by rw [ho7, hreap6.outstanding, ho5, Nat.add_sub_cancel], hl7.trans hl6⟩,
        fun hc => ?_⟩
      rcases hexact _ (hN6 hc) hlt hc.tame (hnd' hc).1 with ⟨hr7, hdir, hfind, k, hvac, heq⟩ | ⟨hr7, heq⟩
      · refine Or.inl ⟨hr7, ip, dp, name, k, ?_, (hnd' hc).1, (hnd' hc).2, ?_, hdir, hfind, hvac, heq⟩
        · exact hres hc
        · have := hres6 (htame5 hc)
          rw [hN5 hc] at this
          exact this.1.symm
      · exact Or.inr ⟨hr7, heq⟩

/-! ## unlink -/

omit hE in
theorem clear_inum (n : Node) (k j : Nat) : (n.clear k).inum j = if j = k then 0 else n.inum j := by
  unfold Node.clear
  rw [written_inum (by simp)]
  rfl

omit hE in
theorem clear_size (h : n.Has k) : (n.clear k).size = n.size := by
  change max n.size (16 * k + 16) = n.size
  exact Nat.max_eq_left h

omit hE in
theorem clear_has (h : n.Has k) (j : Nat) : (n.clear k).Has j ↔ n.Has j := by
  unfold Node.Has
  rw [clear_size h]

theorem unlinkEntry_wp (h : Ok sb t s) (hr : s.refs = B + one dp + one ip) (hcd : s.cached dp) (hci : s.cached ip)
    (hhas : (node sb s dp).Has k) (ht : 0 < s.outstanding) :
    wp E (unlinkEntry sb dp ip (16 * k)) (fun r s' => r = 0 ∧ Ok sb t s' ∧ s'.refs = B ∧ Mild sb B s s' ∧
      s'.outstanding = s.outstanding - 1 ∧ node sb s' = unlinked B (node sb s) dp k ip ∧
      ∀ L M, Adds L dp M → Adds M ip s.locks → s'.locks = L) s := by
  have hCip : 0 < (B + one ip) ip := refs_one_pos _ _
  have hmono : ∀ j, B j ≤ (B + one ip) j := le_add_one B ip
  unfold unlinkEntry
  apply wp_seq (writeEntry_wp hE (by simp) h hcd ht)
  rintro r s1 ⟨h1, ⟨hr1, -⟩ | ⟨hr1, -, hch⟩, -⟩
  · rw [if_pos hr1]
    exact hE.rest _ (by decide) (by decide) (by decide)
  · rw [if_neg (not_not.mpr hr1), wp_get_bind]
    change Changed sb s dp ((node sb s dp).clear k) s1 at hch
    have hc1 := (hch.cached ip).mpr hci
    have hcd1 := (hch.cached dp).mpr hcd
    have hm1 : Mild sb B s s1 := by
      refine mild_of_update hch.node (fun j hc => (hch.cached j).mpr hc) (fun _ => rfl) fun hN hd j hj => ?_
      rw [clear_inum]
      split
      · exact Nat.lt_of_le_of_lt (Nat.zero_le _) (h.range dp hcd)
      · exact hN dp hd j ((clear_has hhas j).mp hj)
    have htype : (s1.itab ip).din.type = (node sb s ip).type := by
      rw [← node_type sb hc1, hch.node]
      refine forall_update (P := fun j (n : Node) => n.type = (node sb s j).type) ?_ (fun _ _ => rfl) ip
      rfl
    -- the end of the call, from the state where the directory has its new count
    have hend : ∀ s2, Ok sb t s2 → Tab s s2 → Mild sb B s s2 →
        node sb s2 = (if (node sb s ip).type = tDir then update (node sb s1) dp (node sb s1 dp).dropLink
          else node sb s1) →
        wp E (do
          iunlockput sb dp
          let s ← get
          setNlink sb ip ((s.itab ip).din.nlink + 65535)
          iunlockput sb ip
          endOp
          pure 0) (fun r s' => r = (0 : Int) ∧ Ok sb t s' ∧ s'.refs = B ∧ Mild sb B s s' ∧
            s'.outstanding = s.outstanding - 1 ∧ node sb s' = unlinked B (node sb s) dp k ip ∧
            ∀ L M, Adds L dp M → Adds M ip s.locks → s'.locks = L) s2 := by
      intro s2 h2 htab hm2 hn2
      have ht2 : 0 < s2.outstanding := htab.outstanding.symm ▸ ht
      apply wp_seq (iunlockput_wp hE h2 (B := B + one ip) (by rw [htab.refs, hr, add_one_comm]) ht2)
      rintro _ s3 ⟨h3, hput, hl3⟩
      have hc3 : s3.cached ip := hput.cached ip hCip ((htab.cached ip).mpr hci)
      have hn3 := node_of_put h2 hput fun _ _ _ => (htab.cached dp).mpr hcd
      rw [wp_get_bind, ← node_nlink sb hc3]
      have ht3 : 0 < s3.outstanding := hput.outstanding.symm ▸ ht2
      apply wp_seq (setNlink_wp hE h3 hc3 ht3)
      rintro _ s4 ⟨h4, hch4⟩
      apply wp_seq (iunlockput_wp hE h4 (by rw [hch4.refs, hput.refs]) (hch4.outstanding.symm ▸ ht3))
      rintro _ s5 ⟨h5, hput5, hl5⟩
      have hn5 := node_of_put h4 hput5 fun _ _ _ => (hch4.cached ip).mpr hc3
      refine endOp_return_wp h5 fun s6 h6 hq ho => ⟨rfl, h6, hq.refs.trans hput5.refs, ?_, ?_, ?_, fun L M hdp hip => ?_⟩
      · exact (((hm2.trans (hput.reap hmono).mild).trans (mild_of_fields hch4 rfl rfl rfl)).trans
          hput5.reaped.mild).trans hq.mild
      · rw [ho, hput5.outstanding, hch4.outstanding, hput.outstanding, htab.outstanding]
      · rw [hq.node, hn5, hch4.node, hn3, hn2, hch.node]
        rfl
      · -- the locks go in the order in which they were taken
        rw [← htab.locks] at hip
        obtain ⟨hip', hdp'⟩ := hdp.swap hip
        rw [← hl3 _ hdp', ← hch4.locks] at hip'
        exact hq.locks.trans (hl5 L hip')
    rw [htype]
    split
    · rename_i hdir
      rw [← node_nlink sb hcd1]
      apply wp_seq (setNlink_wp hE h1 hcd1 (hch.outstanding.symm ▸ ht))
      rintro _ s2 ⟨h2, hch2⟩
      refine hend s2 h2 (hch.toTab.trans hch2.toTab) (hm1.trans (mild_of_fields hch2 rfl rfl rfl)) ?_
      rw [if_pos hdir, hch2.node]
      rfl
    · rename_i hdir
      refine hend s1 h1 hch.toTab hm1 ?_
      rw [if_neg hdir]

theorem sysUnlink_wp (h : Ready sb t E B cwd s) :
    wp E (sysUnlink sb cwd path) (fun r s' => Did sb t B B s s' ∧ (Calm sb B (node sb s) →
      (r = 0 ∧ ∃ dp name k, resolve (node sb s) cwd path true = some (dp, name) ∧
        namecmp name dotName = false ∧ namecmp name dotdotName = false ∧
        (node sb s dp).type = tDir ∧ (node sb s dp).Has k ∧ (node sb s dp).find name = some k ∧
        nlinkBelow1 (node sb s ((node sb s dp).inum k)).nlink = false ∧
        ((node sb s ((node sb s dp).inum k)).type = tDir →
          ∀ j, 2 ≤ j → (node sb s ((node sb s dp).inum k)).Has j → (node sb s ((node sb s dp).inum k)).inum j = 0) ∧
        node sb s' = unlinked B (node sb s) dp k ((node sb s dp).inum k)) ∨
      (r = -1 ∧ node sb s' = node sb s))) s := by
  unfold sysUnlink
  apply wp_seq (begin_wp h)
  intro _ s1 h1
  unfold nameiparent
  apply wp_seq (namex_wp hE h1.ok h1.refs h1.pos h1.paths h.cwdHeld h1.cwdUsed)
  rintro r s2 ⟨h2, hreap2, hl2, hfound, hres⟩
  have hlook := h1.looked h2 hreap2 hl2 hfound
  cases r with
  | none => exact wp_mono (Within.end_wp hlook) fun r s3 hs3 => hs3.failed
  | some e =>
    obtain ⟨dp, name⟩ := e
    obtain ⟨hw2, hty2, hpaths2⟩ := hlook
    dsimp only
    apply wp_seq (hw2.ilock_wp hE hty2)
    rintro _ s3 ⟨hw3, hc3, hm3, hl3⟩
    split
    · exact wp_mono (hw3.undo_wp hE hl3) fun r s4 hs4 => hs4.failed
    · rename_i hdots
      apply wp_seq (dirlookup_wp hE hw3.ok hc3 hw3.pos)
      rintro r s4 ⟨h4, hm4, hdir, -, hfind⟩
      cases r with
      | none =>
        have hw4 := hw3.reap h4 hm4.reap (hfind.1.refs.trans hw3.refs) hm4.locks
        exact wp_mono (hw4.undo_wp hE hl3) fun r s5 hs5 => hs5.failed
      | some e =>
        obtain ⟨ip, off⟩ := e
        obtain ⟨k, hoff, hip, hhas, hr4, hsome⟩ := hfind
        subst hoff
        dsimp only
        have hw4 : Within sb t B (B + one dp + one ip) s3.locks s s4 :=
          hw3.reap h4 hm4.reap (by rw [hr4, hw3.refs]) hm4.locks
        have hl4 : Lockable sb E (node sb s4) ip := by
          have hpaths3 : Paths sb E B (node sb s3) := by rw [hm3.node]; exact hpaths2
          rw [hm4.node, hip]
          exact hpaths3.entry hdir hhas hsome
        apply wp_seq (hw4.ilock_wp hE hl4)
        rintro _ s5 ⟨hw5, hc5, hm5, hl5⟩
        have hcd5 : s5.cached dp := hm5.cached dp (hm4.cached dp hc3)
        rw [wp_get_bind, ← node_nlink sb hc5, ← node_type sb hc5]
        split
        · exact hE.rest _ (by decide) (by decide) (by decide)
        · rename_i hlink
          apply wp_seq (Q := fun r s6 => Ok sb t s6 ∧ Same sb s5 s6 ∧ (r = true → (node sb s5 ip).type = tDir →
            ∀ j, 2 ≤ j → (node sb s5 ip).Has j → (node sb s5 ip).inum j = 0))
          · split
            · refine wp_mono (isdirempty_wp hE hw5.ok hc5 hw5.pos) ?_
              intro r s6 hs6
              exact ⟨hs6.1, hs6.2.1, fun hr _ => hs6.2.2 hr⟩
            · exact ⟨hw5.ok, Same.refl s5, fun _ hd => absurd hd ‹_›⟩
          · rintro empty s6 ⟨h6, hsame, hempty⟩
            have hw6 := hw5.reap h6 hsame.moved.reap (hsame.refs.trans hw5.refs) hsame.locks
            cases empty with
            | false =>
              apply wp_seq (hw6.put_wp hE hl5 (le_add_one B dp))
              intro _ s7 hw7
              exact wp_mono (hw7.undo_wp hE hl3) fun r s8 hs8 => hs8.failed
            | true =>
              have hhas6 : (node sb s6 dp).Has k := by rw [hsame.node, hm5.node, hm4.node]; exact hhas
              refine wp_mono (unlinkEntry_wp hE h6 hw6.refs ((hsame.cached dp).mpr hcd5) ((hsame.cached ip).mpr hc5) hhas6
                hw6.pos) ?_
              rintro r s7 ⟨hr7, h7, hrefs7, hm7, ho7, heq, hl7⟩
              rw [← hsame.locks] at hl5
              refine ⟨⟨h7, hrefs7, hw6.mild.trans hm7, by rw [ho7, hw6.outstanding, Nat.add_sub_cancel], hl7 _ _ hl3 hl5⟩,
                fun hc => Or.inl ⟨hr7, dp, name, k, ?_⟩⟩
              have hempty' := hempty rfl
              rw [hw6.calm hc] at heq
              rw [hw5.calm hc] at hempty' hlink
              rw [hw3.calm hc] at hdir hhas hsome hip
              subst hip
              refine ⟨?_, ?_, ?_, hdir, hhas, hsome, by simpa using hlink, hempty', heq⟩
              · rw [h1.same] at hres
                exact (hres hc.tame).1.symm
              · exact eq_false_of_ne_true fun h => hdots (Or.inl h)
              · exact eq_false_of_ne_true fun h => hdots (Or.inr h)

/-! ## open, mkdir, mknod -/

theorem Begun.create_wp (h : Begun sb t E B cwd s s1) (hzero : type = 0 → E .ilockNoType) (hty : type < 65536) :
    wp E (create sb cwd path type major minor) (fun r s' => Ok sb t s' ∧ s'.outstanding = s.outstanding + 1 ∧
      Mild sb B s s' ∧ Leaves s.locks r s' ∧
      match r with
      | none => Within sb t B B s.locks s s'
      | some ip => CreateReturns sb B s cwd path type major minor ip s') s1 := by
  refine wp_mono (Fs.create_wp hE h.ok h.refs h.pos h.paths h.cwdHeld h.cwdUsed hzero hty) ?_
  rintro r s2 ⟨h2, ho, hm, hl, hcase⟩
  unfold CreateReturns at *
  rw [h.same] at hcase
  rw [h.locks] at hl
  refine ⟨h2, ho.trans h.outstanding, h.mild.trans hm, hl, ?_⟩
  cases r with
  | none => exact ⟨h2, hcase.1, hl, h.mild.trans hm, ho.trans h.outstanding, hcase.2⟩
  | some ip => exact hcase

omit hE in
theorem created_nlink (type major minor ip dp : Nat) : (Node.created type major minor ip dp).nlink = 1 := by
  unfold Node.created
  split <;> rfl

theorem makeNode_wp {path : Option (List UInt8)} (h : Ready sb t E B cwd s) (h0 : type ≠ 0) (hty : type < 65536)
    (hfile : type ≠ tFile) :
    wp E (makeNode sb cwd path type major minor) (fun r s' => Did sb t B B s s' ∧ (Calm sb B (node sb s) →
      (r = 0 ∧ ∃ p ip, path = some p ∧ Creates sb B cwd p type major minor ip (node sb s) (node sb s')) ∨
      (r = -1 ∧ node sb s' = node sb s))) s := by
  unfold makeNode
  apply wp_seq (begin_wp h)
  intro _ s1 h1
  cases path with
  | none => exact wp_mono h1.toWithin.end_wp fun r s2 hs2 => hs2.failed
  | some p =>
    dsimp only
    apply wp_seq (h1.create_wp hE (fun hz => absurd hz h0) hty)
    rintro r s2 ⟨h2, ho2, hm, hl, hcase⟩
    cases r with
    | none => exact wp_mono (Within.end_wp hcase) fun r s3 hs3 => hs3.failed
    | some ip =>
      obtain ⟨hr2, hc2, hkind⟩ := hcase
      obtain ⟨-, hnew⟩ := hkind.resolve_left fun hk => hfile hk.1
      dsimp only
      apply wp_seq (iunlockput_wp hE h2 hr2 (by omega))
      rintro _ s3 ⟨h3, hput, hl3⟩
      have hreap3 : Reap sb B s2 s3 := hput.reaped
      refine endOp_return_wp h3 fun s4 h4 hq4 ho4 => ⟨⟨h4, hq4.refs.trans hput.refs, ?_, ?_, hq4.locks.trans (hl3 _ hl)⟩,
          fun hc => ?_⟩
      · exact (hm.trans hreap3.mild).trans hq4.mild
      · rw [ho4, hput.outstanding, ho2, Nat.add_sub_cancel]
      · refine Or.inl ⟨rfl, p, ip, rfl, ?_⟩
        -- the new inode has a name, so letting it go does not free it
        have hlink : (node sb s2 ip).nlink = 1 := by
          obtain ⟨dp, -, -, -, hchild⟩ := (hnew hc).child
          rw [hchild, created_nlink]
        rw [hq4.node, node_of_put h2 hput fun _ _ _ => hc2]
        unfold letGo
        rw [hlink, if_neg fun h => absurd h.2 (by decide)]
        exact hnew hc

/-! ## chdir -/

theorem chdirInode_wp {path : Option (List UInt8)} (h : Ready sb t E B cwd s) (hB : B = C + one cwd) :
    wp E (chdirInode sb cwd path) (fun r s' => match r with
      | none => Did sb t B B s s' ∧ (Calm sb B (node sb s) → node sb s' = node sb s)
      | some ip => Did sb t C (C + one ip) s s' ∧ (node sb s' ip).type = tDir ∧ (Calm sb B (node sb s) →
        ((node sb s cwd).nlink = 0 → s.cached cwd) →
        ∃ p, path = some p ∧ (resolve (node sb s) cwd p false).map Prod.fst = some ip ∧ (node sb s ip).type = tDir ∧
          node sb s' = letGo (C + one ip) cwd (node sb s))) s := by
  unfold chdirInode
  apply wp_seq (begin_wp h)
  intro _ s1 h1
  cases path with
  | none =>
    refine wp_mono h1.toWithin.end_wp fun r s2 hs2 => ?_
    rw [hs2.ret]
    exact ⟨hs2.did, hs2.calm⟩
  | some p =>
    dsimp only
    refine h1.open_wp hE (fun _ hs2 => ⟨hs2.did, hs2.calm⟩) fun ip s3 hw3 hl3 hc3 _ hres => ?_
    rw [wp_get_bind, ← node_type sb hc3]
    split
    · refine wp_mono (hw3.undo_wp hE hl3) fun r s4 hs4 => ?_
      rw [hs4.ret]
      exact ⟨hs4.did, hs4.calm⟩
    · rename_i hdir
      have hdir' : (node sb s3 ip).type = tDir := not_not.mp hdir
      apply wp_seq (iunlock_wp hE hw3.ok)
      rintro _ s4 ⟨h4, hm4, hr4, hl4⟩
      have hw4 := hw3.reap h4 hm4.reap (hr4.trans hw3.refs) (hl4 _ hl3)
      apply wp_seq (iput_wp hE h4 (B := C + one ip) (by rw [hw4.refs, hB, add_one_comm]) hw4.pos)
      rintro _ s5 ⟨h5, hput, hl5⟩
      have hCB : ∀ j, C j ≤ B j := fun j => by rw [hB]; exact le_add_one C cwd j
      refine endOp_return_wp h5 fun s6 h6 hq6 ho6 => ⟨⟨h6, hq6.refs.trans hput.refs, ?_, ?_,
        (hq6.locks.trans hl5).trans hw4.locks⟩, ?_, fun hc hcach => ?_⟩
      · exact ((hw4.mild.mono hCB).trans (hput.reap (le_add_one C ip)).mild).trans hq6.mild
      · rw [ho6, hput.outstanding, hw4.outstanding, Nat.add_sub_cancel]
      · rw [hq6.node, type_of_put hput (refs_one_pos _ _), hm4.node, hdir']
      · have hn4 := hw4.calm hc
        refine ⟨p, rfl, hres hc, ?_, ?_⟩
        · rw [← hn4, hm4.node, hdir']
        · rw [hq6.node, node_of_put h4 hput fun _ h0 _ => hw4.mild.cached cwd h.cwdHeld (hcach (by rw [← hn4]; exact h0)), hn4]

end

end Xv6.Fs
