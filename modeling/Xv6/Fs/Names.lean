/-
  Xv6.Fs.Names — directory entries and path names.

  A directory is an abstract inode whose bytes are 16-byte entries; `find` is the first entry
  in use with a name, and `walk` follows a path from an inode through the entries alone,
  without locks, references or blocks.

  `B` is the number of references to each inode that other holders have; a function that
  works with an inode holds one more, and `refs = B + one i` says so. Letting an inode go can
  free it, when nobody else holds it and no name is left; `Reap` is the effect of a function
  that does nothing else to the inodes. `Tame` says that every inode without a name is held,
  and then such a function changes nothing.

  Proved:
  - `dirlookup_wp`: `dirlookup` returns what `find` finds, with a reference.
  - `namex_wp`: `namex` returns an inode with a reference; it reaps, and where the inodes are
    tame it returns what `walk` returns. It meets no free inode where no entry dangles.
-/

import Xv6.Fs.Dir
import Xv6.Fs.Release

namespace Xv6.Fs

open Xv6.Lib

/-! ## Directory entries -/

def Node.inum (n : Node) (k : Nat) : Nat := le16 n.data (16 * k)

def Node.name (n : Node) (k : Nat) : List UInt8 := slice n.data (16 * k + 2) dirsiz

/-- Entry `k` lies within the directory. -/
def Node.Has (n : Node) (k : Nat) : Prop := 16 * k + 16 ≤ n.size

instance (n : Node) (k : Nat) : Decidable (n.Has k) := inferInstanceAs (Decidable (_ ≤ _))

/-- The first entry in use with this name. -/
def Node.find (n : Node) (name : List UInt8) : Option Nat :=
  firstFrom (fun k => n.inum k != 0 && namecmp name (n.name k)) 0 (entries n.size)

/-- Follow `path` from inode `ip`, as `namexFrom` does. -/
def walk (N : Nat → Node) (parent : Bool) : Nat → Nat → List UInt8 → List UInt8 → Option (Nat × List UInt8)
  | 0, ip, _, name => if parent then none else some (ip, name)
  | fuel + 1, ip, path, name =>
    match skipelem path with
    | none => if parent then none else some (ip, name)
    | some (name, path) =>
      if (N ip).type ≠ tDir then none
      else if parent ∧ path = [] then some (ip, name)
      else match (N ip).find name with
        | none => none
        | some k => walk N parent fuel ((N ip).inum k) path name

/-- The inode, or for `parent` the directory and the last element, that a path names. -/
def resolve (N : Nat → Node) (cwd : Nat) (path : List UInt8) (parent : Bool) : Option (Nat × List UInt8) :=
  walk N parent (path.length + 1) (if path.head? = some slash then rootino else cwd) path []

theorem ofBytes_slice (n : Node) (k : Nat) : Dirent.ofBytes (slice n.data (16 * k) 16) = ⟨n.inum k, n.name k⟩ := by
  unfold Dirent.ofBytes Node.inum Node.name le16
  congr 1

/-! ## Holders -/

/-- Every inode in use without a name is held. -/
def Tame (B : Nat → Nat) (N : Nat → Node) : Prop := ∀ i, (N i).type ≠ 0 → (N i).nlink = 0 → 0 < B i

/-- Some inodes that nobody holds, and that have no name, have been freed. -/
structure Reap (sb : Superblock) (B : Nat → Nat) (s s' : St) : Prop where
  node : ∀ i, node sb s' i = node sb s i ∨ (B i = 0 ∧ (node sb s i).nlink = 0 ∧ node sb s' i = Node.free)
  cached : ∀ i, 0 < B i → s.cached i → s'.cached i
  outstanding : s'.outstanding = s.outstanding

variable {sb : Superblock} {t : Prop} {s s' : St} {B : Nat → Nat} {k : Nat} {N : Nat → Node}

variable {C : Nat → Nat} {s1 s2 : St} {i dp cwd : Nat} {name path : List UInt8}

theorem Tame.mono (h : Tame B N) (hBC : ∀ i, B i ≤ C i) : Tame C N :=
  fun i h1 h2 => Nat.lt_of_lt_of_le (h i h1 h2) (hBC i)

theorem Reap.refl (s : St) : Reap sb B s s := ⟨fun _ => Or.inl rfl, fun _ _ h => h, rfl⟩

theorem Moved.reap (h : Moved sb s s') : Reap sb B s s' :=
  ⟨fun i => Or.inl (by rw [h.node]), fun i _ hc => h.cached i hc, h.outstanding⟩

theorem Reap.trans (h1 : Reap sb B s s1) (h2 : Reap sb B s1 s2) : Reap sb B s s2 where
  node i := by
    rcases h1.node i with he | ⟨hb, hl, hf⟩
    · rcases h2.node i with he2 | ⟨hb, hl, hf⟩
      · exact Or.inl (he2.trans he)
      · exact Or.inr ⟨hb, he ▸ hl, hf⟩
    · refine Or.inr ⟨hb, hl, ?_⟩
      rcases h2.node i with he2 | ⟨_, _, hf2⟩
      · exact he2.trans hf
      · exact hf2
  cached i hb hc := h2.cached i hb (h1.cached i hb hc)
  outstanding := h2.outstanding.trans h1.outstanding

theorem Reap.mono (h : Reap sb C s s') (hBC : ∀ i, B i ≤ C i) : Reap sb B s s' where
  node i := by
    rcases h.node i with he | ⟨hb, hrest⟩
    · exact Or.inl he
    · exact Or.inr ⟨Nat.le_zero.mp (hb ▸ hBC i), hrest⟩
  cached i hb := h.cached i (Nat.lt_of_lt_of_le hb (hBC i))
  outstanding := h.outstanding

theorem Put.reap (h : Put sb C s i s') (hBC : ∀ j, B j ≤ C j) : Reap sb B s s' where
  node j := by
    rcases h.node with he | ⟨hc, hl, he⟩
    · exact Or.inl (by rw [he])
    · rw [he]
      by_cases hj : j = i
      · subst hj
        have := hBC j
        exact Or.inr ⟨by omega, hl, update_self _ _ _⟩
      · exact Or.inl (update_of_ne hj _ _)
  cached j hb hc := h.cached j (Nat.lt_of_lt_of_le hb (hBC j)) hc
  outstanding := h.outstanding

theorem Put.reaped (h : Put sb B s i s') : Reap sb B s s' := h.reap fun _ => Nat.le_refl _

/-- A free inode has no bytes and no fields. -/
theorem Inv.node_free {W : Nat → Prop} (h : Inv sb t W s) (h0 : (node sb s i).type = 0) :
    node sb s i = Node.free := by
  by_cases hc : s.cached i
  · exact absurd h0 (h.type_ne hc)
  · unfold node at h0 ⊢
    rw [inodes_uncached hc] at h0 ⊢
    unfold diskInodes live at h0 ⊢
    split
    · rename_i hi
      rw [if_pos hi] at h0
      split
      · exact nodeOf_zero _
      · rename_i hne
        rw [if_neg hne] at h0
        exact absurd h0 hne
    · exact nodeOf_zero _

theorem node_of_reap (h : Reap sb B s s') (hs : Ok sb t s) (ht : Tame B (node sb s)) : node sb s' = node sb s := by
  funext i
  rcases h.node i with he | ⟨hb, hl, hf⟩
  · exact he
  · rw [hf]
    refine (hs.node_free ?_).symm
    by_contra hne
    have := ht i hne hl
    omega

/-- Every entry of every directory names an inode the disk has. -/
def Ranged (sb : Superblock) (N : Nat → Node) : Prop :=
  ∀ d, (N d).type = tDir → ∀ k, (N d).Has k → (N d).inum k < sb.ninodes

/-- Every entry in use of every directory names an inode in use. -/
def NoDangling (N : Nat → Node) : Prop :=
  ∀ d, (N d).type = tDir → ∀ k, (N d).Has k → (N d).inum k ≠ 0 → (N ((N d).inum k)).type ≠ 0

/-- What following paths needs: it never meets a free inode, unless that panic is tolerated. -/
structure Paths (sb : Superblock) (E : Stop → Prop) (B : Nat → Nat) (N : Nat → Node) : Prop where
  range : Ranged sb N
  safe : E .ilockNoType ∨ (Tame B N ∧ NoDangling N)
  root : rootino < sb.ninodes
  rootUsed : (N rootino).type = 0 → E .ilockNoType

/-! ## dirlookup -/

variable {E : Stop → Prop} (hE : Tolerant E)

omit hE in
theorem Same.moved (h : Same sb s s') : Fetched sb s s' :=
  ⟨⟨h.node, fun i hc => (h.cached i).mpr hc, h.outstanding⟩, h.locks⟩

omit hE in
theorem Moved.trans (h1 : Moved sb s s1) (h2 : Moved sb s1 s2) : Moved sb s s2 :=
  ⟨h2.node.trans h1.node, fun i hc => h2.cached i (h1.cached i hc), h2.outstanding.trans h1.outstanding⟩

omit hE in
theorem Fetched.trans (h1 : Fetched sb s s1) (h2 : Fetched sb s1 s2) : Fetched sb s s2 :=
  ⟨h1.toMoved.trans h2.toMoved, h2.locks.trans h1.locks⟩

include hE

theorem readDirent_wp {stop : Stop} (h : Ok sb t s) (hc : s.cached dp) (ht : 0 < s.outstanding) (hstop : E stop) :
    wp E (readDirent sb dp (16 * k) stop) (fun de s' => Ok sb t s' ∧ Same sb s s' ∧ (t → s' = s) ∧
      (node sb s dp).Has k ∧ de = ⟨(node sb s dp).inum k, (node sb s dp).name k⟩) s := by
  unfold readDirent
  apply wp_seq (readi_wp hE h hc (by decide) (Or.inr (Or.inl ht)))
  rintro r s1 ⟨h1, hsame, hstill, m, hl, hle, hr, -⟩
  obtain ⟨l, v⟩ := r
  dsimp only at hl hr ⊢
  split
  · exact hstop
  · rename_i hv
    have hm : m = 16 := by
      rcases hr with hr | hr
      · omega
      · omega
    subst hm
    refine ⟨h1, hsame, hstill, ?_, ?_⟩
    · unfold Node.Has
      omega
    · rw [hl, ofBytes_slice]

theorem dirlookupFrom_wp (n : Nat) : ∀ (k : Nat) (s : St), Ok sb t s → s.cached dp →
    0 < s.outstanding →
    wp E (dirlookupFrom sb dp name n (16 * k)) (fun r s' => Ok sb t s' ∧ Fetched sb s s' ∧ (t → s'.disk = s.disk) ∧
      match r with
      | none => Same sb s s' ∧
        firstFrom (fun k => (node sb s dp).inum k != 0 && namecmp name ((node sb s dp).name k)) k n = none
      | some (ip, off) => ∃ m, off = 16 * m ∧ ip = (node sb s dp).inum m ∧ (node sb s dp).Has m ∧
        s'.refs = s.refs + one ip ∧
        firstFrom (fun k => (node sb s dp).inum k != 0 && namecmp name ((node sb s dp).name k)) k n = some m) s := by
  induction n with
  | zero =>
    intro k s h _ _
    exact ⟨h, (Same.refl s).moved, fun _ => rfl, Same.refl s, rfl⟩
  | succ n ih =>
    intro k s h hc ht
    unfold dirlookupFrom
    apply wp_seq (readDirent_wp hE h hc ht (hE.rest _ (by decide) (by decide) (by decide)))
    rintro de s1 ⟨h1, hsame, hstill, hhas, hde⟩
    subst hde
    dsimp only
    split
    · rename_i hhit
      have htest : ((node sb s dp).inum k != 0 && namecmp name ((node sb s dp).name k)) = true := by
        simpa using hhit
      apply wp_seq (iget_wp hE h1)
      rintro _ s2 ⟨h2, hm, hd, hr⟩
      refine ⟨h2, hsame.moved.trans hm, fun htt => by rw [hd, hstill htt], k, rfl, rfl, hhas, by rw [hr, hsame.refs], ?_⟩
      unfold firstFrom
      exact if_pos htest
    · rename_i hmiss
      have htest : ¬ ((node sb s dp).inum k != 0 && namecmp name ((node sb s dp).name k)) = true := by
        simpa using hmiss
      have hrec := ih (k + 1) s1 h1 ((hsame.cached dp).mpr hc) (hsame.outstanding.symm ▸ ht)
      rw [hsame.node, hsame.refs] at hrec
      refine wp_mono hrec ?_
      rintro r s2 ⟨h2, hm, hd, hr⟩
      refine ⟨h2, hsame.moved.trans hm, fun htt => by rw [hd htt, hstill htt], ?_⟩
      unfold firstFrom
      rw [if_neg htest]
      cases r with
      | none => exact ⟨hsame.trans hr.1, hr.2⟩
      | some e => exact hr

theorem dirlookup_wp (h : Ok sb t s) (hc : s.cached dp) (ht : 0 < s.outstanding) :
    wp E (dirlookup sb dp name) (fun r s' => Ok sb t s' ∧ Fetched sb s s' ∧ (node sb s dp).type = tDir ∧ (t → s'.disk = s.disk) ∧
      match r with
      | none => Same sb s s' ∧ (node sb s dp).find name = none
      | some (ip, off) => ∃ m, off = 16 * m ∧ ip = (node sb s dp).inum m ∧ (node sb s dp).Has m ∧
        s'.refs = s.refs + one ip ∧ (node sb s dp).find name = some m) s := by
  unfold dirlookup
  rw [wp_get_bind, ← node_type sb hc, ← node_size sb hc]
  split
  · exact hE.rest _ (by decide) (by decide) (by decide)
  · rename_i hty
    have hty' : (node sb s dp).type = tDir := not_not.mp hty
    refine wp_mono (dirlookupFrom_wp hE _ 0 s h hc ht) ?_
    rintro r s' ⟨h1, hm, hd, hr⟩
    exact ⟨h1, hm, hty', hd, hr⟩

/-! ## namex -/

omit hE in
theorem le_add_one (B : Nat → Nat) (i j : Nat) : B j ≤ (B + one i) j := Nat.le_add_right _ _

omit hE in
theorem add_one_comm (B : Nat → Nat) (i j : Nat) : B + one i + one j = B + one j + one i := add_right_comm _ _ _

omit hE in
theorem Paths.reap (hp : Paths sb E B (node sb s)) (hs : Ok sb t s) (h : Reap sb B s s') : Paths sb E B (node sb s') where
  range := by
    intro d hd
    rcases h.node d with he | ⟨-, -, hf⟩
    · rw [he] at hd ⊢
      exact hp.range d hd
    · rw [hf] at hd
      exact absurd hd (by decide)
  safe := by
    rcases hp.safe with he | ⟨htame, hdang⟩
    · exact Or.inl he
    · rw [node_of_reap h hs htame]
      exact Or.inr ⟨htame, hdang⟩
  root := hp.root
  rootUsed := by
    rcases hp.safe with he | ⟨htame, -⟩
    · exact fun _ => he
    · rw [node_of_reap h hs htame]
      exact hp.rootUsed

/-- The result of a path lookup: an inode with a reference, which is in use. -/
def Found (sb : Superblock) (E : Stop → Prop) (B : Nat → Nat) (s' : St) : Option Nat → Prop
  | none => s'.refs = B
  | some x => s'.refs = B + one x ∧ Lockable sb E (node sb s') x

omit hE in
theorem inum_ne_zero_of_find {n : Node} (h : n.find name = some k) : n.inum k ≠ 0 := by
  obtain ⟨-, -, htest⟩ := firstFrom_some h
  simp only [Bool.and_eq_true, bne_iff_ne] at htest
  exact htest.1

omit hE in
/-- An entry that was found names an inode in use. -/
theorem Paths.entry (hp : Paths sb E B N) (hdir : (N dp).type = tDir) (hhas : (N dp).Has k) (hfind : (N dp).find name = some k) :
    Lockable sb E N ((N dp).inum k) := by
  refine ⟨hp.range dp hdir k hhas, fun h0 => ?_⟩
  rcases hp.safe with he | ⟨-, hdang⟩
  · exact he
  · exact absurd h0 (hdang dp hdir k hhas (inum_ne_zero_of_find hfind))

theorem namexFrom_wp (parent : Bool) (fuel : Nat) : ∀ (ip : Nat) (path name : List UInt8) (s : St), Ok sb t s →
    s.refs = B + one ip → 0 < s.outstanding → Paths sb E B (node sb s) →
    Lockable sb E (node sb s) ip →
    wp E (namexFrom sb parent fuel ip path name) (fun r s' => Ok sb t s' ∧ Reap sb B s s' ∧
      s'.locks = s.locks ∧ Found sb E B s' (r.map Prod.fst) ∧
      (Tame B (node sb s) → r = walk (node sb s) parent fuel ip path name ∧ (t → s'.disk = s.disk))) s := by
  -- the path has ended: `namei` returns the inode, `nameiparent` lets it go
  have hend : ∀ (ip : Nat) (name : List UInt8) (s : St), Ok sb t s → s.refs = B + one ip → 0 < s.outstanding →
      Lockable sb E (node sb s) ip →
      wp E (if parent then do
          iput sb ip
          pure none
        else pure (some (ip, name))) (fun r s' => Ok sb t s' ∧ Reap sb B s s' ∧ s'.locks = s.locks ∧
        Found sb E B s' (r.map Prod.fst) ∧
        (Tame B (node sb s) → (r = if parent then none else some (ip, name)) ∧ (t → s'.disk = s.disk))) s := by
    intro ip name s h hr ht hty
    cases parent
    · exact ⟨h, Reap.refl s, rfl, ⟨hr, hty⟩, fun _ => ⟨rfl, fun _ => rfl⟩⟩
    · apply wp_seq (iput_wp hE h hr ht)
      rintro _ s1 ⟨h1, hput, hl1⟩
      exact ⟨h1, hput.reaped, hl1, hput.refs, fun htame => ⟨rfl, fun _ => hput.disk (htame ip)⟩⟩
  induction fuel with
  | zero =>
    intro ip path name s h hr ht hp hty
    exact hend ip name s h hr ht hty
  | succ fuel ih =>
    intro ip path name s h hr ht hp hty
    unfold namexFrom walk
    cases hskip : skipelem path with
    | none => exact hend ip name s h hr ht hty
    | some e =>
      obtain ⟨name', path'⟩ := e
      dsimp only
      apply wp_seq (ilock_wp hE h hty)
      rintro _ s1 ⟨h1, hm1, hr1, hc1, hl1⟩
      have hr1' : s1.refs = B + one ip := hr1.trans hr
      have ht1 : 0 < s1.outstanding := hm1.outstanding.symm ▸ ht
      rw [wp_get_bind, ← node_type sb hc1, hm1.node]
      split
      · apply wp_seq (iunlockput_wp hE h1 hr1' ht1)
        rintro _ s2 ⟨h2, hput, hl2⟩
        refine ⟨h2, hm1.reap.trans hput.reaped, hl2 _ hl1, hput.refs, fun htame => ⟨rfl, fun _ => ?_⟩⟩
        rw [hput.disk (by rw [hm1.node]; exact htame ip), hm1.disk]
      · rename_i hdir
        split
        · apply wp_seq (iunlock_wp hE h1)
          rintro _ s2 ⟨h2, hm2, hr2, hl2⟩
          refine ⟨h2, (hm1.trans hm2.toMoved).reap, hl2 _ hl1, ⟨hr2.trans hr1', ?_⟩,
              fun _ => ⟨rfl, fun _ => hm2.disk.trans hm1.disk⟩⟩
          rw [hm2.node, hm1.node]
          exact hty
        · apply wp_seq (dirlookup_wp hE h1 hc1 ht1)
          rintro r s2 ⟨h2, hm2, -, hd2, hfind⟩
          have hn2 : node sb s2 = node sb s := hm2.node.trans hm1.node
          have ht2 : 0 < s2.outstanding := hm2.outstanding.symm ▸ ht1
          rw [hm1.node] at hfind
          rw [← hm2.locks] at hl1
          cases r with
          | none =>
            obtain ⟨hsame, hnone⟩ := hfind
            apply wp_seq (iunlockput_wp hE h2 (hsame.refs.trans hr1') ht2)
            rintro _ s3 ⟨h3, hput, hl3⟩
            refine ⟨h3, (hm1.trans hm2.toMoved).reap.trans hput.reaped, hl3 _ hl1, hput.refs,
                fun htame => ⟨by rw [hnone], fun htt => ?_⟩⟩
            rw [hput.disk (by rw [hn2]; exact htame ip), hd2 htt, hm1.disk]
          | some e =>
            obtain ⟨next, off⟩ := e
            obtain ⟨k, -, hnext, hhas, hr2, hsome⟩ := hfind
            dsimp only
            have hr2' : s2.refs = B + one next + one ip := by rw [hr2, hr1', add_one_comm]
            apply wp_seq (iunlockput_wp hE h2 hr2' ht2)
            rintro _ s3 ⟨h3, hput, hl3⟩
            have hreap : Reap sb B s s3 := (hm1.trans hm2.toMoved).reap.trans (hput.reap (le_add_one B next))
            have hty3 : Lockable sb E (node sb s3) next := by
              have hent := hp.entry (not_not.mp hdir) hhas hsome
              refine ⟨hnext ▸ hent.1, fun h0 => ?_⟩
              rcases hp.safe with he | ⟨htame, -⟩
              · exact he
              · rw [node_of_reap hreap h htame, hnext] at h0
                exact hent.2 h0
            refine wp_mono (ih next path' name' s3 h3 hput.refs (hput.outstanding.symm ▸ ht2) (hp.reap h hreap) hty3) ?_
            rintro r s4 ⟨h4, hreap4, hl4, hres, hwalk⟩
            refine ⟨h4, hreap.trans hreap4, hl4.trans (hl3 _ hl1), hres, fun htame => ?_⟩
            have hn := node_of_reap hreap h htame
            rw [hn] at hwalk
            obtain ⟨hwalk, hd4⟩ := hwalk htame
            refine ⟨by rw [hsome, hwalk, hnext], fun htt => ?_⟩
            rw [hd4 htt, hput.disk (by rw [hn2]; exact htame.mono (le_add_one B next) ip), hd2 htt, hm1.disk]

section

variable (h : Ok sb t s) (hr : s.refs = B) (ht : 0 < s.outstanding) (hp : Paths sb E B (node sb s)) (hcwd : 0 < B cwd)
  (hty : Lockable sb E (node sb s) cwd)
include h hr ht hp hcwd hty

theorem namex_wp {parent : Bool} :
    wp E (namex sb cwd path parent) (fun r s' => Ok sb t s' ∧ Reap sb B s s' ∧ s'.locks = s.locks ∧
      Found sb E B s' (r.map Prod.fst) ∧
      (Tame B (node sb s) → r = resolve (node sb s) cwd path parent ∧ (t → s'.disk = s.disk))) s := by
  have key : ∀ (s1 : St) (ip : Nat), Ok sb t s1 → Fetched sb s s1 → s1.disk = s.disk → s1.refs = B + one ip →
      Lockable sb E (node sb s) ip →
      wp E (namexFrom sb parent (path.length + 1) ip path []) (fun r s' => Ok sb t s' ∧ Reap sb B s s' ∧
        s'.locks = s.locks ∧ Found sb E B s' (r.map Prod.fst) ∧
        (Tame B (node sb s) → r = walk (node sb s) parent (path.length + 1) ip path [] ∧ (t → s'.disk = s.disk))) s1 := by
    intro s1 ip h1 hm hd hr1 hty1
    have hloop := namexFrom_wp hE parent (path.length + 1) ip path [] s1 h1 hr1
      (hm.outstanding.symm ▸ ht) (by rw [hm.node]; exact hp) (by rw [hm.node]; exact hty1)
    rw [hm.node] at hloop
    refine wp_mono hloop ?_
    rintro r s2 ⟨h2, hreap, hl, hres, hwalk⟩
    exact ⟨h2, hm.reap.trans hreap, hl.trans hm.locks, hres, hd ▸ hwalk⟩
  unfold namex resolve
  split
  · apply wp_seq (iget_wp hE h)
    rintro _ s1 ⟨h1, hm, hd, hr1⟩
    exact key s1 rootino h1 hm hd (hr1.trans (hr ▸ rfl)) ⟨hp.root, hp.rootUsed⟩
  · apply wp_seq (idup_wp h (by rw [hr]; exact hcwd))
    rintro _ s1 ⟨h1, hm, hd, hr1⟩
    exact key s1 cwd h1 hm hd (hr1.trans (hr ▸ rfl)) hty

theorem namei_wp :
    wp E (namei sb cwd path) (fun r s' => Ok sb t s' ∧ Reap sb B s s' ∧ s'.locks = s.locks ∧ Found sb E B s' r ∧
      (Tame B (node sb s) → r = (resolve (node sb s) cwd path false).map Prod.fst)) s := by
  unfold namei
  apply wp_seq (namex_wp hE h hr ht hp hcwd hty)
  rintro r s1 ⟨h1, hreap, hl, hres, hwalk⟩
  exact ⟨h1, hreap, hl, hres, fun htame => by rw [(hwalk htame).1]⟩

end

end Xv6.Fs
