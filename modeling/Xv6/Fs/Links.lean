/-
  Xv6.Fs.Links — entries come and go: `dirlink`, `isdirempty`, `create`.

  Proved: `dirlink_wp`, `isdirempty_wp`, `create_wp`.
-/

import Xv6.Fs.Names

namespace Xv6.Fs

open Xv6.Lib

/-- Entry `k` can be filled: it is there and not in use, or it is the next one. -/
def Node.Vacant (n : Node) (k : Nat) : Prop := (n.Has k ∧ n.inum k = 0) ∨ n.size = 16 * k

/-- Directory `dp` can take another entry: it has one that is not in use, or can grow with the blocks that are free. -/
def Room (sb : Superblock) (s : St) (dp : Nat) : Prop :=
  (∃ k, (node sb s dp).Has k ∧ (node sb s dp).inum k = 0) ∨
  (node sb s dp).size + 16 ≤ maxfile * bsize ∧
    newBlocks s.disk (inodes sb s dp) ((node sb s dp).size / bsize) ≤ freeBlocks sb s.disk

/-- Directory `n` with entry `k` filled. -/
def Node.link (n : Node) (k : Nat) (name : List UInt8) (inum : Nat) : Node :=
  n.written (16 * k) 16 (Dirent.toBytes inum name)

/-- What a call does to the inodes in any case: an inode that is held keeps its type and its copy in memory, and
    entries name inodes the disk has. -/
structure Mild (sb : Superblock) (B : Nat → Nat) (s s' : St) : Prop where
  type : ∀ i, 0 < B i → (node sb s i).type ≠ 0 → (node sb s' i).type = (node sb s i).type
  range : Ranged sb (node sb s) → Ranged sb (node sb s')
  cached : ∀ i, 0 < B i → s.cached i → s'.cached i

/-- The inodes after `iput` of `i`, where the references left are `B`. -/
def letGo (B : Nat → Nat) (i : Nat) (N : Nat → Node) : Nat → Node :=
  if B i = 0 ∧ (N i).nlink = 0 then update N i Node.free else N

/-- Every inode without a name is held, and every held inode is in use. -/
structure Calm (sb : Superblock) (B : Nat → Nat) (N : Nat → Node) : Prop where
  tame : Tame B N
  held : ∀ i, 0 < B i → (N i).type ≠ 0
  small : sb.ninodes ≤ 65536

/-- A new inode, before it has entries. -/
def Node.made (type major minor : Nat) : Node := ⟨type, major % 65536, minor % 65536, 1, 0, zero⟩

/-- A directory with its first two entries. -/
def Node.dots (n : Node) (ip dp : Nat) : Node := (n.link 0 dotName ip).link 1 dotdotName dp

/-- The inode `ip` that `create` makes in directory `dp`. -/
def Node.created (type major minor ip dp : Nat) : Node :=
  if type = tDir then (Node.made type major minor).dots ip dp else Node.made type major minor

/-- Directory `n` after `create` has given inode `ip` of this type an entry. -/
def Node.adopt (n : Node) (k : Nat) (name : List UInt8) (ip type : Nat) : Node :=
  { n.link k name ip with nlink := if type = tDir then (n.nlink + 1) % 65536 else n.nlink }

variable {sb : Superblock} {t : Prop} {s s' : St} {B : Nat → Nat}

variable {N : Nat → Node} {i k j dp : Nat} {s2 : St} {C : Nat → Nat} {n : Node} {l : List UInt8}

theorem Tame.update (h : Tame B N) (hi : 0 < B i) (n : Node) : Tame B (update N i n) := by
  intro j h1 h2
  by_cases hj : j = i
  · rw [hj]; exact hi
  · rw [update_of_ne hj] at h1 h2
    exact h j h1 h2

theorem Mild.refl (s : St) : Mild sb B s s := ⟨fun _ _ _ => rfl, fun h => h, fun _ _ h => h⟩

theorem Mild.trans {s1 : St} (h1 : Mild sb B s s1) (h2 : Mild sb B s1 s2) : Mild sb B s s2 where
  type i hb hty := by
    have he := h1.type i hb hty
    rw [h2.type i hb (he ▸ hty), he]
  range h := h2.range (h1.range h)
  cached i hb hc := h2.cached i hb (h1.cached i hb hc)

theorem Mild.mono (h : Mild sb C s s') (hBC : ∀ i, B i ≤ C i) : Mild sb B s s' :=
  ⟨fun i hb => h.type i (Nat.lt_of_lt_of_le hb (hBC i)), h.range, fun i hb => h.cached i (Nat.lt_of_lt_of_le hb (hBC i))⟩

theorem Reap.mild (h : Reap sb B s s') : Mild sb B s s' where
  type i hb _ := by
    rcases h.node i with he | ⟨h0, -, -⟩
    · rw [he]
    · omega
  range hr d hd := by
    rcases h.node d with he | ⟨-, -, hf⟩
    · rw [he] at hd ⊢
      exact hr d hd
    · rw [hf] at hd
      exact absurd hd (by decide)
  cached := h.cached

theorem Moved.mild (h : Moved sb s s') : Mild sb B s s' := (h.reap (B := B)).mild

theorem mild_of_update (h : node sb s' = update (node sb s) i n)
    (hc : ∀ j, s.cached j → s'.cached j) (hty : (node sb s i).type ≠ 0 → n.type = (node sb s i).type)
    (hr : Ranged sb (node sb s) → n.type = tDir → ∀ k, n.Has k → n.inum k < sb.ninodes) : Mild sb B s s' where
  type j _ := by
    rw [h]
    exact forall_update (P := fun j (m : Node) => (node sb s j).type ≠ 0 → m.type = (node sb s j).type) hty (fun _ _ _ => rfl) j
  range hN := by
    rw [h]
    exact forall_update (P := fun _ (m : Node) => m.type = tDir → ∀ k, m.Has k → m.inum k < sb.ninodes) (hr hN) fun d _ => hN d
  cached j _ hcj := hc j hcj

/-- A change of fields that are not the directory's entries. -/
theorem mild_of_fields (h : Changed sb s i n s') (hty : n.type = (node sb s i).type)
    (hsz : n.size = (node sb s i).size) (hd : n.data = (node sb s i).data) : Mild sb B s s' := by
  refine mild_of_update h.node (fun j hc => (h.cached j).mpr hc) (fun _ => hty) fun hN hdir k hk => ?_
  unfold Node.Has at hk
  unfold Node.inum
  rw [hd]
  rw [hsz] at hk
  exact hN i (hty ▸ hdir) k hk

theorem node_of_put (h : Ok sb t s) (hp : Put sb B s i s')
    (hc : B i = 0 → (node sb s i).nlink = 0 → (node sb s i).type ≠ 0 → s.cached i) :
    node sb s' = letGo B i (node sb s) := by
  unfold letGo
  split
  · rename_i h0
    by_cases hty : (node sb s i).type = 0
    · rcases hp.node with he | ⟨-, -, he⟩
      · rw [he, ← h.node_free hty, update_eq_self]
      · exact he
    · exact hp.gone (hc h0.1 h0.2 hty) h0.1 h0.2
  · rename_i h0
    rcases hp.node with he | ⟨hb, hl, -⟩
    · exact he
    · exact absurd ⟨hb, hl⟩ h0

/-! ## Entries in bytes -/

theorem toBytes_length (inum : Nat) (name : List UInt8) : (Dirent.toBytes inum name).length = 16 := by
  simp [Dirent.toBytes, dirsiz]

theorem slice_getD (l : List UInt8) : slice (fun j => l.getD j 0) 0 l.length = l := by
  apply List.ext_getElem?
  intro j
  by_cases hj : j < l.length
  · rw [slice_getElem? _ hj, Nat.zero_add, List.getD_eq_getElem?_getD, List.getElem?_eq_getElem hj]
    rfl
  · rw [List.getElem?_eq_none (by simpa using hj), List.getElem?_eq_none (by omega)]

theorem Node.written_zero (n : Node) {off : Nat} (h : off ≤ n.size) : n.written off 0 [] = n := by
  unfold Node.written
  rw [Node.put_nil, Nat.add_zero, Nat.max_eq_left h]

theorem written_data (hl : l.length = 16) (j m : Nat) (hm : m < 16) :
    (n.written (16 * k) 16 l).data (16 * j + m) = if j = k then l.getD m 0 else n.data (16 * j + m) := by
  change putBytes n.data (16 * k) l (16 * j + m) = _
  by_cases hj : j = k
  · rw [if_pos hj, hj, putBytes_inside _ (by omega), List.getD_eq_getElem?_getD, List.getElem?_eq_getElem (by omega)]
    rfl
  · rw [if_neg hj, putBytes_outside _ (by omega)]

theorem written_inum (hl : l.length = 16) (j : Nat) :
    (n.written (16 * k) 16 l).inum j =
      if j = k then (l.getD 0 0).toNat + 256 * (l.getD 1 0).toNat else n.inum j := by
  have h0 := written_data (n := n) (k := k) hl j 0 (by decide)
  have h1 := written_data (n := n) (k := k) hl j 1 (by decide)
  unfold Node.inum le16
  rw [Nat.add_zero] at h0
  rw [h0, h1]
  split <;> rfl

theorem link_inum (n : Node) (k : Nat) (name : List UInt8) (inum j : Nat) :
    (n.link k name inum).inum j = if j = k then inum % 65536 else n.inum j := by
  unfold Node.link
  rw [written_inum (toBytes_length inum name)]
  refine if_congr Iff.rfl ?_ rfl
  change (byteOf inum 0).toNat + 256 * (byteOf inum 1).toNat = inum % 65536
  rw [byteOf_toNat, byteOf_toNat]
  omega

theorem link_size (n : Node) (k : Nat) (name : List UInt8) (inum : Nat) :
    (n.link k name inum).size = max n.size (16 * k + 16) := rfl

theorem link_has (h : n.Vacant k) (name : List UInt8) (inum j : Nat) :
    (n.link k name inum).Has j ↔ n.Has j ∨ j = k := by
  unfold Node.Vacant at h
  unfold Node.Has at *
  rw [link_size]
  omega

/-- Sixteen bytes of a kernel buffer are written whole or not at all. -/
theorem writeEntry_wp {E : Stop → Prop} (hE : Tolerant E) (hl : l.length = 16)
    (h : Ok sb t s) (hc : s.cached dp) (ht : 0 < s.outstanding) :
    wp E (writei sb dp (16 * k) 16 (CopyIn.kernel l)) (fun r s' => Ok sb t s' ∧ ((r ≠ 16 ∧ Same sb s s') ∨
      (r = 16 ∧ 16 * k ≤ (node sb s dp).size ∧ Changed sb s dp ((node sb s dp).written (16 * k) 16 l) s')) ∧
      (r = 16 ↔ 16 * k ≤ (node sb s dp).size ∧ 16 * k + 16 ≤ maxfile * bsize ∧
        newBlocks s.disk (s.itab dp).din (16 * k / bsize) ≤ freeBlocks sb s.disk)) s := by
  have hroom : 16 ≤ bsize - 16 * k % bsize := by
    unfold bsize
    omega
  have htotal := CopyIn.total_kernel l 16
  refine wp_mono (wp_both (writei_wp hE h hc ht) (writei_stored hE h hc ht)) ?_
  rintro r s1 ⟨⟨h1, hs1⟩, hst⟩
  rw [← and_assoc]
  refine ⟨?_, ?_⟩
  swap
  · rcases hst with ⟨rfl, -, hout⟩ | ⟨m, l', s2, rfl, hoff, hmax, hst⟩
    · exact iff_of_false (by decide) fun hin => hout ⟨hin.1, hin.2.1⟩
    · rcases hst.wrote.whole hroom with rfl | rfl
      · -- no block was to be had
        refine iff_of_false (by decide) fun hin => ?_
        rcases hst.wrote.ends with hclear | ⟨s3, b, htorn⟩
        · have hshort := (hclear.stop.resolve_left (by decide)).short rfl
          exact absurd hin.2.2 (Nat.not_le.mpr hshort)
        · have hno := htorn.short
          rw [(htotal _ _ (by unfold piece; omega)).1] at hno
          cases hno
      · exact iff_of_true rfl ⟨hoff, hmax, hst.wrote.started (by decide)⟩
  obtain ⟨hr, hsame⟩ | ⟨m, l', hr, -, hoff, -, hch, htot, hwhole, -⟩ := hs1
  · exact ⟨h1, Or.inl ⟨by rw [hr]; decide, hsame⟩⟩
  · have hl' := htot _ htotal
    rcases hwhole _ htotal hroom with hm | hm
    · subst hm
      rw [hl'] at hch
      have hch' : Changed sb s dp ((node sb s dp).written (16 * k) 0 []) s1 := hch
      rw [Node.written_zero _ hoff] at hch'
      refine ⟨h1, Or.inl ⟨by rw [hr]; decide, hch'.toTab, ?_⟩⟩
      rw [hch'.node, update_eq_self]
    · subst hm
      rw [hl', ← hl, slice_getD, hl] at hch
      exact ⟨h1, Or.inr ⟨hr, hoff, hch⟩⟩

/-! ## dirlink -/

section

variable {E : Stop → Prop} (hE : Tolerant E)
include hE

theorem emptyFrom_wp (n : Nat) : ∀ (k : Nat) (s : St), Ok sb t s → s.cached dp → 0 < s.outstanding →
    wp E (emptyFrom sb dp n (16 * k)) (fun off s' => Ok sb t s' ∧ Same sb s s' ∧ (t → s' = s) ∧ ∃ m, off = 16 * m ∧
      (((node sb s dp).Has m ∧ (node sb s dp).inum m = 0) ∨
        (m = k + n ∧ (0 < n → (node sb s dp).Has (k + n - 1)) ∧
          ∀ j, k ≤ j → j < k + n → (node sb s dp).inum j ≠ 0))) s := by
  induction n with
  | zero =>
    intro k s h _ _
    exact ⟨h, Same.refl s, fun _ => rfl, k, rfl, Or.inr ⟨rfl, fun h0 => absurd h0 (Nat.lt_irrefl 0), fun j h1 h2 => by omega⟩⟩
  | succ n ih =>
    intro k s h hc ht
    unfold emptyFrom
    apply wp_seq (readDirent_wp hE h hc ht (hE.rest _ (by decide) (by decide) (by decide)))
    rintro de s1 ⟨h1, hsame, hstill, hhas, hde⟩
    subst hde
    dsimp only
    split
    · rename_i h0
      exact ⟨h1, hsame, hstill, k, rfl, Or.inl ⟨hhas, h0⟩⟩
    · rename_i hne
      have hrec := ih (k + 1) s1 h1 ((hsame.cached dp).mpr hc) (hsame.outstanding.symm ▸ ht)
      rw [hsame.node] at hrec
      refine wp_mono hrec ?_
      rintro off s2 ⟨h2, hsame2, hstill2, m, hoff, hm⟩
      refine ⟨h2, hsame.trans hsame2, fun htt => (hstill2 htt).trans (hstill htt), m, hoff, ?_⟩
      rcases hm with hm | ⟨hm, hlast, hused⟩
      · exact Or.inl hm
      · refine Or.inr ⟨by omega, fun _ => ?_, fun j hlo hhi => ?_⟩
        · by_cases hn : n = 0
          · subst hn
            exact hhas
          · have := hlast (by omega)
            rwa [show k + (n + 1) - 1 = k + 1 + n - 1 by omega]
        · by_cases hj : j = k
          · rwa [hj]
          · exact hused j (by omega) (by omega)

omit hE in
/-- The entry that `dirlink` fills: one that is not in use, or the next one if there is none. -/
theorem room_iff (h : Ok sb t s) (hc : s.cached dp) (ht : t)
    (hk : (node sb s dp).Has k ∧ (node sb s dp).inum k = 0 ∨
      ∀ j, 0 ≤ j → j < 0 + entries (node sb s dp).size → (node sb s dp).inum j ≠ 0) (hvac : (node sb s dp).Vacant k) :
    (16 * k ≤ (node sb s dp).size ∧ 16 * k + 16 ≤ maxfile * bsize ∧
      newBlocks s.disk (inodes sb s dp) (16 * k / bsize) ≤ freeBlocks sb s.disk) ↔ Room sb s dp := by
  have hmax := h.size_le dp
  rcases hk with ⟨hhas, h0⟩ | hused
  · have hin : 16 * k + 16 ≤ (node sb s dp).size := hhas
    refine iff_of_true ⟨by omega, by omega, ?_⟩ (.inl ⟨k, hhas, h0⟩)
    rw [inodes_cached hc, newBlocks_mapped (h.mapped hc ht ?_)]
    · exact Nat.zero_le _
    · rw [← node_size sb hc]
      exact Nat.lt_of_le_of_lt (Nat.div_mul_le_self _ _) (by omega)
  · have hnone : ∀ j, (node sb s dp).Has j → (node sb s dp).inum j ≠ 0 := by
      intro j hj
      refine hused j (Nat.zero_le _) ?_
      unfold Node.Has at hj
      unfold entries
      omega
    have hsize : (node sb s dp).size = 16 * k := hvac.resolve_left fun hv => hnone k hv.1 hv.2
    have hno : ¬ ∃ j, (node sb s dp).Has j ∧ (node sb s dp).inum j = 0 := by
      rintro ⟨j, hj, h0⟩
      exact hnone j hj h0
    rw [Room, hsize, or_iff_right hno, and_iff_right (Nat.le_refl _)]

omit hE in

variable {name : List UInt8} {inum : Nat}

/-- `dirlink` fills a vacant entry, or changes nothing but what it reaps. -/
theorem dirlink_wp (h : Ok sb t s) (hc : s.cached dp) (hr : s.refs = B) (ht : 0 < s.outstanding) :
    wp E (dirlink sb dp name inum) (fun r s' => Ok sb t s' ∧ s'.refs = B ∧ s'.outstanding = s.outstanding ∧
      s'.locks = s.locks ∧ ((r = false ∧ Reap sb B s s') ∨
        (r = true ∧ (node sb s dp).type = tDir ∧ (node sb s dp).find name = none ∧ ∃ k, (node sb s dp).Vacant k ∧
          Changed sb s dp ((node sb s dp).link k name inum) s')) ∧
      (t → (node sb s dp).find name = none → (r = true ↔ Room sb s dp))) s := by
  unfold dirlink
  apply wp_seq (dirlookup_wp hE h hc ht)
  rintro r s1 ⟨h1, hm, hdir, hstill, hfind⟩
  have ht1 : 0 < s1.outstanding := hm.outstanding.symm ▸ ht
  cases r with
  | some e =>
    obtain ⟨ip, off⟩ := e
    obtain ⟨k, -, -, -, hr1, hsome⟩ := hfind
    dsimp only
    apply wp_seq (iput_wp hE h1 (B := B) (by rw [hr1, hr]) ht1)
    rintro _ s2 ⟨h2, hput, hl⟩
    refine ⟨h2, hput.refs, hput.outstanding.trans hm.outstanding, hl.trans hm.locks,
      Or.inl ⟨rfl, hm.reap.trans hput.reaped⟩, fun _ hnone => ?_⟩
    rw [hsome] at hnone
    cases hnone
  | none =>
    obtain ⟨hsame1, hnone⟩ := hfind
    have hc1 := hm.cached dp hc
    dsimp only
    rw [wp_get_bind, ← node_size sb hc1, hm.node]
    apply wp_seq (emptyFrom_wp hE (entries (node sb s dp).size) 0 s1 h1 hc1 ht1)
    rintro off s2 ⟨h2, hsame2, hstill2, k, hoff, hk⟩
    rw [hm.node] at hk
    subst hoff
    have hvac : (node sb s dp).Vacant k := by
      rcases hk with hk | ⟨hk, hlast, -⟩
      · exact Or.inl hk
      · right
        rw [Nat.zero_add] at hk
        subst hk
        by_cases h0 : entries (node sb s dp).size = 0
        · rw [h0]
          unfold entries at h0
          omega
        · have := hlast (Nat.pos_of_ne_zero h0)
          unfold Node.Has entries at *
          omega
    have hsame := hsame1.trans hsame2
    have hc2 := (hsame.cached dp).mpr hc
    apply wp_seq (writeEntry_wp hE (toBytes_length inum name) h2 hc2 (hsame.outstanding.symm ▸ ht))
    rintro v s3 ⟨h3, hcases, hiff⟩
    have hroom : t → (node sb s dp).find name = none → ((v == 16) = true ↔ Room sb s dp) := by
      intro htt _
      have hlaid : Laid sb s s2 := h.laid htt h2 (by rw [hstill2 htt, hstill htt])
      have hino : inodes sb s2 dp = (s2.itab dp).din := inodes_cached hc2
      rw [beq_iff_eq, hiff, hsame.node, ← hino, hlaid.newBlocks, freeBlocks_congr hlaid.used]
      exact room_iff h hc htt (hk.imp_right fun h => h.2.2) hvac
    obtain ⟨hv, hsame3⟩ | ⟨hv, -, hch⟩ := hcases
    · have hall := hsame.trans hsame3
      exact ⟨h3, hall.refs.trans hr, hall.outstanding, hall.locks, Or.inl ⟨by simpa using hv, hall.moved.reap⟩, hroom⟩
    · rw [hsame.node] at hch
      have hall := hsame.trans_changed hch
      exact ⟨h3, hall.refs.trans hr, hall.outstanding, hall.locks, Or.inr ⟨by simp [hv], hdir, hnone, k, hvac, hall⟩, hroom⟩

/-! ## isdirempty -/

theorem isdiremptyFrom_wp (n : Nat) : ∀ (k : Nat) (s : St), Ok sb t s → s.cached dp → 0 < s.outstanding →
    wp E (isdiremptyFrom sb dp n (16 * k)) (fun r s' => Ok sb t s' ∧ Same sb s s' ∧
      (r = true → ∀ m, k ≤ m → m < k + n → (node sb s dp).inum m = 0)) s := by
  induction n with
  | zero =>
    intro k s h _ _
    exact ⟨h, Same.refl s, fun _ m h1 h2 => by omega⟩
  | succ n ih =>
    intro k s h hc ht
    unfold isdiremptyFrom
    apply wp_seq (readDirent_wp hE h hc ht (hE.rest _ (by decide) (by decide) (by decide)))
    rintro de s1 ⟨h1, hsame, -, -, hde⟩
    subst hde
    dsimp only
    split
    · exact ⟨h1, hsame, fun hr => by cases hr⟩
    · rename_i h0
      have hrec := ih (k + 1) s1 h1 ((hsame.cached dp).mpr hc) (hsame.outstanding.symm ▸ ht)
      rw [hsame.node] at hrec
      refine wp_mono hrec ?_
      rintro r s2 ⟨h2, hsame2, hr⟩
      refine ⟨h2, hsame.trans hsame2, fun ht m hlo hhi => ?_⟩
      by_cases hm : m = k
      · rw [hm]; exact not_not.mp h0
      · exact hr ht m (by omega) (by omega)

theorem isdirempty_wp (h : Ok sb t s) (hc : s.cached dp) (ht : 0 < s.outstanding) :
    wp E (isdirempty sb dp) (fun r s' => Ok sb t s' ∧ Same sb s s' ∧
      (r = true → ∀ k, 2 ≤ k → (node sb s dp).Has k → (node sb s dp).inum k = 0)) s := by
  unfold isdirempty
  rw [wp_get_bind, ← node_size sb hc]
  refine wp_mono (isdiremptyFrom_wp hE _ 2 s h hc ht) ?_
  rintro r s1 ⟨h1, hsame, hr⟩
  refine ⟨h1, hsame, fun hrt k hk hhas => hr hrt k hk ?_⟩
  unfold Node.Has at hhas
  unfold entries
  omega

/-! ## create -/

theorem setNlink_wp {v : Nat} (h : Ok sb t s) (hc : s.cached i) (ht : 0 < s.outstanding) :
    wp E (setNlink sb i v) (fun _ s' => Ok sb t s' ∧
      Changed sb s i { node sb s i with nlink := v % 65536 } s') s := by
  unfold setNlink
  rw [wp_modify_bind]
  have hf := h.fits hc
  have hnode : nodeOf s.disk { (s.itab i).din with nlink := v % 65536 } = { node sb s i with nlink := v % 65536 } := by
    rw [node_cached hc]
    rfl
  rw [← hnode]
  refine wp_mono (setCore_wp hE h hc ht rfl ⟨hf.type, hf.major, hf.minor, Nat.mod_lt _ (by decide), hf.size, hf.addrs⟩
    (h.alive i hc) rfl) fun _ _ hs => ⟨hs.1, hs.2.1⟩

omit hE in
/-- The entries of a directory with one more. -/
theorem Ranged.link (hN : Ranged sb N) (hdir : (N dp).type = tDir) (hin : inum < sb.ninodes) (hv : (N dp).Vacant k) (j : Nat)
    (hj : ((N dp).link k name inum).Has j) :
    ((N dp).link k name inum).inum j < sb.ninodes := by
  rw [link_inum]
  split
  · exact Nat.lt_of_le_of_lt (Nat.mod_le _ _) hin
  · rename_i hne
    exact hN dp hdir j (((link_has hv name inum j).mp hj).resolve_right hne)

omit hE in
theorem mild_of_link (hin : inum < sb.ninodes) (hv : (node sb s dp).Vacant k)
    (h : Changed sb s dp ((node sb s dp).link k name inum) s') : Mild sb B s s' := by
  exact mild_of_update h.node (fun j hc => (h.cached j).mpr hc) (fun _ => rfl) fun hN hdir j hj => hN.link hdir hin hv j hj

variable {ip : Nat}

/-- The entries `.` and `..` of a new directory. -/
theorem dots_wp (type dp : Nat) (h : Ok sb t s) (hc : s.cached ip) (hr : s.refs = B) (hB : 0 < B ip) (ht : 0 < s.outstanding)
    (hip : ip < sb.ninodes) (hdp : dp < sb.ninodes) :
    wp E (if type = tDir then do
        let ok ← dirlink sb ip dotName ip
        if ok then dirlink sb ip dotdotName dp else pure false
      else pure true)
      (fun r s' => Ok sb t s' ∧ s'.refs = B ∧ s'.outstanding = s.outstanding ∧ s'.locks = s.locks ∧ Mild sb B s s' ∧
        (Tame B (node sb s) → sb.ninodes ≤ 65536 → 0 < ip → (node sb s ip).size = 0 → ∃ n,
          node sb s' = update (node sb s) ip n ∧
          (r = true → n = if type = tDir then (node sb s ip).dots ip dp else node sb s ip))) s := by
  split
  · apply wp_seq (dirlink_wp hE h hc hr ht)
    rintro ok s1 ⟨h1, hr1, ho1, hl1, hres, -⟩
    rcases hres with ⟨hok, hreap⟩ | ⟨hok, hdir, -, k, hvac, hch⟩
    · subst hok
      refine ⟨h1, hr1, ho1, hl1, hreap.mild, fun htame _ _ _ => ⟨node sb s ip, ?_, fun hr => by cases hr⟩⟩
      rw [node_of_reap hreap h htame, update_eq_self]
    · subst hok
      have hmild : Mild sb B s s1 := mild_of_link hip hvac hch
      have hk : (node sb s ip).size = 0 → k = 0 := by
        intro h0
        unfold Node.Vacant Node.Has at hvac
        omega
      rw [if_pos rfl]
      refine wp_mono (dirlink_wp hE h1 (hmild.cached ip hB hc) hr1 (ho1.symm ▸ ht)) ?_
      rintro ok s2 ⟨h2, hr2, ho2, hl2, hres, -⟩
      rcases hres with ⟨hok, hreap⟩ | ⟨hok, -, -, m, hvac2, hch2⟩
      · refine ⟨h2, hr2, ho2.trans ho1, hl2.trans hl1, hmild.trans hreap.mild, fun htame _ _ _ => ?_⟩
        refine ⟨_, (node_of_reap hreap h1 ?_).trans hch.node, fun hr => ?_⟩
        · rw [hch.node]; exact htame.update hB _
        · rw [hok] at hr; cases hr
      · refine ⟨h2, hr2, ho2.trans ho1, hl2.trans hl1, hmild.trans (mild_of_link hdp hvac2 hch2), fun _ hsmall hpos h0 => ?_⟩
        refine ⟨_, by rw [hch2.node, hch.node, update_idem], fun _ => ?_⟩
        have hk0 := hk h0
        subst hk0
        have hm : m = 1 := by
          rw [hch.node, update_self] at hvac2
          rcases hvac2 with ⟨hhas, hz⟩ | hsz
          · unfold Node.Has at hhas
            rw [link_size, h0] at hhas
            have hm0 : m = 0 := by omega
            rw [hm0, link_inum, if_pos rfl, Nat.mod_eq_of_lt (by omega)] at hz
            omega
          · rw [link_size, h0] at hsz
            omega
        rw [update_self, hm]
        rfl
  · exact ⟨h, hr, rfl, rfl, Mild.refl s, fun _ _ _ _ => ⟨node sb s ip, (update_eq_self _ _).symm, fun _ => rfl⟩⟩

theorem createFail_wp (h : Ok sb t s) (hc : s.cached ip) (hr : s.refs = B + one dp + one ip) (ht : 0 < s.outstanding) :
    wp E (createFail sb dp ip) (fun r s' => r = none ∧ Ok sb t s' ∧ s'.refs = B ∧ s'.outstanding = s.outstanding ∧
      Mild sb B s s' ∧ (∀ N n, node sb s = update N ip n → N ip = Node.free → (B + one dp) ip = 0 → Tame B N →
        node sb s' = N) ∧ ∀ L M, Adds L dp M → Adds M ip s.locks → s'.locks = L) s := by
  unfold createFail
  apply wp_seq (setNlink_wp hE h hc ht)
  rintro _ s1 ⟨h1, hch⟩
  apply wp_seq (iunlockput_wp hE h1 (hch.refs.trans hr) (hch.outstanding.symm ▸ ht))
  rintro _ s2 ⟨h2, hput, hl2⟩
  apply wp_seq (iunlockput_wp hE h2 hput.refs (by rw [hput.outstanding, hch.outstanding]; exact ht))
  rintro _ s3 ⟨h3, hput3, hl3⟩
  have hreap3 : Reap sb B s2 s3 := hput3.reaped
  refine ⟨rfl, h3, hput3.refs, by rw [hput3.outstanding, hput.outstanding, hch.outstanding], ?_, ?_, fun L M hdp hip => ?_⟩
  · have hm1 : Mild sb B s s1 := mild_of_fields hch rfl rfl rfl
    exact (hm1.trans (hput.reap (le_add_one B dp)).mild).trans hreap3.mild
  · intro N n hN hfree hB htame
    have h2N : node sb s2 = N := by
      rw [hput.gone ((hch.cached ip).mpr hc) hB (by rw [hch.node, update_self]), hch.node, update_idem, hN,
        update_idem, ← hfree, update_eq_self]
    rw [← h2N] at htame
    rw [node_of_reap hreap3 h2 htame, h2N]
  · rw [← hch.locks] at hip
    rw [← hl2 M hip] at hdp
    exact hl3 L hdp

variable {major minor type : Nat}

/-- `ip->major = major; ip->minor = minor; ip->nlink = 1; iupdate(ip)` on an inode that `ialloc` made. -/
theorem made_wp (h : Ok sb t s) (hc : s.cached ip) (ht : 0 < s.outstanding) (hfresh : node sb s ip = Node.fresh type) :
    wp E (iupdate sb ip) (fun _ s' => Ok sb t s' ∧ Changed sb s ip (Node.made type major minor) s' ∧ Laid sb s s')
      (s.setDin ip { (s.itab ip).din with major := major % 65536, minor := minor % 65536, nlink := 1 }) := by
  have hf := h.fits hc
  have hnode : nodeOf s.disk (s.itab ip).din = Node.fresh type := by rw [← node_cached hc, hfresh]
  generalize hx : ({ (s.itab ip).din with major := major % 65536, minor := minor % 65536, nlink := 1 } : Dinode) = x
  have ha : x.addrs = (s.itab ip).din.addrs := by rw [← hx]
  have hfx : x.Fits := by
    rw [← hx]
    exact ⟨hf.type, Nat.mod_lt _ (by decide), Nat.mod_lt _ (by decide), Nat.lt_of_lt_of_eq (by decide : 1 < 65536) rfl,
      hf.size, hf.addrs⟩
  have hmade : nodeOf s.disk x = Node.made type major minor := by
    have hty : (s.itab ip).din.type = type := congrArg Node.type hnode
    have hsz : (s.itab ip).din.size = 0 := congrArg Node.size hnode
    have hb : byteAt s.disk x = zero := (byteAt_addrs ha).trans (congrArg Node.data hnode)
    unfold nodeOf Node.made
    rw [hb, ← hx, hty, hsz]
  rw [← hmade]
  exact setCore_wp hE h hc ht ha hfx (by rw [← hx]; exact h.alive ip hc) (by rw [← hx])

/-- The end of `create`: the parent is let go. -/
theorem createDone_wp (h : Ok sb t s) (hc : s.cached dp) (hr : s.refs = B + one dp + one ip) (hne : ip ≠ dp)
    (ht : 0 < s.outstanding) :
    wp E (do
      iunlockput sb dp
      pure (some ip)) (fun r s' => r = some ip ∧ Ok sb t s' ∧ s'.refs = B + one ip ∧ s'.outstanding = s.outstanding ∧
        Mild sb (B + one ip) s s' ∧ node sb s' = letGo B dp (node sb s) ∧
        ∀ L M, Adds L dp M → Adds M ip s.locks → Adds L ip s'.locks) s := by
  apply wp_seq (iunlockput_wp hE h (B := B + one ip) (by rw [hr, add_one_comm]) ht)
  rintro _ s1 ⟨h1, hput, hl⟩
  refine ⟨rfl, h1, hput.refs, hput.outstanding, hput.reaped.mild, ?_, fun L M hdp hip => ?_⟩
  · have hB : (B + one ip) dp = B dp := by rw [refs_one, if_neg hne.symm]
    rw [node_of_put h hput fun _ _ _ => hc]
    unfold letGo
    rw [hB]
  · obtain ⟨hip', hdp'⟩ := hdp.swap hip
    rw [hl _ hdp']
    exact hip'

/-- `create` has allocated inode `ip`, which satisfies `P`, and holds it and the parent `dp`; `s` is the state before. -/
structure Making (sb : Superblock) (t : Prop) (B : Nat → Nat) (s : St) (dp ip type : Nat) (P : Node → Prop) (s' : St) :
    Prop where
  ok : Ok sb t s'
  refs : s'.refs = B + one dp + one ip
  outstanding : s'.outstanding = s.outstanding
  mild : Mild sb B s s'
  parent : s'.cached dp
  child : s'.cached ip
  type : (node sb s' ip).type = type
  locks : Adds s.locks ip s'.locks
  exact : Calm sb B (node sb s) → ∃ n, node sb s' = update (node sb s) ip n ∧ P n

/-- What `create` leaves locked: the inode it returns. -/
def Leaves (L : Nat → Bool) (r : Option Nat) (s' : St) : Prop :=
  match r with
  | none => s'.locks = L
  | some ip => Adds L ip s'.locks

/-- The results of `create` in directory `dp`, which has no entry `name`. -/
def Created (sb : Superblock) (t : Prop) (B : Nat → Nat) (s : St) (dp : Nat) (name : List UInt8)
    (type major minor : Nat) (r : Option Nat) (s' : St) : Prop :=
  Ok sb t s' ∧ s'.outstanding = s.outstanding ∧ Mild sb B s s' ∧ (∀ L, Adds L dp s.locks → Leaves L r s') ∧
  match r with
  | none => s'.refs = B ∧ (Calm sb B (node sb s) → node sb s' = node sb s)
  | some ip => s'.refs = B + one ip ∧ s'.cached ip ∧ (node sb s' ip).type = type ∧
    (Calm sb B (node sb s) → (node sb s dp).type = tDir ∧ (node sb s dp).find name = none ∧ 0 < ip ∧
      ip < sb.ninodes ∧ (node sb s ip).type = 0 ∧ ∃ k, (node sb s dp).Vacant k ∧
      node sb s' = letGo B dp (update (update (node sb s) ip (Node.created type major minor ip dp)) dp
        ((node sb s dp).adopt k name ip type)))

omit hE in
theorem Making.tame {P : Node → Prop} (h : Making sb t B s dp ip type P s') (hcalm : Calm sb B (node sb s)) :
    Tame (B + one dp + one ip) (node sb s') := by
  obtain ⟨n, hn, -⟩ := h.exact hcalm
  rw [hn]
  exact (hcalm.tame.mono fun j => (le_add_one B dp j).trans (le_add_one _ ip j)).update (refs_one_pos _ _) n

section

variable {dp ip type : Nat} {P : Node → Prop} (hne : ip ≠ dp) (hfree : (node sb s ip).type = 0)
include hne hfree

theorem Making.fail_wp (h : Making sb t B s dp ip type P s') (hs : Ok sb t s) (ht : 0 < s.outstanding) :
    wp E (createFail sb dp ip) (Created sb t B s dp name type major minor) s' := by
  refine wp_mono (createFail_wp hE h.ok h.child h.refs (h.outstanding.symm ▸ ht)) ?_
  rintro r s2 ⟨hr, h2, hr2, ho2, hmild2, hback, hl2⟩
  subst hr
  refine ⟨h2, ho2.trans h.outstanding, h.mild.trans hmild2, fun L hL => hl2 L _ hL h.locks, hr2, fun hcalm => ?_⟩
  obtain ⟨n, hn, -⟩ := h.exact hcalm
  refine hback (node sb s) n hn (hs.node_free hfree) ?_ hcalm.tame
  rw [refs_one, if_neg hne]
  by_contra hB
  exact hcalm.held ip (Nat.pos_of_ne_zero hB) hfree

omit hE hfree in
/-- A step that keeps the two inodes `create` holds. -/
theorem Making.step {Q : Node → Prop} (h : Making sb t B s dp ip type P s') (h0 : type ≠ 0)
    (h2 : Ok sb t s2) (hr : s2.refs = s'.refs) (ho : s2.outstanding = s'.outstanding)
    (hl : s2.locks = s'.locks) (hm : Mild sb (B + one dp + one ip) s' s2)
    (hx : Calm sb B (node sb s) → ∃ n, node sb s2 = update (node sb s) ip n ∧ Q n) :
    Making sb t B s dp ip type Q s2 where
  ok := h2
  refs := hr.trans h.refs
  outstanding := ho.trans h.outstanding
  mild := h.mild.trans (hm.mono fun j => (le_add_one B dp j).trans (le_add_one _ ip j))
  parent := hm.cached dp (by rw [refs_one, if_neg hne.symm, refs_one, if_pos rfl]; omega) h.parent
  child := hm.cached ip (refs_one_pos _ _) h.child
  type := by rw [hm.type ip (refs_one_pos _ _) (h.type.symm ▸ h0), h.type]
  locks := hl ▸ h.locks
  exact := hx

/-- The entry is written: the parent is let go and `create` returns. -/
theorem Making.done_wp (h : Making sb t B s dp ip type (fun n => n = Node.created type major minor ip dp) s')
    (ht : 0 < s.outstanding) (h0 : type ≠ 0) (hpos : 0 < ip) (hip : ip < sb.ninodes) (hdir : (node sb s' dp).type = tDir)
    (hfind : (node sb s' dp).find name = none) (hvac : (node sb s' dp).Vacant k) (h2 : Ok sb t s2)
    (hch : Changed sb s' dp ((node sb s' dp).adopt k name ip type) s2) :
    wp E (do
      iunlockput sb dp
      pure (some ip)) (Created sb t B s dp name type major minor) s2 := by
  have hm : Mild sb (B + one dp + one ip) s' s2 :=
    mild_of_update hch.node (fun j hc => (hch.cached j).mpr hc) (fun _ => rfl) fun hN hd j hj => hN.link hd hip hvac j hj
  have hle : ∀ j, B j ≤ (B + one ip) j := le_add_one B ip
  have hC : 0 < (B + one ip) ip := refs_one_pos _ _
  have hC' : 0 < (B + one dp + one ip) ip := refs_one_pos _ _
  have hty2 : (node sb s2 ip).type = type := by rw [hm.type ip hC' (h.type.symm ▸ h0), h.type]
  have hc2 := (hch.cached ip).mpr h.child
  refine wp_mono (createDone_wp hE h2 ((hch.cached dp).mpr h.parent) (hch.refs.trans h.refs) hne
    (by rw [hch.outstanding, h.outstanding]; exact ht)) ?_
  rintro r s3 ⟨hr, h3, hr3, ho3, hm3, hn3, hl3⟩
  subst hr
  refine ⟨h3, by rw [ho3, hch.outstanding, h.outstanding], ?_, fun L hL => hl3 L _ hL (hch.locks ▸ h.locks), hr3,
      hm3.cached ip hC hc2, ?_, fun hcalm => ?_⟩
  · exact (h.mild.trans (hm.mono fun j => (le_add_one B dp j).trans (le_add_one _ ip j))).trans (hm3.mono hle)
  · rw [hm3.type ip hC (hty2.symm ▸ h0), hty2]
  · obtain ⟨n, hn, hP⟩ := h.exact hcalm
    have hdp : node sb s' dp = node sb s dp := by rw [hn, update_of_ne hne.symm]
    rw [hdp] at hdir hfind hvac hch
    refine ⟨hdir, hfind, hpos, hip, hfree, k, hvac, ?_⟩
    rw [hn3, hch.node, hn, hP]

theorem Making.link_wp (h : Making sb t B s dp ip type (fun n => n = Node.created type major minor ip dp) s') (hs : Ok sb t s)
    (ht : 0 < s.outstanding) (h0 : type ≠ 0) (hpos : 0 < ip) (hip : ip < sb.ninodes) :
    wp E (do
      let ok ← dirlink sb dp name ip
      if !ok then createFail sb dp ip
      else do
        if type = tDir then do
          let s ← get
          setNlink sb dp ((s.itab dp).din.nlink + 1)
        else pure ()
        iunlockput sb dp
        pure (some ip)) (Created sb t B s dp name type major minor) s' := by
  apply wp_seq (dirlink_wp hE h.ok h.parent h.refs (h.outstanding.symm ▸ ht))
  rintro ok s1 ⟨h1, hr1, ho1, hl1, hres, -⟩
  rcases hres with ⟨hok, hreap⟩ | ⟨hok, hdir, hfind, k, hvac, hch⟩
  · subst hok
    have hmk : Making sb t B s dp ip type (fun n => n = Node.created type major minor ip dp) s1 := by
      refine h.step hne h0 h1 (hr1.trans h.refs.symm) ho1 hl1 hreap.mild fun hcalm => ?_
      rw [node_of_reap hreap h.ok (h.tame hcalm)]
      exact h.exact hcalm
    exact hmk.fail_wp hE hne hfree hs ht
  · subst hok
    rw [Bool.not_true, if_neg Bool.false_ne_true]
    split
    · rename_i hty
      have hc1 := (hch.cached dp).mpr h.parent
      rw [wp_get_bind, ← node_nlink sb hc1]
      apply wp_seq (setNlink_wp hE h1 hc1 (by rw [ho1, h.outstanding]; exact ht))
      rintro _ s2 ⟨h2, hch2⟩
      refine h.done_wp hE hne hfree ht h0 hpos hip hdir hfind hvac h2 ?_
      rw [hch.node, update_self] at hch2
      have := hch.trans hch2
      unfold Node.adopt
      rw [if_pos hty]
      exact this
    · rename_i hty
      refine h.done_wp hE hne hfree ht h0 hpos hip hdir hfind hvac h1 ?_
      unfold Node.adopt
      rw [if_neg hty]
      exact hch

end

/-- `create` in a directory that has no such name: a new inode with its entry, or no trace. -/
theorem createNew_wp (h : Ok sb t s) (hc : s.cached dp) (hr : s.refs = B + one dp) (ht : 0 < s.outstanding) (hzero : type = 0 →
      E .ilockNoType) (hty : type < 65536) :
    wp E (createNew sb dp name type major minor) (Created sb t B s dp name type major minor) s := by
  have hdp : dp < sb.ninodes := h.range dp hc
  unfold createNew
  apply wp_seq (ialloc_wp hE h ht hty (Nat.lt_of_le_of_lt (Nat.zero_le _) hdp))
  intro r s1 hs1
  cases r with
  | none =>
    dsimp only at hs1 ⊢
    rw [hs1.1]
    apply wp_seq (iunlockput_wp hE h hr ht)
    rintro _ s2 ⟨h2, hput, hl2⟩
    have hreap : Reap sb B s s2 := hput.reaped
    exact ⟨h2, hput.outstanding, hreap.mild, hl2, hput.refs, fun hcalm => node_of_reap hreap h hcalm.tame⟩
  | some ip =>
    dsimp only at hs1 ⊢
    obtain ⟨hpos, hip, hfree, h1, -, hn1, hr1, hc1, ho1, hl1⟩ := hs1
    have hne : ip ≠ dp := fun he => h.type_ne hc (he ▸ hfree)
    apply wp_seq (ilock_wp hE h1 ⟨hip, by rw [hn1, update_self]; exact hzero⟩)
    rintro _ s2 ⟨h2, hm2, hr2, hc2, hl2⟩
    rw [hl1] at hl2
    have h0 : type ≠ 0 := by
      have halive := h2.type_ne hc2
      rw [hm2.node, hn1, update_self] at halive
      exact halive
    rw [wp_modify_bind]
    apply wp_seq (made_wp hE h2 hc2 (by rw [hm2.outstanding, ho1]; exact ht)
      (by rw [hm2.node, hn1, update_self]))
    rintro _ s3 ⟨h3, hch3, -⟩
    have hn3 : node sb s3 = update (node sb s) ip (Node.made type major minor) := by
      rw [hch3.node, hm2.node, hn1, update_idem]
    have hcmono : ∀ j, s.cached j → s3.cached j := fun j hj => (hch3.cached j).mpr (hm2.cached j (hc1 j hj))
    -- the new inode in memory and on disk, without entries
    have hmk3 : Making sb t B s dp ip type (fun n => n = Node.made type major minor) s3 := by
      refine ⟨h3, by rw [hch3.refs, hr2, hr1, hr], by rw [hch3.outstanding, hm2.outstanding, ho1], ?_,
        hcmono dp hc, (hch3.cached ip).mpr hc2, by rw [hn3, update_self]; rfl, hch3.locks ▸ hl2, fun _ => ⟨_, hn3, rfl⟩⟩
      refine mild_of_update hn3 hcmono (fun hne => absurd hfree hne) fun _ _ k hk => ?_
      unfold Node.Has at hk
      exact absurd hk (by change ¬ 16 * k + 16 ≤ 0; omega)
    apply wp_seq (dots_wp hE type dp h3 hmk3.child hmk3.refs (refs_one_pos _ _)
      (hmk3.outstanding.symm ▸ ht) hip hdp)
    rintro ok s4 ⟨h4, hr4, ho4, hl4, hm4, hdots⟩
    have hmk4 : Making sb t B s dp ip type (fun n => ok = true → n = Node.created type major minor ip dp) s4 := by
      refine hmk3.step hne h0 h4 (hr4.trans hmk3.refs.symm) ho4 hl4 hm4 fun hcalm => ?_
      obtain ⟨n, hn4, hok⟩ := hdots (hmk3.tame hcalm) hcalm.small hpos (by rw [hn3, update_self]; rfl)
      refine ⟨n, by rw [hn4, hn3, update_idem], fun ht => ?_⟩
      rw [hok ht, hn3, update_self]
      rfl
    cases ok with
    | false => exact hmk4.fail_wp hE hne hfree h ht
    | true =>
      refine Making.link_wp hE hne hfree ?_ h ht h0 hpos hip
      refine hmk4.step hne h0 h4 rfl rfl rfl (Mild.refl s4) fun hcalm => ?_
      obtain ⟨n, hn, hP⟩ := hmk4.exact hcalm
      exact ⟨n, hn, hP rfl⟩

omit hE in
theorem type_of_put (h : Put sb C s i s') (hj : 0 < C j) :
    node sb s' j = node sb s j := by
  rcases h.node with he | ⟨h0, -, he⟩
  · rw [he]
  · have hne : j ≠ i := by
      intro hh
      rw [hh, h0] at hj
      exact Nat.lt_irrefl 0 hj
    rw [he, update_of_ne hne]

/-- `create` of `path` has made inode `ip`: the inodes before and after. -/
def Creates (sb : Superblock) (B : Nat → Nat) (cwd : Nat) (path : List UInt8) (type major minor ip : Nat)
    (N N' : Nat → Node) : Prop :=
  ∃ dp name k, resolve N cwd path true = some (dp, name) ∧ (N dp).type = tDir ∧ (N dp).find name = none ∧ 0 < ip ∧
    ip < sb.ninodes ∧ (N ip).type = 0 ∧ (N dp).Vacant k ∧
    N' = letGo B dp (update (update N ip (Node.created type major minor ip dp)) dp ((N dp).adopt k name ip type))

variable {cwd : Nat} {path : List UInt8} {N' : Nat → Node}

omit hE in
/-- The new inode after `create`. -/
theorem Creates.child (h : Creates sb B cwd path type major minor ip N N') : ∃ dp, (N dp).type = tDir ∧ ip ≠ dp ∧
    (N ip).type = 0 ∧
      N' ip = Node.created type major minor ip dp := by
  obtain ⟨dp, name, k, -, hd, -, -, -, hfree, -, heq⟩ := h
  have hne : ip ≠ dp := by
    intro he
    rw [he, hd] at hfree
    exact absurd hfree (by decide)
  refine ⟨dp, hd, hne, hfree, ?_⟩
  rw [heq]
  unfold letGo
  split
  · rw [update_of_ne hne, update_of_ne hne, update_self]
  · rw [update_of_ne hne, update_self]

/-- The directory of `path` has an entry under the last element. -/
def Exists (N : Nat → Node) (cwd : Nat) (path : List UInt8) : Prop :=
  ∃ dp name, resolve N cwd path true = some (dp, name) ∧ (N dp).find name ≠ none

omit hE in

/-- `create` of `path` has returned `ip`: an inode that was there, or a new one. -/
def CreateReturns (sb : Superblock) (B : Nat → Nat) (s : St) (cwd : Nat) (path : List UInt8) (type major minor ip : Nat)
    (s' : St) : Prop :=
  s'.refs = B + one ip ∧ s'.cached ip ∧
    ((type = tFile ∧ ((node sb s' ip).type = tFile ∨ (node sb s' ip).type = tDevice) ∧
        (Calm sb B (node sb s) → node sb s' = node sb s ∧ Exists (node sb s) cwd path)) ∨
      ((node sb s' ip).type = type ∧ (Calm sb B (node sb s) →
        Creates sb B cwd path type major minor ip (node sb s) (node sb s'))))

/-- `create` returns nothing and changes nothing, or returns the inode it found, or a new one. -/
theorem create_wp (h : Ok sb t s) (hr : s.refs = B) (ht : 0 < s.outstanding) (hp : Paths sb E B (node sb s)) (hcwd : 0 < B cwd)
    (hcty : Lockable sb E (node sb s) cwd) (hzero : type = 0 → E .ilockNoType) (hty : type < 65536) :
    wp E (create sb cwd path type major minor) (fun r s' => Ok sb t s' ∧ s'.outstanding = s.outstanding ∧
      Mild sb B s s' ∧ Leaves s.locks r s' ∧
      match r with
      | none => s'.refs = B ∧ (Calm sb B (node sb s) → node sb s' = node sb s)
      | some ip => CreateReturns sb B s cwd path type major minor ip s') s := by
  unfold create nameiparent
  apply wp_seq (namex_wp hE h hr ht hp hcwd hcty)
  rintro r s1 ⟨h1, hreap, hl1, hfound, hres⟩
  have hcalm1 : Calm sb B (node sb s) → node sb s1 = node sb s := fun hc => node_of_reap hreap h hc.tame
  have hp1 := hp.reap h hreap
  cases r with
  | none =>
    exact ⟨h1, hreap.outstanding, hreap.mild, hl1, hfound, hcalm1⟩
  | some e =>
    obtain ⟨dp, name⟩ := e
    obtain ⟨hr1, hty1⟩ := hfound
    dsimp only at hr1 hty1 ⊢
    apply wp_seq (ilock_wp hE h1 hty1)
    rintro _ s2 ⟨h2, hm2, hr2, hc2, hl2⟩
    have ht2 : 0 < s2.outstanding := by rw [hm2.outstanding, hreap.outstanding]; exact ht
    have hreap2 : Reap sb B s s2 := hreap.trans hm2.reap
    rw [← hm2.node] at hp1 hcalm1
    apply wp_seq (dirlookup_wp hE h2 hc2 ht2)
    rintro r s3 ⟨h3, hm3, hdir, -, hfind⟩
    have hreap3 : Reap sb B s s3 := hreap2.trans hm3.reap
    rw [hl1, ← hm3.locks] at hl2
    have ht3 : 0 < s3.outstanding := hm3.outstanding.symm ▸ ht2
    cases r with
    | some e =>
      obtain ⟨ip, off⟩ := e
      obtain ⟨k, -, hip, hhas, hr3, hsome⟩ := hfind
      dsimp only
      apply wp_seq (iunlockput_wp hE h3 (B := B + one ip) (by rw [hr3, hr2, hr1, add_one_comm]) ht3)
      rintro _ s4 ⟨h4, hput, hl4⟩
      have hnip : node sb s4 ip = node sb s2 ip := by rw [type_of_put hput (refs_one_pos _ _), hm3.node]
      have hreap4 : Reap sb B s s4 := hreap3.trans (hput.reap (le_add_one B ip))
      have hent := hp1.entry hdir hhas hsome
      rw [← hip] at hent
      apply wp_seq (ilock_wp hE h4 ⟨hent.1, by rw [hnip]; exact hent.2⟩)
      rintro _ s5 ⟨h5, hm5, hr5, hc5, hl5⟩
      rw [hl4 _ hl2] at hl5
      have hreap5 : Reap sb B s s5 := hreap4.trans hm5.reap
      rw [wp_get_bind, ← node_type sb hc5]
      split
      · rename_i hcond
        refine ⟨h5, hreap5.outstanding, hreap5.mild, hl5, hr5.trans hput.refs, hc5,
          Or.inl ⟨hcond.1, hcond.2, fun hc => ⟨node_of_reap hreap5 h hc.tame, dp, name, (hres hc.tame).1.symm, ?_⟩⟩⟩
        rw [← hcalm1 hc, hsome]
        exact Option.some_ne_none k
      · apply wp_seq (iunlockput_wp hE h5 (hr5.trans hput.refs) (by rw [hreap5.outstanding]; exact ht))
        rintro _ s6 ⟨h6, hput6, hl6⟩
        have hreap6 : Reap sb B s s6 := hreap5.trans hput6.reaped
        exact ⟨h6, hreap6.outstanding, hreap6.mild, hl6 _ hl5, hput6.refs, fun hc => node_of_reap hreap6 h hc.tame⟩
    | none =>
      obtain ⟨hsame, hnone⟩ := hfind
      dsimp only
      refine wp_mono (createNew_wp hE h3 ((hsame.cached dp).mpr hc2) (by rw [hsame.refs, hr2, hr1]) ht3 hzero hty) ?_
      rintro r s4 ⟨h4, ho4, hmild4, hl4, hcase⟩
      have hn3 : Calm sb B (node sb s) → node sb s3 = node sb s := fun hc => node_of_reap hreap3 h hc.tame
      refine ⟨h4, by rw [ho4, hreap3.outstanding], hreap3.mild.trans hmild4, hl4 _ hl2, ?_⟩
      cases r with
      | none =>
        refine ⟨hcase.1, fun hc => ?_⟩
        have hn := hn3 hc
        rw [← hn] at hc
        rw [hcase.2 hc, hn]
      | some ip =>
        refine ⟨hcase.1, hcase.2.1, Or.inr ⟨hcase.2.2.1, fun hc => ?_⟩⟩
        have hn := hn3 hc
        have hcase' := hcase.2.2.2
        rw [hn] at hcase'
        obtain ⟨hd, hf, hpos, hlt, hfree, k, hvac, heq⟩ := hcase' hc
        exact ⟨dp, name, k, (hres hc.tame).1.symm, hd, hf, hpos, hlt, hfree, hvac, heq⟩

end

end Xv6.Fs
