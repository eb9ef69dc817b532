/-
  Xv6.Fs.Release — giving back an inode's blocks, and the inode.

  `itrunc` frees block after block while the inode still names some of them; `mask` hides the
  pointers already freed, and `Freeing` says that what is not hidden is owned and marked.

  Proved:
  - `itrunc_wp`: `itrunc` frees every block of the file and no other; it frees no free block.
  - `iput_wp`: `iput` drops a reference. It frees the inode when that reference was the last
    one and no name is left, and changes no other inode.
-/

import Xv6.Fs.Content

namespace Xv6.Fs

open Xv6.Lib

variable {sb : Superblock} {t : Prop} {W : Nat → Prop} {s s' : St} {d : Disk}

/-- The pointers of all files, without the first `k` of inode `i`. -/
def mask (P : Nat × Nat → Nat) (i k : Nat) : Nat × Nat → Nat := fun l => if l.1 = i ∧ l.2 < k then 0 else P l

theorem mask_zero (P : Nat × Nat → Nat) (i : Nat) : mask P i 0 = P := by
  funext l
  exact if_neg fun h => Nat.not_lt_zero _ h.2

theorem mask_succ (P : Nat × Nat → Nat) (i k : Nat) : mask P i (k + 1) = update (mask P i k) (i, k) 0 := by
  funext ⟨j, m⟩
  by_cases h : (j, m) = (i, k)
  · rw [h, update_self]
    exact if_pos ⟨rfl, Nat.lt_succ_self k⟩
  · rw [update_of_ne h]
    refine if_congr ⟨fun hm => ⟨hm.1, ?_⟩, fun hm => ⟨hm.1, Nat.lt_succ_of_lt hm.2⟩⟩ rfl rfl
    have hne : m ≠ k := fun he => h (by rw [show j = i from hm.1, he])
    have := hm.2
    omega

theorem mask_at (P : Nat × Nat → Nat) (i k : Nat) : mask P i k (i, k) = P (i, k) :=
  if_neg fun h => Nat.lt_irrefl _ h.2

/-- The first `k` blocks of inode `i` of `s0` have been freed. -/
structure Freeing (sb : Superblock) (t : Prop) (s0 : St) (i k : Nat) (s : St) : Prop where
  own : Owned (mask (ptrs s0.disk (inodes sb s0)) i k) (used sb s.disk) sb.dataStart sb.size
  low : ∀ c, c < sb.dataStart → used sb s.disk c = true
  leak : t → NoLeak (mask (ptrs s0.disk (inodes sb s0)) i k) (used sb s.disk) sb.dataStart sb.size
  high : ∀ c, sb.dataStart ≤ c → s.disk c = s0.disk c
  inode : ∀ j, j < sb.ninodes → dinodeAt sb s.disk j = dinodeAt sb s0.disk j
  tab : Tab s0 s
  other : ∀ j, j ≠ i → (s.itab j).din = (s0.itab j).din
  core : (s.itab i).din.core = (s0.itab i).din.core

variable {s0 : St} {i k : Nat}

theorem Inv.freeing (h : Inv sb t W s) (i : Nat) : Freeing sb t s i 0 s where
  own := by rw [mask_zero]; exact h.good.own
  low := h.good.low
  leak := by rw [mask_zero]; exact h.good.leak
  high _ _ := rfl
  inode _ _ := rfl
  tab := Tab.refl s
  other _ _ := rfl
  core := rfl

theorem Freeing.skip (h : Freeing sb t s0 i k s) (h0 : ptrs s0.disk (inodes sb s0) (i, k) = 0) :
    Freeing sb t s0 i (k + 1) s := by
  have he : mask (ptrs s0.disk (inodes sb s0)) i (k + 1) = mask (ptrs s0.disk (inodes sb s0)) i k := by
    rw [mask_succ, ← h0, ← mask_at (ptrs s0.disk (inodes sb s0)) i k, update_eq_self]
  exact ⟨he ▸ h.own, h.low, he ▸ h.leak, h.high, h.inode, h.tab, h.other, h.core⟩

theorem Freeing.skip_to (n : Nat) (h : Freeing sb t s0 i k s)
    (h0 : ∀ m, k ≤ m → m < k + n → ptrs s0.disk (inodes sb s0) (i, m) = 0) : Freeing sb t s0 i (k + n) s := by
  induction n with
  | zero => exact h
  | succ n ih => exact (ih fun m h1 h2 => h0 m h1 (by omega)).skip (h0 (k + n) (by omega) (by omega))

/-- The address of a block that has been freed is cleared. -/
theorem Freeing.clear (h : Freeing sb t s0 i k s) (m : Fin 13) :
    Freeing sb t s0 i k (s.setDin i ((s.itab i).din.setAddr m 0)) :=
  { h with
    tab := h.tab.trans (setDin_tab _ _)
    other := fun j hj => by rw [setDin_itab, if_neg hj]; exact h.other j hj
    core := by rw [setDin_self]; exact h.core }

section

variable {E : Stop → Prop} (hE : Tolerant E)
include hE

theorem Freeing.bfree_wp {b : Nat} (h : Freeing sb t s0 i k s) (ht : 0 < s0.outstanding)
    (hb : b = ptrs s0.disk (inodes sb s0) (i, k)) (h0 : b ≠ 0) :
    wp E (bfree sb b) (fun _ s' => Freeing sb t s0 i (k + 1) s' ∧ s'.itab = s.itab) s := by
  have hmask : mask (ptrs s0.disk (inodes sb s0)) i k (i, k) = b := (mask_at _ _ _).trans hb.symm
  have hne : mask (ptrs s0.disk (inodes sb s0)) i k (i, k) ≠ 0 := hmask ▸ h0
  have hu : used sb s.disk b = true := hmask ▸ h.own.marked (i, k) hne
  have hlo : sb.dataStart ≤ b := hmask ▸ (h.own.range (i, k) hne).1
  refine wp_mono (Fs.bfree_wp hE (h.tab.outstanding.symm ▸ ht) hu) ?_
  rintro _ s' ⟨hg, htab⟩
  have hused : used sb s'.disk = update (used sb s.disk) (mask (ptrs s0.disk (inodes sb s0)) i k (i, k)) false := by
    rw [hmask]; exact hg.used
  refine ⟨⟨?_, ?_, ?_, ?_, ?_, ?_, ?_, ?_⟩, htab.itab⟩
  · rw [mask_succ, hused]; exact h.own.free hne
  · intro c hc
    rw [hg.used, update_of_ne (by omega)]
    exact h.low c hc
  · intro htt
    rw [mask_succ, hused]; exact (h.leak htt).free (i, k)
  · intro c hc
    rw [hg.high c hc, h.high c hc]
  · intro j hj
    rw [hg.inode j hj, h.inode j hj]
  · exact h.tab.trans htab.tab
  · rw [htab.itab]; exact h.other
  · rw [htab.itab]; exact h.core

/-! ## itrunc -/

/-- Before iteration `k` of the first loop: the addresses below `k` are cleared, the others are as they were. -/
def Cleared (s0 : St) (i k : Nat) (s : St) : Prop :=
  (∀ m (hm : m < ndirect), (s.itab i).din.addrs (directIx m hm) =
    if m < k then 0 else (s0.itab i).din.addrs (directIx m hm)) ∧
  (s.itab i).din.indirect = (s0.itab i).din.indirect

omit hE in
theorem Cleared.succ (h : Cleared s0 i k s) (hk : k < ndirect) :
    Cleared s0 i (k + 1) (s.setDin i ((s.itab i).din.setAddr (directIx k hk) 0)) := by
  refine ⟨fun m hm => ?_, ?_⟩
  · rw [setDin_self]
    by_cases he : m = k
    · subst he
      rw [if_pos (Nat.lt_succ_self m)]
      exact update_self _ _ _
    · have hne : directIx m hm ≠ directIx k hk := fun hh => he (congrArg Fin.val hh)
      have h1 : ((s.itab i).din.setAddr (directIx k hk) 0).addrs (directIx m hm) = (s.itab i).din.addrs (directIx m hm) :=
        update_of_ne hne _ _
      rw [h1, h.1 m hm]
      exact if_congr ⟨fun hl => Nat.lt_succ_of_lt hl, fun hl => by omega⟩ rfl rfl
  · rw [setDin_self, setAddr_indirect]
    exact h.2

theorem truncDirect_wp (hc : s0.cached i) (ht : 0 < s0.outstanding) (hk : k < ndirect) (h : Freeing sb t s0 i k s)
    (hcl : Cleared s0 i k s) :
    wp E (truncDirect sb i k) (fun _ s' => Freeing sb t s0 i (k + 1) s' ∧ Cleared s0 i (k + 1) s') s := by
  have hm : k ≠ maxfile := by
    have : ndirect ≤ maxfile := by decide
    omega
  have hp : ptrs s0.disk (inodes sb s0) (i, k) = (s.itab i).din.addrs (directIx k hk) := by
    rw [ptrs_data hm, inodes_cached hc, blockOf_direct hk, hcl.1 k hk, if_neg (Nat.lt_irrefl k)]
  unfold truncDirect
  rw [wp_get_bind, dif_pos hk]
  split
  · rename_i h0
    refine ⟨h.skip (hp.trans h0), fun m hm' => ?_, hcl.2⟩
    by_cases he : m = k
    · subst he; rw [if_pos (Nat.lt_succ_self m)]; exact h0
    · rw [hcl.1 m hm']
      exact if_congr ⟨fun hl => Nat.lt_succ_of_lt hl, fun hl => by omega⟩ rfl rfl
  · rename_i h0
    apply wp_seq (h.bfree_wp hE ht hp.symm h0)
    rintro _ s1 ⟨h1, hitab⟩
    have hcl1 : Cleared s0 i k s1 := by
      unfold Cleared
      rw [hitab]
      exact hcl
    exact ⟨h1.clear _, hcl1.succ hk⟩

variable {a : Block}

theorem truncSlot_wp {j : Nat} (hc : s0.cached i) (ht : 0 < s0.outstanding) (hj : j < nindirect)
    (h0 : (s0.itab i).din.indirect ≠ 0) (ha : a = s0.disk (s0.itab i).din.indirect) (h : Freeing sb t s0 i (ndirect + j) s) :
    wp E (truncSlot sb a j) (fun _ s' => Freeing sb t s0 i (ndirect + j + 1) s' ∧ s'.itab = s.itab) s := by
  have hmax : ndirect + j < maxfile := by
    unfold maxfile
    omega
  have hp : ptrs s0.disk (inodes sb s0) (i, ndirect + j) = slot a (ndirect + j) := by
    rw [ptrs_data (by omega), inodes_cached hc, blockOf_indirect (by omega) hmax, if_neg h0, ha]
  unfold truncSlot
  split
  · rename_i hs
    exact ⟨h.skip (hp.trans hs), rfl⟩
  · rename_i hs
    exact h.bfree_wp hE ht hp.symm hs

omit hE in
theorem Cleared.all (h : Cleared s0 i ndirect s) (h0 : (s.itab i).din.addrs 12 = 0) :
    (s.itab i).din.addrs = fun _ => 0 := by
  funext m
  by_cases hm : m.val < ndirect
  · have := h.1 m.val hm
    rw [if_pos hm] at this
    exact this
  · have : m = 12 := Fin.ext (by
      have := m.isLt
      unfold ndirect at hm
      change m.val = 12
      omega)
    rw [this, h0]

/-- Node `n` after `itrunc`. -/
def Node.truncated (n : Node) : Node := { n with size := 0, data := zero }

omit hE in
theorem ptr_of_addrs_zero {x : Dinode} (h : x.addrs = fun _ => 0) (m : Nat) : ptr d x m = 0 := by
  rw [ptr_addrs (show x.addrs = Dinode.zero.addrs from h)]
  by_cases hm : m = maxfile
  · rw [hm, ptr_maxfile]; rfl
  · rw [ptr_of_ne hm, blockOf_zero]

omit hE in
/-- Every block has been freed, and the size is set to 0. -/
theorem Freeing.done (h : Inv sb t W s0) (hc : s0.cached i) (hf : Freeing sb t s0 i (maxfile + 1) s)
    (ha : (s.itab i).din.addrs = fun _ => 0) :
    Inv sb t (fun j => W j ∨ j = i) (s.setDin i { (s.itab i).din with size := 0 }) ∧
      Changed sb s0 i (node sb s0 i).truncated (s.setDin i { (s.itab i).din with size := 0 }) := by
  have hc' : s.cached i := (hf.tab.cached i).mpr hc
  have hci : inodes sb s0 i = (s0.itab i).din := inodes_cached hc
  generalize hx : ({ (s.itab i).din with size := 0 } : Dinode) = x
  have hxa : x.addrs = fun _ => 0 := by rw [← hx]; exact ha
  have hsame : inodes sb (s.setDin i x) = update (inodes sb s0) i x := by
    rw [inodes_setDin hc' x]
    funext j
    by_cases hj : j = i
    · rw [hj, update_self, update_self]
    · rw [update_of_ne hj, update_of_ne hj]
      by_cases hcj : s0.cached j
      · rw [inodes_cached hcj, inodes_cached ((hf.tab.cached j).mpr hcj), hf.other j hj]
      · rw [inodes_uncached hcj, inodes_uncached (mt (hf.tab.cached j).mp hcj)]
        unfold diskInodes
        split
        · rw [hf.inode j ‹_›]
        · rfl
  have hfits : x.Fits := by
    have h0 := h.fits hc
    have hcore := hf.core
    simp only [Dinode.core, Dinode.mk.injEq, and_true] at hcore
    rw [← hx]
    exact ⟨hcore.1 ▸ h0.type, hcore.2.1 ▸ h0.major, hcore.2.2.1 ▸ h0.minor, hcore.2.2.2.1 ▸ h0.nlink, Nat.two_pow_pos 32,
      fun m => by
        change (s.itab i).din.addrs m < _
        rw [ha]
        exact Nat.two_pow_pos 32⟩
  have hp : ptrs s.disk (update (inodes sb s0) i x) = mask (ptrs s0.disk (inodes sb s0)) i (maxfile + 1) := by
    funext x
    obtain ⟨j, m⟩ := x
    unfold mask
    by_cases hj : j = i
    · subst hj
      unfold ptrs
      rw [update_self, ptr_of_addrs_zero hxa]
      split
      · rfl
      · rename_i hm
        have hgt : maxfile < m := by
          have : ¬ m < maxfile + 1 := fun hlt => hm ⟨rfl, hlt⟩
          omega
        change 0 = ptr s0.disk (inodes sb s0 j) m
        rw [ptr_of_ne (by omega), blockOf_beyond (by omega)]
    · rw [if_neg fun hh => hj hh.1, ← ptrs_high h.good.own hf.high]
      unfold ptrs
      rw [update_of_ne hj]
  have hbytes := byteAt_high h.good.own hf.high
  have hzero : byteAt s.disk x = zero := by
    rw [byteAt_addrs (show x.addrs = Dinode.zero.addrs from hxa), byteAt_zero]
  have htab := hf.tab.trans (setDin_tab i x)
  refine ⟨⟨⟨?_, hf.low, ?_, ?_, ?_, ?_⟩, ?_, ?_, ?_⟩, htab, ?_⟩
  · rw [hsame]
    change Owned (ptrs s.disk _) _ _ _
    rw [hp]; exact hf.own
  · rw [hsame]
    change t → NoLeak (ptrs s.disk _) _ _ _
    rw [hp]; exact hf.leak
  · rw [hsame]; exact update_fits h.good.fits hfits
  · rw [hsame]
    exact forall_update (P := fun _ (y : Dinode) => y.size ≤ maxfile * bsize) (by rw [← hx]; exact Nat.zero_le _)
      fun j _ => h.good.size j
  · intro htt j bn
    rw [hsame]
    refine forall_update (P := fun _ (y : Dinode) => bn * bsize < y.size → blockOf s.disk y bn ≠ 0) (fun hbn => ?_)
      (fun j _ => ?_) j
    · rw [← hx] at hbn
      exact absurd hbn (Nat.not_lt_zero _)
    · rw [blockOf_high h.good.own hf.high]
      exact h.good.hole htt j bn
  · exact fun j hj => h.range j ((htab.cached j).mp hj)
  · intro j hj
    rw [setDin_itab]
    split
    · have := h.alive i hc
      rw [← core_type hf.core] at this
      rw [← hx]; exact this
    · rename_i hne
      rw [hf.other j hne]
      exact h.alive j ((htab.cached j).mp hj)
  · intro j hw hcj
    have hne : j ≠ i := fun he => hw (Or.inr he)
    have hcj' := (htab.cached j).mp hcj
    rw [setDin_itab, if_neg hne, hf.other j hne]
    change Synced t s.disk _ (dinodeAt sb s.disk j)
    rw [hf.inode j (h.range j hcj')]
    have hb := hbytes j
    rw [inodes_cached hcj'] at hb
    exact (h.sync j (fun hh => hw (Or.inl hh)) hcj').disk hb
  · refine node_of_inodes hsame hbytes ?_
    have hcore := hf.core
    simp only [Dinode.core, Dinode.mk.injEq, and_true] at hcore
    change nodeOf s.disk x = _
    unfold nodeOf Node.truncated node nodeOf
    rw [hzero, hci, ← hx]
    simp only [hcore]

theorem truncSlots_wp {n : Nat} (hc : s0.cached i) (ht : 0 < s0.outstanding) (h0 : (s0.itab i).din.indirect ≠ 0)
    (ha : a = s0.disk (s0.itab i).din.indirect) (h : Freeing sb t s0 i ndirect s) (hn : n ≤ nindirect) :
    wp E (forTo (truncSlot sb a) n) (fun _ s' => Freeing sb t s0 i (ndirect + n) s' ∧ s'.itab = s.itab) s := by
  refine wp_forTo (I := fun j s' => Freeing sb t s0 i (ndirect + j) s' ∧ s'.itab = s.itab) ⟨h, rfl⟩ ?_
  intro j hj s1 hs1
  refine wp_mono (truncSlot_wp hE hc ht (by omega) h0 ha hs1.1) ?_
  intro _ s2 hs2
  exact ⟨hs2.1, hs2.2.trans hs1.2⟩

/-- The end of `itrunc`. -/
theorem Freeing.finish_wp (h : Inv sb t W s0) (hc : s0.cached i) (ht : 0 < s0.outstanding)
    (hf : Freeing sb t s0 i (maxfile + 1) s) (ha : (s.itab i).din.addrs = fun _ => 0) :
    wp E (do
      modify fun s => s.setDin i { (s.itab i).din with size := 0 }
      iupdate sb i) (fun _ s' => Inv sb t W s' ∧ Changed sb s0 i (node sb s0 i).truncated s' ∧
      (s'.itab i).din.addrs = fun _ => 0) s := by
  rw [wp_modify_bind]
  obtain ⟨h1, hch⟩ := hf.done h hc ha
  refine wp_mono (iupdate_wp hE h1 ((hch.cached i).mpr hc) (hch.outstanding.symm ▸ ht)) ?_
  rintro _ s' ⟨h2, hsame, hitab, -⟩
  refine ⟨h2.mono fun j hj => hj.1.resolve_right hj.2, hch.trans_same hsame, ?_⟩
  rw [hitab, setDin_self]
  exact ha

theorem itrunc_wp (h : Inv sb t W s) (hc : s.cached i) (ht : 0 < s.outstanding) :
    wp E (itrunc sb i) (fun _ s' => Inv sb t W s' ∧ Changed sb s i (node sb s i).truncated s' ∧
      (s'.itab i).din.addrs = fun _ => 0) s := by
  have hmax : ndirect + nindirect = maxfile := rfl
  unfold itrunc
  apply wp_seq (wp_forTo (I := fun k s1 => Freeing sb t s i k s1 ∧ Cleared s i k s1)
    ⟨h.freeing i, fun m hm => (if_neg (Nat.not_lt_zero m)).symm, rfl⟩
    fun k hk s1 hs1 => truncDirect_wp hE hc ht hk hs1.1 hs1.2)
  rintro _ s1 ⟨h1, hcl⟩
  rw [wp_get_bind]
  dsimp only
  split
  · rename_i h0
    have hind : (s.itab i).din.indirect = 0 := hcl.2.symm.trans h0
    -- no indirect block, so no block past the direct ones
    have hf : Freeing sb t s i (ndirect + (nindirect + 1)) s1 := by
      refine h1.skip_to _ fun m hlo hhi => ?_
      by_cases hm : m = maxfile
      · rw [hm, ptrs_maxfile, inodes_cached hc, hind]
      · rw [ptrs_data hm, inodes_cached hc, blockOf_indirect hlo (by omega), if_pos hind]
    rw [← Nat.add_assoc, hmax] at hf
    exact hf.finish_wp hE h hc ht (hcl.all h0)
  · rename_i h0
    have hind : (s.itab i).din.indirect ≠ 0 := hcl.2 ▸ h0
    have hblock : s1.disk (s1.itab i).din.indirect = s.disk (s.itab i).din.indirect := by
      rw [hcl.2]
      refine h1.high _ ?_
      have hr := h.good.own.range (i, maxfile)
      rw [ptrs_maxfile, inodes_cached hc] at hr
      exact (hr hind).1
    apply wp_seq (truncSlots_wp hE hc ht hind hblock h1 (le_refl nindirect))
    rintro _ s2 ⟨h2, hitab2⟩
    rw [hmax] at h2
    apply wp_seq (h2.bfree_wp hE ht (by rw [ptrs_maxfile, inodes_cached hc, hcl.2]) h0)
    rintro _ s3 ⟨h3, hitab3⟩
    rw [wp_modify_bind]
    refine (h3.clear 12).finish_wp hE h hc ht ?_
    rw [setDin_self]
    have hcl3 : Cleared s i ndirect s3 := by
      unfold Cleared
      rw [hitab3, hitab2]
      exact hcl
    funext m
    by_cases hm : m = 12
    · rw [hm]; exact setAddr_indirect_self
    · have hlt : m.val < ndirect := by
        have h1 := m.isLt
        have h2 : m.val ≠ 12 := fun he => hm (Fin.ext he)
        unfold ndirect
        omega
      have h4 := hcl3.1 m.val hlt
      rw [if_pos hlt] at h4
      exact (update_of_ne hm _ _).trans h4

end

/-! ## iput -/

/-- The copy in memory goes and the one on disk stays: at most, blocks are forgotten. -/
theorem Good.evict {D : Nat → Dinode} {y : Dinode} (h : Good sb t d D) (hs : Synced t d (D i) y) (hf : y.Fits) :
    Good sb t d (update D i y) := by
  have hsz : y.size = (D i).size := (core_size hs.core).symm
  have heq : t → update D i y = D := by
    intro htt
    rw [← hs.tight htt, update_eq_self]
  refine ⟨h.own.sub ?_, h.low, fun htt => ?_, update_fits h.fits hf, fun j => ?_, fun htt => ?_⟩
  · rintro ⟨j, m⟩
    by_cases hj : j = i
    · subst hj
      unfold ptrs
      rw [update_self]
      by_cases hm : m = maxfile
      · rw [hm, ptr_maxfile, ptr_maxfile]
        exact hs.sub 12
      · rw [ptr_of_ne hm, ptr_of_ne hm]
        rcases blockOf_sub hs.sub m with h0 | he
        · exact Or.inl (h0 d)
        · exact Or.inr (he d)
    · right
      unfold ptrs
      rw [update_of_ne hj]
  · rw [heq htt]; exact h.leak htt
  · exact forall_update (P := fun _ (y : Dinode) => y.size ≤ maxfile * bsize) (hsz ▸ h.size i) (fun j _ => h.size j) j
  · rw [heq htt]; exact h.hole htt

theorem refs_one (B : Nat → Nat) (i j : Nat) : (B + one i) j = if j = i then B j + 1 else B j := by
  change B j + one i j = _
  unfold one
  split <;> rfl

theorem refs_one_pos (B : Nat → Nat) (i : Nat) : 0 < (B + one i) i := by
  rw [refs_one, if_pos rfl]
  exact Nat.succ_pos _

variable {B : Nat → Nat}

/-- A reference is dropped, and with it the copy in memory if it was the last one. -/
theorem Inv.drop (h : Ok sb t s) (hr : s.refs = B + one i) (hd : s'.disk = s.disk)
    (hother : ∀ j, j ≠ i → s'.itab j = s.itab j)
    (hself : s'.itab i = { s.itab i with ref := (s.itab i).ref - 1 }) :
    Ok sb t s' ∧ s'.refs = B ∧ (∀ j, 0 < B j → s.cached j → s'.cached j) ∧ node sb s' = node sb s := by
  have hri : (s.itab i).ref = B i + 1 := by
    have := congrFun hr i
    rwa [refs_one, if_pos rfl] at this
  have hrefs : s'.refs = B := by
    funext j
    by_cases hj : j = i
    · rw [hj]
      unfold St.refs
      rw [hself]
      change (s.itab i).ref - 1 = _
      omega
    · have := congrFun hr j
      rw [refs_one, if_neg hj] at this
      unfold St.refs at this ⊢
      rw [hother j hj, this]
  have hvalid : ∀ j, (s'.itab j).valid = (s.itab j).valid ∧ (s'.itab j).din = (s.itab j).din := by
    intro j
    by_cases hj : j = i
    · rw [hj, hself]; exact ⟨rfl, rfl⟩
    · rw [hother j hj]; exact ⟨rfl, rfl⟩
  have hdrop : ∀ j, s'.cached j → s.cached j := by
    intro j hc
    refine ⟨?_, (hvalid j).1 ▸ hc.2⟩
    have h1 := hc.1
    rw [hrefs] at h1
    rw [hr, refs_one]
    split <;> omega
  have hkeep : ∀ j, 0 < B j → s.cached j → s'.cached j := by
    intro j hb hc
    exact ⟨hrefs ▸ hb, (hvalid j).1.symm ▸ hc.2⟩
  have hkeep' : ∀ j, j ≠ i → s.cached j → s'.cached j := by
    intro j hj hc
    refine hkeep j ?_ hc
    have := hc.1
    rwa [hr, refs_one, if_neg hj] at this
  -- the inode is the same up to blocks that only the copy in memory had
  obtain ⟨y, hin, hgood, hnode⟩ : ∃ y, inodes sb s' = update (inodes sb s) i y ∧
      Good sb t s.disk (update (inodes sb s) i y) ∧ nodeOf s.disk y = node sb s i := by
    by_cases hl : s.cached i ∧ ¬ s'.cached i
    · have hs := h.sync i not_false hl.1
      have hty : (dinodeAt sb s.disk i).type ≠ 0 := (core_type hs.core) ▸ h.alive i hl.1
      refine ⟨dinodeAt sb s.disk i, ?_, h.good.evict (by rw [inodes_cached hl.1]; exact hs) (dinodeAt_fits _ _), ?_⟩
      · funext j
        by_cases hj : j = i
        · rw [hj, update_self, inodes_uncached hl.2, hd]
          unfold diskInodes live
          rw [if_pos (h.range i hl.1), if_neg hty]
        · rw [update_of_ne hj]
          unfold inodes
          rw [hother j hj, hd]
          exact if_congr ⟨hdrop j, hkeep' j hj⟩ rfl rfl
      · rw [node_cached hl.1]
        exact nodeOf_congr hs.core.symm hs.bytes
    · refine ⟨inodes sb s i, ?_, by rw [update_eq_self]; exact h.good, rfl⟩
      rw [update_eq_self]
      funext j
      unfold inodes
      rw [(hvalid j).2, hd]
      refine if_congr ⟨hdrop j, fun hc => ?_⟩ rfl rfl
      by_cases hj : j = i
      · by_contra hn
        exact hl ⟨hj ▸ hc, hj ▸ hn⟩
      · exact hkeep' j hj hc
  refine ⟨⟨?_, ?_, ?_, ?_⟩, hrefs, hkeep, ?_⟩
  · rw [hin, hd]; exact hgood
  · exact fun j hj => h.range j (hdrop j hj)
  · intro j hc
    rw [(hvalid j).2]
    exact h.alive j (hdrop j hc)
  · intro j _ hc
    rw [(hvalid j).2, hd]
    exact h.sync j not_false (hdrop j hc)
  · unfold node
    rw [hin, hd, node_update, hnode]
    exact update_eq_self _ _

/-- An inode without blocks is marked free on disk and its copy in memory goes. -/
theorem Inv.free (h : Ok sb t s) (hc : s.cached i) (hr : s.refs = B + one i) (hB : B i = 0)
    (ha : (s.itab i).din.addrs = fun _ => 0)
    (hd : s'.disk = setDinode sb s.disk i { (s.itab i).din with type := 0 })
    (hother : ∀ j, j ≠ i → s'.itab j = s.itab j) (hself : (s'.itab i).ref = 0) :
    Ok sb t s' ∧ s'.refs = B ∧ (∀ j, 0 < B j → s.cached j → s'.cached j) ∧
      node sb s' = update (node sb s) i Node.free := by
  have hi := h.range i hc
  have hrefs : s'.refs = B := by
    funext j
    by_cases hj : j = i
    · rw [hj, hB]; exact hself
    · have := congrFun hr j
      rw [refs_one, if_neg hj] at this
      unfold St.refs at this ⊢
      rw [hother j hj, this]
  have hnc : ¬ s'.cached i := by
    intro hc'
    have h1 := hc'.1
    rw [hrefs, hB] at h1
    exact Nat.lt_irrefl 0 h1
  have hcj : ∀ j, j ≠ i → (s'.cached j ↔ s.cached j) := by
    intro j hj
    unfold St.cached St.refs
    rw [hother j hj]
  have hf := h.fits hc
  have hfits : Dinode.Fits { (s.itab i).din with type := 0 } :=
    ⟨Nat.zero_lt_succ _, hf.major, hf.minor, hf.nlink, hf.size, hf.addrs⟩
  have hother' : ∀ j, j ≠ i → dinodeAt sb s'.disk j = dinodeAt sb s.disk j := fun j hj => by
    rw [hd, dinodeAt_setDinode_ne _ _ hj]
  have hin : inodes sb s' = update (inodes sb s) i Dinode.zero := by
    funext j
    by_cases hj : j = i
    · rw [hj, update_self, inodes_uncached hnc]
      refine diskInodes_of_free ?_
      rw [hd, dinodeAt_setDinode _ _ hfits]
    · rw [update_of_ne hj]
      unfold inodes diskInodes
      rw [hother j hj, hother' j hj]
      exact if_congr (hcj j hj) rfl rfl
  obtain ⟨hg, hbytes⟩ := h.good.put_inode hi { (s.itab i).din with type := 0 }
  rw [← hd] at hg hbytes
  refine ⟨⟨?_, ?_, ?_, ?_⟩, hrefs, fun j hb hcj' => ?_, ?_⟩
  · rw [hin]
    exact hg.recore (by rw [inodes_cached hc, ha]; rfl) Dinode.Fits.zero (Nat.zero_le _)
      fun _ _ hbn => absurd hbn (Nat.not_lt_zero _)
  · exact fun j hj => h.range j ((hcj j fun he => hnc (he ▸ hj)).mp hj)
  · intro j hj
    have hji : j ≠ i := fun he => hnc (he ▸ hj)
    rw [hother j hji]
    exact h.alive j ((hcj j hji).mp hj)
  · intro j _ hj
    have hji : j ≠ i := fun he => hnc (he ▸ hj)
    have hcj' := (hcj j hji).mp hj
    rw [hother j hji, hother' j hji]
    have hb := hbytes j
    rw [inodes_cached hcj'] at hb
    exact (h.sync j not_false hcj').disk hb
  · have hji : j ≠ i := fun he => by rw [he, hB] at hb; exact Nat.lt_irrefl 0 hb
    exact (hcj j hji).mpr hcj'
  · exact node_of_inodes hin hbytes (nodeOf_zero _)

theorem dropRef_wp {E : Stop → Prop} : wp E (dropRef i) (fun _ s' => s'.disk = s.disk ∧
    s'.outstanding = s.outstanding ∧ (∀ j, j ≠ i → s'.itab j = s.itab j) ∧
    s'.itab i = { s.itab i with ref := (s.itab i).ref - 1 } ∧ s'.locks = s.locks) s :=
  ⟨rfl, rfl, fun _ hj => if_neg hj, if_pos rfl, locks_kept rfl⟩

/-- `iput` of `i`: the references left are `B`. -/
structure Put (sb : Superblock) (B : Nat → Nat) (s : St) (i : Nat) (s' : St) : Prop where
  refs : s'.refs = B
  outstanding : s'.outstanding = s.outstanding
  cached : ∀ j, 0 < B j → s.cached j → s'.cached j
  node : node sb s' = node sb s ∨
    (B i = 0 ∧ (node sb s i).nlink = 0 ∧ node sb s' = update (node sb s) i Node.free)
  gone : s.cached i → B i = 0 → (Fs.node sb s i).nlink = 0 → Fs.node sb s' = update (Fs.node sb s) i Node.free
  disk : ((Fs.node sb s i).type ≠ 0 → (Fs.node sb s i).nlink = 0 → 0 < B i) → s'.disk = s.disk

variable {E : Stop → Prop} (hE : Tolerant E)
include hE

theorem iput_wp (h : Ok sb t s) (hr : s.refs = B + one i) (ht : 0 < s.outstanding) :
    wp E (iput sb i) (fun _ s' => Ok sb t s' ∧ Put sb B s i s' ∧ s'.locks = s.locks) s := by
  have hri : (s.itab i).ref = B i + 1 := by
    have := congrFun hr i
    rwa [refs_one, if_pos rfl] at this
  unfold iput
  rw [wp_get_bind]
  dsimp only
  split
  · rename_i hfree
    obtain ⟨href, hvalid, hlink⟩ := hfree
    have hB : B i = 0 := by omega
    have hc : s.cached i := ⟨by unfold St.refs; omega, hvalid⟩
    have hlink' : (node sb s i).nlink = 0 := (node_nlink sb hc).trans hlink
    split
    · exact hE.rest _ (by decide) (by decide) (by decide)
    · apply wp_seq (itrunc_wp hE h hc ht)
      rintro _ s1 ⟨h1, hch, ha⟩
      have hc1 := (hch.cached i).mpr hc
      rw [wp_modify_bind]
      unfold iupdate
      rw [wp_bind, wp_get_bind]
      refine wp_mono (store_wp hE (Or.inl ?_)) ?_
      · change 0 < s1.outstanding
        rw [hch.outstanding]; exact ht
      · rintro _ s2 ⟨hd2, ht2, -⟩
        rw [setDin_self] at hd2
        change s2.disk = setDinode sb s1.disk i _ at hd2
        rw [wp_modify_bind]
        refine wp_mono dropRef_wp ?_
        rintro _ s3 ⟨hd3, ho3, hother3, hself3, hl3⟩
        obtain ⟨h3, hr3, hc3, hn3⟩ : Ok sb t s3 ∧ s3.refs = B ∧ (∀ j, 0 < B j → s1.cached j → s3.cached j) ∧
            node sb s3 = update (node sb s1) i Node.free := by
          refine h1.free hc1 (by rw [hch.refs]; exact hr) hB ha (hd3.trans hd2) ?_ ?_
          · intro j hj
            rw [hother3 j hj, setInode_itab, if_neg hj, ht2.itab, setDin_itab, if_neg hj]
          · rw [hself3, setInode_itab, if_pos rfl, ht2.itab, setDin_itab, if_pos rfl]
            change (s1.itab i).ref - 1 = 0
            have : (s1.itab i).ref = (s.itab i).ref := congrFun hch.refs i
            omega
        have hnode : node sb s3 = update (node sb s) i Node.free := by rw [hn3, hch.node, update_idem]
        refine ⟨h3, ⟨hr3, ?_, fun j hb hcj => hc3 j hb ((hch.cached j).mpr hcj), Or.inr ⟨hB, hlink', hnode⟩,
          fun _ _ _ => hnode, fun hheld => absurd hB (hheld (h.type_ne hc) hlink').ne'⟩, ?_⟩
        · rw [ho3]
          change s2.outstanding = _
          rw [ht2.outstanding]
          exact hch.outstanding
        · exact (((hl3.trans (locks_kept rfl)).trans ht2.tab.locks).trans (setDin_tab i _).locks).trans hch.locks
  · rename_i hkeep
    refine wp_mono dropRef_wp ?_
    rintro _ s1 ⟨hd1, ho1, hother1, hself1, hl1⟩
    obtain ⟨h1, hr1, hc1, hn1⟩ := h.drop hr hd1 hother1 hself1
    refine ⟨h1, ⟨hr1, ho1, hc1, Or.inl hn1, fun hc hB hlink => ?_, fun _ => hd1⟩, hl1⟩
    exact absurd ⟨by omega, hc.2, (node_nlink sb hc).symm.trans hlink⟩ hkeep

theorem iunlockput_wp (h : Ok sb t s) (hr : s.refs = B + one i) (ht : 0 < s.outstanding) :
    wp E (iunlockput sb i) (fun _ s' => Ok sb t s' ∧ Put sb B s i s' ∧ ∀ L, Adds L i s.locks → s'.locks = L) s := by
  unfold iunlockput
  apply wp_seq (iunlock_wp hE h)
  rintro _ s1 ⟨h1, hm, hr1, hl1⟩
  refine wp_mono (iput_wp hE h1 (hr1.trans hr) (hm.outstanding.symm ▸ ht)) ?_
  rintro _ s2 ⟨h2, hp, hl2⟩
  refine ⟨h2, ⟨hp.refs, hp.outstanding.trans hm.outstanding, fun j hb hc => hp.cached j hb (hm.cached j hc), ?_, ?_, ?_⟩,
    fun L hL => hl2.trans (hl1 L hL)⟩
  · have := hp.node
    rwa [hm.node] at this
  · intro hc
    have := hp.gone (hm.cached i hc)
    rwa [hm.node] at this
  · intro hheld
    rw [← hm.node] at hheld
    rw [hp.disk hheld, hm.disk]

end Xv6.Fs
