/-
  Xv6.Exec.Segments — the program's segments are loaded one after the other.

  After every header the size is the highest end of a segment so far, and all memory below it is mapped
  for the user. A header that was accepted lies in the file, and so does its segment, at the offsets that
  32 bits can express. When the segments come in order and share no page, each is loaded into fresh pages
  with its own permissions, and the following ones leave it alone. The loop fails on a header that it
  rejects, or when the free pages are fewer than the memory and its tables need (`Loadable`).

  Proved: `loadOn_wp`.
-/

import Xv6.Exec.Build

namespace Xv6.Exec

open Xv6.Lib Xv6.Fs Xv6.Vm

/-! ## The headers of a file -/

def elfOf (f : Node) : Elfhdr := Elfhdr.at f.data 0

/-- The offset that program header `i` is read from. -/
def phOffset (f : Node) (i : Nat) : Nat := u32 ((elfOf f).phoff + i * proghdrSize)

def phOf (f : Node) (i : Nat) : Proghdr := Proghdr.at f.data (phOffset f i)

/-- The first address after the segment. -/
def Proghdr.stop (ph : Proghdr) : Nat := ph.vaddr + ph.memsz

def Proghdr.Loads (ph : Proghdr) : Prop := ph.type = elfProgLoad

instance (ph : Proghdr) : Decidable ph.Loads := inferInstanceAs (Decidable (_ = _))

def Proghdr.perm (ph : Proghdr) : Nat := pteRBit ||| pteUBit ||| flags2perm ph.flags

/-- The highest end of the segments among the first `i` headers. -/
def top (f : Node) : Nat → Nat
  | 0 => 0
  | i + 1 => if (phOf f i).Loads then max (top f i) (phOf f i).stop else top f i

/-- The segments come in order and share no page. -/
def Ordered (f : Node) : Prop := ∀ i j, i < j → j < (elfOf f).phnum → (phOf f i).Loads → (phOf f j).Loads →
  npages (phOf f i).stop * pgsize ≤ (phOf f j).vaddr

/-- A segment that passes the tests of `exec`, and whose bytes can be read. -/
structure Accepted (f : Node) (ph : Proghdr) : Prop where
  memsz : ph.filesz ≤ ph.memsz
  stop : ph.stop < 2 ^ 64
  aligned : ph.vaddr % pgsize = 0
  file : 0 < ph.filesz → u32 ph.off + ph.filesz ≤ f.size

instance (f : Node) (ph : Proghdr) : Decidable (Accepted f ph) :=
  decidable_of_iff (ph.filesz ≤ ph.memsz ∧ ph.stop < 2 ^ 64 ∧ ph.vaddr % pgsize = 0 ∧
    (0 < ph.filesz → u32 ph.off + ph.filesz ≤ f.size))
    ⟨fun h => ⟨h.1, h.2.1, h.2.2.1, h.2.2.2⟩, fun h => ⟨h.memsz, h.stop, h.aligned, h.file⟩⟩

/-- Program header `i` can be read and is skipped or accepted. A first segment without memory at address 0 is not:
`uvmalloc` then returns 0, as for a failure. -/
structure HeaderOk (f : Node) (i : Nat) : Prop where
  whole : phOffset f i + proghdrSize ≤ f.size
  accepted : (phOf f i).Loads → Accepted f (phOf f i)
  pos : (phOf f i).Loads → 0 < top f (i + 1)

instance (f : Node) (i : Nat) : Decidable (HeaderOk f i) :=
  decidable_of_iff (phOffset f i + proghdrSize ≤ f.size ∧ ((phOf f i).Loads → Accepted f (phOf f i)) ∧
    ((phOf f i).Loads → 0 < top f (i + 1)))
    ⟨fun h => ⟨h.1, h.2.1, h.2.2⟩, fun h => ⟨h.whole, h.accepted, h.pos⟩⟩

/-- The segments can be loaded with `total` free pages, of which `base` are for something else. -/
def Loadable (f : Node) (base total : Nat) : Prop :=
  (∀ i < (elfOf f).phnum, HeaderOk f i) ∧ base + npages (top f (elfOf f).phnum) ≤ total

/-- Of `total` free pages, the ones that are gone are `n` pages of memory, `base` others, and the tables of `N` that
have been added. -/
def Costs (N : Finset (Nat × Nat)) (base total n : Nat) (s : Vm.St) (A : Space) : Prop :=
  total + A.lack N = s.freelist.length + base + n

/-- A segment in memory. -/
structure Segment (f : Node) (ph : Proghdr) (A : Space) (m : Bytes) : Prop where
  file : ∀ o < ph.filesz, byteOfSpace A m (ph.vaddr + o) = f.data (u32 ph.off + o)
  zero : ∀ o, ph.filesz ≤ o → o < ph.memsz → byteOfSpace A m (ph.vaddr + o) = 0
  pte : ∀ v, ph.vaddr / pgsize ≤ v → v < npages ph.stop → A.pte v = mkPte (A.pa v) ph.perm

section

variable {f : Node} {ph : Proghdr} {i j n o o' k : Nat} {A A' : Space} {m m' b c : Bytes}

theorem field_congr {size l : Nat} (h : ∀ k < size, b (o + k) = c (o' + k)) (hl : k + l ≤ size) :
    ∀ j < l, b (o + k + j) = c (o' + k + j) := by
  intro j hj
  rw [Nat.add_assoc, Nat.add_assoc]
  exact h (k + j) (by omega)

theorem Elfhdr.at_congr (h : ∀ k < elfhdrSize, b (o + k) = c (o' + k)) : Elfhdr.at b o = Elfhdr.at c o' := by
  have hmagic : le32 b o = le32 c o' := le32_congr (field_congr (k := 0) h (by decide))
  unfold Elfhdr.at
  rw [hmagic, le64_congr (field_congr (k := 24) h (by decide)), le64_congr (field_congr (k := 32) h (by decide)),
    le16_congr (field_congr (k := 56) h (by decide))]

theorem Proghdr.at_congr (h : ∀ k < proghdrSize, b (o + k) = c (o' + k)) :
    Proghdr.at b o = Proghdr.at c o' := by
  have htype : le32 b o = le32 c o' := le32_congr (field_congr (k := 0) h (by decide))
  unfold Proghdr.at
  rw [htype, le32_congr (field_congr (k := 4) h (by decide)), le64_congr (field_congr (k := 8) h (by decide)),
    le64_congr (field_congr (k := 16) h (by decide)), le64_congr (field_congr (k := 32) h (by decide)),
    le64_congr (field_congr (k := 40) h (by decide))]

/-- A read that was not cut short has the file's bytes. -/
theorem read_full {off c : Nat} (h : (readAt f off c).2 = c) :
    ∀ k < c, putBytes zero 0 (readAt f off c).1 (0 + k) = f.data (off + k) := by
  have hcount : readCount f.size off c = c := Int.ofNat.inj h
  intro k hk
  rw [readAt, hcount, putBytes_inside _ (by rwa [slice_length])]
  simp only [slice, List.getElem_map, List.getElem_range]

theorem perm_lt (ph : Proghdr) : ph.perm < 1024 := by
  unfold Proghdr.perm flags2perm
  split <;> split <;> decide

theorem phOffset_next (f : Node) (i : Nat) : u32 (phOffset f i + proghdrSize) = phOffset f (i + 1) := by
  unfold phOffset u32
  rw [Nat.mod_add_mod, Nat.succ_mul, Nat.add_assoc]

theorem stop_le_top (h : (phOf f j).Loads) (hj : j < i) : (phOf f j).stop ≤ top f i := by
  induction i with
  | zero => cases hj
  | succ i ih =>
    rw [top]
    rcases Nat.lt_succ_iff_lt_or_eq.mp hj with hlt | rfl
    · have := ih hlt
      split <;> omega
    · rw [if_pos h]
      exact Nat.le_max_right _ _

/-- In order, the memory below a segment ends at its first page. -/
theorem Ordered.top_le (h : Ordered f) (hi : i < (elfOf f).phnum) (hload : (phOf f i).Loads)
    (haligned : (phOf f i).vaddr % pgsize = 0) :
    npages (top f i) * pgsize ≤ (phOf f i).vaddr := by
  have hbelow : ∀ k ≤ i, top f k ≤ (phOf f i).vaddr := by
    intro k hk
    induction k with
    | zero => exact Nat.zero_le _
    | succ k ih =>
      rw [top]
      split
      next hl =>
        have hstop := npages_le.mp (Nat.le_refl (npages (phOf f k).stop))
        have hord := h k i (by omega) hi hl hload
        have := ih (by omega)
        omega
      next => exact ih (by omega)
  obtain ⟨w, hw⟩ : ∃ w, (phOf f i).vaddr = w * pgsize := ⟨_, (Nat.div_mul_cancel (Nat.dvd_of_mod_eq_zero haligned)).symm⟩
  rw [hw]
  exact Nat.mul_le_mul_right _ (npages_le.mpr (hw ▸ hbelow i (Nat.le_refl i)))

theorem Segment.keep (h : Segment f ph A m) (hsz : ph.filesz ≤ ph.memsz) (hpte : ∀ v < npages ph.stop, A'.pte v = A.pte v)
    (hbyte : ∀ u < ph.stop, byteOfSpace A' m' u = byteOfSpace A m u) : Segment f ph A' m' := by
  have hstop : ph.stop = ph.vaddr + ph.memsz := rfl
  refine ⟨fun o ho => ?_, fun o ho hlt => ?_, fun v hv hlt => ?_⟩
  · rw [hbyte _ (by omega)]
    exact h.file o ho
  · rw [hbyte _ (by omega)]
    exact h.zero o ho hlt
  · rw [Space.pa, hpte v hlt]
    exact h.pte v hv hlt

/-! ## The loop -/

/-- The first `i` headers have been worked off. -/
structure Loaded (f : Node) (F : Set Nat) (m : Bytes) (trapframe i sz : Nat) (P : Set Nat) (s : Vm.St) (A : Space) : Prop where
  built : Built F m trapframe (npages sz) P s A
  user : ∀ v < npages sz, pteU (A.pte v) = true
  size : sz = top f i
  headers : ∀ j < i, HeaderOk f j
  segment : Ordered f → ∀ j < i, (phOf f j).Loads → Segment f (phOf f j) A s.mem

variable {F P P1 : Set Nat} {s s1 : Vm.St} {A1 : Space} {trapframe sz sz1 : Nat} {m2 : Bytes}

theorem pteU_perm {p : Nat} (hp : IsPage p) (ph : Proghdr) : pteU (mkPte p ph.perm) = true := by
  unfold pteU
  rw [testBit_mkPte hp.1 hp.lt (perm_lt ph) (by decide)]
  unfold Proghdr.perm flags2perm
  split <;> split <;> decide

section

variable (h : Loaded f F m trapframe i sz P s A)
include h

/-- A header of another type. -/
theorem Loaded.skip (hheader : HeaderOk f i) (hskip : ¬(phOf f i).Loads) :
    Loaded f F m trapframe (i + 1) sz P s A := by
  have hlt : ∀ j < i + 1, (phOf f j).Loads → j < i := by
    intro j hj hload
    rcases Nat.lt_succ_iff_lt_or_eq.mp hj with hlt | rfl
    · exact hlt
    · exact absurd hload hskip
  refine ⟨h.built, h.user, ?_, fun j hj => ?_, fun ho j hj hl => h.segment ho j (hlt j hj hl) hl⟩
  · rw [top, if_neg hskip]
    exact h.size
  · rcases Nat.lt_succ_iff_lt_or_eq.mp hj with hlt | rfl
    · exact h.headers j hlt
    · exact hheader

/-- What `uvmalloc` adds for a segment is mapped for the user too. -/
theorem Loaded.user_grown (hb : Built F m trapframe n P1 s1 A1) (hg : Grew A s.mem (npages sz) ph.perm A1 s1.mem n) : ∀ v < n,
    pteU (A1.pte v) = true := by
  intro v hv
  rcases Nat.lt_or_ge v (npages sz) with hlt | hge
  · rw [hg.old v hlt]
    exact h.user v hlt
  · rw [hg.fresh v hge hv]
    exact pteU_perm (hb.space.data.page v (Nat.zero_le v) hv) _

/-- A segment is loaded: `uvmalloc` makes room for it and `loadseg` writes its bytes. -/
theorem Loaded.snoc (hi : i < (elfOf f).phnum) (hheader : HeaderOk f i) (hload : (phOf f i).Loads)
    (hsz : sz1 = max sz (phOf f i).stop) (hb : Built F m trapframe (npages sz1) P1 s1 A1)
    (hg : Grew A s.mem (npages sz) (phOf f i).perm A1 s1.mem (npages sz1)) (hf : Frame (A1.pages 0 (npages sz1)) s1.mem m2)
    (hbytes : ∀ u < npages sz1 * pgsize, byteOfSpace A1 m2 u = if (phOf f i).vaddr ≤ u ∧
      u < (phOf f i).vaddr + (phOf f i).filesz then f.data (u32 (phOf f i).off + (u - (phOf f i).vaddr))
      else byteOfSpace A1 s1.mem u) : Loaded f F m trapframe (i + 1) sz1 P1 { s1 with mem := m2 } A1 := by
  have hstop : (phOf f i).stop = (phOf f i).vaddr + (phOf f i).memsz := rfl
  have hacc := hheader.accepted hload
  have hmemsz := hacc.memsz
  have hsz1 : sz1 ≤ npages sz1 * pgsize := npages_le.mp (Nat.le_refl _)
  have hgrown : npages sz ≤ npages sz1 := npages_mono (by omega)
  have hnp : npages (phOf f i).stop ≤ npages sz1 := npages_mono (by omega)
  refine ⟨hb.write hf, h.user_grown hb hg, ?_, fun j hj => ?_, fun ho j hj hl => ?_⟩
  · rw [top, if_pos hload, hsz, h.size]
  · rcases Nat.lt_succ_iff_lt_or_eq.mp hj with hlt | rfl
    · exact h.headers j hlt
    · exact hheader
  · have hlow := ho.top_le hi hload hacc.aligned
    rw [← h.size] at hlow
    rcases Nat.lt_succ_iff_lt_or_eq.mp hj with hlt | rfl
    · -- an earlier segment ends below this one
      have hend := stop_le_top hl hlt
      rw [← h.size] at hend
      have hle := npages_le.mp (Nat.le_refl (npages sz))
      refine (h.segment ho j hlt hl).keep ((h.headers j hlt).accepted hl).memsz (fun v hv => ?_) fun u hu => ?_
      · exact hg.old v (Nat.lt_of_lt_of_le hv (npages_mono hend))
      · have hpages := Nat.mul_le_mul_right pgsize hgrown
        rw [hbytes u (by omega), if_neg (by omega)]
        exact hg.bytes u (by omega)
    · refine ⟨fun o hlt => ?_, fun o hge hlt => ?_, fun v hv hlt => ?_⟩
      · rw [hbytes _ (by omega), if_pos (by omega), Nat.add_sub_cancel_left]
      · rw [hbytes _ (by omega), if_neg (by omega)]
        exact hg.zero _ (by omega) (by omega)
      · exact hg.fresh v (Nat.le_trans ((Nat.le_div_iff_mul_le (by decide)).mpr hlow) hv) (by omega)

end

/-- A header has been read whole. -/
theorem header_read (h : (readAt f (phOffset f i) proghdrSize).2 = proghdrSize) :
    Proghdr.at (putBytes zero 0 (readAt f (phOffset f i) proghdrSize).1) 0 = phOf f i := Proghdr.at_congr (read_full h)

/-- The test for a segment that wraps around. -/
theorem wraps_iff (f : Node) (i : Nat) :
    ((phOf f i).vaddr + (phOf f i).memsz) % 2 ^ 64 < (phOf f i).vaddr ↔ ¬(phOf f i).stop < 2 ^ 64 := by
  have hv : (phOf f i).vaddr < 2 ^ 64 := le64_lt _ _
  have hm : (phOf f i).memsz < 2 ^ 64 := le64_lt _ _
  have hstop : (phOf f i).stop = (phOf f i).vaddr + (phOf f i).memsz := rfl
  omega

/-- `uvmalloc` and `loadseg` for a segment at `vaddr`: what the loop does with them is decided by their result. -/
def segmentOn (f : Node) (pagetable sz : Nat) (ph : Proghdr) : VmM (Bool × Nat) := do
  let sz1 ← uvmalloc pagetable sz ph.stop (flags2perm ph.flags)
  if sz1 = 0 then pure (false, sz)
  else do
    let ok ← loadsegOn f pagetable ph.vaddr (u32 ph.off) (u32 ph.filesz)
    pure (ok, sz1)

theorem segmentOn_bind (pagetable sz : Nat) (k : Nat → VmM (Bool × Nat)) : (do
      let sz1 ← uvmalloc pagetable sz ph.stop (flags2perm ph.flags)
      if sz1 = 0 then pure (false, sz)
      else do
        let ok ← loadsegOn f pagetable ph.vaddr (u32 ph.off) (u32 ph.filesz)
        if ok then k sz1 else pure (false, sz1)) =
    (segmentOn f pagetable sz ph >>= fun c => if c.1 then k c.2 else pure c) := by
  unfold segmentOn
  rw [bind_assoc]
  congr
  funext sz1
  split
  next => rfl
  next =>
    rw [bind_assoc]
    congr
    funext ok
    cases ok <;> rfl

section

variable {N : Finset (Nat × Nat)} {base total : Nat} (hsize : f.size ≤ maxfile * bsize)
  (hN : paths 0 (npages (top f (elfOf f).phnum)) ⊆ N)
include hsize hN

section

variable (h : Loaded f F m trapframe i sz P s A) (hcosts : Costs N base total (npages sz) s A)
include h hcosts

/-- One segment that passed the tests: room is made for it and its bytes are read. -/
theorem segmentOn_wp (hi : i < (elfOf f).phnum) (hheader : phOffset f i + proghdrSize ≤ f.size) (hload : (phOf f i).Loads)
    (hmemsz : (phOf f i).filesz ≤ (phOf f i).memsz) (hend : (phOf f i).stop < 2 ^ 64) (haligned : (phOf f i).vaddr % pgsize = 0) :
    wp Never (segmentOn f (A.tab 2 0) sz (phOf f i)) (fun c s' => ∃ P' A', A'.tab 2 0 = A.tab 2 0 ∧
      if c.1 then Loaded f F m trapframe (i + 1) c.2 P' s' A' ∧ Costs N base total (npages c.2) s' A'
      else Built F m trapframe (npages c.2) P' s' A' ∧ ¬Loadable f base total) s := by
  have hstop : (phOf f i).stop = (phOf f i).vaddr + (phOf f i).memsz := rfl
  have htop : npages (phOf f i).stop ≤ npages (top f (elfOf f).phnum) := npages_mono (stop_le_top hload hi)
  unfold Costs at hcosts
  refine wp_seq (grow_wp h.built ((paths_mono (Nat.zero_le _) htop).trans hN) (perm_lt (phOf f i))) fun r s1 hs1 => ?_
  rcases hs1 with ⟨rfl, hshort, P1, A1, hroot, hb⟩ | ⟨hr, P1, A1, hb, hg, hspent⟩
  · refine ⟨P1, A1, hroot, hb, fun hfits => ?_⟩
    have := hfits.2
    omega
  · have hnext : top f (i + 1) = r := by rw [top, if_pos hload, hr, h.size]
    split
    next h0 =>
      obtain rfl : sz = r := by omega
      refine ⟨P1, A1, hg.root, hb, fun hfits => ?_⟩
      have := (hfits.1 i hi).pos hload
      omega
    next h0 =>
      have hmapped : r ≤ npages r * pgsize := npages_le.mp (Nat.le_refl _)
      have hfew := hb.space.few
      have hfilesz : u32 (phOf f i).filesz = (phOf f i).filesz := by
        refine Nat.mod_eq_of_lt ?_
        unfold pgsize at hmapped
        omega
      have hoff : u32 (phOf f i).off < 2 ^ 32 := Nat.mod_lt _ (by decide)
      rw [← hg.root, hfilesz]
      refine wp_seq (loadsegOn_wp hb (h.user_grown hb hg) hsize haligned (by omega) hoff) ?_
      rintro ok s2 ⟨hlist, hframe, hfile, hbytes⟩
      obtain ⟨m2, list2⟩ := s2
      obtain rfl : list2 = s1.freelist := hlist
      refine ⟨P1, A1, rfl, ?_⟩
      cases ok with
      | false => exact ⟨hb.write hframe, fun hfits => Bool.false_ne_true (hfile.mpr ((hfits.1 i hi).accepted hload).file)⟩
      | true =>
        have hok : HeaderOk f i := ⟨hheader, fun _ => ⟨hmemsz, hend, haligned, hfile.mp rfl⟩, fun _ => by omega⟩
        refine ⟨h.snoc hi hok hload hr hb hg hframe (hbytes rfl), ?_⟩
        have hmono : npages sz ≤ npages r := npages_mono (by omega)
        unfold Vm.Spent at hspent
        unfold Costs
        dsimp only
        omega

/-- The loop over the headers from header `i` on, with `k` to go. It never finds a page missing; where it stops, the
size it returns is that of the memory it has mapped. -/
theorem loadOn_wp (hk : i + k = (elfOf f).phnum) :
    wp Never (loadOn f (A.tab 2 0) k (phOffset f i) sz) (fun c s' => ∃ P' A', A'.tab 2 0 = A.tab 2 0 ∧
      if c.1 then Loaded f F m trapframe (elfOf f).phnum c.2 P' s' A' ∧ Costs N base total (npages c.2) s' A'
      else Built F m trapframe (npages c.2) P' s' A' ∧ ¬Loadable f base total) s := by
  induction k generalizing i sz P s A with
  | zero =>
    obtain rfl : i = (elfOf f).phnum := hk
    exact ⟨P, A, rfl, h, hcosts⟩
  | succ k ih =>
    have hi : i < (elfOf f).phnum := by omega
    have hstay : ¬HeaderOk f i → ∃ P' A', A'.tab 2 0 = A.tab 2 0 ∧ Built F m trapframe (npages sz) P' s A' ∧
        ¬Loadable f base total := fun hbad => ⟨P, A, rfl, h.built, fun hfits => hbad (hfits.1 i hi)⟩
    have hwhole : (readAt f (phOffset f i) proghdrSize).2 = proghdrSize ↔ phOffset f i + proghdrSize ≤ f.size :=
      readCount_full hsize (by decide)
    unfold loadOn
    split
    next hshort => exact hstay fun hok => hshort (hwhole.mpr hok.whole)
    next hread =>
      have hread := Decidable.not_not.mp hread
      have hheader := hwhole.mp hread
      rw [header_read hread, phOffset_next]
      dsimp only
      split
      next hskip => exact ih (h.skip ⟨hheader, fun hl => absurd hl hskip, fun hl => absurd hl hskip⟩ hskip) hcosts (by omega)
      next hload =>
        have hload : (phOf f i).Loads := Decidable.not_not.mp hload
        split
        next hbad => exact hstay fun hok => Nat.not_le.mpr hbad (hok.accepted hload).memsz
        next hmemsz =>
          split
          next hbad => exact hstay fun hok => (wraps_iff f i).mp hbad (hok.accepted hload).stop
          next hwrap =>
            have hend : (phOf f i).stop < 2 ^ 64 := Decidable.not_not.mp fun hge => hwrap ((wraps_iff f i).mpr hge)
            split
            next hbad => exact hstay fun hok => hbad (hok.accepted hload).aligned
            next haligned =>
              have hstop : ((phOf f i).vaddr + (phOf f i).memsz) % 2 ^ 64 = (phOf f i).stop := Nat.mod_eq_of_lt hend
              rw [hstop, @segmentOn_bind f (phOf f i) (A.tab 2 0) sz (loadOn f (A.tab 2 0) k (phOffset f (i + 1)))]
              refine wp_seq (segmentOn_wp hsize hN h hcosts hi hheader hload (by omega) hend (Decidable.not_not.mp haligned))
                fun c s1 hs1 => ?_
              obtain ⟨P1, A1, hroot, hcase⟩ := hs1
              cases hc : c.1 with
              | false =>
                rw [hc] at hcase
                refine ⟨P1, A1, hroot, ?_⟩
                rw [hc]
                exact hcase
              | true =>
                rw [hc] at hcase
                have hrest := ih hcase.1 hcase.2 (by omega)
                rw [hroot] at hrest
                exact hrest

end

end

end

end Xv6.Exec
