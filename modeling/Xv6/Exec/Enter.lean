/-
  Xv6.Exec.Enter — `exec` after the file is loaded: the process gets the new address space and the old one
  is freed, or the new one is freed and nothing has happened.

  Every page that `exec` takes was free when it started. While it runs, the process's own pages and its
  trapframe are left alone; that is what makes a failure harmless (`Refused`) and the old address space
  freeable at the end.

  Proved: `commit_wp`, `enter_wp`.
-/

import Xv6.Exec.Stack

namespace Xv6.Exec

open Xv6.Lib Xv6.Fs Xv6.Vm

/-- The process's memory: its pages, the tables that map them, and its trapframe in a page of its own. -/
structure Owner (p : Proc) (s : Vm.St) (Q : Set Nat) (O : Space) : Prop where
  space : AddrSpace Q s O p.trapframe (npages p.sz)
  root : O.tab 2 0 = p.pagetable
  page : IsPage p.trapframe
  apart : p.trapframe ∉ Q
  alone : p.trapframe ∉ O.pages 0 (npages p.sz)

/-- Every page that was taken has been given back, and no other memory has changed. -/
structure Refused (s s' : Vm.St) : Prop where
  free : Free s.frees s'
  frame : Frame s.frees s.mem s'.mem

section

variable {p : Proc} {Q P : Set Nat} {O A : Space} {s0 s s' : Vm.St} {n sp sz entry : Nat} {path : List UInt8}
  {argv : Argv}

section

variable (ho : Owner p s0 Q O)
include ho

theorem Owner.frees_sub : s0.frees ⊆ Q := fun _ hq => ho.space.sound.free hq

theorem Owner.holds : ∀ q, O.Holds (npages p.sz) q → q ∉ s0.frees := by
  intro q hq hin
  rcases hq with hq | ⟨v, hv, hlt, rfl⟩
  · exact ho.space.sound.pool.apart q hin hq
  · exact ho.space.data.out v hv hlt (ho.frees_sub hin)

theorem Owner.trapframe : p.trapframe ∉ s0.frees := fun hin => ho.apart (ho.frees_sub hin)

theorem Owner.trapframe_holds : ¬O.Holds (npages p.sz) p.trapframe := by
  intro h
  rcases h with h | h
  · exact ho.apart (ho.space.sound.table h)
  · exact ho.alone h

end

/-- The new address space is freed. -/
theorem Built.freed (h : Built s0.frees s0.mem p.trapframe (npages sz) P s A) :
    wp Never (procFreepagetable (A.tab 2 0) sz) (fun _ s' => Refused s0 s') s := by
  refine wp_mono (procFreepagetable_wp h.space) fun _ s' hs' => ?_
  rw [h.pool] at hs'
  exact ⟨hs'.1, h.frame.trans hs'.2⟩

theorem Built.holds (h : Built s0.frees s0.mem p.trapframe n P s A) : ∀ q, A.Holds n q → q ∈ s0.frees ∧ q ∉ s.freelist := by
  intro q hq
  rcases hq with hq | ⟨v, hv, hlt, rfl⟩
  · exact ⟨h.pool_sub (h.space.sound.table hq), fun hin => h.space.sound.pool.apart q hin hq⟩
  · exact ⟨h.pages_sub ⟨v, hv, hlt, rfl⟩, fun hin => h.space.data.out v hv hlt (h.space.sound.free hin)⟩

/-- The registers that the process starts with. -/
structure Registers (m : Bytes) (trapframe sp entry : Nat) : Prop where
  a1 : le64 m (trapframe + trapframeA1) = sp
  epc : le64 m (trapframe + trapframeEpc) = entry
  sp : le64 m (trapframe + trapframeSp) = sp

/-- What `commit` leaves: the new address space, with its memory, and the registers. -/
structure Committed (p : Proc) (n sp entry : Nat) (s : Vm.St) (A : Space) (s' : Vm.St) : Prop where
  space : AddrSpace {q | q ∈ s'.freelist ∨ A.Table q} s' A p.trapframe n
  bytes : ∀ u < n * pgsize, byteOfSpace A s'.mem u = byteOfSpace A s.mem u
  regs : Registers s'.mem p.trapframe sp entry

/-- The three words of the trapframe page. -/
def setRegs (m : Bytes) (trapframe sp entry : Nat) : Bytes :=
  put64 (put64 (put64 m (trapframe + trapframeA1) sp) (trapframe + trapframeEpc) entry) (trapframe + trapframeSp) sp

theorem setRegs_frame {m : Bytes} {trapframe : Nat} (h : IsPage trapframe) : Frame {trapframe} m (setRegs m trapframe sp entry) :=
  ((put64_frame m h.1 (i := 15) (by decide) sp).trans (put64_frame _ h.1 (i := 3) (by decide) entry)).trans
    (put64_frame _ h.1 (i := 6) (by decide) sp)

theorem setRegs_words (m : Bytes) (trapframe : Nat) (hsp : sp < 2 ^ 64) (hentry : entry < 2 ^ 64) :
    Registers (setRegs m trapframe sp entry) trapframe sp entry := by
  refine ⟨?_, ?_, ?_⟩ <;> unfold setRegs trapframeA1 trapframeEpc trapframeSp
  · rw [le64_put64_ne _ _ (by omega), le64_put64_ne _ _ (by omega), le64_put64_same, Nat.mod_eq_of_lt hsp]
  · rw [le64_put64_ne _ _ (by omega), le64_put64_same, Nat.mod_eq_of_lt hentry]
  · rw [le64_put64_same, Nat.mod_eq_of_lt hsp]

/-- The old address space is still there when the new one is complete: the pages taken since were free, and the
trapframe is apart. -/
theorem Owner.stays {m : Bytes} (ho : Owner p s0 Q O) (h : Built s0.frees s0.mem p.trapframe n P s A)
    (hmem : Frame {p.trapframe} s.mem m) :
    AddrSpace {q | q ∈ s.freelist ∨ O.Table q} { s with mem := m } O p.trapframe (npages p.sz) := by
  have hframe : Frame (s0.frees ∪ {p.trapframe}) s0.mem ({ s with mem := m } : Vm.St).mem :=
    (h.frame.mono Set.subset_union_left).trans (hmem.mono Set.subset_union_right)
  refine ho.space.reframe hframe (fun q hq hin => ?_) h.space.sound.pool.nodup fun q hq => ?_
  · rcases hin with hin | rfl
    · exact ho.holds q hq hin
    · exact ho.trapframe_holds hq
  · have hP : q ∈ P := h.space.sound.free hq
    exact ⟨.inl (h.pool_sub hP), h.space.sound.pages q hP⟩

/-- The pages that are free when the old address space `O` has been freed from `s` on. -/
def Released (s : Vm.St) (O : Space) (n : Nat) : Set Nat := {q | q ∈ s.freelist ∨ O.Table q} ∪ O.pages 0 n

/-- They are apart from the new address space, and from the trapframe. -/
theorem Owner.released (ho : Owner p s0 Q O) (h : Built s0.frees s0.mem p.trapframe n P s A) :
    (∀ q, A.Holds n q → q ∉ Released s O (npages p.sz)) ∧ p.trapframe ∉ Released s O (npages p.sz) := by
  refine ⟨fun q hq hin => ?_, fun hin => ?_⟩
  · obtain ⟨hfree, hnot⟩ := h.holds q hq
    rcases hin with (hin | hin) | hin
    · exact hnot hin
    · exact ho.holds q (.inl hin) hfree
    · exact ho.holds q (.inr hin) hfree
  · rcases hin with (hin | hin) | hin
    · exact ho.trapframe (h.pool_sub (h.space.sound.free hin))
    · exact ho.trapframe_holds (.inl hin)
    · exact ho.trapframe_holds (.inr hin)

/-- The process with the new image. -/
def Proc.replaced (p : Proc) (path : List UInt8) (pagetable sz : Nat) : Proc :=
  { p with name := (lastElem path path).take 15, pagetable := pagetable, sz := sz }

theorem commit_wp (ho : Owner p s0 Q O) (h : Built s0.frees s0.mem p.trapframe n P s A) (hsp : sp < 2 ^ 64)
    (hentry : entry < 2 ^ 64) :
    wp Never (commit p path entry (A.tab 2 0) sz sp) (fun p' s' =>
      p' = p.replaced path (A.tab 2 0) sz ∧ Committed p n sp entry s A s') s := by
  have htrap : ∀ q, A.Holds n q → q ∉ ({p.trapframe} : Set Nat) := fun q hq he => ho.trapframe (he ▸ (h.holds q hq).1)
  have hregs : Frame {p.trapframe} s.mem (setRegs s.mem p.trapframe sp entry) := setRegs_frame ho.page
  have hwords := setRegs_words s.mem p.trapframe hsp hentry
  obtain ⟨hnew, hregpage⟩ := ho.released h
  have hstart : commit p path entry (A.tab 2 0) sz sp s = (do
      procFreepagetable p.pagetable p.sz
      pure (p.replaced path (A.tab 2 0) sz) : VmM Proc)
      { s with mem := setRegs s.mem p.trapframe sp entry } := rfl
  rw [wp, hstart, ← ho.root]
  have hold := ho.stays h hregs
  refine wp_seq (procFreepagetable_wp hold) fun _ s' hs' => ⟨rfl, ?_⟩
  obtain ⟨hfree, hframe⟩ := hs'
  have hpages : ∀ q ∈ Released s O (npages p.sz), IsPage q := by
    intro q hq
    rcases hq with hq | ⟨v, hv, hlt, rfl⟩
    · exact hold.sound.pages q hq
    · exact hold.data.page v hv hlt
  have hstored := h.space.store hregs fun q hq => htrap q (.inl hq)
  refine ⟨hstored.reframe hframe hnew hfree.nodup fun q hq => ?_, fun u hu => ?_, ?_, ?_, ?_⟩
  · have hq' := (hfree.mem q).mpr (.inl hq)
    exact ⟨hq', hpages q hq'⟩
  · have hv := page_of_lt hu
    have hholds : A.Holds n (A.pa (u / pgsize)) := .inr ⟨_, Nat.zero_le _, hv, rfl⟩
    have hpage := (h.space.data.page _ (Nat.zero_le _) hv).1
    have hmod := Nat.mod_lt u (show 0 < pgsize by decide)
    exact (hframe.byte (hnew _ hholds) hpage hmod).trans (hregs.byte (htrap _ hholds) hpage hmod)
  · exact (hframe.word hregpage ho.page.1 (i := 15) (by decide)).trans hwords.a1
  · exact (hframe.word hregpage ho.page.1 (i := 3) (by decide)).trans hwords.epc
  · exact (hframe.word hregpage ho.page.1 (i := 6) (by decide)).trans hwords.sp

/-! ## enter -/

/-- The new program: `A'` is `A`, whose `n` pages the segments are in, with the guard page and the stack. -/
structure Entered (p : Proc) (argv : Argv) (entry n : Nat) (s : Vm.St) (A : Space) (s' : Vm.St) (A' : Space) : Prop where
  space : AddrSpace {q | q ∈ s'.freelist ∨ A'.Table q} s' A' p.trapframe (n + 2)
  old : ∀ v < n, A'.pte v = A.pte v
  bytes : ∀ u < n * pgsize, byteOfSpace A' s'.mem u = byteOfSpace A s.mem u
  guard : pteU (A'.pte n) = false
  stack : A'.pte (n + 1) = mkPte (A'.pa (n + 1)) (pteRBit ||| pteUBit ||| pteWBit)
  written : Written A' s'.mem ((n + 2) * pgsize) argv.strs
  pointers : Holds A' s'.mem ((n + 2) * pgsize - need argv.strs) ((addrs ((n + 2) * pgsize) argv.strs ++ [0]).flatMap wordBytes)
  regs : Registers s'.mem p.trapframe ((n + 2) * pgsize - need argv.strs) entry

/-- `enter` once the guard page and the stack are mapped. -/
@[irreducible] def enterStack (p : Proc) (path : List UInt8) (argv : Argv) (entry pagetable sz1 : Nat) : VmM (Int × Proc) := do
  uvmclear pagetable (sub64 sz1 ((userstack + 1) * pgsize))
  match ← pushAll pagetable (sub64 sz1 (userstack * pgsize)) sz1 argv with
  | none => do
    procFreepagetable pagetable sz1
    pure (-1, p)
  | some sp => do
    let p' ← commit p path entry pagetable sz1 sp
    pure (argv.strs.length, p')

theorem Built.pgroundup (h : Built s0.frees s0.mem p.trapframe (npages sz) P s A) : Vm.pgroundup sz = npages sz * pgsize ∧
    (npages sz * pgsize + (userstack + 1) * pgsize) % 2 ^ 64 = (npages sz + 2) * pgsize := by
  have hfew := h.space.few
  have hsz : sz ≤ npages sz * pgsize := npages_le.mp (Nat.le_refl _)
  have hstack : npages sz * pgsize + (userstack + 1) * pgsize = (npages sz + 2) * pgsize := (Nat.add_mul _ 2 _).symm
  refine ⟨pgroundup_eq ?_, ?_⟩
  · unfold pgsize at hsz
    omega
  · rw [hstack]
    refine Nat.mod_eq_of_lt ?_
    unfold pgsize
    omega

theorem enter_eq (argv : Argv) (pagetable : Nat) : enter p path argv entry pagetable sz = (do
    let sz1 ← uvmalloc pagetable (pgroundup sz) ((pgroundup sz + (userstack + 1) * pgsize) % 2 ^ 64) pteWBit
    if sz1 = 0 then do
      procFreepagetable pagetable (pgroundup sz)
      pure (-1, p)
    else enterStack p path argv entry pagetable sz1) := by
  unfold enterStack
  rfl

theorem sub_pages (n k : Nat) (h : n + k ≤ 2 ^ 15) : sub64 ((n + k) * pgsize) (k * pgsize) = n * pgsize := by
  unfold sub64 pgsize
  omega

variable {s1 : Vm.St} {A1 : Space} {P1 : Set Nat}

/-- The guard page is taken from the user. -/
theorem guard_wp (hb : Built s0.frees s0.mem p.trapframe (n + 2) P1 s1 A1)
    (hg : Grew A s.mem n (pteRBit ||| pteUBit ||| pteWBit) A1 s1.mem (n + 2)) :
    wp Never (uvmclear (A1.tab 2 0) (n * pgsize)) (fun _ s' => ∃ A', A'.tab 2 0 = A1.tab 2 0 ∧
      Stacked s0.frees s0.mem p.trapframe n P1 s' A' ∧ (∀ v < n, A'.pte v = A.pte v) ∧
      ∀ u < n * pgsize, byteOfSpace A' s'.mem u = byteOfSpace A s.mem u) s1 := by
  have hword : A1.pte n < 2 ^ 64 := by
    rw [hg.fresh n (Nat.le_refl n) (by omega)]
    exact mkPte_word (by decide)
  have hle : n * pgsize ≤ (n + 2) * pgsize := Nat.mul_le_mul_right _ (by omega)
  refine wp_mono (uvmclear_wp hb (by omega) hword) ?_
  rintro _ s' ⟨A', htab, hpte, hb', hbytes⟩
  have hother : ∀ v, v ≠ n → A'.pte v = A1.pte v := fun v hv => by rw [hpte, update_of_ne hv]
  refine ⟨A', by rw [htab], ⟨hb', ?_, ?_⟩, fun v hv => ?_, fun u hu => ?_⟩
  · rw [hpte, update_self, pteU, clearU_testBit hword]
    exact Bool.and_false _
  · rw [Space.pa, hother _ (by omega)]
    exact hg.fresh (n + 1) (by omega) (by omega)
  · rw [hother v (by omega), hg.old v hv]
  · rw [hbytes u (by omega), hg.bytes u hu]

/-- The arguments fit and the process has its new image, or they do not and the image is freed. -/
theorem enterStack_wp {sz1 : Nat} (ho : Owner p s0 Q O) (hsz1 : sz1 = (n + 2) * pgsize)
    (hb : Built s0.frees s0.mem p.trapframe (n + 2) P1 s1 A1)
    (hg : Grew A s.mem n (pteRBit ||| pteUBit ||| pteWBit) A1 s1.mem (n + 2)) (hentry : entry < 2 ^ 64) (argv : Argv) :
    wp Never (enterStack p path argv entry (A1.tab 2 0) sz1) (fun c s' =>
      if need argv.strs ≤ pgsize then
        ∃ A', c = ((argv.strs.length : Int), p.replaced path (A'.tab 2 0) sz1) ∧ Entered p argv entry n s A s' A'
      else c = (-1, p) ∧ Refused s0 s') s1 := by
  subst hsz1
  have hfew := hb.space.few
  have hpages : (n + 2) * pgsize < 2 ^ 64 := by
    unfold pgsize
    omega
  have hguard : sub64 ((n + 2) * pgsize) ((userstack + 1) * pgsize) = n * pgsize := sub_pages n 2 hfew
  have hstack : sub64 ((n + 2) * pgsize) (userstack * pgsize) = (n + 1) * pgsize := sub_pages (n + 1) 1 hfew
  unfold enterStack
  rw [hguard, hstack]
  refine wp_seq (guard_wp hb hg) ?_
  rintro _ s2 ⟨A2, hroot, hstacked, hold, hbytes⟩
  rw [← hroot]
  refine wp_seq (pushAll_wp hstacked argv) ?_
  rintro c s3 ⟨hstacked3, hc⟩
  cases c with
  | none =>
    have hbig : ¬need argv.strs ≤ pgsize := Nat.not_le.mpr hc
    have hbuilt : Built s0.frees s0.mem p.trapframe (npages ((n + 2) * pgsize)) P1 s3 A2 :=
      (npages_mul (n + 2)).symm ▸ hstacked3.built
    refine wp_seq hbuilt.freed fun _ s' hs' => ?_
    change if _ then _ else _
    rw [if_neg hbig]
    exact ⟨rfl, hs'⟩
  | some sp =>
    obtain ⟨hfit, rfl, hpushed, hwritten, hholds⟩ := hc
    have hneed : pgsize ≤ (n + 2) * pgsize := Nat.le_mul_of_pos_left _ (by omega)
    refine wp_seq (commit_wp ho hstacked3.built (by omega) hentry) ?_
    rintro p' s' ⟨rfl, hcommitted⟩
    change if _ then _ else _
    rw [if_pos hfit]
    have hlow : n * pgsize ≤ (n + 1) * pgsize := Nat.mul_le_mul_right _ (by omega)
    have hlast : (n + 2) * pgsize = (n + 1) * pgsize + pgsize := Nat.succ_mul _ _
    have hneed' := need_eq argv.strs
    have hlen : ((addrs ((n + 2) * pgsize) argv.strs ++ [0]).flatMap wordBytes).length ≤ need argv.strs := by
      rw [length_words, List.length_append, addrs_length, List.length_singleton]
      have := le_room ((argv.strs.length + 1) * 8)
      omega
    refine ⟨A2, rfl, hcommitted.space, hold, fun u hu => ?_, hstacked.guard, hstacked.stack, ?_, ?_, hcommitted.regs⟩
    · rw [hcommitted.bytes u (by omega), hpushed.rest u (by omega) (by omega), hbytes u hu]
    · exact hwritten.keep (by omega) fun u _ hlt => hcommitted.bytes u hlt
    · exact hholds.keep fun k hk => hcommitted.bytes _ (by omega)

/-- The pages suffice for the stack and the arguments fit into it, or nothing has happened. -/
theorem enter_wp {base total : Nat} (ho : Owner p s0 Q O) (h : Built s0.frees s0.mem p.trapframe (npages sz) P s A)
    (hcosts : Costs (paths 0 (npages sz + 2)) base total (npages sz) s A) (hentry : entry < 2 ^ 64) :
    wp Never (enter p path argv entry (A.tab 2 0) sz) (fun c s' =>
      if base + (npages sz + 2) ≤ total ∧ need argv.strs ≤ pgsize then
        ∃ A', c = ((argv.strs.length : Int), p.replaced path (A'.tab 2 0) ((npages sz + 2) * pgsize)) ∧
          Entered p argv entry (npages sz) s A s' A'
      else c = (-1, p) ∧ Refused s0 s') s := by
  have hbuilt : Built s0.frees s0.mem p.trapframe (npages (npages sz * pgsize)) P s A := (npages_mul (npages sz)).symm ▸ h
  rw [enter_eq, h.pgroundup.1, h.pgroundup.2]
  have hN : paths (npages (npages sz * pgsize)) (npages ((npages sz + 2) * pgsize)) ⊆ paths 0 (npages sz + 2) :=
    paths_mono (Nat.zero_le _) (Nat.le_of_eq (npages_mul _))
  refine wp_seq (grow_wp hbuilt hN (show pteRBit ||| pteUBit ||| pteWBit < 1024 by decide)) fun r s1 hgrown => ?_
  unfold Costs at hcosts
  rcases hgrown with ⟨rfl, hshort, P1, A1, hroot, hb⟩ | ⟨hr, P1, A1, hb, hg, hspent⟩
  · rw [npages_mul, npages_mul] at hshort
    rw [if_pos rfl, ← hroot]
    refine wp_seq hb.freed fun _ s' hs' => ?_
    change if _ then _ else _
    rw [if_neg (by omega)]
    exact ⟨rfl, hs'⟩
  · obtain rfl : r = (npages sz + 2) * pgsize := by
      rw [hr]
      exact Nat.max_eq_right (Nat.mul_le_mul_right _ (by omega))
    rw [npages_mul] at hb hg hspent
    rw [npages_mul] at hg hspent
    have hmapped : A1.lack (paths 0 (npages sz + 2)) = 0 :=
      Space.lack_mapped fun v hlo hhi => A1.tab_of_pte (hb.space.data.leaf v hlo hhi).ne_zero
    rw [Vm.Spent, hmapped] at hspent
    rw [if_neg (Nat.mul_ne_zero (by omega) (by decide)), ← hg.root]
    simp only [show base + (npages sz + 2) ≤ total by omega, true_and]
    exact enterStack_wp ho rfl hb hg hentry argv

end

/-! ## exec on memory -/

/-- The pages that an address space of `n` pages takes: the memory, a table of the lowest level for each 512 pages and
one of the next level for each 2^18, the root, and the two tables of the trampoline and the trapframe. -/
def pagesFor (n : Nat) : Nat := n + (n + 511) / 512 + (n + 262143) / 262144 + 3

/-- The program can be loaded and its stack mapped, with `free` free pages. -/
structure Preparable (f : Node) (free : Nat) : Prop where
  header : elfhdrSize ≤ f.size
  magic : (elfOf f).magic = elfMagic
  headers : ∀ i < (elfOf f).phnum, HeaderOk f i
  pages : pagesFor (npages (top f (elfOf f).phnum) + (userstack + 1)) ≤ free

instance (f : Node) (free : Nat) : Decidable (Preparable f free) :=
  decidable_of_iff (elfhdrSize ≤ f.size ∧ (elfOf f).magic = elfMagic ∧ (∀ i < (elfOf f).phnum, HeaderOk f i) ∧
      pagesFor (npages (top f (elfOf f).phnum) + (userstack + 1)) ≤ free)
    ⟨fun h => ⟨h.1, h.2.1, h.2.2.1, h.2.2.2⟩, fun h => ⟨h.header, h.magic, h.headers, h.pages⟩⟩

/-- The program can be loaded and its stack mapped with `free` free pages, and the arguments fit. -/
def Accepts (f : Node) (argv : Argv) (free : Nat) : Prop := Preparable f free ∧ need argv.strs ≤ userstack * pgsize

instance (f : Node) (argv : Argv) (free : Nat) : Decidable (Accepts f argv free) := inferInstanceAs (Decidable (_ ∧ _))

section

variable {f : Node} {p : Proc} {Q P : Set Nat} {O A : Space} {s s1 : Vm.St} {path : List UInt8} {argv : Argv} {n : Nat}

theorem pagesFor_eq (n : Nat) : pagesFor n = 3 + (paths 0 n).card + n := by
  rw [pagesFor, card_paths]
  omega

theorem elfOf_read (h : (readAt f 0 elfhdrSize).2 = elfhdrSize) :
    Elfhdr.at (putBytes zero 0 (readAt f 0 elfhdrSize).1) 0 = elfOf f := Elfhdr.at_congr (read_full h)

theorem Owner.refused (ho : Owner p s Q O) : Refused s s :=
  ⟨⟨ho.space.sound.pool.nodup, fun _ => (or_iff_left id).symm, fun _ _ => id⟩, Frame.refl _ _⟩

/-- A page table without user memory, before the first header. -/
theorem Loaded.start {trapframe : Nat} (h : AddrSpace s.frees s1 A trapframe 0) (hf : Frame s.frees s.mem s1.mem) :
    Loaded f s.frees s.mem trapframe 0 0 s.frees s1 A where
  built := ⟨h, by rw [Space.pages_empty A (show npages 0 ≤ 0 by decide), Set.union_empty], hf⟩
  user v hv := absurd hv (Nat.not_lt_zero v)
  size := rfl
  headers j hj := absurd hj (Nat.not_lt_zero j)
  segment _ j hj := absurd hj (Nat.not_lt_zero j)

/-- How `execOn` ends: the process has the new image if program and arguments are accepted, and otherwise nothing has
happened. -/
def Outcome (f : Node) (p : Proc) (path : List UInt8) (argv : Argv) (s : Vm.St) (c : Int × Proc) (s' : Vm.St) : Prop :=
  if Accepts f argv s.freelist.length then
    ∃ sz P s1 A A', Loaded f s.frees s.mem p.trapframe (elfOf f).phnum sz P s1 A ∧
      c = ((argv.strs.length : Int), p.replaced path (A'.tab 2 0) ((npages sz + 2) * pgsize)) ∧
      Entered p argv (elfOf f).entry (npages sz) s1 A s' A'
  else c = (-1, p) ∧ Refused s s'

theorem Outcome.fail {s' : Vm.St} (hnot : ¬Preparable f s.freelist.length) (h : Refused s s') :
    Outcome f p path argv s (-1, p) s' := by
  rw [Outcome, if_neg fun hok => hnot hok.1]
  exact ⟨rfl, h⟩

section

variable {c : Int × Proc} {s' : Vm.St} (h : Outcome f p path argv s c s')
include h

theorem Outcome.ret_iff : c.1 = -1 ↔ ¬Accepts f argv s.freelist.length := by
  unfold Outcome at h
  split at h
  next hacc =>
    obtain ⟨sz, P, s1, A, A', -, rfl, -⟩ := h
    refine iff_of_false (fun hr => ?_) (not_not.mpr hacc)
    have hr : (argv.strs.length : Int) = -1 := hr
    omega
  next hnot => exact iff_of_true (congrArg Prod.fst h.1) hnot

theorem Outcome.refused (hr : c.1 = -1) : c = (-1, p) ∧ Refused s s' := by
  have hnot := h.ret_iff.mp hr
  rw [Outcome, if_neg hnot] at h
  exact h

theorem Outcome.done (hr : c.1 ≠ -1) : need argv.strs ≤ pgsize ∧ ∃ sz P s1 A A',
    Loaded f s.frees s.mem p.trapframe (elfOf f).phnum sz P s1 A ∧
    c = ((argv.strs.length : Int), p.replaced path (A'.tab 2 0) ((npages sz + 2) * pgsize)) ∧
    Entered p argv (elfOf f).entry (npages sz) s1 A s' A' := by
  have hacc : Accepts f argv s.freelist.length := Classical.byContradiction fun hnot => hr (h.ret_iff.mpr hnot)
  rw [Outcome, if_pos hacc] at h
  exact ⟨Nat.le_trans hacc.2 (Nat.le_of_eq (Nat.one_mul _)), h⟩

end

theorem execOn_wp (ho : Owner p s Q O) (hsize : f.size ≤ maxfile * bsize) :
    wp Never (execOn f p path argv) (Outcome f p path argv s) s := by
  have hwhole : (readAt f 0 elfhdrSize).2 = elfhdrSize ↔ 0 + elfhdrSize ≤ f.size := readCount_full hsize (by decide)
  rw [Nat.zero_add] at hwhole
  have hstack : userstack + 1 = 2 := rfl
  unfold execOn
  split
  next hshort => exact .fail (fun hok => hshort (hwhole.mpr hok.header)) ho.refused
  next hread =>
    have hread := Decidable.not_not.mp hread
    rw [elfOf_read hread]
    dsimp only
    split
    next hmagic => exact .fail (fun hok => hmagic hok.magic) ho.refused
    next hmagic =>
      have hpages : ∀ q ∈ s.frees, IsPage q := fun q hq => ho.space.sound.pages q (ho.frees_sub hq)
      -- the tables that the memory and the stack need
      have hneed := pagesFor_eq (npages (top f (elfOf f).phnum) + 2)
      refine wp_seq (procPagetable_wp ho.refused.free hpages ho.page) ?_
      rintro pagetable s1 ⟨hframe, hmade⟩
      rcases hmade with ⟨rfl, hfree, hshort⟩ | ⟨A, rfl, hspace, hlen, hlack⟩
      · refine .fail (fun hok => ?_) ⟨hfree, hframe⟩
        have := hok.pages
        rw [hstack] at this
        omega
      · rw [if_neg A.root]
        have hoff : phOffset f 0 = u32 (elfOf f).phoff := by rw [phOffset, Nat.zero_mul, Nat.add_zero]
        have hle := A.lack_le (paths 0 (npages (top f (elfOf f).phnum) + 2))
        have hcosts : Costs (paths 0 (npages (top f (elfOf f).phnum) + 2))
          (3 + A.lack (paths 0 (npages (top f (elfOf f).phnum) + 2)))
            s.freelist.length (npages 0) s1 A := by
          rw [Costs, show npages 0 = 0 from rfl]
          omega
        rw [← hoff]
        refine wp_seq (loadOn_wp hsize (paths_mono (Nat.le_refl 0) (Nat.le_add_right _ 2)) (.start hspace hframe) hcosts
            (Nat.zero_add _))
          fun r s2 hs2 => ?_
        obtain ⟨P, A2, hroot, hloaded⟩ := hs2
        obtain ⟨ok, sz⟩ := r
        dsimp only at hloaded ⊢
        rw [← hroot]
        cases ok with
        | false =>
          obtain ⟨hbuilt, hnot⟩ : Built s.frees s.mem p.trapframe (npages sz) P s2 A2 ∧ _ := hloaded
          unfold badOn
          rw [if_neg Bool.false_ne_true, if_pos A2.root]
          refine wp_seq (Built.freed hbuilt) fun _ s' hs' => .fail (fun hok => hnot ⟨hok.headers, ?_⟩) hs'
          have := hok.pages
          rw [hstack] at this
          omega
        | true =>
          obtain ⟨hloaded, hcosts⟩ : Loaded f s.frees s.mem p.trapframe (elfOf f).phnum sz P s2 A2 ∧ _ := hloaded
          have hentry : (elfOf f).entry < 2 ^ 64 := le64_lt f.data 24
          have hfew := hloaded.built.space.few
          rw [← hloaded.size] at hcosts hneed hle
          obtain ⟨hlevels, hapart⟩ := paths_low (n := npages sz + 2) (by omega)
          have hall := hlack _ hlevels hapart
          have hiff : Accepts f argv s.freelist.length ↔
              3 + A.lack (paths 0 (npages sz + 2)) + (npages sz + 2) ≤ s.freelist.length ∧ need argv.strs ≤ pgsize := by
            rw [Accepts, show userstack * pgsize = pgsize from Nat.one_mul _]
            refine and_congr_left fun _ => ⟨fun hok => ?_, fun hfits => ⟨hwhole.mp hread, not_not.mp hmagic, hloaded.headers, ?_⟩⟩
            · have := hok.pages
              rw [← hloaded.size, hstack] at this
              omega
            · rw [← hloaded.size, hstack]
              omega
          refine wp_mono (enter_wp ho hloaded.built hcosts hentry) fun c s' hs' => ?_
          unfold Outcome
          split
          next hacc =>
            rw [if_pos (hiff.mp hacc)] at hs'
            obtain ⟨A', hc, hentered⟩ := hs'
            exact ⟨sz, P, s2, A2, A', hloaded, hc, hentered⟩
          next hnot =>
            rw [if_neg (mt hiff.mpr hnot)] at hs'
            exact hs'

/-! ## exec -/

/-- `exec` on a consistent file system: the path leads nowhere, or to a file from which the process gets its image. -/
theorem exec_outcome {sb : Superblock} {s : St} (h : Consistent sb s.proc.cwd (begun s.fs)) (ho : Owner s.proc s.vm Q O)
    (path : List UInt8) (argv : Argv) :
    (exec sb path argv s = .error (.fs .igetNoInodes) ∧ ninode < s.fs.nlive + 2) ∨ ∃ fs', Settled sb s.fs fs' ∧
      match program sb s path with
      | none => exec sb path argv s = .ok (-1, { s with fs := fs' })
      | some ip => ∃ c vm, exec sb path argv s = .ok (c.1, ⟨fs', vm, c.2⟩) ∧
        Outcome (node sb s.fs ip) s.proc path argv s.vm c vm := by
  rcases exec_factors h path argv with hfull | ⟨fs', hset, hrun⟩
  · exact .inl hfull
  · refine .inr ⟨fs', hset, ?_⟩
    cases hp : program sb s path with
    | none =>
      rw [hp] at hrun
      exact hrun
    | some ip =>
      rw [hp] at hrun
      have hsize : (node sb s.fs ip).size ≤ maxfile * bsize := h.ok.size_le ip
      obtain ⟨c, vm, hexec, hout⟩ := wp_total (execOn_wp ho hsize)
      exact ⟨c, vm, hrun.trans (onProc_run hexec), hout⟩

end

end Xv6.Exec
