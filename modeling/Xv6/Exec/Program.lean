/-
  Xv6.Exec.Program — what `exec` makes of a file.

  - A call that returns -1 has changed nothing: the process, its memory and its files are as before, every
    page it took is free again, and every inode it took has been put back (`exec_all_or_nothing`).
  - From a file whose headers and segments lie in it, in order and in different pages, the process gets the
    image that the headers describe (`exec_loads_the_image`).
  - A file whose headers or segments do not lie in it is refused, as long as the offsets fit into 32 bits:
    `exec` keeps `elf.phoff` in an `int` and passes `ph.off` as a `uint`, so from an offset of 2^32 on
    something else is read (`exec_refuses_truncated_iff`). `phoff_is_cut_off` is a file for which this is
    seen.
-/

import Xv6.Exec.Args

namespace Xv6.Exec

open Xv6.Lib Xv6.Fs Xv6.Vm

/-! ## A call that fails -/

/-- Nothing has changed. -/
structure Untouched (sb : Superblock) (s s' : St) : Prop where
  proc : s'.proc = s.proc
  tables : ∀ v < 2 ^ 26, pageOf s'.vm.mem s.proc.pagetable v = pageOf s.vm.mem s.proc.pagetable v
  memory : ∀ v < npages s.proc.sz, SamePage s.vm.mem s'.vm.mem s.proc.pagetable v
  trapframe : ∀ o < pgsize, s'.vm.mem (s.proc.trapframe + o) = s.vm.mem (s.proc.trapframe + o)
  free : s'.vm.freelist.Perm s.vm.freelist
  files : Settled sb s.fs s'.fs

section

variable {sb : Superblock} {s : St} {Q : Set Nat} {O : Space}

theorem Owner.untouched (ho : Owner s.proc s.vm Q O) {fs' : Fs.St} {vm : Vm.St} (h : Refused s.vm vm)
    (hset : Settled sb s.fs fs') :
    Untouched sb s { s with fs := fs', vm := vm } := by
  have hfew := ho.space.few
  have hstored : O.Stored vm.mem := ho.space.sound.stored.frame h.frame fun q hq => ho.holds q (.inl hq)
  have htables : ∀ v < 2 ^ 26, pageOf vm.mem s.proc.pagetable v = pageOf s.vm.mem s.proc.pagetable v := by
    intro v hv
    rw [← ho.root, hstored.pageOf hv, ho.space.sound.stored.pageOf hv]
  refine ⟨rfl, htables, fun v hv => ⟨htables v (by omega), fun o hlt => ?_⟩, fun o hlt => ?_, ?_, hset⟩
  · rw [← ho.root, ho.space.sound.stored.pageOf (by omega)]
    exact h.frame.byte (ho.holds _ (.inr ⟨v, Nat.zero_le v, hv, rfl⟩)) (ho.space.data.page v (Nat.zero_le v) hv).1 hlt
  · exact h.frame.byte ho.trapframe ho.page.1 hlt
  · exact h.free.perm ho.refused.free (fun _ => id) fun _ => id

variable (h : Consistent sb s.proc.cwd (begun s.fs)) (ho : Owner s.proc s.vm Q O)
include h ho

/-- `exec` is all or nothing. The one panic is that of `iget`, for want of an entry in the inode table. -/
theorem exec_all_or_nothing (path : List UInt8) (argv : Argv) :
    (exec sb path argv s = .error (.fs .igetNoInodes) ∧ ninode < s.fs.nlive + 2) ∨
    ∃ r s', exec sb path argv s = .ok (r, s') ∧ (r = -1 → Untouched sb s s') := by
  rcases exec_outcome h ho path argv with hfull | ⟨fs', hset, hrun⟩
  · exact .inl hfull
  · refine .inr ?_
    cases hp : program sb s path with
    | none =>
      rw [hp] at hrun
      exact ⟨-1, _, hrun, fun _ => ho.untouched ho.refused hset⟩
    | some ip =>
      rw [hp] at hrun
      obtain ⟨c, vm, hexec, hout⟩ := hrun
      refine ⟨c.1, _, hexec, fun hr => ?_⟩
      obtain ⟨rfl, hrefused⟩ := hout.refused hr
      exact ho.untouched hrefused hset

end

/-- Two strings of 3000 bytes: too many for the stack. -/
def bigArgv : Argv where
  strs := [List.replicate 3000 97, List.replicate 3000 97]
  few := by
    rw [List.length_cons, List.length_singleton]
    decide
  short a ha := by
    obtain rfl : a = List.replicate 3000 97 := by
      rcases List.mem_cons.mp ha with rfl | ha
      · rfl
      · exact List.mem_singleton.mp ha
    rw [List.length_replicate]
    decide

theorem bigArgv_need : userstack * pgsize < need bigArgv.strs := by
  rw [need, bigArgv, taken_cons, taken_cons, List.length_replicate, List.length_cons, List.length_singleton]
  decide

/-- A process with one page fails to run "/sh" with these. -/
theorem exec_all_or_nothing_sh : ∃ s Q O s', Consistent Mkfs.sb s.proc.cwd (begun s.fs) ∧ Owner s.proc s.vm Q O ∧
    exec Mkfs.sb [47, 115, 104] bigArgv s = .ok (-1, s') ∧ Untouched Mkfs.sb s s' := by
  obtain ⟨s, Q, O, hcons, howner, hlive, hprogram, -, -, -⟩ := elf_prepared 64 (by decide)
  rcases exec_all_or_nothing hcons howner [47, 115, 104] bigArgv with ⟨-, hfull⟩ | ⟨r, s', hrun, huntouched⟩
  · rw [hlive] at hfull
    exact absurd hfull (by decide)
  · rcases exec_outcome hcons howner [47, 115, 104] bigArgv with ⟨-, hfull⟩ | ⟨fs', -, hout⟩
    · rw [hlive] at hfull
      exact absurd hfull (by decide)
    · rw [hprogram] at hout
      obtain ⟨c, vm, hexec, hout⟩ := hout
      rw [hrun] at hexec
      obtain rfl : r = -1 := (congrArg Prod.fst (Except.ok.inj hexec)).trans
        (hout.ret_iff.mpr fun hacc => Nat.not_le.mpr bigArgv_need hacc.2)
      exact ⟨s, Q, O, s', hcons, howner, hrun, huntouched rfl⟩

/-! ## A call that succeeds -/

theorem exec_accepted {sb : Superblock} {s : St} {Q : Set Nat} {O : Space} {ip : Nat} {path : List UInt8} {argv : Argv}
    (h : Consistent sb s.proc.cwd (begun s.fs)) (ho : Owner s.proc s.vm Q O) (hp : program sb s path = some ip)
    (hacc : Accepts (node sb s.fs ip) argv s.vm.freelist.length) (hroom : s.fs.nlive + 2 ≤ ninode) :
    ∃ s', exec sb path argv s = .ok (argv.strs.length, s') := by
  rcases exec_outcome h ho path argv with ⟨-, hfull⟩ | ⟨fs', hset, hrun⟩
  · omega
  · rw [hp] at hrun
    obtain ⟨c, vm, hexec, hout⟩ := hrun
    obtain ⟨-, sz, P, s1, A, A', -, rfl, -⟩ := hout.done fun hr => hout.ret_iff.mp hr hacc
    exact ⟨_, hexec⟩

/-! ## Headers and segments in the file -/

/-- Program header `i`, where the ELF header says that it is. -/
def phAt (f : Node) (i : Nat) : Proghdr := Proghdr.at f.data ((elfOf f).phoff + i * proghdrSize)

/-- The headers, and the bytes of every segment, lie in the file. -/
structure Contained (f : Node) : Prop where
  headers : 0 < (elfOf f).phnum → (elfOf f).phoff + (elfOf f).phnum * proghdrSize ≤ f.size
  segments : ∀ i < (elfOf f).phnum, (phAt f i).Loads → 0 < (phAt f i).filesz → (phAt f i).off + (phAt f i).filesz ≤ f.size

/-- The segments come in order and share no page. -/
def Increasing (f : Node) : Prop := ∀ i j, i < j → j < (elfOf f).phnum → (phAt f i).Loads → (phAt f j).Loads →
  npages (phAt f i).stop * pgsize ≤ (phAt f j).vaddr

/-- `f`'s image in the memory of process `p`, whose segments and the gaps between them take `n` pages. -/
structure ImageOf (f : Node) (m : Bytes) (p : Proc) (n : Nat) : Prop where
  file : ∀ i < (elfOf f).phnum, (phAt f i).Loads → ∀ o < (phAt f i).filesz,
    userMem m p.pagetable ((phAt f i).vaddr + o) = f.data ((phAt f i).off + o)
  zero : ∀ i < (elfOf f).phnum, (phAt f i).Loads → ∀ o, (phAt f i).filesz ≤ o → o < (phAt f i).memsz →
    userMem m p.pagetable ((phAt f i).vaddr + o) = 0
  /-- Readable by the user, and `PTE_W` and `PTE_X` as the flags say. -/
  perm : ∀ i < (elfOf f).phnum, (phAt f i).Loads → ∀ v, (phAt f i).vaddr / pgsize ≤ v → v < npages (phAt f i).stop →
    pteV (pageOf m p.pagetable v) = true ∧ pteU (pageOf m p.pagetable v) = true ∧ (pageOf m p.pagetable v).testBit 1 = true ∧
      pteW (pageOf m p.pagetable v) = (phAt f i).flags.testBit 1 ∧ (pageOf m p.pagetable v).testBit 3 = (phAt f i).flags.testBit 0
  last : (∀ i < (elfOf f).phnum, (phAt f i).Loads → npages (phAt f i).stop ≤ n) ∧
    (n = 0 ∨ ∃ i < (elfOf f).phnum, (phAt f i).Loads ∧ n = npages (phAt f i).stop)
  size : p.sz = (n + 1 + userstack) * pgsize
  guard : Leaf (pageOf m p.pagetable n) ∧ pteU (pageOf m p.pagetable n) = false
  stack : ∀ v, n < v → v < n + 1 + userstack → Leaf (pageOf m p.pagetable v) ∧ pteU (pageOf m p.pagetable v) = true
  /-- No other page is mapped for the user. -/
  only : ∀ v < 2 ^ 26, pteV (pageOf m p.pagetable v) = true → pteU (pageOf m p.pagetable v) = true → v < n ∨
    (n < v ∧ v < n + 1 + userstack)
  entry : le64 m (p.trapframe + trapframeEpc) = (elfOf f).entry

section

variable {f : Node} {i n : Nat}

theorem size_lt (hsize : f.size ≤ maxfile * bsize) : f.size < 2 ^ 20 := Nat.lt_of_le_of_lt hsize (by decide)

theorem Contained.header (hc : Contained f) (hi : i < (elfOf f).phnum) :
    (elfOf f).phoff + i * proghdrSize + proghdrSize ≤ f.size := by
  have hin := hc.headers (by omega)
  unfold proghdrSize at *
  omega

/-- In a file, the low 32 bits of an offset are the offset. -/
theorem Contained.phOf_eq (hc : Contained f) (hsize : f.size ≤ maxfile * bsize) (hi : i < (elfOf f).phnum) :
    phOf f i = phAt f i := by
  have hlt := size_lt hsize
  have hin := hc.header hi
  have hoff : phOffset f i = (elfOf f).phoff + i * proghdrSize := Nat.mod_eq_of_lt (by omega)
  rw [phOf, hoff]
  rfl

theorem Increasing.ordered (h : Increasing f) (hc : Contained f) (hsize : f.size ≤ maxfile * bsize) : Ordered f := by
  intro i j hij hj
  rw [hc.phOf_eq hsize hj, hc.phOf_eq hsize (Nat.lt_trans hij hj)]
  exact h i j hij hj

/-- The memory below the highest end of a segment ends with a segment, unless there is none. -/
theorem top_eq (f : Node) (k : Nat) : top f k = 0 ∨ ∃ i < k, (phOf f i).Loads ∧ top f k = (phOf f i).stop := by
  induction k with
  | zero => exact .inl rfl
  | succ k ih =>
    have hearlier : top f (k + 1) = top f k → top f (k + 1) = 0 ∨ ∃ i < k + 1, (phOf f i).Loads ∧
      top f (k + 1) = (phOf f i).stop := by
      intro he
      rw [he]
      rcases ih with h0 | ⟨i, hi, hl, hs⟩
      · exact .inl h0
      · exact .inr ⟨i, Nat.lt_succ_of_lt hi, hl, hs⟩
    by_cases hl : (phOf f k).Loads
    · rcases Nat.le_total (top f k) (phOf f k).stop with hle | hle
      · refine .inr ⟨k, Nat.lt_succ_self k, hl, ?_⟩
        rw [top, if_pos hl, Nat.max_eq_right hle]
      · refine hearlier ?_
        rw [top, if_pos hl, Nat.max_eq_left hle]
    · refine hearlier ?_
      rw [top, if_neg hl]

/-- The bits of a PTE that `exec` makes for a segment. -/
theorem perm_bits {p : Nat} (hp : IsPage p) (ph : Proghdr) : pteV (mkPte p ph.perm) = true ∧ pteU (mkPte p ph.perm) = true ∧
    (mkPte p ph.perm).testBit 1 = true ∧ pteW (mkPte p ph.perm) = ph.flags.testBit 1 ∧
    (mkPte p ph.perm).testBit 3 = ph.flags.testBit 0 := by
  have hbit : ∀ {j}, j < 10 → (mkPte p ph.perm).testBit j = (ph.perm ||| 1).testBit j :=
    fun hj => testBit_mkPte hp.1 hp.lt (perm_lt ph) hj
  unfold pteV pteU pteW
  rw [hbit (by decide), hbit (by decide), hbit (by decide), hbit (by decide), hbit (by decide)]
  unfold Proghdr.perm flags2perm
  cases ph.flags.testBit 0 <;> cases ph.flags.testBit 1 <;> decide

variable {p : Proc} {argv : Argv} {s : Vm.St} {s1 s2 : Vm.St} {A A' : Space} {P F : Set Nat} {m : Bytes} {sz : Nat}
  {path : List UInt8}

/-- Only the pages of the program and the stack are mapped for the user. -/
theorem Entered.only {entry v : Nat} (he : Entered p argv entry n s1 A s2 A') (hvalid : pteV (A'.pte v) = true)
    (huser : pteU (A'.pte v) = true) : v < n ∨ v = n + 1 := by
  have hguard : v ≠ n := by
    rintro rfl
    rw [he.guard] at huser
    cases huser
  have hbelow : v < n + 2 := by
    by_contra hge
    rcases Decidable.em (v = trampoline / pgsize) with rfl | hcode
    · rw [he.space.code.2.1] at huser
      cases huser
    · rcases Decidable.em (v = trapframeVa / pgsize) with rfl | hframe
      · rw [he.space.frame.2.1] at huser
        cases huser
      · rw [he.space.none v (by omega) hcode hframe] at hvalid
        cases hvalid
  omega

theorem Loaded.stop_le {trapframe : Nat} (hl : Loaded f F m trapframe (elfOf f).phnum sz P s1 A) (hc : Contained f)
    (hsize : f.size ≤ maxfile * bsize) (hi : i < (elfOf f).phnum) (hload : (phAt f i).Loads) :
    (phAt f i).filesz ≤ (phAt f i).memsz ∧ (phAt f i).vaddr + (phAt f i).memsz ≤ sz := by
  rw [← hc.phOf_eq hsize hi] at hload ⊢
  rw [hl.size]
  exact ⟨((hl.headers i hi).accepted hload).memsz, stop_le_top hload hi⟩

section

variable (hl : Loaded f F m p.trapframe (elfOf f).phnum sz P s1 A) (he : Entered p argv (elfOf f).entry (npages sz) s1 A s2 A')
  (hsize : f.size ≤ maxfile * bsize) (hc : Contained f)
include hl he hsize hc

/-- The segments are where the loop has put them. -/
theorem Entered.segment (hinc : Increasing f) (hi : i < (elfOf f).phnum) (hload : (phAt f i).Loads) :
    Segment f (phAt f i) A' s2.mem := by
  have hmapped : sz ≤ npages sz * pgsize := npages_le.mp (Nat.le_refl _)
  obtain ⟨hsz, hle⟩ := hl.stop_le hc hsize hi hload
  rw [← hc.phOf_eq hsize hi] at hload hle hsz ⊢
  refine (hl.segment (hinc.ordered hc hsize) i hi hload).keep hsz (fun v hv => ?_) fun u hu => ?_
  · exact he.old v (Nat.lt_of_lt_of_le hv (npages_mono hle))
  · exact he.bytes u (Nat.lt_of_lt_of_le hu (Nat.le_trans hle hmapped))

omit hsize hc in
/-- They are read through the new page table. -/
theorem Entered.readProgram {u : Nat} (hu : u < sz) : userMem s2.mem (A'.tab 2 0) u = byteOfSpace A' s2.mem u := by
  have hmapped : sz ≤ npages sz * pgsize := npages_le.mp (Nat.le_refl _)
  have hmore : npages sz * pgsize ≤ (npages sz + 2) * pgsize := Nat.mul_le_mul_right _ (by omega)
  have hv := page_of_lt (Nat.lt_of_lt_of_le hu hmapped)
  refine userMem_eq he.space (by omega) ?_
  rw [he.old _ hv]
  exact hl.user _ hv

/-- The image in the process's memory, when the program has been loaded and entered. -/
theorem Entered.image (hinc : Increasing f) :
    ImageOf f s2.mem (p.replaced path (A'.tab 2 0) ((npages sz + 2) * pgsize)) (npages sz) := by
  have hfew := he.space.few
  have hlt := size_lt hsize
  have hpage : ∀ v < 2 ^ 26, pageOf s2.mem (A'.tab 2 0) v = A'.pte v := fun v hv => he.space.sound.stored.pageOf hv
  have hleaf : ∀ v < npages sz + 2, Leaf (A'.pte v) := fun v hv => he.space.data.leaf v (Nat.zero_le v) hv
  refine ⟨fun i hi hload o ho => ?_, fun i hi hload o ho hlt => ?_, fun i hi hload v hv hlt => ?_,
      ⟨fun i hi hload => ?_, ?_⟩, ?_, ?_,
    fun v hv hlt => ?_, fun v hv hvalid huser => ?_, he.regs.epc⟩
  all_goals try dsimp only [Proc.replaced]
  · have hin := hc.segments i hi hload (by omega)
    have hle := hl.stop_le hc hsize hi hload
    have hoff : u32 (phAt f i).off = (phAt f i).off := Nat.mod_eq_of_lt (by omega)
    rw [he.readProgram hl (by omega), (he.segment hl hsize hc hinc hi hload).file o ho, hoff]
  · have hle := hl.stop_le hc hsize hi hload
    rw [he.readProgram hl (by omega)]
    exact (he.segment hl hsize hc hinc hi hload).zero o ho hlt
  · have hlt' : v < npages sz := Nat.lt_of_lt_of_le hlt (npages_mono (hl.stop_le hc hsize hi hload).2)
    rw [hpage v (by omega), (he.segment hl hsize hc hinc hi hload).pte v hv hlt]
    exact perm_bits (he.space.data.page v (Nat.zero_le v) (by omega)) _
  · exact npages_mono (hl.stop_le hc hsize hi hload).2
  · rcases top_eq f (elfOf f).phnum with h0 | ⟨i, hi, hload, htop⟩
    · rw [hl.size, h0]
      exact .inl rfl
    · rw [hc.phOf_eq hsize hi] at hload htop
      exact .inr ⟨i, hi, hload, by rw [hl.size, htop]⟩
  · rfl
  · rw [hpage _ (by omega)]
    exact ⟨hleaf _ (by omega), he.guard⟩
  · obtain rfl : v = npages sz + 1 := by
      unfold userstack at hlt
      omega
    rw [hpage _ (by omega)]
    refine ⟨hleaf _ (by omega), ?_⟩
    rw [he.stack]
    exact (stack_flags (he.space.data.page _ (Nat.zero_le _) (by omega))).2.1
  · have hvalid : pteV (pageOf s2.mem (A'.tab 2 0) v) = true := hvalid
    have huser : pteU (pageOf s2.mem (A'.tab 2 0) v) = true := huser
    rw [hpage v hv] at hvalid huser
    have honly := he.only hvalid huser
    unfold userstack
    omega

end

end

section

variable {sb : Superblock} {s : St} {Q : Set Nat} {O : Space} {ip : Nat} {path : List UInt8} {argv : Argv}

/-- `exec` loads the image that the file describes. -/
theorem exec_loads_the_image (h : Consistent sb s.proc.cwd (begun s.fs)) (ho : Owner s.proc s.vm Q O)
    (hp : program sb s path = some ip)
    (hc : Contained (node sb s.fs ip)) (hinc : Increasing (node sb s.fs ip)) (argv : Argv) :
    (exec sb path argv s = .error (.fs .igetNoInodes) ∧ ninode < s.fs.nlive + 2) ∨
    ∃ r s', exec sb path argv s = .ok (r, s') ∧ (r ≠ -1 → ∃ n, ImageOf (node sb s.fs ip) s'.vm.mem s'.proc n) := by
  rcases exec_outcome h ho path argv with hfull | ⟨fs', hset, hrun⟩
  · exact .inl hfull
  · rw [hp] at hrun
    obtain ⟨c, vm, hexec, hout⟩ := hrun
    refine .inr ⟨c.1, _, hexec, fun hr => ?_⟩
    obtain ⟨-, sz, P, s1, A, A', hloaded, rfl, hentered⟩ := hout.done hr
    exact ⟨npages sz, hentered.image hloaded (h.ok.size_le ip) hc hinc⟩

end

section

variable {f g : Node} {i : Nat} (hsize : f.size = g.size) (hdata : ∀ k < f.size, f.data k = g.data k)
  (hheader : elfhdrSize ≤ f.size)
include hsize hdata hheader

theorem phAt_congr (hc : Contained g) (hi : i < (elfOf g).phnum) : phAt f i = phAt g i := by
  have hin := hc.header hi
  unfold phAt
  rw [elfOf_congr hdata hheader]
  exact Proghdr.at_congr fun k hk => hdata _ (by omega)

theorem Contained.congr (hc : Contained g) : Contained f := by
  constructor
  · rw [elfOf_congr hdata hheader, hsize]
    exact hc.headers
  · rw [elfOf_congr hdata hheader, hsize]
    intro i hi
    rw [phAt_congr hsize hdata hheader hc hi]
    exact hc.segments i hi

theorem Increasing.congr (hc : Contained g) (h : Increasing g) : Increasing f := by
  intro i j hij hj
  rw [elfOf_congr hdata hheader] at hj
  rw [phAt_congr hsize hdata hheader hc hj, phAt_congr hsize hdata hheader hc (Nat.lt_trans hij hj)]
  exact h i j hij hj

end

theorem elfNode_contained : Contained (elfNode 64) := by
  have hnum : (elfOf (elfNode 64)).phnum = 2 := by decide
  constructor
  · rw [hnum]
    decide
  · rw [hnum]
    decide

theorem elfNode_increasing : Increasing (elfNode 64) := by
  have hnum : (elfOf (elfNode 64)).phnum = 2 := by decide
  intro i j hij hj
  obtain ⟨rfl, rfl⟩ : i = 0 ∧ j = 1 := by omega
  decide

/-- "/sh" has two segments. -/
theorem exec_loads_the_image_sh : ∃ s Q O s' n, Consistent Mkfs.sb s.proc.cwd (begun s.fs) ∧ Owner s.proc s.vm Q O ∧
    program Mkfs.sb s [47, 115, 104] = some 2 ∧ Contained (node Mkfs.sb s.fs 2) ∧ Increasing (node Mkfs.sb s.fs 2) ∧
    ((elfOf (node Mkfs.sb s.fs 2)).phnum = 2 ∧ ∀ i < 2, (phAt (node Mkfs.sb s.fs 2) i).Loads) ∧
    exec Mkfs.sb [47, 115, 104] shArgv s = .ok (2, s') ∧ ImageOf (node Mkfs.sb s.fs 2) s'.vm.mem s'.proc n := by
  obtain ⟨s, Q, O, hcons, howner, hlive, hprogram, hsize, hdata, hprepared⟩ := elf_prepared 64 (by decide)
  have hheader : elfhdrSize ≤ (node Mkfs.sb s.fs 2).size := by
    rw [hsize]
    decide
  have hsame : ∀ k < (node Mkfs.sb s.fs 2).size, (node Mkfs.sb s.fs 2).data k = (elfNode 64).data k :=
    fun k hk => hdata k (by omega)
  have hc : Contained (node Mkfs.sb s.fs 2) := .congr hsize hsame hheader elfNode_contained
  have hinc : Increasing (node Mkfs.sb s.fs 2) := .congr hsize hsame hheader elfNode_contained elfNode_increasing
  have hnum : (elfOf (elfNode 64)).phnum = 2 := by decide
  have htwo : ∀ i < 2, (phAt (node Mkfs.sb s.fs 2) i).Loads := by
    intro i hi
    rw [phAt_congr hsize hsame hheader elfNode_contained (by omega)]
    revert i
    decide
  have hacc : Accepts (node Mkfs.sb s.fs 2) shArgv s.vm.freelist.length := ⟨hprepared, by decide⟩
  obtain ⟨s', hexec⟩ := exec_accepted hcons howner hprogram hacc (by rw [hlive]; decide)
  rcases exec_loads_the_image hcons howner hprogram hc hinc shArgv with ⟨hstop, -⟩ | ⟨r, s1, hrun, himage⟩
  · rw [hstop] at hexec
    cases hexec
  · rw [hrun] at hexec
    cases hexec
    obtain ⟨n, hn⟩ := himage (by decide)
    exact ⟨s, Q, O, s', n, hcons, howner, hprogram, hc, hinc, ⟨(congrArg Elfhdr.phnum (elfOf_congr hsame hheader)).trans hnum,
        htwo⟩,
      hrun, hn⟩

/-! ## Offsets of 2^32 and more -/

/-- The offsets fit into 32 bits. -/
structure Low (f : Node) : Prop where
  headers : 0 < (elfOf f).phnum → (elfOf f).phoff < 2 ^ 32
  segments : ∀ i < (elfOf f).phnum, (phAt f i).Loads → 0 < (phAt f i).filesz → (phAt f i).off < 2 ^ 32

section

variable {f : Node}

theorem Contained.low (hc : Contained f) (hsize : f.size ≤ maxfile * bsize) : Low f := by
  have hlt := size_lt hsize
  refine ⟨fun hpos => ?_, fun i hi hl hpos => ?_⟩
  · have := hc.headers hpos
    omega
  · have := hc.segments i hi hl hpos
    omega

/-- What can be loaded from offsets below 2^32 is in the file. -/
theorem Preparable.contained {free : Nat} (h : Preparable f free) (hsize : f.size ≤ maxfile * bsize) (hlow : Low f) :
    Contained f := by
  have hlt := size_lt hsize
  have hnum : (elfOf f).phnum < 2 ^ 16 := le16_lt _ _
  have hphoff : 0 < (elfOf f).phnum → (elfOf f).phoff + proghdrSize ≤ f.size := by
    intro hpos
    have hfirst := (h.headers 0 hpos).whole
    have hoff : phOffset f 0 = (elfOf f).phoff := by
      rw [phOffset, Nat.zero_mul, Nat.add_zero]
      exact Nat.mod_eq_of_lt (hlow.headers hpos)
    rwa [hoff] at hfirst
  have hoff : ∀ i < (elfOf f).phnum, phOffset f i = (elfOf f).phoff + i * proghdrSize := by
    intro i hi
    have := hphoff (by omega)
    refine Nat.mod_eq_of_lt ?_
    unfold proghdrSize
    omega
  have hph : ∀ i < (elfOf f).phnum, phOf f i = phAt f i := by
    intro i hi
    rw [phOf, hoff i hi]
    rfl
  refine ⟨fun hpos => ?_, fun i hi hl hpos => ?_⟩
  · have hlast := (h.headers ((elfOf f).phnum - 1) (by omega)).whole
    rw [hoff _ (by omega)] at hlast
    unfold proghdrSize at *
    omega
  · have hacc := (h.headers i hi).accepted (by rw [hph i hi]; exact hl)
    rw [hph i hi] at hacc
    have hfile := hacc.file hpos
    rwa [show u32 (phAt f i).off = (phAt f i).off from Nat.mod_eq_of_lt (hlow.segments i hi hl hpos)] at hfile

end

section

variable {sb : Superblock} {s : St} {Q : Set Nat} {O : Space} {ip : Nat} {path : List UInt8}

/-- A file whose headers or segments do not lie in it is refused if its offsets fit into 32 bits; a file that can be loaded
from other offsets is not. -/
theorem exec_refuses_truncated_iff (h : Consistent sb s.proc.cwd (begun s.fs)) (ho : Owner s.proc s.vm Q O)
    (hp : program sb s path = some ip) (argv : Argv) :
    (exec sb path argv s = .error (.fs .igetNoInodes) ∧ ninode < s.fs.nlive + 2) ∨
    ∃ r s', exec sb path argv s = .ok (r, s') ∧ ((¬Contained (node sb s.fs ip) → r = -1) ↔
      (Accepts (node sb s.fs ip) argv s.vm.freelist.length → Low (node sb s.fs ip))) := by
  have hfile : (node sb s.fs ip).size ≤ maxfile * bsize := h.ok.size_le ip
  rcases exec_outcome h ho path argv with hfull | ⟨fs', hset, hrun⟩
  · exact .inl hfull
  · rw [hp] at hrun
    obtain ⟨c, vm, hexec, hout⟩ := hrun
    refine .inr ⟨c.1, _, hexec, ?_⟩
    rw [hout.ret_iff]
    refine ⟨fun hrefuses hacc => Contained.low (Classical.byContradiction fun hnot => hrefuses hnot hacc) hfile,
      fun hlow hnot hacc => hnot (hacc.1.contained hfile (hlow hacc))⟩

end

theorem exec_refuses_truncated_iff_sh : ∃ s Q O r s', Consistent Mkfs.sb s.proc.cwd (begun s.fs) ∧ Owner s.proc s.vm Q O ∧
    program Mkfs.sb s [47, 115, 104] = some 2 ∧ exec Mkfs.sb [47, 115, 104] shArgv s = .ok (r, s') ∧
    Accepts (node Mkfs.sb s.fs 2) shArgv s.vm.freelist.length ∧
    ((¬Contained (node Mkfs.sb s.fs 2) → r = -1) ↔
      (Accepts (node Mkfs.sb s.fs 2) shArgv s.vm.freelist.length → Low (node Mkfs.sb s.fs 2))) := by
  obtain ⟨s, Q, O, hcons, howner, hlive, hprogram, -, -, hprepared⟩ := elf_prepared 64 (by decide)
  rcases exec_refuses_truncated_iff hcons howner hprogram shArgv with ⟨-, hfull⟩ | ⟨r, s', hrun, hiff⟩
  · rw [hlive] at hfull
    exact absurd hfull (by decide)
  · exact ⟨s, Q, O, r, s', hcons, howner, hprogram, hrun, ⟨hprepared, by decide⟩, hiff⟩

/-- With `phoff` 2^32 higher than where the headers are, far behind the end of the file, the program is run all the same. -/
theorem phoff_is_cut_off : ∃ s Q O s', Consistent Mkfs.sb s.proc.cwd (begun s.fs) ∧ Owner s.proc s.vm Q O ∧
    program Mkfs.sb s [47, 115, 104] = some 2 ∧ ¬Contained (node Mkfs.sb s.fs 2) ∧
    exec Mkfs.sb [47, 115, 104] shArgv s = .ok (2, s') := by
  obtain ⟨s, Q, O, hcons, howner, hlive, hprogram, hsize, hdata, hprepared⟩ := elf_prepared (2 ^ 32 + 64) (by decide)
  have hheader : elfhdrSize ≤ (node Mkfs.sb s.fs 2).size := by
    rw [hsize]
    decide
  have helf : elfOf (node Mkfs.sb s.fs 2) = elfOf (elfNode (2 ^ 32 + 64)) := elfOf_congr (fun k hk => hdata k (by omega)) hheader
  obtain ⟨s', hexec⟩ := exec_accepted hcons howner hprogram (show Accepts _ shArgv _ from ⟨hprepared, by decide⟩)
    (by rw [hlive]; decide)
  refine ⟨s, Q, O, s', hcons, howner, hprogram, fun hc => ?_, hexec⟩
  have hin := hc.headers
  rw [helf, hsize] at hin
  exact absurd hin (by decide)

end Xv6.Exec
