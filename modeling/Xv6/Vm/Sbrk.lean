/-
  Xv6.Vm.Sbrk — a process changes its size (kernel/proc.c: `growproc`; kernel/sysproc.c:
  `sys_sbrk`).

  `sbrk` keeps the address space in order (`AddrSpace.extended`, `AddrSpace.unmapped`). It does what
  is asked of it except when more is taken away than there is: the new size wraps around to a huge
  one, `uvmdealloc` takes this for no change, and the call reports success.

  Proved: `sbrk_contract_iff`.
-/

import Xv6.Vm.Lifetime

namespace Xv6.Vm

open Xv6.Lib

section

variable {P P' : Set Nat} {s s' : St} {A A' : Space} {trapframe lo hi n sz newsz v w : Nat} {perm : Nat → Nat}
  {img : Nat → Bytes}

/-! ## Changes of an address space -/

theorem Data.join (h : Data A P 0 lo) (h' : Data A P lo hi) (hne : ∀ v u, v < lo → lo ≤ u → u < hi → A.pa v ≠ A.pa u) :
    Data A P 0 hi := by
  refine ⟨fun v _ hv => ?_, fun v _ hv => ?_, fun v _ hv => ?_, fun v u _ hv _ hu he => ?_⟩
  · rcases Nat.lt_or_ge v lo with hlt | hge
    · exact h.leaf v (Nat.zero_le v) hlt
    · exact h'.leaf v hge hv
  · rcases Nat.lt_or_ge v lo with hlt | hge
    · exact h.page v (Nat.zero_le v) hlt
    · exact h'.page v hge hv
  · rcases Nat.lt_or_ge v lo with hlt | hge
    · exact h.out v (Nat.zero_le v) hlt
    · exact h'.out v hge hv
  · rcases Nat.lt_or_ge v lo with hlt | hge <;> rcases Nat.lt_or_ge u lo with hlt' | hge'
    · exact h.inj v u (Nat.zero_le v) hlt (Nat.zero_le u) hlt' he
    · exact absurd he (hne v u hlt hge' hu)
    · exact absurd he.symm (hne u v hlt' hge hv)
    · exact h'.inj v u hge hv hge' hu he

theorem Extended.mem (h : Extended P s A perm img lo hi P' s' A') (hlo : lo ≤ v) (hhi : v < hi) : A'.pa v ∈ P := by
  rw [← h.pool]
  exact .inr ⟨v, hlo, hhi, rfl⟩

/-- Pages are added above the process's memory. -/
theorem AddrSpace.extended (h : AddrSpace P s A trapframe lo) (he : Extended P s A perm img lo hi P' s' A') (hle : lo ≤ hi) :
    AddrSpace P' s' A' trapframe hi := by
  have hold : ∀ v, v < lo → A'.pte v = A.pte v := fun v hv => he.others v (by omega)
  have hlow : Data A' P' 0 lo := by
    have hcongr : Data A' P 0 lo := h.data.congr fun v _ hv => hold v hv
    exact ⟨hcongr.leaf, hcongr.page, fun v hv hlt hin => hcongr.out v hv hlt (he.sub hin), hcongr.inj⟩
  have hdata : Data A' P' 0 hi := by
    refine hlow.join he.data fun v u hv hu hlt hpa => ?_
    refine h.data.out v (Nat.zero_le v) hv ?_
    rw [Space.pa, ← hold v hv]
    change A'.pa v ∈ P
    rw [hpa]
    exact he.mem hu hlt
  have hfew := hdata.length
  have htop : 2 ^ 15 < trapframeVa / pgsize ∧ trapframeVa / pgsize < trampoline / pgsize := by decide
  refine ⟨he.sound, hdata, ?_, ?_, fun v hv hvc hvf => ?_⟩
  · rw [he.others _ (by omega)]
    exact h.code
  · rw [he.others _ (by omega)]
    exact h.frame
  · rw [he.others v (by omega)]
    exact h.none v (by omega) hvc hvf

/-- Pages are taken away at its end. -/
theorem AddrSpace.unmapped (h : AddrSpace P s A trapframe hi) (hun : Unmapped P lo hi s A s' A') (hle : lo ≤ hi) :
    AddrSpace (P ∪ A.pages lo hi) s' A' trapframe lo := by
  have hfew := h.few
  have htop : 2 ^ 15 < trapframeVa / pgsize ∧ trapframeVa / pgsize < trampoline / pgsize := by decide
  have hold : ∀ v, ¬(lo ≤ v ∧ v < hi) → A'.pte v = A.pte v := fun v hv => by rw [hun.pte, if_neg hv]
  refine ⟨hun.sound, ?_, ?_, ?_, fun v hv hvc hvf => ?_⟩
  · have hlow : Data A P 0 lo := ⟨fun v hv hlt => h.data.leaf v hv (by omega), fun v hv hlt => h.data.page v hv (by omega),
      fun v hv hlt => h.data.out v hv (by omega), fun v u hv hlt hu hlt' => h.data.inj v u hv (by omega) hu (by omega)⟩
    have hcongr : Data A' P 0 lo := hlow.congr fun v _ hv => hold v (by omega)
    refine ⟨hcongr.leaf, hcongr.page, fun v hv hlt hin => ?_, hcongr.inj⟩
    rcases hin with hin | ⟨u, hu, hult, he⟩
    · exact hcongr.out v hv hlt hin
    · rw [Space.pa, Space.pa, hold v (by omega)] at he
      have := h.data.inj u v (Nat.zero_le u) hult hv (by omega) he
      omega
  · rw [hold _ (by omega)]
    exact h.code
  · rw [hold _ (by omega)]
    exact h.frame
  · by_cases hin : lo ≤ v ∧ v < hi
    · rw [hun.pte, if_pos hin]
    · rw [hold v hin]
      exact h.none v (by omega) hvc hvf

theorem AddrSpace.kept (h : AddrSpace P s A trapframe n) (hk : Kept P s A s' A') : AddrSpace P s' A' trapframe n := by
  refine ⟨hk.sound, h.data.congr fun v _ _ => by rw [hk.pte], ?_, ?_, ?_⟩
  · rw [hk.pte]
    exact h.code
  · rw [hk.pte]
    exact h.frame
  · rw [hk.pte]
    exact h.none

theorem Space.pa_setPte (A : Space) (h0 : A.tab 0 (v / 512) ≠ 0) (hpa : pte2pa w = A.pa v) : (A.setPte v w h0).pa = A.pa := by
  funext u
  by_cases hu : u = v
  · subst hu
    exact (congrArg pte2pa (update_self u w A.pte)).trans hpa
  · exact congrArg pte2pa (update_of_ne hu w A.pte)

/-- The flags of a page of the process change. -/
theorem AddrSpace.setPte (h : AddrSpace P s A trapframe n) (hv : v < n) (h0 : A.tab 0 (v / 512) ≠ 0) (hw : w < 2 ^ 64)
    (hleaf : Leaf w) (hpa : pte2pa w = A.pa v) :
    AddrSpace P { s with mem := put64 s.mem (A.slot v) w } (A.setPte v w h0) trapframe n := by
  have hfew := h.few
  have hhigh : 2 ^ 15 < trapframeVa / pgsize ∧ 2 ^ 15 < trampoline / pgsize := by decide
  have hsame := A.pa_setPte h0 hpa
  have hother : ∀ u, u ≠ v → (A.setPte v w h0).pte u = A.pte u := fun u hu => update_of_ne hu w A.pte
  have hself : (A.setPte v w h0).pte v = w := update_self v w A.pte
  refine ⟨h.sound.setPte h0 hw, ⟨fun u hu hlt => ?_, ?_, ?_, ?_⟩, ?_, ?_, fun u hu hcode hframe => ?_⟩
  · by_cases huv : u = v
    · rw [huv, hself]
      exact hleaf
    · rw [hother u huv]
      exact h.data.leaf u hu hlt
  · rw [hsame]
    exact h.data.page
  · rw [hsame]
    exact h.data.out
  · rw [hsame]
    exact h.data.inj
  · rw [hother _ (by omega)]
    exact h.code
  · rw [hother _ (by omega)]
    exact h.frame
  · rw [hother u (by omega)]
    exact h.none u hu hcode hframe

/-! ## What the process sees -/

/-- The PTE of page `v`. -/
def pageOf (m : Bytes) (pagetable v : Nat) : Nat := pteAt m pagetable (v * pgsize)

theorem Space.Stored.pageOf {m : Bytes} (h : A.Stored m) (hv : v < 2 ^ 26) : pageOf m (A.tab 2 0) v = A.pte v := by
  unfold Vm.pageOf
  rw [h.pteAt (va_lt hv), page_va]

/-- Page `v` is mapped as before, and its bytes are the same. -/
def SamePage (m m' : Bytes) (pagetable v : Nat) : Prop :=
  pageOf m' pagetable v = pageOf m pagetable v ∧
    ∀ o < pgsize, m' (pte2pa (pageOf m pagetable v) + o) = m (pte2pa (pageOf m pagetable v) + o)

/-- What `sbrk` is for: the call fails and nothing has changed, or the break has moved by `n`. -/
def SbrkContract (pagetable sz : Nat) (n : Int) (s : St) (r : Int) (sz' : Nat) (s' : St) : Prop :=
  (r = -1 ∧ sz' = sz ∧ (∀ v < 2 ^ 26, pageOf s'.mem pagetable v = pageOf s.mem pagetable v) ∧
    ∀ v < npages sz, SamePage s.mem s'.mem pagetable v) ∨
  (r = sz ∧ (sz' : Int) = sz + n ∧ s'.freelist.Nodup ∧
    (∀ v, npages sz' ≤ v → v < trapframeVa / pgsize → pageOf s'.mem pagetable v = 0) ∧
    (∀ v, npages sz' ≤ v → v < npages sz → pte2pa (pageOf s.mem pagetable v) ∈ s'.freelist) ∧
    (∀ v, npages sz ≤ v → v < npages sz' → ∃ p ∈ s.freelist, pageOf s'.mem pagetable v = mkPte p
        (pteRBit ||| pteUBit ||| pteWBit) ∧
      ∀ o < pgsize, s'.mem (p + o) = 0) ∧
    ∀ v, v < npages sz → v < npages sz' → SamePage s.mem s'.mem pagetable v)

/-- A page that was added was free before. -/
theorem Extended.was_free (h : Extended P s A perm img lo hi P' s' A') (hs : Sound P s A) (hlo : lo ≤ v) (hhi : v < hi) :
    A'.pa v ∈ s.freelist := by
  rcases (hs.pool.mem _).mp (h.mem hlo hhi) with hfree | htab
  · exact hfree
  · exact absurd (h.sound.table (h.tables.table _ htab)) (h.data.out v hlo hhi)

theorem SamePage.of_frame {Q : Set Nat} (h : AddrSpace P s A trapframe n) (hv : v < n) (hstored : A'.Stored s'.mem)
    (hroot : A'.tab 2 0 = A.tab 2 0) (hpte : A'.pte v = A.pte v) (hframe : Frame Q s.mem s'.mem) (hout : A.pa v ∉ Q) :
    SamePage s.mem s'.mem (A.tab 2 0) v := by
  have hfew := h.few
  have hnew := hstored.pageOf (v := v) (by omega)
  rw [hroot] at hnew
  unfold SamePage
  rw [h.sound.stored.pageOf (by omega), hnew]
  exact ⟨hpte, fun o ho => hframe.byte hout (h.data.page v (Nat.zero_le v) hv).1 ho⟩

section

variable (h : AddrSpace P s A trapframe (npages sz))
include h

/-- The break moves up. -/
theorem SbrkContract.grown (hle : sz ≤ newsz) (he : Zeroed P s A (pteRBit ||| pteUBit ||| pteWBit) (npages sz)
      (npages newsz) P' s' A') :
    SbrkContract (A.tab 2 0) sz (newsz - sz) s sz newsz s' := by
  have hspace := h.extended he (npages_mono hle)
  have hfew := hspace.few
  have htop : 2 ^ 15 < trapframeVa / pgsize ∧ trapframeVa / pgsize < 2 ^ 26 := by decide
  have hpage : ∀ {v}, v < 2 ^ 26 → pageOf s'.mem (A.tab 2 0) v = A'.pte v := by
    intro v hv
    rw [← he.root]
    exact he.sound.stored.pageOf hv
  refine .inr ⟨rfl, by omega, he.sound.pool.nodup, fun v hv hlt => ?_, fun v hv hlt => ?_, fun v hv hlt => ?_, fun v hv _ => ?_⟩
  · rw [hpage (by omega)]
    exact hspace.room hv hlt
  · have := npages_mono hle
    omega
  · refine ⟨A'.pa v, he.was_free h.sound hv hlt, ?_, he.bytes v hv hlt⟩
    rw [hpage (by omega)]
    exact he.fresh v hv hlt
  · exact .of_frame h hv he.sound.stored he.root (he.others v (by omega)) he.frame (h.data.out v (Nat.zero_le v) hv)

/-- The break moves down. -/
theorem SbrkContract.shrunk (hle : newsz ≤ sz) (hun : Unmapped P (npages newsz) (npages sz) s A s' A') :
    SbrkContract (A.tab 2 0) sz (newsz - sz) s sz newsz s' := by
  have hfewer := npages_mono hle
  have hspace := h.unmapped hun hfewer
  have hfew := h.few
  have htop : 2 ^ 15 < trapframeVa / pgsize ∧ trapframeVa / pgsize < 2 ^ 26 := by decide
  refine .inr ⟨rfl, by omega, hun.sound.pool.nodup, fun v hv hlt => ?_, fun v hv hlt => ?_, fun v hv hlt => ?_,
      fun v hv hlt => ?_⟩
  · rw [← hun.tab, hun.sound.stored.pageOf (by omega)]
    exact hspace.room hv hlt
  · rw [h.sound.stored.pageOf (by omega)]
    have hin : A.pa v ∈ P ∪ A.pages (npages newsz) (npages sz) := .inr ⟨v, hv, hlt, rfl⟩
    rcases (hun.sound.pool.mem _).mp hin with hfree | htab
    · exact hfree
    · rw [hun.table] at htab
      exact absurd (h.sound.table htab) (h.data.out v (Nat.zero_le v) hlt)
  · omega
  · refine .of_frame h hv hun.sound.stored (by rw [hun.tab]) (by rw [hun.pte, if_neg (by omega)]) hun.frame ?_
    rintro (hin | ⟨u, hu, hult, he⟩)
    · exact h.data.out v (Nat.zero_le v) hv hin
    · have := h.data.inj u v (Nat.zero_le u) hult (Nat.zero_le v) hv he
      omega

/-- The call fails. -/
theorem SbrkContract.failed (hk : Kept P s A s' A') (k : Int) :
    SbrkContract (A.tab 2 0) sz k s (-1) sz s' := by
  refine .inl ⟨rfl, rfl, fun v hv => ?_, fun v hv => ?_⟩
  · have hnew := hk.sound.stored.pageOf hv
    rw [hk.root] at hnew
    rw [hnew, h.sound.stored.pageOf hv, hk.pte]
  · exact .of_frame h hv hk.sound.stored hk.root (by rw [hk.pte]) hk.frame (h.data.out v (Nat.zero_le v) hv)

/-- `sbrk(n)` keeps its contract unless it takes away more than there is. -/
theorem sbrk_contract_iff {k : Int} (hlow : -2 ^ 31 ≤ k) (hhigh : k < 2 ^ 31) :
    ∃ r sz' s', sysSbrk (A.tab 2 0) sz k s = .ok ((r, sz'), s') ∧
      (SbrkContract (A.tab 2 0) sz k s r sz' s' ↔ 0 ≤ (sz : Int) + k) := by
  have hfew := h.few
  have hsz : sz ≤ 2 ^ 15 * pgsize := npages_le.mp hfew
  rw [show 2 ^ 15 * pgsize = 2 ^ 27 from rfl] at hsz
  suffices hwp : wp Never (sysSbrk (A.tab 2 0) sz k) (fun v s' => SbrkContract (A.tab 2 0) sz k s v.1 v.2 s' ↔
      0 ≤ (sz : Int) + k) s by
    obtain ⟨v, s', hrun, hv⟩ := wp_total hwp
    exact ⟨v.1, v.2, s', hrun, hv⟩
  unfold sysSbrk growproc
  rcases Int.lt_trichotomy k 0 with hneg | rfl | hpos
  · rw [if_neg (by omega), if_pos hneg]
    by_cases hfits : 0 ≤ (sz : Int) + k
    · obtain ⟨newsz, hnew⟩ := Int.eq_ofNat_of_zero_le hfits
      have hle : newsz ≤ sz := by omega
      have hof : ofInt (sz + k) = newsz := by
        rw [hnew]
        unfold ofInt
        omega
      have hdata : Data A P (npages newsz) (npages sz) := ⟨fun v _ => h.data.leaf v (Nat.zero_le v),
        fun v _ => h.data.page v (Nat.zero_le v), fun v _ => h.data.out v (Nat.zero_le v),
        fun v u _ hv _ hu => h.data.inj v u (Nat.zero_le v) hv (Nat.zero_le u) hu⟩
      rw [hof]
      refine wp_seq (wp_seq (uvmdealloc_wp h.sound hdata hle (by omega)) fun r s1 hs1 => ?_) fun v s1 hs1 => hs1
      obtain ⟨rfl, A1, hun⟩ := hs1
      have hk : k = (r : Int) - sz := by omega
      rw [hk]
      exact ⟨fun _ => by omega, fun _ => .shrunk h hle hun⟩
    · -- the new size wraps around
      have hge : sz ≤ ofInt (sz + k) := by
        unfold ofInt
        omega
      unfold uvmdealloc
      rw [if_pos hge]
      refine ⟨fun hc => ?_, fun hc => absurd hc hfits⟩
      rcases hc with ⟨hr, -⟩ | ⟨-, hmoved, -⟩
      · have hr : (sz : Int) = -1 := hr
        omega
      · have hmoved : (sz : Int) = sz + k := hmoved
        omega
  · rw [if_neg (by decide), if_neg (by decide)]
    refine ⟨fun _ => by omega, fun _ => ?_⟩
    have hsame := SbrkContract.grown h (Nat.le_refl sz) (.start h.sound)
    rwa [Int.sub_self] at hsame
  · rw [if_pos hpos]
    obtain ⟨newsz, hnew⟩ := Int.eq_ofNat_of_zero_le (show 0 ≤ (sz : Int) + k by omega)
    have hof : ofInt (sz + k) = newsz := by
      rw [hnew]
      unfold ofInt
      omega
    have hle : sz ≤ newsz := by omega
    rw [hof]
    refine wp_seq (wp_seq (uvmalloc_wp h.sound (Finset.Subset.refl _) (by decide) hle hfew
      fun u hu htop => h.room hu htop) fun r s1 hs1 => ?_) fun v s1 hs1 => hs1
    rcases hs1 with ⟨rfl, P1, A1, he, -⟩ | ⟨rfl, -, A1, hk⟩
    · rw [if_neg (by omega)]
      have hk : k = (r : Int) - sz := by omega
      rw [hk]
      exact ⟨fun _ => by omega, fun _ => .grown h hle he⟩
    · rw [if_pos rfl]
      exact ⟨fun _ => by omega, fun _ => .failed h hk k⟩

end

end

/-! ## A process with one page -/

/-- A machine with sixteen free pages. -/
def machine : St := ⟨zero, (List.range 16).map fun i => 0x87ff0000 + i * pgsize⟩

/-- A page table is made and memory of `sz` bytes is added to it. -/
def newProc (sz xperm : Nat) : VmM Nat := do
  let pagetable ← procPagetable 0x87000000
  let _ ← uvmalloc pagetable 0 sz xperm
  pure pagetable

/-- There is memory for eleven pages beside the tables. -/
theorem newProc_runs (m : Bytes) {sz xperm : Nat} (hperm : pteRBit ||| pteUBit ||| xperm < 1024) (hpos : 0 < npages sz)
    (hsz : npages sz ≤ 11) : ∃ P s A, AddrSpace P s A 0x87000000 (npages sz) ∧
      newProc sz xperm ⟨m, machine.freelist⟩ = .ok (A.tab 2 0, s) ∧
      P ∪ A.pages 0 (npages sz) = {p | p ∈ machine.freelist} ∧ s.freelist.length + npages sz = 11 := by
  have hall : ∀ p ∈ machine.freelist, IsPage p := by decide
  have hfree : Free {p | p ∈ machine.freelist} ⟨m, machine.freelist⟩ :=
    ⟨show machine.freelist.Nodup by decide, fun _ => (or_iff_left id).symm, fun _ _ => id⟩
  have hlen : machine.freelist.length = 16 := by decide
  obtain ⟨hlevels, hapart⟩ := paths_low (n := npages sz) (by omega)
  have htwo : (paths 0 (npages sz)).card = 2 := by
    rw [card_paths]
    omega
  obtain ⟨r, s1, hrun, -, hmade⟩ := wp_total (procPagetable_wp hfree hall (show IsPage 0x87000000 by decide))
  rcases hmade with ⟨-, -, hfew⟩ | ⟨A1, rfl, h1, hlen1, hlack⟩
  · dsimp only at hfew
    omega
  have hN : paths (npages 0) (npages sz) ⊆ paths 0 (npages sz) := Finset.Subset.refl _
  obtain ⟨r, s2, hrun2, halloc⟩ := wp_total (uvmalloc_wp h1.sound hN hperm (Nat.zero_le _) (by decide)
    fun u hu htop => h1.room (Nat.zero_le u) htop)
  have hall1 := hlack _ hlevels hapart
  have hzero : npages 0 = 0 := rfl
  dsimp only at hlen1
  rcases halloc with ⟨-, P2, A2, he, hspent⟩ | ⟨-, hfew, -⟩
  · have hmapped : A2.lack (paths 0 (npages sz)) = 0 :=
      Space.lack_mapped fun v hlo hhi => A2.tab_of_pte (he.data.leaf v hlo hhi).ne_zero
    refine ⟨P2, s2, A2, h1.extended he (Nat.zero_le _), ?_, he.pool, ?_⟩
    · unfold newProc
      rw [run_bind_ok hrun, run_bind_ok hrun2, he.root]
      rfl
    · rw [Spent, hmapped] at hspent
      omega
  · omega

def onePage : VmM Nat := newProc pgsize pteWBit

theorem onePage_runs : ∃ P s A, AddrSpace P s A 0x87000000 (npages pgsize) ∧ onePage machine = .ok (A.tab 2 0, s) ∧
    P ∪ A.pages 0 (npages pgsize) = {p | p ∈ machine.freelist} ∧ s.freelist.length = 10 := by
  obtain ⟨P, s, A, h, hrun, hpool, hlen⟩ := newProc_runs zero (show pteRBit ||| pteUBit ||| pteWBit < 1024 by decide)
    (show 0 < npages pgsize by decide) (by decide)
  have hone : npages pgsize = 1 := rfl
  exact ⟨P, s, A, h, hrun, hpool, by omega⟩

/-- The process takes a second page. -/
theorem sbrk_contract_iff_page : ∃ P s A r sz' s', AddrSpace P s A 0x87000000 (npages pgsize) ∧
    sysSbrk (A.tab 2 0) pgsize 4096 s = .ok ((r, sz'), s') ∧ SbrkContract (A.tab 2 0) pgsize 4096 s r sz' s' := by
  obtain ⟨P, s, A, h, -⟩ := onePage_runs
  obtain ⟨r, sz', s', hrun, hiff⟩ := sbrk_contract_iff (k := 4096) h (by decide) (by decide)
  exact ⟨P, s, A, r, sz', s', h, hrun, hiff.mpr (by decide)⟩

/-- A process with one page gives two back: the call reports success and the break has not moved. -/
theorem sbrk_ignores_underflow : ∃ P s A, AddrSpace P s A 0x87000000 (npages pgsize) ∧
    sysSbrk (A.tab 2 0) pgsize (-8192) s = .ok ((4096, pgsize), s) ∧
    ¬SbrkContract (A.tab 2 0) pgsize (-8192) s 4096 pgsize s := by
  obtain ⟨P, s, A, h, -⟩ := onePage_runs
  refine ⟨P, s, A, h, rfl, fun hc => ?_⟩
  rcases hc with ⟨hr, -⟩ | ⟨-, hmoved, -⟩
  · cases hr
  · exact absurd hmoved (by decide)

end Xv6.Vm
