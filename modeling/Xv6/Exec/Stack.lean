/-
  Xv6.Exec.Stack — the stack of a new program, and the arguments on it.

  Two pages are mapped above the program: the lower one loses `PTE_U` and guards the other, which is the
  stack. The argument strings go below each other from the end of the stack down, each at a multiple of 16,
  and the array of pointers to them goes below the strings. From a multiple of 16, pushing `n` bytes takes
  `room n` of them, so the place of everything is a sum (`pushAll_wp`): the arguments fit when the sum is
  at most the size of the stack, and where they do not, the loop or the last test says so.

  No subtraction from `sp` goes below 0: `sp` is above the guard page when it is tested, and what is pushed
  is at most a page.
-/

import Xv6.Exec.Segments
import Xv6.Vm.Permissions

namespace Xv6.Exec

open Xv6.Lib Xv6.Fs Xv6.Vm

/-! ## The layout -/

/-- The bytes that `n` bytes take from an aligned `sp`. -/
def room (n : Nat) : Nat := (n + 15) / 16 * 16

/-- The bytes that strings take. -/
def taken (strs : List (List UInt8)) : Nat := (strs.map fun a => room (a.length + 1)).sum

/-- The bytes that the strings and the pointers to them take. -/
def need (strs : List (List UInt8)) : Nat := taken strs + room ((strs.length + 1) * 8)

theorem need_eq (strs : List (List UInt8)) : need strs = taken strs + room ((strs.length + 1) * 8) := rfl

/-- The addresses of the strings, pushed from `sp` on. -/
def addrs (sp : Nat) : List (List UInt8) → List Nat
  | [] => []
  | a :: rest => (sp - room (a.length + 1)) :: addrs (sp - room (a.length + 1)) rest

section

variable {sp n : Nat} {a : List UInt8} {strs rest : List (List UInt8)}

theorem le_room (n : Nat) : n ≤ room n := by
  unfold room
  omega

theorem room_aligned (n : Nat) : room n % 16 = 0 := by
  unfold room
  omega

theorem taken_cons : taken (a :: rest) = room (a.length + 1) + taken rest := by
  unfold taken
  rw [List.map_cons, List.sum_cons]

theorem taken_aligned (strs : List (List UInt8)) : taken strs % 16 = 0 := by
  induction strs with
  | nil => rfl
  | cons a rest ih =>
    have := room_aligned (a.length + 1)
    rw [taken_cons]
    omega

theorem addrs_length (sp : Nat) (strs : List (List UInt8)) : (addrs sp strs).length = strs.length := by
  induction strs generalizing sp with
  | nil => rfl
  | cons a rest ih => rw [addrs, List.length_cons, List.length_cons, ih]

/-- String `i` is below the strings before it. -/
theorem addrs_get (sp : Nat) (strs : List (List UInt8)) {i : Nat} (hi : i < strs.length) :
    (addrs sp strs)[i]? = some (sp - taken (strs.take (i + 1))) := by
  induction strs generalizing sp i with
  | nil => cases hi
  | cons a rest ih =>
    rw [addrs, List.take_succ_cons, taken_cons]
    cases i with
    | zero => simp [taken]
    | succ i =>
      rw [List.getElem?_cons_succ, ih _ (Nat.lt_of_succ_lt_succ hi), Nat.sub_sub]

/-- `sp -= n; sp -= sp % 16`, where `sp` is aligned and large enough. -/
theorem push_eq (h16 : sp % 16 = 0) (hlt : sp < 2 ^ 64) (hn : n ≤ sp) : push sp n = sp - room n := by
  have hsub : sub64 sp n = sp - n := by
    unfold sub64
    rw [Nat.mod_eq_of_lt (Nat.lt_of_le_of_lt hn hlt)]
    omega
  unfold push room
  rw [hsub]
  omega

end

/-! ## Bytes in the new memory -/

section

variable {F P : Set Nat} {m m' : Bytes} {trapframe n u v va pte sp : Nat} {s s' : Vm.St} {A A' : Space} {l : List UInt8}
  {strs : List (List UInt8)}

/-- The bytes `l` are at `va`. -/
def Holds (A : Space) (m : Bytes) (va : Nat) (l : List UInt8) : Prop := ∀ k < l.length, byteOfSpace A m (va + k) = l.getD k 0

/-- The guard page `n` and the stack page `n + 1` are the last pages of the new memory. -/
structure Stacked (F : Set Nat) (m : Bytes) (trapframe n : Nat) (P : Set Nat) (s : Vm.St) (A : Space) : Prop where
  built : Built F m trapframe (n + 2) P s A
  guard : pteU (A.pte n) = false
  stack : A.pte (n + 1) = mkPte (A.pa (n + 1)) (pteRBit ||| pteUBit ||| pteWBit)

theorem stack_flags {p : Nat} (hp : IsPage p) : pteV (mkPte p (pteRBit ||| pteUBit ||| pteWBit)) = true ∧
    pteU (mkPte p (pteRBit ||| pteUBit ||| pteWBit)) = true ∧ pteW (mkPte p (pteRBit ||| pteUBit ||| pteWBit)) = true := by
  have hbit : ∀ {j}, j < 10 → (mkPte p (pteRBit ||| pteUBit ||| pteWBit)).testBit j =
    (pteRBit ||| pteUBit ||| pteWBit ||| 1).testBit j :=
    fun hj => testBit_mkPte hp.1 hp.lt (by decide) hj
  unfold pteV pteU pteW
  rw [hbit (by decide), hbit (by decide), hbit (by decide)]
  decide

theorem stack_page (hlo : (n + 1) * pgsize ≤ va) (hhi : va < (n + 2) * pgsize) : va / pgsize = n + 1 :=
  Nat.div_eq_of_lt_le hlo hhi

theorem stack_rounddown (hlo : (n + 1) * pgsize ≤ va) (hhi : va < (n + 2) * pgsize) : pgrounddown va = (n + 1) * pgsize := by
  unfold pgrounddown
  rw [stack_page hlo hhi]

section

variable (h : AddrSpace P s A trapframe (n + 2)) (hstack : A.pte (n + 1) = mkPte (A.pa (n + 1)) (pteRBit ||| pteUBit ||| pteWBit))
  {va : Nat} (hlo : (n + 1) * pgsize ≤ va) (hhi : va < (n + 2) * pgsize)
include h hstack hlo hhi

theorem stack_userPage : userPage s.mem (A.tab 2 0) (pgrounddown va) = A.pa (n + 1) := by
  have hfew := h.few
  have hflags := stack_flags (h.data.page (n + 1) (Nat.zero_le _) (by omega))
  rw [stack_rounddown hlo hhi, h.sound.stored.userPage (va_lt (by omega)), page_va, hstack, if_pos ⟨hflags.1, hflags.2.1⟩]

theorem stack_mayWrite : MayWrite s.mem (A.tab 2 0) va := by
  have hfew := h.few
  have hva := stack_rounddown hlo hhi
  have hpage := h.data.page (n + 1) (Nat.zero_le _) (by omega)
  have hpte : A.pte (n + 1) ≠ 0 := (h.data.leaf (n + 1) (Nat.zero_le _) (by omega)).ne_zero
  have hlow : (n + 1) * pgsize < maxva := va_lt (by omega)
  refine ⟨hva ▸ hlow, ?_, ?_, ?_⟩
  · rw [hva, h.sound.stored.entry hlow, page_va]
    exact A.slot_ne_zero (A.tab_of_pte hpte)
  · rw [hva, h.sound.stored.entry hlow, page_va, h.sound.stored.slot (A.tab_of_pte hpte), hstack]
    exact (stack_flags hpage).2.2
  · rw [stack_userPage h hstack hlo hhi]
    exact hpage.pos

end

section

variable (h : Stacked F m trapframe n P s A)
include h

theorem Stacked.page : IsPage (A.pa (n + 1)) := h.built.space.data.page _ (Nat.zero_le _) (by omega)

/-- Memory changes in the stack page. -/
theorem Stacked.write (hf : Frame {A.pa (n + 1)} s.mem m') : Stacked F m trapframe n P { s with mem := m' } A := by
  refine ⟨h.built.write (hf.mono fun p hp => ?_), h.guard, h.stack⟩
  exact ⟨n + 1, Nat.zero_le _, by omega, (Set.mem_singleton_iff.mp hp).symm⟩

theorem Stacked.bounds : (n + 2) * pgsize = (n + 1) * pgsize + pgsize ∧ pgsize ≤ (n + 1) * pgsize ∧
    (n + 2) * pgsize < 2 ^ 64 := by
  have := h.built.space.few
  unfold pgsize
  omega

theorem Stacked.phys (hlo : (n + 1) * pgsize ≤ va) (hhi : va < (n + 2) * pgsize) :
    phys s.mem (A.tab 2 0) va = A.pa (n + 1) + (va - (n + 1) * pgsize) := by
  have hsplit := Nat.div_add_mod va pgsize
  rw [stack_page hlo hhi, Nat.mul_comm] at hsplit
  unfold Vm.phys
  rw [stack_userPage h.built.space h.stack hlo hhi, show va % pgsize = va - (n + 1) * pgsize by omega]

end

/-- `copyout` to the stack. -/
theorem Stacked.copyout (h : Stacked F m trapframe n P s A) (hpos : 0 < l.length) (hlo : (n + 1) * pgsize ≤ va)
    (hhi : va + l.length ≤ (n + 2) * pgsize) : Vm.copyout (A.tab 2 0) va l s =
      .ok (true, { s with mem := putBytes s.mem (A.pa (n + 1) + (va - (n + 1) * pgsize)) l }) := by
  have hall : reach (Vm.mayWrite s.mem (A.tab 2 0)) va l.length = l.length :=
    reach_eq_iff.mpr fun j hj => decide_eq_true (stack_mayWrite h.built.space h.stack (by omega) (by omega))
  have hphys : ∀ j < l.length, Vm.phys s.mem (A.tab 2 0) (va + j) = Vm.phys s.mem (A.tab 2 0) va + j := by
    intro j hj
    rw [h.phys (by omega) (by omega), h.phys hlo (by omega)]
    omega
  have hrun := copyout_stores va l h.built.space.confined.separate
  dsimp only at hrun
  rw [hall, List.take_length] at hrun
  rw [hrun, decide_eq_true rfl, spread_row hphys, h.phys hlo (by omega)]

/-- What a push leaves: the bytes at `va`, and everything else as it was. -/
structure Pushed (F : Set Nat) (m : Bytes) (trapframe n : Nat) (P : Set Nat) (A : Space) (lo hi : Nat) (s s' : Vm.St) : Prop where
  stacked : Stacked F m trapframe n P s' A
  freelist : s'.freelist = s.freelist
  rest : ∀ u < (n + 2) * pgsize, ¬(lo ≤ u ∧ u < hi) → byteOfSpace A s'.mem u = byteOfSpace A s.mem u

theorem Pushed.trans {lo1 hi1 lo2 hi2 lo hi : Nat} {s1 : Vm.St} (h1 : Pushed F m trapframe n P A lo1 hi1 s s1)
    (h2 : Pushed F m trapframe n P A lo2 hi2 s1 s') (hlo1 : lo ≤ lo1) (hhi1 : hi1 ≤ hi) (hlo2 : lo ≤ lo2) (hhi2 : hi2 ≤ hi) :
    Pushed F m trapframe n P A lo hi s s' where
  stacked := h2.stacked
  freelist := h2.freelist.trans h1.freelist
  rest u hu hout := by rw [h2.rest u hu (by omega), h1.rest u hu (by omega)]

theorem Stacked.pushed (h : Stacked F m trapframe n P s A) (va : Nat) (l : List UInt8) (hpos : 0 < l.length)
    (hlo : (n + 1) * pgsize ≤ va) (hhi : va + l.length ≤ (n + 2) * pgsize) : ∃ s',
    Vm.copyout (A.tab 2 0) va l s = .ok (true, s') ∧
      Pushed F m trapframe n P A va (va + l.length) s s' ∧ Holds A s'.mem va l := by
  have hnext := h.bounds.1
  have hfit : va - (n + 1) * pgsize + l.length ≤ pgsize := by omega
  have hbytes : ∀ u < (n + 2) * pgsize, byteOfSpace A (putBytes s.mem (A.pa (n + 1) + (va - (n + 1) * pgsize)) l) u =
      if va ≤ u ∧ u < va + l.length then l.getD (u - va) 0 else byteOfSpace A s.mem u := by
    intro u hu
    have hstore := byteOfSpace_store h.built (v := n + 1) (by omega) hfit hu
    rwa [Nat.add_sub_cancel' hlo] at hstore
  refine ⟨_, h.copyout hpos hlo hhi, ⟨h.write (putBytes_frame s.mem h.page.1 hfit), rfl, fun u hu hout => ?_⟩, fun k hk => ?_⟩
  · exact (hbytes u hu).trans (if_neg hout)
  · rw [hbytes (va + k) (by omega), if_pos (by omega), Nat.add_sub_cancel_left]

/-! ## The arguments -/

/-- The strings are where `addrs` says. -/
def Written (A : Space) (m : Bytes) : Nat → List (List UInt8) → Prop
  | _, [] => True
  | sp, a :: rest => Holds A m (sp - room (a.length + 1)) (a ++ [0]) ∧ Written A m (sp - room (a.length + 1)) rest

theorem Holds.keep (h : Holds A m va l) (hk : ∀ k < l.length, byteOfSpace A m' (va + k) = byteOfSpace A m (va + k)) :
    Holds A m' va l := fun k hlt => (hk k hlt).trans (h k hlt)

theorem length_nul (a : List UInt8) : (a ++ [0]).length = a.length + 1 := List.length_append

theorem Written.keep (h : Written A m sp strs) (hsp : taken strs ≤ sp) (hk : ∀ u, sp - taken strs ≤ u → u < sp →
      byteOfSpace A m' u = byteOfSpace A m u) : Written A m' sp strs := by
  induction strs generalizing sp with
  | nil => trivial
  | cons a rest ih =>
    have hle := le_room (a.length + 1)
    rw [taken_cons] at hsp hk
    refine ⟨h.1.keep fun k hlt => ?_, ih h.2 (by omega) fun u hu hlt => ?_⟩
    · rw [length_nul] at hlt
      exact hk _ (by omega) (by omega)
    · exact hk u (by omega) (by omega)

/-- The loop over the strings, from an aligned `sp` in the stack. -/
theorem pushArgs_wp {ustack : List Nat} (h : Stacked F m trapframe n P s A) (h16 : sp % 16 = 0) (hlo : (n + 1) * pgsize ≤ sp)
    (hhi : sp ≤ (n + 2) * pgsize) (hfew : ustack.length + strs.length < maxarg) (hshort : ∀ a ∈ strs, a.length < pgsize) :
    wp Never (pushArgs (A.tab 2 0) ((n + 1) * pgsize) strs sp ustack) (fun c s' => match c with
      | none => sp < (n + 1) * pgsize + taken strs ∧ Stacked F m trapframe n P s' A
      | some (sp', ustack') => (n + 1) * pgsize + taken strs ≤ sp ∧ sp' = sp - taken strs ∧ ustack' = ustack ++ addrs sp strs ∧
        Pushed F m trapframe n P A sp' sp s s' ∧ Written A s'.mem sp strs) s := by
  obtain ⟨hnext, hbelow, hlow⟩ := h.bounds
  induction strs generalizing sp ustack s with
  | nil =>
    have hnil : taken [] = 0 := rfl
    exact ⟨by omega, by omega, (List.append_nil _).symm, ⟨h, rfl, fun _ _ _ => rfl⟩, trivial⟩
  | cons a rest ih =>
    have ha : a.length < pgsize := hshort a List.mem_cons_self
    have hroom := le_room (a.length + 1)
    have hal := room_aligned (a.length + 1)
    rw [List.length_cons] at hfew
    rw [pushArgs, if_neg (by omega), push_eq h16 (by omega) (by omega), taken_cons]
    split
    next hsmall => exact ⟨by omega, h⟩
    next hfits =>
      have hsp : room (a.length + 1) ≤ sp := by omega
      obtain ⟨s1, hrun, hpushed, hholds⟩ := h.pushed (sp - room (a.length + 1)) (a ++ [0]) (by simp)
        (by omega) (by rw [length_nul]; omega)
      rw [length_nul] at hpushed
      refine wp_run_bind hrun ?_
      refine wp_mono (ih hpushed.stacked (by omega) (by omega) (by omega)
          (by rw [List.length_append, List.length_singleton]; omega)
        fun b hb => hshort b (List.mem_cons_of_mem _ hb)) fun c s' hs' => ?_
      match c, hs' with
      | none, hs' => exact ⟨by omega, hs'.2⟩
      | some (sp', ustack'), hs' =>
        obtain ⟨hfit, hsp', hu, hp, hw⟩ := hs'
        refine ⟨by omega, by omega, ?_, ?_, ?_, hw⟩
        · rw [hu, addrs, List.append_assoc, List.singleton_append]
        · exact hpushed.trans hp (by omega) (by omega) (by omega) (by omega)
        · refine hholds.keep fun k hk => hp.rest _ ?_ (by omega)
          rw [length_nul] at hk
          omega

theorem length_words (l : List Nat) : (l.flatMap wordBytes).length = l.length * 8 := by
  induction l with
  | nil => rfl
  | cons w l ih =>
    rw [List.flatMap_cons, List.length_append, ih, List.length_cons, show (wordBytes w).length = 8 from slice_length _ _ _]
    omega

/-- Strings and pointers are pushed exactly when they fit into the stack. -/
theorem pushAll_wp (h : Stacked F m trapframe n P s A) (argv : Argv) :
    wp Never (pushAll (A.tab 2 0) ((n + 1) * pgsize) ((n + 2) * pgsize) argv) (fun c s' => Stacked F m trapframe n P s' A ∧
      match c with
      | none => pgsize < need argv.strs
      | some sp => need argv.strs ≤ pgsize ∧ sp = (n + 2) * pgsize - need argv.strs ∧
        Pushed F m trapframe n P A sp ((n + 2) * pgsize) s s' ∧ Written A s'.mem ((n + 2) * pgsize) argv.strs ∧
        Holds A s'.mem sp ((addrs ((n + 2) * pgsize) argv.strs ++ [0]).flatMap wordBytes)) s := by
  obtain ⟨hnext, hbelow, hlow⟩ := h.bounds
  have hal : (n + 2) * pgsize % 16 = 0 := by
    unfold pgsize
    omega
  have hneed := need_eq argv.strs
  have hptrs : (argv.strs.length + 1) * 8 ≤ pgsize := by
    have hfew : argv.strs.length < 32 := argv.few
    unfold pgsize
    omega
  have hroom := le_room ((argv.strs.length + 1) * 8)
  have htaken := taken_aligned argv.strs
  refine wp_seq (pushArgs_wp h hal (by omega) (Nat.le_refl _) (by rw [List.length_nil, Nat.zero_add]; exact argv.few) argv.short)
    fun c s1 hs1 => ?_
  match c, hs1 with
  | none, hs1 => exact ⟨hs1.2, by omega⟩
  | some (sp, ustack), hs1 =>
    obtain ⟨hfit, hsp, hu, hp, hw⟩ := hs1
    rw [List.nil_append] at hu
    have hlen : ustack.length = argv.strs.length := by rw [hu, addrs_length]
    dsimp only
    rw [hlen, push_eq (by omega) (by omega) (by omega)]
    split
    next hsmall => exact ⟨hp.stacked, by omega⟩
    next hbig =>
      have hlenw : ((ustack ++ [0]).flatMap wordBytes).length = (argv.strs.length + 1) * 8 := by
        rw [length_words, List.length_append, List.length_singleton, hlen]
      obtain ⟨s2, hrun, hpushed, hholds⟩ := hp.stacked.pushed (sp - room ((argv.strs.length + 1) * 8))
        ((ustack ++ [0]).flatMap wordBytes) (by omega) (by omega) (by omega)
      rw [hlenw] at hpushed
      refine wp_run_bind hrun ⟨hpushed.stacked,
          by omega, by omega, hp.trans hpushed (by omega) (by omega) (by omega) (by omega), ?_, ?_⟩
      · exact hw.keep (by omega) fun u hge hlt => hpushed.rest u (by omega) (by omega)
      · rw [hu] at hholds
        exact hholds

/-! ## The guard page -/

theorem clearU_testBit {j : Nat} (h : pte < 2 ^ 64) : (clearU pte).testBit j = (pte.testBit j && decide (j ≠ 4)) :=
  testBit_clear (by decide) h

theorem pte2pa_clearU (h : pte < 2 ^ 64) : pte2pa (clearU pte) = pte2pa pte := pte2pa_clear (by decide) h

theorem leaf_clearU (h : pte < 2 ^ 64) (hl : Leaf pte) : Leaf (clearU pte) := by
  unfold Leaf pteV pteLeaf at *
  simpa [clearU_testBit h] using hl

/-- `uvmclear` takes `PTE_U` from one page of the new memory. -/
theorem uvmclear_wp (h : Built F m trapframe n P s A) (hv : v < n) (hpte : A.pte v < 2 ^ 64) :
    wp Never (uvmclear (A.tab 2 0) (v * pgsize)) (fun _ s' => ∃ A', A'.tab = A.tab ∧ A'.pte = update A.pte v (clearU (A.pte v)) ∧
      Built F m trapframe n P s' A' ∧ ∀ u < n * pgsize, byteOfSpace A' s'.mem u = byteOfSpace A s.mem u) s := by
  have hfew := h.space.few
  have hleaf := h.space.data.leaf v (Nat.zero_le v) hv
  have h0 : A.tab 0 (v / 512) ≠ 0 := A.tab_of_pte hleaf.ne_zero
  have hslot : A.slot v ≠ 0 := A.slot_ne_zero h0
  have hword : clearU (A.pte v) < 2 ^ 64 := Nat.lt_of_le_of_lt Nat.and_le_right (by decide)
  have hspace := h.space.setPte hv h0 hword (leaf_clearU hpte hleaf) (pte2pa_clearU hpte)
  have hframe := h.space.sound.slot_frame h0 (clearU (A.pte v))
  have hpa : ∀ u, (A.setPte v (clearU (A.pte v)) h0).pa u = A.pa u := congrFun (A.pa_setPte h0 (pte2pa_clearU hpte))
  unfold uvmclear
  refine wp_run_bind (walk_finds h.space.sound.stored (by omega)) ?_
  rw [if_neg hslot]
  have hload : Vm.load (A.slot v) s = .ok (A.pte v, s) := congrArg (fun w => Except.ok (w, s)) (h.space.sound.stored.slot h0)
  refine wp_run_bind hload ⟨A.setPte v (clearU (A.pte v)) h0, rfl, rfl, ⟨hspace, ?_, h.frame.trans (hframe.mono h.pool_sub)⟩,
      fun u hu => ?_⟩
  · rw [Space.pages_congr fun u _ _ => hpa u]
    exact h.pool
  · exact h.byte_same hframe (hpa _) hu

end

end Xv6.Exec
