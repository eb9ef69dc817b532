/-
  Xv6.Exec.Args — the arguments as the new program finds them.

  `main(argc, argv)` gets `argc` as the result of `exec` and `argv` in `a1`, which is also the stack pointer.
  What is there is read through the new page table, as the processor does it. Each string was pushed below
  the one before it, and the pointers below the strings, so that all of them are apart; the guard page is
  below the stack, mapped but not for the user.

  Proved: `exec_passes_arguments`.
-/

import Xv6.Exec.Image

namespace Xv6.Exec

open Xv6.Lib Xv6.Fs Xv6.Vm

/-! ## Where things are pushed -/

/-- `sp` when the loop has pushed `k` strings from the top of the stack. -/
def spAt (top : Nat) (strs : List (List UInt8)) (k : Nat) : Nat := (strs.take k).foldl (fun sp a => push sp (a.length + 1)) top

/-- `sp` when the pointers have been pushed too. -/
def lastSp (top : Nat) (strs : List (List UInt8)) : Nat := push (spAt top strs strs.length) ((strs.length + 1) * 8)

section

variable {top k i j : Nat} {a : List UInt8} {strs : List (List UInt8)}

theorem take_succ (h : strs[k]? = some a) : strs.take (k + 1) = strs.take k ++ [a] := by
  rw [List.take_add_one, h]
  rfl

theorem spAt_succ (h : strs[k]? = some a) : spAt top strs (k + 1) = push (spAt top strs k) (a.length + 1) := by
  unfold spAt
  rw [take_succ h, List.foldl_append, List.foldl_cons, List.foldl_nil]

theorem taken_succ (h : strs[k]? = some a) : taken (strs.take (k + 1)) = taken (strs.take k) + room (a.length + 1) := by
  rw [take_succ h, taken, List.map_append, List.sum_append]
  simp [taken]

theorem taken_mono (strs : List (List UInt8)) (h : i ≤ j) : taken (strs.take i) ≤ taken (strs.take j) := by
  induction j with
  | zero => rw [Nat.le_zero.mp h]
  | succ j ih =>
    rcases Nat.le_succ_iff.mp h with hle | rfl
    · refine Nat.le_trans (ih hle) ?_
      cases ha : strs[j]? with
      | none =>
        have hlen := List.getElem?_eq_none_iff.mp ha
        rw [List.take_of_length_le hlen, List.take_of_length_le (by omega)]
      | some a =>
        rw [taken_succ ha]
        exact Nat.le_add_right _ _
    · exact Nat.le_refl _

theorem taken_le (strs : List (List UInt8)) (k : Nat) : taken (strs.take k) ≤ taken strs := by
  rcases Nat.le_total k strs.length with h | h
  · have := taken_mono strs h
    rwa [List.take_length] at this
  · rw [List.take_of_length_le h]

section

variable (h16 : top % 16 = 0) (hlt : top < 2 ^ 64)
include h16 hlt

/-- Pushed from an aligned top, string `k` is below the strings before it. -/
theorem spAt_eq (hroom : taken strs ≤ top) (hk : k ≤ strs.length) : spAt top strs k = top - taken (strs.take k) := by
  induction k with
  | zero => rfl
  | succ k ih =>
    have ha : strs[k]? = some strs[k] := List.getElem?_eq_getElem hk
    have hle := taken_le strs (k + 1)
    have h1 := le_room (strs[k].length + 1)
    have h2 := taken_aligned (strs.take k)
    rw [taken_succ ha] at hle ⊢
    rw [spAt_succ ha, ih (by omega), push_eq (by omega) (by omega) (by omega), Nat.sub_sub]

variable (hroom : need strs ≤ top)
include hroom

theorem lastSp_eq : lastSp top strs = top - need strs := by
  have hneed := need_eq strs
  have h1 := le_room ((strs.length + 1) * 8)
  have h2 := taken_aligned strs
  unfold lastSp
  rw [spAt_eq h16 hlt (by omega) (Nat.le_refl _), List.take_length, push_eq (by omega) (by omega) (by omega), Nat.sub_sub, hneed]

theorem strAt_eq (hi : i < strs.length) : spAt top strs (i + 1) = top - taken (strs.take (i + 1)) := by
  have hneed := need_eq strs
  exact spAt_eq h16 hlt (by omega) hi

theorem lastSp_aligned : lastSp top strs % 16 = 0 := by
  have hneed := need_eq strs
  have h1 := room_aligned ((strs.length + 1) * 8)
  have h2 := taken_aligned strs
  rw [lastSp_eq h16 hlt hroom]
  omega

theorem strAt_aligned (hi : i < strs.length) : spAt top strs (i + 1) % 16 = 0 := by
  have hneed := need_eq strs
  have hle := taken_le strs (i + 1)
  have hal := taken_aligned (strs.take (i + 1))
  rw [strAt_eq h16 hlt hroom hi]
  omega

/-- The pointers are below every string. -/
theorem lastSp_le_strAt (hi : i < strs.length) : lastSp top strs + 8 * (strs.length + 1) ≤ spAt top strs (i + 1) := by
  have hneed := need_eq strs
  have hptrs := le_room ((strs.length + 1) * 8)
  have hle := taken_le strs (i + 1)
  rw [lastSp_eq h16 hlt hroom, strAt_eq h16 hlt hroom hi]
  omega

/-- String `j` ends below string `i` if it was pushed later. -/
theorem strAt_apart (hij : i < j) (ha : strs[j]? = some a) : spAt top strs (j + 1) + (a.length + 1) ≤ spAt top strs (i + 1) := by
  have hneed := need_eq strs
  have hj := (List.getElem?_eq_some_iff.mp ha).1
  have hle := taken_le strs (j + 1)
  have hmono := taken_mono strs (show i + 1 ≤ j from hij)
  have hsucc := taken_succ ha
  have hl := le_room (a.length + 1)
  rw [strAt_eq h16 hlt hroom (Nat.lt_trans hij hj), strAt_eq h16 hlt hroom hj]
  omega

theorem strAt_high (ha : strs[i]? = some a) : spAt top strs (i + 1) + (a.length + 1) ≤ top := by
  have hneed := need_eq strs
  have hle := taken_le strs (i + 1)
  have hsucc := taken_succ ha
  have hl := le_room (a.length + 1)
  rw [strAt_eq h16 hlt hroom (List.getElem?_eq_some_iff.mp ha).1]
  omega

end

end

/-- As long as the tests against the end of the stack have passed, no subtraction from `sp` wraps around, and no
pointer is stored past the end of `ustack`. -/
def NoUnderflow (strs : List (List UInt8)) (top : Nat) : Prop :=
  ∀ k ≤ strs.length, (∀ j ≤ k, top - userstack * pgsize ≤ spAt top strs j) → k < maxarg ∧
    (∀ a, strs[k]? = some a → a.length + 1 ≤ spAt top strs k) ∧ (k = strs.length → (k + 1) * 8 ≤ spAt top strs k)

theorem Argv.noUnderflow (argv : Argv) {top : Nat} (h : (userstack + 1) * pgsize ≤ top) : NoUnderflow argv.strs top := by
  intro k hk hpassed
  have hsp := hpassed k (Nat.le_refl k)
  have hfew : argv.strs.length < 32 := argv.few
  have hpage : pgsize ≤ spAt top argv.strs k := by
    unfold userstack at h hsp
    omega
  refine ⟨Nat.lt_of_le_of_lt hk argv.few, fun a ha => ?_, fun _ => ?_⟩
  · have hshort := argv.short a (List.mem_of_getElem? ha)
    omega
  · unfold pgsize at hpage
    omega

/-! ## What the program reads -/

/-- The arguments `strs` in the memory of process `p`. -/
structure Arguments (strs : List (List UInt8)) (m : Bytes) (p : Proc) : Prop where
  sp : le64 m (p.trapframe + trapframeSp) = lastSp p.sz strs
  a1 : le64 m (p.trapframe + trapframeA1) = lastSp p.sz strs
  pointers : ∀ i < strs.length, le64 (userMem m p.pagetable) (lastSp p.sz strs + 8 * i) = spAt p.sz strs (i + 1)
  null : le64 (userMem m p.pagetable) (lastSp p.sz strs + 8 * strs.length) = 0
  strings : ∀ i a, strs[i]? = some a → ∀ k ≤ a.length, userMem m p.pagetable (spAt p.sz strs (i + 1) + k) = (a ++ [0]).getD k 0
  aligned : lastSp p.sz strs % 16 = 0 ∧ ∀ i < strs.length, spAt p.sz strs (i + 1) % 16 = 0
  /-- The pointers, then the strings, the first one on top. -/
  low : p.sz - userstack * pgsize ≤ lastSp p.sz strs
  above : ∀ i < strs.length, lastSp p.sz strs + 8 * (strs.length + 1) ≤ spAt p.sz strs (i + 1)
  apart : ∀ i j a, i < j → strs[j]? = some a → spAt p.sz strs (j + 1) + (a.length + 1) ≤ spAt p.sz strs (i + 1)
  high : ∀ i a, strs[i]? = some a → spAt p.sz strs (i + 1) + (a.length + 1) ≤ p.sz
  stack : ∀ va, p.sz - userstack * pgsize ≤ va → va < p.sz → MayWrite m p.pagetable va
  guard : (userstack + 1) * pgsize ≤ p.sz ∧ Leaf (pteAt m p.pagetable (p.sz - (userstack + 1) * pgsize)) ∧
    pteU (pteAt m p.pagetable (p.sz - (userstack + 1) * pgsize)) = false

section

variable {A : Space} {P : Set Nat} {s : Vm.St} {m : Bytes} {trapframe n va : Nat} {strs : List (List UInt8)}

theorem Written.get {sp i : Nat} {a : List UInt8} (h : Written A m sp strs) (ha : strs[i]? = some a) :
    Holds A m (sp - taken (strs.take (i + 1))) (a ++ [0]) := by
  induction strs generalizing sp i with
  | nil => cases ha
  | cons b rest ih =>
    rw [List.take_succ_cons, taken_cons]
    cases i with
    | zero =>
      cases ha
      exact h.1
    | succ i =>
      rw [← Nat.sub_sub]
      exact ih h.2 ha

theorem words_get (l : List Nat) {i j : Nat} (hi : i < l.length) (hj : j < 8) :
    (l.flatMap wordBytes).getD (8 * i + j) 0 = put64 zero 0 l[i] j := by
  have hlen : ∀ w, (wordBytes w).length = 8 := fun w => slice_length _ _ _
  induction l generalizing i with
  | nil => cases hi
  | cons w l ih =>
    rw [List.flatMap_cons]
    cases i with
    | zero =>
      rw [Nat.mul_zero, Nat.zero_add, List.getD_append _ _ _ _ (by rw [hlen]; exact hj), List.getElem_cons_zero,
        List.getD_eq_getElem _ _ (by rw [hlen]; exact hj)]
      simp only [wordBytes, slice, List.getElem_map, List.getElem_range, Nat.zero_add]
    | succ i =>
      rw [List.getD_append_right _ _ _ _ (by rw [hlen]; omega), hlen, show 8 * (i + 1) + j - 8 = 8 * i + j by omega,
        List.getElem_cons_succ]
      exact ih (Nat.lt_of_succ_lt_succ hi)

/-- A word in the new memory. -/
theorem Holds.word {l : List Nat} (h : Holds A m va (l.flatMap wordBytes)) {i : Nat} (hi : i < l.length) :
    le64 (byteOfSpace A m) (va + 8 * i) = l[i] % 2 ^ 64 := by
  rw [← le64_put64_same zero 0 l[i]]
  refine le64_congr fun j hj => ?_
  rw [Nat.add_assoc, Nat.zero_add, h _ (by rw [length_words]; omega), words_get l hi hj]

section

variable {p : Proc} {argv : Argv} {entry top : Nat} {s' : Vm.St} {A' : Space} (h : Entered p argv entry n s A s' A')
  (htop : top = (n + 2) * pgsize)
include h htop

theorem Entered.top_lt : top % 16 = 0 ∧ top < 2 ^ 64 := by
  have hfew := h.space.few
  unfold pgsize at htop
  omega

/-- The stack is read through the new page table. -/
theorem Entered.read (hlo : (n + 1) * pgsize ≤ va) (hhi : va < top) :
    userMem s'.mem (A'.tab 2 0) va = byteOfSpace A' s'.mem va := by
  rw [htop] at hhi
  refine userMem_eq h.space hhi ?_
  rw [stack_page hlo hhi, h.stack]
  exact (stack_flags (h.space.data.page (n + 1) (Nat.zero_le _) (by omega))).2.1

/-- A pointer on the stack. -/
theorem Entered.word (hfit : need argv.strs ≤ pgsize) {i w : Nat} (hi : i ≤ argv.strs.length)
    (hw : (addrs top argv.strs ++ [0])[i]? = some w) (hlt : w < 2 ^ 64) :
    le64 (userMem s'.mem (A'.tab 2 0)) (top - need argv.strs + 8 * i) = w := by
  have hlast : (n + 2) * pgsize = (n + 1) * pgsize + pgsize := Nat.succ_mul _ _
  have hneed := need_eq argv.strs
  have hptrs := le_room ((argv.strs.length + 1) * 8)
  have hpointers := h.pointers
  rw [← htop] at hpointers
  obtain ⟨hlen, rfl⟩ := List.getElem?_eq_some_iff.mp hw
  rw [← Nat.mod_eq_of_lt hlt, ← hpointers.word hlen]
  exact le64_congr fun j hj => h.read htop (by omega) (by omega)

/-- What `enter` leaves on the stack. -/
theorem Entered.arguments (hfit : need argv.strs ≤ pgsize) (path : List UInt8) :
    Arguments argv.strs s'.mem (p.replaced path (A'.tab 2 0) top) := by
  have hfew := h.space.few
  have hlast : (n + 2) * pgsize = (n + 1) * pgsize + pgsize := Nat.succ_mul _ _
  have hprev : (n + 1) * pgsize = n * pgsize + pgsize := Nat.succ_mul _ _
  have hguard : top - (userstack + 1) * pgsize = n * pgsize := by
    unfold userstack
    omega
  have hpte : pteAt s'.mem (A'.tab 2 0) (n * pgsize) = A'.pte n := by
    rw [h.space.sound.stored.pteAt (va_lt (by omega)), page_va]
  obtain ⟨h16, hlt⟩ := h.top_lt htop
  have hroom : need argv.strs ≤ top := by omega
  have hsp := lastSp_eq h16 hlt hroom
  have hregs := h.regs
  rw [← htop, ← hsp] at hregs
  refine ⟨hregs.sp, hregs.a1, fun i hi => ?_, ?_, fun i a ha k hk => ?_,
    ⟨lastSp_aligned h16 hlt hroom, fun i hi => strAt_aligned h16 hlt hroom hi⟩, ?_, fun i hi => lastSp_le_strAt h16 hlt hroom hi,
    fun i j a hij ha => strAt_apart h16 hlt hroom hij ha, fun i a ha => strAt_high h16 hlt hroom ha, fun va hlo hhi => ?_, ?_⟩
  · change le64 (userMem s'.mem (A'.tab 2 0)) (lastSp top argv.strs + 8 * i) = spAt top argv.strs (i + 1)
    rw [hsp, strAt_eq h16 hlt hroom hi]
    refine h.word htop hfit (Nat.le_of_lt hi) ?_ (by omega)
    rw [List.getElem?_append_left (by rwa [addrs_length])]
    exact addrs_get top argv.strs hi
  · change le64 (userMem s'.mem (A'.tab 2 0)) (lastSp top argv.strs + 8 * argv.strs.length) = 0
    rw [hsp]
    refine h.word htop hfit (Nat.le_refl _) ?_ (by decide)
    rw [List.getElem?_append_right (by rw [addrs_length]), addrs_length, Nat.sub_self]
    rfl
  · change userMem s'.mem (A'.tab 2 0) (spAt top argv.strs (i + 1) + k) = (a ++ [0]).getD k 0
    have hi := (List.getElem?_eq_some_iff.mp ha).1
    have habove := lastSp_le_strAt h16 hlt hroom hi
    have hhigh := strAt_high h16 hlt hroom ha
    have hwritten := h.written.get ha
    rw [← htop, ← strAt_eq h16 hlt hroom hi] at hwritten
    rw [h.read htop (by omega) (by omega)]
    exact hwritten k (by rw [List.length_append, List.length_singleton]; omega)
  · change top - userstack * pgsize ≤ lastSp top argv.strs
    unfold userstack
    omega
  · have hlo : top - userstack * pgsize ≤ va := hlo
    have hhi : va < top := hhi
    unfold userstack at hlo
    exact stack_mayWrite h.space h.stack (by omega) (by omega)
  · change (userstack + 1) * pgsize ≤ top ∧ Leaf (pteAt s'.mem (A'.tab 2 0) (top - (userstack + 1) * pgsize)) ∧
      pteU (pteAt s'.mem (A'.tab 2 0) (top - (userstack + 1) * pgsize)) = false
    rw [hguard, hpte]
    refine ⟨?_, h.space.data.leaf n (Nat.zero_le _) (by omega), h.guard⟩
    unfold userstack
    omega

end

end

/-- The size of a process that runs the program. -/
def stackTop (f : Node) : Nat := (npages (Exec.top f (elfOf f).phnum) + (userstack + 1)) * pgsize

/-- `exec` hands over the arguments. It fails when they do not fit into the stack, and for no other reason once the
program is loaded and its stack mapped. -/
theorem exec_passes_arguments {sb : Superblock} {s : St} {Q : Set Nat} {O : Space} (h : Consistent sb s.proc.cwd (begun s.fs))
    (ho : Owner s.proc s.vm Q O) (path : List UInt8) (argv : Argv) :
    (exec sb path argv s = .error (.fs .igetNoInodes) ∧ ninode < s.fs.nlive + 2) ∨ ∃ r s', exec sb path argv s = .ok (r, s') ∧
      (r ≠ -1 → r = argv.strs.length ∧ Arguments argv.strs s'.vm.mem s'.proc) ∧
      ∀ ip, program sb s path = some ip → Preparable (node sb s.fs ip) s.vm.freelist.length →
        (r = -1 ↔ userstack * pgsize < need argv.strs) ∧ NoUnderflow argv.strs (stackTop (node sb s.fs ip)) := by
  rcases exec_outcome h ho path argv with hfull | ⟨fs', hset, hrun⟩
  · exact .inl hfull
  · refine .inr ?_
    cases hp : program sb s path with
    | none =>
      rw [hp] at hrun
      exact ⟨-1, _, hrun, fun hr => absurd rfl hr, fun ip hip => absurd hip (by simp)⟩
    | some ip =>
      rw [hp] at hrun
      obtain ⟨c, vm, hexec, hout⟩ := hrun
      refine ⟨c.1, _, hexec, fun hr => ?_, fun ip' hip hprepared => ?_⟩
      · obtain ⟨hfit, sz, P, s1, A, A', -, rfl, hentered⟩ := hout.done hr
        exact ⟨rfl, hentered.arguments rfl hfit path⟩
      · cases hip
        refine ⟨?_, argv.noUnderflow (Nat.mul_le_mul_right _ (Nat.le_add_left _ _))⟩
        rw [hout.ret_iff, Accepts, ← Nat.not_le]
        exact not_congr (and_iff_right hprepared)

/-- "sh" and "hi". -/
def shArgv : Argv := ⟨[[115, 104], [104, 105]], by decide, by decide⟩

/-- A process with one page runs "/sh" with two arguments. -/
theorem exec_passes_arguments_sh : ∃ s Q O r s', Consistent Mkfs.sb s.proc.cwd (begun s.fs) ∧ Owner s.proc s.vm Q O ∧
    exec Mkfs.sb [47, 115, 104] shArgv s = .ok (r, s') ∧ r = 2 ∧ Arguments shArgv.strs s'.vm.mem s'.proc := by
  obtain ⟨s, Q, O, hcons, howner, hlive, hprogram, -, -, hprepared⟩ := elf_prepared 64 (by decide)
  rcases exec_passes_arguments hcons howner [47, 115, 104] shArgv with ⟨-, hfull⟩ | ⟨r, s', hrun, hargs, hexact⟩
  · rw [hlive] at hfull
    exact absurd hfull (by decide)
  · have hiff := (hexact 2 hprogram hprepared).1
    have hne : r ≠ -1 := fun hr => absurd (hiff.mp hr) (by decide)
    obtain ⟨hr, ha⟩ := hargs hne
    exact ⟨s, Q, O, r, s', hcons, howner, hrun, hr, ha⟩

end Xv6.Exec
