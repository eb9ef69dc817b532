/-
  Xv6.Bio.Refs — who refers to a buffer.

  The list of buffers is always a ring through `head` with every buffer in it once, so `bget`
  finds a block that is cached and recycles only a buffer that nobody refers to. A buffer's
  count is the number of its pins, of its holder, and of the processes inside `bget` or
  `brelse` that have it.
-/

import Xv6.Bio.Cache
import Xv6.Lib.Tally
import Mathlib.Data.List.Perm.Basic
import Mathlib.Data.List.Range

namespace Xv6.Bio

open Xv6.Lib

variable {β : Type} {K : Key → Prop} {s t : St β} {a : Act β}

/-! ## The list -/

/-- The links are a ring of all buffers. -/
def St.Ringed (s : St β) : Prop := ∃ l, Ring s.links head l ∧ l.Perm (List.range nbuf)

theorem ring_binitLinks : ∀ n, n ≤ nbuf → Ring (binitLinks n) head (List.range n).reverse
  | 0, _ => ⟨by simp, by simp [Links.Joined, binitLinks]⟩
  | n + 1, hn => by
    have ih := ring_binitLinks n (by omega)
    have hnot : n ∉ head :: (List.range n).reverse := by
      simp only [List.mem_cons, List.mem_reverse, List.mem_range, head]
      omega
    have hpush := ih.push hnot
    rwa [List.range_succ, List.reverse_append]

theorem ringed_binit (disk : Nat → β) : (binit disk).Ringed :=
  ⟨_, ring_binitLinks nbuf le_rfl, List.reverse_perm _⟩

/-- The first loop of `bget` finds the block if some buffer has it. -/
theorem St.Ringed.scan_next (h : s.Ringed) (test : Nat → Bool) :
    (∀ i, scan s.links.next head test (nbuf + 1) (s.links.next head) = some i → i < nbuf ∧ test i = true) ∧
    (scan s.links.next head test (nbuf + 1) (s.links.next head) = none → ∀ i < nbuf, test i = false) := by
  obtain ⟨l, hring, hperm⟩ := h
  have hlen : l.length < nbuf + 1 := by simp [hperm.length_eq]
  have hmem : ∀ i, i ∈ l ↔ i < nbuf := fun i => by rw [hperm.mem_iff, List.mem_range]
  rw [hring.scan_next hlen]
  refine ⟨fun i hi => ⟨(hmem i).mp (List.mem_of_find?_eq_some hi), List.find?_some hi⟩, fun hnone i hi => ?_⟩
  simpa using List.find?_eq_none.mp hnone i ((hmem i).mpr hi)

/-- The second one, a buffer that is free. -/
theorem St.Ringed.scan_prev (h : s.Ringed) (test : Nat → Bool) {i : Nat}
    (hi : scan s.links.prev head test (nbuf + 1) (s.links.prev head) = some i) : i < nbuf ∧ test i = true := by
  obtain ⟨l, hring, hperm⟩ := h
  have hlen : l.length < nbuf + 1 := by simp [hperm.length_eq]
  rw [hring.scan_prev hlen] at hi
  refine ⟨?_, List.find?_some hi⟩
  have := List.mem_of_find?_eq_some hi
  rwa [List.mem_reverse, hperm.mem_iff, List.mem_range] at this

theorem ringed_toFront {i : Nat} (h : s.Ringed) (hi : i < nbuf) :
    ∃ l, Ring ((s.links.unlink i).push head i) head l ∧ l.Perm (List.range nbuf) := by
  obtain ⟨l, hring, hperm⟩ := h
  have hmem : i ∈ l := by rwa [hperm.mem_iff, List.mem_range]
  exact ⟨_, hring.toFront hmem, (List.perm_cons_erase hmem).symm.trans hperm⟩

/-! ## What a step does -/

inductive Step (K : Key → Prop) (s : St β) : St β → Prop
  | panic (x : Panic) : Step K s { s with panic := some x }
  | hit {p i k} (hp : s.free p) (hk : K k) (hi : i < nbuf) (hkey : (s.buf i).key = k) :
      Step K s ((s.setBuf i { s.buf i with refcnt := (s.buf i).refcnt + 1 }).goto p (.bget i k))
  | recycle {p i k} (hp : s.free p) (hk : K k) (hi : i < nbuf) (hmiss : ∀ j < nbuf, (s.buf j).key ≠ k)
      (href : (s.buf i).refcnt = 0) :
      Step K s ((s.setBuf i { s.buf i with dev := k.1, blockno := k.2, valid := false, refcnt := 1, dirty := false,
                                           wrote := false }).goto p (.bget i k))
  | acquiresleep {p i k} (hp : p < nproc) (hpc : s.pc p = .bget i k) (hlock : (s.buf i).lock = none) :
      Step K s (acquiresleep s p i k)
  | bread {p i k} (hp : p < nproc) (hpc : s.pc p = .bread i k) : Step K s (bread s p i k)
  | store {p i} (d : β) (h : s.holds p i) : Step K s (store s i d)
  | bwrite {p i} (h : s.holds p i) : Step K s (bwrite s p i)
  | bpin {p i} (h : s.holds p i) : Step K s (bpin s i)
  | bunpin {p i} (hp : s.free p) (hi : i < nbuf) (hpins : 0 < (s.buf i).pins) (hdirty : (s.buf i).dirty = true →
      1 < (s.buf i).pins) :
      Step K s (bunpin s i)
  | brelse {p i} (h : s.holds p i) (hwrote : (s.buf i).wrote = true → 0 < (s.buf i).pins) : Step K s (brelse s p i)
  | brelseRest {p i} (hp : p < nproc) (hpc : s.pc p = .brelse i) : Step K s (brelseRest s p i)

theorem step_of_bget {p : Nat} {k : Key} (hr : s.Ringed) (hp : s.free p) (hk : K k) : Step K s (bget s p k) := by
  obtain ⟨hsome, hnone⟩ := hr.scan_next fun i => (s.buf i).key == k
  unfold bget
  split
  · rename_i i hi
    obtain ⟨hlt, hkey⟩ := hsome i hi
    exact .hit hp hk hlt (by simpa using hkey)
  · rename_i hmiss
    split
    · rename_i i hi
      obtain ⟨hlt, href⟩ := hr.scan_prev _ hi
      exact .recycle hp hk hlt (fun j hj => by simpa using hnone hmiss j hj) (by simpa using href)
    · exact .panic _

theorem step_of_act (hr : s.Ringed) (hok : Polite K s a) (h : act s a = some t) : Step K s t := by
  unfold act at h
  split at h
  · cases h
  · cases a with
    | bread p k =>
      obtain ⟨hg, rfl⟩ := of_guard h
      exact step_of_bget hr hg hok
    | store p i d =>
      obtain ⟨hg, rfl⟩ := of_guard h
      exact .store d hg
    | bwrite p i =>
      obtain ⟨hg, rfl⟩ := of_guard h
      by_cases hl : (s.buf i).lock = some p
      · exact .bwrite ⟨hg.1, hg.2, hl⟩
      · rw [bwrite, if_neg hl]
        exact .panic _
    | bpin p i =>
      obtain ⟨hg, rfl⟩ := of_guard h
      exact .bpin hg
    | bunpin p i =>
      obtain ⟨hg, rfl⟩ := of_guard h
      exact .bunpin hg.1 hg.2 hok.1 hok.2
    | brelse p i =>
      obtain ⟨hg, rfl⟩ := of_guard h
      by_cases hl : (s.buf i).lock = some p
      · exact .brelse ⟨hg.1, hg.2, hl⟩ hok
      · rw [brelse, if_neg hl]
        exact .panic _
    | step p =>
      obtain ⟨hg, h⟩ := Option.ite_none_right_eq_some.mp h
      unfold advance at h
      split at h
      · cases h
      · obtain ⟨hl, rfl⟩ := of_guard h
        exact .acquiresleep hg ‹_› hl
      · cases h
        exact .bread hg ‹_›
      · cases h
        exact .brelseRest hg ‹_›

theorem bwrite_eq {p i : Nat} (h : s.holds p i) : bwrite s p i =
    { s.setBuf i { s.buf i with dirty := false, wrote := false } with
      disk := update s.disk (sector (s.buf i).key) (s.buf i).data } := if_pos h.2.2

theorem brelse_eq {p i : Nat} (h : s.holds p i) :
    brelse s p i = (s.setBuf i { s.buf i with lock := none }).goto p (.brelse i) := if_pos h.2.2

theorem brelseRest_eq (s : St β) (p i : Nat) : ∃ links, brelseRest s p i =
    { (s.setBuf i { s.buf i with refcnt := (s.buf i).refcnt - 1 }).goto p .idle with links := links } := by
  unfold brelseRest
  simp only
  split
  · exact ⟨_, rfl⟩
  · exact ⟨s.links, rfl⟩

/-! ## The counts -/

/-- A process between `bget`'s count and its `acquiresleep`, or between `brelse`'s `releasesleep` and its count. -/
def Pc.waits (i : Nat) : Pc → Nat
  | .bget j _ | .brelse j => if j = i then 1 else 0
  | _ => 0

structure Refs (K : Key → Prop) (s : St β) : Prop where
  ring : s.Ringed
  unique : ∀ i j, i < nbuf → j < nbuf → (s.buf i).dev ≠ 0 → (s.buf i).key = (s.buf j).key → i = j
  count : ∀ i < nbuf, (s.buf i).refcnt =
    (s.buf i).pins + (s.buf i).lock.isSome.toNat + tally nproc (Pc.waits i) s.pc
  getting : ∀ p i k, p < nproc → s.pc p = .bget i k → i < nbuf ∧ (s.buf i).key = k ∧ K k
  reading : ∀ p i k, p < nproc → s.pc p = .bread i k →
    i < nbuf ∧ (s.buf i).key = k ∧ K k ∧ (s.buf i).lock = some p
  leaving : ∀ p i, p < nproc → s.pc p = .brelse i → i < nbuf
  locked : ∀ i p, i < nbuf → (s.buf i).lock = some p →
    p < nproc ∧ K (s.buf i).key ∧ ((s.buf i).valid = true ∨ ∃ k, s.pc p = .bread i k)

section

variable {i p : Nat} {b : Buf β} {y : Pc}

section

variable (h : Refs K s)
include h

theorem Refs.count_change (hp : p < nproc) (hbuf : t.buf = update s.buf i b) (hpc : t.pc = update s.pc p y)
    (hother : ∀ j, j ≠ i → y.waits j = (s.pc p).waits j) (hi : b.refcnt + (s.buf i).pins + (s.buf i).lock.isSome.toNat +
      (s.pc p).waits i = (s.buf i).refcnt + b.pins + b.lock.isSome.toNat + y.waits i) :
    ∀ j < nbuf, (t.buf j).refcnt = (t.buf j).pins + (t.buf j).lock.isSome.toNat + tally nproc (Pc.waits j) t.pc := by
  intro j hj
  have htally : tally nproc (Pc.waits j) t.pc + (s.pc p).waits j = tally nproc (Pc.waits j) s.pc + y.waits j := by
    rw [hpc]
    exact tally_update hp
  have hcount := h.count j hj
  rw [hbuf]
  by_cases hji : j = i
  · subst hji
    rw [update_self]
    omega
  · have := hother j hji
    rw [update_of_ne hji]
    omega

/-- There are no more references than pins, processes and a holder. The source's `uint` does not wrap, since the log pins a
buffer once in a transaction. -/
theorem Refs.refcnt_le (hi : i < nbuf) : (s.buf i).refcnt ≤ (s.buf i).pins + 1 + nproc := by
  have hcount := h.count i hi
  have hlock : (s.buf i).lock.isSome.toNat ≤ 1 := Bool.toNat_le _
  have hwaits : tally nproc (Pc.waits i) s.pc ≤ nproc * 1 := by
    refine tally_le fun x => ?_
    unfold Pc.waits
    split
    · split <;> decide
    · split <;> decide
    · exact Nat.zero_le 1
  omega

/-- The counts say that nobody uses the buffer. -/
theorem Refs.unused (hi : i < nbuf) (href : (s.buf i).refcnt = 0) :
    (s.buf i).pins = 0 ∧ (s.buf i).lock = none ∧ ∀ p < nproc, (s.pc p).waits i = 0 := by
  have hcount := h.count i hi
  have hlock : (s.buf i).lock.isSome.toNat = 0 := by omega
  refine ⟨by omega, by simpa using hlock, fun p hp => ?_⟩
  have hle : (s.pc p).waits i ≤ tally nproc (Pc.waits i) s.pc := le_tally hp
  omega

/-- No other buffer has the block of one that was asked for. -/
theorem Refs.only (hdev : ∀ k, K k → k.1 ≠ 0) (hi : i < nbuf) (hk : K (s.buf i).key) {j : Nat} (hj : j < nbuf)
    (hkey : (s.buf j).key = (s.buf i).key) : j = i :=
  (h.unique i j hi hj (hdev _ hk) hkey.symm).symm

theorem Refs.valid_of_holds (hh : s.holds p i) : (s.buf i).valid = true ∧ K (s.buf i).key := by
  obtain ⟨hp, hi, hlock⟩ := hh
  obtain ⟨-, hK, hv | ⟨k, hk⟩⟩ := h.locked i p hi hlock
  · exact ⟨hv, hK⟩
  · rw [hp.2] at hk
    cases hk

/-- The holder of a buffer that `p` is not reading. -/
theorem Refs.still_locked (hpc : t.pc = update s.pc p y) (hp : ∀ k, s.pc p ≠ .bread i k) (hi : i < nbuf) {q : Nat}
    (hq : (s.buf i).lock = some q) :
    q < nproc ∧ K (s.buf i).key ∧ ((s.buf i).valid = true ∨ ∃ k, t.pc q = .bread i k) := by
  obtain ⟨hq', hK, hv⟩ := h.locked i q hi hq
  refine ⟨hq', hK, hv.imp_right ?_⟩
  rintro ⟨k, hk⟩
  have hqp : q ≠ p := by
    rintro rfl
    exact hp k hk
  exact ⟨k, by rw [hpc, update_of_ne hqp, hk]⟩

/-- The change of one buffer, which keeps its block, and of one process. -/
theorem Refs.change (hp : p < nproc) (hring : t.Ringed) (hbuf : t.buf = update s.buf i b) (hpc : t.pc = update s.pc p y)
    (hother : ∀ j, j ≠ i → y.waits j = (s.pc p).waits j) (hcount : b.refcnt + (s.buf i).pins + (s.buf i).lock.isSome.toNat +
      (s.pc p).waits i = (s.buf i).refcnt + b.pins + b.lock.isSome.toNat + y.waits i) (hkey : b.key = (s.buf i).key)
    (hi : i < nbuf) (hget : ∀ j k, y = .bget j k → j = i ∧ (s.buf i).key = k ∧ K k) (hread : ∀ j k, y = .bread j k → j = i ∧
      (s.buf i).key = k ∧ K k ∧ b.lock = some p) (hleave : ∀ j, y = .brelse j → j = i) (hkeep : ∀ q k, q < nproc → q ≠ p →
      s.pc q = .bread i k → b.lock = (s.buf i).lock) (hlocked : ∀ q, b.lock = some q → q < nproc ∧ K b.key ∧
      (b.valid = true ∨ ∃ k, t.pc q = .bread i k)) (hdone : ∀ j k, j ≠ i → s.pc p ≠ .bread j k) : Refs K t where
  ring := hring
  unique j j' hj hj' := by
    have := h.unique j j' hj hj'
    rw [hbuf]
    grind [update, Buf.key]
  count := h.count_change hp hbuf hpc hother hcount
  getting q j k hq := by
    have := h.getting q j k hq
    rw [hbuf, hpc]
    grind [update]
  reading q j k hq := by
    have := h.reading q j k hq
    have := hkeep q k
    rw [hbuf, hpc]
    grind [update]
  leaving q j hq := by
    have := h.leaving q j hq
    rw [hpc]
    grind [update]
  locked j q hj hq := by
    by_cases hji : j = i
    · subst hji
      rw [hbuf, update_self] at hq ⊢
      exact hlocked q hq
    · rw [hbuf, update_of_ne hji] at hq ⊢
      exact h.still_locked hpc (fun k => hdone j k hji) hj hq

/-- A change by a process that is in no call, to a buffer whose holder stays. -/
theorem Refs.change_idle (hp : s.free p) (hlinks : t.links = s.links) (hbuf : t.buf = update s.buf i b) (hpc : t.pc = s.pc)
    (hi : i < nbuf) (hlock : b.lock = (s.buf i).lock) (hkey : b.key = (s.buf i).key) (hvalid : b.valid = (s.buf i).valid)
    (hcount : b.refcnt + (s.buf i).pins = (s.buf i).refcnt + b.pins) :
    Refs K t := by
  refine h.change (y := .idle) hp.1 ?_ hbuf ?_ ?_ ?_ hkey hi (by simp) (by simp) (by simp) (fun _ _ _ _ _ => hlock) ?_ ?_
  · unfold St.Ringed
    rw [hlinks]
    exact h.ring
  · rw [hpc, update_same hp.2]
  · simp [hp.2]
  · rw [hp.2, hlock]
    omega
  · intro q hq
    rw [hkey, hvalid, hpc]
    exact h.locked i q hi (hlock ▸ hq)
  · simp [hp.2]

end

theorem buf_other {j : Nat} (hji : j ≠ i) : ((s.setBuf i b).goto p y).buf j = s.buf j := update_of_ne hji _ _

theorem Refs.recycle {k : Key} (h : Refs K s) (hp : s.free p) (hk : K k) (hi : i < nbuf)
    (hmiss : ∀ j < nbuf, (s.buf j).key ≠ k) (href : (s.buf i).refcnt = 0) :
    Refs K ((s.setBuf i { s.buf i with dev := k.1, blockno := k.2, valid := false, refcnt := 1, dirty := false,
                                       wrote := false }).goto p (.bget i k)) := by
  obtain ⟨hpins, hlock, hwaits⟩ := h.unused hi href
  have hnobody : ∀ q, q < nproc → ∀ j k', s.pc q = .bget j k' ∨ s.pc q = .bread j k' → j ≠ i := by
    rintro q hq j k' (hq' | hq') rfl
    · have := hwaits q hq
      rw [hq'] at this
      simp [Pc.waits] at this
    · have := (h.reading q j k' hq hq').2.2.2
      rw [hlock] at this
      cases this
  constructor
  · exact h.ring
  · intro j j' hj hj' hdev hkey
    -- no other buffer has the block
    have hnew : ∀ l, l < nbuf → k ≠ (s.buf l).key := fun l hl => (hmiss l hl).symm
    simp only [St.setBuf, St.goto, update] at hdev hkey
    by_cases hji : j = i <;> by_cases hji' : j' = i
    · rw [hji, hji']
    · simp only [hji, hji', if_true, if_false] at hkey
      exact absurd hkey (hnew j' hj')
    · simp only [hji, hji', if_true, if_false] at hkey
      exact absurd hkey.symm (hnew j hj)
    · simp only [hji, hji', if_false] at hdev hkey
      exact h.unique j j' hj hj' hdev hkey
  · refine h.count_change hp.1 rfl rfl ?_ ?_
    · intro j hji
      simp [hp.2, Pc.waits, Ne.symm hji]
    · simp [hp.2, Pc.waits, hlock, href, hpins]
  · intro q j k' hq hq'
    have := h.getting q j k' hq
    have := hnobody q hq j k'
    simp only [St.setBuf, St.goto, update] at hq' ⊢
    by_cases hqp : q = p
    · simp only [hqp, if_true, Pc.bget.injEq] at hq'
      obtain ⟨rfl, rfl⟩ := hq'
      exact ⟨hi, by simp [Buf.key], hk⟩
    · simp only [hqp, if_false] at hq'
      simp_all
  · intro q j k' hq hq'
    have := h.reading q j k' hq
    have := hnobody q hq j k'
    simp only [St.setBuf, St.goto, update] at hq' ⊢
    by_cases hqp : q = p
    · simp [hqp] at hq'
    · simp only [hqp, if_false] at hq'
      simp_all
  · intro q j hq hq'
    simp only [St.setBuf, St.goto, update] at hq'
    by_cases hqp : q = p
    · simp [hqp] at hq'
    · simp only [hqp, if_false] at hq'
      exact h.leaving q j hq hq'
  · intro j q hj hq
    by_cases hji : j = i
    · simp [St.setBuf, St.goto, update, hji, hlock] at hq
    · rw [buf_other hji] at hq ⊢
      exact h.still_locked rfl (by simp [hp.2]) hj hq

end

theorem Refs.step (h : Refs K s) (hstep : Step K s t) : Refs K t := by
  cases hstep with
  | panic x => exact ⟨h.ring, h.unique, h.count, h.getting, h.reading, h.leaving, h.locked⟩
  | @hit p i k hp hk hi hkey =>
    refine h.change (y := .bget i k) hp.1 h.ring rfl rfl ?_ ?_ rfl hi ?_ (by simp) (by simp) (fun _ _ _ _ _ => rfl) ?_ ?_
    · intro j hj
      simp [hp.2, Pc.waits, Ne.symm hj]
    · simp only [hp.2, Pc.waits, if_true]
      omega
    · intro j k' hy
      cases hy
      exact ⟨rfl, hkey, hk⟩
    · exact fun q hq => h.still_locked rfl (by simp [hp.2]) hi hq
    · simp [hp.2]
  | recycle hp hk hi hmiss href => exact h.recycle hp hk hi hmiss href
  | @acquiresleep p i k hp hpc hlock =>
    obtain ⟨hi, hkey, hk⟩ := h.getting p i k hp hpc
    refine h.change (y := .bread i k) hp h.ring rfl rfl ?_ ?_ rfl hi (by simp) ?_ (by simp) ?_ ?_ ?_
    · intro j hj
      simp [hpc, Pc.waits, Ne.symm hj]
    · simp only [hpc, hlock, Pc.waits, if_true, Option.isSome_none, Option.isSome_some, Bool.toNat_true,
        Bool.toNat_false]
    · intro j k' hy
      cases hy
      exact ⟨rfl, hkey, hk, rfl⟩
    · intro q k' hq _ hq'
      have := (h.reading q i k' hq hq').2.2.2
      rw [hlock] at this
      cases this
    · intro q hq
      cases hq
      have hK : K (s.buf i).key := hkey ▸ hk
      exact ⟨hp, hK, .inr ⟨k, by simp [Bio.acquiresleep, St.goto, update]⟩⟩
    · simp [hpc]
  | @bread p i k hp hpc =>
    obtain ⟨hi, hkey, hk, hlock⟩ := h.reading p i k hp hpc
    refine h.change (y := .idle) hp h.ring rfl rfl ?_ ?_ ?_ hi (by simp) (by simp) (by simp) ?_ ?_ ?_
    · simp [hpc, Pc.waits]
    · rw [hpc]
      split <;> rfl
    · split <;> rfl
    · intros
      split <;> rfl
    · intro q hq
      have hq : (s.buf i).lock = some q := by
        rw [← hq]
        split <;> rfl
      have hqp : q = p := by simpa [hlock] using hq.symm
      subst hqp
      have hK : K (s.buf i).key := hkey ▸ hk
      refine ⟨hp, ?_, .inl ?_⟩
      · split <;> exact hK
      · split
        · assumption
        · rfl
    · intro j k' hj hbread
      rw [hpc] at hbread
      cases hbread
      exact hj rfl
  | store d hh => exact h.change_idle hh.1 rfl rfl rfl hh.2.1 rfl rfl rfl rfl
  | bwrite hh =>
    rw [bwrite_eq hh]
    exact h.change_idle hh.1 rfl rfl rfl hh.2.1 rfl rfl rfl rfl
  | bpin hh => exact h.change_idle hh.1 rfl rfl rfl hh.2.1 rfl rfl rfl (by simp only; omega)
  | @bunpin p i hp hi hpins hdirty =>
    have hcount := h.count i hi
    exact h.change_idle hp rfl rfl rfl hi rfl rfl rfl (by simp only; omega)
  | @brelse p i hh hwrote =>
    obtain ⟨hp, hi, hlock⟩ := hh
    rw [brelse_eq ⟨hp, hi, hlock⟩]
    refine h.change (y := .brelse i) hp.1 h.ring rfl rfl ?_ ?_ rfl hi (by simp) (by simp) ?_ ?_ (by simp) (by simp [hp.2])
    · intro j hj
      simp [hp.2, Pc.waits, Ne.symm hj]
    · simp only [hp.2, hlock, Pc.waits, if_true, Option.isSome_none, Option.isSome_some, Bool.toNat_true,
        Bool.toNat_false]
    · intro j hj
      cases hj
      rfl
    · intro q k hq hqp hq'
      have := (h.reading q i k hq hq').2.2.2
      rw [hlock] at this
      cases this
      exact absurd rfl hqp
  | @brelseRest p i hp hpc =>
    have hi := h.leaving p i hp hpc
    have hring : (brelseRest s p i).Ringed := by
      unfold Bio.brelseRest
      simp only
      split
      · exact ringed_toFront h.ring hi
      · exact h.ring
    have hcount := h.count i hi
    have hle : (s.pc p).waits i ≤ tally nproc (Pc.waits i) s.pc := le_tally hp
    obtain ⟨links, heq⟩ := brelseRest_eq s p i
    rw [heq] at hring ⊢
    rw [hpc] at hle
    simp only [Pc.waits, if_true] at hle
    refine h.change (y := .idle) hp hring rfl rfl ?_ ?_ rfl hi (by simp) (by simp) (by simp) (fun _ _ _ _ _ => rfl) ?_ ?_
    · intro j hj
      simp [hpc, Pc.waits, Ne.symm hj]
    · simp only [hpc, Pc.waits, if_true]
      omega
    · exact fun q hq => h.still_locked rfl (by simp [hpc]) hi hq
    · simp [hpc]

theorem key_update {i j : Nat} {b : Buf β} (hbuf : t.buf = update s.buf j b) (hkey : b.key = (s.buf j).key) :
    (t.buf i).key = (s.buf i).key := by
  rw [hbuf]
  by_cases hij : i = j
  · rw [hij, update_self, hkey]
  · rw [update_of_ne hij]

/-- A buffer that is referred to keeps its block. -/
theorem Step.keeps_block (h : Step K s t) {i : Nat} (href : 0 < (s.buf i).refcnt) : (t.buf i).key = (s.buf i).key := by
  cases h with
  | panic x => rfl
  | hit | acquiresleep | store | bpin | bunpin => exact key_update rfl rfl
  | @recycle p j k hp hk hj hmiss hzero =>
    have hij : i ≠ j := by
      rintro rfl
      omega
    rw [buf_other hij]
  | bread => exact key_update rfl (by split <;> rfl)
  | bwrite hh =>
    rw [bwrite_eq hh]
    exact key_update rfl rfl
  | brelse hh =>
    rw [brelse_eq hh]
    exact key_update rfl rfl
  | @brelseRest p j =>
    obtain ⟨links, heq⟩ := brelseRest_eq s p j
    rw [heq]
    exact key_update rfl rfl

theorem refs_binit (disk : Nat → β) : Refs K (binit disk) where
  ring := ringed_binit disk
  unique _ _ _ _ h := absurd rfl h
  count i _ := by
    have : tally nproc (Pc.waits i) (binit disk).pc = 0 := tally_eq_zero.mpr fun _ _ => rfl
    rw [this]
    rfl
  getting _ _ _ _ h := by cases h
  reading _ _ _ _ h := by cases h
  leaving _ _ _ h := by cases h
  locked _ _ _ h := by cases h

theorem refs_reached {disk : Nat → β} (hs : Reached disk K s) : Refs K s :=
  hs.inv (refs_binit disk) fun _ _ _ h hok ht => h.step (step_of_act h.ring hok ht)

end Xv6.Bio
