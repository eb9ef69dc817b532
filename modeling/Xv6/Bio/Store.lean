/-
  Xv6.Bio.Store — the buffer cache is a plain block store.

  The bytes of a valid buffer are those last stored into its block. A buffer whose bytes have
  not been written to the disk since is pinned, or is with the holder that changed it, so it is
  not recycled; for every other block the disk has the bytes.

  Proved:
  - `cache_is_a_block_store`: the list of buffers is always one ring of all of them, no two
    have the same block, one that is in use keeps its block, and where no two of the blocks
    asked for are the same sectors each `bread` returns what a plain store would.
  - `two_devices_share_the_disk`: it does not when two device numbers are used, for which the
    disk is the same one: one `bread` returns bytes stored under the other device number, and
    another bytes older than those.
-/

import Xv6.Bio.Refs
import Mathlib.Order.Basic
import Mathlib.Data.Set.Function

namespace Xv6.Bio

open Xv6.Lib

variable {β : Type} {disk0 : Nat → β} {K : Key → Prop} {s t : St β}

/-- What the disk has at the start. -/
def start (disk0 : Nat → β) (k : Key) : β := disk0 (sector k)

structure Data (disk0 : Nat → β) (K : Key → Prop) (s : St β) : Prop where
  kept : ∀ i < nbuf, (s.buf i).dirty = true →
    0 < (s.buf i).pins ∨ (s.buf i).lock.isSome = true ∧ (s.buf i).wrote = true
  loaded : ∀ i < nbuf, (s.buf i).dirty = true → (s.buf i).valid = true
  asked : ∀ i < nbuf, (s.buf i).valid = true → K (s.buf i).key
  data : ∀ i < nbuf, (s.buf i).valid = true → (s.buf i).data = latest (start disk0) s.events (s.buf i).key
  disk : ∀ k, K k → (∀ i < nbuf, (s.buf i).key = k → (s.buf i).dirty = false) →
    s.disk (sector k) = latest (start disk0) s.events k
  plain : Plain (start disk0) s.events

section

variable {i p : Nat} {b : Buf β} {k : Key}

/-- One buffer changes, and the rest as far as said. -/
theorem Data.change (h : Data disk0 K s) (hi : i < nbuf) (hbuf : t.buf = update s.buf i b)
    (hkept : b.dirty = true → 0 < b.pins ∨ b.lock.isSome = true ∧ b.wrote = true)
    (hloaded : b.dirty = true → b.valid = true) (hasked : b.valid = true → K b.key)
    (hdata : b.valid = true → b.data = latest (start disk0) t.events b.key)
    (hothers : ∀ j < nbuf, j ≠ i → (s.buf j).valid = true →
      latest (start disk0) t.events (s.buf j).key = latest (start disk0) s.events (s.buf j).key)
    (hdisk : ∀ k, K k → (∀ j < nbuf, j ≠ i → (s.buf j).key = k → (s.buf j).dirty = false) →
      (b.key = k → b.dirty = false) → t.disk (sector k) = latest (start disk0) t.events k)
    (hplain : Plain (start disk0) t.events) : Data disk0 K t := by
  have hself : t.buf i = b := by rw [hbuf, update_self]
  have hother : ∀ j, j ≠ i → t.buf j = s.buf j := fun j hj => by rw [hbuf, update_of_ne hj]
  constructor
  · intro j hj
    by_cases hji : j = i
    · rwa [hji, hself]
    · rw [hother j hji]
      exact h.kept j hj
  · intro j hj
    by_cases hji : j = i
    · rwa [hji, hself]
    · rw [hother j hji]
      exact h.loaded j hj
  · intro j hj
    by_cases hji : j = i
    · rwa [hji, hself]
    · rw [hother j hji]
      exact h.asked j hj
  · intro j hj
    by_cases hji : j = i
    · rwa [hji, hself]
    · intro hv
      rw [hother j hji] at hv ⊢
      rw [hothers j hj hji hv]
      exact h.data j hj hv
  · intro k hk hclean
    refine hdisk k hk (fun j hj hji => ?_) fun hkey => ?_
    · rw [← hother j hji]
      exact hclean j hj
    · have := hclean i hi
      rw [hself] at this
      exact this hkey
  · exact hplain

/-- Neither the block nor the bytes of the buffer change. -/
theorem Data.same (h : Data disk0 K s) (hi : i < nbuf) (hbuf : t.buf = update s.buf i b) (hdisk : t.disk = s.disk)
    (hevents : t.events = s.events) (hkey : b.key = (s.buf i).key) (hvalid : b.valid = (s.buf i).valid)
    (hdata : b.data = (s.buf i).data) (hdirty : b.dirty = (s.buf i).dirty)
    (hkept : b.dirty = true → 0 < b.pins ∨ b.lock.isSome = true ∧ b.wrote = true) : Data disk0 K t := by
  refine h.change hi hbuf hkept ?_ ?_ ?_ ?_ ?_ ?_
  · rw [hdirty, hvalid]
    exact h.loaded i hi
  · rw [hvalid, hkey]
    exact h.asked i hi
  · rw [hvalid, hkey, hdata, hevents]
    exact h.data i hi
  · intros
    rw [hevents]
  · intro k hk hothers hself
    rw [hdisk, hevents]
    refine h.disk k hk fun j hj => ?_
    by_cases hji : j = i
    · rwa [hji, ← hkey, ← hdirty]
    · exact hothers j hj hji
  · rw [hevents]
    exact h.plain

variable (h : Data disk0 K s) (hr : Refs K s) (hdev : ∀ k, K k → k.1 ≠ 0)

include h hr

theorem Data.recycle (hi : i < nbuf) (href : (s.buf i).refcnt = 0) :
    Data disk0 K ((s.setBuf i { s.buf i with dev := k.1, blockno := k.2, valid := false, refcnt := 1, dirty := false,
                                             wrote := false }).goto p (.bget i k)) := by
  obtain ⟨hpins, hlock, -⟩ := hr.unused hi href
  -- the old block is on the disk
  have hclean : (s.buf i).dirty = false := by
    cases hd : (s.buf i).dirty with
    | false => rfl
    | true =>
      have := h.kept i hi hd
      simp [hpins, hlock] at this
  refine h.change hi rfl (by simp) (by simp) (by simp) (by simp) (fun _ _ _ _ => rfl) (fun k' hk' hothers _ => ?_) h.plain
  refine h.disk k' hk' fun j hj => ?_
  by_cases hji : j = i
  · rw [hji, hclean]
    exact fun _ => rfl
  · exact hothers j hj hji

include hdev

theorem Data.bread (hp : p < nproc) (hpc : s.pc p = .bread i k) : Data disk0 K (bread s p i k) := by
  obtain ⟨hi, rfl, hk, hlock⟩ := hr.reading p i k hp hpc
  by_cases hv : (s.buf i).valid = true
  · have hd := h.data i hi hv
    unfold Bio.bread
    simp only [hv, if_true]
    refine h.change hi rfl (h.kept i hi) (h.loaded i hi) (h.asked i hi) (h.data i hi) (fun _ _ _ _ => rfl)
      (fun k' hk' hothers hself => ?_) ⟨hd, h.plain⟩
    refine h.disk k' hk' fun j hj => ?_
    by_cases hji : j = i
    · rwa [hji]
    · exact hothers j hj hji
  · -- nobody has changed the block since it was last written
    have hclean : (s.buf i).dirty = false := by
      cases hd : (s.buf i).dirty with
      | false => rfl
      | true => exact absurd (h.loaded i hi hd) hv
    have hd : s.disk (sector (s.buf i).key) = latest (start disk0) s.events (s.buf i).key := by
      refine h.disk _ hk fun j hj hkey => ?_
      rw [hr.only hdev hi hk hj hkey, hclean]
    unfold Bio.bread
    simp only [hv]
    refine h.change hi rfl ?_ ?_ (fun _ => hk) (fun _ => hd) (fun _ _ _ _ => rfl) (fun k' hk' hothers hself => ?_)
      ⟨hd, h.plain⟩
    · simp [hclean]
    · simp
    · refine h.disk k' hk' fun j hj => ?_
      by_cases hji : j = i
      · rwa [hji]
      · exact hothers j hj hji

theorem Data.store (d : β) (hh : s.holds p i) : Data disk0 K (store s i d) := by
  obtain ⟨hv, hK⟩ := hr.valid_of_holds hh
  obtain ⟨hp, hi, hlock⟩ := hh
  refine h.change hi rfl ?_ (fun _ => hv) (fun _ => hK) ?_ ?_ ?_ h.plain
  · intro _
    exact .inr ⟨by simp [hlock], rfl⟩
  · intro _
    exact latest_store_self.symm
  · intro j hj hji _
    exact latest_store_of_ne fun hkey => hji (hr.only hdev hi hK hj hkey)
  · intro k' hk' hothers hself
    have hne : (s.buf i).key ≠ k' := fun hkey => by simpa using hself hkey
    refine (h.disk k' hk' fun j hj => ?_).trans (latest_store_of_ne hne.symm).symm
    by_cases hji : j = i
    · rw [hji]
      exact fun hkey => absurd hkey hne
    · exact hothers j hj hji

omit hdev in
theorem Data.bwrite (hsec : ∀ k k', K k → K k' → sector k = sector k' → k = k') (hh : s.holds p i) :
    Data disk0 K (bwrite s p i) := by
  obtain ⟨hv, hK⟩ := hr.valid_of_holds hh
  rw [bwrite_eq hh]
  obtain ⟨hp, hi, hlock⟩ := hh
  refine h.change hi rfl (by simp) (by simp) (h.asked i hi) (h.data i hi) (fun _ _ _ _ => rfl)
    (fun k' hk' hothers _ => ?_) h.plain
  by_cases hk : sector k' = sector (s.buf i).key
  · obtain rfl := hsec _ _ hk' hK hk
    exact (update_self _ _ _).trans (h.data i hi hv)
  · refine (update_of_ne hk _ _).trans (h.disk k' hk' fun j hj => ?_)
    by_cases hji : j = i
    · rw [hji]
      intro hkey
      exact absurd (congrArg sector hkey.symm) hk
    · exact hothers j hj hji

end

theorem Data.step (h : Data disk0 K s) (hr : Refs K s) (hdev : ∀ k, K k → k.1 ≠ 0)
    (hsec : ∀ k k', K k → K k' → sector k = sector k' → k = k') (hstep : Step K s t) : Data disk0 K t := by
  cases hstep with
  | panic x => exact ⟨h.kept, h.loaded, h.asked, h.data, h.disk, h.plain⟩
  | hit hp hk hi hkey => exact h.same hi rfl rfl rfl rfl rfl rfl rfl (h.kept _ hi)
  | recycle hp hk hi hmiss href => exact h.recycle hr hi href
  | @acquiresleep p i k hp hpc hlock =>
    have hi := (hr.getting p i k hp hpc).1
    refine h.same hi rfl rfl rfl rfl rfl rfl rfl fun hd => ?_
    have := h.kept i hi hd
    simp only [hlock, Option.isSome_none, Bool.false_eq_true, false_and, or_false] at this
    exact .inl this
  | bread hp hpc => exact h.bread hr hdev hp hpc
  | store d hh => exact h.store hr hdev d hh
  | bwrite hh => exact h.bwrite hr hsec hh
  | bpin hh => exact h.same hh.2.1 rfl rfl rfl rfl rfl rfl rfl fun _ => .inl (Nat.succ_pos _)
  | @bunpin p i hp hi hpins hdirty =>
    refine h.same hi rfl rfl rfl rfl rfl rfl rfl fun hd => .inl ?_
    have := hdirty hd
    show 0 < (s.buf i).pins - 1
    omega
  | @brelse p i hh hwrote =>
    rw [brelse_eq hh]
    refine h.same hh.2.1 rfl rfl rfl rfl rfl rfl rfl fun hd => .inl ?_
    rcases h.kept i hh.2.1 hd with hpins | ⟨-, hw⟩
    · exact hpins
    · exact hwrote hw
  | @brelseRest p i hp hpc =>
    have hi := hr.leaving p i hp hpc
    obtain ⟨links, heq⟩ := brelseRest_eq s p i
    rw [heq]
    exact h.same hi rfl rfl rfl rfl rfl rfl rfl (h.kept i hi)

theorem data_binit : Data disk0 K (binit disk0) where
  kept _ _ h := by cases h
  loaded _ _ h := by cases h
  asked _ _ h := by cases h
  data _ _ h := by cases h
  disk _ _ _ := rfl
  plain := trivial

theorem data_reached (hdev : ∀ k, K k → k.1 ≠ 0) (hsec : ∀ k k', K k → K k' → sector k = sector k' → k = k')
    (hs : Reached disk0 K s) : Data disk0 K s := by
  have hboth : Refs K s ∧ Data disk0 K s := by
    refine hs.inv (I := fun s => Refs K s ∧ Data disk0 K s) ⟨refs_binit disk0, data_binit⟩ fun _ _ _ hi hok ht => ?_
    have hstep := step_of_act hi.1.ring hok ht
    exact ⟨hi.1.step hstep, hi.2.step hi.1 hdev hsec hstep⟩
  exact hboth.2

/-! ## The store -/

/-- **The buffer cache.** In every run that uses it as it is meant to be used, for device numbers from 1. -/
theorem cache_is_a_block_store (hdev : ∀ k, K k → 1 ≤ k.1) (hs : Reached disk0 K s) :
    (∃ l, Ring s.links head l ∧ l.Perm (List.range nbuf)) ∧
    (∀ i j, i < nbuf → j < nbuf → 1 ≤ (s.buf i).dev → (s.buf i).key = (s.buf j).key → i = j) ∧
    (∀ i < nbuf, (s.buf i).refcnt =
      (s.buf i).pins + (s.buf i).lock.isSome.toNat + tally nproc (Pc.waits i) s.pc) ∧
    (∀ a t i, Polite K s a → act s a = some t → 0 < (s.buf i).refcnt → (t.buf i).key = (s.buf i).key) ∧
    ((∀ k k', K k → K k' → sector k = sector k' → k = k') → Plain (start disk0) s.events) := by
  have hr := refs_reached hs
  have hdev' : ∀ k, K k → k.1 ≠ 0 := fun k hk => Nat.one_le_iff_ne_zero.mp (hdev k hk)
  refine ⟨hr.ring, fun i j hi hj hd => hr.unique i j hi hj (by omega), hr.count, fun a t i hok ht => ?_, fun hsec => ?_⟩
  · exact (step_of_act hr.ring hok ht).keeps_block
  · exact (data_reached hdev' hsec hs).plain

/-- One device, as the kernel has it, and blocks whose sector number does not wrap. -/
theorem sector_inj {d : Nat} {k k' : Key} (h : k.1 = d ∧ k.2 < 2 ^ 31) (h' : k'.1 = d ∧ k'.2 < 2 ^ 31)
    (hs : sector k = sector k') : k = k' := by
  have h2 : k.2 = k'.2 := by
    unfold sector at hs
    omega
  exact Prod.ext (h.1.trans h'.1.symm) h2

/-- Process `p` reads block `k`, for which it gets buffer `i`. -/
def readBlock (p : Nat) (k : Key) : List (Act Nat) := [.bread p k, .step p, .step p]

/-- It changes the bytes, writes them and releases the buffer. -/
def writeBack (p i d : Nat) : List (Act Nat) := [.store p i d, .bwrite p i, .brelse p i, .step p]

/-- A block is changed, pinned and released; then it is read, written, unpinned and released, and read again. -/
def logged : List (Act Nat) :=
  readBlock 0 (1, 40) ++ [.store 0 0 7, .bpin 0 0, .brelse 0 0, .step 0] ++
    readBlock 1 (1, 40) ++ [.bwrite 1 0, .bunpin 1 0, .brelse 1 0, .step 1] ++ readBlock 0 (1, 40)

theorem cache_is_a_block_store_logged : ∃ s, Reached (fun _ => 0) (fun k => k.1 = 1 ∧ k.2 < 2 ^ 31) s ∧
    s.events = [.load (1, 40) 7, .load (1, 40) 7, .store (1, 40) 7, .load (1, 40) 0] ∧
    Plain (start fun _ => 0) s.events := by
  have hrun : (run (guarded (fun s a => decide (Polite (fun k => k.1 = 1 ∧ k.2 < 2 ^ 31) s a)) act)
      (binit fun _ => 0) logged).map (fun s => s.events) =
        some [.load (1, 40) 7, .load (1, 40) 7, .store (1, 40) 7, .load (1, 40) 0] := by decide +kernel
  obtain ⟨s, hs, he⟩ := Option.map_eq_some_iff.mp hrun
  have hr : Reached (fun _ => 0) (fun k => k.1 = 1 ∧ k.2 < 2 ^ 31) s :=
    reach_of_guarded (fun _ _ h => of_decide_eq_true h) hs
  obtain ⟨-, -, -, -, hplain⟩ := cache_is_a_block_store (fun k hk => by omega) hr
  exact ⟨s, hr, he, hplain fun k k' => sector_inj⟩

/-- Block 5 is read as device 2, changed and written as device 1, and read as device 2 again; block 6 is changed and
    written as device 1 and read as device 2. -/
def twoDevices : List (Act Nat) :=
  readBlock 0 (2, 5) ++ [.brelse 0 0, .step 0] ++ readBlock 0 (1, 5) ++ writeBack 0 1 7 ++
    readBlock 0 (2, 5) ++ [.brelse 0 0, .step 0] ++ readBlock 0 (1, 6) ++ writeBack 0 2 9 ++ readBlock 0 (2, 6)

/-- **Two devices are one disk.** The history is not that of a store of the blocks of each device, nor that of a store
    of the blocks of one. -/
theorem two_devices_share_the_disk : ∃ s, Reached (fun _ => 0) (fun k => 1 ≤ k.1) s ∧
    ¬ Plain (start fun _ => 0) s.events ∧ ¬ Plain (fun _ => 0) (s.events.map (Event.rename Prod.snd)) := by
  have hrun : (run (guarded (fun s a => decide (Polite (fun k => 1 ≤ k.1) s a)) act)
      (binit fun _ => 0) twoDevices).map (fun s => s.events) =
        some [.load (2, 6) 9, .store (1, 6) 9, .load (1, 6) 0, .load (2, 5) 0, .store (1, 5) 7, .load (1, 5) 0,
          .load (2, 5) 0] := by decide +kernel
  obtain ⟨s, hs, he⟩ := Option.map_eq_some_iff.mp hrun
  refine ⟨s, reach_of_guarded (fun _ _ h => of_decide_eq_true h) hs, ?_, ?_⟩
  · rw [he]
    simp [Plain, latest, start]
  · rw [he]
    simp [Plain, latest, Event.rename]

end Xv6.Bio
