/-
  Xv6.Log.CrashAtomic — the redo log's crash atomicity (see `Xv6.Log.Recovery`).
-/

import Xv6.Log.Recovery

namespace Xv6.Log.Recovery

open Xv6.Lib Xv6.Lib.Crash

/-! ## The header block round trip -/

theorem le32_putBlocks_before (xs : List Nat) : ∀ (b : Block) (i o : Nat), o + 4 ≤ 4 * (i + 1) →
    le32 (putBlocks b i xs) o = le32 b o := by
  induction xs with
  | nil => intro b i o _; rfl
  | cons x xs ih =>
    intro b i o h
    simp only [putBlocks]
    rw [ih _ _ _ (by omega), le32_put32_ne _ _ (by omega)]

theorem le32_putBlocks (xs : List Nat) : ∀ (b : Block) (i j : Nat), j < xs.length →
    le32 (putBlocks b i xs) (4 * (i + j + 1)) = xs.getD j 0 % 2 ^ 32 := by
  induction xs with
  | nil => intro b i j h; simp at h
  | cons x xs ih =>
    intro b i j h
    simp only [putBlocks]
    cases j with
    | zero => rw [le32_putBlocks_before _ _ _ _ (by omega)]; simp
    | succ j =>
      have := ih (put32 b (4 * (i + 1)) x) (i + 1) j (by simpa using h)
      rw [show 4 * (i + (j + 1) + 1) = 4 * (i + 1 + j + 1) by omega, this, List.getD_cons_succ]

theorem headN_putHead (b : Block) (lh : List Nat) (h : lh.length < 2 ^ 31) : headN (putHead b lh) = lh.length := by
  unfold headN putHead
  rw [le32_putBlocks_before _ _ _ _ (by omega), le32_put32_same, Nat.mod_eq_of_lt (by omega), toInt32_small h]

theorem getHead_putHead (b : Block) (lh : List Nat) (h : lh.length < 2 ^ 31) (hb : ∀ x ∈ lh, x < 2 ^ 32) :
    getHead (putHead b lh) = lh := by
  unfold getHead
  rw [headN_putHead b lh h, Int.toNat_natCast]
  apply List.ext_getElem (by simp)
  intro j h1 h2
  have hj := le32_putBlocks lh (put32 b 0 lh.length) 0 j h2
  have hx : lh.getD j 0 = lh[j] := by simp [h2]
  rw [hx, Nat.mod_eq_of_lt (hb _ (List.getElem_mem h2))] at hj
  simpa [putHead] using hj

theorem getHead_of_zero {b : Block} (h : headN b = 0) : getHead b = [] := by simp [getHead, h]

/-! ## What one buffer operation does -/

@[simp] theorem bread_ret (b : Nat) (s : St) : (bread b).ret s = s.view b := rfl
@[simp] theorem bread_images (b : Nat) (s : St) : (bread b).images s = [] := rfl
@[simp] theorem bread_disk (b : Nat) (s : St) : ((bread b).post s).disk = s.disk := rfl
@[simp] theorem bread_lh (b : Nat) (s : St) : ((bread b).post s).lh = s.lh := rfl

@[simp] theorem bread_view (b : Nat) (s : St) : ((bread b).post s).view = s.view := by
  funext c
  show (Function.update s.cache b (some (s.view b)) c).getD (s.disk c) = s.view c
  by_cases e : c = b
  · subst e; simp
  · rw [Function.update_of_ne e]; rfl

/-- A buffer filled and written: the block, in the cache and on disk. -/
theorem store_post (z : Nat) (v : Block) (s : St) :
    let s' := (do setData z v; bwrite z : Prog Unit).post s
    s'.lh = s.lh ∧ s'.disk = Function.update s.disk z v ∧ s'.view = Function.update s.view z v := by
  have hv : ((setData z v).post s).view z = v := by simp [setData, St.view]
  refine ⟨rfl, ?_, ?_⟩
  · show Function.update s.disk z (((setData z v).post s).view z) = _
    rw [hv]
  · funext c
    show (Function.update s.cache z (some v) c).getD (Function.update s.disk z (((setData z v).post s).view z) c) = _
    by_cases e : c = z
    · subst e; simp
    · rw [Function.update_of_ne e, Function.update_of_ne e, Function.update_of_ne e]; rfl

variable {R T : List Nat → Disk → Disk → Prop} {C : Disk → Prop} {d : Disk} {s : St} {L : Area}

/-- Two buffers read, a third filled from them and written: `h` is told exactly what the
    header list, the disk and the buffers' contents become. -/
theorem copy_triple {x y z : Nat} {f : Block → Block → Block}
    (h : ∀ l d v, R l d v → T l (Function.update d z (f (v x) (v y))) (Function.update v z (f (v x) (v y))) ∧
      C (Function.update d z (f (v x) (v y)))) :
    Triple (fun s : St => R s.lh s.disk s.view)
      (do let a ← bread x; let c ← bread y; setData z (f a c); bwrite z : Prog Unit)
      (fun _ s => T s.lh s.disk s.view) C := by
  intro s hs
  let s2 := (bread y).post ((bread x).post s)
  have hv : s2.view = s.view := by simp [s2]
  have hr : (bread y).ret ((bread x).post s) = s.view y := by simp
  obtain ⟨h1, h2, h3⟩ := store_post z (f (s.view x) (s.view y)) s2
  obtain ⟨hq, hc⟩ := h s.lh s.disk s.view hs
  have hpost : (do let a ← bread x; let c ← bread y; setData z (f a c); bwrite z : Prog Unit).post s =
      (do setData z (f (s.view x) (s.view y)); bwrite z : Prog Unit).post s2 := by
    show (do setData z (f (s.view x) ((bread y).ret ((bread x).post s))); bwrite z : Prog Unit).post s2 = _
    rw [hr]
  rw [hv] at h3
  have hd : ((do setData z (f (s.view x) (s.view y)); bwrite z : Prog Unit).post s2).disk =
      Function.update s.disk z (f (s.view x) (s.view y)) := h2
  refine ⟨?_, fun d hm => ?_⟩
  · show T _ _ _
    rw [hpost, h1, h3, hd]; exact hq
  · have : d = ((do let a ← bread x; let c ← bread y; setData z (f a c); bwrite z : Prog Unit).post s).disk := by
      simpa [setData, bwrite] using hm
    rw [this, hpost, hd]; exact hc

/-- `write_head`: the header block becomes the list in memory. -/
theorem writeHead_triple (L : Area)
    (h : ∀ l d v, R l d v → T l (Function.update d L.start (putHead (v L.start) l))
        (Function.update v L.start (putHead (v L.start) l)) ∧
      C (Function.update d L.start (putHead (v L.start) l))) :
    Triple (fun s : St => R s.lh s.disk s.view) (writeHead L) (fun _ s => T s.lh s.disk s.view) C := by
  intro s hs
  obtain ⟨h1, h2, h3⟩ := store_post L.start (putHead (s.view L.start) s.lh) ((bread L.start).post s)
  rw [bread_view] at h3
  obtain ⟨hq, hc⟩ := h s.lh s.disk s.view hs
  refine ⟨?_, fun d hm => ?_⟩
  · have hpost : (writeHead L).post s = (do setData L.start (putHead (s.view L.start) s.lh); bwrite L.start :
        Prog Unit).post ((bread L.start).post s) := rfl
    show T _ _ _
    rw [hpost, h1, h2, h3]; exact hq
  · have : d = ((do setData L.start (putHead (s.view L.start) s.lh); bwrite L.start : Prog Unit).post
        ((bread L.start).post s)).disk := by simpa [writeHead, setData, bwrite] using hm
    rw [this, h2]; exact hc

/-! ## The phases of a commit -/

/-- A block outside the log area. -/
def Home (L : Area) (b : Nat) : Prop := b < L.start ∨ L.start + L.size ≤ b

/-- What `log_write` leaves in `log.lh`: at most `LOGSIZE` and `log.size - 1` block numbers,
    distinct, none of them in the log. -/
structure Recorded (L : Area) (lh : List Nat) : Prop where
  fits : lh.length ≤ logsize
  room : lh.length ≤ L.size - 1
  nodup : lh.Nodup
  home : ∀ b ∈ lh, Home L b
  uint : ∀ b ∈ lh, b < 2 ^ 32

/-- Home blocks as in `d0`, nothing committed. -/
structure Intact (L : Area) (d0 d : Disk) : Prop where
  head : headN (d L.start) = 0
  home : ∀ b, Home L b → d b = d0 b

/-- The transaction `l` with contents `V` is committed: the header lists it, the slots hold
    it, and the blocks it does not write are as in `d0`. -/
structure Logged (L : Area) (l : List Nat) (V d0 d : Disk) : Prop where
  head : getHead (d L.start) = l
  slots : ∀ j < l.length, d (L.start + j + 1) = V (l.getD j 0)
  rest : ∀ b, Home L b → b ∉ l → d b = d0 b

/-- `d0` with the transaction's blocks replaced. -/
def installed (l : List Nat) (V d0 : Disk) : Disk := fun b => if b ∈ l then V b else d0 b

section Phases

variable {L : Area} {l : List Nat} {V d0 : Disk}

theorem Recorded.getD_mem {j : Nat} (h : j < l.length) : l.getD j 0 ∈ l := by
  have : l.getD j 0 = l[j] := by simp [h]
  rw [this]; exact List.getElem_mem h

theorem home_ne_start {b : Nat} (h : Home L b) : b ≠ L.start := by
  have := L.pos
  unfold Home at h; omega

theorem home_ne_slot {b j n : Nat} (hj : j < n) (hn : n ≤ L.size - 1) (h : Home L b) : b ≠ L.start + j + 1 := by
  unfold Home at h; omega

/-- `write_log` copies the cached blocks to the slots; nothing is committed yet. -/
theorem writeLog_triple (hr : Recorded L l) :
    Triple (fun s => s.lh = l ∧ Intact L d0 s.disk ∧ s.view = V) (writeLog L)
      (fun _ s => s.lh = l ∧ Intact L d0 s.disk ∧ (∀ b, Home L b → s.view b = V b) ∧
        ∀ j < l.length, s.disk (L.start + j + 1) = V (l.getD j 0) ∧ s.view (L.start + j + 1) = V (l.getD j 0))
      (Intact L d0) := by
  -- before turn `i` the first `i` slots are written, and no home block has changed
  let I : Nat → List Nat → Disk → Disk → Prop := fun i lh d v => lh = l ∧ Intact L d0 d ∧
    (∀ b, Home L b → v b = V b) ∧ ∀ j < i, d (L.start + j + 1) = V (l.getD j 0) ∧ v (L.start + j + 1) = V (l.getD j 0)
  have body : ∀ i, i < l.length → Triple (fun s : St => I i s.lh s.disk s.view)
      (do let _to ← bread (L.start + i + 1)
          let frm ← bread (l.getD i 0)
          setData (L.start + i + 1) frm
          bwrite (L.start + i + 1) : Prog Unit) (fun _ s => I (i + 1) s.lh s.disk s.view) (Intact L d0) := by
    intro i hi
    refine copy_triple (f := fun _ c => c) fun lh d v ⟨hl, hint, hv, hslot⟩ => ?_
    have hsrc : v (l.getD i 0) = V (l.getD i 0) := hv _ (hr.home _ (Recorded.getD_mem hi))
    have hroom := hr.room
    have hint' : Intact L d0 (Function.update d (L.start + i + 1) (v (l.getD i 0))) := by
      refine ⟨?_, fun b hb => ?_⟩
      · rw [Function.update_of_ne (by omega)]; exact hint.head
      · rw [Function.update_of_ne (home_ne_slot hi hroom hb)]; exact hint.home b hb
    refine ⟨⟨hl, hint', fun b hb => ?_, fun j hj => ?_⟩, hint'⟩
    · rw [Function.update_of_ne (home_ne_slot hi hroom hb)]; exact hv b hb
    · by_cases e : j = i
      · subst e; rw [Function.update_self, Function.update_self, hsrc]; exact ⟨rfl, rfl⟩
      · rw [Function.update_of_ne (by omega), Function.update_of_ne (by omega)]
        exact hslot j (by omega)
  intro s ⟨hl, hint, hv⟩
  have := Triple.loop (I := fun i s => I i s.lh s.disk s.view) l.length body s
    ⟨hl, hint, fun b _ => by rw [hv], fun j hj => absurd hj (by omega)⟩
  subst hl
  exact this

/-- `install_trans` copies the slots home; a cut leaves the transaction committed. -/
theorem installTrans_triple (hr : Recorded L l) :
    Triple (fun s => s.lh = l ∧ Logged L l V d0 s.disk ∧ ∀ j < l.length, s.view (L.start + j + 1) = V (l.getD j 0))
      (installTrans L)
      (fun _ s => s.lh = l ∧ Logged L l V d0 s.disk ∧ ∀ b ∈ l, s.disk b = V b) (Logged L l V d0) := by
  let I : Nat → List Nat → Disk → Disk → Prop := fun i lh d v => lh = l ∧ Logged L l V d0 d ∧
    (∀ j < l.length, v (L.start + j + 1) = V (l.getD j 0)) ∧ ∀ j < i, d (l.getD j 0) = V (l.getD j 0)
  have body : ∀ i, i < l.length → Triple (fun s : St => I i s.lh s.disk s.view)
      (do let lbuf ← bread (L.start + i + 1)
          let _dbuf ← bread (l.getD i 0)
          setData (l.getD i 0) lbuf
          bwrite (l.getD i 0) : Prog Unit) (fun _ s => I (i + 1) s.lh s.disk s.view) (Logged L l V d0) := by
    intro i hi
    refine copy_triple (f := fun a _ => a) fun lh d v ⟨hl, hlog, hv, hdone⟩ => ?_
    have hroom := hr.room
    have hhome := hr.home _ (Recorded.getD_mem hi)
    have hsrc : v (L.start + i + 1) = V (l.getD i 0) := hv i hi
    have hlog' : Logged L l V d0 (Function.update d (l.getD i 0) (v (L.start + i + 1))) := by
      refine ⟨?_, fun j hj => ?_, fun b hb hm => ?_⟩
      · rw [Function.update_of_ne (home_ne_start hhome).symm]; exact hlog.head
      · rw [Function.update_of_ne (home_ne_slot hj hroom hhome).symm]; exact hlog.slots j hj
      · have : b ≠ l.getD i 0 := fun e => hm (e ▸ Recorded.getD_mem hi)
        rw [Function.update_of_ne this]; exact hlog.rest b hb hm
    refine ⟨⟨hl, hlog', fun j hj => ?_, fun j hj => ?_⟩, hlog'⟩
    · rw [Function.update_of_ne (home_ne_slot hj hroom hhome).symm]; exact hv j hj
    · by_cases e : l.getD j 0 = l.getD i 0
      · rw [e, Function.update_self, hsrc]
      · rw [Function.update_of_ne e]
        exact hdone j (by have : j ≠ i := fun h => e (h ▸ rfl); omega)
  intro s ⟨hl, hlog, hv⟩
  have := Triple.loop (I := fun i s => I i s.lh s.disk s.view) l.length body s
    ⟨hl, hlog, hv, fun j hj => absurd hj (by omega)⟩
  subst hl
  refine ⟨⟨this.1.1, this.1.2.1, fun b hb => ?_⟩, this.2⟩
  obtain ⟨j, hj, rfl⟩ := List.getElem_of_mem hb
  have hx := this.1.2.2.2 j hj
  have hg : s.lh.getD j 0 = s.lh[j] := by simp [hj]
  rw [hg] at hx
  exact hx

theorem putHead_nil_intact {d : Disk} {b : Block} (h : ∀ b, Home L b → d b = d0 b) :
    Intact L d0 (Function.update d L.start (putHead b [])) := by
  refine ⟨?_, fun c hc => ?_⟩
  · rw [Function.update_self, headN_putHead _ _ (by simp)]; rfl
  · rw [Function.update_of_ne (home_ne_start hc)]; exact h c hc

/-- The log erased once everything is home. -/
theorem erase_triple :
    Triple (fun s => Logged L l V d0 s.disk ∧ ∀ b ∈ l, s.disk b = V b)
      (do clearHead; writeHead L : Prog Unit) (fun _ s => Intact L (installed l V d0) s.disk)
      (Intact L (installed l V d0)) := by
  refine Triple.bind (R := fun _ s => s.lh = [] ∧ ∀ b, Home L b → s.disk b = installed l V d0 b)
    (Triple.modify fun s ⟨hlog, hin⟩ => ⟨rfl, fun b hb => ?_⟩) fun _ => ?_
  · by_cases e : b ∈ l
    · simp only [installed, e, if_true]; exact hin b e
    · simp only [installed, e, if_false]; exact hlog.rest b hb e
  · refine writeHead_triple L (R := fun lh d _ => lh = [] ∧ ∀ b, Home L b → d b = installed l V d0 b)
      (T := fun _ d _ => Intact L (installed l V d0) d) fun lh d v ⟨hl, hd⟩ => ?_
    subst hl
    exact ⟨putHead_nil_intact hd, putHead_nil_intact hd⟩

theorem Intact.logged {d : Disk} (h : Intact L d0 d) : Logged L [] V d0 d :=
  ⟨getHead_of_zero h.head, fun j hj => absurd hj (by simp), fun b hb _ => h.home b hb⟩

/-- One run of recovery over a committed transaction: complete, it installs it; cut, it
    leaves it committed or installed. -/
theorem recover_logged (hr : Recorded L l) {d : Disk} (h : Logged L l V d0 d) :
    Intact L (installed l V d0) ((recoverFromLog L).post (reboot d)).disk ∧
      ∀ d' ∈ crashPoints St.disk (recoverFromLog L) (reboot d),
        Logged L l V d0 d' ∨ Intact L (installed l V d0) d' := by
  have ht : Triple (fun s => s = reboot d) (recoverFromLog L) (fun _ s => Intact L (installed l V d0) s.disk)
      (fun d' => Logged L l V d0 d' ∨ Intact L (installed l V d0) d') := by
    refine Triple.bind (R := fun _ s => s.lh = l ∧ Logged L l V d0 s.disk ∧
      ∀ j < l.length, s.view (L.start + j + 1) = V (l.getD j 0)) ?_ fun _ => ?_
    · rintro s rfl
      refine ⟨⟨h.head, h, fun j hj => ?_⟩, fun d' hd => absurd hd (by simp [readHead])⟩
      show ((bread L.start).post (reboot d)).view (L.start + j + 1) = _
      rw [bread_view]; exact h.slots j hj
    · refine Triple.bind ((installTrans_triple hr).conseq (fun _ h => h) (fun _ _ h => h) fun _ => Or.inl) fun _ => ?_
      exact erase_triple.conseq (fun _ h => h.2) (fun _ _ h => h) fun _ => Or.inr
  exact ⟨(ht _ rfl).1, mem_crashPoints ht rfl (Or.inl h)⟩

/-- Recovery, however often it is cut, ends with the transaction installed. -/
theorem recovers_logged (hr : Recorded L l) {d d' : Disk} (h : Logged L l V d0 d)
    (hrec : Recovers reboot St.disk (recoverFromLog L) d d') : Intact L (installed l V d0) d' := by
  have hnil : Recorded L [] := ⟨Nat.zero_le _, Nat.zero_le _, List.nodup_nil, by simp, by simp⟩
  refine hrec.sound (C := fun d => Logged L l V d0 d ∨ Logged L [] V (installed l V d0) d) ?_ (Or.inl h)
  rintro d (h | h)
  · obtain ⟨h1, h2⟩ := recover_logged hr h
    exact ⟨h1, fun d' hd => (h2 d' hd).imp id Intact.logged⟩
  · obtain ⟨h1, h2⟩ := recover_logged hnil h
    have e : installed [] V (installed l V d0) = installed l V d0 := by funext b; simp [installed]
    rw [e] at h1 h2
    exact ⟨h1, fun d' hd => Or.inr ((h2 d' hd).elim id Intact.logged)⟩

/-- `commit` after `write_log`: from the header write on, the transaction is committed. -/
theorem commitTail_triple (hr : Recorded L l) :
    Triple (fun s => s.lh = l ∧ Intact L d0 s.disk ∧ (∀ b, Home L b → s.view b = V b) ∧
        ∀ j < l.length, s.disk (L.start + j + 1) = V (l.getD j 0) ∧ s.view (L.start + j + 1) = V (l.getD j 0))
      (do writeHead L; installTrans L; clearHead; writeHead L : Prog Unit)
      (fun _ s => Intact L (installed l V d0) s.disk)
      (fun d => Logged L l V d0 d ∨ Intact L (installed l V d0) d) := by
  refine Triple.bind (R := fun _ s => s.lh = l ∧ Logged L l V d0 s.disk ∧
    ∀ j < l.length, s.view (L.start + j + 1) = V (l.getD j 0)) ?_ fun _ => ?_
  · refine (writeHead_triple L
      (R := fun lh d v => lh = l ∧ Intact L d0 d ∧ ∀ j < l.length, d (L.start + j + 1) = V (l.getD j 0) ∧
        v (L.start + j + 1) = V (l.getD j 0))
      (T := fun lh d v => lh = l ∧ Logged L l V d0 d ∧ ∀ j < l.length, v (L.start + j + 1) = V (l.getD j 0))
      fun lh d v ⟨hl, hint, hslot⟩ => ?_).conseq (fun s h => ⟨h.1, h.2.1, h.2.2.2⟩) (fun _ _ h => h) (fun _ => Or.inl)
    subst hl
    have hfits := hr.fits
    have hlog : Logged L lh V d0 (Function.update d L.start (putHead (v L.start) lh)) := by
      refine ⟨?_, fun j hj => ?_, fun b hb _ => ?_⟩
      · rw [Function.update_self]
        exact getHead_putHead _ _ (by simp only [logsize, maxopblocks] at hfits; omega) hr.uint
      · rw [Function.update_of_ne (by omega)]; exact (hslot j hj).1
      · rw [Function.update_of_ne (home_ne_start hb)]; exact hint.home b hb
    refine ⟨⟨rfl, hlog, fun j hj => ?_⟩, hlog⟩
    rw [Function.update_of_ne (by omega)]; exact (hslot j hj).2
  · refine Triple.bind ((installTrans_triple hr).conseq (fun _ h => h) (fun _ _ h => h) fun _ => Or.inl) fun _ => ?_
    exact erase_triple.conseq (fun _ h => h.2) (fun _ _ h => h) fun _ => Or.inr

end Phases

theorem commit_empty (L : Area) (h : s.lh = []) : commit L s = ((), s, []) := by
  have : ¬ s.lh.length > 0 := by simp [h]
  show (if s.lh.length > 0 then _ else pure () : Prog Unit) s = _
  rw [if_neg this]; rfl

theorem commit_eq (L : Area) (h : s.lh ≠ []) :
    commit L s = (do writeLog L; writeHead L; installTrans L; clearHead; writeHead L : Prog Unit) s := by
  have : s.lh.length > 0 := List.length_pos_iff.mpr h
  show (if s.lh.length > 0 then _ else pure () : Prog Unit) s = _
  rw [if_pos this]

theorem writeLog_images_length (L : Area) (s : St) : ((writeLog L).images s).length = s.lh.length :=
  loop_images_length (fun _ _ => rfl) _ _

/-! ## Every crash point -/

/-- The disks a running kernel commits to: `initlog` recovered from any disk whose header
    fits `log.lh`, and each later transaction was committed. Nothing else writes the disk. -/
inductive Mounted (L : Area) : Disk → Prop
  | mount (d : Disk) : headN (d L.start) ≤ logsize → Mounted L ((recoverFromLog L).post (reboot d)).disk
  | commit {s : St} : Mounted L s.disk → Recorded L s.lh → Mounted L ((commit L).post s).disk

theorem recover_clean (L : Area) (d : Disk) : headN (((recoverFromLog L).post (reboot d)).disk L.start) = 0 := by
  have ht : Triple (fun _ : St => True) (do clearHead; writeHead L : Prog Unit)
      (fun _ s => headN (s.disk L.start) = 0) (fun _ => True) := by
    refine Triple.bind (R := fun _ s => s.lh = []) (Triple.modify fun _ _ => rfl) fun _ => ?_
    refine writeHead_triple L (R := fun lh _ _ => lh = []) (T := fun _ d _ => headN (d L.start) = 0) fun lh d v h => ?_
    subst h
    rw [Function.update_self, headN_putHead _ _ (by simp)]
    exact ⟨rfl, trivial⟩
  exact (ht ((installTrans L).post ((readHead L).post (reboot d))) trivial).1

theorem commit_installs (hc : headN (s.disk L.start) = 0)
    (hr : Recorded L s.lh) : Intact L (installed s.lh s.view s.disk) ((commit L).post s).disk := by
  have h0 : Intact L s.disk s.disk := ⟨hc, fun _ _ => rfl⟩
  by_cases e : s.lh = []
  · have : (commit L).post s = s := congrArg (·.2.1) (commit_empty L e)
    rw [this]
    exact ⟨hc, fun b _ => by simp [installed, e]⟩
  · have : (commit L).post s = _ := congrArg (·.2.1) (commit_eq L e)
    rw [this]
    exact (commitTail_triple hr _ (writeLog_triple hr s ⟨rfl, h0, rfl⟩).1).1

theorem mounted_clean (h : Mounted L d) : headN (d L.start) = 0 := by
  induction h with
  | mount d _ => exact recover_clean L d
  | commit _ hr ih => exact (commit_installs ih hr).head

/-- A crash after `k` of the block writes `commit()` makes. -/
theorem commit_crash (hc : headN (s.disk L.start) = 0) (hr : Recorded L s.lh)
    {k : Nat} (hk : (crashPoints St.disk (commit L) s)[k]? = some d) :
    (k ≤ s.lh.length ∧ Intact L s.disk d) ∨ (s.lh.length < k ∧
      (Logged L s.lh s.view s.disk d ∨ Intact L (installed s.lh s.view s.disk) d)) := by
  have h0 : Intact L s.disk s.disk := ⟨hc, fun _ _ => rfl⟩
  by_cases e : s.lh = []
  · have : crashPoints St.disk (commit L) s = [s.disk] := by
      rw [crashPoints, Prog.images, commit_empty L e]
    rw [this] at hk
    obtain ⟨hlt, rfl⟩ := List.getElem?_eq_some_iff.mp hk
    have : k = 0 := by simpa using hlt
    subst this
    exact Or.inl ⟨Nat.zero_le _, h0⟩
  obtain ⟨hpost, himg⟩ := writeLog_triple hr s ⟨rfl, h0, rfl⟩
  have htail := (commitTail_triple hr _ hpost).2
  have hcp : crashPoints St.disk (commit L) s = (s.disk :: (writeLog L).images s) ++
      (do writeHead L; installTrans L; clearHead; writeHead L : Prog Unit).images ((writeLog L).post s) := by
    rw [crashPoints, Prog.images, commit_eq L e]; rfl
  rw [hcp] at hk
  have hlen : (s.disk :: (writeLog L).images s).length = s.lh.length + 1 := by
    rw [List.length_cons, writeLog_images_length]
  -- the first `n + 1` points are before the header write, the others at or after it
  by_cases hle : k ≤ s.lh.length
  · rw [List.getElem?_append_left (by omega)] at hk
    rcases List.mem_cons.mp (List.mem_of_getElem? hk) with rfl | hm
    · exact Or.inl ⟨hle, h0⟩
    · exact Or.inl ⟨hle, himg d hm⟩
  · rw [List.getElem?_append_right (by omega)] at hk
    exact Or.inr ⟨by omega, htail d (List.mem_of_getElem? hk)⟩

/-- Crash atomicity: on any disk a running kernel has, cut `commit()` after `k` block
    writes and let recovery run, itself cut any number of times, until it completes. The
    blocks outside the log then hold the pre-transaction contents if the cut came before
    the header was on disk (the `n` slots come first), and those contents with every
    logged block replaced by its cached data otherwise; the header has n = 0. -/
theorem commit_crash_atomic (L : Area) (s : St) (hm : Mounted L s.disk) (hr : Recorded L s.lh)
    (k : Nat) (d d' : Disk) (hk : (crashPoints St.disk (commit L) s)[k]? = some d)
    (hrec : Recovers reboot St.disk (recoverFromLog L) d d') :
    (k ≤ s.lh.length → ∀ b, Home L b → d' b = s.disk b) ∧
    (s.lh.length < k → ∀ b, Home L b → d' b = if b ∈ s.lh then s.view b else s.disk b) ∧
    headN (d' L.start) = 0 := by
  have hnil : Recorded L [] := ⟨Nat.zero_le _, Nat.zero_le _, List.nodup_nil, by simp, by simp⟩
  have keep : ∀ {D : Disk}, Intact L D d → Intact L D d' := fun {D} h => by
    have := recovers_logged hnil (V := s.view) h.logged hrec
    have e : installed [] s.view D = D := by funext b; simp [installed]
    rwa [e] at this
  rcases commit_crash (mounted_clean hm) hr hk with ⟨hle, h⟩ | ⟨hlt, h⟩
  · exact ⟨fun _ => (keep h).home, fun hlt => absurd hlt (by omega), (keep h).head⟩
  · have hd : Intact L (installed s.lh s.view s.disk) d' := h.elim (fun h => recovers_logged hr h hrec) keep
    exact ⟨fun hle => absurd hle (by omega), fun _ b hb => hd.home b hb, hd.head⟩

/-- The image of a zeroed disk with mkfs's log area, blocks 50 and 60 modified in the cache and recorded. A crash before
    the header is written leaves both as they were; after it, and with one of them installed, both are new. -/
theorem commit_crash_atomic_two_blocks :
    let L : Area := ⟨2, 30, by decide⟩
    let d0 : Disk := ((recoverFromLog L).post (reboot fun _ => zero)).disk
    let s : St := ⟨d0, fun b => if b = 50 then some (fun _ => 7) else if b = 60 then some (fun _ => 8) else none, [50, 60]⟩
    (∃ d, (crashPoints St.disk (commit L) s)[2]? = some d ∧
      ∀ d', Recovers reboot St.disk (recoverFromLog L) d d' → d' 50 = d0 50 ∧ d' 60 = d0 60) ∧
    ∃ d, (crashPoints St.disk (commit L) s)[4]? = some d ∧
      ∀ d', Recovers reboot St.disk (recoverFromLog L) d d' → d' 50 = (fun _ => 7) ∧ d' 60 = fun _ => 8 := by
  intro L d0 s
  have hr : Recorded L s.lh := ⟨by decide, by decide, by simp [s], by simp [s, L, Home], by simp [s]⟩
  have hm : Mounted L s.disk := .mount _ (by decide)
  have h50 : Home L 50 := by simp [L, Home]
  have h60 : Home L 60 := by simp [L, Home]
  refine ⟨⟨_, rfl, fun d' hrec => ?_⟩, ⟨_, rfl, fun d' hrec => ?_⟩⟩
  · have hold := (commit_crash_atomic L s hm hr 2 _ d' rfl hrec).1 (by decide)
    exact ⟨hold 50 h50, hold 60 h60⟩
  · have hnew := (commit_crash_atomic L s hm hr 4 _ d' rfl hrec).2.1 (by decide)
    exact ⟨hnew 50 h50, hnew 60 h60⟩

end Xv6.Log.Recovery
