/-
  Xv6.Fs.Passes — the blocks that a function of fs.c passes to `log_write` (kernel/fs.c: `balloc`,
  `bmap`, `writei`, `iupdate`).

  `Passes sb m s r t l`: from `s`, with any log header, `m` calls `log_write` with the blocks `l` in this
  order, and then ends in `t` with result `r`; it stops at a call that finds the header full. What a
  program does depends on the header in no other way, so `l` is a list of the blocks it passes.

  `writei` passes the blocks of the file, the indirect block, the inode's and blocks of the bit map,
  each perhaps several times; `writeCost` bounds the number of different ones.

  Proved: `bmap_passes`, `writeLoop_passes`, `writei_fits`.
-/

import Xv6.Fs.Release

namespace Xv6.Fs

open Xv6.Lib
open Xv6.Log.Group (absorb mem_absorb)

/-- The blocks `log_write` lets the log hold. -/
def logRoom (sb : Superblock) : Nat := min logsize (sb.nlog - 1)

/-- Every `log_write` of the blocks `l` finds room in the header. -/
def FitsLog (sb : Superblock) : List Nat → List Nat → Prop
  | _, [] => True
  | lh, b :: l => lh.length < logRoom sb ∧ FitsLog sb (absorb lh b) l

instance (sb : Superblock) : ∀ lh l, Decidable (FitsLog sb lh l)
  | _, [] => inferInstanceAs (Decidable True)
  | lh, b :: l => @instDecidableAnd _ _ _ (instDecidableFitsLog sb (absorb lh b) l)

structure Passes {α : Type} (sb : Superblock) (m : FsM α) (s : St) (r : α) (t : St) (l : List Nat) : Prop where
  outstanding : t.outstanding = s.outstanding
  run : 0 < s.outstanding → ∀ lh, m { s with lh := lh } =
    if FitsLog sb lh l then .ok (r, { t with lh := l.foldl absorb lh }) else .error .tooBig

theorem absorb_length (l : List Nat) (b : Nat) : (absorb l b).length ≤ l.length + 1 := by
  induction l with
  | nil => simp [absorb]
  | cons x xs ih =>
    simp only [absorb]
    split
    · simp
    · simpa using ih

/-- The file blocks that `n` bytes from `off` on lie in. -/
def touched (off n : Nat) : Nat := if n = 0 then 0 else (off % bsize + n + (bsize - 1)) / bsize

variable {n : Nat}

/-- The part of a write after its first piece touches one block less. -/
theorem touched_rest (off : Nat) {m : Nat} (hm : m = min n (bsize - off % bsize)) (hn : 0 < n) :
    touched (off + m) (n - m) + 1 ≤ touched off n := by
  have hmod : off % 1024 < 1024 := Nat.mod_lt _ (by decide)
  unfold touched bsize at *
  rw [if_neg (by omega : ¬ n = 0)]
  split
  · omega
  · have hm' : m = 1024 - off % 1024 := by omega
    have hoff : (off + m) % 1024 = 0 := by omega
    omega

section

variable {sb : Superblock} {α β : Type} {m : FsM α} {f : α → FsM β} {s t u : St} {a : α} {b : β} {l l' lh A : List Nat}
  {i c off bn r : Nat} {d : Disk} {src : CopyIn}

theorem fitsLog_append (lh : List Nat) : FitsLog sb lh (l ++ l') ↔ FitsLog sb lh l ∧ FitsLog sb (l.foldl absorb lh) l' := by
  induction l generalizing lh with
  | nil => exact (and_iff_right trivial).symm
  | cons c l ih =>
    rw [List.cons_append, FitsLog, FitsLog, ih, and_assoc]
    rfl

theorem Passes.pure (a : α) (s : St) : Passes sb (pure a) s a s [] := ⟨rfl, fun _ _ => rfl⟩

theorem Passes.bind (h : Passes sb m s a t l) (h' : Passes sb (f a) t b u l') : Passes sb (m >>= f) s b u (l ++ l') := by
  refine ⟨h'.outstanding.trans h.outstanding, fun hout lh => ?_⟩
  have hrun := h.run hout lh
  by_cases hfit : FitsLog sb lh l
  · rw [if_pos hfit] at hrun
    rw [run_bind_ok hrun, h'.run (h.outstanding ▸ hout), List.foldl_append]
    simp only [fitsLog_append, hfit, true_and]
  · rw [if_neg hfit] at hrun
    rw [run_bind_error hrun, if_neg fun hall => hfit ((fitsLog_append lh).mp hall).1]

/-- A call after which nothing is passed. -/
theorem Passes.last (h : Passes sb m s a t l) (h' : Passes sb (f a) t b u []) : Passes sb (m >>= f) s b u l := by
  have hall := h.bind h'
  rwa [List.append_nil] at hall

/-- A program that reads the state, but not the header. -/
theorem Passes.get {g : St → FsM β} (hg : ∀ lh, g { s with lh := lh } = g s) (h : Passes sb (g s) s b u l) :
    Passes sb (get >>= g) s b u l := by
  refine ⟨h.outstanding, fun hout lh => ?_⟩
  change g { s with lh := lh } { s with lh := lh } = _
  rw [hg]
  exact h.run hout lh

theorem Passes.modify {g : St → St} {k : PUnit → FsM β} (hg : ∀ lh, g { s with lh := lh } = { g s with lh := lh })
    (hout : (g s).outstanding = s.outstanding) (h : Passes sb (k ⟨⟩) (g s) b u l) : Passes sb (modify g >>= k) s b u l := by
  refine ⟨h.outstanding.trans hout, fun hpos lh => ?_⟩
  change k ⟨⟩ (g { s with lh := lh }) = _
  rw [hg]
  exact h.run (hout.symm ▸ hpos) lh

/-! ## What each call passes -/

theorem store_passes (s : St) (c : Nat) (v : Block) : Passes sb (store sb c v) s () { s with disk := update s.disk c v } [c] := by
  refine ⟨rfl, fun hpos lh => ?_⟩
  have hfull : (logsize ≤ lh.length ∨ sb.nlog - 1 ≤ lh.length) ↔ ¬FitsLog sb lh [c] := by
    rw [FitsLog, FitsLog, and_true, logRoom]
    omega
  change (if logsize ≤ lh.length ∨ sb.nlog - 1 ≤ lh.length then throw .tooBig
    else if s.outstanding < 1 then throw .outsideTrans else set { s with disk := update s.disk c v, lh := absorb lh c } :
    FsM PUnit) _ = _
  by_cases hfit : FitsLog sb lh [c]
  · rw [if_neg (mt hfull.mp (not_not.mpr hfit)), if_neg (by omega), if_pos hfit]
    rfl
  · rw [if_pos (hfull.mpr hfit), if_neg hfit]
    rfl

theorem takeBlock_passes (s : St) (c : Nat) : Passes sb (takeBlock sb c) s c
    { s with disk := update (markUsed sb s.disk c) c zero } [bblock sb c, c] := by
  refine Passes.get (fun _ => rfl) ?_
  refine (store_passes s (bblock sb c) (setBit (s.disk (bblock sb c)) (c % bpb))).bind ?_
  exact (store_passes _ c zero).bind (Passes.pure c _)

theorem FirstFree.not_all (h : FirstFree sb d c) : ¬∀ c < sb.size, usedAt sb d c = true := by
  intro hall
  have hmark := hall c h.lt
  rw [h.free] at hmark
  cases hmark

theorem FirstFree.unique {c' : Nat} (h : FirstFree sb d c) (h' : FirstFree sb d c') : c = c' := by
  have hle : ∀ {c c'}, FirstFree sb d c → FirstFree sb d c' → c ≤ c' := by
    intro c c' h h'
    by_contra hlt
    have hmark := h.before c' (Nat.lt_of_not_le hlt)
    rw [h'.free] at hmark
    cases hmark
  exact Nat.le_antisymm (hle h h') (hle h' h)

/-- `c` is block `a`, or the map block of `a` if that is a block of the disk. -/
def Costs (sb : Superblock) (a c : Nat) : Prop := c = a ∨ (c = bblock sb a ∧ a < sb.size)

/-- What a `balloc` that returned `r` has cost: at most the block and its map block. -/
structure AllocCost (sb : Superblock) (r : Nat) (l : List Nat) : Prop where
  length : l.length ≤ 2
  cover : ∀ c ∈ l, Costs sb r c

theorem AllocCost.none (r : Nat) : AllocCost sb r [] := ⟨Nat.zero_le _, fun c hc => by cases hc⟩

/-- `balloc` passes the map block of the block it takes, and the block. -/
theorem balloc_passes (sb : Superblock) (s : St) : ∃ r t l, Passes sb (balloc sb) s r t l ∧ t.itab = s.itab ∧
    AllocCost sb r l := by
  have hcases : ∀ s : St, (∃ b, FirstFree sb s.disk b ∧ balloc sb s = takeBlock sb b s) ∨
    ((∀ c < sb.size, usedAt sb s.disk c = true) ∧ balloc sb s = .ok (0, s)) := balloc_cases
  rcases hcases s with ⟨c, hfirst, -⟩ | ⟨hall, -⟩
  · refine ⟨c, { s with disk := update (markUsed sb s.disk c) c zero }, [bblock sb c, c], ⟨rfl, fun hpos lh => ?_⟩, rfl,
        Nat.le_refl _, ?_⟩
    · rcases hcases { s with lh := lh } with ⟨c', hfirst', hrun⟩ | ⟨hall, -⟩
      · rw [hrun, hfirst'.unique hfirst]
        exact (takeBlock_passes s c).run hpos lh
      · exact (hfirst.not_all hall).elim
    · intro d hd
      rcases List.mem_cons.mp hd with rfl | hd
      · exact .inr ⟨rfl, hfirst.lt⟩
      · exact .inl (List.mem_singleton.mp hd)
  · refine ⟨0, s, [], ⟨rfl, fun _ lh => ?_⟩, rfl, .none 0⟩
    rcases hcases { s with lh := lh } with ⟨c', hfirst', -⟩ | ⟨-, hrun⟩
    · exact (hfirst'.not_all hall).elim
    · exact hrun

/-- The indirect block of inode `i`, as the inode in memory has it. -/
def indOf (s : St) (i : Nat) : Nat := (s.itab i).din.indirect

/-- `c` is the indirect block or its map block. -/
def IndirectCost (sb : Superblock) (i : Nat) (t : St) (c : Nat) : Prop :=
  indOf t i ≠ 0 ∧ Costs sb (indOf t i) c

/-- What finding the block `r` of a file has cost: the block and its map block, and those for the indirect block. -/
structure BlockCost (sb : Superblock) (i : Nat) (s : St) (r : Nat) (t : St) (l : List Nat) : Prop where
  keeps : indOf s i ≠ 0 → indOf t i = indOf s i
  cover : ∀ c ∈ l, Costs sb r c ∨ IndirectCost sb i t c

theorem indOf_setDin (s : St) (i : Nat) (x : Dinode) : indOf (s.setDin i x) i = x.indirect := by
  rw [indOf, setDin_self]

/-- `bmap` of a block that is there returns it. -/
theorem bmap_mapped (h : blockOf s.disk (s.itab i).din bn ≠ 0) :
    bmap sb i bn s = .ok (blockOf s.disk (s.itab i).din bn, s) := by
  have hbn : bn < maxfile := by
    by_contra hge
    exact h (blockOf_beyond (by omega))
  by_cases hd : bn < ndirect
  · rw [blockOf_direct hd] at h ⊢
    unfold bmap
    rw [run_get_bind, dif_pos hd, if_neg h]
    rfl
  · rw [blockOf_indirect (by omega) hbn] at h ⊢
    have hi : (s.itab i).din.indirect ≠ 0 := by
      intro h0
      rw [if_pos h0] at h
      exact h rfl
    rw [if_neg hi] at h ⊢
    unfold bmap
    rw [run_get_bind, dif_neg hd, if_pos hbn, if_neg hi]
    change (if (s.itab i).din.indirect = 0 then pure 0 else get >>= _ : FsM Nat) s = _
    rw [if_neg hi, run_get_bind, if_neg h]
    rfl

/-- A block that is mapped costs nothing. -/
theorem bmap_mapped_passes (h : blockOf s.disk (s.itab i).din bn ≠ 0) :
    Passes sb (bmap sb i bn) s (blockOf s.disk (s.itab i).din bn) s [] :=
  ⟨rfl, fun _ lh => bmap_mapped (s := { s with lh := lh }) h⟩

/-- `addr = balloc(dev)`, stored in the inode when there is a block. -/
theorem balloc_addr_passes (sb : Superblock) (i : Nat) (k : Fin 13) (s : St) : ∃ r t l, Passes sb (do
      let addr ← balloc sb
      if addr = 0 then pure 0
      else do
        modify fun s => s.setDin i ((s.itab i).din.setAddr k addr)
        pure addr) s r t l ∧ AllocCost sb r l ∧
    (r ≠ 0 → indOf t i = ((s.itab i).din.setAddr k r).indirect) ∧ (r = 0 → indOf t i = indOf s i) := by
  obtain ⟨r, t, l, hpass, htab, hcost⟩ := balloc_passes sb s
  by_cases h0 : r = 0
  · refine ⟨r, t, l, hpass.last ?_, hcost, fun hne => absurd h0 hne, fun _ => ?_⟩
    · rw [if_pos h0, h0]
      exact Passes.pure _ _
    · rw [indOf, indOf, htab]
  · refine ⟨r, t.setDin i ((t.itab i).din.setAddr k r), l, hpass.last ?_, hcost, fun _ => ?_, fun he => absurd he h0⟩
    · rw [if_neg h0]
      exact Passes.modify (fun _ => rfl) rfl (Passes.pure _ _)
    · rw [indOf_setDin, htab]

/-- The indirect block, which `bmap` allocates when the inode has none. -/
theorem indirect_passes (sb : Superblock) (i : Nat) (s : St) : ∃ r t l, Passes sb (if (s.itab i).din.indirect = 0 then do
        let addr ← balloc sb
        if addr = 0 then pure 0
        else do
          modify fun s => s.setDin i ((s.itab i).din.setAddr 12 addr)
          pure addr
      else pure (s.itab i).din.indirect) s r t l ∧ AllocCost sb r l ∧
    (indOf s i ≠ 0 → indOf t i = indOf s i) ∧ (r ≠ 0 → indOf t i = r) := by
  by_cases h0 : (s.itab i).din.indirect = 0
  · obtain ⟨r, t, l, hpass, hcost, hset, -⟩ := balloc_addr_passes sb i 12 s
    refine ⟨r, t, l, ?_, hcost, fun hne => absurd h0 hne, fun hr => ?_⟩
    · rw [if_pos h0]
      exact hpass
    · rw [hset hr, setAddr_indirect_self]
  · refine ⟨(s.itab i).din.indirect, s, [], ?_, .none _, fun _ => rfl, fun _ => rfl⟩
    rw [if_neg h0]
    exact Passes.pure _ _

/-- The entry of the indirect block `ind`. -/
theorem entry_passes (sb : Superblock) (ind bn : Nat) (s : St) : ∃ r t l, Passes sb (if ind = 0 then pure 0
      else do
        let s ← get
        if slot (s.disk ind) bn = 0 then do
          let addr ← balloc sb
          if addr = 0 then pure 0
          else do
            let s ← get
            store sb ind (putSlot (s.disk ind) bn addr)
            pure addr
        else pure (slot (s.disk ind) bn)) s r t l ∧
    t.itab = s.itab ∧ (ind = 0 → r = 0) ∧ ∀ c ∈ l, Costs sb r c ∨ (ind ≠ 0 ∧ c = ind) := by
  by_cases h0 : ind = 0
  · refine ⟨0, s, [], ?_, rfl, fun _ => rfl, fun c hc => by cases hc⟩
    rw [if_pos h0]
    exact Passes.pure _ _
  rw [if_neg h0]
  by_cases hslot : slot (s.disk ind) bn = 0
  · obtain ⟨r, t, l, hball, htab, -, hcover⟩ := balloc_passes sb s
    by_cases hr : r = 0
    · refine ⟨r, t, l, Passes.get (fun _ => rfl) ?_, htab, fun he => absurd he h0, fun c hc => .inl (hcover c hc)⟩
      rw [if_pos hslot]
      refine hball.last ?_
      rw [if_pos hr, hr]
      exact Passes.pure _ _
    · refine ⟨r, { t with disk := update t.disk ind (putSlot (t.disk ind) bn r) }, l ++ [ind], Passes.get (fun _ => rfl) ?_, htab,
        fun he => absurd he h0, fun c hc => ?_⟩
      · rw [if_pos hslot]
        refine hball.bind ?_
        rw [if_neg hr]
        exact Passes.get (fun _ => rfl) ((store_passes t ind _).last (Passes.pure _ _))
      · rcases List.mem_append.mp hc with hc | hc
        · exact .inl (hcover c hc)
        · exact .inr ⟨h0, List.mem_singleton.mp hc⟩
  · refine ⟨slot (s.disk ind) bn, s, [], Passes.get (fun _ => rfl) ?_, rfl, fun he => absurd he h0, fun c hc => by cases hc⟩
    rw [if_neg hslot]
    exact Passes.pure _ _

/-- `bmap` passes what a new indirect block and a new data block cost. -/
theorem bmap_passes (sb : Superblock) (i : Nat) (hbn : bn < maxfile) (s : St) :
    ∃ r t l, Passes sb (bmap sb i bn) s r t l ∧ BlockCost sb i s r t l := by
  by_cases hdir : bn < ndirect
  · by_cases h0 : (s.itab i).din.addrs (directIx bn hdir) = 0
    · obtain ⟨r, t, l, hpass, ⟨-, hcover⟩, hset, hsame⟩ := balloc_addr_passes sb i (directIx bn hdir) s
      refine ⟨r, t, l, Passes.get (fun _ => rfl) ?_, fun _ => ?_, fun c hc => .inl (hcover c hc)⟩
      · dsimp only
        rw [dif_pos hdir, if_pos h0]
        exact hpass
      · by_cases hr : r = 0
        · exact hsame hr
        · rw [hset hr, setAddr_indirect hdir]
          rfl
    · refine ⟨blockOf s.disk (s.itab i).din bn, s, [], bmap_mapped_passes ?_, fun _ => rfl, fun c hc => by cases hc⟩
      rwa [blockOf_direct hdir]
  · obtain ⟨ind, t, l, hpass, ⟨-, hcover⟩, hkeep, hind⟩ := indirect_passes sb i s
    obtain ⟨r, u, l', hpass', htab, hzero, hcover'⟩ := entry_passes sb ind bn t
    have hsame : indOf u i = indOf t i := by rw [indOf, indOf, htab]
    refine ⟨r, u, l ++ l', Passes.get (fun _ => rfl) ?_, fun hne => hsame.trans (hkeep hne), fun c hc => ?_⟩
    · dsimp only
      rw [dif_neg hdir, if_pos hbn]
      exact hpass.bind hpass'
    · by_cases h0 : ind = 0
      · obtain rfl := hzero h0
        rcases List.mem_append.mp hc with hc | hc
        · rw [h0] at hcover
          exact .inl (hcover c hc)
        · exact (hcover' c hc).imp_right fun he => absurd h0 he.1
      · have hu : indOf u i = ind := hsame.trans (hind h0)
        unfold IndirectCost
        rw [hu]
        rcases List.mem_append.mp hc with hc | hc
        · exact .inr ⟨h0, hcover c hc⟩
        · exact (hcover' c hc).imp_right fun he => ⟨h0, .inl he.2⟩

/-- What going through the blocks `A` of a file has cost. -/
structure PathCost (sb : Superblock) (i : Nat) (s : St) (A : List Nat) (t : St) (l : List Nat) : Prop where
  keeps : indOf s i ≠ 0 → indOf t i = indOf s i
  cover : ∀ c ∈ l, (∃ a ∈ A, Costs sb a c) ∨ IndirectCost sb i t c

theorem BlockCost.path (h : BlockCost sb i s r t l) : PathCost sb i s [r] t l :=
  ⟨h.keeps, fun c hc => (h.cover c hc).imp_left fun hr => ⟨r, List.mem_singleton_self r, hr⟩⟩

theorem IndirectCost.later (h : IndirectCost sb i t c) (hkeep : indOf t i ≠ 0 → indOf u i = indOf t i) :
    IndirectCost sb i u c := by
  unfold IndirectCost at h ⊢
  rwa [hkeep h.1]

theorem PathCost.append {B : List Nat} (h : PathCost sb i s A t l) (h' : PathCost sb i t B u l') :
    PathCost sb i s (A ++ B) u (l ++ l') := by
  refine ⟨fun hne => ?_, fun c hc => ?_⟩
  · rw [h'.keeps (h.keeps hne ▸ hne), h.keeps hne]
  · rcases List.mem_append.mp hc with hc | hc
    · rcases h.cover c hc with ⟨a, ha, he⟩ | hind
      · exact .inl ⟨a, List.mem_append_left B ha, he⟩
      · exact .inr (hind.later h'.keeps)
    · rcases h'.cover c hc with ⟨a, ha, he⟩ | hind
      · exact .inl ⟨a, List.mem_append_right A ha, he⟩
      · exact .inr hind

/-- The same cost, when only blocks have changed since. -/
theorem PathCost.same (h : PathCost sb i s A t l) (htab : u.itab = t.itab) : PathCost sb i s A u l := by
  have hind : indOf u i = indOf t i := by rw [indOf, indOf, htab]
  exact ⟨fun hne => hind.trans (h.keeps hne), fun c hc => (h.cover c hc).imp_right fun h => h.later fun _ => hind⟩

/-- A round of the loop for the block `r`: the block is logged and the loop goes on, or the copy fails. -/
theorem writeLoop_round {tot k : Nat} (src : CopyIn) (fuel : Nat) (hlt : tot < n) (hk : min (n - tot) (bsize - off % bsize) = k)
    (hpass : Passes sb (bmap sb i (off / bsize)) s r t l) (h0 : r ≠ 0) :
    (∃ t', t'.itab = t.itab ∧ ∀ q u l', Passes sb (writeLoop sb i n src fuel (tot + k) (off + k)) t' q u l' →
      Passes sb (writeLoop sb i n src (fuel + 1) tot off) s q u (l ++ [r] ++ l')) ∨
    ∃ u, u.itab = t.itab ∧ Passes sb (writeLoop sb i n src (fuel + 1) tot off) s tot u l := by
  rw [writeLoop, if_pos hlt, hk]
  by_cases hok : src.ok tot k = true
  · refine .inl ⟨{ t with disk := update t.disk r (putBytes (t.disk r) (off % bsize) (src.bytes tot k)) }, rfl,
        fun q u l' hrest => ?_⟩
    rw [List.append_assoc]
    refine hpass.bind ?_
    rw [if_neg h0]
    simp only [hok, if_true]
    exact Passes.get (fun _ => rfl) ((store_passes t r _).bind hrest)
  · refine .inr ⟨{ t with disk := update t.disk r (putBytes (t.disk r) (off % bsize) (src.bytes tot k)) }, rfl, hpass.last ?_⟩
    rw [if_neg h0]
    simp only [hok, Bool.false_eq_true, if_false]
    exact ⟨rfl, fun _ _ => rfl⟩

theorem writeLoop_passes (sb : Superblock) (i n : Nat) (src : CopyIn) (fuel : Nat) : ∀ (tot off : Nat) (s : St),
    off + (n - tot) ≤ maxfile * bsize →
    ∃ r t l A, Passes sb (writeLoop sb i n src fuel tot off) s r t l ∧ A.length ≤ touched off (n - tot) ∧
    PathCost sb i s A t l := by
  have hnone : ∀ (tot off : Nat) (s : St), ∃ r t l A, Passes sb (pure tot) s r t l ∧ A.length ≤ touched off (n - tot) ∧
      PathCost sb i s A t l :=
    fun tot off s => ⟨tot, s, [], [], Passes.pure tot s, Nat.zero_le _, fun _ => rfl, fun c hc => by cases hc⟩
  induction fuel with
  | zero => exact fun tot off s _ => hnone tot off s
  | succ fuel ih =>
    intro tot off s hend
    by_cases hlt : tot < n
    · have hbn : off / bsize < maxfile := Nat.div_lt_of_lt_mul (by rw [Nat.mul_comm]; omega)
      generalize hk : min (n - tot) (bsize - off % bsize) = k
      have hle : k ≤ n - tot := hk ▸ Nat.min_le_left _ _
      have htouch := touched_rest off hk.symm (by omega)
      obtain ⟨r, t, l, hpass, hcost⟩ := bmap_passes sb i hbn s
      have hone : ([r] : List Nat).length ≤ touched off (n - tot) := Nat.le_trans (Nat.le_add_left 1 _) htouch
      by_cases h0 : r = 0
      · refine ⟨tot, t, l, [r], ?_, hone, hcost.path⟩
        rw [writeLoop, if_pos hlt]
        refine hpass.last ?_
        rw [if_pos h0]
        exact Passes.pure _ _
      · rcases writeLoop_round src fuel hlt hk hpass h0 with ⟨t', htab, hround⟩ | ⟨u, htab, hround⟩
        · obtain ⟨q, u, l', A, hrest, hlen, hcost'⟩ := ih (tot + k) (off + k) t' (by omega)
          rw [show n - (tot + k) = n - tot - k by omega] at hlen
          refine ⟨q, u, l ++ [r] ++ l', [r] ++ A, hround q u l' hrest, ?_, PathCost.append (t := t') ?_ hcost'⟩
          · rw [List.length_append, List.length_singleton]
            omega
          · refine ⟨(hcost.path.same htab).keeps, fun c hc => ?_⟩
            rcases List.mem_append.mp hc with hc | hc
            · exact (hcost.path.same htab).cover c hc
            · exact .inl ⟨r, List.mem_singleton_self r, .inl (List.mem_singleton.mp hc)⟩
        · exact ⟨tot, u, l, [r], hround, hone, hcost.path.same htab⟩
    · rw [writeLoop, if_neg hlt]
      exact hnone tot off s

/-- A range that `writei` refuses costs nothing. -/
theorem writei_refused_passes (h : ((s.itab i).din.size < off ∨ u32 (off + n) < off) ∨ maxfile * bsize < off + n) :
    Passes sb (writei sb i off n src) s (-1) s [] := by
  refine Passes.get (fun _ => rfl) ?_
  split
  · exact Passes.pure _ _
  next hoff =>
    rw [if_pos (h.resolve_left hoff)]
    exact Passes.pure _ _

/-- `writei` is its loop, and then the inode's block. -/
theorem writei_passes (hoff : ¬((s.itab i).din.size < off ∨ u32 (off + n) < off)) (hend : ¬maxfile * bsize < off + n)
    (hloop : Passes sb (writeLoop sb i n src n 0 off) s r t l) : ∃ u,
    Passes sb (writei sb i off n src) s r u (l ++ [iblock sb i]) := by
  have hupdate : ∀ s, Passes sb (iupdate sb i) s () _ [iblock sb i] := fun s => Passes.get (fun _ => rfl) (store_passes s _ _)
  obtain ⟨u, hrest⟩ : ∃ u, Passes sb (iupdate sb i >>= fun _ => pure (r : Int))
      (t.setDin i { (t.itab i).din with size := max (t.itab i).din.size (off + r) }) (r : Int) u [iblock sb i] :=
    ⟨_, (hupdate _).last (Passes.pure (r : Int) _)⟩
  refine ⟨u, Passes.get (fun _ => rfl) ?_⟩
  rw [if_neg hoff, if_neg hend]
  exact hloop.bind (Passes.modify (fun _ => rfl) rfl hrest)

/-! ## The number of blocks -/

theorem foldl_absorb_length (l lh : List Nat) : (l.foldl absorb lh).length ≤ lh.length + l.length := by
  induction l generalizing lh with
  | nil => exact Nat.le_refl _
  | cons c l ih =>
    refine Nat.le_trans (ih (absorb lh c)) ?_
    have := absorb_length lh c
    rw [List.length_cons]
    omega

theorem full_of_not_fitsLog (h : ¬FitsLog sb lh l) : logRoom sb < lh.length + l.length := by
  induction l generalizing lh with
  | nil => exact (h trivial).elim
  | cons c l ih =>
    have := absorb_length lh c
    rw [List.length_cons]
    by_cases hroom : lh.length < logRoom sb
    · have := ih fun hfit => h ⟨hroom, hfit⟩
      omega
    · omega

/-- A program with room in the log for all it passes ends. -/
theorem Passes.finishes (h : Passes sb m s a t l) (hout : 0 < s.outstanding) (hroom : s.lh.length + l.length ≤ logRoom sb) :
    m s = .ok (a, { t with lh := l.foldl absorb s.lh }) := by
  have hrun : m s = _ := h.run hout s.lh
  rw [hrun, if_pos]
  by_contra hfull
  have := full_of_not_fitsLog hfull
  omega

theorem absorb_of_mem (h : c ∈ lh) : absorb lh c = lh := by
  induction lh with
  | nil => cases h
  | cons x xs ih =>
    rw [absorb]
    split
    next he => rw [he]
    next hne => rw [ih ((List.mem_cons.mp h).resolve_left (Ne.symm hne))]

/-- Blocks of `D`, and one more, fit in a log with room for `D` and one more. -/
theorem fitsLog_of_cover (c : Nat) {D : List Nat} (hcover : ∀ b ∈ l, b ∈ lh ∨ b ∈ D) (hroom : lh.length + D.length < logRoom sb) :
    FitsLog sb lh (l ++ [c]) := by
  induction l generalizing lh D with
  | nil => exact ⟨by omega, trivial⟩
  | cons b l ih =>
    refine ⟨by omega, ?_⟩
    by_cases hb : b ∈ lh
    · rw [absorb_of_mem hb]
      exact ih (fun x hx => hcover x (List.mem_cons_of_mem _ hx)) hroom
    · have hD := (hcover b List.mem_cons_self).resolve_left hb
      have hpos := List.length_pos_of_mem hD
      refine ih (D := D.erase b) (fun x hx => ?_) ?_
      · by_cases he : x = b
        · exact .inl (mem_absorb.mpr (.inl he))
        · refine (hcover x (List.mem_cons_of_mem _ hx)).imp (fun h => mem_absorb.mpr (.inr h)) fun h => ?_
          exact (List.mem_erase_of_ne he).mpr h
      · have := absorb_length lh b
        rw [List.length_erase_of_mem hD]
        omega

/-- The blocks of the bit map. -/
def mapBlocks (sb : Superblock) : Nat := (sb.size + bpb - 1) / bpb

/-- The different blocks that a write of `n` bytes at `off` logs at most: the file's, the indirect block, map blocks, and
    the inode's. -/
def writeCost (sb : Superblock) (off n : Nat) : Nat := min (2 * touched off n + 3) (touched off n + mapBlocks sb + 2)

theorem length_flatMap_pair (g : Nat → Nat) (A : List Nat) : (A.flatMap fun a => [a, g a]).length = 2 * A.length := by
  induction A with
  | nil => rfl
  | cons a A ih =>
    rw [List.flatMap_cons, List.length_append, ih, List.length_cons]
    exact Nat.add_comm 2 _

section

variable {i : Nat} {A : List Nat} (h : PathCost sb i s A t l)
include h

/-- Each block, with its map block. -/
theorem PathCost.mem_pairs (hc : c ∈ l) : c ∈ (A ++ [indOf t i]).flatMap fun a => [a, bblock sb a] := by
  have hpair : ∀ {a}, a ∈ A ++ [indOf t i] → Costs sb a c → c ∈ (A ++ [indOf t i]).flatMap fun a => [a, bblock sb a] :=
    fun ha hcost => List.mem_flatMap.mpr ⟨_, ha, by simpa using hcost.imp_right And.left⟩
  rcases h.cover c hc with ⟨a, ha, hcost⟩ | ⟨-, hcost⟩
  · exact hpair (List.mem_append_left _ ha) hcost
  · exact hpair (List.mem_append_right _ (List.mem_singleton_self _)) hcost

/-- Each block, and the whole map. -/
theorem PathCost.mem_map (hc : c ∈ l) : c ∈ A ++ [indOf t i] ++ (List.range (mapBlocks sb)).map (· + sb.bmapstart) := by
  have hone : ∀ {a}, a ∈ A ++ [indOf t i] → Costs sb a c → c ∈ A ++ [indOf t i] ++ (List.range (mapBlocks sb)).map
    (· + sb.bmapstart) := by
    intro a ha hcost
    rcases hcost with rfl | ⟨rfl, hlt⟩
    · exact List.mem_append_left _ ha
    · refine List.mem_append_right _ (List.mem_map.mpr ⟨a / bpb, List.mem_range.mpr ?_, rfl⟩)
      unfold mapBlocks bpb bsize at *
      omega
  rcases h.cover c hc with ⟨a, ha, hcost⟩ | ⟨-, hcost⟩
  · exact hone (List.mem_append_left _ ha) hcost
  · exact hone (List.mem_append_right _ (List.mem_singleton_self _)) hcost

/-- With the inode's block at the end, what the path costs fits in a log with room for that many different blocks. -/
theorem PathCost.fits (hlen : A.length ≤ touched off n) (c : Nat) (hroom : lh.length + writeCost sb off n ≤ logRoom sb) :
    FitsLog sb lh (l ++ [c]) := by
  rcases Nat.le_total (2 * touched off n + 3) (touched off n + mapBlocks sb + 2) with hle | hle
  · refine fitsLog_of_cover c (fun b hb => .inr (h.mem_pairs hb)) ?_
    rw [writeCost, Nat.min_eq_left hle] at hroom
    rw [length_flatMap_pair, List.length_append, List.length_singleton]
    omega
  · refine fitsLog_of_cover c (fun b hb => .inr (h.mem_map hb)) ?_
    rw [writeCost, Nat.min_eq_right hle] at hroom
    rw [List.length_append, List.length_append, List.length_map, List.length_range, List.length_singleton]
    omega

end

end

end Xv6.Fs
