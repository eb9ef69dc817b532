/-
  Xv6.Virtio.Desc — allocation of descriptors and the chains made of them.

  `alloc3_desc` takes three free descriptors or, having given back those it took, leaves the free
  ones as they were (`alloc3Desc_spec`). A formatted chain is read by the device as the request
  it was made for (`Chain.decode`), and `free_chain` frees its three descriptors
  (`Chain.freeChain`).
-/

import Xv6.Virtio.Driver

namespace Xv6.Virtio

open Lib (update update_self update_of_ne)

variable {d d' : Disk} {i k : Nat} {idx : List Nat}

theorem allocDesc_some (h : allocDesc d = some (i, d')) :
    i < num ∧ d.free i = true ∧ d' = { d with free := update d.free i false } := by
  obtain ⟨j, hj, heq⟩ := Option.map_eq_some_iff.mp h
  obtain ⟨rfl, rfl⟩ := Prod.mk.inj heq
  have hmem := List.mem_of_find?_eq_some hj
  exact ⟨List.mem_range.mp hmem, List.find?_some hj, rfl⟩

/-- Descriptor `i` cleared and marked free. -/
def Disk.clear (d : Disk) (i : Nat) : Disk :=
  { d with desc := update d.desc i ⟨.null, 0, 0, 0⟩, free := update d.free i true }

theorem freeDesc_ok (hi : i < num) (hfree : d.free i = false) : freeDesc d i = .ok (d.clear i) := by
  rw [freeDesc, if_neg (Nat.not_le.mpr hi), if_neg (by simp [hfree])]
  rfl

theorem freeChainFrom_next (hi : i < num) (hfree : d.free i = false) (hflag : (d.desc i).flags &&& fNext ≠ 0) :
    freeChainFrom (k + 1) d i = freeChainFrom k (d.clear i) (d.desc i).next := by
  rw [freeChainFrom, freeDesc_ok hi hfree]
  exact if_pos hflag

theorem freeChainFrom_last (hi : i < num) (hfree : d.free i = false) (hflag : (d.desc i).flags &&& fNext = 0) :
    freeChainFrom (k + 1) d i = .ok (d.clear i) := by
  rw [freeChainFrom, freeDesc_ok hi hfree]
  exact if_neg (not_not.mpr hflag)

/-- Only `free` and descriptors out of use have changed. -/
structure Freed (S : List Nat) (d d' : Disk) : Prop where
  same : ∃ desc free, d' = { d with desc := desc, free := free }
  desc : ∀ i, i ∉ S → d'.desc i = d.desc i
  free : ∀ i, d'.free i = (d.free i || decide (i ∈ S))

theorem Freed.nil (d : Disk) : Freed [] d d := ⟨⟨d.desc, d.free, rfl⟩, fun _ _ => rfl, by simp⟩

theorem freed_one (i : Nat) (d : Disk) :
    Freed [i] d (d.clear i) := by
  refine ⟨⟨_, _, rfl⟩, fun j hj => update_of_ne (by simpa using hj) _ _, fun j => ?_⟩
  by_cases hj : j = i
  · simp [Disk.clear, hj, update_self]
  · simp [Disk.clear, hj, update_of_ne hj]

theorem Freed.trans {S T : List Nat} {d1 d2 d3 : Disk} (h1 : Freed S d1 d2) (h2 : Freed T d2 d3) :
    Freed (S ++ T) d1 d3 where
  same := by
    obtain ⟨e, f, rfl⟩ := h1.same
    obtain ⟨e', f', rfl⟩ := h2.same
    exact ⟨e', f', rfl⟩
  desc i hi := by
    rw [List.mem_append, not_or] at hi
    rw [h2.desc i hi.2, h1.desc i hi.1]
  free i := by simp [h2.free, h1.free, Bool.or_assoc]

theorem freeAll_spec (hnodup : idx.Nodup) (hidx : ∀ i ∈ idx, i < num ∧ d.free i = false) :
    ∃ d', idx.foldlM freeDesc d = .ok d' ∧ Freed idx d d' := by
  induction idx generalizing d with
  | nil => exact ⟨d, rfl, .nil d⟩
  | cons i idx ih =>
    obtain ⟨hi, hnodup⟩ := List.nodup_cons.mp hnodup
    obtain ⟨hlt, hfree⟩ := hidx i List.mem_cons_self
    have hone := freed_one i d
    obtain ⟨d', hfold, hfreed⟩ := ih (d := d.clear i) hnodup fun j hj => by
      have hne : j ≠ i := ne_of_mem_of_not_mem hj hi
      obtain ⟨hjlt, hjfree⟩ := hidx j (List.mem_cons_of_mem _ hj)
      exact ⟨hjlt, (update_of_ne hne _ _).trans hjfree⟩
    refine ⟨d', ?_, hone.trans hfreed⟩
    rw [List.foldlM_cons, freeDesc_ok hlt hfree]
    exact hfold

/-- Descriptors were taken from the free ones. -/
structure Took (new : List Nat) (d d' : Disk) : Prop where
  same : ∃ free, d' = { d with free := free }
  nodup : new.Nodup
  were : ∀ i ∈ new, i < num ∧ d.free i = true
  free : ∀ i, d'.free i = (d.free i && decide (i ∉ new))

/-- Descriptors were given back: what was in use and not among them is as before. -/
structure GaveBack (idx : List Nat) (d d' : Disk) : Prop where
  same : ∃ desc free, d' = { d with desc := desc, free := free }
  desc : ∀ i, d.free i = false → i ∉ idx → d'.desc i = d.desc i
  free : ∀ i, d'.free i = (d.free i || decide (i ∈ idx))

theorem allocLoop_spec (hnodup : idx.Nodup) (hidx : ∀ i ∈ idx, i < num ∧ d.free i = false) :
    (∃ new d', allocLoop k d idx = .ok (d', some (idx ++ new)) ∧ new.length = k ∧ Took new d d') ∨
      ∃ d', allocLoop k d idx = .ok (d', none) ∧ GaveBack idx d d' := by
  induction k generalizing d idx with
  | zero => exact .inl ⟨[], d, by simp [allocLoop], rfl, ⟨d.free, rfl⟩, List.nodup_nil, by simp, by simp⟩
  | succ k ih =>
    rw [allocLoop]
    cases halloc : allocDesc d with
    | none =>
      obtain ⟨d', hfold, hfreed⟩ := freeAll_spec hnodup hidx
      refine .inr ⟨d', ?_, hfreed.same, fun i _ hi => hfreed.desc i hi, hfreed.free⟩
      simp only [hfold, Except.map]
    | some r =>
      obtain ⟨i, d1⟩ := r
      obtain ⟨hlt, hfree, rfl⟩ := allocDesc_some halloc
      simp only at hlt hfree ⊢
      have hi : i ∉ idx := fun hmem => by simpa [hfree] using (hidx i hmem).2
      have hnodup' : (idx ++ [i]).Nodup := by
        rw [(List.perm_append_singleton i idx).nodup_iff, List.nodup_cons]
        exact ⟨hi, hnodup⟩
      have hidx' : ∀ j ∈ idx ++ [i], j < num ∧ update d.free i false j = false := by
        intro j hj
        rcases List.mem_append.mp hj with hj | hj
        · have hne : j ≠ i := ne_of_mem_of_not_mem hj hi
          exact ⟨(hidx j hj).1, (update_of_ne hne _ _).trans (hidx j hj).2⟩
        · rw [List.mem_singleton.mp hj]
          exact ⟨hlt, update_self _ _ _⟩
      rcases ih (d := { d with free := update d.free i false }) hnodup' hidx' with
        ⟨new, d', hloop, hlen, htook⟩ | ⟨d', hloop, hback⟩
      · refine .inl ⟨i :: new, d', by simpa using hloop, by simp [hlen], ?_⟩
        have hnew : i ∉ new := fun hmem => by simpa [update_self] using (htook.were i hmem).2
        exact
          { same := htook.same
            nodup := List.nodup_cons.mpr ⟨hnew, htook.nodup⟩
            were := by
              intro j hj
              rcases List.mem_cons.mp hj with rfl | hj
              · exact ⟨hlt, hfree⟩
              · have hne : j ≠ i := ne_of_mem_of_not_mem hj hnew
                exact ⟨(htook.were j hj).1, (update_of_ne hne _ _).symm.trans (htook.were j hj).2⟩
            free := by
              intro j
              rw [htook.free]
              by_cases hj : j = i
              · simp [hj, update_self]
              · simp [hj, update_of_ne hj] }
      · refine .inr ⟨d', hloop, hback.same, ?_, ?_⟩
        · intro j hj hjidx
          have hne : j ≠ i := fun heq => by simp [← heq, hj] at hfree
          exact hback.desc j ((update_of_ne hne _ _).trans hj) (by simp [hjidx, hne])
        · intro j
          rw [hback.free]
          by_cases hj : j = i
          · simp [hj, hfree]
          · simp [hj, update_of_ne hj]

theorem alloc3Desc_spec (d : Disk) :
    (∃ new d', alloc3Desc d = .ok (d', some new) ∧ new.length = 3 ∧ Took new d d') ∨
      ∃ d', alloc3Desc d = .ok (d', none) ∧ GaveBack [] d d' := by
  have h := allocLoop_spec (k := 3) (d := d) List.nodup_nil (by simp)
  simpa [alloc3Desc] using h

/-! ## Chains -/

/-- The descriptors of `r` are set up for its request. -/
structure Chain (d : Disk) (r : Request) (i0 i1 i2 : Nat) : Prop where
  idx : r.idx = [i0, i1, i2]
  first : d.desc i0 = ⟨.op i0, 16, fNext, i1⟩
  second : d.desc i1 = ⟨.data r.req.buf, 1024, (if r.req.write then 0 else fWrite) ||| fNext, i2⟩
  third : d.desc i2 = ⟨.status i0, 1, fWrite, 0⟩
  op : d.ops i0 = ⟨r.req.write, 0, r.req.sector⟩

variable {r : Request} {i0 i1 i2 : Nat}

theorem chain_format (hidx : r.idx = [i0, i1, i2]) (hnodup : [i0, i1, i2].Nodup) :
    Chain (format d r.req i0 i1 i2) r i0 i1 i2 := by
  simp only [List.nodup_cons, List.mem_cons, List.not_mem_nil, or_false, not_or, not_false_eq_true, List.nodup_nil,
    and_true] at hnodup
  obtain ⟨⟨h01, h02⟩, h12⟩ := hnodup
  exact
    { idx := hidx
      first := (update_of_ne h02 _ _).trans ((update_of_ne h01 _ _).trans (update_self _ _ _))
      second := (update_of_ne h12 _ _).trans (update_self _ _ _)
      third := update_self _ _ _
      op := update_self _ _ _ }

theorem Chain.head (h : Chain d r i0 i1 i2) : r.head = i0 := by
  rw [Request.head, h.idx]
  rfl

/-- The chain stays set up while nobody writes to what it consists of. -/
theorem Chain.congr (h : Chain d r i0 i1 i2) (hdesc : ∀ i ∈ r.idx, d'.desc i = d.desc i)
    (hops : d'.ops r.head = d.ops r.head) : Chain d' r i0 i1 i2 := by
  rw [h.idx] at hdesc
  rw [h.head] at hops
  exact ⟨h.idx, (hdesc i0 (by simp)).trans h.first, (hdesc i1 (by simp)).trans h.second,
    (hdesc i2 (by simp)).trans h.third, hops.trans h.op⟩

/-- The device reads the request that the chain was set up for. -/
theorem Chain.decode (h : Chain d r i0 i1 i2) : decode d r.head = some (r.req, r.head) := by
  rw [h.head, Virtio.decode]
  simp only [h.first, h.second, h.third, h.op]
  simp

theorem Chain.freeChain (h : Chain d r i0 i1 i2) (hnodup : r.idx.Nodup) (hidx : ∀ i ∈ r.idx, i < num ∧ d.free i = false) :
    ∃ d', freeChain d r.head = .ok d' ∧ Freed r.idx d d' := by
  have hi : ∀ j ∈ r.idx, j < num ∧ d.free j = false := hidx
  rw [h.idx] at hi hnodup
  simp only [List.nodup_cons, List.mem_cons, List.not_mem_nil, or_false, not_or, not_false_eq_true, List.nodup_nil,
    and_true] at hnodup
  obtain ⟨⟨h01, h02⟩, h12⟩ := hnodup
  obtain ⟨hlt0, hfree0⟩ := hi i0 (by simp)
  obtain ⟨hlt1, hfree1⟩ := hi i1 (by simp)
  obtain ⟨hlt2, hfree2⟩ := hi i2 (by simp)
  have hd1 : (d.clear i0).desc i1 = d.desc i1 := update_of_ne (Ne.symm h01) _ _
  have hd2 : ((d.clear i0).clear i1).desc i2 = d.desc i2 :=
    (update_of_ne (Ne.symm h12) _ _).trans (update_of_ne (Ne.symm h02) _ _)
  have hf1 : (d.clear i0).free i1 = false := (update_of_ne (Ne.symm h01) _ _).trans hfree1
  have hf2 : ((d.clear i0).clear i1).free i2 = false :=
    (update_of_ne (Ne.symm h12) _ _).trans ((update_of_ne (Ne.symm h02) _ _).trans hfree2)
  have hn0 : (d.desc i0).flags &&& fNext ≠ 0 := by
    rw [h.first]
    simp [fNext]
  have hn1 : ((d.clear i0).desc i1).flags &&& fNext ≠ 0 := by
    rw [hd1, h.second]
    cases r.req.write <;> simp [fNext, fWrite]
  have hn2 : (((d.clear i0).clear i1).desc i2).flags &&& fNext = 0 := by
    rw [hd2, h.third]
    simp [fNext, fWrite]
  refine ⟨((d.clear i0).clear i1).clear i2, ?_, ?_⟩
  · rw [h.head, Virtio.freeChain, num, freeChainFrom_next hlt0 hfree0 hn0, h.first, freeChainFrom_next hlt1 hf1 hn1, hd1,
      h.second, freeChainFrom_last hlt2 hf2 hn2]
  · rw [h.idx]
    exact ((freed_one i0 d).trans (freed_one i1 _)).trans (freed_one i2 _)

end Xv6.Virtio
