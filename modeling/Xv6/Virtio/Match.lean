/-
  Xv6.Virtio.Match — requests and completions match.

  `Matched` says what holds in every reachable state and of every step from there: the descriptors
  of the requests in flight are disjoint chains, a call returns after the device has carried its own
  request out, the handler clears `b->disk` of the right buffer, no slot of a ring is written while
  it has an entry that was not consumed, and no panic occurs. The ring indices are 16-bit counters
  that wrap; runs may be of any length.
-/

import Xv6.Virtio.Runs

namespace Xv6.Virtio

open Lib (update update_self update_of_ne)

variable {s s' : St} {A U : List Nat} {a : Act} {k : Nat}

/-- The number of entries between two ring indices. -/
def between (start stop : Nat) : Nat := (stop + 2 ^ 16 - start) % 2 ^ 16

structure Matched (s : St) : Prop where
  calm : s.panic = none
  descs : ∀ p r ph, (s.pc p).req = some (r, ph) →
    r.idx.length = 3 ∧ r.idx.Nodup ∧ ∀ i ∈ r.idx, i < num ∧ s.disk.free i = false
  apart : ∀ p p' r r' ph ph', p ≠ p' → (s.pc p).req = some (r, ph) → (s.pc p').req = some (r', ph') →
    r.idx.Disjoint r'.idx ∧ r.serial ≠ r'.serial
  /-- Once formatted, the descriptors are the chain of the request, and the device reads it so. -/
  chain : ∀ p r ph, (s.pc p).req = some (r, ph) → ph ≠ .format →
    (∃ i0 i1 i2, Chain s.disk r i0 i1 i2) ∧ decode s.disk r.head = some (r.req, r.head)
  allFree : (∀ p, (s.pc p).req = none) → ∀ i, s.disk.free i = true
  /-- The device works on heads under which a request was submitted. -/
  pending : ∀ i ∈ s.pending, ∃ p r, (s.pc p).req = some (r, .sent) ∧ r.head = i ∧ s.serial i = r.serial
  /-- No request is completed twice. -/
  once : (s.completed.map Prod.fst).Nodup
  returned : ∀ e ∈ s.returned, e ∈ s.completed
  /-- A call ends after its request was completed. -/
  ends : ∀ a s' p r ph, act s a = some s' → (s.pc p).req = some (r, ph) →
    (∃ ph', (s'.pc p).req = some (r, ph')) ∨ (r.serial, r.req) ∈ s.completed
  /-- `b->disk` is cleared for the request submitted under the head that the handler looks at. -/
  cleared : ∀ a s' b, act s a = some s' → s.bdisk b = true → s'.bdisk b = false →
    ∃ p r, (s.pc p).req = some (r, .sent) ∧ r.head = s.disk.usedRing (s.disk.lookedIdx % num) ∧ r.req.buf = b ∧
      (r.serial, r.req) ∈ s.completed
  /-- And the handler clears it for every entry. -/
  round : ∀ s', s.disk.lookedIdx ≠ s.disk.usedIdx → act s .loop = some s' →
    ∃ p r, (s.pc p).req = some (r, .sent) ∧ r.head = s.disk.usedRing (s.disk.lookedIdx % num) ∧
      s'.bdisk = update s.bdisk r.req.buf false
  avail : ∀ a s' k, act s a = some s' → k < between s.seen s.disk.availIdx →
    s'.disk.availRing ((s.seen + k) % num) = s.disk.availRing ((s.seen + k) % num)
  used : ∀ a s' k, act s a = some s' → k < between s.disk.lookedIdx s.disk.usedIdx →
    s'.disk.usedRing ((s.disk.lookedIdx + k) % num) = s.disk.usedRing ((s.disk.lookedIdx + k) % num)

theorem Inv.cleared {b : Nat} (h : Inv s A U) (hs : Virtio.act s a = some s') (hb : s.bdisk b = true)
    (hb' : s'.bdisk b = false) :
    ∃ p r, (s.pc p).req = some (r, .sent) ∧ r.head = s.disk.usedRing (s.disk.lookedIdx % num) ∧ r.req.buf = b ∧
      (r.serial, r.req) ∈ s.completed := by
  obtain ⟨_, _, -, he⟩ := h.act hs
  rcases he.bdisk with hkeep | ⟨p, r, hp, hhead, hc, hupd⟩
  · rw [hkeep b hb] at hb'
    cases hb'
  · refine ⟨p, r, hp, hhead, ?_, hc⟩
    by_contra hne
    rw [hupd, update_of_ne (Ne.symm hne), hb] at hb'
    cases hb'

/-- `loop` is a round when there is something to look at. -/
theorem Inv.loop_round (h : Inv s A U) (hne : s.disk.lookedIdx ≠ s.disk.usedIdx) (hs : Virtio.act s .loop = some s') :
    s' = intrRound s := by
  have hcalm : ¬s.panic ≠ none := not_not.mpr h.calm
  simp only [Virtio.act, if_neg hcalm, if_neg hne] at hs
  exact (Option.some.inj (Option.ite_none_right_eq_some.mp hs).2).symm

theorem Inv.avail_kept (h : Inv s A U) (hs : Virtio.act s a = some s') (hk : k < between s.seen s.disk.availIdx) :
    s'.disk.availRing ((s.seen + k) % num) = s.disk.availRing ((s.seen + k) % num) := by
  have hlen : between s.seen s.disk.availIdx = A.length := h.reqs.avail.length (by decide)
  rw [hlen] at hk
  obtain ⟨_, _, -, he⟩ := h.act hs
  rcases he.avail with hsame | ⟨p, r, hp, hupd⟩
  · rw [hsame]
  · rw [hupd]
    exact h.reqs.avail.poke_cell (by decide) (h.reqs.avail_room hp (by simp)) r.head hk

theorem Inv.used_kept (h : Inv s A U) (hs : Virtio.act s a = some s') (hk : k < between s.disk.lookedIdx s.disk.usedIdx) :
    s'.disk.usedRing ((s.disk.lookedIdx + k) % num) = s.disk.usedRing ((s.disk.lookedIdx + k) % num) := by
  have hlen : between s.disk.lookedIdx s.disk.usedIdx = U.length := h.reqs.used.length (by decide)
  rw [hlen] at hk
  obtain ⟨_, _, -, he⟩ := h.act hs
  rcases he.used with hsame | ⟨i, hi, hupd⟩
  · rw [hsame]
  · rw [hupd]
    exact h.reqs.used.poke_cell (by decide) (h.reqs.used_room hi) i hk

theorem requests_match (s : St) (hr : Reached s) : Matched s := by
  obtain ⟨A, U, h⟩ := reached_inv hr
  exact
    { calm := h.calm
      descs := h.reqs.idx
      apart := by
        intro p p' r r' ph ph' hne hp hp'
        refine ⟨fun i hi hi' => ?_, fun heq => ?_⟩
        · exact hne (h.reqs.apart p p' r r' ph ph' i hp hp' hi hi')
        · exact hne (h.reqs.numberApart p p' r r' ph ph' hp hp' heq)
      chain := by
        intro p r ph hp hph
        obtain ⟨⟨i0, i1, i2, hc⟩, -⟩ := h.reqs.chain p r ph hp hph
        exact ⟨⟨i0, i1, i2, hc⟩, hc.decode⟩
      allFree := by
        intro hnone i
        by_contra hfree
        obtain ⟨p, r, ph, hp, -⟩ := h.reqs.inUse i (Bool.eq_false_iff.mpr hfree)
        cases (hnone p).symm.trans hp
      pending := by
        intro i hi
        obtain ⟨p, r, hp, hhead, -, hserial, -⟩ := h.reqs.complete hi
        exact ⟨p, r, hp, hhead, hserial⟩
      once := h.reqs.log
      returned := h.reqs.returned
      ends := by
        intro a s' p r ph hs hp
        obtain ⟨_, _, -, he⟩ := h.act hs
        exact he.reqs p r ph hp
      cleared := fun a s' b hs hb hb' => h.cleared hs hb hb'
      round := by
        intro s' hne hs
        obtain ⟨_, p, r, hp, hhead, -, hb, -⟩ := h.round hne
        exact ⟨p, r, hp, hhead, by rw [h.loop_round hne hs, hb]⟩
      avail := fun a s' k hs hk => h.avail_kept hs hk
      used := fun a s' k hs hk => h.used_kept hs hk }

/-- Three processes share the eight descriptors: the third waits for some. The device answers the
second request first. -/
theorem requests_match_demo :
    ∃ s, Reached s ∧ s.returned.map (fun e => e.2.buf) = [11, 10, 12] ∧ Matched s := by
  have hrun : ((Lib.run act initial (
      [.rw 0 10 5 true, .acquire 0, .step 0, .step 0, .step 0, .step 0, .step 0,
        .rw 1 11 6 false, .acquire 1, .step 1, .step 1, .step 1, .step 1, .step 1,
        .rw 2 12 7 false, .acquire 2, .step 2, .fetch, .fetch, .complete 3, .complete 0, .intr, .loop, .loop, .loop,
        .acquire 1, .step 1, .acquire 0, .step 0,
        .acquire 2, .step 2, .step 2, .step 2, .step 2, .step 2, .fetch, .complete 0, .intr, .loop, .loop,
        .acquire 2, .step 2])).map fun s => s.returned.map fun e => e.2.buf) = some [11, 10, 12] := by
    decide +kernel
  obtain ⟨s, hs, hret⟩ := Option.map_eq_some_iff.mp hrun
  have hr : Reached s := Lib.reach_of_run (fun _ _ _ => trivial) hs
  exact ⟨s, hr, hret, requests_match s hr⟩

end Xv6.Virtio
