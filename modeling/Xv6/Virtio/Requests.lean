/-
  Xv6.Virtio.Requests — the requests that have descriptors, the rings, and the device.

  `Reqs c A U` is the invariant about them. `A` are the chain heads on the avail ring that the
  device has not taken, `U` those on the used ring that the handler has not looked at; with the
  heads the device works on (`pending`) they are the requests in flight. Each lemma says that one
  kind of change keeps the invariant: three descriptors are taken or given back, a chain is
  formatted, announced and published, the device takes one or finishes one, the handler looks at
  one, a request is cleared away.
-/

import Mathlib.Data.Finset.Card
import Xv6.Lib.Window
import Xv6.Virtio.Desc

namespace Xv6.Virtio

open Lib (update update_self update_of_ne update_cases of_update_eq Queue)

/-- How far a request is; the stages after `avail->idx` was increased are one. -/
inductive Phase
  | format
  | ring
  | index
  | sent
  deriving DecidableEq

def Stage.phase : Stage → Phase
  | .format => .format
  | .ring => .ring
  | .index => .index
  | .wait | .asleep | .woken => .sent

def Pc.req : Pc → Option (Request × Phase)
  | .own r st => some (r, st.phase)
  | _ => none

/-- The state without locks and without the places that do not matter to requests. -/
structure Core where
  disk : Disk
  bdisk : Nat → Bool
  /-- The request of a process, if it has descriptors. -/
  req : Nat → Option (Request × Phase)
  seen : Nat
  pending : List Nat
  requests : Nat
  serial : Nat → Nat
  completed : List (Nat × Req)
  returned : List (Nat × Req)

def St.core (s : St) : Core :=
  ⟨s.disk, s.bdisk, fun p => (s.pc p).req, s.seen, s.pending, s.requests, s.serial, s.completed, s.returned⟩

/-! ## Who has which descriptors -/

structure Descs (free : Nat → Bool) (req : Nat → Option (Request × Phase)) (requests : Nat) : Prop where
  idx : ∀ p r ph, req p = some (r, ph) → r.idx.length = 3 ∧ r.idx.Nodup ∧ ∀ i ∈ r.idx, i < num ∧ free i = false
  apart : ∀ p p' r r' ph ph' i, req p = some (r, ph) → req p' = some (r', ph') → i ∈ r.idx → i ∈ r'.idx → p = p'
  inUse : ∀ i, free i = false → ∃ p r ph, req p = some (r, ph) ∧ i ∈ r.idx
  number : ∀ p r ph, req p = some (r, ph) → r.serial < requests
  numberApart : ∀ p p' r r' ph ph', req p = some (r, ph) → req p' = some (r', ph') → r.serial = r'.serial → p = p'

variable {free : Nat → Bool} {req : Nat → Option (Request × Phase)} {requests n p p' x : Nat} {r r' : Request}
  {ph ph' : Phase} {d : Disk} {new : List Nat}

theorem Request.head_mem (hlen : r.idx.length = 3) : r.head ∈ r.idx := by
  unfold Request.head
  cases hidx : r.idx with
  | nil => simp [hidx] at hlen
  | cons i l => simp

theorem Descs.head_mem (h : Descs free req n) (hp : req p = some (r, ph)) : r.head ∈ r.idx :=
  Request.head_mem (h.idx p r ph hp).1

/-- Different processes have different heads. -/
theorem Descs.head_apart (h : Descs free req n) (hp : req p = some (r, ph)) (hp' : req p' = some (r', ph'))
    (heq : r.head = r'.head) : p = p' :=
  h.apart p p' r r' ph ph' r.head hp hp' (h.head_mem hp) (heq ▸ h.head_mem hp')

/-- Whose request it is after `p` has gone on with its own. -/
theorem move_cases (hx : update req p (some (r, ph)) x = some (r', ph')) :
    x = p ∧ r' = r ∧ ph' = ph ∨ x ≠ p ∧ req x = some (r', ph') := by
  refine (update_cases hx).imp_left fun ⟨hxp, hv⟩ => ⟨hxp, ?_⟩
  rw [Option.some.injEq, Prod.mk.injEq] at hv
  exact ⟨hv.1.symm, hv.2.symm⟩

/-- A process has one request. -/
theorem req_inj (h : req p = some (r, ph)) (h' : req p = some (r', ph')) : r = r' ∧ ph = ph' :=
  Prod.mk.inj (Option.some.inj (h.symm.trans h'))

/-- The requests in flight are those of the others, when `p` has gone on with one that is not. -/
theorem sent_move (hph : ph ≠ .sent) (hx : update req p (some (r, ph)) x = some (r', .sent)) :
    x ≠ p ∧ req x = some (r', .sent) :=
  (move_cases hx).resolve_left fun h => hph h.2.2.symm

/-- A request that goes on keeps its descriptors. -/
theorem Descs.rephase (h : Descs free req n) (hp : req p = some (r, ph)) (ph' : Phase) :
    Descs free (update req p (some (r, ph'))) n := by
  have hback : ∀ {x r1 ph1}, update req p (some (r, ph')) x = some (r1, ph1) → ∃ ph0, req x = some (r1, ph0) := by
    intro x r1 ph1 hx
    rcases move_cases hx with ⟨rfl, rfl, -⟩ | ⟨-, hx⟩
    · exact ⟨ph, hp⟩
    · exact ⟨ph1, hx⟩
  constructor
  · intro x r1 ph1 hx
    obtain ⟨ph0, hx⟩ := hback hx
    exact h.idx x r1 ph0 hx
  · intro x y r1 r2 ph1 ph2 i hx hy
    obtain ⟨ph3, hx⟩ := hback hx
    obtain ⟨ph4, hy⟩ := hback hy
    exact h.apart x y r1 r2 ph3 ph4 i hx hy
  · intro i hi
    obtain ⟨x, r1, ph1, hx, hmem⟩ := h.inUse i hi
    by_cases hxp : x = p
    · subst hxp
      obtain ⟨rfl, -⟩ := req_inj hp hx
      exact ⟨x, r, ph', update_self _ _ _, hmem⟩
    · exact ⟨x, r1, ph1, (update_of_ne hxp _ _).trans hx, hmem⟩
  · intro x r1 ph1 hx
    obtain ⟨ph0, hx⟩ := hback hx
    exact h.number x r1 ph0 hx
  · intro x y r1 r2 ph1 ph2 hx hy
    obtain ⟨ph3, hx⟩ := hback hx
    obtain ⟨ph4, hy⟩ := hback hy
    exact h.numberApart x y r1 r2 ph3 ph4 hx hy

/-- Three free descriptors go to a process that had none. -/
theorem Descs.alloc {d' : Disk} (h : Descs d.free req n) (hp : req p = none) (hlen : new.length = 3) (ht : Took new d d')
    (q : Req) (ph : Phase) : Descs d'.free (update req p (some (⟨q, new, n⟩, ph))) (n + 1) := by
  -- what others have was not free
  have hnew : ∀ x r1 ph1, req x = some (r1, ph1) → ∀ i ∈ r1.idx, i ∉ new := by
    intro x r1 ph1 hx i hi hmem
    have hfree := ((h.idx x r1 ph1 hx).2.2 i hi).2
    rw [(ht.were i hmem).2] at hfree
    cases hfree
  exact
    { idx := by
        intro x r1 ph1 hx
        rcases move_cases hx with ⟨-, rfl, -⟩ | ⟨-, hx⟩
        · exact ⟨hlen, ht.nodup, fun i hi => ⟨(ht.were i hi).1, by simp [ht.free, show i ∈ new from hi]⟩⟩
        · obtain ⟨hl, hn, hi⟩ := h.idx x r1 ph1 hx
          exact ⟨hl, hn, fun i hmem => ⟨(hi i hmem).1, by simp [ht.free, (hi i hmem).2]⟩⟩
      apart := by
        intro x y r1 r2 ph1 ph2 i hx hy hi hi'
        rcases move_cases hx with ⟨rfl, rfl, -⟩ | ⟨-, hxo⟩
        · rcases move_cases hy with ⟨rfl, -, -⟩ | ⟨-, hyo⟩
          · rfl
          · exact absurd hi (hnew y r2 ph2 hyo i hi')
        · rcases move_cases hy with ⟨rfl, rfl, -⟩ | ⟨-, hyo⟩
          · exact absurd hi' (hnew x r1 ph1 hxo i hi)
          · exact h.apart x y r1 r2 ph1 ph2 i hxo hyo hi hi'
      inUse := by
        intro i hi
        by_cases hmem : i ∈ new
        · exact ⟨p, _, ph, update_self _ _ _, hmem⟩
        · have hfree : d.free i = false := by simpa [ht.free, hmem] using hi
          obtain ⟨x, r1, ph1, hx, hir⟩ := h.inUse i hfree
          have hxp : x ≠ p := by
            rintro rfl
            rw [hp] at hx
            cases hx
          exact ⟨x, r1, ph1, (update_of_ne hxp _ _).trans hx, hir⟩
      number := by
        intro x r1 ph1 hx
        rcases move_cases hx with ⟨-, rfl, -⟩ | ⟨-, hx⟩
        · exact Nat.lt_succ_self n
        · exact Nat.lt_succ_of_lt (h.number x r1 ph1 hx)
      numberApart := by
        intro x y r1 r2 ph1 ph2 hx hy heq
        rcases move_cases hx with ⟨rfl, rfl, -⟩ | ⟨-, hxo⟩
        · rcases move_cases hy with ⟨rfl, -, -⟩ | ⟨-, hyo⟩
          · rfl
          · exact absurd heq (h.number y r2 ph2 hyo).ne'
        · rcases move_cases hy with ⟨rfl, rfl, -⟩ | ⟨-, hyo⟩
          · exact absurd heq (h.number x r1 ph1 hxo).ne
          · exact h.numberApart x y r1 r2 ph1 ph2 hxo hyo heq }

/-- The requests of the others, when `p` has none any more. -/
theorem drop_cases (hx : update req p none x = some (r, ph)) : x ≠ p ∧ req x = some (r, ph) := of_update_eq hx nofun

/-- A process gives its descriptors up. -/
theorem Descs.release {free' : Nat → Bool} (h : Descs free req n) (hp : req p = some (r, ph))
    (hfree : ∀ i, free' i = (free i || decide (i ∈ r.idx))) : Descs free' (update req p none) n := by
  exact
    { idx := by
        intro x r1 ph1 hx
        obtain ⟨hxp, hx⟩ := drop_cases hx
        obtain ⟨hl, hn, hi⟩ := h.idx x r1 ph1 hx
        refine ⟨hl, hn, fun i hmem => ⟨(hi i hmem).1, ?_⟩⟩
        have hir : i ∉ r.idx := fun hir => hxp (h.apart x p r1 r ph1 ph i hx hp hmem hir)
        simp [hfree, (hi i hmem).2, hir]
      apart := fun x y r1 r2 ph1 ph2 i hx hy =>
        h.apart x y r1 r2 ph1 ph2 i (drop_cases hx).2 (drop_cases hy).2
      inUse := by
        intro i hi
        rw [hfree, Bool.or_eq_false_iff, decide_eq_false_iff_not] at hi
        obtain ⟨x, r1, ph1, hx, hmem⟩ := h.inUse i hi.1
        have hxp : x ≠ p := by
          rintro rfl
          obtain ⟨rfl, -⟩ := req_inj hp hx
          exact hi.2 hmem
        exact ⟨x, r1, ph1, (update_of_ne hxp _ _).trans hx, hmem⟩
      number := fun x r1 ph1 hx => h.number x r1 ph1 (drop_cases hx).2
      numberApart := fun x y r1 r2 ph1 ph2 hx hy =>
        h.numberApart x y r1 r2 ph1 ph2 (drop_cases hx).2 (drop_cases hy).2 }

/-! ## Requests in flight -/

structure Reqs (c : Core) (A U : List Nat) : Prop extends Descs c.disk.free c.req c.requests where
  chain : ∀ p r ph, c.req p = some (r, ph) → ph ≠ .format →
    (∃ i0 i1 i2, Chain c.disk r i0 i1 i2) ∧ c.disk.infoB r.head = some r.req.buf ∧ c.serial r.head = r.serial
  slot : ∀ p r, c.req p = some (r, .index) → c.disk.availRing (c.disk.availIdx % num) = r.head
  armed : ∀ p r ph, c.req p = some (r, ph) → ph = .ring ∨ ph = .index → c.bdisk r.req.buf = true
  fresh : ∀ p r ph, c.req p = some (r, ph) → ph ≠ .sent → r.serial ∉ c.completed.map Prod.fst
  /-- `b->disk` is 1 as long as the request is in flight. -/
  busy : ∀ p r, c.req p = some (r, .sent) → (c.bdisk r.req.buf = true ↔ r.head ∈ A ++ c.pending ++ U)
  undone : ∀ p r, c.req p = some (r, .sent) → r.head ∈ A ++ c.pending → r.serial ∉ c.completed.map Prod.fst
  done : ∀ p r, c.req p = some (r, .sent) → r.head ∉ A ++ c.pending → (r.serial, r.req) ∈ c.completed
  heads : ∀ h ∈ A ++ c.pending ++ U, ∃ p r, c.req p = some (r, .sent) ∧ r.head = h
  nodup : (A ++ c.pending ++ U).Nodup
  avail : Queue num (2 ^ 16) c.disk.availRing c.seen c.disk.availIdx A
  used : Queue num (2 ^ 16) c.disk.usedRing c.disk.lookedIdx c.disk.usedIdx U
  status : ∀ h ∈ U, c.disk.status h = 0
  log : (c.completed.map Prod.fst).Nodup
  logged : ∀ e ∈ c.completed, e.1 < c.requests
  returned : ∀ e ∈ c.returned, e ∈ c.completed

/-- No two requests are for one buffer. -/
def BufApart (req : Nat → Option (Request × Phase)) : Prop :=
  ∀ p p' r r' ph ph', req p = some (r, ph) → req p' = some (r', ph') → r.req.buf = r'.req.buf → p = p'

variable {c : Core} {A U : List Nat}

/-- Heads are descriptors, so no more than `num` of them are different. -/
theorem length_le_num {l : List Nat} (hnodup : l.Nodup) (hlt : ∀ i ∈ l, i < num) : l.length ≤ num := by
  have hsub : l.toFinset ⊆ Finset.range num := by
    intro i hi
    exact Finset.mem_range.mpr (hlt i (List.mem_toFinset.mp hi))
  have hcard := Finset.card_le_card hsub
  rwa [List.toFinset_card_of_nodup hnodup, Finset.card_range] at hcard

section

variable (h : Reqs c A U)

include h

/-- A request that is not published is not in flight. -/
theorem Reqs.not_flying (hp : c.req p = some (r, ph)) (hph : ph ≠ .sent) : r.head ∉ A ++ c.pending ++ U := by
  intro hmem
  obtain ⟨p', r', hp', heq⟩ := h.heads _ hmem
  obtain rfl := h.head_apart hp hp' heq.symm
  exact hph (req_inj hp hp').2

theorem Reqs.head_lt : ∀ i ∈ A ++ c.pending ++ U, i < num := by
  intro i hi
  obtain ⟨p, r, hp, rfl⟩ := h.heads i hi
  exact ((h.idx p r _ hp).2.2 _ (h.head_mem hp)).1

/-- The avail ring has a free slot for a request that is not published. -/
theorem Reqs.avail_room (hp : c.req p = some (r, ph)) (hph : ph ≠ .sent) : A.length < num := by
  have hnodup : (r.head :: (A ++ c.pending ++ U)).Nodup := List.nodup_cons.mpr ⟨h.not_flying hp hph, h.nodup⟩
  have hle := length_le_num hnodup fun i hi => by
    rcases List.mem_cons.mp hi with rfl | hi
    · exact ((h.idx p r ph hp).2.2 _ (h.head_mem hp)).1
    · exact h.head_lt i hi
  simp only [List.length_cons, List.length_append] at hle
  omega

/-- The used ring has a free slot for a request that the device works on. -/
theorem Reqs.used_room (hx : x ∈ c.pending) : U.length < num := by
  have hle := length_le_num h.nodup h.head_lt
  have hpos := List.length_pos_of_mem hx
  simp only [List.length_append] at hle
  omega

/-- The heads in flight are those of processes other than one that goes on. -/
theorem Reqs.heads_move (hp : ∀ r, c.req p ≠ some (r, .sent)) (v : Option (Request × Phase)) :
    ∀ i ∈ A ++ c.pending ++ U, ∃ x r, update c.req p v x = some (r, .sent) ∧ r.head = i := by
  intro i hi
  obtain ⟨x, r, hx, heq⟩ := h.heads i hi
  have hxp : x ≠ p := by
    rintro rfl
    exact hp r hx
  exact ⟨x, r, (update_of_ne hxp _ _).trans hx, heq⟩

/-- A formatted chain whose entries are not touched. -/
theorem Reqs.chain_same (hx : c.req x = some (r, ph)) (hph : ph ≠ .format) (hdesc : ∀ i ∈ r.idx, d.desc i = c.disk.desc i)
    (hops : d.ops r.head = c.disk.ops r.head) (hinfo : d.infoB r.head = c.disk.infoB r.head) :
    (∃ i0 i1 i2, Chain d r i0 i1 i2) ∧ d.infoB r.head = some r.req.buf ∧ c.serial r.head = r.serial := by
  obtain ⟨⟨i0, i1, i2, hc⟩, hb, hserial⟩ := h.chain x r ph hx hph
  exact ⟨⟨i0, i1, i2, hc.congr hdesc hops⟩, hinfo.trans hb, hserial⟩

/-- A formatted chain is not touched when its request goes on. -/
theorem Reqs.chain_move (hp : c.req p = some (r, ph)) (hph : ph ≠ .format) (ph' : Phase) (hdesc : d.desc = c.disk.desc)
    (hops : d.ops = c.disk.ops) (hinfo : d.infoB = c.disk.infoB) :
    ∀ x r1 ph1, update c.req p (some (r, ph')) x = some (r1, ph1) → ph1 ≠ .format →
      (∃ i0 i1 i2, Chain d r1 i0 i1 i2) ∧ d.infoB r1.head = some r1.req.buf ∧ c.serial r1.head = r1.serial := by
  intro x r1 ph1 hx hph1
  rcases move_cases hx with ⟨rfl, rfl, -⟩ | ⟨-, hx⟩
  · exact h.chain_same hp hph (fun i _ => by rw [hdesc]) (by rw [hops]) (by rw [hinfo])
  · exact h.chain_same hx hph1 (fun i _ => by rw [hdesc]) (by rw [hops]) (by rw [hinfo])

/-! ## Changes by the driver -/

/-- Descriptors that were taken in vain are given back. -/
theorem Reqs.giveBack (hg : GaveBack [] c.disk d) : Reqs { c with disk := d } A U := by
  have hfree : d.free = c.disk.free := by
    funext i
    simp [hg.free]
  have hdesc := hg.desc
  obtain ⟨desc, free, rfl⟩ := hg.same
  simp only at hfree hdesc
  subst hfree
  exact
    { h with
      chain := by
        intro p r ph hp hph
        refine h.chain_same hp hph (fun i hi => ?_) rfl rfl
        exact hdesc i ((h.idx p r ph hp).2.2 i hi).2 List.not_mem_nil }

theorem Reqs.alloc (hp : c.req p = none) (hlen : new.length = 3) (ht : Took new c.disk d) (q : Req) :
    Reqs { c with
      disk := d, requests := c.requests + 1, req := update c.req p (some (⟨q, new, c.requests⟩, .format)) } A U := by
  have hdescs := h.toDescs.alloc hp hlen ht q .format
  obtain ⟨free, rfl⟩ := ht.same
  -- the new request has no number that was completed, and the others go on as before
  have hsent : ∀ x r1, update c.req p (some (⟨q, new, c.requests⟩, Phase.format)) x = some (r1, .sent) →
      c.req x = some (r1, .sent) := fun x r1 hx => (sent_move (by simp) hx).2
  exact
    { h with
      toDescs := hdescs
      chain := by
        intro x r1 ph1 hx hph
        rcases move_cases hx with ⟨-, -, rfl⟩ | ⟨-, hx⟩
        · exact absurd rfl hph
        · exact h.chain_same hx hph (fun _ _ => rfl) rfl rfl
      slot := fun x r1 hx => h.slot x r1 ((move_cases hx).resolve_left nofun).2
      armed := by
        intro x r1 ph1 hx hph
        rcases move_cases hx with ⟨-, -, rfl⟩ | ⟨-, hx⟩
        · simp at hph
        · exact h.armed x r1 ph1 hx hph
      fresh := by
        intro x r1 ph1 hx hph
        rcases move_cases hx with ⟨-, rfl, -⟩ | ⟨-, hx⟩
        · intro hmem
          obtain ⟨e, he, heq⟩ := List.mem_map.mp hmem
          exact (h.logged e he).ne heq
        · exact h.fresh x r1 ph1 hx hph
      busy := fun x r1 hx => h.busy x r1 (hsent x r1 hx)
      undone := fun x r1 hx => h.undone x r1 (hsent x r1 hx)
      done := fun x r1 hx => h.done x r1 (hsent x r1 hx)
      heads := h.heads_move (by simp [hp]) _
      logged := fun e he => Nat.lt_succ_of_lt (h.logged e he) }

/-- The chain is set up, `b->disk` set and the buffer noted. -/
theorem Reqs.format {i0 i1 i2 : Nat} (hbuf : BufApart c.req) (hp : c.req p = some (r, .format))
    (hidx : r.idx = [i0, i1, i2]) :
    Reqs { c with
      disk := format c.disk r.req i0 i1 i2
      bdisk := update c.bdisk r.req.buf true
      serial := update c.serial i0 r.serial
      req := update c.req p (some (r, .ring)) } A U := by
  have hhead : r.head = i0 := by rw [Request.head, hidx, List.headD_cons]
  have hnodup : [i0, i1, i2].Nodup := hidx ▸ (h.idx p r _ hp).2.1
  -- the descriptors of the others are not touched
  have hother : ∀ x r1 ph1, x ≠ p → c.req x = some (r1, ph1) → (∀ i ∈ r1.idx, i ≠ i0 ∧ i ≠ i1 ∧ i ≠ i2) ∧
      r1.req.buf ≠ r.req.buf := by
    intro x r1 ph1 hxp hx
    have hne : ∀ i ∈ r1.idx, ∀ j ∈ r.idx, i ≠ j := by
      rintro i hi j hj rfl
      exact hxp (h.apart x p r1 r ph1 _ i hx hp hi hj)
    rw [hidx] at hne
    exact ⟨fun i hi => ⟨hne i hi i0 (by simp), hne i hi i1 (by simp), hne i hi i2 (by simp)⟩,
      fun heq => hxp (hbuf x p r1 r ph1 _ hx hp heq)⟩
  have hsent : ∀ x r1, update c.req p (some (r, Phase.ring)) x = some (r1, .sent) →
      x ≠ p ∧ c.req x = some (r1, .sent) := fun x r1 => sent_move (by simp)
  exact
    { h with
      toDescs := h.toDescs.rephase hp .ring
      chain := by
        intro x r1 ph1 hx hph
        rcases move_cases hx with ⟨-, rfl, -⟩ | ⟨hxp, hx⟩
        · rw [hhead]
          exact ⟨⟨i0, i1, i2, chain_format hidx hnodup⟩, update_self _ _ _, update_self _ _ _⟩
        · obtain ⟨⟨j0, j1, j2, hc⟩, hb, hserial⟩ := h.chain x r1 ph1 hx hph
          obtain ⟨hne, -⟩ := hother x r1 ph1 hxp hx
          have hh := (hne _ (h.head_mem hx)).1
          refine ⟨⟨j0, j1, j2, hc.congr (fun i hi => ?_) (update_of_ne hh _ _)⟩, (update_of_ne hh _ _).trans hb,
            (update_of_ne hh _ _).trans hserial⟩
          obtain ⟨hi0, hi1, hi2⟩ := hne i hi
          exact (update_of_ne hi2 _ _).trans ((update_of_ne hi1 _ _).trans (update_of_ne hi0 _ _))
      slot := fun x r1 hx => h.slot x r1 ((move_cases hx).resolve_left fun hm => by cases hm.2.2).2
      armed := by
        intro x r1 ph1 hx hph
        rcases move_cases hx with ⟨-, rfl, -⟩ | ⟨hxp, hx⟩
        · exact update_self _ _ _
        · exact (update_of_ne (hother x r1 ph1 hxp hx).2 _ _).trans (h.armed x r1 ph1 hx hph)
      fresh := by
        intro x r1 ph1 hx hph
        rcases move_cases hx with ⟨-, rfl, -⟩ | ⟨-, hx⟩
        · exact h.fresh p r1 _ hp (by simp)
        · exact h.fresh x r1 ph1 hx hph
      busy := by
        intro x r1 hx
        obtain ⟨hxp, hx⟩ := hsent x r1 hx
        rw [← h.busy x r1 hx]
        simp only [update_of_ne (hother x r1 _ hxp hx).2]
      undone := fun x r1 hx => h.undone x r1 (hsent x r1 hx).2
      done := fun x r1 hx => h.done x r1 (hsent x r1 hx).2
      heads := h.heads_move (by simp [hp]) _
      status := by
        intro i hi
        have hne : i ≠ i0 := by
          rintro rfl
          exact h.not_flying hp (by simp) (hhead ▸ List.mem_append_right _ hi)
        exact (update_of_ne hne _ _).trans (h.status i hi) }

/-- The head is written to the slot that `avail->idx` is at. -/
theorem Reqs.announce (hp : c.req p = some (r, .ring)) (honly : ∀ x r1, c.req x = some (r1, .index) → x = p) :
    Reqs { c with
      disk := { c.disk with availRing := update c.disk.availRing (c.disk.availIdx % num) r.head }
      req := update c.req p (some (r, .index)) } A U := by
  have hsent : ∀ x r1, update c.req p (some (r, Phase.index)) x = some (r1, .sent) → c.req x = some (r1, .sent) :=
    fun x r1 hx => (sent_move (by simp) hx).2
  exact
    { h with
      toDescs := h.toDescs.rephase hp .index
      chain := h.chain_move hp (by simp) .index rfl rfl rfl
      slot := by
        intro x r1 hx
        rcases move_cases hx with ⟨-, rfl, -⟩ | ⟨hxp, hx⟩
        · exact update_self _ _ _
        · exact absurd (honly x r1 hx) hxp
      armed := by
        intro x r1 ph1 hx hph
        rcases move_cases hx with ⟨-, rfl, -⟩ | ⟨-, hx⟩
        · exact h.armed p r1 _ hp (.inl rfl)
        · exact h.armed x r1 ph1 hx hph
      fresh := by
        intro x r1 ph1 hx hph
        rcases move_cases hx with ⟨-, rfl, -⟩ | ⟨-, hx⟩
        · exact h.fresh p r1 _ hp (by simp)
        · exact h.fresh x r1 ph1 hx hph
      busy := fun x r1 hx => h.busy x r1 (hsent x r1 hx)
      undone := fun x r1 hx => h.undone x r1 (hsent x r1 hx)
      done := fun x r1 hx => h.done x r1 (hsent x r1 hx)
      heads := h.heads_move (by simp [hp]) _
      avail := h.avail.poke (by decide) (h.avail_room hp (by simp)) r.head }

/-- `avail->idx` is increased: the device can see the request. -/
theorem Reqs.publish (hp : c.req p = some (r, .index)) (honly : ∀ x r1, c.req x = some (r1, .index) → x = p) :
    Reqs { c with
      disk := { c.disk with availIdx := (c.disk.availIdx + 1) % 2 ^ 16 }
      req := update c.req p (some (r, .sent)) } (A ++ [r.head]) U := by
  have hroom := h.avail_room hp (by simp)
  have hnot := h.not_flying hp (by simp)
  have hperm : (A ++ [r.head] ++ c.pending ++ U).Perm (r.head :: (A ++ c.pending ++ U)) := by
    rw [List.append_assoc, List.append_assoc, List.append_assoc]
    exact List.perm_middle
  -- other requests are in flight as before
  have hother : ∀ x r1 ph1, x ≠ p → c.req x = some (r1, ph1) → r1.head ≠ r.head := fun x r1 ph1 hxp hx heq =>
    hxp (h.head_apart hx hp heq)
  exact
    { h with
      toDescs := h.toDescs.rephase hp .sent
      chain := h.chain_move hp (by simp) .sent rfl rfl rfl
      slot := by
        intro x r1 hx
        rcases move_cases hx with ⟨-, -, hph⟩ | ⟨hxp, hx⟩
        · cases hph
        · exact absurd (honly x r1 hx) hxp
      armed := by
        intro x r1 ph1 hx hph
        rcases move_cases hx with ⟨-, rfl, -⟩ | ⟨-, hx⟩
        · exact h.armed p r1 _ hp (.inr rfl)
        · exact h.armed x r1 ph1 hx hph
      fresh := by
        intro x r1 ph1 hx hph
        rcases move_cases hx with ⟨-, -, rfl⟩ | ⟨-, hx⟩
        · exact absurd rfl hph
        · exact h.fresh x r1 ph1 hx hph
      busy := by
        intro x r1 hx
        rw [hperm.mem_iff, List.mem_cons]
        rcases move_cases hx with ⟨-, rfl, -⟩ | ⟨hxp, hx⟩
        · simp [h.armed p r1 _ hp (.inr rfl)]
        · rw [← h.busy x r1 hx]
          simp [hother x r1 _ hxp hx]
      undone := by
        intro x r1 hx hmem
        rcases move_cases hx with ⟨-, rfl, -⟩ | ⟨hxp, hx⟩
        · exact h.fresh p r1 _ hp (by simp)
        · refine h.undone x r1 hx ?_
          simpa [hother x r1 _ hxp hx] using hmem
      done := by
        intro x r1 hx hmem
        rcases move_cases hx with ⟨-, rfl, -⟩ | ⟨hxp, hx⟩
        · simp at hmem
        · refine h.done x r1 hx ?_
          simpa [hother x r1 _ hxp hx] using hmem
      heads := by
        intro i hi
        rw [hperm.mem_iff, List.mem_cons] at hi
        rcases hi with rfl | hi
        · exact ⟨p, r, update_self _ _ _, rfl⟩
        · exact h.heads_move (by simp [hp]) _ i hi
      nodup := hperm.nodup_iff.mpr (List.nodup_cons.mpr ⟨hnot, h.nodup⟩)
      avail := h.avail.extend (by decide) hroom (h.slot p r hp) }

/-- A request that was seen to be done is cleared away. -/
theorem Reqs.clear (hp : c.req p = some (r, .sent)) (hdone : c.bdisk r.req.buf = false) :
    ∃ d, freeChain { c.disk with infoB := update c.disk.infoB r.head none } r.head = .ok d ∧
      d.availRing = c.disk.availRing ∧ d.usedRing = c.disk.usedRing ∧ (r.serial, r.req) ∈ c.completed ∧
      Reqs { c with
        disk := d
        req := update c.req p none
        returned := c.returned ++ [(r.serial, r.req)] } A U := by
  obtain ⟨⟨i0, i1, i2, hc⟩, -⟩ := h.chain p r _ hp (by simp)
  obtain ⟨-, hnodup, hidx⟩ := h.idx p r _ hp
  have hland : r.head ∉ A ++ c.pending ++ U := fun hmem => by
    rw [← h.busy p r hp, hdone] at hmem
    cases hmem
  have hc' : Chain { c.disk with infoB := update c.disk.infoB r.head none } r i0 i1 i2 := hc.congr (fun _ _ => rfl) rfl
  obtain ⟨d, hfree, hf⟩ := hc'.freeChain hnodup hidx
  have hdescs : Descs d.free (update c.req p none) c.requests := h.toDescs.release hp hf.free
  have hdesc := hf.desc
  have hcompleted := h.done p r hp fun hmem => hland (List.mem_append_left _ hmem)
  obtain ⟨desc, free, rfl⟩ := hf.same
  refine ⟨_, hfree, rfl, rfl, hcompleted, ?_⟩
  exact
    { h with
      toDescs := hdescs
      chain := by
        intro x r1 ph1 hx hph
        obtain ⟨hxp, hx⟩ := drop_cases hx
        have hh : r1.head ≠ r.head := fun heq => hxp (h.head_apart hx hp heq)
        refine h.chain_same hx hph (fun i hi => ?_) rfl (update_of_ne hh _ _)
        exact hdesc i fun hir => hxp (h.apart x p r1 r ph1 _ i hx hp hi hir)
      slot := fun x r1 hx => h.slot x r1 (drop_cases hx).2
      armed := fun x r1 ph1 hx => h.armed x r1 ph1 (drop_cases hx).2
      fresh := fun x r1 ph1 hx => h.fresh x r1 ph1 (drop_cases hx).2
      busy := fun x r1 hx => h.busy x r1 (drop_cases hx).2
      undone := fun x r1 hx => h.undone x r1 (drop_cases hx).2
      done := fun x r1 hx => h.done x r1 (drop_cases hx).2
      heads := by
        intro i hi
        obtain ⟨x, r1, hx, heq⟩ := h.heads i hi
        have hxp : x ≠ p := by
          rintro rfl
          obtain ⟨rfl, -⟩ := req_inj hp hx
          exact hland (heq ▸ hi)
        exact ⟨x, r1, (update_of_ne hxp _ _).trans hx, heq⟩
      returned := by
        intro e he
        rcases List.mem_append.mp he with he | he
        · exact h.returned e he
        · rw [List.mem_singleton.mp he]
          exact hcompleted }

end

/-- The handler looks at the next entry of the used ring. -/
theorem Reqs.look (h : Reqs c A (x :: U)) (hbuf : BufApart c.req) :
    c.disk.usedRing (c.disk.lookedIdx % num) = x ∧ c.disk.status x = 0 ∧
      ∃ p r, c.req p = some (r, .sent) ∧ r.head = x ∧ c.disk.infoB x = some r.req.buf ∧
        Reqs { c with
          bdisk := update c.bdisk r.req.buf false
          disk := { c.disk with lookedIdx := (c.disk.lookedIdx + 1) % 2 ^ 16 } } A U := by
  obtain ⟨p, r, hp, rfl⟩ := h.heads x (by simp)
  obtain ⟨hring, hused⟩ := h.used.pop (by decide)
  have hperm : (A ++ c.pending ++ r.head :: U).Perm (r.head :: (A ++ c.pending ++ U)) := List.perm_middle
  have hnodup := List.nodup_cons.mp (hperm.nodup_iff.mp h.nodup)
  obtain ⟨-, hb, -⟩ := h.chain p r _ hp (by simp)
  refine ⟨hring, h.status _ List.mem_cons_self, p, r, hp, rfl, hb, ?_⟩
  exact
    { h with
      chain := fun y r1 ph1 hy hph => h.chain_same hy hph (fun _ _ => rfl) rfl rfl
      armed := by
        intro y r1 ph1 hy hph
        have hne : r1.req.buf ≠ r.req.buf := by
          intro heq
          obtain rfl := hbuf y p r1 r ph1 _ hy hp heq
          obtain ⟨-, rfl⟩ := req_inj hp hy
          simp at hph
        exact (update_of_ne hne _ _).trans (h.armed y r1 ph1 hy hph)
      busy := by
        intro y r1 hy
        by_cases hyp : y = p
        · subst hyp
          obtain ⟨rfl, -⟩ := req_inj hp hy
          simp only [update_self, Bool.false_eq_true, false_iff]
          exact hnodup.1
        · have hne : r1.req.buf ≠ r.req.buf := fun heq => hyp (hbuf y p r1 r _ _ hy hp heq)
          have hh : r1.head ≠ r.head := fun heq => hyp (h.head_apart hy hp heq)
          have hold := h.busy y r1 hy
          rw [hperm.mem_iff, List.mem_cons] at hold
          simp only [update_of_ne hne, hold]
          exact or_iff_right hh
      heads := fun i hi => h.heads i (hperm.mem_iff.mpr (List.mem_cons_of_mem _ hi))
      nodup := hnodup.2
      used := hused
      status := fun i hi => h.status i (List.mem_cons_of_mem _ hi) }

/-! ## Changes by the device -/

/-- The device takes the next head from the avail ring. -/
theorem Reqs.fetch (h : Reqs c (x :: A) U) :
    c.disk.availRing (c.seen % num) = x ∧ Reqs { c with pending := x :: c.pending, seen := (c.seen + 1) % 2 ^ 16 } A U := by
  obtain ⟨hring, havail⟩ := h.avail.pop (by decide)
  have hperm : (A ++ x :: c.pending).Perm (x :: A ++ c.pending) := List.perm_middle
  have hmem : ∀ i, i ∈ A ++ x :: c.pending ↔ i ∈ x :: A ++ c.pending := fun i => hperm.mem_iff
  have hmem' : ∀ i, i ∈ A ++ x :: c.pending ++ U ↔ i ∈ x :: A ++ c.pending ++ U := fun i =>
    (hperm.append_right U).mem_iff
  refine ⟨hring, ?_⟩
  exact
    { h with
      busy := fun y r1 hy => (h.busy y r1 hy).trans (hmem' _).symm
      undone := fun y r1 hy hi => h.undone y r1 hy ((hmem _).mp hi)
      done := fun y r1 hy hi => h.done y r1 hy (mt (hmem _).mpr hi)
      heads := fun i hi => h.heads i ((hmem' i).mp hi)
      nodup := (hperm.append_right U).nodup_iff.mpr h.nodup
      avail := havail }

/-- The device finishes a request it works on. -/
theorem Reqs.complete (h : Reqs c A U) (hx : x ∈ c.pending) :
    ∃ p r, c.req p = some (r, .sent) ∧ r.head = x ∧ decode c.disk x = some (r.req, x) ∧ c.serial x = r.serial ∧
      Reqs { c with
        pending := c.pending.erase x
        completed := c.completed ++ [(r.serial, r.req)]
        disk := { c.disk with
          status := update c.disk.status x 0
          usedRing := update c.disk.usedRing (c.disk.usedIdx % num) x
          usedIdx := (c.disk.usedIdx + 1) % 2 ^ 16 } } A (U ++ [x]) := by
  have hfly : x ∈ A ++ c.pending ++ U := by simp [hx]
  obtain ⟨p, r, hp, rfl⟩ := h.heads x hfly
  obtain ⟨⟨i0, i1, i2, hc⟩, -, hserial⟩ := h.chain p r _ hp (by simp)
  refine ⟨p, r, hp, rfl, hc.decode, hserial, ?_⟩
  have htodo : r.head ∈ A ++ c.pending := by simp [hx]
  -- the head moves from the device to the used ring
  have hpend : c.pending.Perm (r.head :: c.pending.erase r.head) := List.perm_cons_erase hx
  have hperm1 : (A ++ c.pending).Perm (r.head :: (A ++ c.pending.erase r.head)) :=
    (hpend.append_left A).trans List.perm_middle
  have hperm : (A ++ c.pending.erase r.head ++ (U ++ [r.head])).Perm (A ++ c.pending ++ U) := by
    rw [← List.append_assoc]
    exact (List.perm_append_singleton _ _).trans (hperm1.append_right U).symm
  have hnodup1 := List.nodup_cons.mp (hperm1.nodup_iff.mp (List.nodup_append.mp h.nodup).1)
  have hlogged : r.serial ∉ c.completed.map Prod.fst := h.undone p r hp htodo
  -- the other requests have other numbers
  have hother : ∀ y r1 ph1, y ≠ p → c.req y = some (r1, ph1) → r1.serial ∉ c.completed.map Prod.fst →
      r1.serial ∉ (c.completed ++ [(r.serial, r.req)]).map Prod.fst := by
    intro y r1 ph1 hyp hy hold hmem
    rw [List.map_append, List.mem_append] at hmem
    rcases hmem with hmem | hmem
    · exact hold hmem
    · have heq : r1.serial = r.serial := by simpa using hmem
      exact hyp (h.numberApart y p r1 r ph1 _ hy hp heq)
  exact
    { h with
      chain := fun y r1 ph1 hy hph => h.chain_same hy hph (fun _ _ => rfl) rfl rfl
      fresh := by
        intro y r1 ph1 hy hph
        refine hother y r1 ph1 ?_ hy (h.fresh y r1 ph1 hy hph)
        rintro rfl
        exact hph (req_inj hy hp).2
      busy := fun y r1 hy => (h.busy y r1 hy).trans hperm.mem_iff.symm
      undone := by
        intro y r1 hy hmem
        have hne : r1.head ≠ r.head := fun heq => hnodup1.1 (heq ▸ hmem)
        refine hother y r1 _ (fun hyp => ?_) hy (h.undone y r1 hy (hperm1.mem_iff.mpr (List.mem_cons_of_mem _ hmem)))
        subst hyp
        exact hne (congrArg Request.head (req_inj hy hp).1)
      done := by
        intro y r1 hy hmem
        by_cases hh : r1.head = r.head
        · obtain rfl := h.head_apart hy hp hh
          obtain ⟨rfl, -⟩ := req_inj hy hp
          exact List.mem_append_right _ List.mem_cons_self
        · refine List.mem_append_left _ (h.done y r1 hy fun hold => ?_)
          exact (List.mem_cons.mp (hperm1.mem_iff.mp hold)).elim hh hmem
      heads := fun i hi => h.heads i (hperm.mem_iff.mp hi)
      nodup := hperm.nodup_iff.mpr h.nodup
      used := h.used.push (by decide) (h.used_room hx) r.head
      status := by
        intro i hi
        by_cases hi0 : i = r.head
        · rw [hi0]
          exact update_self _ _ _
        · rcases List.mem_append.mp hi with hi | hi
          · exact (update_of_ne hi0 _ _).trans (h.status i hi)
          · exact absurd (List.mem_singleton.mp hi) hi0
      log := by
        rw [List.map_append, List.map_singleton, (List.perm_append_singleton _ _).nodup_iff]
        exact List.nodup_cons.mpr ⟨hlogged, h.log⟩
      logged := by
        intro e he
        rcases List.mem_append.mp he with he | he
        · exact h.logged e he
        · rw [List.mem_singleton.mp he]
          exact h.number p r _ hp
      returned := fun e he => List.mem_append_left _ (h.returned e he) }

end Xv6.Virtio
