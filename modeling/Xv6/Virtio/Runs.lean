/-
  Xv6.Virtio.Runs — any number of processes, the handler and the device, in any interleaving.

  `Inv` adds to the invariant about requests who holds `vdisk_lock` and who works with which
  buffer. Every action keeps it, and `Effect` says what it does to the rings, to `b->disk` and to
  the requests (`Inv.act`).
-/

import Xv6.Virtio.Requests

namespace Xv6.Virtio

open Lib (update update_self update_of_ne update_same of_guard)

variable {s s' : St} {A U : List Nat} {p q x : Nat} {r : Request}

/-! ## The lock and the buffers -/

/-- Only the holder is where the lock is held. -/
def Locked (lock : Holder) (pc : Nat → Pc) : Prop := ∀ x, (pc x).holds = true → lock = .proc x

/-- A process works with the buffer whose lock it holds. -/
def Owned (owner : Nat → Option Nat) (pc : Nat → Pc) : Prop := ∀ x b, (pc x).buf = some b → owner b = some x

variable {ph ph' : Phase} {lock : Holder} {owner : Nat → Option Nat} {pc : Nat → Pc} {y : Pc}

theorem Locked.keep (h : Locked lock pc) (hy : y.holds = true → lock = .proc p) : Locked lock (update pc p y) := by
  intro x hx
  by_cases hxp : x = p
  · rw [hxp, update_self] at hx
    rw [hxp, hy hx]
  · rw [update_of_ne hxp] at hx
    exact h x hx

theorem Locked.take (h : Locked .none pc) : Locked (.proc p) (update pc p y) := by
  intro x hx
  by_cases hxp : x = p
  · rw [hxp]
  · rw [update_of_ne hxp] at hx
    cases h x hx

theorem Locked.drop (h : Locked (.proc p) pc) (hy : y.holds = false) : Locked .none (update pc p y) := by
  intro x hx
  by_cases hxp : x = p
  · rw [hxp, update_self, hy] at hx
    cases hx
  · rw [update_of_ne hxp] at hx
    exact absurd (Holder.proc.inj (h x hx)).symm hxp

theorem Locked.only (h : Locked (.proc p) pc) (hx : (pc x).holds = true) : x = p := (Holder.proc.inj (h x hx)).symm

theorem Owned.keep (h : Owned owner pc) (hy : y.buf = (pc p).buf) : Owned owner (update pc p y) := by
  intro x b hx
  by_cases hxp : x = p
  · rw [hxp, update_self, hy] at hx
    rw [hxp]
    exact h p b hx
  · rw [update_of_ne hxp] at hx
    exact h x b hx

theorem Owned.take {b : Nat} (h : Owned owner pc) (hb : owner b = none) (hy : y.buf = some b) :
    Owned (update owner b (some p)) (update pc p y) := by
  intro x b' hx
  by_cases hxp : x = p
  · rw [hxp, update_self, hy] at hx
    obtain rfl := Option.some.inj hx
    rw [update_self, hxp]
  · rw [update_of_ne hxp] at hx
    have hne : b' ≠ b := by
      rintro rfl
      rw [h x b' hx] at hb
      cases hb
    rw [update_of_ne hne]
    exact h x b' hx

theorem Owned.drop {b : Nat} (h : Owned owner pc) (hb : (pc p).buf = some b) :
    Owned (update owner b none) (update pc p .out) := by
  intro x b' hx
  by_cases hxp : x = p
  · rw [hxp, update_self] at hx
    cases hx
  · rw [update_of_ne hxp] at hx
    have hne : b' ≠ b := by
      rintro rfl
      exact hxp (Option.some.inj ((h x b' hx).symm.trans (h p b' hb)))
    rw [update_of_ne hne]
    exact h x b' hx

/-! ## Waking -/

section waking

variable (pc : Pc) (b : Nat)

theorem Pc.wakeFree_req : pc.wakeFree.req = pc.req := by cases pc <;> rfl

theorem Pc.wakeFree_holds : pc.wakeFree.holds = pc.holds := by cases pc <;> rfl

theorem Pc.wakeFree_buf : pc.wakeFree.buf = pc.buf := by cases pc <;> rfl

theorem Pc.wakeBuf_same :
    (pc.wakeBuf b).req = pc.req ∧ (pc.wakeBuf b).holds = pc.holds ∧ (pc.wakeBuf b).buf = pc.buf := by
  unfold Pc.wakeBuf
  split
  · split <;> exact ⟨rfl, rfl, rfl⟩
  · exact ⟨rfl, rfl, rfl⟩

end waking

/-! ## Every action -/

/-- What an action does to the rings, to `b->disk` and to the requests. -/
structure Effect (s s' : St) : Prop where
  avail : s'.disk.availRing = s.disk.availRing ∨ ∃ p r, (s.pc p).req = some (r, .ring) ∧
    s'.disk.availRing = update s.disk.availRing (s.disk.availIdx % num) r.head
  used : s'.disk.usedRing = s.disk.usedRing ∨ ∃ i ∈ s.pending,
    s'.disk.usedRing = update s.disk.usedRing (s.disk.usedIdx % num) i
  bdisk : (∀ b, s.bdisk b = true → s'.bdisk b = true) ∨ ∃ p r, (s.pc p).req = some (r, .sent) ∧
    r.head = s.disk.usedRing (s.disk.lookedIdx % num) ∧ (r.serial, r.req) ∈ s.completed ∧
    s'.bdisk = update s.bdisk r.req.buf false
  reqs : ∀ x r ph, (s.pc x).req = some (r, ph) →
    (∃ ph', (s'.pc x).req = some (r, ph')) ∨ (r.serial, r.req) ∈ s.completed

theorem Effect.of_req (havail : s'.disk.availRing = s.disk.availRing) (hused : s'.disk.usedRing = s.disk.usedRing)
    (hbdisk : s'.bdisk = s.bdisk)
    (hreqs : ∀ x r ph, (s.pc x).req = some (r, ph) → ∃ ph', (s'.pc x).req = some (r, ph')) : Effect s s' :=
  ⟨.inl havail, .inl hused, .inl fun _ hb => hbdisk ▸ hb, fun x r ph hx => .inl (hreqs x r ph hx)⟩

theorem Effect.of_core (hcore : s'.core = s.core) : Effect s s' := by
  simp only [St.core, Core.mk.injEq] at hcore
  obtain ⟨hdisk, hbdisk, hreq, -⟩ := hcore
  exact .of_req (by rw [hdisk]) (by rw [hdisk]) hbdisk fun x r ph hx => ⟨ph, (congrFun hreq x).trans hx⟩

/-- A request goes on. -/
theorem reqs_update (hp : (s.pc p).req = some (r, ph)) (hy : y.req = some (r, ph')) :
    ∀ x r1 ph1, (s.pc x).req = some (r1, ph1) → ∃ ph2, (update s.pc p y x).req = some (r1, ph2) := by
  intro x r1 ph1 hx
  by_cases hxp : x = p
  · subst hxp
    obtain ⟨rfl, -⟩ := Prod.mk.inj (Option.some.inj (hp.symm.trans hx))
    exact ⟨ph', by rw [update_self, hy]⟩
  · exact ⟨ph1, by rw [update_of_ne hxp, hx]⟩

structure Inv (s : St) (A U : List Nat) : Prop where
  calm : s.panic = none
  locked : Locked s.lock s.pc
  owned : Owned s.owner s.pc
  reqs : Reqs s.core A U

theorem req_update (pc : Nat → Pc) (p : Nat) (y : Pc) :
    (fun x => (update pc p y x).req) = update (fun x => (pc x).req) p y.req := by
  funext x
  by_cases hx : x = p
  · rw [hx, update_self, update_self]
  · rw [update_of_ne hx, update_of_ne hx]

/-- A step to a place with the same request. -/
theorem core_goto (hpc : s'.pc = update s.pc p y) (hy : y.req = (s.pc p).req)
    (hrest : s'.core = { s.core with req := fun x => (s'.pc x).req }) : s'.core = s.core := by
  rw [hrest, hpc, req_update]
  exact congrArg (fun f => { s.core with req := f }) (update_same (f := fun x => (s.pc x).req) hy.symm)

theorem Inv.bufApart (h : Inv s A U) : BufApart s.core.req := by
  intro p p' r r' ph ph' hp hp' heq
  have hbuf : ∀ x r ph, s.core.req x = some (r, ph) → (s.pc x).buf = some r.req.buf := by
    intro x r ph hx
    simp only [St.core] at hx
    cases hpc : s.pc x with
    | own r1 st =>
      rw [hpc] at hx
      obtain ⟨rfl, -⟩ := Prod.mk.inj (Option.some.inj hx)
      rfl
    | out | start | alloc | noDesc =>
      rw [hpc] at hx
      cases hx
  have h1 := h.owned p _ (hbuf p r ph hp)
  have h2 := h.owned p' _ (hbuf p' r' ph' hp')
  rw [heq, h2] at h1
  exact (Option.some.inj h1).symm

theorem Inv.core_eq (h : Inv s A U) (hcalm : s'.panic = none) (hlocked : Locked s'.lock s'.pc)
    (howned : Owned s'.owner s'.pc) (hcore : s'.core = s.core) : Inv s' A U ∧ Effect s s' :=
  ⟨⟨hcalm, hlocked, howned, hcore ▸ h.reqs⟩, .of_core hcore⟩

/-- Waking changes no request, no lock and no buffer. -/
theorem woken_same (s : St) (c : Prop) [Decidable c] (x : Nat) :
    let pc := if c then fun x => (s.pc x).wakeFree else s.pc
    (pc x).req = (s.pc x).req ∧ (pc x).holds = (s.pc x).holds ∧ (pc x).buf = (s.pc x).buf := by
  by_cases hc : c
  · simp only [if_pos hc]
    exact ⟨Pc.wakeFree_req _, Pc.wakeFree_holds _, Pc.wakeFree_buf _⟩
  · simp only [if_neg hc, and_self]

section

variable (h : Inv s A U)
include h

theorem Inv.alloc {q : Req} (hpc : s.pc p = .alloc q) :
    Inv (tryAlloc s p q) A U ∧ Effect s (tryAlloc s p q) := by
  have hlock : s.lock = .proc p := h.locked p (by rw [hpc]; rfl)
  have hnone : s.core.req p = none := by simp only [St.core, hpc, Pc.req]
  rcases alloc3Desc_spec s.disk with ⟨new, d, halloc, hlen, ht⟩ | ⟨d, halloc, hg⟩
  · simp only [tryAlloc, halloc]
    have hr := h.reqs.alloc hnone hlen ht q
    obtain ⟨free, rfl⟩ := ht.same
    refine ⟨⟨h.calm, h.locked.keep fun _ => hlock, h.owned.keep (by rw [hpc]; rfl), ?_⟩, .of_req rfl rfl rfl ?_⟩
    · simp only [St.core, req_update] at hr ⊢
      exact hr
    · intro x r ph hx
      have hxp : x ≠ p := by
        rintro rfl
        rw [hpc] at hx
        cases hx
      exact ⟨ph, (congrArg Pc.req (update_of_ne hxp _ _)).trans hx⟩
  · simp only [tryAlloc, halloc]
    have hsame := woken_same s ((allocDesc s.disk).isSome = true)
    generalize (if (allocDesc s.disk).isSome = true then fun x => (s.pc x).wakeFree else s.pc) = pc at hsame ⊢
    have hreq : (fun x => (update pc p (.noDesc q) x).req) = s.core.req := by
      rw [req_update]
      simp only [(hsame _).1]
      exact update_same (by rw [hpc]; rfl)
    have hr := h.reqs.giveBack hg
    obtain ⟨desc, free, rfl⟩ := hg.same
    refine ⟨⟨h.calm, ?_, ?_, ?_⟩, .of_req rfl rfl rfl ?_⟩
    · refine Locked.drop (p := p) (fun x hx => ?_) rfl
      rw [(hsame x).2.1] at hx
      exact hlock ▸ h.locked x hx
    · refine Owned.keep (fun x b hx => ?_) ?_
      · rw [(hsame x).2.2] at hx
        exact h.owned x b hx
      · rw [(hsame p).2.2, hpc]
        rfl
    · simp only [St.core] at hr hreq ⊢
      rw [hreq]
      exact hr
    · exact fun x r ph hx => ⟨ph, (congrFun hreq x).trans hx⟩

theorem Inv.finish (hpc : s.pc p = .own r .wait) (hdone : s.bdisk r.req.buf = false) :
    Inv (finish s p r) A U ∧ Effect s (Virtio.finish s p r) := by
  have hlock : s.lock = .proc p := h.locked p (by rw [hpc]; rfl)
  have hp : s.core.req p = some (r, .sent) := by simp only [St.core, hpc, Pc.req, Stage.phase]
  obtain ⟨d, hfree, havail, hused, hcompleted, hr⟩ := h.reqs.clear hp hdone
  have hfree' : freeChain { s.disk with infoB := update s.disk.infoB r.head none } r.head = .ok d := hfree
  simp only [Virtio.finish, hfree']
  refine ⟨⟨h.calm, ?_, ?_, ?_⟩, .inl havail, .inl hused, .inl fun b hb => hb, ?_⟩
  · refine Locked.drop (p := p) (fun x hx => ?_) rfl
    rw [Pc.wakeFree_holds] at hx
    exact hlock ▸ h.locked x hx
  · refine Owned.drop (fun x b hx => ?_) ?_
    · rw [Pc.wakeFree_buf] at hx
      exact h.owned x b hx
    · rw [Pc.wakeFree_buf, hpc]
      rfl
  · simp only [St.core, req_update, Pc.wakeFree_req] at hr ⊢
    exact hr
  · intro x r1 ph hx
    by_cases hxp : x = p
    · subst hxp
      obtain ⟨rfl, -⟩ := Prod.mk.inj (Option.some.inj (hp.symm.trans hx))
      exact .inr hcompleted
    · refine .inl ⟨ph, ?_⟩
      simp only [update_of_ne hxp, Pc.wakeFree_req]
      exact hx

/-- No other process is about to increase `avail->idx`. -/
theorem Inv.only_index (hp : (s.pc p).holds = true) :
    ∀ x r1, s.core.req x = some (r1, .index) → x = p := by
  intro x r1 hx
  have hlock := h.locked p hp
  have hl := h.locked
  rw [hlock] at hl
  refine hl.only ?_
  simp only [St.core] at hx
  cases hpc : s.pc x with
  | own r2 st =>
    rw [hpc] at hx
    cases st with
    | index => rfl
    | format | ring | wait | asleep | woken => cases (Prod.mk.inj (Option.some.inj hx)).2
  | out | start | alloc | noDesc =>
    rw [hpc] at hx
    cases hx

theorem Inv.step (hs : advance s p = some s') : ∃ A', Inv s' A' U ∧ Effect s s' := by
  unfold advance at hs
  split at hs
  next q hpc =>
    obtain rfl := Option.some.inj hs
    exact ⟨A, h.alloc hpc⟩
  next r hpc =>
    have hlock : s.lock = .proc p := h.locked p (by rw [hpc]; rfl)
    have hp : (s.pc p).req = some (r, .format) := by rw [hpc]; rfl
    split at hs
    next i0 i1 i2 hidx =>
      obtain rfl := Option.some.inj hs
      refine ⟨A, ⟨h.calm, h.locked.keep fun _ => hlock, h.owned.keep (by rw [hpc]; rfl), ?_⟩, .inl rfl, .inl rfl, ?_, ?_⟩
      · have hr := h.reqs.format h.bufApart hp hidx
        simp only [St.core, St.goto, req_update] at hr ⊢
        exact hr
      · refine .inl fun b hb => ?_
        by_cases hbr : b = r.req.buf
        · rw [hbr]
          exact update_self _ _ _
        · exact (update_of_ne hbr _ _).trans hb
      · exact fun x r1 ph1 hx => .inl (reqs_update hp rfl x r1 ph1 hx)
    next => cases hs
  next r hpc =>
    have hlock : s.lock = .proc p := h.locked p (by rw [hpc]; rfl)
    have hp : (s.pc p).req = some (r, .ring) := by rw [hpc]; rfl
    obtain rfl := Option.some.inj hs
    refine ⟨A, ⟨h.calm, h.locked.keep fun _ => hlock, h.owned.keep (by rw [hpc]; rfl), ?_⟩, .inr ⟨p, r, hp, rfl⟩, .inl rfl,
      .inl fun b hb => hb, fun x r1 ph1 hx => .inl (reqs_update hp rfl x r1 ph1 hx)⟩
    have hr := h.reqs.announce hp (h.only_index (by rw [hpc]; rfl))
    simp only [St.core, St.goto, req_update] at hr ⊢
    exact hr
  next r hpc =>
    have hlock : s.lock = .proc p := h.locked p (by rw [hpc]; rfl)
    have hp : (s.pc p).req = some (r, .index) := by rw [hpc]; rfl
    obtain rfl := Option.some.inj hs
    refine ⟨A ++ [r.head], ⟨h.calm, h.locked.keep fun _ => hlock, h.owned.keep (by rw [hpc]; rfl), ?_⟩,
      .of_req rfl rfl rfl (reqs_update hp rfl)⟩
    have hr := h.reqs.publish hp (h.only_index (by rw [hpc]; rfl))
    simp only [St.core, St.goto, req_update] at hr ⊢
    exact hr
  next r hpc =>
    have hlock : s.lock = .proc p := h.locked p (by rw [hpc]; rfl)
    split at hs
    next =>
      obtain rfl := Option.some.inj hs
      have hl := h.locked
      rw [hlock] at hl
      exact ⟨A, h.core_eq h.calm (hl.drop rfl) (h.owned.keep (by rw [hpc]; rfl))
        (core_goto rfl (by rw [hpc]; rfl) rfl)⟩
    next hdone =>
      obtain rfl := Option.some.inj hs
      exact ⟨A, h.finish hpc (by simpa using hdone)⟩
  next => cases hs

/-- A round of the handler's loop clears `b->disk` of the buffer that was submitted under the
head it finds. -/
theorem Inv.round (hne : s.disk.lookedIdx ≠ s.disk.usedIdx) :
    ∃ U' p r, (s.pc p).req = some (r, .sent) ∧ r.head = s.disk.usedRing (s.disk.lookedIdx % num) ∧
      (r.serial, r.req) ∈ s.completed ∧ (intrRound s).bdisk = update s.bdisk r.req.buf false ∧
      Inv (intrRound s) A U' ∧ Effect s (intrRound s) := by
  cases U with
  | nil => exact absurd ((h.reqs.used.empty_iff (by decide)).mpr rfl) hne
  | cons x U =>
    obtain ⟨hring, hstatus, p, r, hp, hhead, hb, hr⟩ := h.reqs.look h.bufApart
    have hcompleted : (r.serial, r.req) ∈ s.completed := by
      refine h.reqs.done p r hp fun hmem => ?_
      exact List.disjoint_of_nodup_append h.reqs.nodup hmem (hhead ▸ List.mem_cons_self)
    simp only [St.core] at hring hstatus hb hp
    have hround : intrRound s = { s with
        bdisk := update s.bdisk r.req.buf false
        pc := fun y => (s.pc y).wakeBuf r.req.buf
        disk := { s.disk with lookedIdx := (s.disk.lookedIdx + 1) % 2 ^ 16 } } := by
      simp only [intrRound, hring, hstatus, ne_eq, not_true_eq_false, if_false, hb]
    have hhead' := hhead.trans hring.symm
    rw [hround]
    refine ⟨U, p, r, hp, hhead', hcompleted, rfl, ⟨h.calm, ?_, ?_, ?_⟩, .inl rfl, .inl rfl,
      .inr ⟨p, r, hp, hhead', hcompleted, rfl⟩, ?_⟩
    · intro y hy
      simp only [(Pc.wakeBuf_same _ _).2.1] at hy
      exact h.locked y hy
    · intro y b hy
      simp only [(Pc.wakeBuf_same _ _).2.2] at hy
      exact h.owned y b hy
    · simp only [St.core, (Pc.wakeBuf_same _ _).1] at hr ⊢
      exact hr
    · exact fun y r1 ph1 hy => .inl ⟨ph1, (Pc.wakeBuf_same _ _).1.trans hy⟩

theorem Inv.act {a : Act} (hs : act s a = some s') : ∃ A' U', Inv s' A' U' ∧ Effect s s' := by
  have hcalm : ¬s.panic ≠ none := not_not.mpr h.calm
  simp only [Virtio.act, if_neg hcalm] at hs
  cases a with
  | rw p b blockno write =>
    obtain ⟨⟨hout, hfree⟩, rfl⟩ := of_guard hs
    exact ⟨A, U, h.core_eq h.calm (h.locked.keep fun hy => absurd hy Bool.false_ne_true) (h.owned.take hfree rfl)
      (core_goto rfl (by rw [hout]; rfl) rfl)⟩
  | acquire p =>
    simp only at hs
    split at hs
    next hlock hpc =>
      obtain rfl := Option.some.inj hs
      have hl := h.locked
      rw [hlock] at hl
      exact ⟨A, U, h.core_eq h.calm hl.take (h.owned.keep (by rw [hpc]; rfl)) (core_goto rfl (by rw [hpc]; rfl) rfl)⟩
    next hlock hpc =>
      obtain rfl := Option.some.inj hs
      have hl := h.locked
      rw [hlock] at hl
      exact ⟨A, U, h.core_eq h.calm hl.take (h.owned.keep (by rw [hpc]; rfl)) (core_goto rfl (by rw [hpc]; rfl) rfl)⟩
    next => cases hs
  | step p =>
    obtain ⟨A', h'⟩ := h.step hs
    exact ⟨A', U, h'⟩
  | kick p =>
    simp only at hs
    split at hs
    next q hpc =>
      obtain rfl := Option.some.inj hs
      exact ⟨A, U, h.core_eq h.calm (h.locked.keep fun hy => absurd hy Bool.false_ne_true) (h.owned.keep (by rw [hpc]; rfl))
        (core_goto rfl (by rw [hpc]; rfl) rfl)⟩
    next r hpc =>
      obtain rfl := Option.some.inj hs
      exact ⟨A, U, h.core_eq h.calm (h.locked.keep fun hy => absurd hy Bool.false_ne_true) (h.owned.keep (by rw [hpc]; rfl))
        (core_goto rfl (by rw [hpc]; rfl) rfl)⟩
    next => cases hs
  | intr =>
    obtain ⟨hlock, rfl⟩ := of_guard hs
    refine ⟨A, U, h.core_eq h.calm (fun x hx => ?_) h.owned rfl⟩
    have := h.locked x hx
    rw [hlock] at this
    cases this
  | loop =>
    obtain ⟨hlock, hs⟩ := Option.ite_none_right_eq_some.mp hs
    split at hs
    next =>
      obtain rfl := Option.some.inj hs
      refine ⟨A, U, h.core_eq h.calm (fun x hx => ?_) h.owned rfl⟩
      have := h.locked x hx
      rw [hlock] at this
      cases this
    next hne =>
      obtain rfl := Option.some.inj hs
      obtain ⟨U', -, -, -, -, -, -, h'⟩ := h.round hne
      exact ⟨A, U', h'⟩
  | fetch =>
    simp only at hs
    split at hs
    next => cases hs
    next hne =>
      obtain rfl := Option.some.inj hs
      cases A with
      | nil => exact absurd ((h.reqs.avail.empty_iff (by decide)).mpr rfl) hne
      | cons i A =>
        obtain ⟨hring, hr⟩ := h.reqs.fetch
        simp only [St.core] at hring
        refine ⟨A, U, ⟨h.calm, h.locked, h.owned, ?_⟩, .of_req rfl rfl rfl fun x r ph hx => ⟨ph, hx⟩⟩
        simp only [St.core, hring] at hr ⊢
        exact hr
  | complete i =>
    obtain ⟨hi, hs⟩ := Option.ite_none_right_eq_some.mp hs
    obtain ⟨p, r, hp, hhead, hdec, hserial, hr⟩ := h.reqs.complete hi
    simp only [St.core] at hdec hserial
    simp only [hdec, hserial] at hs
    obtain rfl := Option.some.inj hs
    exact ⟨A, U ++ [i], ⟨h.calm, h.locked, h.owned, hr⟩, .inl rfl, .inr ⟨i, hi, rfl⟩, .inl fun b hb => hb,
      fun x r ph hx => .inl ⟨ph, hx⟩⟩

end

theorem initial_inv : Inv initial [] [] where
  calm := rfl
  locked := nofun
  owned := nofun
  reqs :=
    { idx := nofun
      apart := nofun
      inUse := nofun
      number := nofun
      numberApart := nofun
      chain := nofun
      slot := nofun
      armed := nofun
      fresh := nofun
      busy := nofun
      undone := nofun
      done := nofun
      heads := nofun
      nodup := List.nodup_nil
      avail := .empty _ _ (by decide)
      used := .empty _ _ (by decide)
      status := nofun
      log := List.nodup_nil
      logged := nofun
      returned := nofun }

theorem reached_inv (hr : Reached s) : ∃ A U, Inv s A U := by
  refine hr.inv (I := fun s => ∃ A U, Inv s A U) ⟨[], [], initial_inv⟩ ?_
  intro s a s' h _ hs
  obtain ⟨A, U, h⟩ := h
  obtain ⟨A', U', h', -⟩ := h.act hs
  exact ⟨A', U', h'⟩

end Xv6.Virtio
