/-
  Xv6.Lib.Ring — circular doubly linked lists.

  `Ring L h l` says that the `next` and `prev` links of `L` go from `h` through the nodes of
  `l`, in order, and back. Taking a node out and putting one after `h` are the usual four
  assignments; the walk `scan` finds what a search of `l` does.
-/

import Mathlib.Data.List.Chain
import Mathlib.Data.List.Nodup
import Xv6.Lib.Update

namespace Xv6.Lib

variable {α : Type*} [DecidableEq α]

structure Links (α : Type*) where
  next : α → α
  prev : α → α

/-- `b` is taken out. -/
def Links.unlink (L : Links α) (b : α) : Links α :=
  let L1 := { L with prev := update L.prev (L.next b) (L.prev b) }
  { L1 with next := update L1.next (L1.prev b) (L1.next b) }

/-- `b` is put after `h`. -/
def Links.push (L : Links α) (h b : α) : Links α :=
  let L1 := { L with next := update L.next b (L.next h) }
  let L2 := { L1 with prev := update L1.prev b h }
  let L3 := { L2 with prev := update L2.prev (L2.next h) b }
  { L3 with next := update L3.next h b }

def Links.Joined (L : Links α) (a b : α) : Prop := L.next a = b ∧ L.prev b = a

structure Ring (L : Links α) (h : α) (l : List α) : Prop where
  nodup : (h :: l).Nodup
  chain : (h :: l ++ [h]).IsChain L.Joined

variable {L : Links α} {h b : α} {l l1 l2 : List α}

omit [DecidableEq α] in
theorem Ring.reverse (hr : Ring L h l) : Ring ⟨L.prev, L.next⟩ h l.reverse where
  nodup := by simpa using hr.nodup
  chain := by
    have heq : (h :: l ++ [h]).reverse = h :: l.reverse ++ [h] := by simp
    rw [← heq]
    exact List.isChain_reverse.mpr (hr.chain.imp fun a b hab => ⟨hab.2, hab.1⟩)

omit [DecidableEq α] in
theorem Ring.nodup_middle (hr : Ring L h (l1 ++ b :: l2)) : (b :: (h :: l1 ++ l2)).Nodup := by
  have hperm : (h :: l1 ++ b :: l2).Perm (b :: (h :: l1 ++ l2)) := List.perm_middle
  exact hperm.nodup_iff.mp hr.nodup

theorem Ring.unlink (hr : Ring L h (l1 ++ b :: l2)) : Ring (L.unlink b) h (l1 ++ l2) := by
  have hnodup := hr.nodup_middle
  have hb : b ∉ h :: l1 ++ l2 := (List.nodup_cons.mp hnodup).1
  -- the nodes on either side of `b`
  obtain ⟨m, a, hm⟩ : ∃ m a, h :: l1 = m ++ [a] := ⟨_, _, (List.dropLast_append_getLast (by simp)).symm⟩
  obtain ⟨c, m', hm'⟩ : ∃ c m', l2 ++ [h] = c :: m' := by cases l2 <;> simp
  have hchain : (m ++ [a] ++ b :: c :: m').IsChain L.Joined := by
    rw [← hm, ← hm']
    simpa using hr.chain
  rw [List.isChain_append_cons_cons, List.append_assoc] at hchain
  obtain ⟨hleft, hbc, hright⟩ := hchain
  obtain ⟨hleft, hab, -⟩ := List.isChain_append_cons_cons.mp hleft
  have hbne : b ≠ c := by
    rintro rfl
    have : b ∈ l2 ++ [h] := by simp [hm']
    simp at hb this
    grind
  have hL : L.unlink b = ⟨update L.next a c, update L.prev c a⟩ := by
    simp [Links.unlink, hbc.1, hab.2, update_of_ne hbne]
  -- a pair of neighbours other than those of `b` is joined as before
  have hkeep : ∀ u v, u ≠ b → v ≠ b → L.Joined u v → (L.unlink b).Joined u v := by
    intro u v hu hv huv
    have hua : u ≠ a := by
      rintro rfl
      exact hv (huv.1.symm.trans hab.1)
    have hvc : v ≠ c := by
      rintro rfl
      exact hu (huv.2.symm.trans hbc.2)
    rw [hL]
    exact ⟨(update_of_ne hua _ _).trans huv.1, (update_of_ne hvc _ _).trans huv.2⟩
  have hmem : ∀ u, u ∈ h :: l1 ++ l2 → u ≠ b := fun u hu hub => hb (hub ▸ hu)
  refine ⟨(List.nodup_cons.mp hnodup).2, ?_⟩
  have heq : h :: (l1 ++ l2) ++ [h] = m ++ a :: c :: m' := by
    have : h :: (l1 ++ l2) ++ [h] = (h :: l1) ++ (l2 ++ [h]) := by simp
    rw [this, hm, hm']
    simp
  rw [heq, List.isChain_append_cons_cons]
  refine ⟨hleft.imp_of_mem_imp fun u v hu hv => hkeep u v (hmem u ?_) (hmem v ?_), ?_,
    hright.imp_of_mem_imp fun u v hu hv => hkeep u v (hmem u ?_) (hmem v ?_)⟩
  · rw [← hm] at hu
    simp at hu ⊢
    grind
  · rw [← hm] at hv
    simp at hv ⊢
    grind
  · rw [hL]
    exact ⟨update_self _ _ _, update_self _ _ _⟩
  · rw [← hm'] at hu
    simp at hu ⊢
    grind
  · rw [← hm'] at hv
    simp at hv ⊢
    grind

theorem Ring.push (hr : Ring L h l) (hb : b ∉ h :: l) : Ring (L.push h b) h (b :: l) := by
  have hbh : b ≠ h := by
    rintro rfl
    simp at hb
  obtain ⟨c, m, hm⟩ : ∃ c m, l ++ [h] = c :: m := by cases l <;> simp
  have hnodup : (c :: m).Nodup := by
    rw [← hm]
    exact (List.perm_append_singleton h l).nodup_iff.mpr hr.nodup
  have hbm : b ∉ c :: m := by
    rw [← hm]
    simp at hb ⊢
    grind
  have hchain : (h :: c :: m).IsChain L.Joined := by
    rw [← hm]
    exact hr.chain
  obtain ⟨hhc, hrest⟩ := List.isChain_cons_cons.mp hchain
  have hbc : b ≠ c := fun hbc => hbm (by simp [hbc])
  have hL : L.push h b = ⟨update (update L.next b c) h b, update (update L.prev b h) c b⟩ := by
    simp [Links.push, update_of_ne (Ne.symm hbh), hhc.1]
  refine ⟨?_, ?_⟩
  · refine (List.Perm.nodup_iff (List.Perm.swap b h l)).mpr ?_
    exact List.nodup_cons.mpr ⟨hb, hr.nodup⟩
  · have heq : h :: b :: l ++ [h] = h :: b :: c :: m := by simp [← hm]
    rw [heq, hL]
    refine List.isChain_cons_cons.mpr ⟨⟨update_self _ _ _, ?_⟩, List.isChain_cons_cons.mpr ⟨⟨?_, update_self _ _ _⟩, ?_⟩⟩
    · simp [update_of_ne hbc, update_self]
    · simp [update_of_ne hbh, update_self]
    · refine hrest.imp_of_mem_tail_imp fun u v hu hv huv => ?_
      have hub : u ≠ b := fun hub => hbm (hub ▸ hu)
      have hvb : v ≠ b := fun hvb => hbm (List.mem_cons_of_mem c (hvb ▸ hv))
      have hvc : v ≠ c := fun hvc => (List.nodup_cons.mp hnodup).1 (hvc ▸ hv)
      have huh : u ≠ h := by
        rintro rfl
        exact hvc (huv.1.symm.trans hhc.1)
      exact ⟨by simp [update_of_ne huh, update_of_ne hub, huv.1], by simp [update_of_ne hvc, update_of_ne hvb, huv.2]⟩

/-- `b` is moved to the front. -/
theorem Ring.toFront (hr : Ring L h l) (hb : b ∈ l) : Ring ((L.unlink b).push h b) h (b :: l.erase b) := by
  obtain ⟨l1, l2, -, hl, herase⟩ := List.exists_erase_eq hb
  rw [hl] at hr
  rw [herase]
  refine hr.unlink.push fun hmem => ?_
  exact (List.nodup_cons.mp hr.nodup_middle).1 hmem

/-! ## Walking the list -/

/-- `for (a = ...; a != h; a = next a) if (test a) return a;` -/
def scan (next : α → α) (h : α) (test : α → Bool) : Nat → α → Option α
  | 0, _ => none
  | fuel + 1, a => if a = h then none else if test a then some a else scan next h test fuel (next a)

theorem scan_eq_find {next : α → α} {test : α → Bool} : ∀ {l : List α} {a : α} {fuel : Nat},
    (l ++ [h]).IsChain (fun a b => next a = b) → h ∉ l → (l ++ [h]).head? = some a → l.length < fuel →
    scan next h test fuel a = l.find? test
  | _, _, 0, _, _, _, hf => by omega
  | [], a, fuel + 1, _, _, ha, _ => by
    simp at ha
    simp [scan, ha]
  | x :: l, a, fuel + 1, hc, hh, ha, hf => by
    simp at ha
    subst ha
    have hxh : x ≠ h := by
      rintro rfl
      simp at hh
    obtain ⟨y, m, hm⟩ : ∃ y m, l ++ [h] = y :: m := by cases l <;> simp
    have hc' : (x :: y :: m).IsChain (fun a b => next a = b) := by rwa [← hm]
    obtain ⟨hxy, hrest⟩ := List.isChain_cons_cons.mp hc'
    have ih : scan next h test fuel (next x) = l.find? test :=
      scan_eq_find (by rwa [hm]) (fun hl => hh (by simp [hl])) (by rw [hm, hxy]; rfl) (by simpa using hf)
    unfold scan
    rw [if_neg hxh, List.find?_cons, ih]
    cases test x <;> rfl

theorem Ring.scan_next (hr : Ring L h l) {fuel : Nat} (hf : l.length < fuel) (test : α → Bool) :
    scan L.next h test fuel (L.next h) = l.find? test := by
  obtain ⟨y, m, hm⟩ : ∃ y m, l ++ [h] = y :: m := by cases l <;> simp
  have hchain : (h :: (l ++ [h])).IsChain L.Joined := hr.chain
  rw [hm] at hchain
  obtain ⟨hy, hrest⟩ := List.isChain_cons_cons.mp hchain
  refine scan_eq_find ?_ (List.nodup_cons.mp hr.nodup).1 (by rw [hm, hy.1]; rfl) hf
  rw [hm]
  exact hrest.imp fun a b hab => hab.1

theorem Ring.scan_prev (hr : Ring L h l) {fuel : Nat} (hf : l.length < fuel) (test : α → Bool) :
    scan L.prev h test fuel (L.prev h) = l.reverse.find? test :=
  hr.reverse.scan_next (by simpa using hf) test

end Xv6.Lib
