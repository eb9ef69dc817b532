/-
  Xv6.Lib.Circle — circular singly linked lists.

  `Circle next l`: each element's link is the one after it in `l`, and the last one's is the
  first. As an equation: following the links turns `l` by one place, so turning `l` further
  changes nothing, and a change of links can be stated where the list begins at the node that
  changes. A walk from any node meets the first node that passes a test.
-/

import Mathlib.Data.List.Rotate
import Mathlib.Data.Nat.Find
import Xv6.Lib.Update

namespace Xv6.Lib

variable {α : Type*} {next : α → α} {a b x : α} {l l1 l2 : List α}

def Circle (next : α → α) (l : List α) : Prop := l.map next = l.rotate 1

theorem Circle.rotate (h : Circle next l) (n : Nat) : Circle next (l.rotate n) := by
  unfold Circle
  rw [List.map_rotate, h, List.rotate_rotate, List.rotate_rotate, Nat.add_comm]

/-- The list may begin at any of its nodes. -/
theorem circle_middle : Circle next (l1 ++ a :: l2) ↔ Circle next (a :: (l2 ++ l1)) := by
  have hturn : (l1 ++ a :: l2).rotate l1.length = a :: (l2 ++ l1) := by
    rw [List.rotate_append_length_eq, List.cons_append]
  have hback : (a :: (l2 ++ l1)).rotate (a :: l2).length = l1 ++ a :: l2 := by
    rw [← List.cons_append, List.rotate_append_length_eq]
  constructor
  · intro h
    exact hturn ▸ h.rotate _
  · intro h
    exact hback ▸ h.rotate _

theorem circle_cons : Circle next (a :: l) ↔ next a :: l.map next = l ++ [a] := by
  simp [Circle]

theorem circle_singleton : Circle next [a] ↔ next a = a := by
  simp [circle_cons]

/-- The link of a node with another one after it. -/
theorem Circle.next_eq (h : Circle next (l1 ++ a :: b :: l2)) : next a = b := by
  rw [circle_middle, circle_cons, List.cons_append] at h
  exact (List.cons.inj h).1

/-- The last node's link. -/
theorem Circle.next_last (h : Circle next (b :: l ++ [a])) : next a = b := by
  rw [circle_middle, circle_cons] at h
  exact (List.cons.inj h).1

section links

variable [DecidableEq α]

theorem map_update_of_notMem {f : α → α} {v : α} (h : a ∉ l) : l.map (update f a v) = l.map f :=
  List.map_congr_left fun _ hx => update_of_ne (ne_of_mem_of_not_mem hx h) v f

/-- `b` is linked in after `a`. -/
theorem Circle.insert (h : Circle next (l1 ++ a :: l2)) (hnodup : (l1 ++ a :: l2).Nodup)
    (hb : b ∉ l1 ++ a :: l2) :
    Circle (update (update next b (next a)) a b) (l1 ++ a :: b :: l2) := by
  rw [circle_middle] at h ⊢
  rw [List.perm_middle.nodup_iff, List.nodup_cons] at hnodup
  rw [List.mem_append, List.mem_cons, not_or, not_or] at hb
  have ha : a ∉ l2 ++ l1 := fun hm => hnodup.1 (List.mem_append.mpr (List.mem_append.mp hm).symm)
  have hb' : b ∉ l2 ++ l1 := fun hm => (List.mem_append.mp hm).elim hb.2.2 hb.1
  rw [circle_cons] at h ⊢
  rw [List.cons_append, List.map_cons, update_self, update_of_ne hb.2.1, update_self,
    map_update_of_notMem ha, map_update_of_notMem hb', h, List.cons_append]

/-- The node after `a` is taken out. -/
theorem Circle.erase (h : Circle next (l1 ++ a :: b :: l2)) (hnodup : (l1 ++ a :: b :: l2).Nodup) :
    Circle (update next a (next b)) (l1 ++ a :: l2) := by
  rw [circle_middle] at h ⊢
  rw [List.perm_middle.nodup_iff, List.nodup_cons] at hnodup
  have ha : a ∉ l2 ++ l1 := by
    intro hm
    apply hnodup.1
    rcases List.mem_append.mp hm with hm | hm
    · exact List.mem_append_right _ (List.mem_cons_of_mem _ hm)
    · exact List.mem_append_left _ hm
  rw [circle_cons] at h ⊢
  rw [List.cons_append, List.map_cons, List.cons_append] at h
  rw [update_self, map_update_of_notMem ha]
  exact (List.cons.inj h).2

end links

/-- From the first node the links lead to each of the others. -/
theorem Circle.iterate_mem (h : Circle next (x :: l)) (ha : a ∈ x :: l) : ∃ k ≤ l.length, next^[k] x = a := by
  -- along a list where each link leads to the next element
  have walk : ∀ (m : List α) (y : α) (t : List α), next y :: m.map next = m ++ t → ∀ c ∈ y :: m,
      ∃ k ≤ m.length, next^[k] y = c := by
    intro m
    induction m with
    | nil =>
      intro y t _ c hc
      exact ⟨0, le_rfl, (List.mem_singleton.mp hc).symm⟩
    | cons z m ih =>
      intro y t hlinks c hc
      rcases List.mem_cons.mp hc with rfl | hc
      · exact ⟨0, Nat.zero_le _, rfl⟩
      · rw [List.map_cons, List.cons_append] at hlinks
        obtain ⟨hy, hm⟩ := List.cons.inj hlinks
        obtain ⟨k, hk, hck⟩ := ih z t hm c hc
        refine ⟨k + 1, Nat.succ_le_succ hk, ?_⟩
        rw [Function.iterate_succ_apply, hy, hck]
  exact walk l x [x] (circle_cons.mp h) a ha

theorem Circle.next_mem (h : Circle next l) (ha : a ∈ l) : next a ∈ l := by
  have hmem : next a ∈ l.map next := List.mem_map_of_mem ha
  rw [h] at hmem
  exact List.mem_rotate.mp hmem

/-- Each node is some node's link. -/
theorem Circle.exists_prev (h : Circle next l) (ha : a ∈ l) : ∃ y ∈ l, next y = a := by
  have hmem : a ∈ l.map next := by
    rw [h]
    exact List.mem_rotate.mpr ha
  exact List.mem_map.mp hmem

theorem Circle.mem_iterate (h : Circle next l) (ha : a ∈ l) (k : Nat) : next^[k] a ∈ l := by
  induction k with
  | zero => exact ha
  | succ k ih =>
    rw [Function.iterate_succ_apply']
    exact h.next_mem ih

/-- A walk round the circle from `x` meets a first node that passes the test, if there is one. -/
theorem Circle.first {stop : α → Prop} (h : Circle next l) (hx : x ∈ l) (hstop : ∃ y ∈ l, stop y) :
    ∃ k < l.length, stop (next^[k] x) ∧ ∀ j < k, ¬stop (next^[j] x) := by
  classical
  obtain ⟨l1, l2, rfl⟩ := List.append_of_mem hx
  obtain ⟨y, hy, hsy⟩ := hstop
  have hy' : y ∈ x :: (l2 ++ l1) := by
    simp only [List.mem_append, List.mem_cons] at hy ⊢
    rcases hy with hy | hy | hy
    · exact .inr (.inr hy)
    · exact .inl hy
    · exact .inr (.inl hy)
  obtain ⟨k, hk, hky⟩ := (circle_middle.mp h).iterate_mem hy'
  have hex : ∃ k, stop (next^[k] x) := ⟨k, hky ▸ hsy⟩
  refine ⟨Nat.find hex, ?_, Nat.find_spec hex, fun j hj => Nat.find_min hex hj⟩
  have hle : Nat.find hex ≤ k := Nat.find_min' hex (hky ▸ hsy)
  simp only [List.length_append, List.length_cons] at hk ⊢
  omega

/-- A loop that follows `next` from `x` until `stop`, with a bound on its rounds. -/
def follow (stop : α → Bool) (next : α → α) : Nat → α → Option α
  | 0, _ => none
  | fuel + 1, x => if stop x then some x else follow stop next fuel (next x)

theorem follow_eq {stop : α → Bool} {k fuel : Nat} (hk : k < fuel) (hstop : stop (next^[k] x) = true)
    (hgo : ∀ j < k, stop (next^[j] x) ≠ true) : follow stop next fuel x = some (next^[k] x) := by
  induction k generalizing fuel x with
  | zero =>
    obtain ⟨f, rfl⟩ : ∃ f, fuel = f + 1 := ⟨fuel - 1, by omega⟩
    exact if_pos hstop
  | succ k ih =>
    obtain ⟨f, rfl⟩ : ∃ f, fuel = f + 1 := ⟨fuel - 1, by omega⟩
    have hx : stop x ≠ true := hgo 0 (Nat.succ_pos k)
    rw [follow, if_neg hx, Function.iterate_succ_apply]
    exact ih (by omega) hstop fun j hj => hgo (j + 1) (by omega)

theorem follow_mono {stop : α → Bool} {f g : Nat} {y : α} (h : follow stop next f x = some y) (hfg : f ≤ g) :
    follow stop next g x = some y := by
  induction f generalizing g x with
  | zero => cases h
  | succ f ih =>
    obtain ⟨g, rfl⟩ : ∃ k, g = k + 1 := ⟨g - 1, by omega⟩
    rw [follow] at h ⊢
    split at h
    next hx => exact (if_pos hx).trans h
    next hx => exact (if_neg hx).trans (ih h (by omega))

/-- On a circle the loop stops, within one turn, at a node that passes the test. -/
theorem Circle.follow {stop : α → Bool} {fuel : Nat} (h : Circle next l) (hx : x ∈ l)
    (hstop : ∃ y ∈ l, stop y = true) (hfuel : l.length ≤ fuel) :
    ∃ y ∈ l, Lib.follow stop next fuel x = some y ∧ stop y = true := by
  obtain ⟨k, hk, hsk, hgo⟩ := h.first hx hstop
  exact ⟨_, h.mem_iterate hx k, follow_eq (by omega) hsk hgo, hsk⟩

end Xv6.Lib
