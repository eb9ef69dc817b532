/-
  Xv6.Lib.Window — what a ring buffer holds from an index on.

  `Window cap buf r l`: the `cap` cells of `buf`, read from index `r` on and round, hold `l`.
  Indices are free-running, so a machine counter stands for them as long as the buffer's size
  divides the counter's range (`window_mod`).
-/

import Mathlib.Data.Nat.ModEq
import Xv6.Lib.Update

namespace Xv6.Lib

variable {β : Type*} {cap r m : Nat} {buf : Nat → β} {x : β} {l l' : List β}

structure Window (cap : Nat) (buf : Nat → β) (r : Nat) (l : List β) : Prop where
  room : l.length ≤ cap
  cell : ∀ i < l.length, l[i]? = some (buf ((r + i) % cap))

theorem Window.nil : Window cap buf r [] := ⟨Nat.zero_le _, by simp⟩

theorem window_mod (hm : cap ∣ m) : Window cap buf (r % m) l ↔ Window cap buf r l := by
  have hidx : ∀ i, (r % m + i) % cap = (r + i) % cap := by
    intro i
    rw [Nat.add_mod, Nat.mod_mod_of_dvd _ hm, ← Nat.add_mod]
  constructor
  · rintro ⟨hroom, hcell⟩
    exact ⟨hroom, fun i hi => by rw [hcell i hi, hidx]⟩
  · rintro ⟨hroom, hcell⟩
    exact ⟨hroom, fun i hi => by rw [hcell i hi, hidx]⟩

/-- One more element, in the cell after the last. -/
theorem Window.push (h : Window cap buf r l) (hroom : l.length < cap) (x : β) :
    Window cap (update buf ((r + l.length) % cap) x) r (l ++ [x]) := by
  have hlen : (l ++ [x]).length = l.length + 1 := by simp
  refine ⟨by omega, fun i hi => ?_⟩
  rcases Nat.lt_or_ge i l.length with hlt | hge
  · -- the cells of fewer than `cap` elements are distinct
    have hne : (r + i) % cap ≠ (r + l.length) % cap := by
      intro heq
      have hmod : Nat.ModEq cap i l.length := Nat.ModEq.add_left_cancel' r heq
      exact hlt.ne (Nat.ModEq.eq_of_lt_of_lt hmod (by omega) hroom)
    rw [List.getElem?_append_left hlt, update_of_ne hne, h.cell i hlt]
  · obtain rfl : i = l.length := by omega
    rw [List.getElem?_concat_length, update_self]

theorem Window.of_append (h : Window cap buf r (l ++ l')) : Window cap buf r l := by
  have hlen : (l ++ l').length = l.length + l'.length := List.length_append
  have hroom := h.room
  refine ⟨by omega, fun i hi => ?_⟩
  rw [← h.cell i (by omega), List.getElem?_append_left hi]

theorem Window.right (h : Window cap buf r (l ++ l')) : Window cap buf (r + l.length) l' := by
  have hlen : (l ++ l').length = l.length + l'.length := List.length_append
  have hroom := h.room
  refine ⟨by omega, fun i hi => ?_⟩
  have hcell := h.cell (l.length + i) (by omega)
  rwa [List.getElem?_append_right (Nat.le_add_right _ _), Nat.add_sub_cancel_left, ← Nat.add_assoc] at hcell

/-- The list, read off the cells. -/
theorem Window.eq_map (h : Window cap buf r l) : l = (List.range l.length).map fun i => buf ((r + i) % cap) := by
  apply List.ext_getElem?
  intro i
  rcases Nat.lt_or_ge i l.length with hi | hi
  · rw [h.cell i hi, List.getElem?_map, List.getElem?_range hi, Option.map_some]
  · rw [List.getElem?_eq_none hi, List.getElem?_eq_none (by simpa using hi)]

theorem Window.head (h : Window cap buf r (x :: l)) : buf (r % cap) = x := by
  have hcell := h.cell 0 (by simp)
  rw [List.getElem?_cons_zero, Nat.add_zero] at hcell
  exact (Option.some.inj hcell).symm

theorem Window.tail (h : Window cap buf r (x :: l)) : Window cap buf (r + 1) l := by
  have hroom := h.room
  rw [List.length_cons] at hroom
  refine ⟨by omega, fun i hi => ?_⟩
  have hcell := h.cell (i + 1) (by simpa using hi)
  rwa [List.getElem?_cons_succ, ← Nat.add_assoc, Nat.add_right_comm] at hcell

/-- The last element. -/
theorem Window.last (h : Window cap buf r (l ++ [x])) : buf ((r + l.length) % cap) = x := by
  have hcell := h.cell l.length (by simp)
  rw [List.getElem?_concat_length] at hcell
  exact (Option.some.inj hcell).symm

/-! ## Queues with wrapping counters -/

/-- The ring between two counters modulo `m` holds `l`. -/
structure Queue (cap m : Nat) (buf : Nat → β) (start stop : Nat) (l : List β) : Prop where
  start_lt : start < m
  stop : stop = (start + l.length) % m
  window : Window cap buf start l

variable {start stop : Nat}

theorem Queue.empty (cap : Nat) (buf : Nat → β) (h : start < m) : Queue cap m buf start start [] :=
  ⟨h, (Nat.mod_eq_of_lt h).symm, .nil⟩

section

variable (h : Queue cap m buf start stop l)

include h

theorem Queue.empty_iff (hcap : cap < m) : start = stop ↔ l = [] := by
  have hlt := h.start_lt
  have hroom := h.window.room
  rw [h.stop, ← List.length_eq_zero_iff]
  constructor
  · intro heq
    rcases Nat.lt_or_ge (start + l.length) m with hsmall | hlarge
    · rw [Nat.mod_eq_of_lt hsmall] at heq
      omega
    · rw [Nat.mod_eq_sub_mod hlarge, Nat.mod_eq_of_lt (by omega)] at heq
      omega
  · intro heq
    rw [heq, Nat.add_zero, Nat.mod_eq_of_lt hlt]

theorem Queue.length (hcap : cap < m) : (stop + m - start) % m = l.length := by
  have hlt := h.start_lt
  have hroom := h.window.room
  rw [h.stop]
  rcases Nat.lt_or_ge (start + l.length) m with hsmall | hlarge
  · rw [Nat.mod_eq_of_lt hsmall, show start + l.length + m - start = l.length + m by omega, Nat.add_mod_right,
      Nat.mod_eq_of_lt (by omega)]
  · rw [Nat.mod_eq_sub_mod hlarge, Nat.mod_eq_of_lt (by omega : start + l.length - m < m),
      show start + l.length - m + m - start = l.length by omega, Nat.mod_eq_of_lt (by omega)]

theorem Queue.slot (hm : cap ∣ m) : stop % cap = (start + l.length) % cap := by
  rw [h.stop, Nat.mod_mod_of_dvd _ hm]

section

variable (hm : cap ∣ m) (hroom : l.length < cap)
include hm hroom

/-- A write to the slot after the last element. -/
theorem Queue.poke (x : β) :
    Queue cap m (update buf (stop % cap) x) start stop l where
  start_lt := h.start_lt
  stop := h.stop
  window := by
    rw [h.slot hm]
    exact (h.window.push hroom x).of_append

/-- That write leaves the elements alone. -/
theorem Queue.poke_cell (x : β) {k : Nat} (hk : k < l.length) : update buf (stop % cap) x ((start + k) % cap) = buf
    ((start + k) % cap) := by
  have hnew := (h.poke hm hroom x).window.cell k hk
  rw [h.window.cell k hk] at hnew
  exact (Option.some.inj hnew).symm

/-- The element in that slot becomes part of the queue. -/
theorem Queue.extend (hx : buf (stop % cap) = x) : Queue cap m buf start ((stop + 1) % m) (l ++ [x]) where
  start_lt := h.start_lt
  stop := by rw [h.stop, Nat.mod_add_mod, List.length_append, List.length_singleton, Nat.add_assoc]
  window := by
    rw [h.slot hm] at hx
    have hpush := h.window.push hroom x
    rwa [update_same hx] at hpush

theorem Queue.push (x : β) :
    Queue cap m (update buf (stop % cap) x) start ((stop + 1) % m) (l ++ [x]) :=
  (h.poke hm hroom x).extend hm hroom (update_self _ _ _)

end

end

theorem Queue.pop (h : Queue cap m buf start stop (x :: l)) (hm : cap ∣ m) :
    buf (start % cap) = x ∧ Queue cap m buf ((start + 1) % m) stop l := by
  refine ⟨h.window.head, Nat.mod_lt _ (Nat.zero_lt_of_lt h.start_lt), ?_, (window_mod hm).mpr h.window.tail⟩
  rw [h.stop, List.length_cons, Nat.mod_add_mod]
  congr 1
  omega

end Xv6.Lib
