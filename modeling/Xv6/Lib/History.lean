/-
  Xv6.Lib.History — what a plain store may answer.

  A history is the list of loads and stores done so far, the last first. It is that of a
  plain store when each load has the value of the last store to its key before it, or the
  value that the key had at the start (`Plain`).
-/

import Mathlib.Algebra.Order.Ring.Nat

namespace Xv6.Lib

inductive Event (κ β : Type)
  | load (k : κ) (v : β)
  | store (k : κ) (v : β)
  deriving DecidableEq

variable {κ β : Type} [DecidableEq κ]

/-- The value of `k` after the history `l`. -/
def latest (start : κ → β) : List (Event κ β) → κ → β
  | [], k => start k
  | .load _ _ :: l, k => latest start l k
  | .store k' v :: l, k => if k = k' then v else latest start l k

def Plain (start : κ → β) : List (Event κ β) → Prop
  | [] => True
  | .load k v :: l => v = latest start l k ∧ Plain start l
  | .store _ _ :: l => Plain start l

variable {start : κ → β} {l : List (Event κ β)} {k k' : κ} {v : β}

@[simp] theorem latest_load : latest start (.load k' v :: l) k = latest start l k := rfl

@[simp] theorem latest_store_self : latest start (.store k v :: l) k = v := if_pos rfl

theorem latest_store_of_ne (h : k ≠ k') : latest start (.store k' v :: l) k = latest start l k := if_neg h

/-- The same history with each key renamed. -/
def Event.rename {κ' : Type} (f : κ → κ') : Event κ β → Event κ' β
  | .load k v => .load (f k) v
  | .store k v => .store (f k) v

end Xv6.Lib
