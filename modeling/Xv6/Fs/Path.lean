/-
  Xv6.Fs.Path — what a path names (kernel/fs.c: `skipelem`, `namex`, `namei`, `nameiparent`).

  A path is a string in memory, and its components are the non-empty parts between slashes,
  each cut to `dirsiz` bytes. `skipelemAt` is `skipelem` on memory: it moves a pointer and fills
  a buffer of `dirsiz` bytes, which has no terminator when the component has `dirsiz` bytes or
  more and keeps what it had behind a shorter one. `follow` looks the components up one after
  the other, starting from a directory.

  Proved: `elemsAt_eq_components`, `path_resolution`.
-/

import Xv6.Fs.Image
import Mathlib.Data.List.TakeWhile
import Mathlib.Data.List.DropRight

namespace Xv6.Fs

open Xv6.Lib

/-! ## Components -/

/-- The non-empty parts of a path between slashes, cut to `dirsiz` bytes. -/
def components (path : List UInt8) : List (List UInt8) :=
  ((path.splitOn slash).filter (· ≠ [])).map (List.take dirsiz)

theorem components_nil : components [] = [] := rfl

theorem components_slash (path : List UInt8) : components (slash :: path) = components path := by
  have hsplit : (slash :: path).splitOn slash = [[]] ++ path.splitOn slash :=
    List.splitOnP_append_cons [] path (by simp)
  simp [components, hsplit]

theorem components_slashes (path : List UInt8) : components (path.dropWhile (· == slash)) = components path := by
  induction path with
  | nil => rfl
  | cons c path ih =>
    by_cases hc : c = slash
    · subst hc
      rw [components_slash, ← ih]
      rfl
    · rw [List.dropWhile_cons_of_neg (by simpa using hc)]

variable {e rest path name : List UInt8} {p fuel k : Nat}

/-- An element and what follows it. -/
theorem components_elem (hne : e ≠ []) (he : slash ∉ e) (hrest : rest = [] ∨ rest.head? = some slash) :
    components (e ++ rest) = e.take dirsiz :: components rest := by
  have hself : e.splitOn slash = [e] := List.splitOnP_eq_singleton fun x hx => by
    simpa using fun h : x = slash => he (h ▸ hx)
  rcases hrest with rfl | hrest
  · simp [components, hself, hne]
  · obtain ⟨r, rfl⟩ : ∃ r, rest = slash :: r := by
      cases rest with
      | nil => simp at hrest
      | cons c r => exact ⟨r, by simpa using hrest⟩
    have hsplit : (e ++ slash :: r).splitOn slash = e.splitOn slash ++ r.splitOn slash :=
      List.splitOnP_append_cons e r (by simp)
    rw [components_slash]
    simp [components, hsplit, hself, hne]

theorem components_skipelem (path : List UInt8) : components path = match skipelem path with
    | none => []
    | some (e, rest) => e :: components rest := by
  unfold skipelem
  rw [← components_slashes path]
  have hhead := List.head?_dropWhile_not (· == slash) path
  cases hpath : path.dropWhile (· == slash) with
  | nil => rfl
  | cons c rest =>
    rw [hpath] at hhead
    have hc : c ≠ slash := by simpa using hhead
    simp only
    rw [components_slashes]
    have hsplit := List.takeWhile_append_dropWhile (p := (· != slash)) (l := c :: rest)
    have hmem : slash ∉ (c :: rest).takeWhile (· != slash) := fun h => by
      simpa using List.mem_takeWhile_imp h
    have hne : (c :: rest).takeWhile (· != slash) ≠ [] := by simp [hc]
    have hrest : (c :: rest).dropWhile (· != slash) = [] ∨
        ((c :: rest).dropWhile (· != slash)).head? = some slash := by
      have := List.head?_dropWhile_not (· != slash) (c :: rest)
      cases hd : (c :: rest).dropWhile (· != slash) with
      | nil => exact .inl rfl
      | cons x l =>
        rw [hd] at this
        exact .inr (by simpa using this)
    conv_lhs => rw [← hsplit]
    exact components_elem hne hmem hrest

theorem skipelem_length (h : skipelem path = some (e, rest)) : rest.length < path.length := by
  have hlen : (path.dropWhile (· == slash)).length ≤ path.length := (List.dropWhile_suffix _).length_le
  have hhead := List.head?_dropWhile_not (· == slash) path
  unfold skipelem at h
  cases hpath : path.dropWhile (· == slash) with
  | nil => simp [hpath] at h
  | cons c m =>
    rw [hpath] at h hlen hhead
    have hc : c ≠ slash := by simpa using hhead
    obtain ⟨-, rfl⟩ : _ ∧ _ = rest := by simpa using h
    calc _ ≤ ((c :: m).dropWhile (· != slash)).length := (List.dropWhile_suffix _).length_le
      _ ≤ m.length := by
        rw [List.dropWhile_cons_of_pos (by simpa using hc)]
        exact (List.dropWhile_suffix _).length_le
      _ < path.length := Nat.lt_of_succ_le hlen

/-- `skipelem` leaves no slash in front, so the path has ended when no component is left. -/
theorem skipelem_rest (h : skipelem path = some (e, rest)) : components rest = [] ↔ rest = [] := by
  have hrest : rest.dropWhile (· == slash) = rest := by
    unfold skipelem at h
    cases hpath : path.dropWhile (· == slash) with
    | nil => simp [hpath] at h
    | cons c m =>
      rw [hpath] at h
      obtain ⟨-, rfl⟩ : _ ∧ _ = rest := by simpa using h
      exact List.dropWhile_idempotent _ _
  refine ⟨fun hnil => ?_, fun hnil => by rw [hnil, components_nil]⟩
  rw [components_skipelem, skipelem, hrest] at hnil
  cases rest with
  | nil => rfl
  | cons c m => simp at hnil

/-! ## skipelem on memory -/

/-- `while(*path == '/') path++;` -/
def skipSlashes (b : Bytes) : Nat → Nat → Nat
  | 0, p => p
  | fuel + 1, p => if b p = slash then skipSlashes b fuel (p + 1) else p

/-- `while(*path != '/' && *path != 0) path++;` -/
def elemEnd (b : Bytes) : Nat → Nat → Nat
  | 0, p => p
  | fuel + 1, p => if b p ≠ slash ∧ b p ≠ 0 then elemEnd b fuel (p + 1) else p

/-- `skipelem(path, name)` for the string at `p`: the new pointer, and what is in `name` then. The loops run for at most
    `fuel` steps each. -/
def skipelemAt (b : Bytes) (fuel p : Nat) (name : Bytes) : Option (Nat × Bytes) :=
  let s := skipSlashes b fuel p
  if b s = 0 then none
  else
    let e := elemEnd b fuel s
    let len := e - s
    let name' :=
      if dirsiz ≤ len then putBytes name 0 (slice b s dirsiz) else update (putBytes name 0 (slice b s len)) len 0
    some (skipSlashes b fuel e, name')

/-- `while((path = skipelem(path, name)) != 0)`: the names it gives until it returns 0, each as `namecmp` reads it, or
    nothing if it has not returned 0 after `n` calls. -/
def elemsAt (b : Bytes) (fuel : Nat) : Nat → Nat → Bytes → Option (List (List UInt8))
  | 0, _, _ => none
  | n + 1, p, name =>
    match skipelemAt b fuel p name with
    | none => some []
    | some (p', name') => (elemsAt b fuel n p' name').map (key (slice name' 0 dirsiz) :: ·)

/-- The NUL-terminated string at `p`. -/
def IsStr (b : Bytes) : Nat → List UInt8 → Prop
  | p, [] => b p = 0
  | p, c :: l => b p = c ∧ c ≠ 0 ∧ IsStr b (p + 1) l

section

variable {b : Bytes} {l : List UInt8} {n : Nat}

theorem IsStr.skipSlashes : ∀ {l : List UInt8} {fuel p : Nat}, IsStr b p l → l.length ≤ fuel →
    IsStr b (skipSlashes b fuel p) (l.dropWhile (· == slash))
  | [], 0, _, h, _ => h
  | [], fuel + 1, p, h, _ => by
    have h0 : b p = 0 := h
    have hs : b p ≠ slash := by
      rw [h0]
      decide
    simpa [Fs.skipSlashes, hs] using h
  | c :: l, 0, _, _, hf => by simp at hf
  | c :: l, fuel + 1, p, h, hf => by
    obtain ⟨rfl, hc, hl⟩ := h
    unfold Fs.skipSlashes
    by_cases hs : b p = slash
    · rw [if_pos hs, List.dropWhile_cons_of_pos (by simpa using hs)]
      exact hl.skipSlashes (by simpa using hf)
    · rw [if_neg hs, List.dropWhile_cons_of_neg (by simpa using hs)]
      exact ⟨rfl, hc, hl⟩

theorem IsStr.elemEnd : ∀ {l : List UInt8} {fuel p : Nat}, IsStr b p l → l.length ≤ fuel →
    elemEnd b fuel p = p + (l.takeWhile (· != slash)).length ∧
    slice b p (l.takeWhile (· != slash)).length = l.takeWhile (· != slash) ∧
    IsStr b (elemEnd b fuel p) (l.dropWhile (· != slash))
  | [], 0, _, h, _ => ⟨rfl, rfl, h⟩
  | [], fuel + 1, p, h, _ => by
    have h0 : b p = 0 := h
    simpa [Fs.elemEnd, h0, slice] using h
  | c :: l, 0, _, _, hf => by simp at hf
  | c :: l, fuel + 1, p, h, hf => by
    obtain ⟨rfl, hc, hl⟩ := h
    unfold Fs.elemEnd
    by_cases hs : b p = slash
    · rw [if_neg (by simp [hs]), List.takeWhile_cons_of_neg (by simpa using hs),
        List.dropWhile_cons_of_neg (by simpa using hs)]
      exact ⟨rfl, rfl, rfl, hc, hl⟩
    · have hfuel : l.length ≤ fuel := by simpa using hf
      obtain ⟨hend, hslice, hrest⟩ := hl.elemEnd hfuel
      rw [if_pos ⟨hs, hc⟩, List.takeWhile_cons_of_pos (by simpa using hs),
        List.dropWhile_cons_of_pos (by simpa using hs)]
      refine ⟨?_, ?_, hrest⟩
      · rw [hend, List.length_cons]
        omega
      · rw [List.length_cons, Nat.add_comm, ← slice_append, hslice]
        rfl

theorem IsStr.no_nul : ∀ {l : List UInt8} {p : Nat}, IsStr b p l → 0 ∉ l
  | [], _, _ => by simp
  | c :: l, p, ⟨_, hc, hl⟩ => by simp [hl.no_nul, Ne.symm hc]

theorem IsStr.nul_iff (h : IsStr b p l) : b p = 0 ↔ l = [] := by
  cases l with
  | nil => simpa [IsStr] using h
  | cons c l =>
    obtain ⟨rfl, hc, -⟩ := h
    simpa using hc

theorem cstr_terminated : ∀ (n : Nat) {w : List UInt8} (rest : List UInt8), 0 ∉ w →
    cstr n (w ++ 0 :: rest) = w.take n
  | 0, _, _, _ => rfl
  | n + 1, [], _, _ => rfl
  | n + 1, c :: w, rest, h => by
    simp only [List.mem_cons, not_or] at h
    simp [cstr, Ne.symm h.1, cstr_terminated n rest h.2]

/-- The buffer after a copy of `w` and a terminator behind it. -/
theorem slice_terminated (name : Bytes) {w : List UInt8} (h : w.length < n) :
    ∃ rest, slice (update (putBytes name 0 w) w.length 0) 0 n = w ++ 0 :: rest := by
  have hn : w.length + (1 + (n - w.length - 1)) = n := by omega
  refine ⟨slice (update (putBytes name 0 w) w.length 0) (w.length + 1) (n - w.length - 1), ?_⟩
  rw [← hn, ← slice_append, ← slice_append]
  have hw : slice (update (putBytes name 0 w) w.length 0) 0 w.length = w := by
    conv_rhs => rw [← slice_putBytes name 0 w]
    apply slice_congr
    intro j hj
    rw [update_of_ne (by omega)]
  have hnul : slice (update (putBytes name 0 w) w.length 0) (0 + w.length) 1 = [0] := by
    simp [slice, update_self]
  rw [hw, hnul]
  simp

/-- `skipelem` on memory does what it does on the list of bytes, whatever the buffer held. -/
theorem skipelemAt_eq (h : IsStr b p l) (hf : l.length ≤ fuel) (name : Bytes) :
    match skipelem l with
    | none => skipelemAt b fuel p name = none
    | some (e, rest) => ∃ p' name', skipelemAt b fuel p name = some (p', name') ∧
        IsStr b p' rest ∧ key (slice name' 0 dirsiz) = e := by
  have hs := h.skipSlashes hf
  have hlen : (l.dropWhile (· == slash)).length ≤ fuel := (List.dropWhile_suffix _).length_le.trans hf
  unfold skipelem skipelemAt
  cases hl : l.dropWhile (· == slash) with
  | nil =>
    rw [hl] at hs
    simp [hs.nul_iff]
  | cons c m =>
    rw [hl] at hs hlen
    obtain ⟨hend, hslice, hrest⟩ := hs.elemEnd hlen
    have hshort : ((c :: m).dropWhile (· != slash)).length ≤ fuel := (List.dropWhile_suffix _).length_le.trans hlen
    have hnul : b (skipSlashes b fuel p) ≠ 0 := by simp [hs.nul_iff]
    simp only [hnul, if_false]
    refine ⟨_, _, rfl, hrest.skipSlashes hshort, ?_⟩
    · have hno : 0 ∉ (c :: m).takeWhile (· != slash) := fun h0 =>
        hs.no_nul ((List.takeWhile_prefix _).subset h0)
      rw [hend, Nat.add_sub_cancel_left]
      generalize (c :: m).takeWhile (· != slash) = w at hno hslice ⊢
      split
      next hlong =>
        have hcut : slice b (skipSlashes b fuel p) dirsiz = w.take dirsiz := by
          conv_rhs => rw [← hslice, ← Nat.add_sub_of_le hlong, ← slice_append]
          simp
        have hfull := slice_putBytes name 0 (w.take dirsiz)
        rw [List.length_take_of_le hlong] at hfull
        rw [hcut, hfull]
        exact key_self (fun h0 => hno (List.mem_of_mem_take h0)) (List.length_take_le _ _)
      next hlong =>
        rw [hslice]
        obtain ⟨rest, hr⟩ := slice_terminated name (Nat.lt_of_not_le hlong)
        rw [key, hr, cstr_terminated _ _ hno]

/-- Calling `skipelem` until it returns 0 gives the components of the path. -/
theorem elemsAt_eq_components (h : IsStr b p l) (hf : l.length ≤ fuel) (hn : l.length < n) (name : Bytes) :
    elemsAt b fuel n p name = some (components l) := by
  induction n generalizing l p name with
  | zero => exact absurd hn (Nat.not_lt_zero _)
  | succ n ih =>
    have hstep := skipelemAt_eq h hf name
    rw [components_skipelem, elemsAt]
    cases hsk : skipelem l with
    | none =>
      simp only [hsk] at hstep
      rw [hstep]
    | some er =>
      obtain ⟨e, rest⟩ := er
      simp only [hsk] at hstep
      obtain ⟨p', name', hat, hstr, hkey⟩ := hstep
      have hlt := skipelem_length hsk
      simp only [hat, hkey, ih hstr (by omega) (by omega) name', Option.map_some]

end

/-! ## Following components -/

/-- The inode that a name has in a directory. -/
def enter (N : Nat → Node) (d : Nat) (name : List UInt8) : Option Nat :=
  if (N d).type = tDir then (N d).lookup name else none

/-- The left fold of the lookup over the components. -/
def follow (N : Nat → Node) (ip : Nat) (names : List (List UInt8)) : Option Nat := names.foldlM (enter N) ip

/-- The directory that all components but the last lead to, and the last one. -/
def followParent (N : Nat → Node) (ip : Nat) (names : List (List UInt8)) : Option (Nat × List UInt8) := do
  let name ← names.getLast?
  let d ← follow N ip names.dropLast
  if (N d).type = tDir then some (d, name) else none

section

variable {N : Nat → Node} {ip : Nat}

theorem walk_eq_follow (hf : path.length < fuel) :
    (walk N false fuel ip path name).map Prod.fst = follow N ip (components path) := by
  induction fuel generalizing ip path name with
  | zero => exact absurd hf (Nat.not_lt_zero _)
  | succ fuel ih =>
    rw [components_skipelem, walk]
    cases hsk : skipelem path with
    | none => rfl
    | some er =>
      obtain ⟨e, rest⟩ := er
      have hlt := skipelem_length hsk
      simp only [follow, List.foldlM_cons, enter, Node.lookup]
      by_cases hdir : (N ip).type = tDir
      · cases hfind : (N ip).find e with
        | none => simp [hdir]
        | some k => simpa [hdir, follow] using ih (by omega)
      · simp [hdir]

theorem walk_eq_followParent (hf : path.length < fuel) :
    walk N true fuel ip path name = followParent N ip (components path) := by
  induction fuel generalizing ip path name with
  | zero => exact absurd hf (Nat.not_lt_zero _)
  | succ fuel ih =>
    rw [components_skipelem, walk]
    cases hsk : skipelem path with
    | none => rfl
    | some er =>
      obtain ⟨e, rest⟩ := er
      have hlt := skipelem_length hsk
      have hend := skipelem_rest hsk
      by_cases hrest : rest = []
      · by_cases hdir : (N ip).type = tDir
        · simp [hdir, hrest, components_nil, followParent, follow]
        · simp [hdir, hrest, components_nil, followParent, follow]
      · obtain ⟨c, l, hcl⟩ := List.exists_cons_of_ne_nil (mt hend.mp hrest)
        have hcons : followParent N ip (e :: components rest) =
            (enter N ip e).bind fun d => followParent N d (components rest) := by
          rw [hcl]
          cases henter : enter N ip e with
          | none | some d => simp [followParent, follow, henter]
        simp only [hcons, enter, Node.lookup]
        by_cases hdir : (N ip).type = tDir
        · cases hfind : (N ip).find e with
          | none => simp [hdir, hrest]
          | some k => simpa [hdir, hrest] using ih (by omega)
        · simp [hdir]

end

/-! ## The way of namex through the inode table -/

/-- The inodes are those of `s0`, with `R` references and `n` entries of the table in use, and the only inode that may be
    locked is `held`. -/
structure Visit (sb : Superblock) (s0 : St) (R : Nat → Nat) (n : Nat) (held : Option Nat) (s : St) : Prop where
  ok : Ok sb True s
  nodes : node sb s = node sb s0
  refs : s.refs = R
  trans : 0 < s.outstanding
  locked : ∀ i, (s.itab i).locked = decide (held = some i)
  live : s.nlive = n

/-- Every stop but those that a consistent file system excludes. -/
def Other (e : Stop) : Prop := e ≠ .freeingFreeBlock ∧ e ≠ .outsideTrans ∧ e ≠ .ilockNoType

theorem other_tolerant : Tolerant Other := ⟨fun _ h1 h2 h3 => ⟨h1, h2, h3⟩⟩

section

variable {sb : Superblock} {s0 s : St} {R B : Nat → Nat} {n i : Nat} {held : Option Nat}

theorem Visit.ref (h : Visit sb s0 R n held s) (i : Nat) : (s.itab i).ref = R i := congrFun h.refs i

theorem Visit.iget (h : Visit sb s0 R n held s) (i : Nat) : wp (fun e => e = .igetNoInodes ∧ ninode ≤ n) (iget i)
    (fun _ s' => Visit sb s0 (R + one i) (if R i = 0 then n + 1 else n) held s') s := by
  have hspec := iget_wp other_tolerant (i := i) h.ok
  have hrun : wp (fun e => e = .igetNoInodes ∧ ninode ≤ n) (Fs.iget i)
      (fun _ s' => s'.nlive = if R i = 0 then n + 1 else n) s := by
    unfold Fs.iget
    rw [wp_get_bind, h.ref, h.live]
    split
    · rename_i hpos
      rw [if_neg (by omega)]
      exact h.live
    · rename_i hzero
      split
      · rename_i hfull
        exact ⟨rfl, hfull⟩
      · rw [if_pos (by omega)]
        rfl
  refine wp_error_mono (wp_mono (wp_and hspec hrun) ?_) fun _ he => he.2
  rintro _ s' ⟨⟨hok, hm, -, hrefs⟩, hlive⟩
  exact ⟨hok, hm.node.trans h.nodes, by rw [hrefs, h.refs], hm.outstanding ▸ h.trans,
    fun j => (congrFun hm.locks j).trans (h.locked j), hlive⟩

theorem Visit.idup (h : Visit sb s0 R n held s) (hr : 0 < R i) :
    wp (fun _ => False) (idup i) (fun _ s' => Visit sb s0 (R + one i) n held s') s := by
  obtain ⟨hok, hm, -, hrefs⟩ := idup_wp (E := fun _ => False) h.ok (h.refs ▸ hr : 0 < s.refs i)
  exact ⟨hok, hm.node.trans h.nodes, by rw [hrefs, h.refs], hm.outstanding ▸ h.trans,
    fun j => (congrFun hm.locks j).trans (h.locked j), h.live⟩

theorem Visit.ilock (h : Visit sb s0 R n none s) (hr : 0 < R i) (hi : (node sb s0 i).type ≠ 0) :
    wp (fun _ => False) (ilock sb i) (fun _ s' => Visit sb s0 R n (some i) s' ∧ s'.cached i) s := by
  have hused : (node sb s i).type ≠ 0 := h.nodes ▸ hi
  have hspec := ilock_wp other_tolerant h.ok ⟨lt_ninodes_of_type h.ok hused, fun h0 => absurd h0 hused⟩
  have hrun : wp (· = .ilockNoType) (Fs.ilock sb i) (fun _ s' => s'.nlive = s.nlive) s := by
    have href : ¬ (s.itab i).ref < 1 := by
      rw [h.ref]
      omega
    unfold Fs.ilock
    rw [wp_get_bind, if_neg href, if_neg (by simp [h.locked])]
    split
    · exact rfl
    · rw [wp_bind, wp_set]
      split
      · exact rfl
      · exact rfl
  refine wp_error_mono (wp_mono (wp_and hspec hrun) ?_) fun e he => he.1.2.2 he.2
  rintro _ s' ⟨⟨hok, hm, hrefs, hc, hl⟩, hlive⟩
  refine ⟨⟨hok, hm.node.trans h.nodes, hrefs.trans h.refs, hm.outstanding ▸ h.trans, fun j => ?_, hlive.trans h.live⟩, hc⟩
  refine (congrFun hl.eq j).trans ?_
  by_cases hj : j = i
  · simp [hj, update_self]
  · simp [update_of_ne hj, Ne.symm hj, St.locks, h.locked]

theorem Visit.iunlock (h : Visit sb s0 R n (some i) s) (hr : 0 < R i) :
    wp (fun _ => False) (iunlock i) (fun _ s' => Visit sb s0 R n none s') s := by
  have hspec := iunlock_wp other_tolerant (i := i) h.ok
  have hrun : wp (fun _ => False) (Fs.iunlock i) (fun _ s' => s'.nlive = n) s := by
    unfold wp
    rw [iunlock_held (by rw [h.ref]; exact hr) (by simp [h.locked])]
    exact h.live
  have hadds : Adds (fun _ => false) i s.locks := by
    refine ⟨rfl, funext fun j => (h.locked j).trans ?_⟩
    by_cases hj : j = i
    · simp [hj, update_self]
    · simp [update_of_ne hj, Ne.symm hj]
  refine wp_error_mono (wp_mono (wp_and hspec hrun) ?_) fun _ he => he.2
  rintro _ s' ⟨⟨hok, hm, hrefs, hl⟩, hlive⟩
  exact ⟨hok, hm.node.trans h.nodes, hrefs.trans h.refs, hm.outstanding ▸ h.trans, congrFun (hl _ hadds), hlive⟩

/-- Letting an inode go frees nothing where every inode without a name is held. -/
theorem Visit.iput (h : Visit sb s0 (B + one i) n none s) (htame : Tame B (node sb s0)) :
    wp (fun _ => False) (iput sb i) (fun _ s' => Visit sb s0 B (if B i = 0 then n - 1 else n) none s') s := by
  have hspec := iput_wp other_tolerant h.ok h.refs h.trans
  have href : (s.itab i).ref = B i + 1 := by
    rw [h.ref, refs_one, if_pos rfl]
  have hkeep : ¬ ((s.itab i).ref = 1 ∧ (s.itab i).valid ∧ (s.itab i).din.nlink = 0) := by
    intro ⟨h1, hvalid, hlink⟩
    have hc : s.cached i := ⟨by unfold St.refs; omega, hvalid⟩
    have hnode : node sb s0 i = nodeOf s.disk (s.itab i).din := by rw [← h.nodes, node_cached hc]
    have := htame i (by rw [hnode]; exact h.ok.alive i hc) (by rw [hnode]; exact hlink)
    omega
  have hrun : wp (fun _ => False) (Fs.iput sb i) (fun _ s' => s'.nlive = if B i = 0 then n - 1 else n) s := by
    unfold Fs.iput
    rw [wp_get_bind, if_neg hkeep]
    change (if (s.itab i).ref = 1 then s.nlive - 1 else s.nlive) = _
    rw [href, h.live]
    simp
  refine wp_error_mono (wp_mono (wp_and hspec hrun) ?_) fun _ he => he.2
  rintro _ s' ⟨⟨hok, hput, hl⟩, hlive⟩
  have hnode : node sb s' = node sb s := node_of_reap hput.reaped h.ok (h.nodes ▸ htame)
  exact ⟨hok, hnode.trans h.nodes, hput.refs, hput.outstanding ▸ h.trans,
    fun j => (congrFun hl j).trans (h.locked j), hlive⟩

theorem Visit.iunlockput (h : Visit sb s0 (B + one i) n (some i) s) (htame : Tame B (node sb s0)) :
    wp (fun _ => False) (iunlockput sb i) (fun _ s' => Visit sb s0 B (if B i = 0 then n - 1 else n) none s') s := by
  unfold Fs.iunlockput
  exact wp_seq (h.iunlock (refs_one_pos _ _)) fun _ _ h1 => h1.iput htame

/-- The lookup in the locked directory. -/
theorem Visit.dirlookup (h : Visit sb s0 R n (some i) s) (hc : s.cached i) (hd : DirOk (node sb s0 i)) :
    wp (fun e => e = .igetNoInodes ∧ ninode ≤ n) (dirlookup sb i name) (fun r s' => match r with
      | none => Visit sb s0 R n (some i) s'
      | some (ip, _) => Visit sb s0 (R + one ip) (if R ip = 0 then n + 1 else n) (some i) s' ∧
        ∃ k, (node sb s0 i).Has k ∧ (node sb s0 i).inum k = ip ∧ ip ≠ 0) s := by
  have hspec : wp Other (Fs.dirlookup sb i name) _ s := dirlookup_wp other_tolerant h.ok hc h.trans
  have hrun : wp _ (Fs.dirlookup sb i name) _ s := dirlookup_runs h.ok hc (h.nodes ▸ hd)
  rw [h.nodes] at hspec
  rw [h.live] at hrun
  refine wp_error_mono (wp_mono (wp_and hspec hrun) ?_) fun _ he => he.2
  rintro r s' ⟨⟨-, -, -, -, hfind⟩, hend⟩
  cases r with
  | none => exact hend ▸ h
  | some e =>
    obtain ⟨ip, off⟩ := e
    obtain ⟨k, -, hip, hhas, -, hsome⟩ := hfind
    refine ⟨(h.iget ip).ok hend, k, hhas, hip.symm, ?_⟩
    have hnamed := named_of_find hd.whole hsome
    rw [hip]
    exact hnamed.2.1

end

/-- The entries of the table in use, when inode `j` is taken and `i` let go. -/
theorem live_next (R : Nat → Nat) (n i j : Nat) :
    (if (R + one j) i = 0 then
        (if (R + one i) j = 0 then (if R i = 0 then n + 1 else n) + 1 else if R i = 0 then n + 1 else n) - 1
      else if (R + one i) j = 0 then (if R i = 0 then n + 1 else n) + 1 else if R i = 0 then n + 1 else n) =
      if R j = 0 then n + 1 else n := by
  rw [refs_one, refs_one]
  by_cases hij : i = j
  · subst hij
    simp
  · rw [if_neg hij, if_neg (Ne.symm hij)]
    by_cases hi : R i = 0
    · by_cases hj : R j = 0
      · simp [hi, hj]
      · simp [hi, hj]
    · simp [hi]

/-- A consistent directory tree, in a transaction, with nothing locked, and a working directory that is held. -/
structure Consistent (sb : Superblock) (cwd : Nat) (s : St) : Prop where
  ok : Ok sb True s
  trans : 0 < s.outstanding
  unlocked : ∀ i, (s.itab i).locked = false
  tame : Tame s.refs (node sb s)
  range : Ranged sb (node sb s)
  dangling : NoDangling (node sb s)
  dirs : ∀ d, (node sb s d).type = tDir → DirOk (node sb s d)
  root : (node sb s rootino).type ≠ 0
  cwdHeld : 0 < s.refs cwd
  cwdUsed : (node sb s cwd).type ≠ 0

section

variable {sb : Superblock} {s0 s : St} {cwd : Nat} (hs : Consistent sb cwd s0)
include hs

/-- The loop of `namex` ends, unless the table is full when an inode is looked up: it needs room for two. -/
theorem namexFrom_runs (parent : Bool) (fuel : Nat) (ip : Nat) (path name : List UInt8)
    (h : Visit sb s0 (s0.refs + one ip) (if s0.refs ip = 0 then s0.nlive + 1 else s0.nlive) none s)
    (hip : (node sb s0 ip).type ≠ 0) :
    wp (fun e => e = .igetNoInodes ∧ ninode < s0.nlive + 2) (namexFrom sb parent fuel ip path name)
      (fun _ s' => ∃ R n, Visit sb s0 R n none s') s := by
  have hquiet : ∀ {m : FsM Unit} {Q : Unit → St → Prop} {s : St}, wp (fun _ => False) m Q s →
      wp (fun e => e = .igetNoInodes ∧ ninode < s0.nlive + 2) m Q s :=
    fun hm => wp_error_mono hm fun _ he => he.elim
  have hend : ∀ {ip : Nat} {name : List UInt8} {s : St} {n : Nat}, Visit sb s0 (s0.refs + one ip) n none s →
      wp (fun e => e = .igetNoInodes ∧ ninode < s0.nlive + 2) (if parent then do
          iput sb ip
          pure none
        else pure (some (ip, name)) : FsM (Option (Nat × List UInt8))) (fun _ s' => ∃ R n, Visit sb s0 R n none s') s := by
    intro ip name s n h
    cases parent with
    | false => exact ⟨_, _, h⟩
    | true => exact wp_seq (hquiet (h.iput hs.tame)) fun _ _ h1 => ⟨_, _, h1⟩
  induction fuel generalizing ip path name s with
  | zero => exact hend h
  | succ fuel ih =>
    unfold namexFrom
    cases hsk : skipelem path with
    | none => exact hend h
    | some er =>
      obtain ⟨e, rest⟩ := er
      have hheld : 0 < (s0.refs + one ip) ip := refs_one_pos _ _
      dsimp only
      refine wp_seq (hquiet (h.ilock hheld hip)) ?_
      rintro _ s1 ⟨h1, hc1⟩
      have htype : (s1.itab ip).din.type = (node sb s0 ip).type := by
        rw [← h1.nodes, node_cached hc1]
        rfl
      rw [wp_get_bind, htype]
      split
      · exact wp_seq (hquiet (h1.iunlockput hs.tame)) fun _ _ h2 => ⟨_, _, h2⟩
      · rename_i hdir
        have hdir : (node sb s0 ip).type = tDir := not_not.mp hdir
        split
        · exact wp_seq (hquiet (h1.iunlock hheld)) fun _ _ h2 => ⟨_, _, h2⟩
        · refine wp_seq (wp_error_mono (h1.dirlookup hc1 (hs.dirs ip hdir)) ?_) ?_
          · rintro _ ⟨rfl, hfull⟩
            refine ⟨rfl, ?_⟩
            split at hfull
            · omega
            · omega
          · intro r s2 hr
            cases r with
            | none => exact wp_seq (hquiet (Visit.iunlockput hr hs.tame)) fun _ _ h3 => ⟨_, _, h3⟩
            | some e =>
              obtain ⟨next, off⟩ := e
              obtain ⟨h2, k, hhas, hnext, hne⟩ := hr
              rw [add_one_comm] at h2
              refine wp_seq (hquiet (h2.iunlockput (hs.tame.mono (le_add_one _ next)))) ?_
              intro _ s3 h3
              refine ih next rest e ?_ ?_
              · rw [live_next] at h3
                exact h3
              · rw [← hnext]
                exact hs.dangling ip hdir k hhas (hnext.symm ▸ hne)

theorem namex_runs (parent : Bool) (path : List UInt8) :
    wp (fun e => e = .igetNoInodes ∧ ninode < s0.nlive + 2) (namex sb cwd path parent)
      (fun _ s' => ∃ R n, Visit sb s0 R n none s') s0 := by
  have h0 : Visit sb s0 s0.refs s0.nlive none s0 := ⟨hs.ok, rfl, rfl, hs.trans, fun i => by simp [hs.unlocked], rfl⟩
  unfold namex
  split
  · refine wp_seq (wp_error_mono (h0.iget rootino) ?_) fun _ s1 h1 => namexFrom_runs hs parent _ _ path [] h1 hs.root
    rintro _ ⟨rfl, hfull⟩
    exact ⟨rfl, by omega⟩
  · refine wp_seq (wp_error_mono (h0.idup hs.cwdHeld) fun _ he => he.elim) fun _ s1 h1 => ?_
    have hheld : s0.refs cwd ≠ 0 := Nat.pos_iff_ne_zero.mp hs.cwdHeld
    refine namexFrom_runs hs parent _ _ path [] ?_ hs.cwdUsed
    rwa [if_neg hheld]

end

/-- The inode that a path starts from. -/
def startOf (cwd : Nat) (path : List UInt8) : Nat := if path.head? = some slash then rootino else cwd

/-- After a path lookup with result `r`: the inodes are the same and unlocked, and there is one more reference, to `r`. -/
structure Returned (sb : Superblock) (s : St) (r : Option Nat) (s' : St) : Prop where
  refs : s'.refs = s.refs + r.elim 0 one
  nodes : node sb s' = node sb s
  unlocked : ∀ i, (s'.itab i).locked = false

section

variable {sb : Superblock} {s : St} {cwd : Nat} (hs : Consistent sb cwd s)
include hs

/-- `namex` ends with the result of `resolve`, or in the panic of `iget`. -/
theorem namex_resolves (parent : Bool) (path : List UInt8) :
    (namex sb cwd path parent s = .error .igetNoInodes ∧ ninode < s.nlive + 2) ∨
    ∃ s', namex sb cwd path parent s = .ok (resolve (node sb s) cwd path parent, s') ∧
      Returned sb s ((resolve (node sb s) cwd path parent).map Prod.fst) s' := by
  have hpaths : Paths sb Other s.refs (node sb s) :=
    ⟨hs.range, .inr ⟨hs.tame, hs.dangling⟩, lt_ninodes_of_type hs.ok hs.root, fun h0 => absurd h0 hs.root⟩
  have hspec : wp Other (namex sb cwd path parent) _ s := namex_wp other_tolerant hs.ok rfl hs.trans hpaths hs.cwdHeld
    ⟨lt_ninodes_of_type hs.ok hs.cwdUsed, fun h0 => absurd h0 hs.cwdUsed⟩
  have hrun := namex_runs hs parent path
  cases hm : namex sb cwd path parent s with
  | error e =>
    obtain ⟨rfl, hfull⟩ := hrun.error hm
    exact .inl ⟨rfl, hfull⟩
  | ok rs =>
    obtain ⟨r, s'⟩ := rs
    obtain ⟨-, -, -, hfound, hres⟩ := hspec.ok hm
    obtain ⟨R, n, hv⟩ := hrun.ok hm
    obtain ⟨rfl, -⟩ := hres hs.tame
    refine .inr ⟨s', rfl, ?_, hv.nodes, fun i => by simp [hv.locked]⟩
    cases hr : (resolve (node sb s) cwd path parent).map Prod.fst with
    | none =>
      rw [hr] at hfound
      have hrefs : s'.refs = s.refs := hfound
      simpa using hrefs
    | some x =>
      rw [hr] at hfound
      exact hfound.1

end

/-- A path is its components, and in a consistent tree `namei` and `nameiparent` return what following them gives, with
    one reference to it and no other; or they end in the panic of `iget`, for want of two entries in the table. -/
theorem path_resolution {sb : Superblock} {s : St} {cwd : Nat} (hs : Consistent sb cwd s) {b : Bytes} {path : List UInt8}
    (hstr : IsStr b p path) :
    (∀ fuel name, path.length < fuel → elemsAt b fuel fuel p name = some (components path)) ∧
    ((namei sb cwd path s = .error .igetNoInodes ∧ ninode < s.nlive + 2) ∨
      ∃ s', namei sb cwd path s = .ok (follow (node sb s) (startOf cwd path) (components path), s') ∧
        Returned sb s (follow (node sb s) (startOf cwd path) (components path)) s') ∧
    ((nameiparent sb cwd path s = .error .igetNoInodes ∧ ninode < s.nlive + 2) ∨
      ∃ s', nameiparent sb cwd path s = .ok (followParent (node sb s) (startOf cwd path) (components path), s') ∧
        Returned sb s ((followParent (node sb s) (startOf cwd path) (components path)).map Prod.fst) s') := by
  have hnamei : (resolve (node sb s) cwd path false).map Prod.fst =
      follow (node sb s) (startOf cwd path) (components path) := walk_eq_follow (Nat.lt_succ_self _)
  have hparent : resolve (node sb s) cwd path true = followParent (node sb s) (startOf cwd path) (components path) :=
    walk_eq_followParent (Nat.lt_succ_self _)
  refine ⟨fun fuel name hf => elemsAt_eq_components hstr hf.le hf name, ?_, ?_⟩
  · rw [← hnamei]
    unfold namei
    rcases namex_resolves hs false path with ⟨hrun, hfull⟩ | ⟨s', hrun, hret⟩
    · exact .inl ⟨run_bind_error hrun, hfull⟩
    · exact .inr ⟨s', run_bind_ok hrun, hret⟩
  · rw [← hparent]
    exact namex_resolves hs true path

/-! ## An image -/

section

variable {files : List Mkfs.InFile} {fb : Nat} {s : Mkfs.St} (h : Mkfs.Image files fb s)
  (hfit : files.length + 1 < Mkfs.ninodes)
include h hfit

/-- The entries in use of the root directory of an image. -/
theorem image_root_entry (hk : (rootNode s).inum k ≠ 0) :
    ∃ e, (Mkfs.rootEntries files)[k]? = some e ∧ (rootNode s).inum k = e.1 ∧ key ((rootNode s).name k) = key e.2 := by
  have hlt : k < (Mkfs.rootEntries files).length := by
    rw [Mkfs.rootEntries_length]
    by_contra hge
    exact hk (rootNode_rest h (by omega))
  have he := List.getElem?_eq_getElem hlt
  exact ⟨_, he, rootNode_entry h hfit he⟩

omit hfit in
theorem image_type (i : Nat) : (node Mkfs.sb (mounted s.img) i).type = (Mkfs.inodes s i).type := by
  rw [image_node h]
  rfl

omit hfit in
/-- The only directory of an image is its root. -/
theorem image_directory {d : Nat} (hd : (node Mkfs.sb (mounted s.img) d).type = tDir) :
    d = rootino ∧ node Mkfs.sb (mounted s.img) d = rootNode s := by
  rw [image_node h] at hd ⊢
  rcases image_cases h d with hz | rfl | ⟨j, f, rfl, hj⟩
  · rw [hz] at hd
    cases hd
  · exact ⟨rfl, rfl⟩
  · have htype : (Mkfs.inodes s (j + 2)).type = tDir := hd
    rw [(file_fields h hj).1] at htype
    cases htype

/-- An image whose names are distinct is a consistent tree when mounted. -/
theorem image_consistent (hpart : (files.length + 2) % 64 ≠ 0)
    (hdist : ((Mkfs.rootEntries files).map fun e => key e.2).Nodup) : Consistent Mkfs.sb rootino (mounted s.img) where
  ok := (eq_true hpart) ▸ image_ok h hfit
  trans := Nat.one_pos
  unlocked i := by
    by_cases hi : i = rootino
    · subst hi
      rfl
    · exact congrArg Inode.locked (update_of_ne hi _ _)
  tame := image_tame h
  range := image_ranged h hfit
  dangling d hd k hk hne := by
    obtain ⟨rfl, hroot⟩ := image_directory h hd
    rw [hroot] at hne ⊢
    obtain ⟨e, he, hinum, -⟩ := image_root_entry h hfit hne
    rw [hinum, image_type h]
    rcases rootEntries_cases he with ⟨-, rfl⟩ | ⟨-, rfl⟩ | ⟨j, f, -, hf, rfl⟩
    · simp [(root_fields h).1, tDir]
    · simp [(root_fields h).1, tDir]
    · simp [(file_fields h hf).1, tFile]
  dirs d hd := by
    have hroot := (image_directory h hd).2
    rw [hroot] at hd ⊢
    refine ⟨hd, rootNode_whole h, fun j k _ _ hj hk hkey => ?_⟩
    obtain ⟨e, he, -, hke⟩ := image_root_entry h hfit hj
    obtain ⟨f, hf, -, hkf⟩ := image_root_entry h hfit hk
    have hje : ((Mkfs.rootEntries files).map fun e => key e.2)[j]? = some (key e.2) := by simp [he]
    have hkf' : ((Mkfs.rootEntries files).map fun e => key e.2)[k]? = some (key f.2) := by simp [hf]
    refine (List.getElem?_inj (List.getElem?_eq_some_iff.mp hje).1 hdist).mp ?_
    rw [hje, hkf', ← hke, ← hkf, hkey]
  root := by
    rw [image_type h, (root_fields h).1]
    decide
  cwdHeld := by
    rw [mounted_refs]
    exact Nat.one_pos
  cwdUsed := by
    rw [image_type h, (root_fields h).1]
    decide

end

/-- "/name" leads to the file of that name. -/
theorem image_resolve {files : List Mkfs.InFile} {fb : Nat} {s : Mkfs.St} {f : Mkfs.InFile} (h : Mkfs.Image files fb s)
    (hfit : Mkfs.Fit files) (hstr : ∀ f ∈ files, 0 ∉ f.name) (hdist : (files.map Mkfs.InFile.short).Nodup)
    (hs : Consistent Mkfs.sb rootino (mounted s.img)) (hk : files[k]? = some f) (hne : f.short ≠ []) (hdot : f.short ≠ dotName)
    (hdotdot : f.short ≠ dotdotName) :
    (resolve (node Mkfs.sb (mounted s.img)) rootino (slash :: f.short) false).map Prod.fst = some (k + 2) := by
  have hnamed := hfit.names f (List.mem_of_getElem? hk)
  have hrun := namei_file h hfit.inodes hk (fun j e he hkey => short_unique hfit hstr hdist hk hdot hdotdot he hkey) hne
    (fun hs => hnamed.1 (mem_stripUnderscore hs)) hnamed.2
  unfold namei at hrun
  rcases namex_resolves hs false (slash :: f.short) with ⟨hstop, -⟩ | ⟨s', hok, -⟩
  · rw [run_bind_error hstop] at hrun
    cases hrun
  · rw [run_bind_ok hok] at hrun
    exact congrArg Prod.fst (Except.ok.inj hrun)

/-- "//sh/" in memory, after nothing else. -/
def shPath : Bytes := putBytes zero 0 [47, 47, 115, 104, 47]

/-- The image with one file: "//sh/" is that file in the root. -/
theorem path_resolution_sh : ∃ s, Consistent Mkfs.sb rootino s ∧ IsStr shPath 0 [47, 47, 115, 104, 47] ∧
    components [47, 47, 115, 104, 47] = [[115, 104]] ∧
    ∃ s', namei Mkfs.sb rootino [47, 47, 115, 104, 47] s = .ok (some 2, s') ∧ Returned Mkfs.sb s (some 2) s' := by
  obtain ⟨s, hrun⟩ := Mkfs.main_completes shFile_fit
  obtain ⟨fb, h⟩ := Mkfs.main_image shFile_fit.inodes hrun
  have hs : Consistent Mkfs.sb rootino (mounted s.img) :=
    image_consistent h shFile_fit.inodes (by decide) (by decide)
  have hstr : IsStr shPath 0 [47, 47, 115, 104, 47] := by
    refine ⟨rfl, by decide, rfl, by decide, rfl, by decide, rfl, by decide, rfl, by decide, rfl⟩
  have hc : components [47, 47, 115, 104, 47] = [[115, 104]] := by decide
  have hfile : (resolve (node Mkfs.sb (mounted s.img)) rootino (slash :: shFile.short) false).map Prod.fst = some 2 :=
    image_resolve h shFile_fit (by decide) (by decide) hs rfl (by decide) (by decide) (by decide)
  have hfollow : follow (node Mkfs.sb (mounted s.img)) rootino (components (slash :: shFile.short)) = some 2 :=
    (walk_eq_follow (Nat.lt_succ_self _)).symm.trans hfile
  obtain ⟨-, hnamei, -⟩ := path_resolution hs hstr
  rw [hc] at hnamei
  rw [show components (slash :: shFile.short) = [[115, 104]] by decide] at hfollow
  rcases hnamei with ⟨-, hfull⟩ | ⟨s', hok, hret⟩
  · -- the root is the only inode in the table
    exact absurd hfull (show ¬ninode < 1 + 2 by decide)
  · rw [show startOf rootino [47, 47, 115, 104, 47] = rootino from rfl, hfollow] at hok hret
    exact ⟨mounted s.img, hs, hstr, hc, s', hok, hret⟩

end Xv6.Fs
