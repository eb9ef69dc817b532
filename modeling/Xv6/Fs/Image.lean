/-
  Xv6.Fs.Image — the kernel on the image that mkfs writes.

  The two programs read and write the format with code of their own: mkfs with `iappend`,
  `dirent` and `usedMap`, the kernel with `bmap`, `readi`, `dirlookup` and `balloc`.

  Proved: `image_inodes`, `image_ok`, `readPath_file`, `image_names`, `kernel_reads_image`,
  `dot_file_is_the_root`.
-/

import Xv6.Fs.DirMap
import Xv6.Mkfs.Mapped
import Mathlib.Data.List.TakeWhile

namespace Xv6.Fs

open Xv6.Lib

/-- `namei`, `ilock`, and `readi` of everything: the inode's type, the bytes and the value returned. -/
def readPath (sb : Superblock) (cwd : Nat) (path : List UInt8) (dst : CopyOut) :
    FsM (Option (Nat × List UInt8 × Int)) := do
  match ← namei sb cwd path with
  | none => pure none
  | some ip => do
    ilock sb ip
    let s ← get
    let (l, r) ← readi sb ip 0 (s.itab ip).din.size dst
    pure (some ((s.itab ip).din.type, l, r))

/-- The first process in its first system call. -/
def mounted (img : Disk) : St := { (boot img).fs with outstanding := 1 }

/-! ## Names -/

theorem cstr_self (n : Nat) : ∀ l : List UInt8, 0 ∉ l → l.length ≤ n → cstr n l = l := by
  induction n with
  | zero =>
    intro l _ hl
    exact (List.length_eq_zero_iff.mp (by omega)).symm
  | succ n ih =>
    intro l h0 hl
    cases l with
    | nil => rfl
    | cons c l =>
      have hc : c ≠ 0 := fun h => h0 (by rw [h]; exact List.mem_cons_self)
      show (if c = 0 then [] else c :: cstr n l) = _
      rw [if_neg hc, ih l (fun h => h0 (List.mem_cons_of_mem _ h)) (by simpa using hl)]

variable {l name : List UInt8} {c : UInt8} {e : Nat × List UInt8} {f : Mkfs.InFile} {j k : Nat}

theorem key_self (h0 : 0 ∉ l) (hl : l.length ≤ dirsiz) : key l = l := cstr_self dirsiz l h0 hl

theorem cstr_take (n : Nat) : ∀ l : List UInt8, cstr n (l.take n) = cstr n l := by
  induction n with
  | zero => intro l; rfl
  | succ n ih =>
    intro l
    cases l with
    | nil => rfl
    | cons c l =>
      show (if c = 0 then [] else c :: cstr n (l.take n)) = if c = 0 then [] else c :: cstr n l
      rw [ih l]

/-- A path of one element. -/
theorem skipelem_single (h : name ≠ []) (hs : slash ∉ name) :
    skipelem (slash :: name) = some (name.take dirsiz, []) := by
  have hall : ∀ c ∈ name, (c != slash) = true := by
    intro c hc
    rw [bne_iff_ne]
    rintro rfl
    exact hs hc
  have hdrop : (slash :: name).dropWhile (· == slash) = name := by
    rw [List.dropWhile_cons_of_pos (by simp)]
    cases name with
    | nil => rfl
    | cons c l =>
      have := hall c List.mem_cons_self
      rw [List.dropWhile_cons_of_neg (by simpa using this)]
  have htake : name.takeWhile (· != slash) = name := List.takeWhile_eq_self_iff.mpr hall
  have hrest : name.dropWhile (· != slash) = [] := List.dropWhile_eq_nil_iff.mpr hall
  unfold skipelem
  rw [hdrop]
  cases name with
  | nil => exact absurd rfl h
  | cons c l =>
    dsimp only
    rw [htake, hrest]
    rfl

theorem mem_stripUnderscore (h : c ∈ Mkfs.stripUnderscore l) : c ∈ l := by
  unfold Mkfs.stripUnderscore at h
  split at h
  · split at h
    · exact List.mem_cons_of_mem _ h
    · exact h
  · exact h

theorem mem_shortname (h : c ∈ Mkfs.shortname l) : c ∈ l := by
  unfold Mkfs.shortname at h
  split at h
  · exact List.mem_of_mem_drop h
  · exact h

/-! ## The root directory -/

theorem ofBytes_dirent {inum : Nat} (name : List UInt8) (h : inum < 65536) :
    Dirent.ofBytes (Mkfs.dirent inum name) = ⟨inum, (name ++ List.replicate dirsiz 0).take dirsiz⟩ := by
  have hb : (byteOf inum 0).toNat + 256 * (byteOf inum 1).toNat = inum := by
    unfold byteOf
    simp only [UInt8.toNat_ofNat']
    omega
  have ht : ((name ++ List.replicate dirsiz 0).take dirsiz).take dirsiz =
      (name ++ List.replicate dirsiz 0).take dirsiz := by
    rw [List.take_take, Nat.min_self]
  change Dirent.mk ((byteOf inum 0).toNat + 256 * (byteOf inum 1).toNat) (List.take dirsiz (List.take dirsiz _)) = _
  rw [hb, ht]

/-- The root directory of an image. -/
def rootNode (s : Mkfs.St) : Node := nodeOf s.img (Mkfs.inodes s rootino)

section

variable {files : List Mkfs.InFile} {fb : Nat} {s : Mkfs.St} {k : Nat}

/-- An entry of the root is one of the two links of the root to itself, or a file's. -/
theorem rootEntries_cases (h : (Mkfs.rootEntries files)[k]? = some e) :
    (k = 0 ∧ e = (rootino, dotName)) ∨ (k = 1 ∧ e = (rootino, dotdotName)) ∨
      ∃ j f, k = j + 2 ∧ files[j]? = some f ∧ e = (j + 2, f.short) := by
  match k, h with
  | 0, h => exact Or.inl ⟨rfl, (Option.some.inj h).symm⟩
  | 1, h => exact Or.inr (Or.inl ⟨rfl, (Option.some.inj h).symm⟩)
  | j + 2, h =>
    have h' : (Mkfs.entriesFrom 2 files)[j]? = some e := h
    unfold Mkfs.entriesFrom at h'
    rw [List.getElem?_map, List.getElem?_zipIdx] at h'
    cases hf : files[j]? with
    | none =>
      rw [hf] at h'
      cases h'
    | some f =>
      rw [hf] at h'
      refine Or.inr (Or.inr ⟨j, f, rfl, hf, ?_⟩)
      rw [Nat.add_comm j 2]
      exact (Option.some.inj h').symm

theorem rootEntries_file (h : files[j]? = some f) :
    (Mkfs.rootEntries files)[j + 2]? = some (j + 2, f.short) := by
  show (Mkfs.entriesFrom 2 files)[j]? = _
  unfold Mkfs.entriesFrom
  rw [List.getElem?_map, List.getElem?_zipIdx, h, Nat.add_comm j 2]
  rfl

theorem rootEntries_inum (h : (Mkfs.rootEntries files)[k]? = some e) :
    0 < e.1 ∧ e.1 < files.length + 2 := by
  rcases rootEntries_cases h with ⟨-, rfl⟩ | ⟨-, rfl⟩ | ⟨j, f, -, hf, rfl⟩
  · exact ⟨by decide, by show 1 < _; omega⟩
  · exact ⟨by decide, by show 1 < _; omega⟩
  · have := (List.getElem?_eq_some_iff.mp hf).1
    exact ⟨by show 0 < j + 2; omega, by show j + 2 < _; omega⟩

variable (h : Mkfs.Image files fb s) (hfit : files.length + 1 < Mkfs.ninodes)
include h

theorem rootNode_size : (rootNode s).size = (16 * (files.length + 2) / bsize + 1) * bsize := h.rootSize

theorem rootNode_whole : (rootNode s).size % 16 = 0 := by
  rw [rootNode_size h]
  unfold bsize
  omega

theorem rootNode_has (hk : k < files.length + 2) : (rootNode s).Has k := by
  unfold Node.Has
  rw [rootNode_size h]
  unfold bsize
  omega

theorem rootNode_rest (hk : files.length + 2 ≤ k) : (rootNode s).inum k = 0 := by
  have hz : ∀ o, 16 * (files.length + 2) ≤ o → (rootNode s).data o = 0 := h.rest
  unfold Node.inum le16
  rw [hz _ (by omega), hz _ (by omega)]
  rfl

include hfit

theorem rootNode_entry (he : (Mkfs.rootEntries files)[k]? = some e) :
    (rootNode s).inum k = e.1 ∧ key ((rootNode s).name k) = key e.2 := by
  have hs : slice (rootNode s).data (16 * k) 16 = Mkfs.dirent e.1 e.2 := h.entry k e he
  have hr := rootEntries_inum he
  have hn : Mkfs.ninodes = 200 := rfl
  have hb := ofBytes_slice (rootNode s) k
  rw [hs, ofBytes_dirent e.2 (by omega)] at hb
  injection hb with hi hname
  exact ⟨hi.symm, by rw [← hname, key_padded]⟩

/-- The names in the root are those of its entries. -/
theorem rootNode_named :
    (rootNode s).Named name k ↔ ∃ e, (Mkfs.rootEntries files)[k]? = some e ∧ key name = key e.2 := by
  constructor
  · rintro ⟨-, hi, hname⟩
    have hlt : k < (Mkfs.rootEntries files).length := by
      rw [Mkfs.rootEntries_length]
      by_contra hge
      exact hi (rootNode_rest h (by omega))
    have he := List.getElem?_eq_getElem hlt
    exact ⟨_, he, hname.trans (rootNode_entry h hfit he).2⟩
  · rintro ⟨e, he, hname⟩
    have hlt : k < (Mkfs.rootEntries files).length := (List.getElem?_eq_some_iff.mp he).1
    rw [Mkfs.rootEntries_length] at hlt
    obtain ⟨hi, hk⟩ := rootNode_entry h hfit he
    exact ⟨rootNode_has h hlt, by rw [hi]; exact Nat.ne_of_gt (rootEntries_inum he).1, hname.trans hk.symm⟩

end

/-! ## The image as a file system -/

section

variable {files : List Mkfs.InFile} {fb : Nat} {s : Mkfs.St} (h : Mkfs.Image files fb s)

theorem mounted_cached (img : Disk) (i : Nat) : ¬ (mounted img).cached i := by
  rintro ⟨-, hv⟩
  have hv' : (update (fun _ => Inode.mk 0 false false Dinode.zero) rootino ⟨1, false, false, Dinode.zero⟩ i).valid = true := hv
  by_cases hi : i = rootino
  · subst hi
    rw [update_self] at hv'
    cases hv'
  · rw [update_of_ne hi] at hv'
    cases hv'

theorem mounted_refs (img : Disk) : (mounted img).refs = one rootino := by
  funext i
  by_cases hi : i = rootino
  · subst hi
    rfl
  · show (update (fun _ => Inode.mk 0 false false Dinode.zero) rootino _ i).ref = if i = rootino then 1 else 0
    rw [update_of_ne hi, if_neg hi]

/-- An absolute path does not depend on the current directory. -/
theorem namei_absolute (sb : Superblock) (cwd : Nat) (path : List UInt8) :
    namei sb cwd (slash :: path) = namei sb rootino (slash :: path) := by
  unfold namei namex
  rw [List.head?_cons, if_pos rfl, if_pos rfl]

theorem resolve_single {N : Nat → Node} (hne : name ≠ []) (hs : slash ∉ name) (hdir : (N rootino).type = tDir) :
    resolve N rootino (slash :: name) false =
      ((N rootino).find (name.take dirsiz)).map fun k => ((N rootino).inum k, name.take dirsiz) := by
  unfold resolve
  rw [ite_self]
  unfold walk
  rw [skipelem_single hne hs]
  dsimp only
  rw [if_neg (by rw [hdir]; simp), if_neg (by simp)]
  cases (N rootino).find (name.take dirsiz) with
  | none => rfl
  | some k =>
    dsimp only [List.length_cons, Option.map_some]
    unfold walk
    rfl

include h

/-- Every inode is free, the root, or a file's. -/
theorem image_cases (i : Nat) : Mkfs.inodes s i = Dinode.zero ∨ i = rootino ∨
    ∃ k f, i = k + 2 ∧ files[k]? = some f := by
  by_cases hfree : i = 0 ∨ files.length + 2 ≤ i
  · exact Or.inl (h.free i hfree)
  · by_cases h1 : i = 1
    · exact Or.inr (Or.inl h1)
    · refine Or.inr (Or.inr ⟨i - 2, files.get ⟨i - 2, by omega⟩, by omega, ?_⟩)
      exact List.getElem?_eq_getElem (by omega)

theorem root_fields : (Mkfs.inodes s rootino).type = tDir ∧ (Mkfs.inodes s rootino).nlink = 1 :=
  ⟨congrArg Dinode.type h.root, congrArg Dinode.nlink h.root⟩

theorem file_fields (hk : files[k]? = some f) :
    (Mkfs.inodes s (k + 2)).type = tFile ∧ (Mkfs.inodes s (k + 2)).nlink = 1 :=
  ⟨congrArg Dinode.type (h.file k f hk).core, congrArg Dinode.nlink (h.file k f hk).core⟩

theorem image_inodes : inodes Mkfs.sb (mounted s.img) = Mkfs.inodes s := by
  funext i
  rw [inodes_uncached (mounted_cached s.img i)]
  have hlive : live (Mkfs.inodes s i) = Mkfs.inodes s i := by
    unfold live
    split
    · rename_i h0
      rcases image_cases h i with hz | rfl | ⟨k, f, rfl, hk⟩
      · exact hz.symm
      · rw [(root_fields h).1] at h0
        cases h0
      · rw [(file_fields h hk).1] at h0
        cases h0
    · rfl
  unfold Mkfs.inodes diskInodes at *
  change (if i < Mkfs.ninodes then live (dinodeAt Mkfs.sb s.img i) else Dinode.zero) = _
  split
  · rename_i hi
    rw [if_pos hi] at hlive
    exact hlive
  · rfl

theorem image_node (i : Nat) : node Mkfs.sb (mounted s.img) i = nodeOf s.img (Mkfs.inodes s i) := by
  unfold node
  rw [image_inodes h]
  rfl

theorem image_used {c : Nat} (hc : c < Mkfs.sb.size) : used Mkfs.sb s.img c = decide (c < fb) := used_of_usedMap h.map hc

theorem image_ptr_lt {l : Nat × Nat} (h0 : ptrs s.img (Mkfs.inodes s) l ≠ 0) :
    Mkfs.nmeta ≤ ptrs s.img (Mkfs.inodes s) l ∧ ptrs s.img (Mkfs.inodes s) l < fb :=
  ⟨(h.good.own.range l h0).1, h.good.lt_fb h0⟩

theorem image_size (hfit : files.length + 1 < Mkfs.ninodes) (i : Nat) : (Mkfs.inodes s i).size ≤ maxfile * bsize := by
  by_cases hr : i = rootino
  · subst hr
    rw [h.rootSize]
    have h1 : Mkfs.ninodes = 200 := rfl
    have h2 : maxfile * bsize = 274432 := rfl
    unfold bsize at *
    omega
  · have hd := (h.filled i hr).data maxfile
    rw [blockOf_beyond (le_refl _)] at hd
    exact Nat.le_of_not_lt fun hlt => hd.mpr hlt rfl

/-- What mkfs writes is a file system in the kernel's sense, with no block lost; the root directory lacks its last block
    when its entries fill whole blocks. -/
theorem image_ok (hfit : files.length + 1 < Mkfs.ninodes) : Ok Mkfs.sb ((files.length + 2) % 64 ≠ 0) (mounted s.img) := by
  have hmeta : Mkfs.sb.dataStart = Mkfs.nmeta := by decide
  have hsize : Mkfs.sb.size = Mkfs.fssize := rfl
  have hfb := h.fb_le
  refine ⟨?_, fun i hc => absurd hc (mounted_cached _ i), fun i hc => absurd hc (mounted_cached _ i),
    fun i _ hc => absurd hc (mounted_cached _ i)⟩
  rw [image_inodes h]
  refine ⟨⟨fun l h0 => ?_, fun l h0 => ?_, h.good.own.inj⟩, fun c hc => ?_, fun _ c hlo hhi hc => ?_, h.good.fits,
    image_size h hfit, fun hpart i bn hbn => ?_⟩
  · have := image_ptr_lt h h0
    change _ ≤ ptrs s.img (Mkfs.inodes s) l ∧ ptrs s.img (Mkfs.inodes s) l < _
    omega
  · have := image_ptr_lt h h0
    change used Mkfs.sb s.img (ptrs s.img (Mkfs.inodes s) l) = true
    rw [image_used h (by omega)]
    exact decide_eq_true this.2
  · change used Mkfs.sb s.img c = true
    have := h.good.fb_ge
    rw [image_used h (by omega)]
    exact decide_eq_true (by omega)
  · exact h.good.leak c (hmeta ▸ hlo) (by omega) ((image_used h hhi).symm.trans hc)
  · by_cases hi : i = rootino
    · subst hi
      rw [show (Mkfs.inodes s rootino).size = _ from rootNode_size h] at hbn
      refine (h.rootMapped bn).mpr ?_
      have hb : bsize = 16 * 64 := by decide
      rw [hb] at hbn ⊢
      omega
    · exact ((h.filled i hi).data bn).mpr hbn

/-! ## What a name resolves to -/

theorem image_ranged (hfit : files.length + 1 < Mkfs.ninodes) : Ranged Mkfs.sb (node Mkfs.sb (mounted s.img)) := by
  intro d hd k _
  rw [image_node h] at hd ⊢
  rcases image_cases h d with hz | rfl | ⟨j, f, rfl, hj⟩
  · rw [hz] at hd
    cases hd
  · change (rootNode s).inum k < Mkfs.ninodes
    by_cases hk : k < (Mkfs.rootEntries files).length
    · have he := List.getElem?_eq_getElem hk
      rw [(rootNode_entry h hfit he).1]
      have := (rootEntries_inum he).2
      omega
    · rw [rootNode_rest h (by rw [Mkfs.rootEntries_length] at hk; omega)]
      decide
  · have htype : (Mkfs.inodes s (j + 2)).type = tDir := hd
    rw [(file_fields h hj).1] at htype
    cases htype

theorem image_tame {B : Nat → Nat} : Tame B (node Mkfs.sb (mounted s.img)) := by
  intro i htype hlink
  rw [image_node h] at htype hlink
  rcases image_cases h i with hz | rfl | ⟨j, f, rfl, hj⟩
  · rw [hz] at htype
    exact absurd rfl htype
  · have hl : (Mkfs.inodes s rootino).nlink = 0 := hlink
    rw [(root_fields h).2] at hl
    cases hl
  · have hl : (Mkfs.inodes s (j + 2)).nlink = 0 := hlink
    rw [(file_fields h hj).2] at hl
    cases hl

/-- A path of one element resolves to the entry that has its name. -/
theorem image_names (hfit : files.length + 1 < Mkfs.ninodes) {cwd ip : Nat} {s' : St}
    (hne : name ≠ []) (hs : slash ∉ name)
    (hrun : namei Mkfs.sb cwd (slash :: name) (mounted s.img) = .ok (some ip, s')) :
    ∃ e ∈ Mkfs.rootEntries files, key name = key e.2 ∧ ip = e.1 := by
  have hroot : node Mkfs.sb (mounted s.img) rootino = rootNode s := image_node h rootino
  have hdir : (node Mkfs.sb (mounted s.img) rootino).type = tDir := by
    rw [hroot]
    exact (root_fields h).1
  have hpaths : Paths Mkfs.sb (fun _ => True) (one rootino) (node Mkfs.sb (mounted s.img)) :=
    ⟨image_ranged h hfit, Or.inl trivial, by decide, fun _ => trivial⟩
  have hspec : wp (fun _ => True) (namei Mkfs.sb rootino (slash :: name)) _ (mounted s.img) :=
    namei_wp tolerant_any (image_ok h hfit) (mounted_refs _) Nat.one_pos hpaths
      (by decide : 0 < one rootino rootino) ⟨by decide, fun _ => trivial⟩
  rw [namei_absolute] at hrun
  obtain ⟨-, -, -, -, hres⟩ := hspec.ok hrun
  have hr := hres (image_tame h)
  rw [resolve_single hne hs hdir, hroot] at hr
  cases hfind : (rootNode s).find (name.take dirsiz) with
  | none =>
    rw [hfind] at hr
    cases hr
  | some k =>
    rw [hfind] at hr
    have hip : ip = (rootNode s).inum k := Option.some.inj hr
    obtain ⟨e, he, hkey⟩ := (rootNode_named h hfit).mp (named_of_find (rootNode_whole h) hfind)
    refine ⟨e, List.mem_of_getElem? he, ?_, hip.trans (rootNode_entry h hfit he).1⟩
    rw [← hkey]
    exact (cstr_take dirsiz name).symm

end

/-! ## Reading a file by its name -/

section

variable {sb : Superblock} {s : St} {i : Nat}

theorem iget_again (h : 0 < (s.itab i).ref) :
    iget i s = .ok ((), s.setInode i { s.itab i with ref := (s.itab i).ref + 1 }) := by
  change (if 0 < (s.itab i).ref then _ else _ : FsM Unit) s = _
  rw [if_pos h]
  rfl

theorem iget_new (h : (s.itab i).ref = 0) (hn : s.nlive < ninode) :
    iget i s = .ok ((), { s.setInode i { s.itab i with ref := 1, valid := false } with nlive := s.nlive + 1 }) := by
  change (if 0 < (s.itab i).ref then _ else if ninode ≤ s.nlive then _ else _ : FsM Unit) s = _
  rw [if_neg (by omega), if_neg (by omega)]
  rfl

theorem ilock_load (hr : 0 < (s.itab i).ref) (hl : (s.itab i).locked = false) (hv : (s.itab i).valid = false)
    (ht : (dinodeAt sb s.disk i).type ≠ 0) :
    ilock sb i s =
      .ok ((), s.setInode i { s.itab i with locked := true, valid := true, din := dinodeAt sb s.disk i }) := by
  change (if (s.itab i).ref < 1 then _ else if (s.itab i).locked then _ else if (s.itab i).valid then _ else _ : FsM Unit) s = _
  rw [if_neg (by omega), if_neg (by simp [hl]), if_neg (by simp [hv])]
  change (if (dinodeAt sb s.disk i).type = 0 then _ else _ : FsM Unit) _ = _
  rw [if_neg ht]
  rfl

theorem iunlock_held (hr : 0 < (s.itab i).ref) (hl : (s.itab i).locked = true) :
    iunlock i s = .ok ((), s.setInode i { s.itab i with locked := false }) := by
  change (if _ ∨ _ then _ else _ : FsM Unit) s = _
  rw [if_neg (by simp [hl]; omega)]
  rfl

theorem iput_shared (hr : 1 < (s.itab i).ref) :
    iput sb i s = .ok ((), s.setInode i { s.itab i with ref := (s.itab i).ref - 1 }) := by
  change (if (s.itab i).ref = 1 ∧ (s.itab i).valid = true ∧ (s.itab i).din.nlink = 0 then _ else dropRef i : FsM Unit) s = _
  rw [if_neg (by omega)]
  change Except.ok ((), { s.setInode i _ with nlive := if (s.itab i).ref = 1 then s.nlive - 1 else s.nlive }) = _
  rw [if_neg (by omega)]
  rfl

/-- The lookup of a name whose entry is `m`, when the blocks up to it are there. -/
theorem dirlookupFrom_found {n : Node} {dp m : Nat} (hn : n = nodeOf s.disk (s.itab dp).din)
    (hsize : n.size ≤ maxfile * bsize) (hm : n.Named name m) (hfirst : ∀ j < m, ¬ n.Named name j)
    (hmap : ∀ bn, bn * bsize < 16 * m + 16 → blockOf s.disk (s.itab dp).din bn ≠ 0) (c : Nat) :
    ∀ k, k ≤ m → m < k + c → dirlookupFrom sb dp name c (16 * k) s =
      (iget (n.inum m) >>= fun _ => pure (some (n.inum m, 16 * m)) : FsM _) s := by
  induction c with
  | zero => intro k h1 h2; omega
  | succ c ih =>
    intro k h1 h2
    have hhas : n.Has k := Nat.le_trans (by omega) hm.1
    unfold dirlookupFrom
    rw [run_bind_ok (readDirent_mapped .dirlookupRead hn hsize hhas fun bn hbn => hmap bn (by omega))]
    rcases Nat.lt_or_eq_of_le h1 with hlt | rfl
    · have hno := hfirst k hlt
      rw [if_neg fun hc => hno ⟨hhas, hc.1, (namecmp_iff _ _).mp hc.2⟩, show 16 * k + 16 = 16 * (k + 1) by omega]
      exact ih (k + 1) hlt (by omega)
    · rw [if_pos ⟨hm.2.1, (namecmp_iff _ _).mpr hm.2.2⟩]

end

/-- An entry with `r` references that is not loaded. -/
abbrev unloaded (r : Nat) : Inode := ⟨r, false, false, Dinode.zero⟩

/-- The kernel in its first system call, with the root and inode `ip` in its table. -/
def held (img : Disk) (root : Inode) (ip : Nat) (x : Inode) (n : Nat) : St where
  disk := img
  outstanding := 1
  lh := []
  itab := update (update (fun _ => ⟨0, false, false, Dinode.zero⟩) rootino root) ip x
  nlive := n

section

variable {img : Disk} {root x y : Inode} {ip n : Nat} (hip : ip ≠ rootino)

theorem held_ip : (held img root ip x n).itab ip = x := update_self _ _ _

theorem held_setIp : (held img root ip x n).setInode ip y = held img root ip y n := by
  unfold held St.setInode
  rw [update_idem]

include hip

theorem held_root : (held img root ip x n).itab rootino = root := by
  change update _ ip x rootino = root
  rw [update_of_ne hip.symm, update_self]

theorem held_setRoot : (held img root ip x n).setInode rootino y = held img y ip x n := by
  unfold held St.setInode
  dsimp only
  rw [update_comm hip, update_idem]

theorem mounted_eq_held : mounted img = held img (unloaded 1) ip (unloaded 0) 1 := by
  have htab : update (fun _ => Inode.mk 0 false false Dinode.zero) rootino (unloaded 1) =
      update (update (fun _ => Inode.mk 0 false false Dinode.zero) rootino (unloaded 1)) ip
        (unloaded 0) := by
    rw [update_comm hip.symm]
    exact congrArg (fun f => update f rootino _) (update_eq_self _ ip).symm
  unfold mounted boot held
  rw [← htab]

end

section

variable {files : List Mkfs.InFile} {fb k : Nat} {s : Mkfs.St} {f : Mkfs.InFile} (h : Mkfs.Image files fb s)
  (hfit : files.length + 1 < Mkfs.ninodes) (hk : files[k]? = some f)
  (honly : ∀ j e, (Mkfs.rootEntries files)[j]? = some e → key f.short = key e.2 → j = k + 2)
include h hfit hk honly

/-- The lookup in the root of a file's name, when no other entry has the name. -/
theorem dirlookup_file : dirlookup Mkfs.sb rootino f.short
      (held s.img ⟨2, true, true, Mkfs.inodes s rootino⟩ (k + 2) (unloaded 0) 1) =
      .ok (some (k + 2, 16 * (k + 2)),
        held s.img ⟨2, true, true, Mkfs.inodes s rootino⟩ (k + 2) (unloaded 1) 2) := by
  have hip : k + 2 ≠ rootino := by show k + 2 ≠ 1; omega
  have hlt : k < files.length := (List.getElem?_eq_some_iff.mp hk).1
  have hnamed : (rootNode s).Named f.short (k + 2) := (rootNode_named h hfit).mpr ⟨_, rootEntries_file hk, rfl⟩
  have hinum : (rootNode s).inum (k + 2) = k + 2 := (rootNode_entry h hfit (rootEntries_file hk)).1
  have hfirst : ∀ j < k + 2, ¬ (rootNode s).Named f.short j := by
    intro j hj hn
    obtain ⟨e, he, hkey⟩ := (rootNode_named h hfit).mp hn
    have := honly j e he hkey
    omega
  generalize hst : held s.img ⟨2, true, true, Mkfs.inodes s rootino⟩ (k + 2) (unloaded 0) 1 = st
  have hdin : (st.itab rootino).din = Mkfs.inodes s rootino := by rw [← hst, held_root hip]
  have hdisk : st.disk = s.img := by rw [← hst]; rfl
  have hnode : rootNode s = nodeOf st.disk (st.itab rootino).din := by rw [hdin, hdisk]; rfl
  change (if (st.itab rootino).din.type ≠ tDir then _ else dirlookupFrom Mkfs.sb rootino f.short
    (entries (st.itab rootino).din.size) (16 * 0) : FsM _) st = _
  rw [if_neg (by rw [hdin, (root_fields h).1]; simp)]
  have hcount : k + 2 < 0 + entries (st.itab rootino).din.size := by
    rw [hdin, Nat.zero_add]
    exact (has_iff (rootNode_whole h) (k + 2)).mp (rootNode_has h (by omega))
  rw [dirlookupFrom_found hnode (image_size h hfit rootino) hnamed hfirst (fun bn hbn => ?_) _ 0 (Nat.zero_le _) hcount,
    hinum]
  · have hlive : st.nlive < ninode := by
      rw [← hst]
      exact (by decide : 1 < ninode)
    rw [run_bind_ok (iget_new (by rw [← hst, held_ip]) hlive), ← hst, held_ip, held_setIp]
    rfl
  · rw [hdin, hdisk, h.rootMapped]
    omega

/-- `namei` of a file's name, when no other entry has the name. -/
theorem namei_file (hne : f.short ≠ []) (hs : slash ∉ f.short) (hlen : f.short.length ≤ dirsiz) :
    namei Mkfs.sb rootino (slash :: f.short) (mounted s.img) =
      .ok (some (k + 2), held s.img ⟨1, false, true, Mkfs.inodes s rootino⟩ (k + 2) (unloaded 1) 2) := by
  have hip : k + 2 ≠ rootino := by show k + 2 ≠ 1; omega
  have hroot : dinodeAt Mkfs.sb s.img rootino = Mkfs.inodes s rootino := Mkfs.dinodeAt_eq_inodes s (by decide)
  have hdir : (Mkfs.inodes s rootino).type = tDir := (root_fields h).1
  have hget : iget rootino (held s.img (unloaded 1) (k + 2) (unloaded 0) 1) =
      .ok ((), held s.img (unloaded 2) (k + 2) (unloaded 0) 1) := by
    rw [iget_again (by rw [held_root hip]; decide), held_root hip, held_setRoot hip]
  have hlock : ilock Mkfs.sb rootino
      (held s.img (unloaded 2) (k + 2) (unloaded 0) 1) =
      .ok ((), held s.img ⟨2, true, true, Mkfs.inodes s rootino⟩ (k + 2) (unloaded 0) 1) := by
    rw [ilock_load (by rw [held_root hip]; decide) (by rw [held_root hip]) (by rw [held_root hip])
      (by rw [show (held _ _ _ _ _).disk = s.img from rfl, hroot, hdir]; decide), held_root hip, held_setRoot hip]
    exact congrArg (fun d => Except.ok ((), held s.img ⟨2, true, true, d⟩ _ _ _)) hroot
  have hput : iunlockput Mkfs.sb rootino
      (held s.img ⟨2, true, true, Mkfs.inodes s rootino⟩ (k + 2) (unloaded 1) 2) =
      .ok ((), held s.img ⟨1, false, true, Mkfs.inodes s rootino⟩ (k + 2) (unloaded 1) 2) := by
    unfold iunlockput
    rw [run_bind_ok (iunlock_held (by rw [held_root hip]; exact Nat.two_pos) (by rw [held_root hip])), held_root hip,
      held_setRoot hip, iput_shared (by rw [held_root hip]; exact Nat.one_lt_two), held_root hip, held_setRoot hip]
    rfl
  have htake : f.short.take dirsiz = f.short := List.take_of_length_le hlen
  have hx : namex Mkfs.sb rootino (slash :: f.short) false (mounted s.img) = .ok (some (k + 2, f.short),
      held s.img ⟨1, false, true, Mkfs.inodes s rootino⟩ (k + 2) (unloaded 1) 2) := by
    rw [mounted_eq_held hip]
    unfold namex
    rw [List.head?_cons, if_pos rfl, run_bind_ok hget]
    unfold namexFrom
    rw [skipelem_single hne hs, htake]
    dsimp only
    rw [run_bind_ok hlock]
    change (if ((held _ _ _ _ _).itab rootino).din.type ≠ tDir then _ else if false = true ∧ _ then _ else _ : FsM _) _ = _
    rw [if_neg (by rw [held_root hip, hdir]; simp), if_neg (by simp), run_bind_ok (dirlookup_file h hfit hk honly)]
    dsimp only
    rw [run_bind_ok hput]
    rfl
  unfold namei
  rw [run_bind_ok hx]
  rfl

/-- A file is found by its name and read back. -/
theorem readPath_file (hne : f.short ≠ []) (hs : slash ∉ f.short) (hlen : f.short.length ≤ dirsiz) (cwd : Nat) {dst : CopyOut}
    (hd : ∀ p m, dst p m = true) :
    ∃ s', readPath Mkfs.sb cwd (slash :: f.short) dst (mounted s.img) =
      .ok (some (tFile, f.bytes, (f.bytes.length : Int)), s') := by
  have hlt : k < files.length := (List.getElem?_eq_some_iff.mp hk).1
  have hin : dinodeAt Mkfs.sb s.img (k + 2) = Mkfs.inodes s (k + 2) :=
    Mkfs.dinodeAt_eq_inodes s (by show k + 2 < Mkfs.ninodes; omega)
  have htype := (file_fields h hk).1
  have hfile := h.file k f hk
  have hmax := image_size h hfit (k + 2)
  have hcount : readCount (Mkfs.inodes s (k + 2)).size 0 (Mkfs.inodes s (k + 2)).size = f.bytes.length := by
    have hbig : maxfile * bsize < 2 ^ 32 := by decide
    unfold readCount
    rw [if_neg (by omega), Nat.sub_zero, Nat.min_self, hfile.size]
  have hlock : ilock Mkfs.sb (k + 2)
      (held s.img ⟨1, false, true, Mkfs.inodes s rootino⟩ (k + 2) (unloaded 1) 2) =
      .ok ((), held s.img ⟨1, false, true, Mkfs.inodes s rootino⟩ (k + 2)
        ⟨1, true, true, Mkfs.inodes s (k + 2)⟩ 2) := by
    rw [ilock_load (by rw [held_ip]; decide) (by rw [held_ip]) (by rw [held_ip])
      (by rw [show (held _ _ _ _ _).disk = s.img from rfl, hin, htype]; decide), held_ip, held_setIp]
    exact congrArg (fun d => Except.ok ((), held s.img _ _ ⟨1, true, true, d⟩ _)) hin
  generalize hst : held s.img ⟨1, false, true, Mkfs.inodes s rootino⟩ (k + 2)
    ⟨1, true, true, Mkfs.inodes s (k + 2)⟩ 2 = st at hlock
  have hdin : (st.itab (k + 2)).din = Mkfs.inodes s (k + 2) := by rw [← hst, held_ip]
  have hdisk : st.disk = s.img := by rw [← hst]; rfl
  have hread : readi Mkfs.sb (k + 2) 0 (st.itab (k + 2)).din.size dst st = .ok ((f.bytes, (f.bytes.length : Int)), st) := by
    rw [readi_mapped (by rw [hdin]; exact hmax)
      (by rw [hdin]; exact Nat.lt_of_le_of_lt hmax (by decide)) hd fun _ bn hbn => ?_, hdin, hdisk, hcount, hfile.bytes]
    rw [hdin, hcount, Nat.zero_add, ← hfile.size] at hbn
    rw [hdin, hdisk]
    exact ((h.filled (k + 2) (by show k + 2 ≠ 1; omega)).data bn).mpr hbn
  refine ⟨st, ?_⟩
  unfold readPath
  rw [namei_absolute, run_bind_ok (namei_file h hfit hk honly hne hs hlen)]
  dsimp only
  rw [run_bind_ok hlock]
  change ((readi Mkfs.sb (k + 2) 0 (st.itab (k + 2)).din.size dst >>= fun p =>
    pure (some ((st.itab (k + 2)).din.type, p.1, p.2))) : FsM _) st = _
  rw [run_bind_ok hread, hdin, htype]
  rfl

end

/-! ## mkfs and the kernel agree -/

/-- What the kernel finds on an image: each file under its name, no other name, and no free block in use. -/
structure Agrees (files : List Mkfs.InFile) (img : Disk) : Prop where
  reads : ∀ f ∈ files, f.short ≠ [] → f.short ≠ dotName → f.short ≠ dotdotName →
    ∀ (cwd : Nat) (dst : CopyOut), (∀ p m, dst p m = true) →
      ∃ s', readPath Mkfs.sb cwd (slash :: f.short) dst (mounted img) =
        .ok (some (tFile, f.bytes, (f.bytes.length : Int)), s')
  names : ∀ (cwd ip : Nat) (name : List UInt8) (s' : St), name ≠ [] → slash ∉ name →
    namei Mkfs.sb cwd (slash :: name) (mounted img) = .ok (some ip, s') →
      key name = dotName ∨ key name = dotdotName ∨ ∃ f ∈ files, key name = f.short
  /-- As long as no block of the image has been freed. -/
  blocks : ∀ (k k' : St) (b : Nat), (∀ c, used Mkfs.sb img c = true → used Mkfs.sb k.disk c = true) →
    balloc Mkfs.sb k = .ok (b, k') →
      b = 0 ∨ (Mkfs.sb.dataStart ≤ b ∧ b < Mkfs.sb.size ∧
        ∀ i < Mkfs.sb.ninodes, ∀ j, ptr img (dinodeAt Mkfs.sb img i) j ≠ b)

section

variable {files : List Mkfs.InFile} (hfit : Mkfs.Fit files) (hstr : ∀ f ∈ files, 0 ∉ f.name)
include hfit hstr

theorem key_short (hf : f ∈ files) : key f.short = f.short :=
  key_self (fun h0 => hstr f hf (mem_shortname (mem_stripUnderscore h0))) (hfit.names f hf).2

/-- Distinct names: no other entry of the root has a file's name. -/
theorem short_unique (hdist : (files.map Mkfs.InFile.short).Nodup) (hk : files[k]? = some f) (hdot : f.short ≠ dotName)
    (hdotdot : f.short ≠ dotdotName) (he : (Mkfs.rootEntries files)[j]? = some e) (hkey : key f.short = key e.2) : j = k + 2 := by
  rw [key_short hfit hstr (List.mem_of_getElem? hk)] at hkey
  rcases rootEntries_cases he with ⟨-, rfl⟩ | ⟨-, rfl⟩ | ⟨i, g, rfl, hg, rfl⟩
  · exact absurd hkey hdot
  · exact absurd hkey hdotdot
  · rw [key_short hfit hstr (List.mem_of_getElem? hg)] at hkey
    have hi : (files.map Mkfs.InFile.short)[i]? = some f.short := by
      rw [List.getElem?_map, hg, hkey]
      rfl
    have hj : (files.map Mkfs.InFile.short)[k]? = some f.short := by
      rw [List.getElem?_map, hk]
      rfl
    have hlt : i < (files.map Mkfs.InFile.short).length := (List.getElem?_eq_some_iff.mp hi).1
    rw [(List.getElem?_inj hlt hdist).mp (hi.trans hj.symm)]

end

/-- Files with distinct names, whose names, sizes, inodes and blocks fit: mkfs completes, and the kernel finds each
    file with its bytes, finds nothing else in the root, and allocates no block of the image. -/
theorem kernel_reads_image (files : List Mkfs.InFile) (hfit : Mkfs.Fit files) (hstr : ∀ f ∈ files, 0 ∉ f.name)
    (hdist : (files.map Mkfs.InFile.short).Nodup) :
    ∃ s, Mkfs.main files Mkfs.init = .ok ((), s) ∧ Agrees files s.img := by
  obtain ⟨s, hrun⟩ := Mkfs.main_completes hfit
  obtain ⟨fb, h⟩ := Mkfs.main_image hfit.inodes hrun
  refine ⟨s, hrun, ?_, ?_, ?_⟩
  · intro f hf hne hdot hdotdot cwd dst hd
    obtain ⟨k, hk⟩ := List.getElem?_of_mem hf
    have hnamed := hfit.names f hf
    exact readPath_file h hfit.inodes hk (fun j e he hkey => short_unique hfit hstr hdist hk hdot hdotdot he hkey) hne
      (fun hs => hnamed.1 (mem_stripUnderscore hs)) hnamed.2 cwd hd
  · intro cwd ip name s' hne hs hres
    obtain ⟨e, he, hkey, -⟩ := image_names h hfit.inodes hne hs hres
    obtain ⟨j, hj⟩ := List.getElem?_of_mem he
    rcases rootEntries_cases hj with ⟨-, rfl⟩ | ⟨-, rfl⟩ | ⟨i, f, -, hf, rfl⟩
    · exact Or.inl hkey
    · exact Or.inr (Or.inl hkey)
    · have hmem := List.mem_of_getElem? hf
      exact Or.inr (Or.inr ⟨f, hmem, hkey.trans (key_short hfit hstr hmem)⟩)
  · intro k k' b hused hal
    have hlow : ∀ c, c < Mkfs.sb.dataStart → usedAt Mkfs.sb k.disk c = true := fun c hc =>
      usedAt_of_used (hused c ((image_ok h hfit.inodes).good.low c hc))
    have hspec : wp (fun _ => True) (balloc Mkfs.sb) _ k := balloc_wp tolerant_any (Or.inr trivial) hlow
    rcases hspec.ok hal with ⟨rfl, -, -⟩ | ⟨htook, -⟩
    · exact Or.inl rfl
    · refine Or.inr ⟨htook.lo, htook.hi, fun i hi j hptr => ?_⟩
      rw [Mkfs.dinodeAt_eq_inodes s hi] at hptr
      have hl : ptrs s.img (Mkfs.inodes s) (i, j) = b := hptr
      have h0 : ptrs s.img (Mkfs.inodes s) (i, j) ≠ 0 := by
        have := htook.lo
        have : 0 < Mkfs.sb.dataStart := dataStart_pos
        omega
      have hmark := image_used h (c := b) htook.hi
      rw [decide_eq_true (hl ▸ (image_ptr_lt h h0).2)] at hmark
      have hfree := htook.free
      rw [hused b hmark] at hfree
      cases hfree

/-- "user/_sh" with two pieces of text. -/
def shFile : Mkfs.InFile where
  name := [117, 115, 101, 114, 47, 95, 115, 104]
  chunks := [[104, 105], [10]]
  chunk_len := by decide

theorem shFile_fit : Mkfs.Fit [shFile] where
  names := by
    unfold Mkfs.InFile.Named
    decide
  sizes := by decide
  inodes := by decide
  blocks := by decide

theorem kernel_reads_image_sh : Mkfs.Fit [shFile] ∧ (∀ f ∈ [shFile], 0 ∉ f.name) ∧
    ([shFile].map Mkfs.InFile.short).Nodup ∧
    ∃ s, Mkfs.main [shFile] Mkfs.init = .ok ((), s) ∧ Agrees [shFile] s.img :=
  ⟨shFile_fit, by decide, by decide, kernel_reads_image [shFile] shFile_fit (by decide) (by decide)⟩

/-- "user/_.". -/
def dotFile : Mkfs.InFile where
  name := [117, 115, 101, 114, 47, 95, 46]
  chunks := [[104, 105]]
  chunk_len := by decide

theorem dotFile_fit : Mkfs.Fit [dotFile] where
  names := by
    unfold Mkfs.InFile.Named
    decide
  sizes := by decide
  inodes := by decide
  blocks := by decide

/-- A file called "." goes into the root directory, where `namei` finds the root itself. -/
theorem dot_file_is_the_root : Mkfs.Fit [dotFile] ∧ (∀ f ∈ [dotFile], 0 ∉ f.name) ∧
    ([dotFile].map Mkfs.InFile.short).Nodup ∧
    ∃ s, Mkfs.main [dotFile] Mkfs.init = .ok ((), s) ∧
      ∃ l r s', readPath Mkfs.sb rootino (slash :: dotFile.short) CopyOut.kernel (mounted s.img) =
        .ok (some (tDir, l, r), s') := by
  refine ⟨dotFile_fit, by decide, by decide, ?_⟩
  have h : (Mkfs.main [dotFile] Mkfs.init).toOption.map (fun p =>
      (readPath Mkfs.sb rootino (slash :: dotFile.short) CopyOut.kernel (mounted p.2.img)).toOption.map
        fun q => q.1.map Prod.fst) = some (some (some tDir)) := by
    decide +kernel
  obtain ⟨⟨u, s⟩, hm, hread⟩ := exists_of_run h
  obtain ⟨⟨r, s'⟩, hr, hres⟩ := exists_of_run hread
  obtain ⟨⟨t, l, n⟩, rfl, rfl⟩ := Option.map_eq_some_iff.mp hres
  exact ⟨s, hm, l, n, s', hr⟩

end Xv6.Fs
