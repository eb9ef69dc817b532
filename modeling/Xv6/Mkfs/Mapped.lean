/-
  Xv6.Mkfs.Mapped — the image that mkfs builds.

  `Built s es cs` describes the image while files are added: `es` are the entries of the root
  directory so far and `cs` the contents of the files so far, the k-th in inode `k + 2`. The
  last two steps, rounding the root's size up and writing the bit map, are `Finished`.

  Proved: `main_wp`, `main_completes`, `main_mapped_iff`: when the root's entries fill its last
  block, the rounding of its size adds a block that is not there.
-/

import Xv6.Mkfs.Append

namespace Xv6.Mkfs

open Xv6.Lib Xv6.Fs

variable {E : Die → Prop} {i : Nat}

theorem dirent_length (inum : Nat) (name : List UInt8) : (dirent inum name).length = 16 := by
  unfold dirent
  simp only [List.length_append, List.length_take, List.length_replicate, List.length_cons, List.length_nil]
  have : dirsiz = 14 := rfl
  omega

/-! ## Adding files -/

/-- The name that the root directory gets. -/
def InFile.short (f : InFile) : List UInt8 := stripUnderscore (shortname f.name)

def InFile.bytes (f : InFile) : List UInt8 := f.chunks.flatten

/-- The blocks in use with `n` entries in the root directory and files of contents `cs`. -/
def blocksOf (n : Nat) (cs : List (List UInt8)) : Nat :=
  nmeta + need (16 * n) + (cs.map fun l => need l.length).sum

structure Holds (s : St) (i : Nat) (l : List UInt8) : Prop where
  core : (inodes s i).core = { Dinode.zero with type := tFile, nlink := 1, size := l.length }
  bytes : slice (byteAt s.img (inodes s i)) 0 l.length = l

structure Built (s : St) (es : List (Nat × List UInt8)) (cs : List (List UInt8)) : Prop where
  inv : Inv s
  inum : s.freeinode = cs.length + 2
  zero : inodes s 0 = Dinode.zero
  root : (inodes s rootino).core = { Dinode.zero with type := tDir, nlink := 1, size := 16 * es.length }
  entry : ∀ k e, es[k]? = some e → slice (byteAt s.img (inodes s rootino)) (16 * k) 16 = dirent e.1 e.2
  rest : ∀ o, 16 * es.length ≤ o → byteAt s.img (inodes s rootino) o = 0
  file : ∀ k l, cs[k]? = some l → Holds s (k + 2) l
  blocks : s.freeblock = blocksOf es.length cs

section

variable {s s' : St} {es : List (Nat × List UInt8)} {cs : List (List UInt8)} {l p : List UInt8}

theorem Built.rootSize (h : Built s es cs) : (inodes s rootino).size = 16 * es.length := congrArg Dinode.size h.root

theorem Holds.size (h : Holds s i l) : (inodes s i).size = l.length :=
  congrArg Dinode.size h.core

theorem Extended.holds_ne {j : Nat} (h : Extended s i p s') (hj : j ≠ i) (hl : Holds s j l) :
    Holds s' j l := by
  refine ⟨?_, ?_⟩
  · rw [h.others j hj]
    exact hl.core
  · rw [h.bytes_ne j hj]
    exact hl.bytes

theorem Extended.holds (h : Extended s i p s') (hl : Holds s i l) :
    Holds s' i (l ++ p) := by
  refine ⟨?_, ?_⟩
  · rw [h.core, hl.core, hl.size, List.length_append]
  · rw [h.bytes, hl.size, List.length_append, ← slice_append, slice_putBytes_before _ _ (by omega), hl.bytes,
      Nat.zero_add, slice_putBytes]

theorem getElem?_concat_cases {α : Type} {l : List α} {a b : α} {k : Nat} (h : (l ++ [a])[k]? = some b) :
    l[k]? = some b ∨ (k = l.length ∧ b = a) := by
  rcases Nat.lt_trichotomy k l.length with hk | rfl | hk
  · rw [List.getElem?_append_left hk] at h
    exact Or.inl h
  · rw [List.getElem?_concat_length] at h
    exact Or.inr ⟨rfl, (Option.some.inj h).symm⟩
  · rw [List.getElem?_eq_none (by rw [List.length_append, List.length_singleton]; omega)] at h
    cases h

/-- A directory entry appended to the root. -/
theorem Built.addEntry {e : Nat × List UInt8} (h : Built s es cs) (hx : Extended s rootino (dirent e.1 e.2) s') :
    Built s' (es ++ [e]) cs where
  inv := hx.inv
  inum := hx.inum.trans h.inum
  zero := (hx.others 0 (by decide)).trans h.zero
  root := by
    rw [hx.core, h.root, h.rootSize, dirent_length, List.length_append, List.length_singleton, Nat.mul_add]
  entry k x hk := by
    rw [hx.bytes, h.rootSize]
    rcases getElem?_concat_cases hk with hk | ⟨rfl, rfl⟩
    · have hlt : k < es.length := (List.getElem?_eq_some_iff.mp hk).1
      rw [slice_putBytes_before _ _ (by omega)]
      exact h.entry k x hk
    · have hp := slice_putBytes (byteAt s.img (inodes s rootino)) (16 * es.length) (dirent x.1 x.2)
      rwa [dirent_length] at hp
  rest o ho := by
    rw [List.length_append, List.length_singleton] at ho
    rw [hx.bytes, h.rootSize, putBytes_outside _ (Or.inr (by rw [dirent_length]; omega))]
    exact h.rest o (by omega)
  file k l hk := hx.holds_ne (by show k + 2 ≠ 1; omega) (h.file k l hk)
  blocks := by
    have hg := hx.grow
    rw [h.rootSize, h.blocks, dirent_length] at hg
    unfold blocksOf at hg ⊢
    rw [List.length_append, List.length_singleton, Nat.mul_succ]
    omega

/-- An empty file's inode. -/
theorem Built.addInode (h : Built s es cs) (hinv : Inv s') (hfi : s'.freeinode = s.freeinode + 1)
    (hin : inodes s' = update (inodes s) s.freeinode { Dinode.zero with type := tFile, nlink := 1 })
    (hbyte : ∀ j, byteAt s'.img (inodes s' j) = byteAt s.img (inodes s j)) (hfb : s'.freeblock = s.freeblock) :
    Built s' es (cs ++ [[]]) := by
  have hroot : inodes s' rootino = inodes s rootino := by
    rw [hin, update_of_ne (by rw [h.inum]; show 1 ≠ _; omega)]
  constructor
  · exact hinv
  · rw [hfi, h.inum, List.length_append]
    rfl
  · rw [hin, update_of_ne (by rw [h.inum]; omega)]
    exact h.zero
  · rw [hroot]
    exact h.root
  · intro k e hk
    rw [hbyte]
    exact h.entry k e hk
  · intro o ho
    rw [hbyte]
    exact h.rest o ho
  · intro k l hk
    rcases getElem?_concat_cases hk with hk | ⟨rfl, rfl⟩
    · have hlt : k < cs.length := (List.getElem?_eq_some_iff.mp hk).1
      have hl := h.file k l hk
      refine ⟨?_, ?_⟩
      · rw [hin, update_of_ne (by rw [h.inum]; omega)]
        exact hl.core
      · rw [hbyte]
        exact hl.bytes
    · refine ⟨?_, rfl⟩
      rw [hin, ← h.inum, update_self]
      rfl
  · rw [hfb, h.blocks]
    unfold blocksOf
    rw [List.map_append, List.sum_append]
    rfl

/-- Bytes appended to the last file. -/
theorem Built.addBytes (h : Built s es (cs ++ [l])) (hx : Extended s (cs.length + 2) p s') :
    Built s' es (cs ++ [l ++ p]) := by
  have hl : Holds s (cs.length + 2) l := h.file _ _ List.getElem?_concat_length
  have hroot := hx.others rootino (by show 1 ≠ _; omega)
  have hbytes := hx.bytes_ne rootino (by show 1 ≠ _; omega)
  constructor
  · exact hx.inv
  · rw [hx.inum, h.inum, List.length_append, List.length_append]
    rfl
  · rw [hx.others 0 (by omega)]
    exact h.zero
  · rw [hroot]
    exact h.root
  · intro k e hk
    rw [hbytes]
    exact h.entry k e hk
  · intro o ho
    rw [hbytes]
    exact h.rest o ho
  · intro k m hk
    rcases getElem?_concat_cases hk with hk | ⟨rfl, rfl⟩
    · have hlt : k < cs.length := (List.getElem?_eq_some_iff.mp hk).1
      refine hx.holds_ne (by omega) (h.file k m ?_)
      rw [List.getElem?_append_left hlt]
      exact hk
    · exact hx.holds hl
  · have hg := hx.grow
    rw [hl.size, h.blocks, ← List.length_append] at hg
    unfold blocksOf at hg ⊢
    simp only [List.map_append, List.sum_append, List.map_cons, List.map_nil, List.sum_cons, List.sum_nil] at hg ⊢
    omega

end

/-- Every way to stop is tolerated, or `c` holds. -/
def Room (E : Die → Prop) (c : Prop) : Prop := (∀ e, E e) ∨ c

variable {c d : Prop} {n : Nat} {s : St} {es : List (Nat × List UInt8)} {cs : List (List UInt8)} {files : List InFile}

theorem Room.stop (h : Room E c) (e : Die) (hd : c → d) : E e ∨ d := by
  rcases h with h | h
  · exact Or.inl (h e)
  · exact Or.inr (hd h)

theorem Room.imp (h : Room E c) (hd : c → d) : Room E d := Or.imp_right hd h

theorem blocksOf_append (n : Nat) (cs ds : List (List UInt8)) :
    blocksOf n (cs ++ ds) = blocksOf n cs + (ds.map fun l => need l.length).sum := by
  unfold blocksOf
  rw [List.map_append, List.sum_append]
  omega

theorem blocksOf_singleton (n : Nat) (cs : List (List UInt8)) (l : List UInt8) :
    blocksOf n (cs ++ [l]) = blocksOf n cs + need l.length := by
  rw [blocksOf_append]
  rfl

theorem blocksOf_mono {m : Nat} (h : m ≤ n) (cs : List (List UInt8)) : blocksOf m cs ≤ blocksOf n cs := by
  have := need_mono (Nat.mul_le_mul_left 16 h)
  unfold blocksOf
  omega

theorem addEntry_wp (i : Nat) (name : List UInt8)
    (h : Built s es cs) (hlen : es.length ≤ ninodes) (hroom : Room E (blocksOf (es.length + 1) cs ≤ fssize)) :
    wp E (iappend rootino (dirent i name)) (fun _ s' => Built s' (es ++ [(i, name)]) cs) s := by
  refine wp_mono (iappend_wp h.inv (by rw [h.inum]; show 1 < _; omega) (by decide) (hroom.stop _ fun hc => ?_)
    (Or.inr ?_)) fun _ s' hx => h.addEntry hx
  · rw [h.rootSize, h.blocks, dirent_length]
    unfold blocksOf at hc ⊢
    rw [Nat.mul_succ] at hc
    omega
  · rw [h.rootSize, dirent_length]
    have h1 : ninodes = 200 := rfl
    have h2 : maxfile * bsize = 274432 := rfl
    omega

theorem appendChunks_wp (hn : cs.length + 2 < ninodes)
    (ds : List (List UInt8)) : ∀ {s : St} {l : List UInt8}, Built s es (cs ++ [l]) →
    Room E (blocksOf es.length (cs ++ [l ++ ds.flatten]) ≤ fssize ∧ (l ++ ds.flatten).length ≤ maxfile * bsize) →
    wp E (appendChunks (cs.length + 2) ds) (fun _ s' => Built s' es (cs ++ [l ++ ds.flatten])) s := by
  induction ds with
  | nil =>
    intro s l h _
    rw [List.flatten_nil, List.append_nil]
    exact h
  | cons d ds ih =>
    intro s l h hroom
    have hl : Holds s (cs.length + 2) l := h.file _ _ List.getElem?_concat_length
    rw [List.flatten_cons, ← List.append_assoc] at hroom ⊢
    have hle : (l ++ d).length ≤ (l ++ d ++ ds.flatten).length := by
      simp only [List.length_append]
      omega
    have hmono := need_mono hle
    unfold appendChunks
    refine wp_seq (iappend_wp h.inv ?_ hn (hroom.stop _ fun hc => ?_) (hroom.stop _ fun hc => ?_)) fun _ s1 hx =>
      ih (h.addBytes hx) hroom
    · rw [h.inum, List.length_append]
      exact Nat.lt_succ_self _
    · have hc1 := hc.1
      rw [blocksOf_singleton] at hc1
      rw [hl.size, h.blocks, blocksOf_singleton, ← List.length_append]
      omega
    · rw [hl.size, ← List.length_append]
      exact hle.trans hc.2

/-- A name that the program accepts. -/
def InFile.Named (f : InFile) : Prop := slash ∉ shortname f.name ∧ f.short.length ≤ dirsiz

theorem addFile_wp (f : InFile) (h : Built s es cs)
    (hn : cs.length + 2 < ninodes) (hlen : es.length ≤ ninodes)
    (hroom : Room E (f.Named ∧ f.bytes.length ≤ maxfile * bsize ∧ blocksOf (es.length + 1) (cs ++ [f.bytes]) ≤ fssize)) :
    wp E (addFile rootino f) (fun _ s' => Built s' (es ++ [(cs.length + 2, f.short)]) (cs ++ [f.bytes])) s := by
  unfold addFile
  refine wp_seq (check_wp (Q := fun _ s' => s = s') (hroom.stop _ fun h => h.1.1) fun _ => rfl) ?_
  rintro _ _ rfl
  refine wp_seq (check_wp (Q := fun _ s' => s = s') (hroom.stop _ fun h => h.1.2) fun _ => rfl) ?_
  rintro _ _ rfl
  refine wp_seq (ialloc_wp h.inv (by rw [h.inum]; exact hn) (by decide)) ?_
  rintro inum s1 ⟨rfl, hinv, hfi, hin, hbyte, hfb⟩
  have h1 := h.addInode hinv hfi hin hbyte hfb
  rw [h.inum]
  refine wp_seq (addEntry_wp (cs.length + 2) f.short h1 hlen (hroom.imp fun hc => ?_)) ?_
  · have hc := hc.2.2
    rw [blocksOf_singleton] at hc ⊢
    exact Nat.le_trans (Nat.add_le_add_left (need_mono (Nat.zero_le _)) _) hc
  · intro _ s2 h2
    refine appendChunks_wp hn f.chunks h2 (hroom.imp fun hc => ?_)
    rw [List.length_append]
    exact ⟨hc.2.2, hc.2.1⟩

/-- The entries of `fs` when the next inode is `i`. -/
def entriesFrom (i : Nat) (fs : List InFile) : List (Nat × List UInt8) := (fs.zipIdx i).map fun p => (p.2, p.1.short)

theorem addFiles_wp (fs : List InFile) : ∀ {s : St} {es : List (Nat × List UInt8)} {cs : List (List UInt8)},
    Built s es cs → cs.length + 1 + fs.length < ninodes → es.length = cs.length + 2 →
    Room E ((∀ f ∈ fs, f.Named) ∧ (∀ f ∈ fs, f.bytes.length ≤ maxfile * bsize) ∧
      blocksOf (es.length + fs.length) (cs ++ fs.map InFile.bytes) ≤ fssize) →
    wp E (addFiles rootino fs)
      (fun _ s' => Built s' (es ++ entriesFrom (cs.length + 2) fs) (cs ++ fs.map InFile.bytes)) s := by
  induction fs with
  | nil =>
    intro s es cs h _ _ _
    show Built s (es ++ []) (cs ++ [])
    rw [List.append_nil, List.append_nil]
    exact h
  | cons f fs ih =>
    intro s es cs h hn hlen hroom
    rw [List.length_cons] at hn hroom
    have happ : cs ++ (f :: fs).map InFile.bytes = cs ++ [f.bytes] ++ fs.map InFile.bytes := by simp
    rw [happ] at hroom ⊢
    unfold addFiles
    refine wp_seq (addFile_wp f h (by omega) (by omega) (hroom.imp fun hc => ?_)) ?_
    · obtain ⟨hnames, hsizes, hblocks⟩ := hc
      refine ⟨hnames f List.mem_cons_self, hsizes f List.mem_cons_self, ?_⟩
      rw [blocksOf_append] at hblocks
      have := blocksOf_mono (by omega : es.length + 1 ≤ es.length + (fs.length + 1)) (cs ++ [f.bytes])
      omega
    · intro _ s1 h1
      have hentries : es ++ entriesFrom (cs.length + 2) (f :: fs) =
          es ++ [(cs.length + 2, f.short)] ++ entriesFrom ((cs ++ [f.bytes]).length + 2) fs := by
        simp [entriesFrom]
      rw [hentries]
      refine ih h1 ?_ ?_ (hroom.imp fun hc => ?_)
      · rw [List.length_append, List.length_singleton]
        omega
      · rw [List.length_append, List.length_append, List.length_singleton, List.length_singleton]
        omega
      · rw [List.length_append, List.length_singleton, Nat.add_assoc, Nat.add_comm 1]
        exact ⟨fun g hg => hc.1 g (List.mem_cons_of_mem _ hg), fun g hg => hc.2.1 g (List.mem_cons_of_mem _ hg),
          hc.2.2⟩

/-! ## main -/

theorem inodes_init : inodes init = fun _ => Dinode.zero := by
  funext i
  unfold inodes
  split
  · exact getDinode_zero _
  · rfl

/-- The image with its super block and nothing else. -/
def formatted : St := { init with img := update init.img 1 sbBlock }

theorem inodes_formatted : inodes formatted = fun _ => Dinode.zero := by
  rw [← inodes_init]
  funext i
  unfold inodes
  split
  · have hlt : 1 < iblock sb i := Nat.lt_of_lt_of_le (by decide : 1 < sb.inodestart) (Nat.le_add_left _ _)
    exact dinodeAt_update sbBlock (Nat.ne_of_gt hlt)
  · rfl

theorem formatted_inv : Inv formatted := by
  have hp : ptrs formatted.img (fun _ => Dinode.zero) = fun _ => 0 := by
    funext l
    unfold ptrs ptr
    split
    · rfl
    · exact blockOf_zero _ _
  refine ⟨⟨le_refl _, ?_, ?_, ?_, ?_⟩, ?_, fun i => ⟨fun bn => ?_, ?_⟩, ?_, rfl⟩
  · rw [inodes_formatted, hp]
    exact ⟨fun _ h => absurd rfl h, fun _ h => absurd rfl h, fun _ _ h => absurd rfl h⟩
  · intro c hlo _ hc
    have hlt : c < nmeta := of_decide_eq_true hc
    omega
  · intro b hb
    have h1 : 1 < nmeta := by decide
    have h2 : nmeta ≤ b := hb
    exact update_of_ne (by omega) _ _
  · rw [inodes_formatted]
    intro _
    exact Dinode.Fits.zero
  · show nmeta ≤ fssize
    decide
  · rw [inodes_formatted, blockOf_zero]
    show 0 ≠ 0 ↔ bn * bsize < 0
    omega
  · rw [inodes_formatted]
    show 0 ≠ 0 ↔ ndirect * bsize < 0
    omega
  · intro i _
    rw [inodes_formatted]

/-- The last two steps: the root's size is rounded up and the bit map is written; nothing else changes. -/
structure Finished (n : Nat) (s s' : St) : Prop where
  good : Good s'.img (inodes s') s.freeblock
  map : s'.img sb.bmapstart = usedMap s.freeblock
  nodes : inodes s' = update (inodes s) rootino
    { inodes s rootino with size := (16 * (n + 2) / bsize + 1) * bsize }
  blocks : ∀ j, blockOf s'.img (inodes s' j) = blockOf s.img (inodes s j)
  bytes : ∀ j, byteAt s'.img (inodes s' j) = byteAt s.img (inodes s j)
  super : s'.img 1 = s.img 1

theorem fixRoot_wp (h : Inv s) (hsize : (inodes s rootino).size = 16 * (n + 2)) (hn : n + 1 < ninodes) :
    wp E (fixRoot rootino) (fun _ s' =>
      Rewritten s rootino { inodes s rootino with size := (16 * (n + 2) / bsize + 1) * bsize } s') s := by
  unfold fixRoot
  refine wp_seq (rinode_wp (Q := fun x s' => x = inodes s rootino ∧ s = s') (by decide) ⟨rfl, rfl⟩) ?_
  rintro _ _ ⟨rfl, rfl⟩
  rw [hsize]
  have hf := h.good.fits rootino
  have hsz : (16 * (n + 2) / bsize + 1) * bsize < 2 ^ 32 := by
    unfold bsize
    have : ninodes = 200 := rfl
    omega
  exact rewrite_wp h.good (by decide) ⟨hf.type, hf.major, hf.minor, hf.nlink, hsz, hf.addrs⟩ rfl

theorem balloc_wp {used : Nat} (hg : Good s.img (inodes s) s.freeblock) (hu : used < bpb) :
    wp E (balloc used) (fun _ s' => Good s'.img (inodes s') s.freeblock ∧ s'.img sb.bmapstart = usedMap used ∧
      inodes s' = inodes s ∧ (∀ j, blockOf s'.img (inodes s' j) = blockOf s.img (inodes s j)) ∧
      (∀ j, byteAt s'.img (inodes s' j) = byteAt s.img (inodes s j)) ∧ s'.img 1 = s.img 1) s := by
  unfold balloc
  refine wp_seq (check_wp (Q := fun _ s' => s = s') (Or.inr hu) fun _ => rfl) ?_
  rintro _ _ rfl
  have hin : inodes { s with img := update s.img sb.bmapstart (usedMap used) } = inodes s := by
    funext i
    unfold inodes
    split
    · exact dinodeAt_update _ (Nat.ne_of_lt (iblock_lt ‹_›))
    · rfl
  have hhigh : ∀ b, nmeta ≤ b → update s.img sb.bmapstart (usedMap used) b = s.img b := by
    intro b hb
    have : sb.bmapstart < nmeta := by decide
    exact update_of_ne (by omega) _ _
  obtain ⟨hg', hblk, hbyte⟩ := hg.rewrite (inodes s) hhigh (fun _ => rfl) hg.fits
  have hmap : update s.img sb.bmapstart (usedMap used) sb.bmapstart = usedMap used := update_self _ _ _
  refine ⟨?_, hmap, hin, fun j => ?_, fun j => ?_, update_of_ne (show 1 ≠ sb.bmapstart by decide) (usedMap used) s.img⟩
  · rw [hin]
    exact hg'
  · rw [hin]
    exact hblk j
  · rw [hin]
    exact hbyte j

/-- The entries of the root directory. -/
def rootEntries (files : List InFile) : List (Nat × List UInt8) :=
  [(rootino, [dot]), (rootino, [dot, dot])] ++ entriesFrom 2 files

theorem rootEntries_length (files : List InFile) : (rootEntries files).length = files.length + 2 := by
  simp [rootEntries, entriesFrom]

/-- Files whose names, sizes, inodes and blocks fit. -/
structure Fit (files : List InFile) : Prop where
  names : ∀ f ∈ files, f.Named
  sizes : ∀ f ∈ files, f.bytes.length ≤ maxfile * bsize
  inodes : files.length + 1 < ninodes
  blocks : blocksOf (files.length + 2) (files.map InFile.bytes) ≤ fssize

theorem blocksOf_two : blocksOf 2 [] ≤ fssize := by decide

/-- The root directory's inode, before its first entry. -/
theorem formatted_built (hinv : Inv s) (hfi : s.freeinode = 2)
    (hin : inodes s = update (inodes formatted) 1 { Dinode.zero with type := tDir, nlink := 1 })
    (hbyte : ∀ j, byteAt s.img (inodes s j) = byteAt formatted.img (inodes formatted j)) (hfb : s.freeblock = nmeta) :
    Built s [] [] where
  inv := hinv
  inum := hfi
  zero := by
    rw [hin, update_of_ne (by decide), inodes_formatted]
  root := by
    rw [hin]
    rfl
  entry k e hk := by cases hk
  rest o _ := by
    rw [hbyte, inodes_formatted]
    exact congrFun (byteAt_zero _) o
  file k l hk := by cases hk
  blocks := hfb

/-- What a completed run leaves. -/
theorem main_wp (files : List InFile) (hfit : files.length + 1 < ninodes) (hroom : Room E (Fit files)) :
    wp E (main files) (fun _ s' => ∃ s, Built s (rootEntries files) (files.map InFile.bytes) ∧
      Finished files.length s s') init := by
  unfold main
  have hsb : wp E (wsect 1 sbBlock) (fun _ s' => s' = formatted) init := rfl
  refine wp_seq hsb ?_
  rintro _ _ rfl
  refine wp_seq (ialloc_wp formatted_inv (by decide) (by decide)) ?_
  rintro ino s1 ⟨hino, hinv, hfi, hin, hbyte, hfb⟩
  obtain rfl : ino = rootino := hino
  refine wp_seq (check_wp (Q := fun _ s' => s1 = s') (Or.inr rfl) fun _ => rfl) ?_
  rintro _ _ rfl
  have h1 := formatted_built hinv hfi hin hbyte hfb
  have htwo := blocksOf_two
  -- "." and ".."
  refine wp_seq (addEntry_wp rootino [dot] h1 (by decide) (Or.inr ?_)) fun _ s2 h2 => ?_
  · exact (blocksOf_mono (by decide) []).trans htwo
  refine wp_seq (addEntry_wp rootino [dot, dot] h2 (by decide) (Or.inr htwo)) fun _ s3 h3 => ?_
  refine wp_seq (addFiles_wp files h3 (by simpa [Nat.add_comm] using hfit) rfl (hroom.imp fun hf => ?_)) fun _ s4 h4 => ?_
  · refine ⟨hf.names, hf.sizes, ?_⟩
    have hb := hf.blocks
    rwa [Nat.add_comm] at hb
  have hsize : (inodes s4 rootino).size = 16 * (files.length + 2) := by
    rw [h4.rootSize]
    exact congrArg _ (rootEntries_length files)
  refine wp_seq (fixRoot_wp h4.inv hsize hfit) ?_
  intro _ s5 h5
  have hused : s5.freeblock < bpb := by
    rw [h5.fb]
    exact Nat.lt_of_le_of_lt h4.inv.fb (by decide)
  have hg5 : Good s5.img (inodes s5) s5.freeblock := by
    rw [h5.fb]
    exact h5.good
  rw [wp_get_bind]
  refine wp_mono (balloc_wp hg5 hused) ?_
  rintro _ s6 ⟨hg6, hmap6, hin6, hblk6, hbyte6, hsuper6⟩
  rw [h5.fb] at hg6 hmap6
  exact ⟨s4, h4, {
    good := hg6
    map := hmap6
    nodes := hin6.trans h5.nodes
    blocks := fun j => (hblk6 j).trans (h5.blocks j)
    bytes := fun j => (hbyte6 j).trans (h5.bytes j)
    super := hsuper6.trans h5.super }⟩

theorem main_completes (h : Fit files) : ∃ s, main files init = .ok ((), s) := by
  obtain ⟨_, s, hs, _⟩ := wp_total (main_wp files h.inodes (Or.inr h))
  exact ⟨s, hs⟩

/-- The image of a completed run, with `fb` blocks in use. -/
structure Image (files : List InFile) (fb : Nat) (s : St) : Prop where
  good : Good s.img (inodes s) fb
  fb_le : fb ≤ fssize
  map : s.img sb.bmapstart = usedMap fb
  free : ∀ i, i = 0 ∨ files.length + 2 ≤ i → inodes s i = Dinode.zero
  root : (inodes s rootino).core =
    { Dinode.zero with type := tDir, nlink := 1, size := (16 * (files.length + 2) / bsize + 1) * bsize }
  /-- The root directory has the blocks that it had before its size was rounded up. -/
  rootMapped : ∀ bn, blockOf s.img (inodes s rootino) bn ≠ 0 ↔ bn * bsize < 16 * (files.length + 2)
  filled : ∀ i, i ≠ rootino → Filled s.img (inodes s i) (inodes s i).size
  entry : ∀ k e, (rootEntries files)[k]? = some e →
    slice (byteAt s.img (inodes s rootino)) (16 * k) 16 = dirent e.1 e.2
  rest : ∀ o, 16 * (files.length + 2) ≤ o → byteAt s.img (inodes s rootino) o = 0
  file : ∀ k f, files[k]? = some f → Holds s (k + 2) f.bytes
  super : s.img 1 = sbBlock

theorem Finished.image {s0 : St} (hf : Finished files.length s0 s)
    (hb : Built s0 (rootEntries files) (files.map InFile.bytes)) : Image files s0.freeblock s := by
  have hne : ∀ i, i ≠ rootino → inodes s i = inodes s0 i := by
    intro i hi
    rw [hf.nodes, update_of_ne hi]
  constructor
  · exact hf.good
  · exact hb.inv.fb
  · exact hf.map
  · rintro i (rfl | hi)
    · rw [hne 0 (by decide), hb.zero]
    · rw [hne i (by show i ≠ 1; omega)]
      refine hb.inv.free i ?_
      rw [hb.inum, List.length_map]
      exact hi
  · rw [hf.nodes, update_self]
    have hroot := hb.root
    exact congrArg (fun x : Dinode => { x with size := (16 * (files.length + 2) / bsize + 1) * bsize }) hroot
  · intro bn
    rw [hf.blocks, (hb.inv.filled rootino).data, hb.rootSize, rootEntries_length]
  · intro i hi
    have hfill := (hb.inv.filled i).congr (hf.blocks i) (by rw [hne i hi])
    rwa [hne i hi] at hfill ⊢
  · intro k e hk
    rw [hf.bytes]
    exact hb.entry k e hk
  · intro o ho
    rw [hf.bytes]
    exact hb.rest o (by rwa [rootEntries_length])
  · intro k f hk
    have hold := hb.file k f.bytes (by rw [List.getElem?_map, hk]; rfl)
    refine ⟨?_, ?_⟩
    · rw [hne _ (by show k + 2 ≠ 1; omega)]
      exact hold.core
    · rw [hf.bytes]
      exact hold.bytes
  · exact hf.super.trans hb.inv.super

theorem main_image (hfit : files.length + 1 < ninodes)
    (hrun : main files init = .ok ((), s)) : ∃ fb, Image files fb s := by
  obtain ⟨s0, hb, hf⟩ := (main_wp (E := fun _ => True) files hfit (Or.inl fun _ => trivial)).ok hrun
  exact ⟨_, hf.image hb⟩

/-- The kernel's `readsb` finds the super block in a completed image. -/
theorem main_readsb (hfit : files.length + 1 < ninodes) (hrun : main files init = .ok ((), s)) :
    readsb s.img = [fsmagic, sb.size, sb.nblocks, sb.ninodes, sb.nlog, sb.logstart, sb.inodestart, sb.bmapstart] := by
  obtain ⟨fb, himage⟩ := main_image hfit hrun
  rw [readsb, himage.super]
  decide

/-- Every inode of the image has a block for every index below its size. -/
def AllMapped (s : St) : Prop :=
  ∀ i < sb.ninodes, ∀ bn, bn * bsize < (dinodeAt sb s.img i).size → blockOf s.img (dinodeAt sb s.img i) bn ≠ 0

theorem dinodeAt_eq_inodes (s : St) (h : i < sb.ninodes) : dinodeAt sb s.img i = inodes s i := (if_pos h).symm

section

variable {files : List InFile} {fb : Nat} {s : St} (h : Image files fb s)
include h

theorem Image.rootSize : (inodes s rootino).size = (16 * (files.length + 2) / bsize + 1) * bsize :=
  congrArg Dinode.size h.root

/-- A root directory that fills its blocks: the block that the rounding adds is not there. -/
theorem Image.root_hole (hmod : (files.length + 2) % 64 = 0) : ¬ AllMapped s := by
  intro hall
  have hbn := hall rootino (by decide) (16 * (files.length + 2) / bsize)
  rw [dinodeAt_eq_inodes s (by decide), h.rootMapped, h.rootSize] at hbn
  unfold bsize at hbn
  have := hbn (by omega)
  omega

theorem Image.allMapped (hmod : (files.length + 2) % 64 ≠ 0) : AllMapped s := by
  intro i hi bn hlt
  rw [dinodeAt_eq_inodes s hi] at hlt ⊢
  by_cases hr : i = rootino
  · subst hr
    rw [h.rootSize] at hlt
    rw [h.rootMapped]
    unfold bsize at hlt ⊢
    omega
  · exact ((h.filled i hr).data bn).mpr hlt

end

/-- After a completed run whose inodes fit, every inode has all the blocks its size calls for exactly when the root
    directory's two entries and one per file do not fill a whole number of blocks. -/
theorem main_mapped_iff (files : List InFile) (s : St) (hrun : main files init = .ok ((), s))
    (hfit : files.length + 1 < ninodes) : AllMapped s ↔ (files.length + 2) % 64 ≠ 0 := by
  obtain ⟨fb, himg⟩ := main_image hfit hrun
  constructor
  · intro h hmod
    exact himg.root_hole hmod h
  · exact himg.allMapped

/-- Empty files with names that fit need the root directory's blocks and no others. -/
theorem fit_of_empty (hn : ∀ f ∈ files, f.Named) (he : ∀ f ∈ files, f.chunks = [])
    (hfit : files.length + 1 < ninodes) : Fit files where
  names := hn
  sizes f hf := by
    unfold InFile.bytes
    rw [he f hf]
    exact Nat.zero_le _
  inodes := hfit
  blocks := by
    have hz : ((files.map InFile.bytes).map fun l => need l.length).sum = 0 := by
      have hb : files.map InFile.bytes = files.map fun _ => [] := by
        refine List.map_congr_left fun f hf => ?_
        unfold InFile.bytes
        rw [he f hf]
        rfl
      rw [hb, List.map_const', List.map_replicate, List.sum_replicate_nat]
      exact Nat.mul_zero _
    have hmono : need (16 * (files.length + 2)) ≤ need (16 * 202) := by
      have : ninodes = 200 := rfl
      exact need_mono (by omega)
    have hlast : nmeta + need (16 * 202) ≤ fssize := by decide
    unfold blocksOf
    omega

/-- The empty file with a two-letter name, "aa", "ab" and so on. -/
def emptyFile (k : Nat) : InFile where
  name := [UInt8.ofNat (97 + k / 26), UInt8.ofNat (97 + k % 26)]
  chunks := []
  chunk_len := by simp

theorem emptyFile_named : ∀ k < 62, (emptyFile k).Named := by
  unfold InFile.Named
  decide +kernel

/-- "a", of a block and three bytes. -/
def twoBlockFile : InFile where
  name := [97]
  chunks := [List.replicate bsize 7, [1, 2, 3]]
  chunk_len c hc := by
    rcases List.mem_cons.mp hc with rfl | hc
    · rw [List.length_replicate]
      decide
    · rw [List.mem_singleton.mp hc]
      decide

theorem twoBlockFile_length : twoBlockFile.bytes.length = bsize + 3 := by
  rw [InFile.bytes, twoBlockFile, List.length_flatten, List.map_cons, List.length_replicate]
  rfl

theorem threeFiles_fit : Fit [twoBlockFile, emptyFile 0, emptyFile 1] where
  names := by
    unfold InFile.Named
    decide
  sizes f hf := by
    rcases List.mem_cons.mp hf with rfl | hsmall
    · rw [twoBlockFile_length]
      decide
    · clear hf
      revert f
      decide
  inodes := by decide
  blocks := by
    rw [List.map_cons, blocksOf, List.map_cons, twoBlockFile_length]
    decide

theorem main_mapped_three_files : ∃ s, main [twoBlockFile, emptyFile 0, emptyFile 1] init = .ok ((), s) ∧ AllMapped s := by
  obtain ⟨s, hs⟩ := main_completes threeFiles_fit
  exact ⟨s, hs, (main_mapped_iff _ s hs threeFiles_fit.inodes).mpr (by decide)⟩

/-- 62 files make a root directory of one whole block; its size becomes two blocks, and the second has no block. -/
theorem sixtyTwo_files_leave_a_hole :
    ∃ s, main ((List.range 62).map emptyFile) init = .ok ((), s) ∧ ¬ AllMapped s := by
  have hlen : ((List.range 62).map emptyFile).length = 62 := by rw [List.length_map, List.length_range]
  have hfit : ((List.range 62).map emptyFile).length + 1 < ninodes := by rw [hlen]; decide
  have hf : Fit ((List.range 62).map emptyFile) := by
    refine fit_of_empty (fun f hf => ?_) (fun f hf => ?_) hfit
    all_goals obtain ⟨k, hk, rfl⟩ := List.mem_map.mp hf
    · exact emptyFile_named k (List.mem_range.mp hk)
    · rfl
  obtain ⟨s, hs⟩ := main_completes hf
  obtain ⟨fb, himg⟩ := main_image hfit hs
  exact ⟨s, hs, himg.root_hole (by rw [hlen])⟩

end Xv6.Mkfs
