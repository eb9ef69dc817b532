/-
  Xv6.Exec.Image — running a file of a fresh image.

  `exec` sees of a file its size and the bytes below it (`Preparable.congr`), and on a fresh image the path
  "/name" leads to the file of that name with the bytes that mkfs was given (`image_program`). So what
  `exec` does with a program can be worked out on the program's bytes.
-/

import Xv6.Exec.Enter

namespace Xv6.Exec

open Xv6.Lib Xv6.Fs Xv6.Vm

/-! ## What exec sees of a file -/

section

variable {f g : Node} {i : Nat} (hsize : f.size = g.size) (hdata : ∀ k < f.size, f.data k = g.data k)
include hdata

theorem elfOf_congr (hheader : elfhdrSize ≤ f.size) : elfOf f = elfOf g := Elfhdr.at_congr fun k hk => by
  rw [Nat.zero_add]
  exact hdata k (by omega)

include hsize

/-- Files of one size with the same bytes are prepared alike. -/
theorem Preparable.congr {free : Nat} (h : Preparable g free) : Preparable f free := by
  have helf : elfOf f = elfOf g := elfOf_congr hdata (hsize ▸ h.header)
  have hph : ∀ i < (elfOf g).phnum, phOf f i = phOf g i := by
    intro i hi
    have hin := (h.headers i hi).whole
    rw [phOf, phOffset, helf]
    exact Proghdr.at_congr fun k hk => hdata _ (by rw [hsize]; unfold phOffset at hin; omega)
  have htop : ∀ i ≤ (elfOf g).phnum, top f i = top g i := by
    intro i hi
    induction i with
    | zero => rfl
    | succ i ih => rw [top, top, hph i hi, ih (Nat.le_of_lt hi)]
  refine ⟨hsize ▸ h.header, helf ▸ h.magic, fun i hi => ?_, ?_⟩
  · rw [helf] at hi
    have hok := h.headers i hi
    refine ⟨?_, fun hl => ?_, fun hl => ?_⟩
    · rw [phOffset, helf, hsize]
      exact hok.whole
    · rw [hph i hi] at hl ⊢
      have hacc := hok.accepted hl
      exact ⟨hacc.memsz, hacc.stop, hacc.aligned, hsize ▸ hacc.file⟩
    · rw [htop (i + 1) hi]
      exact hok.pos (hph i hi ▸ hl)
  · rw [helf, htop _ (Nat.le_refl _)]
    exact h.pages

end

/-! ## A mounted image -/

/-- Between system calls, with the image mounted. -/
def onImage (img : Disk) (vm : Vm.St) (p : Proc) : St := ⟨{ mounted img with outstanding := 0 }, vm, p⟩

section

variable {files : List Mkfs.InFile} {fb k : Nat} {s : Mkfs.St} {f : Mkfs.InFile}

/-- "/name" leads to the file of that name. -/
theorem image_program (h : Mkfs.Image files fb s) (hfit : Mkfs.Fit files) (hstr : ∀ f ∈ files, 0 ∉ f.name)
    (hdist : (files.map Mkfs.InFile.short).Nodup) (hcons : Consistent Mkfs.sb rootino (mounted s.img)) (hk : files[k]? = some f)
    (hne : f.short ≠ []) (hdot : f.short ≠ dotName) (hdotdot : f.short ≠ dotdotName) (vm : Vm.St) {p : Proc}
    (hp : p.cwd = rootino) :
    program Mkfs.sb (onImage s.img vm p) (slash :: f.short) = some (k + 2) := by
  have hfile := image_resolve h hfit hstr hdist hcons hk hne hdot hdotdot
  rwa [← hp] at hfile

/-- The file has the bytes that mkfs was given. -/
theorem image_bytes (h : Mkfs.Image files fb s) (hk : files[k]? = some f) :
    (node Mkfs.sb (mounted s.img) (k + 2)).size = f.bytes.length ∧
    ∀ o (ho : o < f.bytes.length), (node Mkfs.sb (mounted s.img) (k + 2)).data o = f.bytes[o] := by
  have hfile := h.file k f hk
  rw [image_node h]
  refine ⟨hfile.size, fun o ho => ?_⟩
  have hget := slice_getElem? (byteAt s.img (Mkfs.inodes s (k + 2))) (o := 0) ho
  rw [hfile.bytes, List.getElem?_eq_getElem ho, Nat.zero_add] at hget
  exact (Option.some.inj hget).symm

end

/-! ## A program -/

/-- The ELF header. -/
def putElfhdr (b : Bytes) (entry phoff phnum : Nat) : Bytes := put16 (put64
      (put64 (put32 b 0 elfMagic) 24 entry) 32 phoff) 56 phnum

/-- The header of a segment, at offset `o`. -/
def putProghdr (b : Bytes) (o flags off vaddr filesz memsz : Nat) : Bytes :=
  put64 (put64 (put64 (put64 (put32 (put32 b o elfProgLoad) (o + 4) flags) (o + 8) off) (o + 16) vaddr) (o + 32) filesz)
  (o + 40) memsz

/-- A file of 176 bytes: the ELF header, and the headers of two segments. One is the file itself, followed by zeros up to
5000 bytes, and can be executed; the other, in the next page, is the second header followed by zeros up to 1000 bytes, and
can be written. `phoff` is where the ELF header says that the headers are. -/
def elfBytes (phoff : Nat) : Bytes :=
  putProghdr (putProghdr (putElfhdr zero 8 phoff 2) 64 5 0 0 176 5000) 120 6 120 8192 56 1000

/-- "user/_sh" with these bytes. -/
def elfFile (phoff : Nat) : Mkfs.InFile where
  name := shFile.name
  chunks := [slice (elfBytes phoff) 0 176]
  chunk_len c hc := by
    rw [List.mem_singleton.mp hc, slice_length]
    decide

theorem elfFile_bytes (phoff : Nat) : (elfFile phoff).bytes = slice (elfBytes phoff) 0 176 := List.flatten_singleton

theorem elfFile_fit (phoff : Nat) : Mkfs.Fit [elfFile phoff] where
  names f hf := by
    rw [List.mem_singleton.mp hf]
    exact shFile_fit.names shFile List.mem_cons_self
  sizes f hf := by
    rw [List.mem_singleton.mp hf, elfFile_bytes, slice_length]
    decide
  inodes := by
    change 1 + 1 < Mkfs.ninodes
    decide
  blocks := by
    rw [List.map_cons, List.map_nil, elfFile_bytes, Mkfs.blocksOf, List.map_cons, List.map_nil, slice_length,
        List.length_singleton]
    decide

/-- The program as `exec` sees it. -/
def elfNode (phoff : Nat) : Node := ⟨tFile, 0, 0, 1, 176, elfBytes phoff⟩

/-- A process with one page of memory. -/
def oneProc (pagetable : Nat) : Proc := ⟨pagetable, pgsize, 0x87000000, [], rootino, []⟩

theorem onePage_owner : ∃ P s A, Owner (oneProc (A.tab 2 0)) s P A ∧ s.freelist.length = 10 := by
  obtain ⟨P, s, A, h, -, hpool, hfree⟩ := onePage_runs
  have hout : 0x87000000 ∉ P ∪ A.pages 0 (npages pgsize) := by
    have hall : 0x87000000 ∉ machine.freelist := by decide
    rw [hpool]
    exact hall
  exact ⟨P, s, A, ⟨h, rfl, show IsPage 0x87000000 by decide, fun hin => hout (.inl hin), fun hin => hout (.inr hin)⟩, hfree⟩

/-- The program is on the image and can be prepared by a process with one page: three pages for the segments, one for the
guard and one for the stack. -/
theorem elf_prepared (phoff : Nat) (h : Preparable (elfNode phoff) 10) :
    ∃ s Q O, Consistent Mkfs.sb s.proc.cwd (begun s.fs) ∧ Owner s.proc s.vm Q O ∧ s.fs.nlive = 1 ∧
      program Mkfs.sb s [47, 115, 104] = some 2 ∧ (node Mkfs.sb s.fs 2).size = 176 ∧
      (∀ o < 176, (node Mkfs.sb s.fs 2).data o = elfBytes phoff o) ∧
      Preparable (node Mkfs.sb s.fs 2) s.vm.freelist.length := by
  obtain ⟨ms, hmain⟩ := Mkfs.main_completes (elfFile_fit phoff)
  obtain ⟨fb, himage⟩ := Mkfs.main_image (elfFile_fit phoff).inodes hmain
  have hshort : (elfFile phoff).short = [115, 104] := by
    change shFile.short = _
    decide
  have hdist : ((Mkfs.rootEntries [elfFile phoff]).map fun e => key e.2).Nodup := by
    change ((Mkfs.rootEntries [shFile]).map fun e => key e.2).Nodup
    decide
  have hcons : Consistent Mkfs.sb rootino (mounted ms.img) := by
    refine image_consistent himage (elfFile_fit phoff).inodes ?_ hdist
    rw [List.length_singleton]
    decide
  obtain ⟨P, s, A, howner, hfree⟩ := onePage_owner
  obtain ⟨hsize, hdata⟩ := image_bytes himage (k := 0) rfl
  have hlen : (elfFile phoff).bytes.length = 176 := by rw [elfFile_bytes, slice_length]
  have hbyte : ∀ o < 176, (node Mkfs.sb (mounted ms.img) 2).data o = elfBytes phoff o := by
    intro o ho
    rw [hdata o (by omega)]
    simp only [elfFile_bytes, slice, List.getElem_map, List.getElem_range, Nat.zero_add]
  have hprepared : Preparable (node Mkfs.sb (mounted ms.img) 2) s.freelist.length :=
    hfree ▸ h.congr (hsize.trans hlen) fun o ho => hbyte o (by omega)
  have hfound := image_program himage (elfFile_fit phoff) ?_ (List.nodup_singleton _) hcons (k := 0) rfl ?_ ?_ ?_ s
    (show (oneProc (A.tab 2 0)).cwd = rootino from rfl)
  rw [hshort] at hfound
  · exact ⟨onImage ms.img s (oneProc (A.tab 2 0)), P, A, hcons, howner, rfl, hfound, hsize.trans hlen, hbyte,
      hprepared⟩
  · intro f hf
    rw [List.mem_singleton.mp hf]
    change 0 ∉ shFile.name
    decide
  · rw [hshort]
    decide
  · rw [hshort]
    decide
  · rw [hshort]
    decide

end Xv6.Exec
